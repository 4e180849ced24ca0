import WasmDbms.Db.JsonFilter
import WasmDbms.Lib.Numerals
import WasmDbms.Lib.Result

/-!
# Paths of JSON filters

The documented grammar of paths beside the texts that `parse_path` accepts. Beyond the
grammar it takes a plus sign in front of an index, a key directly behind an index and a
dot in front of a bracket; an index that is no `usize` is refused.
-/
namespace WasmDbms.PathSegment
open Numerals

/-! ## Paths as they are documented -/

/-- A character of a key. -/
def isPlain (c : Char) : Bool := c != '.' && c != '[' && c != ']'

def IsKey (name : List Char) : Prop := name ≠ [] ∧ ∀ c ∈ name, isPlain c = true

def IsIndex (digits : List Char) (i : ℕ) : Prop := digits ≠ [] ∧ (∀ c ∈ digits, c.isDigit = true) ∧ value digits = i

/-- The steps behind the first segment. -/
inductive Steps : List Char → List PathSegment → Prop
  | nil : Steps [] []
  | key {name rest : List Char} {segments : List PathSegment} (form : IsKey name) (more : Steps rest segments) :
      Steps ('.' :: (name ++ rest)) (.key (String.ofList name) :: segments)
  | index {digits rest : List Char} {i : ℕ} {segments : List PathSegment} (form : IsIndex digits i) (more : Steps rest segments) :
      Steps ('[' :: (digits ++ ']' :: rest)) (.index i :: segments)

/-- A path of the documented grammar and its segments. -/
inductive PathText : List Char → List PathSegment → Prop
  | key {name rest : List Char} {segments : List PathSegment} (form : IsKey name) (more : Steps rest segments) :
      PathText (name ++ rest) (.key (String.ofList name) :: segments)
  | index {digits rest : List Char} {i : ℕ} {segments : List PathSegment} (form : IsIndex digits i) (more : Steps rest segments) :
      PathText ('[' :: (digits ++ ']' :: rest)) (.index i :: segments)

/-! ## Paths with liberties -/

/-- An index, a plus sign in front of it perhaps. -/
def LooseIndex (usizeMax : ℕ) (text : List Char) (i : ℕ) : Prop :=
  ∃ digits, (text = digits ∨ text = '+' :: digits) ∧ IsIndex digits i ∧ i ≤ usizeMax

/-- Steps in which a dot may stand in front of a bracket and a key may stand directly behind
one; the flag tells whether a key may stand here without a dot. -/
inductive Loose (usizeMax : ℕ) : Bool → List Char → List PathSegment → Prop
  | nil {free : Bool} : Loose usizeMax free [] []
  | bare {name rest : List Char} {segments : List PathSegment} (form : IsKey name) (more : Loose usizeMax false rest segments) :
      Loose usizeMax true (name ++ rest) (.key (String.ofList name) :: segments)
  | key {free : Bool} {name rest : List Char} {segments : List PathSegment} (form : IsKey name)
      (more : Loose usizeMax false rest segments) :
      Loose usizeMax free ('.' :: (name ++ rest)) (.key (String.ofList name) :: segments)
  | index {free : Bool} {text rest : List Char} {i : ℕ} {segments : List PathSegment} (form : LooseIndex usizeMax text i)
      (more : Loose usizeMax true rest segments) : Loose usizeMax free ('[' :: (text ++ ']' :: rest)) (.index i :: segments)
  | dotted {free : Bool} {text rest : List Char} {i : ℕ} {segments : List PathSegment} (form : LooseIndex usizeMax text i)
      (more : Loose usizeMax true rest segments) : Loose usizeMax free ('.' :: '[' :: (text ++ ']' :: rest)) (.index i :: segments)

/-- A text of keys and bracketed indexes, the liberties included. -/
def LooseText (usizeMax : ℕ) (text : List Char) (segments : List PathSegment) : Prop :=
  text ≠ [] ∧ text.head? ≠ some '.' ∧ Loose usizeMax true text segments

/-- What may stand behind a character: no plus sign behind an opening bracket, no dot in front
of one, nothing but a dot or a bracket behind a closing one. -/
structure Beside (c d : Char) : Prop where
  no_plus : c = '[' → d ≠ '+'
  no_dot : c = '.' → d ≠ '['
  apart : c = ']' → d = '.' ∨ d = '['

/-- A text that takes no liberties. -/
def Tidy (text : List Char) : Prop := text.IsChain Beside

/-! ## What the scanner accepts -/

section Accepted
variable {J : Type} {usizeMax : ℕ}

theorem parseUsize_eq {text : List Char} {i : ℕ} :
    Aggregate.parseUsize text = some i ↔ ∃ digits, (text = digits ∨ text = '+' :: digits) ∧ IsIndex digits i := by
  have read (digits : List Char) : (if digits.isEmpty || !digits.all Char.isDigit then none else some (value digits)) = some i ↔
      IsIndex digits i := by
    rw [ite_eq_iff, Bool.or_eq_true, List.isEmpty_iff, Bool.not_eq_true', List.all_eq_false, not_or]
    simp [IsIndex, and_assoc]
  rw [Aggregate.parseUsize]
  refine (read _).trans ?_
  constructor
  · intro form
    split at form
    · rename_i plus
      obtain ⟨digits, rfl⟩ := List.head?_eq_some_iff.mp plus
      exact ⟨digits, .inr rfl, form⟩
    · exact ⟨text, .inl rfl, form⟩
  · rintro ⟨digits, rfl | rfl, form⟩
    · rw [if_neg]
      · exact form
      · intro plus
        obtain ⟨more, rfl⟩ := List.head?_eq_some_iff.mp plus
        have digit := form.2.1 '+' (by simp)
        exact absurd digit (by decide)
    · exact form

theorem LooseIndex.ne_nil {text : List Char} {i : ℕ} (form : LooseIndex usizeMax text i) : text ≠ [] := by
  obtain ⟨digits, rfl | rfl, form, _⟩ := form
  · exact form.1
  · exact List.cons_ne_nil _ _

theorem LooseIndex.plain {text : List Char} {i : ℕ} (form : LooseIndex usizeMax text i) :
    ∀ c ∈ text, c.isDigit = true ∨ c = '+' := by
  obtain ⟨digits, rfl | rfl, form, _⟩ := form
  · exact fun c member => .inl (form.2.1 c member)
  · rintro c member
    rcases List.mem_cons.mp member with rfl | member
    · exact .inr rfl
    · exact .inl (form.2.1 c member)

theorem LooseIndex.notMem {text : List Char} {i : ℕ} (form : LooseIndex usizeMax text i) {c : Char} (other : c.isDigit = false)
    (plus : c ≠ '+') : c ∉ text := by
  intro member
  rcases form.plain c member with digit | same
  · rw [digit] at other
    cases other
  · exact plus same

theorem ofIndex_ok {text : List Char} {segment : PathSegment} :
    (ofIndex usizeMax text : Except (QueryError J) PathSegment) = .ok segment ↔
      ∃ i, segment = .index i ∧ LooseIndex usizeMax text i := by
  have index (i : ℕ) : (Aggregate.parseUsize text).filter (fun i => decide (i ≤ usizeMax)) = some i ↔
      LooseIndex usizeMax text i := by
    rw [Option.filter_eq_some_iff, parseUsize_eq, decide_eq_true_eq]
    constructor
    · rintro ⟨⟨digits, same, form⟩, small⟩
      exact ⟨digits, same, form, small⟩
    · rintro ⟨digits, same, form, small⟩
      exact ⟨⟨digits, same, form⟩, small⟩
  constructor
  · intro made
    rw [ofIndex] at made
    split at made
    · cases made
    · split at made
      · cases made
      · cases parsed : (Aggregate.parseUsize text).filter fun i => decide (i ≤ usizeMax) with
        | none =>
            rw [parsed] at made
            cases made
        | some i =>
            rw [parsed] at made
            cases made
            exact ⟨i, rfl, (index i).mp parsed⟩
  · rintro ⟨i, rfl, form⟩
    have minus : text.head? ≠ some '-' := by
      intro minus
      obtain ⟨rest, rfl⟩ := List.head?_eq_some_iff.mp minus
      exact form.notMem (c := '-') (by decide) (by decide) (by simp)
    rw [ofIndex, if_neg form.ne_nil, if_neg minus, (index i).mpr form]

/-- The brackets are read up to the first closing one. -/
theorem scan_brackets {text : List Char} {indexStr key : List Char} {segments found : List PathSegment} :
    (scan usizeMax text (some indexStr) key segments : Except (QueryError J) _) = .ok found ↔
      ∃ front rest i, text = front ++ ']' :: rest ∧ ']' ∉ front ∧ LooseIndex usizeMax (indexStr ++ front) i ∧
        (scan usizeMax rest none key (segments ++ [.index i]) : Except (QueryError J) _) = .ok found := by
  induction text generalizing indexStr with
  | nil =>
      constructor
      · intro scanned
        cases scanned
      · rintro ⟨front, rest, i, same, _⟩
        cases front <;> cases same
  | cons c cs ih =>
      by_cases closing : c = ']'
      · subst closing
        rw [scan, if_pos rfl, Result.bind_eq_ok]
        constructor
        · rintro ⟨segment, made, scanned⟩
          obtain ⟨i, rfl, form⟩ := ofIndex_ok.mp made
          exact ⟨[], cs, i, rfl, List.not_mem_nil, by rwa [List.append_nil], scanned⟩
        · rintro ⟨front, rest, i, same, absent, form, scanned⟩
          cases front with
          | nil =>
              obtain rfl := (List.cons.inj same).2
              rw [List.append_nil] at form
              exact ⟨_, ofIndex_ok.mpr ⟨i, rfl, form⟩, scanned⟩
          | cons d front =>
              obtain ⟨rfl, _⟩ := List.cons.inj same
              exact absurd List.mem_cons_self absent
      · rw [scan, if_neg closing, ih]
        constructor
        · rintro ⟨front, rest, i, rfl, absent, form, scanned⟩
          refine ⟨c :: front, rest, i, rfl, ?_, ?_, scanned⟩
          · rintro member
            rcases List.mem_cons.mp member with same | member
            · exact closing same.symm
            · exact absent member
          · rwa [List.append_assoc] at form
        · rintro ⟨front, rest, i, same, absent, form, scanned⟩
          cases front with
          | nil => exact absurd (List.cons.inj same).1 closing
          | cons d front =>
              obtain ⟨rfl, rfl⟩ := List.cons.inj same
              refine ⟨front, rest, i, rfl, fun member => absent (List.mem_cons_of_mem _ member), ?_, scanned⟩
              rwa [List.append_assoc]

theorem isPlain_iff {c : Char} : isPlain c = true ↔ c ≠ '.' ∧ c ≠ '[' ∧ c ≠ ']' := by
  rw [isPlain, Bool.and_eq_true, Bool.and_eq_true, bne_iff_ne, bne_iff_ne, bne_iff_ne, and_assoc]

/-- The characters of a key are pushed one by one. -/
theorem scan_key {name rest key : List Char} {segments : List PathSegment} (plain : ∀ c ∈ name, isPlain c = true) :
    (scan usizeMax (name ++ rest) none key segments : Except (QueryError J) _) = scan usizeMax rest none (key ++ name) segments := by
  induction name generalizing key with
  | nil => rw [List.nil_append, List.append_nil]
  | cons c name ih =>
      obtain ⟨first, others⟩ := List.forall_mem_cons.mp plain
      obtain ⟨dot, opening, closing⟩ := isPlain_iff.mp first
      rw [List.cons_append, scan, if_neg dot, if_neg opening, if_neg closing, ih others, List.append_assoc]
      rfl

/-- A dot that neither starts nor ends the path, nor stands before another one. -/
theorem scan_dot {c : Char} {rest key : List Char} {segments : List PathSegment} (other : c ≠ '.')
    (behind : ¬(key = [] ∧ segments = [])) :
    (scan usizeMax ('.' :: c :: rest) none key segments : Except (QueryError J) _) =
      scan usizeMax (c :: rest) none [] (flush key segments) := by
  rw [scan, if_pos rfl, if_neg behind, if_neg (List.cons_ne_nil c rest), List.head?_cons,
    if_neg fun dot => other (Option.some.inj dot)]

theorem flush_nil (segments : List PathSegment) : flush [] segments = segments := rfl

theorem flush_some {key : List Char} (some_ : key ≠ []) (segments : List PathSegment) :
    flush key segments = segments ++ [.key (String.ofList key)] := if_neg some_

theorem flush_eq_nil {key : List Char} {segments : List PathSegment} : flush key segments = [] ↔ key = [] ∧ segments = [] := by
  rw [flush]
  split
  · rename_i none_
    exact ⟨fun same => ⟨none_, same⟩, fun both => both.2⟩
  · rename_i some_
    constructor
    · intro same
      cases List.append_eq_nil_iff.mp same |>.2
    · exact fun both => absurd both.1 some_

/-- Steps after which no key may stand without a dot may stand anywhere. -/
theorem Loose.freely {free : Bool} {text : List Char} {segments : List PathSegment} (form : Loose usizeMax free text segments) :
    Loose usizeMax true text segments := by
  cases form with
  | nil => exact .nil
  | bare form more => exact .bare form more
  | key form more => exact .key form more
  | index form more => exact .index form more
  | dotted form more => exact .dotted form more

/-- What stands here with a key in front of it, if there is one. -/
theorem Loose.after {name rest : List Char} {found : List PathSegment} (segments : List PathSegment) (plain : ∀ c ∈ name, isPlain c = true)
    (form : Loose usizeMax false rest found) :
    ∃ more, flush name segments ++ found = segments ++ more ∧ Loose usizeMax true (name ++ rest) more := by
  by_cases none_ : name = []
  · subst none_
    exact ⟨found, rfl, form.freely⟩
  · refine ⟨.key (String.ofList name) :: found, ?_, .bare ⟨none_, plain⟩ form⟩
    rw [flush_some none_, List.append_assoc]
    rfl

/-- Whatever is accepted goes on with the rest of a key and with steps. -/
theorem scan_sound (n : ℕ) : ∀ {text key : List Char} {segments found : List PathSegment}, text.length ≤ n →
    (scan usizeMax text none key segments : Except (QueryError J) _) = .ok found →
    ∃ name rest more, text = name ++ rest ∧ (∀ c ∈ name, isPlain c = true) ∧ found = flush (key ++ name) segments ++ more ∧
      Loose usizeMax false rest more := by
  induction n with
  | zero =>
      intro text key segments found short scanned
      obtain rfl := List.length_eq_zero_iff.mp (Nat.le_zero.mp short)
      rw [scan] at scanned
      split at scanned
      · cases scanned
      · cases scanned
        refine ⟨[], [], [], rfl, by simp, ?_, .nil⟩
        rw [List.append_nil, List.append_nil]
  | succ n ih =>
      intro text key segments found short scanned
      cases text with
      | nil => exact ih (Nat.zero_le n) scanned
      | cons c cs =>
          have within : cs.length ≤ n := Nat.le_of_succ_le_succ short
          rw [scan] at scanned
          by_cases dot : c = '.'
          · subst dot
            rw [if_pos rfl] at scanned
            split at scanned
            · cases scanned
            · split at scanned
              · cases scanned
              · rename_i last
                split at scanned
                · cases scanned
                · rename_i twice
                  obtain ⟨name, rest, more, rfl, plain, rfl, form⟩ := ih within scanned
                  rw [List.nil_append]
                  by_cases none_ : name = []
                  · subst none_
                    refine ⟨[], '.' :: rest, more, rfl, by simp, ?_, ?_⟩
                    · rw [List.append_nil, flush_nil]
                    · -- what follows the dot is neither the end nor another dot
                      cases form with
                      | nil => exact absurd rfl last
                      | key => exact absurd rfl twice
                      | index form more => exact .dotted form more
                      | dotted => exact absurd rfl twice
                  · refine ⟨[], '.' :: (name ++ rest), .key (String.ofList name) :: more, rfl, by simp, ?_, .key ⟨none_, plain⟩ form⟩
                    rw [List.append_nil, flush_some none_, List.append_assoc]
                    rfl
          · rw [if_neg dot] at scanned
            by_cases opening : c = '['
            · subst opening
              rw [if_pos rfl] at scanned
              obtain ⟨front, rest, i, rfl, _, form, behind⟩ := scan_brackets.mp scanned
              have shorter : rest.length ≤ n := by
                rw [List.length_append, List.length_cons] at within
                omega
              obtain ⟨name, rest, more, rfl, plain, rfl, steps⟩ := ih shorter behind
              obtain ⟨later, same, steps⟩ := Loose.after (flush key segments ++ [.index i]) plain steps
              refine ⟨[], '[' :: (front ++ ']' :: (name ++ rest)), .index i :: later, rfl, by simp, ?_, .index form steps⟩
              rw [List.nil_append, List.append_nil, same, List.append_assoc]
              rfl
            · rw [if_neg opening] at scanned
              by_cases closing : c = ']'
              · rw [if_pos closing] at scanned
                cases scanned
              · rw [if_neg closing] at scanned
                obtain ⟨name, rest, more, rfl, plain, rfl, form⟩ := ih within scanned
                refine ⟨c :: name, rest, more, rfl, ?_, ?_, form⟩
                · exact List.forall_mem_cons.mpr ⟨isPlain_iff.mpr ⟨dot, opening, closing⟩, plain⟩
                · rw [List.append_assoc]
                  rfl

/-- Steps are accepted behind a key, and behind segments or at the start of a path that is not
empty and has no dot there. -/
theorem Loose.scanned {free : Bool} {text : List Char} {more : List PathSegment} (form : Loose usizeMax free text more) :
    ∀ {key : List Char} {segments : List PathSegment}, (free = true → key = []) →
    (flush key segments = [] → text ≠ [] ∧ text.head? ≠ some '.') →
    (scan usizeMax text none key segments : Except (QueryError J) _) = .ok (flush key segments ++ more) := by
  have named {name : List Char} (form : IsKey name) (segments : List PathSegment) : flush name segments ≠ [] :=
    fun none_ => form.1 (flush_eq_nil.mp none_).1
  have bracketed {text rest : List Char} {i : ℕ} {segments more : List PathSegment} (form : LooseIndex usizeMax text i)
      (ih : ∀ {key : List Char} {segments : List PathSegment}, (true = true → key = []) →
        (flush key segments = [] → rest ≠ [] ∧ rest.head? ≠ some '.') →
        (scan usizeMax rest none key segments : Except (QueryError J) _) = .ok (flush key segments ++ more)) :
      (scan usizeMax (text ++ ']' :: rest) (some []) [] segments : Except (QueryError J) _) =
        .ok (segments ++ .index i :: more) := by
    refine scan_brackets.mpr ⟨text, rest, i, rfl, form.notMem (by decide) (by decide), form, ?_⟩
    refine (ih (fun _ => rfl) ?_).trans ?_
    · intro none_
      cases List.append_eq_nil_iff.mp (flush_eq_nil.mp none_).2 |>.2
    · rw [flush_nil, List.append_assoc]
      rfl
  induction form with
  | nil =>
      intro key segments _ some_
      rw [scan, if_neg fun none_ => (some_ none_).1 rfl, List.append_nil]
  | bare form _ ih =>
      intro key segments empty _
      obtain rfl := empty rfl
      rw [scan_key form.2, List.nil_append, ih Bool.noConfusion fun none_ => absurd none_ (named form segments),
        flush_some form.1, List.append_assoc]
      rfl
  | @key free name rest more form _ ih =>
      intro key segments _ some_
      obtain ⟨c, name, rfl⟩ := List.exists_cons_of_ne_nil form.1
      have first := (isPlain_iff.mp (form.2 c List.mem_cons_self)).1
      have entered := @scan_dot J usizeMax c (name ++ rest) key segments first
        fun none_ => (some_ (flush_eq_nil.mpr none_)).2 rfl
      rw [List.cons_append, entered, ← List.cons_append, scan_key form.2, List.nil_append,
        ih Bool.noConfusion fun none_ => absurd none_ (named form _), flush_some form.1, List.append_assoc]
      rfl
  | index form _ ih =>
      intro key segments _ _
      rw [scan, if_neg (by decide), if_pos rfl]
      exact bracketed form ih
  | dotted form _ ih =>
      intro key segments _ some_
      rw [scan_dot (by decide) fun none_ => (some_ (flush_eq_nil.mpr none_)).2 rfl, scan, if_neg (by decide), if_pos rfl]
      exact bracketed form ih

/-- The scanner accepts the paths with liberties, and no others. -/
theorem parsePath_ok {path : String} {segments : List PathSegment} :
    (parsePath usizeMax path : Except (QueryError J) _) = .ok segments ↔ LooseText usizeMax path.toList segments := by
  have empty : path.isEmpty = true ↔ path.toList = [] := by
    rw [String.isEmpty_iff, ← String.toList_eq_nil_iff]
  rw [parsePath]
  constructor
  · intro parsed
    split at parsed
    · cases parsed
    · rename_i some_
      refine ⟨fun none_ => some_ (empty.mpr none_), ?_, ?_⟩
      · intro dot
        obtain ⟨rest, same⟩ := List.head?_eq_some_iff.mp dot
        rw [same, scan, if_pos rfl, if_pos ⟨rfl, rfl⟩] at parsed
        cases parsed
      · obtain ⟨name, rest, more, same, plain, rfl, form⟩ := scan_sound _ le_rfl parsed
        obtain ⟨later, joined, steps⟩ := Loose.after [] plain form
        rw [List.nil_append, joined, same]
        exact steps
  · rintro ⟨some_, start, form⟩
    rw [if_neg fun none_ => some_ (empty.mp none_)]
    exact form.scanned (fun _ => rfl) fun _ => ⟨some_, start⟩

end Accepted

/-! ## Tidy paths -/

section Grammar
variable {J : Type} {usizeMax : ℕ}

theorem tidy_cons {c : Char} {text : List Char} : Tidy (c :: text) ↔ (∀ d ∈ text.head?, Beside c d) ∧ Tidy text :=
  List.isChain_cons

theorem Beside.plain {c : Char} (plain : isPlain c = true) (d : Char) : Beside c d := by
  obtain ⟨dot, opening, closing⟩ := isPlain_iff.mp plain
  exact ⟨fun same => absurd same opening, fun same => absurd same dot, fun same => absurd same closing⟩

theorem digit_plain {c : Char} (digit : c.isDigit = true) : isPlain c = true := by
  refine isPlain_iff.mpr ⟨?_, ?_, ?_⟩ <;>
  · rintro rfl
    exact absurd digit (by decide)

/-- Keys and digits add nothing untidy. -/
theorem Tidy.key {name rest : List Char} (plain : ∀ c ∈ name, isPlain c = true) (tidy : Tidy rest) : Tidy (name ++ rest) := by
  induction name with
  | nil => exact tidy
  | cons c name ih =>
      obtain ⟨first, others⟩ := List.forall_mem_cons.mp plain
      exact tidy_cons.mpr ⟨fun d _ => .plain first d, ih others⟩

/-- Steps start with a dot or a bracket. -/
theorem Steps.head {text : List Char} {segments : List PathSegment} (form : Steps text segments) :
    ∀ d ∈ text.head?, d = '.' ∨ d = '[' := by
  rintro d start
  cases form with
  | nil => cases start
  | key form more => exact .inl (Option.some.inj start).symm
  | index form more => exact .inr (Option.some.inj start).symm

/-- An index in brackets in front of tidy steps is tidy. -/
theorem Tidy.index {digits rest : List Char} {i : ℕ} (form : IsIndex digits i) (tidy : Tidy rest)
    (apart : ∀ d ∈ rest.head?, d = '.' ∨ d = '[') : Tidy ('[' :: (digits ++ ']' :: rest)) := by
  refine tidy_cons.mpr ⟨?_, .key (fun c member => digit_plain (form.2.1 c member)) (tidy_cons.mpr ⟨?_, tidy⟩)⟩
  · intro d start
    obtain ⟨c, digits, rfl⟩ := List.exists_cons_of_ne_nil form.1
    obtain rfl : c = d := Option.some.inj start
    have digit := form.2.1 c List.mem_cons_self
    refine ⟨?_, fun same => absurd same (by decide), fun same => absurd same (by decide)⟩
    rintro - rfl
    exact absurd digit (by decide)
  · intro d start
    exact ⟨fun same => absurd same (by decide), fun same => absurd same (by decide), fun _ => apart d start⟩

theorem Steps.tidy {text : List Char} {segments : List PathSegment} (form : Steps text segments) : Tidy text := by
  induction form with
  | nil => exact .nil
  | key form _ ih =>
      refine tidy_cons.mpr ⟨?_, .key form.2 ih⟩
      intro d start
      obtain ⟨c, name, rfl⟩ := List.exists_cons_of_ne_nil form.1
      obtain rfl : c = d := Option.some.inj start
      have first := isPlain_iff.mp (form.2 c List.mem_cons_self)
      exact ⟨fun same => absurd same (by decide), fun _ => first.2.1, fun same => absurd same (by decide)⟩
  | index form more ih => exact .index form ih more.head

theorem PathText.tidy {text : List Char} {segments : List PathSegment} (form : PathText text segments) : Tidy text := by
  cases form with
  | key form more => exact .key form.2 more.tidy
  | index form more => exact .index form more.tidy more.head

/-- Every index is a `usize`. -/
def Fits (usizeMax : ℕ) (segments : List PathSegment) : Prop := ∀ i, .index i ∈ segments → i ≤ usizeMax

theorem fits_nil : Fits usizeMax [] := by
  intro i member
  cases member

theorem fits_key {name : String} {segments : List PathSegment} : Fits usizeMax (.key name :: segments) ↔ Fits usizeMax segments := by
  constructor
  · intro fits i member
    exact fits i (List.mem_cons_of_mem _ member)
  · intro fits i member
    rcases List.mem_cons.mp member with same | member
    · cases same
    · exact fits i member

theorem fits_index {i : ℕ} {segments : List PathSegment} :
    Fits usizeMax (.index i :: segments) ↔ i ≤ usizeMax ∧ Fits usizeMax segments := by
  constructor
  · intro fits
    exact ⟨fits i List.mem_cons_self, fun j member => fits j (List.mem_cons_of_mem _ member)⟩
  · rintro ⟨small, fits⟩ j member
    rcases List.mem_cons.mp member with same | member
    · cases same
      exact small
    · exact fits j member

theorem Loose.fits {free : Bool} {text : List Char} {segments : List PathSegment} (form : Loose usizeMax free text segments) :
    Fits usizeMax segments := by
  induction form with
  | nil => exact fits_nil
  | bare _ _ ih => exact fits_key.mpr ih
  | key _ _ ih => exact fits_key.mpr ih
  | index form _ ih =>
      obtain ⟨_, _, _, small⟩ := form
      exact fits_index.mpr ⟨small, ih⟩
  | dotted form _ ih =>
      obtain ⟨_, _, _, small⟩ := form
      exact fits_index.mpr ⟨small, ih⟩

theorem Steps.loose {text : List Char} {segments : List PathSegment} (form : Steps text segments) :
    Fits usizeMax segments → ∀ free, Loose usizeMax free text segments := by
  induction form with
  | nil => exact fun _ _ => .nil
  | key form _ ih => exact fun fits _ => .key form (ih (fits_key.mp fits) false)
  | index form _ ih =>
      intro fits _
      obtain ⟨small, fits⟩ := fits_index.mp fits
      exact .index ⟨_, .inl rfl, form, small⟩ (ih fits true)

/-- The documented paths are among those with liberties. -/
theorem PathText.loose {text : List Char} {segments : List PathSegment} (form : PathText text segments)
    (fits : Fits usizeMax segments) : LooseText usizeMax text segments := by
  cases form with
  | @key name rest segments form more =>
      obtain ⟨c, name, rfl⟩ := List.exists_cons_of_ne_nil form.1
      refine ⟨List.cons_ne_nil _ _, ?_, .bare form (more.loose (fits_key.mp fits) false)⟩
      intro dot
      exact (isPlain_iff.mp (form.2 c List.mem_cons_self)).1 (Option.some.inj dot)
  | index form more =>
      obtain ⟨small, fits⟩ := fits_index.mp fits
      refine ⟨List.cons_ne_nil _ _, ?_, .index ⟨_, .inl rfl, form, small⟩ (more.loose fits true)⟩
      intro dot
      cases Option.some.inj dot

/-- A tidy index has no sign. -/
theorem LooseIndex.tidy {text rest : List Char} {i : ℕ} (form : LooseIndex usizeMax text i) (tidy : Tidy ('[' :: (text ++ rest))) :
    IsIndex text i := by
  obtain ⟨digits, rfl | rfl, form, _⟩ := form
  · exact form
  · exact absurd rfl (((tidy_cons.mp tidy).1 '+' rfl).no_plus rfl)

/-- Tidy steps are steps of the documented grammar, unless they start with a key without a dot. -/
theorem Loose.steps {free : Bool} {text : List Char} {segments : List PathSegment} (form : Loose usizeMax free text segments) :
    Tidy text → (∀ d ∈ text.head?, d = '.' ∨ d = '[') → Steps text segments := by
  have behind {rest : List Char} (tidy : Tidy (']' :: rest)) : ∀ d ∈ rest.head?, d = '.' ∨ d = '[' :=
    fun d start => ((tidy_cons.mp tidy).1 d start).apart rfl
  -- a key ends where a dot or a bracket stands, or at the end
  have stop {free : Bool} {rest : List Char} {segments : List PathSegment} (form : Loose usizeMax free rest segments)
      (locked : free = false) : ∀ d ∈ rest.head?, d = '.' ∨ d = '[' := by
    intro d start
    cases form with
    | nil => cases start
    | bare => cases locked
    | key => exact .inl (Option.some.inj start).symm
    | index => exact .inr (Option.some.inj start).symm
    | dotted => exact .inl (Option.some.inj start).symm
  induction form with
  | nil => exact fun _ _ => .nil
  | bare form _ _ =>
      intro _ start
      obtain ⟨c, name, rfl⟩ := List.exists_cons_of_ne_nil form.1
      obtain ⟨dot, opening, _⟩ := isPlain_iff.mp (form.2 c List.mem_cons_self)
      rcases start c rfl with same | same
      · exact absurd same dot
      · exact absurd same opening
  | key form more ih =>
      intro tidy _
      exact .key form (ih (tidy_cons.mp tidy).2.right_of_append (stop more rfl))
  | index form _ ih =>
      intro tidy _
      have rest := (tidy_cons.mp tidy).2.right_of_append
      exact .index (form.tidy tidy) (ih (tidy_cons.mp rest).2 (behind rest))
  | dotted form _ _ =>
      intro tidy _
      exact absurd rfl (((tidy_cons.mp tidy).1 '[' rfl).no_dot rfl)

/-- A tidy path with liberties is a path of the documented grammar. -/
theorem LooseText.documented {text : List Char} {segments : List PathSegment} (form : LooseText usizeMax text segments) (tidy : Tidy text) :
    PathText text segments := by
  obtain ⟨some_, start, form⟩ := form
  cases form with
  | nil => exact absurd rfl some_
  | bare form more =>
      refine .key form (more.steps tidy.right_of_append ?_)
      intro d start
      cases more with
      | nil => cases start
      | key => exact .inl (Option.some.inj start).symm
      | index => exact .inr (Option.some.inj start).symm
      | dotted => exact .inl (Option.some.inj start).symm
  | key => exact absurd rfl start
  | dotted => exact absurd rfl start
  | index form more =>
      have behind := (tidy_cons.mp tidy).2.right_of_append
      exact .index (form.tidy tidy)
        (more.steps (tidy_cons.mp behind).2 fun d start => ((tidy_cons.mp behind).1 d start).apart rfl)

/-! ## Paths and their segments -/

/-- A step as it is written, an index with zeros up to some width. -/
def stepText : ℕ × PathSegment → List Char
  | (_, .key name) => '.' :: name.toList
  | (width, .index i) => '[' :: (padded width i ++ [']'])

/-- Segments as a path, each with a width for its index. -/
def pathText : List (ℕ × PathSegment) → List Char
  | [] => []
  | (_, .key name) :: rest => name.toList ++ rest.flatMap stepText
  | (width, .index i) :: rest => stepText (width, .index i) ++ rest.flatMap stepText

/-- The path of some segments, no zeros in front of its indexes. -/
def print (segments : List PathSegment) : String := String.ofList (pathText (segments.map fun segment => (0, segment)))

/-- A segment a path can name. -/
def Nameable (usizeMax : ℕ) : PathSegment → Prop
  | .key name => IsKey name.toList
  | .index i => i ≤ usizeMax

theorem padded_index (width i : ℕ) : IsIndex (padded width i) i := by
  refine ⟨?_, padded_digits width i, padded_value width i⟩
  intro none_
  have long := padded_length width i
  rw [none_] at long
  have some_ : 0 < (Nat.toDigits 10 i).length := List.length_pos_of_ne_nil Nat.toDigits_ne_nil
  change 0 = max width (Nat.toDigits 10 i).length at long
  omega

theorem index_padded {digits : List Char} {i : ℕ} (form : IsIndex digits i) : digits = padded digits.length i := by
  rw [← form.2.2, padded_of_digits form.1 form.2.1]

theorem stepText_index (width i : ℕ) (rest : List Char) :
    stepText (width, .index i) ++ rest = '[' :: (padded width i ++ ']' :: rest) := by
  rw [stepText, List.cons_append, List.append_assoc]
  rfl

theorem steps_written {pieces : List (ℕ × PathSegment)} (nameable : ∀ piece ∈ pieces, Nameable usizeMax piece.2) :
    Steps (pieces.flatMap stepText) (pieces.map Prod.snd) := by
  induction pieces with
  | nil => exact .nil
  | cons piece pieces ih =>
      obtain ⟨first, others⟩ := List.forall_mem_cons.mp nameable
      rw [List.flatMap_cons, List.map_cons]
      obtain ⟨width, segment⟩ := piece
      cases segment with
      | key name =>
          have step := Steps.key first (ih others)
          rwa [String.ofList_toList] at step
      | index i =>
          rw [stepText_index]
          exact .index (padded_index width i) (ih others)

theorem pathText_written {pieces : List (ℕ × PathSegment)} (some_ : pieces ≠ [])
    (nameable : ∀ piece ∈ pieces, Nameable usizeMax piece.2) : PathText (pathText pieces) (pieces.map Prod.snd) := by
  obtain ⟨⟨width, segment⟩, pieces, rfl⟩ := List.exists_cons_of_ne_nil some_
  obtain ⟨first, others⟩ := List.forall_mem_cons.mp nameable
  cases segment with
  | key name =>
      have path := PathText.key first (steps_written others)
      rwa [String.ofList_toList] at path
  | index i =>
      rw [pathText, stepText_index]
      exact .index (padded_index width i) (steps_written others)

theorem Steps.written {text : List Char} {segments : List PathSegment} (form : Steps text segments) :
    ∃ pieces : List (ℕ × PathSegment), pieces.map Prod.snd = segments ∧ pieces.flatMap stepText = text := by
  induction form with
  | nil => exact ⟨[], rfl, rfl⟩
  | @key name rest segments form _ ih =>
      obtain ⟨pieces, rfl, rfl⟩ := ih
      refine ⟨(0, .key (String.ofList name)) :: pieces, rfl, ?_⟩
      rw [List.flatMap_cons, stepText, String.toList_ofList]
      rfl
  | @index digits rest i segments form _ ih =>
      obtain ⟨pieces, rfl, rfl⟩ := ih
      refine ⟨(digits.length, .index i) :: pieces, rfl, ?_⟩
      rw [List.flatMap_cons, stepText_index, ← index_padded form]

/-- A documented path is the text of its segments up to zeros in front of its indexes. -/
theorem PathText.written {text : List Char} {segments : List PathSegment} (form : PathText text segments) :
    ∃ pieces : List (ℕ × PathSegment), pieces.map Prod.snd = segments ∧ pathText pieces = text := by
  cases form with
  | @key name rest segments form more =>
      obtain ⟨pieces, rfl, rfl⟩ := more.written
      refine ⟨(0, .key (String.ofList name)) :: pieces, rfl, ?_⟩
      rw [pathText, String.toList_ofList]
  | @index digits rest i segments form more =>
      obtain ⟨pieces, rfl, rfl⟩ := more.written
      refine ⟨(digits.length, .index i) :: pieces, rfl, ?_⟩
      rw [pathText, stepText_index, ← index_padded form]

/-- The segments of a path determine it up to leading zeros, and it is accepted exactly when it is
documented. -/
structure AsDocumented (J : Type) (usizeMax : ℕ) (path : String) : Prop where
  accepted : ∀ segments, (parsePath usizeMax path : Except (QueryError J) _) = .ok segments ↔ PathText path.toList segments
  printed : ∀ segments, (parsePath usizeMax path : Except (QueryError J) _) = .ok segments →
    ∃ pieces : List (ℕ × PathSegment), pieces.map Prod.snd = segments ∧ pathText pieces = path.toList

/-- Printed segments are read back, and a path is treated as documented exactly when it takes no
liberty that is accepted and has no index that is refused. -/
theorem parsePath_documented (J : Type) (usizeMax : ℕ) :
    (∀ segments, segments ≠ [] → (∀ segment ∈ segments, Nameable usizeMax segment) →
      (parsePath usizeMax (print segments) : Except (QueryError J) _) = .ok segments) ∧
    ∀ path : String, AsDocumented J usizeMax path ↔
      (∀ segments, LooseText usizeMax path.toList segments → Tidy path.toList) ∧
      ∀ segments, PathText path.toList segments → Fits usizeMax segments := by
  refine ⟨?_, ?_⟩
  · intro segments some_ nameable
    have path := @pathText_written usizeMax (segments.map fun segment => (0, segment))
      (fun none_ => some_ (List.map_eq_nil_iff.mp none_)) (List.forall_mem_map.mpr nameable)
    have same : (segments.map fun segment => (0, segment)).map Prod.snd = segments := by
      rw [List.map_map]
      exact List.map_id segments
    rw [same] at path
    refine parsePath_ok.mpr ?_
    rw [print, String.toList_ofList]
    exact path.loose fun i member => nameable _ member
  · intro path
    constructor
    · rintro ⟨accepted, _⟩
      refine ⟨fun segments form => ((accepted segments).mp (parsePath_ok.mpr form)).tidy, ?_⟩
      intro segments form
      exact (parsePath_ok.mp ((accepted segments).mpr form)).2.2.fits
    · rintro ⟨tidy, fits⟩
      have documented (segments : List PathSegment) :
          (parsePath usizeMax path : Except (QueryError J) _) = .ok segments ↔ PathText path.toList segments := by
        rw [parsePath_ok]
        exact ⟨fun form => form.documented (tidy segments form), fun form => form.loose (fits segments form)⟩
      exact ⟨documented, fun segments parsed => ((documented segments).mp parsed).written⟩

/-- Segments read back from their path. -/
theorem printed_path_read_back :
    (parsePath 4294967295 (print [.key "users", .index 0, .key "name"]) : Except (QueryError Unit) _) =
      .ok [.key "users", .index 0, .key "name"] := by
  refine (parsePath_documented Unit 4294967295).1 _ (List.cons_ne_nil _ _) ?_
  rintro segment member
  rcases List.mem_cons.mp member with rfl | member
  · exact ⟨by decide, List.all_eq_true.mp (by decide)⟩
  · rcases List.mem_cons.mp member with rfl | member
    · exact Nat.zero_le _
    · obtain rfl := List.mem_singleton.mp member
      exact ⟨by decide, List.all_eq_true.mp (by decide)⟩

/-- A sign in front of an index, a key directly behind one and a dot in front of one are accepted. -/
theorem liberties_accepted :
    ¬AsDocumented Unit 4294967295 "a[+1]" ∧ ¬AsDocumented Unit 4294967295 "a[0]b" ∧ ¬AsDocumented Unit 4294967295 "a.[0]" := by
  have untidy (path : String) (segments : List PathSegment)
      (parsed : (parsePath 4294967295 path : Except (QueryError Unit) _) = .ok segments) (c d : Char) (front rest : List Char)
      (text : path.toList = front ++ c :: d :: rest) (bad : ¬Beside c d) : ¬AsDocumented Unit 4294967295 path := by
    rintro ⟨accepted, _⟩
    have tidy := ((accepted segments).mp parsed).tidy
    rw [text] at tidy
    exact bad ((tidy_cons.mp tidy.right_of_append).1 d rfl)
  refine ⟨?_, ?_, ?_⟩
  · exact untidy "a[+1]" [.key "a", .index 1] (by rfl) '[' '+' ['a'] ['1', ']'] (by rfl) fun beside => beside.no_plus rfl rfl
  · refine untidy "a[0]b" [.key "a", .index 0, .key "b"] (by rfl) ']' 'b' ['a', '[', '0'] [] (by rfl) fun beside => ?_
    exact absurd (beside.apart rfl) (by decide)
  · exact untidy "a.[0]" [.key "a", .index 0] (by rfl) '.' '[' ['a'] ['0', ']'] (by rfl) fun beside => beside.no_dot rfl rfl

end Grammar
end WasmDbms.PathSegment
