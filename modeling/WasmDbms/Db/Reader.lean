import WasmDbms.Db.Filter
import WasmDbms.Lib.Sorted
import WasmDbms.Table.Registry

/-!
# Reads of an index

An index is the list of its entries in key order, as a range scan of its tree
visits them. `IndexScan` is one contiguous range of keys.
-/
namespace WasmDbms
open Sorted

/-- The order of addresses: by page, then by offset. -/
instance : LinearOrder RecordAddress :=
  LinearOrder.lift' (fun a => (toLex (a.page, a.offset) : ℕ ×ₗ ℕ)) fun a b same => by
    obtain ⟨page, offset⟩ := Prod.mk.inj (toLex_inj.mp same)
    cases a; cases b; cases page; cases offset; rfl

inductive TableError where
  | tableNotFound
  | schemaMismatch
  deriving DecidableEq, Repr

inductive TransactionError where
  | noActiveTransaction
  deriving DecidableEq, Repr

inductive DbmsError (J : Type) where
  | memory (e : MemoryError)
  | query (e : QueryError J)
  | table (e : TableError)
  | transaction (e : TransactionError)
  | validation (message : String)
  | sanitize (message : String)

inductive Bound (α : Type) where
  | included (a : α)
  | excluded (a : α)
  | unbounded
  deriving DecidableEq

namespace Bound

def value? {α : Type} : Bound α → Option α
  | included a | excluded a => some a
  | unbounded => none

variable {α : Type} [LinearOrder α]

def admitsLower : Bound α → α → Bool
  | included lower, x => lower ≤ x
  | excluded lower, x => lower < x
  | unbounded, _ => true

def admitsUpper : Bound α → α → Bool
  | included upper, x => x ≤ upper
  | excluded upper, x => x < upper
  | unbounded, _ => true

theorem admitsUpper_of_le {b : Bound α} {x y : α} (le : x ≤ y) (admits : b.admitsUpper y = true) :
    b.admitsUpper x = true := by
  cases b with
  | included u => exact decide_eq_true (le.trans (of_decide_eq_true admits))
  | excluded u => exact decide_eq_true (le.trans_lt (of_decide_eq_true admits))
  | unbounded => rfl

end Bound

/-- One contiguous key range of an index: an equality prefix on the leading columns
and bounds on the next one. A prefix with all columns is an exact key. -/
structure IndexScan (J : Type) where
  columns : List String
  keyPrefix : List (Value J)
  lower : Bound (Value J)
  upper : Bound (Value J)

abbrev IndexEntry (J : Type) := List (Value J) × RecordAddress

namespace IndexScan
variable {J : Type}

def range (columns : List String) (keyPrefix : List (Value J)) (lower upper : Bound (Value J)) :
    IndexScan J := ⟨columns, keyPrefix, lower, upper⟩

/-- `IndexScan::prefix`. -/
def ofPrefix (columns : List String) (keyPrefix : List (Value J)) : IndexScan J :=
  range columns keyPrefix .unbounded .unbounded

def isExact (scan : IndexScan J) : Bool := scan.columns.length ≤ scan.keyPrefix.length

/-- The key the cursor starts from. -/
def seekKey (scan : IndexScan J) : List (Value J) :=
  match scan.lower with
  | .included value | .excluded value => scan.keyPrefix ++ [value]
  | .unbounded => scan.keyPrefix

/-- The columns whose changes can move a row into the scan. -/
def constrainedColumns (scan : IndexScan J) : List String :=
  let hasRange := match scan.lower, scan.upper with
    | .unbounded, .unbounded => false
    | _, _ => true
  scan.columns.take (min (scan.keyPrefix.length + hasRange.toNat) scan.columns.length)

variable [LinearOrder J]

def admits (scan : IndexScan J) (component : Value J) : Bool :=
  scan.lower.admitsLower component && scan.upper.admitsUpper component

/-- Whether the index key of a row lies in the scan. -/
def matchesRow (scan : IndexScan J) (row : Row J) : Bool :=
  let value (position : ℕ) := scan.columns[position]?.bind fun column => findColumn column row
  scan.keyPrefix.zipIdx.all (fun expected => value expected.2 = some expected.1) &&
    (scan.isExact || (value scan.keyPrefix.length).any scan.admits)

/-- The keys of the scan. -/
def holdsKey (scan : IndexScan J) (key : List (Value J)) : Bool :=
  if scan.isExact then key = scan.keyPrefix
  else key.take scan.keyPrefix.length = scan.keyPrefix && key[scan.keyPrefix.length]?.any scan.admits

end IndexScan

inductive ControlFlow (σ : Type) where
  | next (s : σ)
  | stop (s : σ)

section Visit
variable {J E σ : Type}

/-- Visits entries until the visitor stops. -/
def visitAll (visit : σ → List (Value J) → RecordAddress → Except E (ControlFlow σ)) :
    List (IndexEntry J) → σ → Except E σ
  | [], s => .ok s
  | (key, address) :: rest, s => do
      match ← visit s key address with
      | .next s => visitAll visit rest s
      | .stop s => return s

variable [LinearOrder J]

/-- The loop over the cursor. It ends where the prefix changes or the upper bound
is passed. -/
def walkEntries (scan : IndexScan J)
    (visit : σ → List (Value J) → RecordAddress → Except E (ControlFlow σ)) :
    List (IndexEntry J) → σ → Except E σ
  | [], s => .ok s
  | (key, address) :: rest, s =>
      if key.take scan.keyPrefix.length ≠ scan.keyPrefix then .ok s
      else match key[scan.keyPrefix.length]? with
        | none => .ok s
        | some component =>
            if !scan.lower.admitsLower component then walkEntries scan visit rest s
            else if !scan.upper.admitsUpper component then .ok s
            else do
              match ← visit s key address with
              | .next s => walkEntries scan visit rest s
              | .stop s => return s

end Visit

/-- The indexes of a table by their columns, each with its entries. -/
abbrev IndexLedger (J : Type) := List (List String × List (IndexEntry J))

namespace IndexLedger
variable {J E σ : Type} [LinearOrder J]

/-- `lookup_root_page`. -/
def lookup (ledger : IndexLedger J) (columns : List String) : Except (DbmsError J) (List (IndexEntry J)) :=
  match ledger.find? fun index => index.1 == columns with
  | some index => .ok index.2
  | none => .error (.memory (.indexNotFound columns))

def search (ledger : IndexLedger J) (columns : List String) (key : List (Value J)) :
    Except (DbmsError J) (List RecordAddress) := do
  let entries ← ledger.lookup columns
  return (entries.filter fun e => e.1 = key).map Prod.snd

def searchLimited (ledger : IndexLedger J) (columns : List String) (key : List (Value J)) (limit : ℕ) :
    Except (DbmsError J) (Option (List RecordAddress)) := do
  let found ← ledger.search columns key
  return if limit < found.length then none else some found

def rangeScan (ledger : IndexLedger J) (columns : List String) (start : List (Value J)) :
    Except (DbmsError J) (List (IndexEntry J)) := do
  let entries ← ledger.lookup columns
  return entries.filter fun e => start ≤ e.1

end IndexLedger

namespace IndexReader
variable {J σ : Type} [LinearOrder J]

/-- Visits the entries of a scan in key order. -/
def forEachEntry (ledger : IndexLedger J) (scan : IndexScan J)
    (visit : σ → List (Value J) → RecordAddress → Except (DbmsError J) (ControlFlow σ)) (s : σ) :
    Except (DbmsError J) σ := do
  if scan.isExact then
    let found ← ledger.search scan.columns scan.keyPrefix
    visitAll visit (found.map fun address => (scan.keyPrefix, address)) s
  else
    let entries ← ledger.rangeScan scan.columns scan.seekKey
    walkEntries scan visit entries s

/-- The visitor of `addresses`: collects up to `limit` addresses, then gives up. -/
def collectUpTo (limit : ℕ) (found : List RecordAddress × Bool) (_ : List (Value J))
    (address : RecordAddress) : Except (DbmsError J) (ControlFlow (List RecordAddress × Bool)) :=
  .ok (if found.1.length = limit then .stop (found.1, true) else .next (found.1 ++ [address], found.2))

def addresses (ledger : IndexLedger J) (scan : IndexScan J) (limit : ℕ) :
    Except (DbmsError J) (Option (List RecordAddress)) := do
  if scan.isExact then ledger.searchLimited scan.columns scan.keyPrefix limit
  else
    let (found, overLimit) ← forEachEntry ledger scan (collectUpTo limit) ([], false)
    return if overLimit then none else some found

end IndexReader

/-! ## The entries a scan visits -/

/-- The entries are those of the rows, in key order. -/
structure IndexOf {J : Type} [LinearOrder J] (columns : List String) (rows : List (RecordAddress × Row J))
    (entries : List (IndexEntry J)) : Prop where
  sorted : entries.Pairwise fun a b => a.1 ≤ b.1
  perm : entries.Perm (rows.map fun r => (indexKey columns r.2, r.1))

/-- The entries are in key order, each key with a component for every column. -/
structure KeyOrdered {J : Type} [LinearOrder J] (columns : List String) (entries : List (IndexEntry J)) : Prop where
  sorted : entries.Pairwise fun a b => a.1 ≤ b.1
  lengths : ∀ e ∈ entries, e.1.length = columns.length

theorem split_after {α : Type} {key begin : List α} (begins : key.take begin.length = begin)
    (short : begin.length < key.length) : ∃ c rest, key = begin ++ c :: rest := by
  refine ⟨key[begin.length], key.drop (begin.length + 1), ?_⟩
  calc key = key.take begin.length ++ key.drop begin.length := (List.take_append_drop _ _).symm
    _ = begin ++ key[begin.length] :: key.drop (begin.length + 1) := by
      rw [begins, ← List.drop_eq_getElem_cons short]

section Spec
variable {J E σ : Type} [LinearOrder J] {scan : IndexScan J}
  {visit : σ → List (Value J) → RecordAddress → Except E (ControlFlow σ)}

theorem IndexScan.holdsKey_iff (open_ : scan.isExact = false) {key : List (Value J)} :
    scan.holdsKey key = true ↔ ∃ c rest, key = scan.keyPrefix ++ c :: rest ∧ scan.admits c = true := by
  rw [IndexScan.holdsKey, if_neg (by simp [open_])]
  constructor
  · intro holds
    obtain ⟨begins, admitted⟩ := Bool.and_eq_true_iff.mp holds
    have short : scan.keyPrefix.length < key.length := by
      by_contra long
      rw [List.getElem?_eq_none (not_lt.mp long)] at admitted
      cases admitted
    obtain ⟨c, rest, form⟩ := split_after (of_decide_eq_true begins) short
    refine ⟨c, rest, form, ?_⟩
    rw [form] at admitted
    simpa using admitted
  · rintro ⟨c, rest, rfl, admits⟩
    simp [admits]

theorem IndexScan.seekKey_le (open_ : scan.isExact = false) {key : List (Value J)}
    (holds : scan.holdsKey key = true) : scan.seekKey ≤ key := by
  obtain ⟨c, rest, rfl, admits⟩ := (IndexScan.holdsKey_iff open_).mp holds
  obtain ⟨lower, _⟩ := Bool.and_eq_true_iff.mp admits
  unfold IndexScan.seekKey
  split
  next value bound =>
    rw [bound] at lower
    exact append_le_append (of_decide_eq_true lower)
  next value bound =>
    rw [bound] at lower
    exact append_le_append (of_decide_eq_true lower : value < c).le
  next => exact le_append _ _

theorem IndexScan.keyPrefix_le_seekKey (scan : IndexScan J) : scan.keyPrefix ≤ scan.seekKey := by
  unfold IndexScan.seekKey
  split
  · exact le_append _ _
  · exact le_append _ _
  · exact le_refl _

/-- Where the loop over the cursor ends, no later entry lies in the scan. -/
theorem walkEntries_eq (open_ : scan.isExact = false) {entries : List (IndexEntry J)}
    (sorted : entries.Pairwise fun a b => a.1 ≤ b.1)
    (lengths : ∀ e ∈ entries, e.1.length = scan.columns.length) (s : σ) :
    walkEntries scan visit (entries.filter fun e => scan.seekKey ≤ e.1) s =
      visitAll visit (entries.filter fun e => scan.holdsKey e.1) s := by
  induction entries generalizing s with
  | nil => rfl
  | cons e rest ih =>
      obtain ⟨key, address⟩ := e
      obtain ⟨least, tail⟩ := List.pairwise_cons.mp sorted
      have lengthsTail : ∀ e ∈ rest, e.1.length = scan.columns.length :=
        fun e member => lengths e (List.mem_cons_of_mem _ member)
      have again := fun s => ih tail lengthsTail s
      -- an entry that ends the loop: no entry from it on is in the scan
      have ends (none : ∀ e ∈ (key, address) :: rest, scan.holdsKey e.1 = false) :
          visitAll visit (((key, address) :: rest).filter fun e => scan.holdsKey e.1) s = .ok s := by
        have empty : (((key, address) :: rest).filter fun e => scan.holdsKey e.1) = [] :=
          List.filter_eq_nil_iff.mpr fun e member => by simp [none e member]
        rw [empty, visitAll]
      have behind : ∀ e ∈ (key, address) :: rest, key ≤ e.1 := by
        intro e member
        obtain rfl | later := List.mem_cons.mp member
        · exact le_refl _
        · exact least e later
      by_cases sought : scan.seekKey ≤ key
      case neg =>
        have outside : scan.holdsKey key = false :=
          Bool.eq_false_iff.mpr fun holds => sought (IndexScan.seekKey_le open_ holds)
        rw [List.filter_cons_of_neg (by simpa using sought),
          List.filter_cons_of_neg (by simp [outside]), again]
      case pos =>
        rw [List.filter_cons_of_pos (by simpa using sought), walkEntries]
        by_cases begins : key.take scan.keyPrefix.length = scan.keyPrefix
        case neg =>
          rw [if_pos begins, ends]
          intro e member
          refine Bool.eq_false_iff.mpr fun holds => ?_
          obtain ⟨c, tail, form, _⟩ := (IndexScan.holdsKey_iff open_).mp holds
          have other : ¬ scan.keyPrefix <+: key := fun isPrefix =>
            begins (List.prefix_iff_eq_take.mp isPrefix).symm
          have less := append_lt_of_not_prefix (scan.keyPrefix_le_seekKey.trans sought) other (c :: tail)
          exact absurd (form ▸ behind e member) (not_le_of_gt less)
        case pos =>
          rw [if_neg (not_not_intro begins)]
          have short : scan.keyPrefix.length < key.length := by
            rw [lengths _ List.mem_cons_self]
            simpa [IndexScan.isExact] using open_
          obtain ⟨c, more, form⟩ := split_after begins short
          have component : key[scan.keyPrefix.length]? = some c := by rw [form]; simp
          have holds : scan.holdsKey key = scan.admits c := by
            rw [IndexScan.holdsKey, if_neg (by simp [open_]), component]
            simp [begins]
          rw [component]
          dsimp only
          cases lower : scan.lower.admitsLower c with
          | false =>
              rw [List.filter_cons_of_neg (by simp [holds, IndexScan.admits, lower])]
              exact again s
          | true =>
              cases upper : scan.upper.admitsUpper c with
              | false =>
                  refine (ends ?_).symm
                  intro e member
                  refine Bool.eq_false_iff.mpr fun inside => ?_
                  obtain ⟨d, tail, form', admits⟩ := (IndexScan.holdsKey_iff open_).mp inside
                  have below : c ≤ d := le_of_append_le (form ▸ form' ▸ behind e member)
                  rw [Bound.admitsUpper_of_le below (Bool.and_eq_true_iff.mp admits).2] at upper
                  cases upper
              | true =>
                  rw [List.filter_cons_of_pos (by simp [holds, IndexScan.admits, lower, upper])]
                  simp only [Bool.not_true, Bool.false_eq_true, if_false, visitAll]
                  congr 1
                  funext flow
                  cases flow with
                  | next s => exact again s
                  | stop s => rfl

omit [LinearOrder J] in
theorem visitAll_collectUpTo {limit : ℕ} (entries : List (IndexEntry J)) {found : List RecordAddress}
    (few : found.length ≤ limit) :
    visitAll (IndexReader.collectUpTo limit) entries (found, false) =
      .ok (if limit < found.length + entries.length then
        (found ++ (entries.map Prod.snd).take (limit - found.length), true)
      else (found ++ entries.map Prod.snd, false)) := by
  induction entries generalizing found with
  | nil => simp [visitAll, not_lt.mpr few]
  | cons e rest ih =>
      rw [visitAll, IndexReader.collectUpTo]
      by_cases full : found.length = limit
      · simp [full, bind, Except.bind, pure, Except.pure]
      · have room : (found ++ [e.2]).length ≤ limit := by
          rw [List.length_append, List.length_singleton]
          exact lt_of_le_of_ne few full
        simp only [full, if_false, bind, Except.bind]
        rw [ih room]
        have step : limit - found.length = limit - (found ++ [e.2]).length + 1 := by
          rw [List.length_append, List.length_singleton] at room ⊢
          omega
        simp only [List.length_append, List.length_cons, List.length_nil, List.map_cons,
          List.append_assoc, List.cons_append, List.nil_append, step, List.take_succ_cons]
        rw [show found.length + (0 + 1) + rest.length = found.length + (rest.length + 1) by omega]

end Spec

section Entries
variable {J σ : Type} [LinearOrder J] {scan : IndexScan J} {ledger : IndexLedger J}
  {rows : List (RecordAddress × Row J)} {entries : List (IndexEntry J)}

theorem IndexOf.ordered {columns : List String} (index : IndexOf columns rows entries) :
    KeyOrdered columns entries := by
  refine ⟨index.sorted, fun e member => ?_⟩
  obtain ⟨r, _, rfl⟩ := List.mem_map.mp (index.perm.mem_iff.mp member)
  exact List.length_map _

/-- A scan visits the entries whose key it holds. -/
theorem IndexReader.forEachEntry_eq (found : ledger.lookup scan.columns = .ok entries)
    (index : KeyOrdered scan.columns entries)
    (visit : σ → List (Value J) → RecordAddress → Except (DbmsError J) (ControlFlow σ)) (s : σ) :
    forEachEntry ledger scan visit s = visitAll visit (entries.filter fun e => scan.holdsKey e.1) s := by
  unfold forEachEntry
  cases exact_ : scan.isExact with
  | true =>
      have same : (entries.filter fun e => scan.holdsKey e.1) =
          (((entries.filter fun e => decide (e.1 = scan.keyPrefix)).map Prod.snd).map
            fun address => (scan.keyPrefix, address)) := by
        have holds : (fun e : IndexEntry J => scan.holdsKey e.1) = fun e => decide (e.1 = scan.keyPrefix) := by
          funext e
          rw [IndexScan.holdsKey, if_pos exact_]
        rw [holds, List.map_map]
        refine ((List.map_congr_left ?_).trans (List.map_id _)).symm
        intro e member
        exact Prod.ext (of_decide_eq_true (List.mem_filter.mp member).2).symm rfl
      simp only [if_true, IndexLedger.search, found, bind, Except.bind, pure, Except.pure, same]
  | false =>
      simp only [Bool.false_eq_true, if_false, IndexLedger.rangeScan, found, bind, Except.bind, pure,
        Except.pure]
      exact walkEntries_eq exact_ index.sorted index.lengths s

theorem IndexReader.addresses_eq (found : ledger.lookup scan.columns = .ok entries)
    (index : KeyOrdered scan.columns entries) (limit : ℕ) :
    addresses ledger scan limit =
      .ok (if limit < (entries.filter fun e => scan.holdsKey e.1).length then none
        else some ((entries.filter fun e => scan.holdsKey e.1).map Prod.snd)) := by
  unfold addresses
  cases exact_ : scan.isExact with
  | true =>
      have holds : (fun e : IndexEntry J => scan.holdsKey e.1) = fun e => decide (e.1 = scan.keyPrefix) := by
        funext e
        rw [IndexScan.holdsKey, if_pos exact_]
      simp only [if_true, IndexLedger.searchLimited, IndexLedger.search, found, bind, Except.bind, pure,
        Except.pure, holds, List.length_map]
  | false =>
      rw [IndexReader.forEachEntry_eq found index, visitAll_collectUpTo _ (Nat.zero_le _)]
      simp only [Bool.false_eq_true, if_false, bind, Except.bind, pure, Except.pure, List.length_nil,
        Nat.zero_add]
      split <;> rfl

end Entries

/-! ## Scans and rows -/

section MatchesRow
variable {J : Type}

theorem indexKey_getElem? {columns : List String} {row : Row J}
    (complete : ∀ c ∈ columns, (findColumn c row).isSome) (position : ℕ) :
    (indexKey columns row)[position]? = columns[position]?.bind fun column => findColumn column row := by
  rw [indexKey, List.getElem?_map]
  cases at_ : columns[position]? with
  | none => rfl
  | some column =>
      obtain ⟨v, found⟩ := Option.isSome_iff_exists.mp (complete column (List.mem_of_getElem? at_))
      simp [found]

theorem zipIdx_all_iff {α : Type} [DecidableEq α] {p key : List α} :
    (p.zipIdx.all fun expected => key[expected.2]? = some expected.1) = true ↔ p <+: key := by
  rw [List.all_eq_true, List.prefix_iff_getElem?]
  constructor
  · intro all i short
    exact of_decide_eq_true (all (p[i], i) (List.mem_zipIdx_iff_getElem?.mpr (List.getElem?_eq_getElem short)))
  · rintro all ⟨x, i⟩ member
    obtain ⟨short, value⟩ := List.getElem?_eq_some_iff.mp (List.mem_zipIdx_iff_getElem?.mp member)
    exact decide_eq_true ((all i short).trans (congrArg some value))

/-- A row lies in a scan when its index key does. -/
theorem IndexScan.matchesRow_eq [LinearOrder J] {scan : IndexScan J} {row : Row J}
    (complete : ∀ c ∈ scan.columns, (findColumn c row).isSome) :
    scan.matchesRow row = scan.holdsKey (indexKey scan.columns row) := by
  have length : (indexKey scan.columns row).length = scan.columns.length := List.length_map _
  unfold matchesRow holdsKey
  simp only [← indexKey_getElem? complete]
  have begins : (scan.keyPrefix.zipIdx.all fun expected =>
        decide ((indexKey scan.columns row)[expected.2]? = some expected.1)) =
      decide ((indexKey scan.columns row).take scan.keyPrefix.length = scan.keyPrefix) := by
    rw [Bool.eq_iff_iff, zipIdx_all_iff, decide_eq_true_iff, List.prefix_iff_eq_take, eq_comm]
  rw [begins]
  cases exact_ : scan.isExact with
  | true =>
      have long : scan.columns.length ≤ scan.keyPrefix.length := of_decide_eq_true exact_
      rw [List.take_of_length_le (length.trans_le long)]
      simp
  | false => simp

end MatchesRow
end WasmDbms
