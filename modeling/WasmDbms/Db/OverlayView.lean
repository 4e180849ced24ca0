import WasmDbms.Db.IndexSelect

/-!
# The view of an overlay

What an overlay shows, beside a map from primary keys to rows on which the changes are
made one after the other. They agree until an update gives a row the key of another one.
-/
namespace WasmDbms

variable {J : Type} [LinearOrder J]

/-- The rows of a table by their primary keys. -/
abbrev RowMap (J : Type) := Value J → Option (Row J)

namespace RowMap

def ofRows (rows : List (Row J)) : RowMap J := fun key => rows.find? fun row => primaryKeyOf row = some key

/-- The key of a row after an update of the row with this key. -/
def newKey (table : TableDef J) (key : Value J) (updates : Row J) : Value J :=
  (findColumn table.primaryKey updates).getD key

/-- One change: an update takes its row to the key the row has then. -/
def apply (table : TableDef J) (m : RowMap J) : Operation J → RowMap J
  | .insert key record => Function.update m key (some record)
  | .update key updates =>
      match m key with
      | none => m
      | some row => Function.update (Function.update m key none) (newKey table key updates) (some (patchValues updates row))
  | .delete key => Function.update m key none

def run (table : TableDef J) (m : RowMap J) (operations : List (Operation J)) : RowMap J :=
  operations.foldl (apply table) m

/-- The update gives a row the key of another row. -/
def Collides (table : TableDef J) (m : RowMap J) (key : Value J) (updates : Row J) : Prop :=
  newKey table key updates ≠ key ∧ m key ≠ none ∧ m (newKey table key updates) ≠ none

end RowMap

/-- Each key of the map is the key of one row, its row in the map, and there are no other
rows. -/
structure Represents (rows : List (Row J)) (m : RowMap J) : Prop where
  keys : (rows.map primaryKeyOf).Nodup
  row : ∀ key row, m key = some row ↔ row ∈ rows ∧ primaryKeyOf row = some key

section Step
variable {table : TableDef J} {rows : List (Row J)} {m : RowMap J}

theorem represents_ofRows : Represents rows (.ofRows rows) ↔ (rows.map primaryKeyOf).Nodup := by
  refine ⟨Represents.keys, fun keys => ⟨keys, fun key row => ?_⟩⟩
  constructor
  · intro found
    exact ⟨List.mem_of_find?_eq_some found, of_decide_eq_true (List.find?_some found :)⟩
  · rintro ⟨member, own⟩
    unfold RowMap.ofRows
    cases search : rows.find? fun row => decide (primaryKeyOf row = some key) with
    | none => exact absurd (decide_eq_true own) (List.find?_eq_none.mp search row member)
    | some found =>
        have same : primaryKeyOf found = some key := of_decide_eq_true (List.find?_some search :)
        rw [List.inj_on_of_nodup_map keys (List.mem_of_find?_eq_some search) member (same.trans own.symm)]

variable (complete : ∀ row ∈ rows, Complete table row)

omit [LinearOrder J] in
theorem primaryKeyOf_patch {row updates : Row J} {key : Value J} (whole : Complete table row)
    (patches : Patches table updates) (own : primaryKeyOf row = some key) :
    primaryKeyOf (patchValues updates row) = some (RowMap.newKey table key updates) := by
  rw [(whole.patched patches).primaryKeyOf_eq, whole.findColumn_patch patches, ← whole.primaryKeyOf_eq, own]
  rfl

theorem Represents.delete (shows : Represents rows m) {key : Value J} {rest : List (Row J)}
    (same : rest = rows.filter fun row => decide (primaryKeyOf row ≠ some key)) :
    Represents rest (Function.update m key none) := by
  subst same
  refine ⟨shows.keys.sublist (List.filter_sublist.map _), fun other row => ?_⟩
  rw [List.mem_filter, decide_eq_true_iff]
  by_cases here : other = key
  · subst here
    rw [Function.update_self]
    exact ⟨fun none_ => (by cases none_), fun ⟨⟨_, away⟩, own⟩ => absurd own away⟩
  · rw [Function.update_of_ne here, shows.row other row]
    constructor
    · rintro ⟨member, own⟩
      exact ⟨⟨member, fun same => here (Option.some.inj (own.symm.trans same))⟩, own⟩
    · rintro ⟨⟨member, _⟩, own⟩
      exact ⟨member, own⟩

/-- A row that comes with a key that no row has. -/
theorem Represents.add (shows : Represents rows m) {key : Value J} {row : Row J} (own : primaryKeyOf row = some key)
    (free : m key = none) : Represents (rows ++ [row]) (Function.update m key (some row)) := by
  have fresh : ∀ other ∈ rows, primaryKeyOf other ≠ some key := by
    intro other member same
    rw [(shows.row key other).mpr ⟨member, same⟩] at free
    cases free
  refine ⟨?_, fun other found => ?_⟩
  · rw [List.map_append, List.nodup_append]
    refine ⟨shows.keys, List.nodup_singleton _, ?_⟩
    intro k listed k' last
    obtain ⟨other, member, rfl⟩ := List.mem_map.mp listed
    rw [List.mem_singleton.mp last, own]
    exact fresh other member
  · rw [List.mem_append, List.mem_singleton]
    by_cases here : other = key
    · subst here
      rw [Function.update_self, Option.some.injEq]
      constructor
      · rintro rfl
        exact ⟨.inr rfl, own⟩
      · rintro ⟨member | rfl, same⟩
        · exact absurd same (fresh found member)
        · rfl
    · rw [Function.update_of_ne here, shows.row other found]
      constructor
      · rintro ⟨member, same⟩
        exact ⟨.inl member, same⟩
      · rintro ⟨member | rfl, same⟩
        · exact ⟨member, same⟩
        · exact absurd (Option.some.inj (same.symm.trans own)) here

omit [LinearOrder J] in
theorem Represents.perm (shows : Represents rows m) {rows' : List (Row J)} (perm : rows.Perm rows') :
    Represents rows' m :=
  ⟨(perm.map _).nodup_iff.mp shows.keys, fun key row => by rw [shows.row key row, perm.mem_iff]⟩

include complete

theorem Represents.insert (shows : Represents rows m) {key : Value J} {record : Row J} (whole : Complete table record)
    (own : primaryKeyOf record = some key) :
    Represents (overlayRows [.insert key record] rows) (m.apply table (.insert key record)) := by
  have gone : Represents _ (Function.update m key none) := shows.delete rfl
  have added := gone.add own (Function.update_self key none m)
  rw [Function.update_idem] at added
  rw [overlayRows_insert complete whole]
  exact added

theorem overlayRows_update_one {key : Value J} {updates : Row J} (patches : Patches table updates) :
    overlayRows [.update key updates] rows =
      rows.map fun row => if primaryKeyOf row = some key then patchValues updates row else row := by
  have all : overlayRows ([key].map fun key => .update key updates) rows =
      rows.map fun row => if ∃ k ∈ [key], primaryKeyOf row = some k then patchValues updates row else row :=
    overlayRows_update complete patches
  simpa only [List.map_cons, List.map_nil, List.mem_singleton, exists_eq_left] using all

/-- The row with the key of an update comes last. -/
theorem update_perm (shows : Represents rows m) {key : Value J} {updates row : Row J} (known : m key = some row) :
    (rows.map fun row => if primaryKeyOf row = some key then patchValues updates row else row).Perm
      ((rows.filter fun row => decide (primaryKeyOf row ≠ some key)) ++ [patchValues updates row]) := by
  obtain ⟨member, own⟩ := (shows.row key row).mp known
  obtain ⟨before, after, rfl⟩ := List.append_of_mem member
  have keys := shows.keys
  rw [List.map_append, List.map_cons, List.nodup_middle, List.nodup_cons, List.mem_append] at keys
  have others : ∀ other, other ∈ before ∨ other ∈ after → primaryKeyOf other ≠ some key := by
    rintro other (first | last) same
    · exact keys.1 (.inl (List.mem_map.mpr ⟨other, first, same.trans own.symm⟩))
    · exact keys.1 (.inr (List.mem_map.mpr ⟨other, last, same.trans own.symm⟩))
  have kept : ∀ l : List (Row J), (∀ other ∈ l, primaryKeyOf other ≠ some key) →
      (l.map fun row => if primaryKeyOf row = some key then patchValues updates row else row) = l ∧
        (l.filter fun row => decide (primaryKeyOf row ≠ some key)) = l := by
    intro l away
    refine ⟨(List.map_congr_left fun other listed => if_neg (away other listed)).trans (List.map_id l), ?_⟩
    exact List.filter_eq_self.mpr fun other listed => decide_eq_true (away other listed)
  obtain ⟨before_, beforeKept⟩ := kept before fun other listed => others other (.inl listed)
  obtain ⟨after_, afterKept⟩ := kept after fun other listed => others other (.inr listed)
  have out : ¬ decide (primaryKeyOf row ≠ some key) = true := fun away => of_decide_eq_true away own
  rw [List.map_append, List.map_cons, List.filter_append, List.filter_cons, if_neg out, if_pos own, before_, after_,
    beforeKept, afterKept]
  exact List.perm_middle.trans (List.perm_append_singleton _ _).symm

theorem Represents.update (shows : Represents rows m) {key : Value J} {updates : Row J} (patches : Patches table updates)
    (free : ¬ m.Collides table key updates) :
    Represents (overlayRows [.update key updates] rows) (m.apply table (.update key updates)) := by
  rw [overlayRows_update_one complete patches, RowMap.apply]
  cases known : m key with
  | none =>
      have kept : (rows.map fun row => if primaryKeyOf row = some key then patchValues updates row else row) = rows := by
        refine (List.map_congr_left fun row member => if_neg fun own => ?_).trans (List.map_id rows)
        rw [(shows.row key row).mpr ⟨member, own⟩] at known
        cases known
      rw [kept]
      exact shows
  | some row =>
      obtain ⟨member, own⟩ := (shows.row key row).mp known
      have moved := primaryKeyOf_patch (complete row member) patches own
      have gone : Represents _ (Function.update m key none) := shows.delete rfl
      have vacant : Function.update m key none (RowMap.newKey table key updates) = none := by
        by_cases same : RowMap.newKey table key updates = key
        · rw [same, Function.update_self]
        · rw [Function.update_of_ne same]
          by_contra taken
          exact free ⟨same, by rw [known]; exact Option.some_ne_none row, taken⟩
      exact (gone.add moved vacant).perm (update_perm complete shows known).symm

/-- Where an update gives a row the key of another one, both rows are shown. -/
theorem Represents.collision (shows : Represents rows m) {key : Value J} {updates : Row J} (patches : Patches table updates)
    (collides : m.Collides table key updates) :
    ¬ ((overlayRows [.update key updates] rows).map primaryKeyOf).Nodup := by
  intro distinct
  obtain ⟨moves, live, taken⟩ := collides
  obtain ⟨row, known⟩ := Option.ne_none_iff_exists'.mp live
  obtain ⟨other, inTheWay⟩ := Option.ne_none_iff_exists'.mp taken
  obtain ⟨member, own⟩ := (shows.row key row).mp known
  obtain ⟨member', own'⟩ := (shows.row _ other).mp inTheWay
  have away : primaryKeyOf other ≠ some key := fun same => moves (Option.some.inj (own'.symm.trans same))
  rw [overlayRows_update_one complete patches, List.map_map] at distinct
  have same : row = other := by
    refine List.inj_on_of_nodup_map distinct member member' ?_
    dsimp only [Function.comp]
    rw [if_pos own, if_neg away, own']
    exact primaryKeyOf_patch (complete row member) patches own
  exact away (same ▸ own)

end Step

section Run
variable {table : TableDef J} {stored : List (Row J)} {operations : List (Operation J)}

/-- Until a change collides, the overlay shows the rows of the map. -/
theorem represents_run (complete : ∀ row ∈ stored, Complete table row) (changes : Changes table operations)
    (distinct : (stored.map primaryKeyOf).Nodup)
    (free : ∀ before key updates, before ++ [.update key updates] <+: operations →
      ¬ (RowMap.run table (.ofRows stored) before).Collides table key updates) :
    Represents (overlayRows operations stored) (RowMap.run table (.ofRows stored) operations) := by
  induction operations using List.reverseRecOn with
  | nil =>
      rw [overlayRows_nil complete]
      exact represents_ofRows.mpr distinct
  | append_singleton before op ih =>
      obtain ⟨earlier, last⟩ := List.forall_mem_append.mp changes
      have shows := ih earlier fun b key updates begins => free b key updates (begins.trans (List.prefix_append _ _))
      have whole : ∀ row ∈ overlayRows before stored, Complete table row :=
        fun row member => overlayRows_complete complete earlier member
      have step : RowMap.run table (.ofRows stored) (before ++ [op]) =
          (RowMap.run table (.ofRows stored) before).apply table op := by
        rw [RowMap.run, RowMap.run, List.foldl_append]
        rfl
      rw [overlayRows_append complete earlier, step]
      have typed := last op List.mem_cons_self
      cases op with
      | insert key record => exact shows.insert whole typed.1 typed.2
      | update key updates => exact shows.update whole typed (free before key updates (List.prefix_refl _))
      | delete key =>
          refine shows.delete ?_
          have all : overlayRows ([key].map .delete) _ =
              List.filter (fun row => decide (¬ ∃ k ∈ [key], primaryKeyOf row = some k)) _ := overlayRows_delete whole
          simpa only [List.map_cons, List.map_nil, List.mem_singleton, exists_eq_left] using all

/-- The overlay shows the rows of the map after each change of a sequence if and only if the
stored rows have distinct keys and no update gives a row the key of another one. -/
theorem overlay_view_iff (complete : ∀ row ∈ stored, Complete table row) (changes : Changes table operations) :
    (∀ before, before <+: operations →
      Represents (overlayRows before stored) (RowMap.run table (.ofRows stored) before)) ↔
    (stored.map primaryKeyOf).Nodup ∧
      ∀ before key updates, before ++ [.update key updates] <+: operations →
        ¬ (RowMap.run table (.ofRows stored) before).Collides table key updates := by
  have sub : ∀ {before}, before <+: operations → Changes table before := fun begins op member =>
    changes op (begins.subset member)
  constructor
  · intro shows
    refine ⟨overlayRows_nil complete ▸ (shows [] List.nil_prefix).keys, fun before key updates begins collides => ?_⟩
    have earlier := (List.prefix_append before [Operation.update key updates]).trans begins
    have whole : ∀ row ∈ overlayRows before stored, Complete table row :=
      fun row member => overlayRows_complete complete (sub earlier) member
    have patches : Patches table updates := sub begins _ (List.mem_append_right _ List.mem_cons_self)
    have keys := (shows _ begins).keys
    rw [overlayRows_append complete (sub earlier)] at keys
    exact (shows before earlier).collision whole patches collides keys
  · rintro ⟨distinct, free⟩ before begins
    exact represents_run complete (sub begins) distinct fun b key updates first =>
      free b key updates (first.trans begins)

end Run

/-! ## A key that is given twice -/

namespace Items

/-- An item takes the key that another one has left, and is deleted under it. -/
def chained : List (Operation ℕ) :=
  [.update (.uint32 2) [(id, .uint32 3)], .update (.uint32 1) [(id, .uint32 2)], .delete (.uint32 2)]

theorem chained_changes : Changes table chained := by
  have patches : ∀ key, Patches table [(id, Value.uint32 key)] := fun key =>
    ⟨List.nodup_singleton _, fun entry listed => List.mem_singleton.mp listed ▸ List.mem_cons_self,
      fun entry listed => List.mem_singleton.mp listed ▸ .inl rfl⟩
  intro op member
  rcases List.mem_cons.mp member with rfl | member
  · exact patches 3
  · rcases List.mem_cons.mp member with rfl | member
    · exact patches 2
    · rw [List.mem_singleton.mp member]
      trivial

theorem chained_free {before : List (Operation ℕ)} {key : Value ℕ} {updates : Row ℕ}
    (begins : before ++ [.update key updates] <+: chained) :
    ¬ (RowMap.run table (.ofRows (pair.rows.map Prod.snd)) before).Collides table key updates := by
  obtain ⟨rest, same⟩ := begins
  rintro ⟨_, _, taken⟩
  rcases before with _ | ⟨first, _ | ⟨second, before⟩⟩
  · obtain ⟨⟨rfl, rfl⟩, _⟩ : (key = .uint32 2 ∧ updates = [(id, .uint32 3)]) ∧ _ := by
      simpa [chained] using same
    exact taken rfl
  · obtain ⟨rfl, ⟨rfl, rfl⟩, _⟩ : first = .update (.uint32 2) [(id, .uint32 3)] ∧
        (key = .uint32 1 ∧ updates = [(id, .uint32 2)]) ∧ _ := by
      simpa [chained] using same
    exact taken rfl
  · -- the last change is a deletion
    obtain ⟨_, _, last⟩ : first = .update (.uint32 2) [(id, .uint32 3)] ∧ second = .update (.uint32 1) [(id, .uint32 2)] ∧
        before ++ .update key updates :: rest = [.delete (.uint32 2)] := by
      simpa [chained] using same
    cases before <;> simp at last

/-- An item may take the key that another one has left. -/
theorem chained_view : Represents (overlayRows chained (pair.rows.map Prod.snd))
    (RowMap.run table (.ofRows (pair.rows.map Prod.snd)) chained) :=
  (overlay_view_iff pair_complete chained_changes).mpr ⟨by decide, fun _ _ _ => chained_free⟩ chained (List.prefix_refl _)

/-- A call of an update gives one key to two items, and both are shown. -/
theorem renumbered_view :
    (∃ ctx, (⟨fun _ => pair, fun _ => some .new, 1⟩ : Context ℕ Empty).perform db 1
        (.update (some 0) table [(id, .uint32 3)] none) = .ok (2, ctx) ∧
      ctx.transactions 0 = some (renumbered [(.uint32 1, item 1 "a"), (.uint32 2, item 2 "b")])) ∧
    ¬ Represents (overlayRows ((renumbered [(.uint32 1, item 1 "a"), (.uint32 2, item 2 "b")]).overlay "items")
        (pair.rows.map Prod.snd))
      (RowMap.run table (.ofRows (pair.rows.map Prod.snd))
        ((renumbered [(.uint32 1, item 1 "a"), (.uint32 2, item 2 "b")]).overlay "items")) := by
  refine ⟨⟨_, rfl, rfl⟩, fun shows => ?_⟩
  have keys := shows.keys
  change ([some (.uint32 3), some (.uint32 3)] : List (Option (Value ℕ))).Nodup at keys
  simp at keys

end Items
end WasmDbms
