import Mathlib.Data.Finset.Lattice.Fold
import Mathlib.Data.List.AList
import WasmDbms.Db.OverlayView
import WasmDbms.Lib.Delta

/-!
# The index overlay of a transaction

The primary keys that the changes of a transaction add to each key of an index and remove
from it, beside the operations themselves. Hash maps and B-tree maps are association lists.
-/
namespace WasmDbms

variable {J : Type} [LinearOrder J]

/-- Sets of primary keys by their index keys. -/
abbrev PkMap (J : Type) := AList fun _ : List (Value J) => Finset (Value J)

/-- A key within inclusive bounds. -/
def InRange (start end_ : Option (List (Value J))) (key : List (Value J)) : Prop :=
  (∀ low ∈ start, low ≤ key) ∧ ∀ high ∈ end_, key ≤ high

instance (start end_ : Option (List (Value J))) (key : List (Value J)) : Decidable (InRange start end_ key) :=
  inferInstanceAs (Decidable (_ ∧ _))

def Reversed (start end_ : Option (List (Value J))) : Prop := ∃ low ∈ start, ∃ high ∈ end_, high < low

instance (start end_ : Option (List (Value J))) : Decidable (Reversed start end_) :=
  inferInstanceAs (Decidable (∃ low ∈ start, ∃ high ∈ end_, high < low))

namespace PkMap

def pks (map : PkMap J) (key : List (Value J)) : Finset (Value J) := (map.lookup key).getD ∅

/-- `entry(key).or_default().insert(pk)` -/
def add (key : List (Value J)) (pk : Value J) (map : PkMap J) : PkMap J :=
  map.insert key (insert pk (map.pks key))

/-- `get_mut(&key)` and `remove(&pk)` -/
def remove (key : List (Value J)) (pk : Value J) (map : PkMap J) : PkMap J :=
  match map.lookup key with
  | none => map
  | some pks => map.insert key (pks.erase pk)

/-- The primary keys of a range of keys. `BTreeMap::range` panics where the bounds are the
wrong way round, if there is a key at all. -/
def range (start end_ : Option (List (Value J))) (map : PkMap J) : Option (Finset (Value J)) :=
  if map.entries ≠ [] ∧ Reversed start end_ then none
  else some (((map.entries.filter fun entry => InRange start end_ entry.1).map Sigma.snd).foldr (· ∪ ·) ∅)

end PkMap

structure IndexColumnOverlay (J : Type) where
  added : PkMap J
  removed : PkMap J

namespace IndexColumnOverlay

def insert (indexedValues : List (Value J)) (pk : Value J) (overlay : IndexColumnOverlay J) : IndexColumnOverlay J :=
  ⟨overlay.added.add indexedValues pk, overlay.removed.remove indexedValues pk⟩

/-- A primary key that waits to be added is not marked as removed. -/
def delete (indexedValues : List (Value J)) (pk : Value J) (overlay : IndexColumnOverlay J) : IndexColumnOverlay J :=
  if pk ∈ overlay.added.pks indexedValues then { overlay with added := overlay.added.remove indexedValues pk }
  else { overlay with removed := overlay.removed.add indexedValues pk }

end IndexColumnOverlay

/-- The overlay of each index, by its columns. -/
abbrev IndexOverlay (J : Type) := AList fun _ : List String => IndexColumnOverlay J

namespace IndexOverlay

/-- `entry(columns).or_default()` -/
def column (overlay : IndexOverlay J) (columns : List String) : IndexColumnOverlay J :=
  (overlay.lookup columns).getD ⟨∅, ∅⟩

def insert (columns : List String) (indexedValues : List (Value J)) (pk : Value J) (overlay : IndexOverlay J) :
    IndexOverlay J :=
  AList.insert columns ((overlay.column columns).insert indexedValues pk) overlay

def delete (columns : List String) (indexedValues : List (Value J)) (pk : Value J) (overlay : IndexOverlay J) :
    IndexOverlay J :=
  AList.insert columns ((overlay.column columns).delete indexedValues pk) overlay

def update (columns : List String) (oldIndexedValues newIndexedValues : List (Value J)) (pk : Value J)
    (overlay : IndexOverlay J) : IndexOverlay J :=
  AList.insert columns (((overlay.column columns).delete oldIndexedValues pk).insert newIndexedValues pk) overlay

def addedPks (overlay : IndexOverlay J) (columns : List String) (indexedValues : List (Value J)) :
    Finset (Value J) :=
  ((overlay.lookup columns).bind fun o => o.added.lookup indexedValues).getD ∅

def removedPks (overlay : IndexOverlay J) (columns : List String) (indexedValues : List (Value J)) :
    Finset (Value J) :=
  ((overlay.lookup columns).bind fun o => o.removed.lookup indexedValues).getD ∅

def pksInRangeFromMap (overlay : IndexOverlay J) (columns : List String) (start end_ : Option (List (Value J)))
    (mapSelector : IndexColumnOverlay J → PkMap J) : Option (Finset (Value J)) :=
  match overlay.lookup columns with
  | none => some ∅
  | some o => (mapSelector o).range start end_

def addedPksInRange (overlay : IndexOverlay J) (columns : List String) (start end_ : Option (List (Value J))) :
    Option (Finset (Value J)) :=
  overlay.pksInRangeFromMap columns start end_ IndexColumnOverlay.added

def removedPksInRange (overlay : IndexOverlay J) (columns : List String) (start end_ : Option (List (Value J))) :
    Option (Finset (Value J)) :=
  overlay.pksInRangeFromMap columns start end_ IndexColumnOverlay.removed

end IndexOverlay

/-- The changes of a table with the index overlay. -/
structure TableOverlay (J : Type) where
  operations : List (Operation J)
  indexOverlay : IndexOverlay J
  indexes : List IndexDef

namespace TableOverlay

def new (indexes : List IndexDef) : TableOverlay J := ⟨[], ∅, indexes⟩

def extractIndexedValues (columns : List String) (row : Row J) : List (Value J) :=
  columns.map fun name => (findColumn name row).getD .null

def computeUpdatedIndexedValues (columns : List String) (currentRow updates : Row J) : List (Value J) :=
  columns.map fun name => ((findColumn name updates).or (findColumn name currentRow)).getD .null

def insert (pk : Value J) (record : Row J) (overlay : TableOverlay J) : TableOverlay J :=
  { overlay with
    indexOverlay := overlay.indexes.foldl
      (fun o index => o.insert index.columns (extractIndexedValues index.columns record) pk) overlay.indexOverlay
    operations := overlay.operations ++ [.insert pk record] }

def affectsIndex (columns : List String) (updates : Row J) : Bool :=
  columns.any fun column => updates.any fun entry => entry.1.name == column

def update (pk : Value J) (updates currentRow : Row J) (overlay : TableOverlay J) : TableOverlay J :=
  { overlay with
    indexOverlay := overlay.indexes.foldl
      (fun o index =>
        if affectsIndex index.columns updates then
          o.update index.columns (extractIndexedValues index.columns currentRow)
            (computeUpdatedIndexedValues index.columns currentRow updates) pk
        else o) overlay.indexOverlay
    operations := overlay.operations ++ [.update pk updates] }

def delete (pk : Value J) (currentRow : Row J) (overlay : TableOverlay J) : TableOverlay J :=
  { overlay with
    indexOverlay := overlay.indexes.foldl
      (fun o index => o.delete index.columns (extractIndexedValues index.columns currentRow) pk) overlay.indexOverlay
    operations := overlay.operations ++ [.delete pk] }

/-- The rows a reader of the overlay returns. -/
def rows (stored : List (Row J)) (overlay : TableOverlay J) : List (Row J) := overlayRows overlay.operations stored

end TableOverlay

/-- A call of the table overlay with its arguments. -/
inductive Change (J : Type) where
  | insert (pk : Value J) (record : Row J)
  | update (pk : Value J) (updates currentRow : Row J)
  | delete (pk : Value J) (currentRow : Row J)

namespace Change

def operation : Change J → Operation J
  | insert pk record => .insert pk record
  | update pk updates _ => .update pk updates
  | delete pk _ => .delete pk

/-- The change is of a row that is shown, or adds a whole record. -/
def Visible (table : TableDef J) (rows : List (Row J)) : Change J → Prop
  | insert pk record => Complete table record ∧ primaryKeyOf record = some pk
  | update pk updates currentRow => Patches table updates ∧ currentRow ∈ rows ∧ primaryKeyOf currentRow = some pk
  | delete pk currentRow => currentRow ∈ rows ∧ primaryKeyOf currentRow = some pk

end Change

namespace TableOverlay

def stage (overlay : TableOverlay J) : Change J → TableOverlay J
  | .insert pk record => overlay.insert pk record
  | .update pk updates currentRow => overlay.update pk updates currentRow
  | .delete pk currentRow => overlay.delete pk currentRow

def run (overlay : TableOverlay J) (changes : List (Change J)) : TableOverlay J := changes.foldl stage overlay

end TableOverlay

/-! ## The overlay of one index -/

namespace PkMap
variable {map : PkMap J} {key : List (Value J)} {pk : Value J} {start end_ : Option (List (Value J))}

/-- The primary keys with their index keys. -/
def pairs (map : PkMap J) : Set (List (Value J) × Value J) := {x | x.2 ∈ map.pks x.1}

theorem mem_pairs {x : List (Value J) × Value J} : x ∈ map.pairs ↔ x.2 ∈ map.pks x.1 := Iff.rfl

theorem pks_insert {pks : Finset (Value J)} : PkMap.pks (AList.insert key pks map) key = pks := by
  rw [PkMap.pks, AList.lookup_insert, Option.getD_some]

theorem pks_insert_of_ne {pks : Finset (Value J)} {other : List (Value J)} (apart : other ≠ key) :
    PkMap.pks (AList.insert key pks map) other = map.pks other := by
  rw [PkMap.pks, AList.lookup_insert_ne apart, PkMap.pks]

theorem pairs_add : (map.add key pk).pairs = insert (key, pk) map.pairs := by
  ext ⟨k, p⟩
  rw [Set.mem_insert_iff, mem_pairs, mem_pairs, Prod.mk.injEq]
  unfold PkMap.add
  by_cases here : k = key
  · subst here
    rw [pks_insert, Finset.mem_insert, and_iff_right rfl]
  · rw [pks_insert_of_ne here]
    exact ⟨.inr, fun member => member.resolve_left fun same => here same.1⟩

theorem pairs_remove : (map.remove key pk).pairs = map.pairs \ {(key, pk)} := by
  ext ⟨k, p⟩
  rw [Set.mem_sdiff, Set.mem_singleton_iff, mem_pairs, mem_pairs, Prod.mk.injEq]
  cases found : map.lookup key with
  | none =>
      have same : map.remove key pk = map := by
        unfold remove
        rw [found]
      rw [same]
      refine ⟨fun member => ⟨member, ?_⟩, And.left⟩
      rintro ⟨rfl, rfl⟩
      simp [pks, found] at member
  | some pks =>
      have same : map.remove key pk = map.insert key (pks.erase pk) := by
        unfold remove
        rw [found]
      have old : map.pks key = pks := by rw [PkMap.pks, found, Option.getD_some]
      rw [same]
      by_cases here : k = key
      · subst here
        rw [pks_insert, Finset.mem_erase, old, and_comm, and_iff_right (a := k = k) rfl]
      · rw [pks_insert_of_ne here]
        exact ⟨fun member => ⟨member, fun same => here same.1⟩, And.left⟩

theorem mem_pks_iff : pk ∈ map.pks key ↔ ∃ pks, ⟨key, pks⟩ ∈ map.entries ∧ pk ∈ pks := by
  unfold PkMap.pks
  cases found : map.lookup key with
  | none =>
      refine ⟨fun no => absurd no (Finset.notMem_empty pk), ?_⟩
      rintro ⟨pks, listed, _⟩
      rw [← AList.mem_lookup_iff, found] at listed
      cases listed
  | some pks =>
      refine ⟨fun member => ⟨pks, AList.mem_lookup_iff.mp found, member⟩, ?_⟩
      rintro ⟨pks', listed, member⟩
      rw [← AList.mem_lookup_iff, found] at listed
      cases listed
      exact member

theorem mem_foldr_union {sets : List (Finset (Value J))} : pk ∈ sets.foldr (· ∪ ·) ∅ ↔ ∃ s ∈ sets, pk ∈ s := by
  induction sets with
  | nil => simp
  | cons first rest ih => rw [List.foldr_cons, Finset.mem_union, ih, List.exists_mem_cons_iff]

/-- The primary keys of a range are those of its keys, unless its bounds make the lookup panic. -/
theorem range_iff :
    (∃ pks, map.range start end_ = some pks ∧ ∀ pk, pk ∈ pks ↔ ∃ key, InRange start end_ key ∧ pk ∈ map.pks key) ↔
      ¬ (map.entries ≠ [] ∧ Reversed start end_) := by
  unfold range
  by_cases panics : map.entries ≠ [] ∧ Reversed start end_
  · rw [if_pos panics]
    exact ⟨fun ⟨_, no, _⟩ => (by cases no), fun no => absurd panics no⟩
  · rw [if_neg panics]
    refine ⟨fun _ => panics, fun _ => ⟨_, rfl, fun pk => ?_⟩⟩
    rw [mem_foldr_union]
    constructor
    · rintro ⟨pks, listed, member⟩
      obtain ⟨⟨key, _⟩, inside, rfl⟩ := List.mem_map.mp listed
      obtain ⟨there, ranges⟩ := List.mem_filter.mp inside
      exact ⟨key, of_decide_eq_true ranges, mem_pks_iff.mpr ⟨_, there, member⟩⟩
    · rintro ⟨key, ranges, member⟩
      obtain ⟨pks, listed, there⟩ := mem_pks_iff.mp member
      exact ⟨pks, List.mem_map.mpr ⟨⟨key, pks⟩, List.mem_filter.mpr ⟨listed, decide_eq_true ranges⟩, rfl⟩, there⟩

end PkMap

namespace IndexColumnOverlay
variable {overlay : IndexColumnOverlay J} {key : List (Value J)} {pk : Value J}

/-- What is added to the index and removed from it. -/
def delta (overlay : IndexColumnOverlay J) : Delta (List (Value J) × Value J) :=
  ⟨overlay.added.pairs, overlay.removed.pairs⟩

theorem delta_insert : (overlay.insert key pk).delta = overlay.delta.put (key, pk) :=
  Delta.ext PkMap.pairs_add PkMap.pairs_remove

theorem delta_delete : (overlay.delete key pk).delta = overlay.delta.take (key, pk) := by
  unfold delete
  by_cases waits : pk ∈ overlay.added.pks key
  · rw [if_pos waits]
    refine Delta.ext PkMap.pairs_remove (Set.ext fun x => ?_)
    exact ⟨.inl, fun member => member.resolve_right fun ⟨_, absent⟩ => absent waits⟩
  · rw [if_neg waits]
    refine Delta.ext (Set.ext fun x => ?_) (PkMap.pairs_add.trans (Set.ext fun x => ?_))
    · refine ⟨fun member => ⟨member, ?_⟩, And.left⟩
      rintro rfl
      exact waits member
    · rw [Set.mem_insert_iff, or_comm]
      exact or_congr_right ⟨fun same => ⟨same, waits⟩, And.left⟩

end IndexColumnOverlay

namespace IndexOverlay
variable {overlay : IndexOverlay J} {columns : List String}

theorem addedPks_eq {key : List (Value J)} : overlay.addedPks columns key = (overlay.column columns).added.pks key := by
  unfold addedPks column
  cases overlay.lookup columns <;> rfl

theorem removedPks_eq {key : List (Value J)} :
    overlay.removedPks columns key = (overlay.column columns).removed.pks key := by
  unfold removedPks column
  cases overlay.lookup columns <;> rfl

theorem pksInRangeFromMap_eq {start end_ : Option (List (Value J))} {mapSelector : IndexColumnOverlay J → PkMap J}
    (empty : mapSelector ⟨∅, ∅⟩ = ∅) :
    overlay.pksInRangeFromMap columns start end_ mapSelector = (mapSelector (overlay.column columns)).range start end_ := by
  unfold pksInRangeFromMap column
  cases overlay.lookup columns with
  | some o => rfl
  | none =>
      rw [Option.getD_none, empty]
      exact (if_neg fun ⟨no, _⟩ => no rfl).symm

omit [LinearOrder J] in
theorem column_insert {o : IndexColumnOverlay J} : column (AList.insert columns o overlay) columns = o := by
  rw [column, AList.lookup_insert, Option.getD_some]

omit [LinearOrder J] in
theorem column_insert_of_ne {o : IndexColumnOverlay J} {others : List String} (apart : others ≠ columns) :
    column (AList.insert columns o overlay) others = overlay.column others := by
  rw [column, AList.lookup_insert_ne apart, column]

omit [LinearOrder J] in
/-- A change that is made to each index is made once to the overlay of each. -/
theorem foldl_column {f : IndexOverlay J → IndexDef → IndexOverlay J}
    {g : IndexDef → IndexColumnOverlay J → IndexColumnOverlay J} {indexes : List IndexDef}
    (own : ∀ o index, (f o index).column index.columns = g index (o.column index.columns))
    (others : ∀ o index columns, columns ≠ index.columns → (f o index).column columns = o.column columns)
    (names : (indexes.map IndexDef.columns).Nodup) {index : IndexDef} (listed : index ∈ indexes) :
    (indexes.foldl f overlay).column index.columns = g index (overlay.column index.columns) := by
  have passed : ∀ (rest : List IndexDef) (o : IndexOverlay J), index.columns ∉ rest.map IndexDef.columns →
      (rest.foldl f o).column index.columns = o.column index.columns := by
    intro rest
    induction rest with
    | nil => exact fun _ _ => rfl
    | cons first rest ih =>
        intro o absent
        rw [List.map_cons, List.mem_cons, not_or] at absent
        rw [List.foldl_cons, ih _ absent.2, others _ _ _ absent.1]
  induction indexes generalizing overlay with
  | nil => cases listed
  | cons first rest ih =>
      rw [List.map_cons, List.nodup_cons] at names
      rw [List.foldl_cons]
      rcases List.mem_cons.mp listed with rfl | later
      · rw [passed rest _ names.1, own]
      · have apart : index.columns ≠ first.columns := fun same =>
          names.1 (same ▸ List.mem_map_of_mem later)
        rw [ih names.2 later, others _ _ _ apart]

end IndexOverlay

end WasmDbms
