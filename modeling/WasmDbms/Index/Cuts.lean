import WasmDbms.Index.Balance
import WasmDbms.Index.Codec
import WasmDbms.Lib.Result

/-!
# Where an overflowing node is cut

The cut that `byte_balanced_split_index` finds, and the keys that rise along the path
of an insertion, which the sizes of the keys alone decide.
-/
namespace WasmDbms
open Entries

/-! ## The balanced cut -/

/-- The index that is picked is a cut. -/
theorem byteBalancedSplitIndex_halves {sizes : List Nat} {headerSize index : Nat} {promoteMedian : Bool}
    (found : byteBalancedSplitIndex sizes headerSize promoteMedian = some index) :
    Halves (pageSize - headerSize) promoteMedian sizes index := by
  rw [byteBalancedSplitIndex_eq] at found
  by_cases room : headerSize ≤ pageSize
  · obtain ⟨best, run, kept⟩ := @byteBalancedSplitIndexOf_best sizes headerSize pageSize promoteMedian room
    rw [run] at found
    cases kept with
    | nowhere => cases found
    | here halves =>
        cases found
        exact halves
  · rw [byteBalancedSplitIndexOf, if_pos (Nat.not_le.mp room)] at found
    cases found

/-! ## Keys and sizes of a node -/

variable {K : Type} [Key K]

namespace NodeBody

omit [Key K] in
def keys : NodeBody K → List K
  | .internal body => body.entries.map InternalEntry.key
  | .leaf body => body.entries.map LeafEntry.key

omit [Key K] in
def isInternal : NodeBody K → Bool
  | .internal _ => true
  | .leaf _ => false

/-- The bytes that an entry with this key takes in the node. -/
def keySize (body : NodeBody K) (key : K) : Nat := 2 + (Encode.encode key).length + body.tailSize

/-- Every key of the node fits a page on its own. -/
def Narrow (body : NodeBody K) : Prop := ∀ key ∈ body.keys, body.headerSize + body.keySize key ≤ pageSize

theorem items_size (body : NodeBody K) : body.items.map Item.size = body.keys.map body.keySize := by
  cases body with
  | internal body =>
      simp only [items, keys, List.map_map]
      apply List.map_congr_left
      intro e _
      simp [Item.size, InternalEntry.item, keySize, tailSize]
  | leaf body =>
      simp only [items, keys, List.map_map]
      apply List.map_congr_left
      intro e _
      simp [Item.size, LeafEntry.item, keySize, tailSize, RecordAddress.encode, recordPointerSize]

theorem used_eq (body : NodeBody K) : body.used = body.headerSize + (body.keys.map body.keySize).sum := by
  unfold used
  rw [image_length, items_size]

theorem Fits.narrow {body : NodeBody K} (fits : body.Fits) : body.Narrow := by
  intro key member
  have part : body.keySize key ≤ (body.keys.map body.keySize).sum :=
    List.single_le_sum (fun _ _ => Nat.zero_le _) _ (List.mem_map_of_mem member)
  unfold Fits at fits
  rw [used_eq] at fits
  omega

end NodeBody

theorem entrySizeFromLen_fits {header tail n size : Nat} (checked : entrySizeFromLen header tail n = .ok size) :
    header + size ≤ pageSize := by
  unfold entrySizeFromLen at checked
  split at checked
  · cases checked
  · dsimp only at checked
    split at checked
    · cases checked
    · rename_i small
      cases checked
      exact Nat.le_of_not_lt small

/-- The size of an entry that fits a page on its own. -/
theorem measured_iff {body : NodeBody K} {x : Item} (member : x ∈ body.items) {size : Nat} :
    entrySizeFromLen body.headerSize body.tailSize x.key.length = .ok size ↔
      body.headerSize + x.size ≤ pageSize ∧ size = x.size := by
  have width := NodeBody.tail_length member
  constructor
  · intro checked
    have exactSize := entrySizeFromLen_eq checked
    have fits := entrySizeFromLen_fits checked
    have same : size = x.size := by
      rw [exactSize, ← width]
      rfl
    exact ⟨same ▸ fits, same⟩
  · rintro ⟨fits, rfl⟩
    refine entrySizeFromLen_ok width ?_ fits
    have header := body.headerSize_pos
    rw [pageSize_eq] at fits
    unfold Item.size at fits
    unfold msizeMax
    omega

/-- The entries of a node are measured when each of them fits a page on its own. -/
theorem entrySizes_iff {body : NodeBody K} {sizes : List Nat} :
    BTreeNode.entrySizes body = .ok sizes ↔ body.Narrow ∧ sizes = body.keys.map body.keySize := by
  have alone : body.Narrow ↔ ∀ x ∈ body.items, body.headerSize + x.size ≤ pageSize := by
    have sizes := body.items_size
    have each : body.Narrow ↔ ∀ n ∈ body.keys.map body.keySize, body.headerSize + n ≤ pageSize := by
      simp [NodeBody.Narrow]
    rw [each, ← sizes]
    simp
  unfold BTreeNode.entrySizes
  rw [alone, ← body.items_size]
  constructor
  · intro run
    have each : ∀ x ∈ body.items, body.headerSize + x.size ≤ pageSize := by
      intro x member
      obtain ⟨size, checked⟩ := Result.mapM_each run x member
      exact ((measured_iff member).mp checked).1
    refine ⟨each, ?_⟩
    have whole := Result.mapM_eq_map (f := fun x : Item => entrySizeFromLen body.headerSize body.tailSize x.key.length)
      (g := Item.size) fun x member => (measured_iff member).mpr ⟨each x member, rfl⟩
    exact Except.ok.inj (run.symm.trans whole)
  · rintro ⟨each, rfl⟩
    exact Result.mapM_eq_map fun x member => (measured_iff member).mpr ⟨each x member, rfl⟩

theorem wouldOverflow_iff {node : BTreeNode K} {overflow : Bool} : node.wouldOverflow = .ok overflow ↔
    node.body.Narrow ∧ overflow = decide (pageSize < node.body.used) := by
  unfold BTreeNode.wouldOverflow BTreeNode.entriesByteSize
  rw [NodeBody.used_eq]
  constructor
  · intro checked
    cases measured : BTreeNode.entrySizes node.body with
    | error e => simp [measured, Except.map] at checked
    | ok sizes =>
        obtain ⟨narrow, rfl⟩ := entrySizes_iff.mp measured
        rw [measured] at checked
        exact ⟨narrow, (Except.ok.inj checked).symm⟩
  · rintro ⟨narrow, rfl⟩
    rw [entrySizes_iff.mpr ⟨narrow, rfl⟩]
    rfl

theorem splitIndex_iff {body : NodeBody K} {promoteMedian : Bool} {index : Nat} :
    IndexTree.splitIndex body promoteMedian = .ok index ↔
      body.Narrow ∧ byteBalancedSplitIndex (body.keys.map body.keySize) body.headerSize promoteMedian = some index := by
  unfold IndexTree.splitIndex
  cases measured : BTreeNode.entrySizes body with
  | error e =>
      refine iff_of_false (by simp) fun both => ?_
      rw [entrySizes_iff.mpr ⟨both.1, rfl⟩] at measured
      cases measured
  | ok sizes =>
      obtain ⟨narrow, rfl⟩ := entrySizes_iff.mp measured
      cases cut : byteBalancedSplitIndex (body.keys.map body.keySize) body.headerSize promoteMedian with
      | none => simp [cut]
      | some found => simp [cut, narrow]

theorem splitIndex_error {body : NodeBody K} {promoteMedian : Bool} (narrow : body.Narrow)
    (stuck : byteBalancedSplitIndex (body.keys.map body.keySize) body.headerSize promoteMedian = none) :
    IndexTree.splitIndex body promoteMedian = .error (.error
      (.keyTooLarge ((body.keys.map body.keySize).foldl max 0) (pageSize - body.headerSize))) := by
  unfold IndexTree.splitIndex
  rw [entrySizes_iff.mpr ⟨narrow, rfl⟩]
  dsimp only
  rw [stuck]

/-- Both halves of a leaf with a cut fit a page, and the right one is not empty. -/
theorem leaf_halves {body : LeafNodeBody K} {index : Nat}
    (cut : byteBalancedSplitIndex ((NodeBody.leaf body).keys.map (NodeBody.leaf body).keySize) leafHeaderSize false =
      some index) :
    (∀ prev next, (NodeBody.leaf ⟨body.entries.take index, prev, next⟩ : NodeBody K).Fits) ∧
      (∀ prev next, (NodeBody.leaf ⟨body.entries.drop index, prev, next⟩ : NodeBody K).Fits) ∧
      ∃ first, (body.entries.drop index).head? = some first ∧ body.entries[index]? = some first := by
  obtain ⟨_, inside, left, right, _⟩ := byteBalancedSplitIndex_halves cut
  have header : leafHeaderSize ≤ pageSize := by
    rw [pageSize_eq]
    decide
  rw [List.length_map, NodeBody.keys, List.length_map] at inside
  rw [← List.map_take, NodeBody.keys, ← List.map_take] at left
  rw [if_neg Bool.false_ne_true, ← List.map_drop, NodeBody.keys, ← List.map_drop] at right
  refine ⟨fun prev next => ?_, fun prev next => ?_, body.entries[index], ?_, List.getElem?_eq_getElem inside⟩
  · unfold NodeBody.Fits
    rw [NodeBody.used_eq]
    exact Nat.add_le_of_le_sub' header left
  · unfold NodeBody.Fits
    rw [NodeBody.used_eq]
    exact Nat.add_le_of_le_sub' header right
  · rw [List.head?_drop]
    exact List.getElem?_eq_getElem inside

/-- Both halves of an internal node around its median fit a page. -/
theorem internal_halves {body : InternalNodeBody K} {index : Nat}
    (cut : byteBalancedSplitIndex ((NodeBody.internal body).keys.map (NodeBody.internal body).keySize)
      internalHeaderSize true = some index) :
    (∀ child, (NodeBody.internal ⟨body.entries.take index, child⟩ : NodeBody K).Fits) ∧
      (∀ child, (NodeBody.internal ⟨body.entries.drop (index + 1), child⟩ : NodeBody K).Fits) ∧
      ∃ median, body.entries[index]? = some median := by
  obtain ⟨_, inside, left, right, _⟩ := byteBalancedSplitIndex_halves cut
  have header : internalHeaderSize ≤ pageSize := by
    rw [pageSize_eq]
    decide
  rw [List.length_map, NodeBody.keys, List.length_map] at inside
  rw [← List.map_take, NodeBody.keys, ← List.map_take] at left
  rw [if_pos rfl, ← List.map_drop, NodeBody.keys, ← List.map_drop] at right
  refine ⟨fun child => ?_, fun child => ?_, body.entries[index], List.getElem?_eq_getElem inside⟩
  · unfold NodeBody.Fits
    rw [NodeBody.used_eq]
    exact Nat.add_le_of_le_sub' header left
  · unfold NodeBody.Fits
    rw [NodeBody.used_eq]
    exact Nat.add_le_of_le_sub' header right

/-! ## The keys that rise along a path -/

/-- The key that leaves a node of this kind that is to hold these keys: none while they
fit a page, the one at the cut when they do not, and no answer when no cut leaves two
halves that fit. -/
def risingKey (body : NodeBody K) (keys : List K) : Option (Option K) :=
  let sizes := keys.map body.keySize
  if body.headerSize + sizes.sum ≤ pageSize then some none
  else (byteBalancedSplitIndex sizes body.headerSize body.isInternal).map fun index => keys[index]?

omit [Key K] in
/-- The keys of a node with one more from a child that was split. -/
def keysWith (body : NodeBody K) : Option (K × Nat) → List K
  | none => body.keys
  | some (key, child) =>
      match body with
      | .leaf _ => body.keys
      | .internal node =>
          if node.rightmostChild = child then body.keys ++ [key]
          else body.keys.insertIdx (node.entries.findIdx fun entry => decide (entry.childPage = child)) key

/-- The keys that rise along a path from the leaf up, as far as every node that
overflows has a cut. -/
def rise : Option (K × Nat) → List (BTreeNode K) → Option (Option (K × Nat))
  | risen, [] => some risen
  | risen, node :: above =>
      match risingKey node.body (keysWith node.body risen) with
      | none => none
      | some key => rise (key.map fun key => (key, node.page)) above

theorem rise_append (risen : Option (K × Nat)) (xs ys : List (BTreeNode K)) :
    rise risen (xs ++ ys) = (rise risen xs).bind fun risen => rise risen ys := by
  induction xs generalizing risen with
  | nil => rfl
  | cons node xs ih =>
      rw [List.cons_append, rise, rise]
      cases risingKey node.body (keysWith node.body risen) with
      | none => rfl
      | some key => exact ih _

end WasmDbms
