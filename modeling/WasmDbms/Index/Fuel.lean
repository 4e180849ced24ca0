import WasmDbms.Index.Tree
import WasmDbms.Memory.Supply

/-!
# Fuel

The loops of the tree follow pages for as many rounds as the pages ask for. More
fuel changes nothing for a call that returns.
-/
namespace WasmDbms
open MemoryManager

/-- The call returns, with enough fuel. -/
def MemoryManager.Ends {α : Type} (m : MemoryManager) (p : Nat → Prog α) (r : α) (m' : MemoryManager) : Prop :=
  ∃ enough, ∀ fuel, enough ≤ fuel → m.Runs (p fuel) r m'

/-- Whenever the first program returns, so does the second, with the same result. -/
def Approx {α : Type} (p q : Prog α) : Prop :=
  ∀ (m : MemoryManager) (r : α) (m' : MemoryManager), m.Runs p r m' → m.Runs q r m'

namespace Approx

variable {α β : Type}

theorem refl (p : Prog α) : Approx p p := fun _ _ _ run => run

theorem diverges (q : Prog α) : Approx (.fail .diverges) q := by
  intro m r m' run
  simp at run

theorem bind {p q : Prog α} {f g : α → Prog β} (first : Approx p q) (rest : ∀ a, Approx (f a) (g a)) :
    Approx (p >>= f) (q >>= g) := by
  intro m r m' run
  obtain ⟨a, m₁, begun, ended⟩ := runs_bind.mp run
  exact runs_bind.mpr ⟨a, m₁, first m a m₁ begun, rest a m₁ r m' ended⟩

/-- A call that returns with some fuel returns with more. -/
theorem ends {p : Nat → Prog α} (more : ∀ fuel, Approx (p fuel) (p (fuel + 1))) {m m' : MemoryManager} {r : α}
    {fuel : Nat} (run : m.Runs (p fuel) r m') : m.Ends p r m' := by
  refine ⟨fuel, fun larger enough => ?_⟩
  induction enough with
  | refl => exact run
  | @step larger _ ih => exact more larger m r m' ih

end Approx

namespace IndexTree

variable {K : Type} [Key K]

theorem readPath_more (key : K) (fuel page : Nat) :
    Approx (readPath key fuel page) (readPath key (fuel + 1) page) := by
  induction fuel generalizing page with
  | zero => exact .diverges _
  | succ fuel ih =>
      rw [readPath, readPath]
      refine .bind (.refl _) fun node => ?_
      split
      · exact .bind (ih _) fun rest => .refl _
      · exact .refl _

theorem insert_more (tree : IndexTree) (key : K) (pointer : RecordAddress) (fuel : Nat) :
    Approx (tree.insert fuel key pointer) (tree.insert (fuel + 1) key pointer) :=
  .bind (readPath_more key fuel _) fun _ => .refl _

theorem findLeafPageInto_more (key : K) (fuel page : Nat) :
    Approx (findLeafPageInto key fuel page) (findLeafPageInto key (fuel + 1) page) := by
  induction fuel generalizing page with
  | zero => exact .diverges _
  | succ fuel ih =>
      rw [findLeafPageInto, findLeafPageInto]
      refine .bind (.refl _) fun buf => ?_
      split
      · exact .refl _
      · refine .bind (.refl _) fun view => .bind (.refl _) fun child => ?_
        cases child with
        | some child => exact ih child
        | none => exact .refl _

theorem skipEmptied_more (key : K) (fuel : Nat) (prev : Option Nat) :
    Approx (skipEmptied key fuel prev) (skipEmptied key (fuel + 1) prev) := by
  induction fuel generalizing prev with
  | zero =>
      cases prev with
      | none => exact .refl _
      | some page => exact .diverges _
  | succ fuel ih =>
      cases prev with
      | none => exact .refl _
      | some page =>
          rw [skipEmptied, skipEmptied]
          refine .bind (.refl _) fun buf => .bind (.refl _) fun view => ?_
          split
          · exact ih _
          · exact .refl _

theorem walkBack_more (key : K) (fuel page : Nat) (buf : List UInt8) :
    Approx (walkBack key fuel page buf) (walkBack key (fuel + 1) page buf) := by
  induction fuel generalizing page buf with
  | zero => exact .diverges _
  | succ fuel ih =>
      rw [walkBack, walkBack]
      refine .bind (.refl _) fun first => ?_
      split
      · exact .refl _
      · refine .bind (.refl _) fun view => .bind (skipEmptied_more key fuel _) fun found => ?_
        cases found with
        | some found => exact ih _ _
        | none => exact .refl _

theorem findSearchStartLeaf_more (tree : IndexTree) (key : K) (fuel : Nat) :
    Approx (tree.findSearchStartLeaf fuel key) (tree.findSearchStartLeaf (fuel + 1) key) := by
  refine .bind (.bind (findLeafPageInto_more key fuel _) fun found => ?_) fun _ => .refl _
  exact walkBack_more key fuel _ _

theorem deleteFrom_more (key : K) (pointer : RecordAddress) (fuel : Nat) (node : BTreeNode K) :
    Approx (deleteFrom key pointer fuel node) (deleteFrom key pointer (fuel + 1) node) := by
  induction fuel generalizing node with
  | zero => exact .diverges _
  | succ fuel ih =>
      rw [deleteFrom, deleteFrom]
      split
      · exact .refl _
      · split
        · exact .refl _
        · split
          · exact .refl _
          · refine .bind (.refl _) fun next => ?_
            split
            · exact .refl _
            · exact ih next

theorem delete_more (tree : IndexTree) (key : K) (pointer : RecordAddress) (fuel : Nat) :
    Approx (tree.delete fuel key pointer) (tree.delete (fuel + 1) key pointer) :=
  .bind (findSearchStartLeaf_more tree key fuel) fun leaf => deleteFrom_more key pointer fuel leaf

theorem update_more (tree : IndexTree) (key : K) (oldPointer newPointer : RecordAddress) (fuel : Nat) :
    Approx (tree.update fuel key oldPointer newPointer) (tree.update (fuel + 1) key oldPointer newPointer) :=
  .bind (delete_more tree key oldPointer fuel) fun _ => insert_more tree key newPointer fuel

end IndexTree

end WasmDbms
