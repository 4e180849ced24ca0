import WasmDbms.Index.Codec
import WasmDbms.Index.Tree

/-!
# Pages that hold nodes

What a read finds in a page that holds a node, and what a flush leaves.
-/
namespace WasmDbms
open ByteString Entries MemoryManager

theorem MemoryManager.Runs.det {α : Type} {m m₁ m₂ : MemoryManager} {p : Prog α} {r₁ r₂ : α}
    (first : m.Runs p r₁ m₁) (second : m.Runs p r₂ m₂) : r₁ = r₂ ∧ m₁ = m₂ := by
  have same := first.symm.trans second
  simpa using same

variable {K : Type} [Key K]

theorem read_keeps {m m' : MemoryManager} {page : Nat} {node : BTreeNode K}
    (run : m.Runs (BTreeNode.read page) node m') : m = m' := by
  simp only [BTreeNode.read, BTreeNode.readPage, runs_bind, runs_lift, runs_pure] at run
  obtain ⟨_, _, ⟨_, _, read, _, rfl⟩, _, rfl⟩ := run
  exact ((runs_readAtRaw (Nat.zero_le _)).mp read).2.2

/-- The page holds a node with this body. -/
structure Holds (m : MemoryManager) (page : Nat) (body : NodeBody K) : Prop where
  allocated : page < m.pages
  fits : body.Fits
  range : body.InRange
  stored : ∃ parentPage, m.Stores page 0 (body.pageImage parentPage)

namespace Holds

variable {m m' : MemoryManager} {page : Nat} {body : NodeBody K}

theorem of_same (holds : Holds m page body) (pages : m.pages ≤ m'.pages) (same : SamePage m m' page) :
    Holds m' page body := by
  obtain ⟨parentPage, stored⟩ := holds.stored
  refine ⟨Nat.lt_of_lt_of_le holds.allocated pages, holds.fits, holds.range, parentPage, ?_⟩
  refine stored.of_same ?_ same
  rw [NodeBody.pageImage_length holds.fits, Nat.zero_add]

theorem readPage_runs (holds : Holds m page body) :
    ∃ parentPage, m.Runs (BTreeNode.readPage page) (body.pageImage parentPage) m := by
  obtain ⟨parentPage, stored⟩ := holds.stored
  have long := NodeBody.pageImage_length holds.fits parentPage
  have bytes : m.bytesAt page 0 (min (pageSize - 0) pageSize) = body.pageImage parentPage := by
    unfold Stores at stored
    rw [Nat.sub_zero, Nat.min_self, ← long, stored]
  refine ⟨parentPage, ?_⟩
  unfold BTreeNode.readPage
  refine runs_bind.mpr ⟨_, m, (runs_readAtRaw (Nat.zero_le _)).mpr ⟨holds.allocated, rfl, rfl⟩, ?_⟩
  refine runs_pure.mpr ⟨?_, rfl⟩
  rw [bytes, long, Nat.sub_self]
  exact List.append_nil _

theorem read_runs (holds : Holds m page body) : ∃ header : NodeHeader,
    header.numEntries = body.items.length ∧
      m.Runs (BTreeNode.read page) ⟨page, header, body, false⟩ m := by
  obtain ⟨parentPage, read⟩ := holds.readPage_runs
  obtain ⟨header, counted, _, decoded⟩ := deserialize_pageImage holds.fits holds.range page parentPage
  refine ⟨header, counted, ?_⟩
  exact runs_bind.mpr ⟨_, m, read, runs_lift.mpr ⟨decoded, rfl⟩⟩

/-- What is read in a page that holds a node. -/
theorem read_eq (holds : Holds m page body) {node : BTreeNode K}
    (run : m.Runs (BTreeNode.read page) node m') :
    m = m' ∧ node.page = page ∧ node.body = body ∧ node.dirty = false ∧
      node.header.numEntries = body.items.length := by
  obtain ⟨header, counted, read⟩ := holds.read_runs
  obtain ⟨rfl, rfl⟩ := run.det read
  exact ⟨rfl, rfl, rfl, rfl, counted⟩

end Holds

/-- The count in the header is the number of entries. -/
def BTreeNode.Counted (node : BTreeNode K) : Prop := node.header.numEntries = node.body.items.length

/-- A change of one page. -/
structure Rewritten (m m' : MemoryManager) (page : Nat) : Prop where
  pages : m'.pages = m.pages
  same : ∀ q, q ≠ page → SamePage m m' q

theorem flush_dirty {m m' : MemoryManager} {node r : BTreeNode K} (counted : node.Counted)
    (range : node.body.InRange) (dirty : node.dirty = true) (run : m.Runs node.flush r m') :
    Holds m' node.page node.body ∧ Rewritten m m' node.page := by
  unfold BTreeNode.flush at run
  rw [if_neg (by simp [dirty])] at run
  simp only [runs_bind, runs_lift, runs_writeAtRaw, runs_pure] at run
  obtain ⟨buf, _, ⟨written, rfl⟩, _, _, ⟨alloc, inPage, rfl⟩, _, rfl⟩ := run
  obtain ⟨fits, rfl⟩ := (serialize_eq counted).mp written
  refine ⟨⟨alloc, fits, range, node.header.parentPage, stores_writeBytes⟩, rfl, ?_⟩
  exact fun q other => samePage_writeBytes inPage other

theorem flush_clean {m m' : MemoryManager} {node r : BTreeNode K} (clean : node.dirty = false)
    (run : m.Runs node.flush r m') : m = m' := by
  unfold BTreeNode.flush at run
  rw [if_pos clean] at run
  exact (runs_pure.mp run).2

/-- A node that fits is flushed. -/
theorem flush_runs {m : MemoryManager} {node : BTreeNode K} (counted : node.Counted)
    (fits : node.body.Fits) (alloc : node.page < m.pages) : ∃ r m', m.Runs node.flush r m' := by
  unfold BTreeNode.flush
  by_cases clean : node.dirty = false
  · rw [if_pos clean]
    exact ⟨node, m, runs_pure.mpr ⟨rfl, rfl⟩⟩
  · rw [if_neg clean]
    have written := (serialize_eq counted).mpr ⟨fits, rfl⟩
    have inPage : 0 + (node.body.pageImage node.header.parentPage).length ≤ pageSize := by
      rw [NodeBody.pageImage_length fits]
      omega
    exact ⟨_, _, runs_bind.mpr ⟨_, m, runs_lift.mpr ⟨written, rfl⟩, runs_bind.mpr
      ⟨(), _, runs_writeAtRaw.mpr ⟨alloc, inPage, rfl⟩, runs_pure.mpr ⟨rfl, rfl⟩⟩⟩⟩

end WasmDbms
