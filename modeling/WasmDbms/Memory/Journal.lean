import WasmDbms.Memory.UnclaimedPages

/-!
# The write-ahead journal

`JournaledWriter` records the bytes of a region before it hands a write to the
`MemoryManager`; `rollback` writes them back, the newest first. A region is
recorded before the write is validated, with the length the method asks for.
When that region crosses the page end the entry cannot be written back.
-/
namespace WasmDbms
open ByteString

structure JournalEntry where
  page : Nat
  offset : Nat
  originalBytes : List UInt8
  deriving DecidableEq, Repr

/-- The entries of a journal, oldest first. -/
structure Journal where
  entries : List JournalEntry
  deriving DecidableEq, Repr

structure JournaledWriter where
  mm : MemoryManager
  journal : Journal

namespace Journal

/-- Writes entries back in the given order; the first failure ends it. -/
def replay : List JournalEntry → MemoryManager → Except MemoryError Unit × MemoryManager
  | [], m => (.ok (), m)
  | e :: es, m =>
      MemoryManager.andThen (m.writeAtRaw e.page e.offset e.originalBytes) fun _ m => replay es m

def rollback (j : Journal) (m : MemoryManager) : Except MemoryError Unit × MemoryManager :=
  replay j.entries.reverse m

/-- The buffer of `len` zero bytes keeps its tail when the read is short. -/
def record (j : Journal) (m : MemoryManager) (page offset len : Nat) :
    Except MemoryError Journal :=
  match m.readAtRaw page offset len with
  | .error e => .error e
  | .ok read =>
      .ok ⟨j.entries ++ [⟨page, offset, read ++ MemoryManager.zeros (len - read.length)⟩]⟩

end Journal

namespace JournaledWriter

/-- `JournaledWriter::new` with a new journal. -/
def new (m : MemoryManager) : JournaledWriter := ⟨m, ⟨[]⟩⟩

/-- The page, the offset and the length of the region each method records
before it delegates. Page growth is not journaled. -/
def recorded : MemCall → Option (Nat × Nat × Nat)
  | .zeroPage page => some (page, 0, pageSize)
  | .writeAt page offset data => some (page, offset, alignUp data.alignment data.size)
  | .writeAtRaw page offset buf => some (page, offset, buf.length)
  | .zero page offset data => some (page, offset, alignUp data.alignment data.size)
  | .zeroRaw page offset len => some (page, offset, len)
  | .growOnePage | .readAt .. | .readAtRaw .. => none

/-- The call on the wrapped manager. -/
def delegate (c : MemCall) (w : JournaledWriter) : Except MemoryError c.Resp × JournaledWriter :=
  ((w.mm.exec c).1, { w with mm := (w.mm.exec c).2 })

/-- `impl MemoryAccess for JournaledWriter`. -/
def exec : Prog.Handler JournaledWriter := fun c w =>
  match recorded c with
  | none => delegate c w
  | some (page, offset, len) =>
      match w.journal.record w.mm page offset len with
      | .error e => (.error e, w)
      | .ok journal => delegate c { w with journal := journal }

end JournaledWriter

end WasmDbms
