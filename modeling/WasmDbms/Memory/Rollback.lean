import WasmDbms.Memory.Journal

/-!
# What a rollback restores

The invariant is about the memory a replay of the journal would leave: as long
as every entry lies inside its page, it agrees with the memory the journal was
opened on. Every call keeps it, failed or not. Whether the replay itself
succeeds is then a matter of the recorded regions alone.
-/
namespace WasmDbms
open ByteString

namespace JournalEntry

end JournalEntry

namespace Journal

end Journal

namespace JournaledWriter

end JournaledWriter

/-- A method of `MemoryAccess` called on the writer: a primitive call, whose
offset is a `u16`, or one of the two default methods. -/
inductive AccessCall where
  | primitive (c : MemCall) (typed : c.offset ≤ msizeMax)
  | claimPage
  | unclaimPage (page : Nat)

namespace AccessCall
open JournaledWriter

/-- The writer after the call. Its result is dropped: the caller may go on after an error. -/
def issue : AccessCall → JournaledWriter → JournaledWriter
  | primitive c _, w => (exec c w).2
  | claimPage, w => (MemoryAccess.claimPage.run exec w).2
  | unclaimPage page, w => ((MemoryAccess.unclaimPage page).run exec w).2

end AccessCall

end WasmDbms
