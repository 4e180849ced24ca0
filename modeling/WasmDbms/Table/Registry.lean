import WasmDbms.Memory.Encode
import WasmDbms.Table.PageLedger
import WasmDbms.Table.FreeSegmentsLedger

/-!
# The table registry

Insertion, deletion and update of records. Space comes from a free segment
when one is large enough and from the end of a page otherwise.
-/
namespace WasmDbms

structure RecordAddress where
  page : Nat
  offset : Nat
  deriving DecidableEq, Repr

/-- The two ledgers that place the records of a table. -/
structure TableRegistry where
  pageLedger : PageLedger
  freeSegmentsLedger : FreeSegmentsLedger
  deriving DecidableEq, Repr

/-- Where a record is written. -/
inductive WriteAt where
  | reusedSegment (ticket : FreeSegmentTicket)
  | atEnd (page offset : Nat)
  deriving DecidableEq, Repr

namespace WriteAt

def page : WriteAt → Nat
  | reusedSegment ticket => ticket.segment.page
  | atEnd page _ => page

def offset : WriteAt → Nat
  | reusedSegment ticket => ticket.segment.offset
  | atEnd _ offset => offset

end WriteAt

/-- `raw_record_footprint`. -/
def rawRecordFootprint (bodyLen alignment : Nat) : Except Fault Nat :=
  let unaligned := bodyLen + rawRecordHeaderSize
  let aligned := if alignment = 0 then unaligned else alignUp alignment unaligned
  if aligned ≤ msizeMax then .ok aligned else .error (.error (.dataTooLarge pageSize aligned))

namespace TableRegistry

variable {E : Type} [Encode E]

def ensureRecordFits (record : E) : Prog Unit := do
  let _ ← Prog.lift (rawRecordFootprint (Encode.size record) (RawRecord.alignment E))
  return ()

def getWritePosition (reg : TableRegistry) (record : Encoded) : Prog (WriteAt × TableRegistry) := do
  match ← reg.freeSegmentsLedger.findReusableSegment record with
  | some ticket => return (.reusedSegment ticket, reg)
  | none => do
      let ((page, offset), pageLedger) ← reg.pageLedger.getPageAndOffsetForRecord record
      return (.atEnd page offset, { reg with pageLedger := pageLedger })

def postWrite (reg : TableRegistry) (writeAt : WriteAt) (record : Encoded) : Prog TableRegistry :=
  match writeAt with
  | .reusedSegment ticket => do
      reg.freeSegmentsLedger.commitReusedSpace record ticket
      return reg
  | .atEnd page _ => do
      let pageLedger ← reg.pageLedger.commit page record
      return { reg with pageLedger := pageLedger }

def insert (reg : TableRegistry) (record : E) : Prog (RecordAddress × TableRegistry) := do
  ensureRecordFits record
  let rawRecord := RawRecord.encoded record
  let (writeAt, reg) ← reg.getWritePosition rawRecord
  let alignedOffset := alignUp (RawRecord.alignment E) writeAt.offset % (msizeMax + 1)
  MemoryAccess.writeAt writeAt.page alignedOffset rawRecord
  let reg ← reg.postWrite writeAt rawRecord
  return (⟨writeAt.page, alignedOffset⟩, reg)

def delete (reg : TableRegistry) (record : E) (address : RecordAddress) : Prog TableRegistry := do
  let rawRecord := RawRecord.encoded record
  MemoryAccess.zero address.page address.offset rawRecord
  let ledger ← reg.freeSegmentsLedger.insertFreeSegment address.page address.offset rawRecord
  return { reg with freeSegmentsLedger := ledger }

def updateInPlace (reg : TableRegistry) (record : E) (address : RecordAddress) :
    Prog (RecordAddress × TableRegistry) := do
  MemoryAccess.writeAt address.page address.offset (RawRecord.encoded record)
  return (address, reg)

def updateByRealloc (reg : TableRegistry) (newRecord oldRecord : E) (oldAddress : RecordAddress) :
    Prog (RecordAddress × TableRegistry) := do
  let reg ← reg.delete oldRecord oldAddress
  reg.insert newRecord

def update (reg : TableRegistry) (newRecord oldRecord : E) (oldAddress : RecordAddress) :
    Prog (RecordAddress × TableRegistry) := do
  ensureRecordFits newRecord
  if Encode.size newRecord = Encode.size oldRecord then reg.updateInPlace newRecord oldAddress
  else reg.updateByRealloc newRecord oldRecord oldAddress

/-- Reads the record at an address: of a dynamic type the header first, then as many bytes. -/
def readAt (E : Type) [Encode E] (address : RecordAddress) : Prog E :=
  match Encode.dataSize E with
  | .fixed _ => do
      let data ← MemoryAccess.readAt address.page address.offset (RawRecord.alignment E)
        (RawRecord.dataSize E)
      let rawRecord ← Prog.lift (RawRecord.decode data)
      return rawRecord.data
  | .dynamic =>
      if RawRecord.alignment E ≠ 0 ∧ address.offset % RawRecord.alignment E ≠ 0 then
        Prog.throw (.offsetNotAligned address.offset (RawRecord.alignment E))
      else do
        let header ← MemoryAccess.readAtRaw address.page address.offset rawRecordHeaderSize
        if header.length < rawRecordHeaderSize then Prog.throw (.decodeError .tooShort)
        else
          let length := ByteString.ofLE header
          let bodyOffset := address.offset + rawRecordHeaderSize
          if pageSize < bodyOffset + length then Prog.throw (.decodeError .tooShort)
          else do
            let body ← MemoryAccess.readAtRaw address.page (bodyOffset % (msizeMax + 1)) length
            -- the buffer keeps its zero tail when the read is short
            Prog.lift (Encode.decode (body ++ MemoryManager.zeros (length - body.length)))

end TableRegistry

end WasmDbms
