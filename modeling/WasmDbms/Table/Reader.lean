import WasmDbms.Table.Runs

/-!
# The table reader

A scan steps through each page of the ledger in strides of the record
alignment and takes the first non-zero length it meets for a record.
-/
namespace WasmDbms
open ByteString MemoryManager

/-- A position of the reader. -/
structure Position where
  page : Nat
  offset : Nat
  deriving DecidableEq, Repr

/-- `TableReader`: the page in the buffer and where to go on; no position at the end. -/
structure TableReader where
  pageLedger : PageLedger
  buffer : List UInt8
  position : Option Position
  deriving DecidableEq, Repr

structure FoundRecord where
  page : Nat
  offset : Nat
  length : Nat
  newPosition : Option Position
  deriving DecidableEq, Repr

structure NextRecord (E : Type) where
  record : E
  page : Nat
  offset : Nat
  deriving DecidableEq, Repr

namespace TableReader

def new (pageLedger : PageLedger) : TableReader :=
  ⟨pageLedger, zeros pageSize, pageLedger.pages.head?.map fun r => ⟨r.page, 0⟩⟩

def nextPage (reader : TableReader) (current : Nat) : Option Position :=
  (reader.pageLedger.nextPageAfter current).map fun page => ⟨page, 0⟩

/-- The loop of `find_next_record_position`: the first slot from `offset` on
with a non-zero length. -/
def findSlot (alignment : Nat) (buf : List UInt8) : Nat → Nat → Except Fault (Option (Nat × Nat))
  | 0, _ => .error .diverges
  | fuel + 1, offset =>
      if buf.length ≤ offset + 1 then .ok none
      else
        let dataLen := ofLE [buf.getD offset 0, buf.getD (offset + 1) 0]
        if dataLen = 0 then findSlot alignment buf fuel (offset + alignment)
        else if buf.length < offset + rawRecordHeaderSize + dataLen then
          .error (.error (.decodeError .tooShort))
        else if msizeMax < dataLen + rawRecordHeaderSize then .error .panic
        else .ok (some (offset % (msizeMax + 1), dataLen + rawRecordHeaderSize))

def findNextRecordPosition (alignment : Nat) (buf : List UInt8) (offset : Nat) :
    Except Fault (Option (Nat × Nat)) :=
  findSlot alignment buf (buf.length + 1) (alignUp alignment offset)

/-- At the start of a page it is read into the buffer. -/
def refill (reader : TableReader) (page offset : Nat) : Prog TableReader :=
  if offset = 0 then do
    let read ← MemoryAccess.readAtRaw page 0 reader.buffer.length
    return { reader with buffer := read ++ reader.buffer.drop read.length }
  else return reader

/-- The loop of `find_next_record` over the pages of the ledger. -/
def findNextRecord (alignment : Nat) : Nat → TableReader → Position →
    Prog (Option FoundRecord × TableReader)
  | 0, _, _ => .fail .diverges
  | fuel + 1, reader, ⟨page, offset⟩ => do
      let reader ← reader.refill page offset
      let found ← Prog.lift (findNextRecordPosition alignment reader.buffer offset)
      match found with
      | some (next, size) =>
          let newOffset := next + size
          let newPosition := if pageSize ≤ newOffset then reader.nextPage page
            else some ⟨page, newOffset % (msizeMax + 1)⟩
          return (some ⟨page, next, size, newPosition⟩, reader)
      | none =>
          match reader.nextPage page with
          | some position => findNextRecord alignment fuel reader position
          | none => return (none, reader)

variable (E : Type) [Encode E]

def tryNext (reader : TableReader) : Prog (Option (NextRecord E) × TableReader) :=
  match reader.position with
  | none => return (none, reader)
  | some position => do
      let (found, reader) ← findNextRecord (RawRecord.alignment E)
        (reader.pageLedger.pages.length + 1) reader position
      match found with
      | none => return (none, { reader with position := none })
      | some next => do
          let record ← Prog.lift
            (RawRecord.decode (E := E) ((reader.buffer.drop next.offset).take next.length))
          return (some ⟨record.data, next.page, next.offset⟩, { reader with position := next.newPosition })

/-- A full scan: `try_next` until it returns `None`. -/
def scan : Nat → TableReader → Prog (List (NextRecord E))
  | 0, _ => .fail .diverges
  | fuel + 1, reader => do
      let (next, reader) ← tryNext E reader
      match next with
      | none => return []
      | some record => do
          let rest ← scan fuel reader
          return record :: rest

end TableReader

end WasmDbms
