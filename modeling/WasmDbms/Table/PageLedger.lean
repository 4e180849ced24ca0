import WasmDbms.Memory.Supply

/-!
# The page ledger

The pages that hold the records of a table, each with the number of free bytes
at its end. Records are placed at the first page end with enough room.
-/
namespace WasmDbms
open ByteString

structure PageRecord where
  page : Nat
  free : Nat
  deriving DecidableEq, Repr

namespace PageRecord

def encode (r : PageRecord) : List UInt8 := toLE 4 r.page ++ toLE 8 r.free

def decode (data : List UInt8) : PageRecord := ⟨ofLE (data.take 4), ofLE ((data.drop 4).take 8)⟩

theorem encode_length (r : PageRecord) : r.encode.length = 12 := by simp [encode]

theorem decode_encode {r : PageRecord} (page : r.page < 4294967296) (free : r.free < 18446744073709551616) :
    decode r.encode = r := by
  have wide : r.free < 256 ^ 8 := by omega
  rw [decode, encode, List.take_left' (toLE_length _ _), List.drop_left' (toLE_length _ _),
    ofLE_toLE_of_lt (by omega), List.take_of_length_le (by simp), ofLE_toLE_of_lt wide]

end PageRecord

/-- `PageLedger` with its `PageTable`. -/
structure PageLedger where
  ledgerPage : Nat
  pages : List PageRecord
  deriving DecidableEq, Repr

namespace PageTable

def encode (pages : List PageRecord) : List UInt8 :=
  toLE 4 pages.length ++ pages.flatMap PageRecord.encode

/-- A table that names more entries than the data holds is indexed out of bounds. -/
def decode (data : List UInt8) : Except Fault (List PageRecord) :=
  if data.length < 4 + 12 * ofLE (data.take 4) then .error .panic
  else .ok ((chunks 12 (ofLE (data.take 4)) (data.drop 4)).map PageRecord.decode)

theorem encode_length (pages : List PageRecord) : (encode pages).length = 4 + 12 * pages.length := by
  simp [encode, flatMap_length PageRecord.encode_length]

theorem decode_encode {pages : List PageRecord} (rest : List UInt8)
    (short : pages.length < 4294967296)
    (wide : ∀ r ∈ pages, r.page < 4294967296 ∧ r.free < 18446744073709551616) :
    decode (encode pages ++ rest) = .ok pages := by
  have count : ofLE ((encode pages ++ rest).take 4) = pages.length := by
    rw [encode, List.append_assoc, List.take_left' (toLE_length _ _)]
    exact ofLE_toLE_of_lt (by omega)
  have body : (chunks 12 pages.length ((encode pages ++ rest).drop 4)).map PageRecord.decode =
      pages := by
    rw [encode, List.append_assoc, List.drop_left' (toLE_length _ _)]
    exact map_chunks_flatMap PageRecord.encode_length
      (fun r member => PageRecord.decode_encode (wide r member).1 (wide r member).2) rest
  unfold decode
  rw [count, body, if_neg]
  rw [List.length_append, encode_length]
  omega

/-- What `write_at` uses of a table. -/
def encoded (pages : List PageRecord) (fits : 4 + 12 * pages.length ≤ msizeMax) : Encoded where
  alignment := defaultAlignment
  size := 4 + 12 * pages.length
  bytes := encode pages
  alignment_pos := defaultAlignment_pos
  size_le := fits
  size_eq := fun _ _ => encode_length pages
  saturated := fun _ _ => by decide

end PageTable

namespace PageLedger

/-- `size()` is computed in `u16` arithmetic, which overflows from 5,461 pages on. -/
def write (ledger : PageLedger) : Prog Unit :=
  if fits : 4 + 12 * ledger.pages.length ≤ msizeMax then
    MemoryAccess.writeAt ledger.ledgerPage 0 (PageTable.encoded ledger.pages fits)
  else .fail .panic

/-- The position for the next record, and the ledger with the page it may have added. -/
def getPageAndOffsetForRecord (ledger : PageLedger) (record : Encoded) :
    Prog ((Nat × Nat) × PageLedger) :=
  let requiredSize := alignUp record.alignment record.size
  if pageSize < requiredSize then Prog.throw (.dataTooLarge pageSize requiredSize)
  else
    match ledger.pages.find? (fun r => decide (pageSize - r.free + requiredSize ≤ pageSize)) with
    | some r => return ((r.page, (pageSize - r.free) % (msizeMax + 1)), ledger)
    | none => do
        let newPage ← MemoryAccess.claimPage
        return ((newPage, 0), { ledger with pages := ledger.pages ++ [⟨newPage, pageSize⟩] })

/-- Takes bytes from the free ones of the first record of a page. -/
def reserve (page size : Nat) : List PageRecord → List PageRecord
  | [] => []
  | r :: rs => if r.page = page then { r with free := r.free - size } :: rs else r :: reserve page size rs

def commit (ledger : PageLedger) (page : Nat) (record : Encoded) : Prog PageLedger :=
  match ledger.pages.find? (fun r => decide (r.page = page)) with
  | none => Prog.throw .outOfBounds
  | some r =>
      if r.free < record.size then Prog.throw (.dataTooLarge r.free record.size)
      else do
        let recordSize := record.size + (alignUp record.alignment record.size - record.size)
        let ledger := { ledger with pages := reserve page recordSize ledger.pages }
        ledger.write
        return ledger

/-- `next_page_after`, in ledger order. -/
def nextPageAfter (ledger : PageLedger) (current : Nat) : Option Nat :=
  match ledger.pages.findIdx? (fun r => decide (r.page = current)) with
  | none => none
  | some index => ledger.pages[index + 1]?.map PageRecord.page

open MemoryManager

/-- The ledger page holds the pages table. -/
def Persisted (m : MemoryManager) (ledger : PageLedger) : Prop :=
  4 + 12 * ledger.pages.length ≤ msizeMax ∧
    m.Stores ledger.ledgerPage 0 (PageTable.encode ledger.pages)

theorem Persisted.of_same {m m' : MemoryManager} {ledger : PageLedger}
    (persisted : Persisted m ledger) (same : SamePage m m' ledger.ledgerPage) :
    Persisted m' ledger := by
  obtain ⟨short, stored⟩ := persisted
  refine ⟨short, stored.of_same ?_ same⟩
  rw [PageTable.encode_length, pageSize_eq]
  unfold msizeMax at short
  omega

theorem write_runs {m m' : MemoryManager} {ledger : PageLedger} {r : Unit}
    (run : m.Runs ledger.write r m') :
    Persisted m' ledger ∧ m'.pages = m.pages ∧ ∀ q, q ≠ ledger.ledgerPage → SamePage m m' q := by
  unfold write at run
  split at run
  · rename_i short
    obtain ⟨_, _, fits, rfl⟩ := runs_writeAt.mp run
    exact ⟨⟨short, stores_writeBytes.left⟩, rfl, fun q other => samePage_writeBytes fits other⟩
  · exact absurd run runs_fail

/-- The position is the end of a page with room, or the start of a claimed one. -/
theorem getPageAndOffsetForRecord_runs {m m' : MemoryManager} {ledger ledger' : PageLedger}
    {record : Encoded} {page offset : Nat}
    (run : m.Runs (ledger.getPageAndOffsetForRecord record) ((page, offset), ledger') m') :
    (∃ r ∈ ledger.pages, r.page = page ∧ offset = (pageSize - r.free) % (msizeMax + 1) ∧
      pageSize - r.free + alignUp record.alignment record.size ≤ pageSize ∧
      ledger' = ledger ∧ m = m') ∨
    (m.Runs MemoryAccess.claimPage page m' ∧ offset = 0 ∧
      alignUp record.alignment record.size ≤ pageSize ∧
      ledger' = { ledger with pages := ledger.pages ++ [⟨page, pageSize⟩] }) := by
  unfold getPageAndOffsetForRecord at run
  dsimp only at run
  split at run
  · exact absurd run runs_throw
  · rename_i fits
    split at run
    · rename_i r found
      simp only [runs_pure, Prod.mk.injEq] at run
      obtain ⟨⟨⟨rfl, rfl⟩, rfl⟩, rfl⟩ := run
      have room := List.find?_some found
      exact .inl ⟨r, List.mem_of_find?_eq_some found, rfl, rfl, by simpa using room, rfl, rfl⟩
    · simp only [runs_bind, runs_pure, Prod.mk.injEq] at run
      obtain ⟨newPage, _, claimed, ⟨⟨rfl, rfl⟩, rfl⟩, rfl⟩ := run
      exact .inr ⟨claimed, rfl, Nat.le_of_not_lt fits, rfl⟩

theorem reserve_middle {before : List PageRecord} {r : PageRecord} (after : List PageRecord) (size : Nat)
    (first : ∀ x ∈ before, x.page ≠ r.page) :
    reserve r.page size (before ++ r :: after) =
      before ++ { r with free := r.free - size } :: after := by
  induction before with
  | nil => simp [reserve]
  | cons x xs ih =>
      rw [List.forall_mem_cons] at first
      rw [List.cons_append, reserve, if_neg first.1, ih first.2]
      rfl

theorem commit_runs {m m' : MemoryManager} {ledger ledger' : PageLedger} {page : Nat}
    {record : Encoded} (run : m.Runs (ledger.commit page record) ledger' m') :
    ∃ before r after, ledger.pages = before ++ r :: after ∧ r.page = page ∧
      ledger' = { ledger with pages :=
        before ++ { r with free := r.free - alignUp record.alignment record.size } :: after } ∧
      Persisted m' ledger' ∧ m'.pages = m.pages ∧
      ∀ q, q ≠ ledger.ledgerPage → SamePage m m' q := by
  unfold commit at run
  split at run
  · exact absurd run runs_throw
  · rename_i r found
    split at run
    · exact absurd run runs_throw
    · simp only [runs_bind, runs_pure] at run
      obtain ⟨_, _, written, rfl, rfl⟩ := run
      obtain ⟨here, before, after, split, first⟩ := List.find?_eq_some_iff_append.mp found
      obtain rfl : r.page = page := by simpa using here
      have grow := alignUp_ge record.size record.alignment_pos
      have size : record.size + (alignUp record.alignment record.size - record.size) =
          alignUp record.alignment record.size := by omega
      have pages := reserve_middle after (alignUp record.alignment record.size)
        (fun x member => by simpa using first x member)
      rw [size, split, pages] at written ⊢
      obtain ⟨persisted, same, others⟩ := write_runs written
      exact ⟨before, r, after, rfl, rfl, rfl, persisted, same, others⟩

end PageLedger

end WasmDbms
