import WasmDbms.Index.Ledger
import WasmDbms.Table.FreeSegmentsLedger
import WasmDbms.Table.PageLedger

/-!
# The ledgers of a table on their pages

Each ledger has a codec. What is committed of it is read back by `read_sized`, and its length
is computed alike in three places, unless the ledger fills its page to the last byte.
-/
namespace WasmDbms
open ByteString MemoryManager LedgerCodec

section Entries
variable {width : ℕ} {pre : List UInt8}

/-- The length of entries of one width after their count. -/
def countedLen (header width : ℕ) (pre : List UInt8) : Option ℕ :=
  if pre.length < header then none else some (header + ofLE (pre.take header) * width)

theorem countedLen_announces {header width count : ℕ} {entries : List UInt8} (small : count < 256 ^ header)
    (length : entries.length = width * count) : Announces (countedLen header width) (toLE header count ++ entries) := by
  intro read rest shorter
  have total : (toLE header count ++ entries).length = header + count * width := by
    rw [List.length_append, toLE_length, length, Nat.mul_comm]
  by_cases short : read.length < header
  · exact .inr ⟨if_pos short, by rw [total]; omega⟩
  · left
    have counted : read.take header = toLE header count := by
      rw [List.append_assoc] at shorter
      have first := List.prefix_of_prefix_length_le (List.prefix_append _ _) shorter
        (by rw [toLE_length]; exact Nat.le_of_not_lt short)
      rw [List.prefix_iff_eq_take.mp first, toLE_length]
    rw [countedLen, if_neg short, counted, ofLE_toLE_of_lt small, total]

end Entries

namespace PageTable

/-- Four bytes for the count and twelve for each page. -/
def size (build : Build) (pages : List PageRecord) : Except Fault ℕ := do
  let records ← build.msize (pages.length % (msizeMax + 1) * 12)
  build.msize (4 + records)

/-- `impl Encode for PageTable`. -/
def codec : LedgerCodec (List PageRecord) := ⟨size, encode, decode⟩

def encodedLen : List UInt8 → Option ℕ := countedLen 4 12

section Fits
variable {pages : List PageRecord} (fits : (encode pages).length ≤ pageSize)
include fits

theorem few : pages.length ≤ msizeMax := by
  rw [encode_length, pageSize_eq] at fits
  unfold msizeMax
  omega

theorem size_eq {build : Build} : size build pages = build.msize (encode pages).length := by
  have few := few fits
  rw [size, Nat.mod_eq_of_lt (Nat.lt_succ_of_le few), Build.msize_bind_add, encode_length, Nat.mul_comm]

theorem announces : Announces encodedLen (encode pages) := by
  have few := few fits
  unfold msizeMax at few
  exact countedLen_announces (by omega) (flatMap_length PageRecord.encode_length pages)

theorem decode_encode_whole (wide : ∀ r ∈ pages, r.page < 4294967296 ∧ r.free < 18446744073709551616) :
    decode (encode pages) = .ok pages := by
  have few := few fits
  unfold msizeMax at few
  have whole := decode_encode [] (by omega) wide
  rwa [List.append_nil] at whole

end Fits
end PageTable

namespace PagesTable

def decode (data : List UInt8) : Except Fault (List ℕ) :=
  if data.length < 2 + 4 * ofLE (data.take 2) then .error .panic
  else .ok ((chunks 4 (ofLE (data.take 2)) (data.drop 2)).map ofLE)

/-- The cast of the size truncates. -/
def size (_ : Build) (pages : List ℕ) : Except Fault ℕ := .ok ((2 + pages.length * 4) % (msizeMax + 1))

/-- `impl Encode for PagesTable`. -/
def codec : LedgerCodec (List ℕ) := ⟨size, encode, decode⟩

def encodedLen : List UInt8 → Option ℕ := countedLen 2 4

section Fits
variable {pages : List ℕ} (fits : (encode pages).length ≤ pageSize)
include fits

theorem few : pages.length ≤ msizeMax := by
  rw [encode_length, pageSize_eq] at fits
  unfold msizeMax
  omega

theorem decode_encode (wide : ∀ page ∈ pages, page < 4294967296) : decode (encode pages) = .ok pages := by
  have few := few fits
  have count : ofLE ((encode pages).take 2) = pages.length := by
    rw [encode, List.take_left' (toLE_length _ _)]
    exact ofLE_toLE_of_lt (Nat.lt_succ_of_le few)
  have body : (chunks 4 pages.length ((encode pages).drop 2)).map ofLE = pages := by
    have whole := map_chunks_flatMap (toLE_length 4) (fun page member => ofLE_toLE_of_lt (wide page member)) []
    rwa [List.append_nil] at whole
  unfold decode
  rw [count, body, if_neg]
  rw [encode_length]
  omega

theorem announces : Announces encodedLen (encode pages) :=
  countedLen_announces (Nat.lt_succ_of_le (few fits)) (flatMap_length (toLE_length 4) pages)

end Fits
end PagesTable

namespace UnclaimedPages

def size (build : Build) (u : UnclaimedPages) : Except Fault ℕ := do
  let entries ← build.msize (u.pages.length % (msizeMax + 1) * 4)
  build.msize (4 + entries)

/-- `impl Encode for UnclaimedPages`. -/
def codec : LedgerCodec UnclaimedPages := ⟨size, encode, decode⟩

theorem size_eq (build : Build) (u : UnclaimedPages) : size build u = .ok u.encode.length := by
  have fits := u.encode_fits
  have few : u.pages.length < msizeMax + 1 := by
    unfold msizeMax
    omega
  have short : 4 + 4 * u.pages.length ≤ msizeMax := by
    unfold msizeMax
    omega
  rw [size, Nat.mod_eq_of_lt few, Build.msize_bind_add, encode_length, Nat.mul_comm, Build.msize_ok short]

end UnclaimedPages

/-! ## Loading a ledger -/

namespace PageLedger

def load (page : ℕ) : Prog PageLedger := do
  let pages ← PageTable.codec.readSized PageTable.encodedLen page
  return ⟨page, pages⟩

/-- The ledger that its page holds is loaded. -/
theorem load_persisted {m : MemoryManager} {ledger : PageLedger} (persisted : Persisted m ledger)
    (allocated : ledger.ledgerPage < m.pages)
    (wide : ∀ r ∈ ledger.pages, r.page < 4294967296 ∧ r.free < 18446744073709551616) :
    m.Runs (load ledger.ledgerPage) ledger m := by
  obtain ⟨short, stored⟩ := persisted
  have fits : (PageTable.encode ledger.pages).length ≤ pageSize := by
    rw [PageTable.encode_length, pageSize_eq]
    unfold msizeMax at short
    omega
  exact runs_bind.mpr ⟨_, m, readSized_runs (PageTable.announces fits) (PageTable.decode_encode_whole fits wide)
    allocated fits stored, runs_pure.mpr ⟨rfl, rfl⟩⟩

end PageLedger

namespace FreeSegmentsLedger

def load (page : ℕ) : Prog FreeSegmentsLedger := do
  let tables ← PagesTable.codec.readSized PagesTable.encodedLen page
  return ⟨page, tables⟩

theorem load_persisted {m : MemoryManager} {ledger : FreeSegmentsLedger} (persisted : Persisted m ledger)
    (allocated : ledger.freeSegmentsPage < m.pages) (wide : ∀ page ∈ ledger.tables, page < 4294967296) :
    m.Runs (load ledger.freeSegmentsPage) ledger m := by
  obtain ⟨fits, stored⟩ := persisted
  exact runs_bind.mpr ⟨_, m, readSized_runs (PagesTable.announces fits) (PagesTable.decode_encode fits wide)
    allocated fits stored, runs_pure.mpr ⟨rfl, rfl⟩⟩

end FreeSegmentsLedger

/-- For every value of the ledgers that is committed: what is stored is read back and the
lengths agree, if and only if the encoding does not fill the page. The unclaimed pages, read
with the whole page, never fill it. -/
theorem ledgers_faithful_iff (build : Build) :
    (∀ pages : List PageRecord, (∀ r ∈ pages, r.page < 4294967296 ∧ r.free < 18446744073709551616) →
      PageTable.codec.Committed build pages →
      (PageTable.codec.Faithful PageTable.encodedLen build pages ↔ (PageTable.encode pages).length ≠ pageSize)) ∧
    (∀ pages : List ℕ, (∀ p ∈ pages, p < 4294967296) → PagesTable.codec.Committed build pages →
      (PagesTable.codec.Faithful PagesTable.encodedLen build pages ↔ (PagesTable.encode pages).length ≠ pageSize)) ∧
    (∀ tables : IndexLedgerTables, (∀ entry ∈ tables.entries, entry.2 < 4294967296) →
      IndexLedgerTables.codec.Committed build tables →
      (IndexLedgerTables.codec.Faithful IndexLedgerTables.encodedLen build tables ↔
        tables.encode.length ≠ pageSize)) ∧
    ∀ u : UnclaimedPages, (∀ p ∈ u.pages, p < 4294967296) →
      u.encode.length ≠ pageSize ∧ UnclaimedPages.decode u.encode = .ok u ∧
      UnclaimedPages.codec.size build u = .ok u.encode.length ∧
      ∀ (m : MemoryManager) page, page < m.pages → m.Stores page 0 u.encode →
        m.Runs (MemoryAccess.readAt page 0 defaultAlignment .dynamic >>= fun data =>
          Prog.lift (UnclaimedPages.codec.decode data)) u m := by
  refine ⟨fun pages wide committed => ?_, fun pages wide committed => ?_, fun tables wide committed => ?_, fun u wide => ?_⟩
  · have fits : (PageTable.encode pages).length ≤ pageSize := committed.fits
    refine faithful_iff (PageTable.decode_encode_whole fits wide) (PageTable.announces fits) (fun short => ?_)
      (fun n known => ?_) committed
    · exact (PageTable.size_eq fits).trans (Build.msize_ok short)
    · exact Build.msize_le ((PageTable.size_eq fits).symm.trans known)
  · have fits : (PagesTable.encode pages).length ≤ pageSize := committed.fits
    refine faithful_iff (PagesTable.decode_encode fits wide) (PagesTable.announces fits) (fun short => ?_)
      (fun n known => ?_) committed
    · change Except.ok ((2 + pages.length * 4) % (msizeMax + 1)) = .ok (PagesTable.encode pages).length
      rw [PagesTable.encode_length, Nat.mul_comm, Nat.mod_eq_of_lt]
      exact Nat.lt_succ_of_le (PagesTable.encode_length pages ▸ short)
    · cases known
      exact Nat.le_of_lt_succ (Nat.mod_lt _ (Nat.succ_pos _))
  · have fits : tables.encode.length ≤ pageSize := committed.fits
    refine faithful_iff (IndexLedgerTables.decode_encode fits wide) (IndexLedgerTables.encodedLen_announces fits)
      (fun short => ?_) (fun n known => ?_) committed
    · exact (IndexLedgerTables.size_eq tables).trans (Build.msize_ok short)
    · exact Build.msize_le ((IndexLedgerTables.size_eq tables).symm.trans known)
  · have fits := u.encode_fits
    refine ⟨?_, ?_, UnclaimedPages.size_eq build u, fun m page allocated stored => ?_⟩
    · rw [UnclaimedPages.encode_length, pageSize_eq]
      omega
    · have whole := u.decode_encode [] wide
      rwa [List.append_nil] at whole
    · have short : u.encode.length ≤ pageSize := by
        rw [UnclaimedPages.encode_length, pageSize_eq]
        omega
      obtain ⟨rest, page_⟩ := stored.bytesAt_eq short
      refine runs_bind.mpr ⟨_, m, runs_readAt_dynamic.mpr ⟨allocated, rfl, rfl⟩, ?_⟩
      have back : UnclaimedPages.decode (m.bytesAt page 0 pageSize) = .ok u := by
        rw [page_]
        exact u.decode_encode rest wide
      exact runs_lift.mpr ⟨back, rfl⟩

/-! ## Ledgers on a page -/

namespace LedgerPage

theorem capacity_lt : 6000 < 4294967296 := by decide

theorem pages_le : 5464 ≤ 6000 := by decide

def memory : MemoryManager := ⟨5464, 6000, fun _ => 0, pages_le, capacity_lt⟩

theorem page_allocated : 2 < memory.pages := by decide

theorem id_short : "id".utf8ByteSize ≤ maxColumnNameLen := by decide

/-- An index on `id`. -/
def idIndex : IndexLedgerTables := IndexLedgerTables.empty.insert [⟨"id", id_short⟩] 5

theorem one_bounded : [3].length ≤ unclaimedPagesCapacity := by decide

theorem idIndex_length : idIndex.encode.length = 23 := by decide

theorem fits_page {n : ℕ} (few : n < 100) : n ≤ pageSize ∧ n ≠ pageSize := by
  rw [pageSize_eq]
  omega

theorem small_ledgers_faithful :
    PageTable.codec.Faithful PageTable.encodedLen .wrapping [⟨3, 100⟩] ∧
    PagesTable.codec.Faithful PagesTable.encodedLen .wrapping [4] ∧
    IndexLedgerTables.codec.Faithful IndexLedgerTables.encodedLen .wrapping idIndex ∧
    UnclaimedPages.codec.size .wrapping ⟨[3], one_bounded⟩ = .ok (UnclaimedPages.encode ⟨[3], one_bounded⟩).length := by
  have page : (PageTable.encode [⟨3, 100⟩]).length ≤ pageSize ∧ (PageTable.encode [⟨3, 100⟩]).length ≠ pageSize :=
    fits_page (by decide)
  have pages : (PagesTable.encode [4]).length ≤ pageSize ∧ (PagesTable.encode [4]).length ≠ pageSize :=
    fits_page (by decide)
  have index : idIndex.encode.length ≤ pageSize ∧ idIndex.encode.length ≠ pageSize :=
    fits_page (by rw [idIndex_length]; decide)
  obtain ⟨first, second, third, fourth⟩ := ledgers_faithful_iff .wrapping
  refine ⟨(first [⟨3, 100⟩] (by decide) ?_).mpr page.2, (second [4] (by decide) ?_).mpr pages.2,
    (third idIndex (by decide) ?_).mpr index.2, (fourth ⟨[3], one_bounded⟩ (by decide)).2.2.1⟩
  · exact commit_of_fits (PageTable.size_eq page.1) page_allocated page.1
  · exact commit_of_fits rfl page_allocated pages.1
  · exact commit_of_fits (IndexLedgerTables.size_eq idIndex) page_allocated index.1

/-- A ledger of 5461 record pages. -/
def fullLedger : List PageRecord := (List.range 5461).map fun i => ⟨i + 3, 0⟩

theorem fullLedger_length : (PageTable.encode fullLedger).length = pageSize := by
  rw [PageTable.encode_length, fullLedger, List.length_map, List.length_range, pageSize_eq]

/-- The ledger fills its page: it is committed with a size of zero. -/
theorem full_ledger_wraps :
    PageTable.codec.Committed .wrapping fullLedger ∧ PageTable.codec.size .wrapping fullLedger = .ok 0 ∧
    ¬ PageTable.codec.Faithful PageTable.encodedLen .wrapping fullLedger := by
  have zero : PageTable.size .wrapping fullLedger = .ok 0 := by
    rw [PageTable.size_eq (Nat.le_of_eq fullLedger_length), fullLedger_length, Build.wrapping_ok, pageSize_eq]
    rfl
  refine ⟨commit_of_fits zero page_allocated (Nat.le_of_eq fullLedger_length), zero, fun faithful => ?_⟩
  have length : Except.ok 0 = Except.ok (PageTable.encode fullLedger).length := zero.symm.trans faithful.size
  rw [fullLedger_length, pageSize_eq] at length
  cases length

end LedgerPage
end WasmDbms
