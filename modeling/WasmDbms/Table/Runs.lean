import WasmDbms.Table.Invariant
import Mathlib.Logic.Relation

/-!
# Runs of a table

Sequences of successful calls on one table, starting from an empty one. A
deletion or an update is given a live record with the address it was reported
at: the registry checks neither.
-/
namespace WasmDbms
open Extents MemoryManager FreeSegmentsLedger

variable {E : Type} [Encode E]

/-- A registry, the memory, and the records a client has stored. -/
structure TableState (E : Type) where
  reg : TableRegistry
  mm : MemoryManager
  live : List (RecordAddress × E)

namespace TableState

/-- A successful call; `rest` are the live records it is not about. -/
inductive Step : TableState E → List (RecordAddress × E) → TableState E → Prop where
  | insert {reg reg' m m' live} {e : E} {address} (run : m.Runs (reg.insert e) (address, reg') m') :
      Step ⟨reg, m, live⟩ live ⟨reg', m', (address, e) :: live⟩
  | delete {reg reg' m m' live rest} {e : E} {address} (isLive : live.Perm ((address, e) :: rest))
      (run : m.Runs (reg.delete e address) reg' m') : Step ⟨reg, m, live⟩ rest ⟨reg', m', rest⟩
  | update {reg reg' m m' live rest} {e e' : E} {address address'}
      (isLive : live.Perm ((address, e) :: rest))
      (run : m.Runs (reg.update e' e address) (address', reg') m') :
      Step ⟨reg, m, live⟩ rest ⟨reg', m', (address', e') :: rest⟩

/-- Any number of successful calls. -/
def Steps : TableState E → TableState E → Prop := Relation.ReflTransGen (fun s s' => ∃ rest, Step s rest s')

/-- A table without records or free segments: two ledger pages of its own in a
memory whose unclaimed-pages ledger is in order. -/
structure Empty (other : Nat → Prop) (s : TableState E) : Prop where
  no_pages : s.reg.pageLedger.pages = []
  no_tables : s.reg.freeSegmentsLedger.tables = []
  no_records : s.live = []
  ledgers : s.reg.pageLedger.ledgerPage ≠ s.reg.freeSegmentsLedger.freeSegmentsPage
  separate : ∀ q ∈ s.reg.ownedPages, ¬ other q
  supply : PageSupply s.mm (fun q => q ∈ s.reg.ownedPages ∨ other q)
  pagePersisted : s.reg.pageLedger.Persisted s.mm
  freePersisted : s.reg.freeSegmentsLedger.Persisted s.mm

/-- The invariant of a state, with the page ledger in memory. -/
def Inv (other : Nat → Prop) (s : TableState E) : Prop :=
  (∃ tabs, TableInv s.reg s.mm other s.live tabs) ∧ s.reg.pageLedger.Persisted s.mm

theorem Empty.inv {other : Nat → Prop} {s : TableState E} (empty : Empty other s) : Inv other s := by
  obtain ⟨⟨⟨ledgerPage, pages⟩, ⟨freePage, tables⟩⟩, m, live⟩ := s
  obtain ⟨rfl, rfl, rfl, ledgers, separate, supply, pagePersisted, freePersisted⟩ := empty
  refine ⟨⟨[], supply, ?_, separate, ?_, by simp [segments], by simp, ?_, ?_, freePersisted⟩, pagePersisted⟩
  · simpa [TableRegistry.ownedPages] using ledgers
  · exact ⟨rfl, by simp, by simp, by simp, by simp⟩
  · exact ⟨by simp, by simp, by simp [segments], by simp [segments]⟩
  · exact ⟨by simp, by simp⟩

theorem Step.inv {other : Nat → Prop} {s s' : TableState E} {rest : List (RecordAddress × E)}
    (step : Step s rest s') (inv : Inv other s) : Inv other s' ∧ Frame other s.mm s'.mm := by
  obtain ⟨⟨tabs, table⟩, persisted⟩ := inv
  cases step with
  | insert run =>
      obtain ⟨table', frame, persisted'⟩ := table.insert_runs run
      exact ⟨⟨table', persisted' persisted⟩, frame⟩
  | delete isLive run =>
      obtain ⟨tabs', table', frame, ledger, same⟩ := table.delete_runs isLive run
      refine ⟨⟨⟨tabs', table'⟩, ?_⟩, frame⟩
      rw [ledger]
      exact persisted.of_same same
  | update isLive run =>
      obtain ⟨table', frame, persisted'⟩ := table.update_runs isLive run
      exact ⟨⟨table', persisted' persisted⟩, frame⟩

theorem Steps.inv {other : Nat → Prop} {s s' : TableState E} (steps : Steps s s')
    (inv : Inv other s) : Inv other s' := by
  induction steps with
  | refl => exact inv
  | tail _ last ih =>
      obtain ⟨rest, step⟩ := last
      exact (step.inv ih).1

/-- The untouched records are live before and after a call. -/
theorem Step.rest_live {s s' : TableState E} {rest : List (RecordAddress × E)} (step : Step s rest s')
    {x : RecordAddress × E} (member : x ∈ rest) : x ∈ s.live ∧ x ∈ s'.live := by
  cases step with
  | insert _ => exact ⟨member, List.mem_cons_of_mem _ member⟩
  | delete isLive _ => exact ⟨isLive.mem_iff.mpr (List.mem_cons_of_mem _ member), member⟩
  | update isLive _ =>
      exact ⟨isLive.mem_iff.mpr (List.mem_cons_of_mem _ member), List.mem_cons_of_mem _ member⟩

/-- The segments the free segments ledger records, as its tables are read from memory. -/
def recordedSegments (s : TableState E) : List FreeSegment :=
  s.reg.freeSegmentsLedger.tables.flatMap fun page =>
    match FreeSegmentsTable.decode page (s.mm.bytesAt page 0 pageSize) with
    | .ok table => table.records
    | .error _ => []

/-- The bytes a free segment records. -/
def recordedExtent (s : FreeSegment) : Extent := ⟨s.page, s.offset, s.size⟩

/-- Slots are aligned, inside their pages and disjoint; free segments are
disjoint from them and from each other, below the taken mark of their page. -/
structure LayoutInvariant (s : TableState E) : Prop where
  aligned : ∀ x ∈ s.live, RawRecord.alignment E ∣ x.1.offset
  inPage : ∀ x ∈ s.live, x.1.offset + RawRecord.footprint x.2 ≤ pageSize
  slotsApart : s.live.Pairwise (fun x y => Apart (slotExtent x) (slotExtent y))
  slotsFree : ∀ x ∈ s.live, ∀ f ∈ s.recordedSegments, Apart (slotExtent x) (recordedExtent f)
  freeApart : s.recordedSegments.Pairwise (fun f g => Apart (recordedExtent f) (recordedExtent g))
  freeTaken : ∀ f ∈ s.recordedSegments, ∃ r ∈ s.reg.pageLedger.pages, r.page = f.page ∧
    f.offset + f.size ≤ pageSize - r.free

omit [Encode E] in
theorem recordedSegments_eq {s : TableState E} {tabs : List (Nat × List FreeSegment)}
    (held : FreeSegmentsLedger.Holds s.mm s.reg.freeSegmentsLedger.tables tabs) : s.recordedSegments = segments tabs := by
  unfold recordedSegments segments
  rw [held.pages, List.flatMap_map]
  apply List.flatMap_congr
  intro tab member
  rw [FreeSegmentsTable.decode_stored (held.stored tab member) (held.bounded tab member)
    (held.typed tab member)]

theorem Inv.layoutInvariant {other : Nat → Prop} {s : TableState E} (inv : Inv other s) :
    LayoutInvariant s := by
  obtain ⟨⟨tabs, table⟩, _⟩ := inv
  have recorded := recordedSegments_eq table.held
  have within : ∀ f ∈ segments tabs, f.size ≤ alignUp (RawRecord.alignment E) f.size := by
    intro f _
    have wide := RawRecord.two_le_alignment E
    exact alignUp_ge _ (by omega)
  have shrink : ∀ f ∈ segments tabs, ∀ x : Extent,
      Apart (freeExtent (RawRecord.alignment E) f) x → Apart (recordedExtent f) x := by
    intro f member x apart
    exact apart.of_within rfl (Nat.le_refl _) (Nat.add_le_add_left (within f member) _)
  obtain ⟨freeApart, slotsApart, both⟩ := List.pairwise_append.mp table.layout.apart
  rw [List.pairwise_map] at freeApart slotsApart
  refine ⟨fun x h => (table.placed_slot h).start_dvd, fun x h => table.slot_end h, slotsApart, ?_, ?_, ?_⟩
  · intro x live f free
    rw [recorded] at free
    exact (shrink f free _ (both _ (List.mem_map_of_mem free) _ (List.mem_map_of_mem live))).symm
  · rw [recorded]
    refine freeApart.imp_of_mem ?_
    intro f g inF inG apart
    exact (shrink g inG _ (shrink f inF _ apart).symm).symm
  · intro f free
    rw [recorded] at free
    have placed := table.layout.placed _ (List.mem_append_left _ (List.mem_map_of_mem free))
    obtain ⟨r, listed, page, below⟩ := placed.below
    exact ⟨r, listed, page, Nat.le_trans (Nat.add_le_add_left (within f free) _) below⟩

/-- A live record stands in its slot. -/
theorem Inv.slot_bytes {other : Nat → Prop} {s : TableState E} (inv : Inv other s)
    {x : RecordAddress × E} (member : x ∈ s.live) :
    s.mm.bytesAt x.1.page x.1.offset (RawRecord.footprint x.2) = padded (RawRecord.encoded x.2) := by
  obtain ⟨⟨tabs, table⟩, _⟩ := inv
  have stored := table.content.stored x member
  unfold Stores at stored
  rwa [padded_encoded_length (table.fits x member)] at stored

/-- A memory of four zero pages. -/
def sampleMemory : MemoryManager := ⟨4, 8, fun _ => 0, by decide, eight_capacity⟩

variable (E) in
/-- An empty table whose ledgers are on the last two of four zero pages. -/
def sampleOf : TableState E := ⟨⟨⟨2, []⟩, ⟨3, []⟩⟩, sampleMemory, []⟩

omit [Encode E] in
theorem sampleOf_empty : Empty (fun _ => False) (sampleOf E) := by
  have zero : ∀ page n, n ≤ 4 → sampleMemory.Stores page 0 (zeros n) := fun page n small =>
    stores_zeros (fun _ _ => rfl) (by rw [pageSize_eq]; omega)
  refine ⟨rfl, rfl, rfl, show 2 ≠ 3 by decide, fun _ _ h => h, ⟨show UnclaimedPages.reservedPage < 4 by decide, ?_, ⟨[], Nat.zero_le _⟩, ?_, by simp, by simp⟩, ?_, ?_⟩
  · intro page owned
    have cases : page = 2 ∨ page = 3 := by
      simpa [TableRegistry.ownedPages, sampleOf] using owned
    rcases cases with rfl | rfl
    · exact show 2 < 4 ∧ 2 ≠ UnclaimedPages.reservedPage by decide
    · exact show 3 < 4 ∧ 3 ≠ UnclaimedPages.reservedPage by decide
  · have bytes : UnclaimedPages.encode ⟨[], Nat.zero_le _⟩ = zeros 4 := by decide
    rw [bytes]
    exact zero _ 4 (by omega)
  · have bytes : PageTable.encode [] = zeros 4 := by decide
    refine ⟨show 4 + 12 * 0 ≤ msizeMax by decide, ?_⟩
    exact bytes ▸ zero 2 4 (by omega)
  · have bytes : PagesTable.encode [] = zeros 2 := by decide
    refine ⟨?_, ?_⟩
    · change (PagesTable.encode []).length ≤ pageSize
      rw [bytes, zeros_length, pageSize_eq]
      omega
    · exact bytes ▸ zero 3 2 (by omega)

/-- A memory of four zero pages; the ledgers of an empty table are on the last two. -/
def sample : TableState UInt8 :=
  ⟨⟨⟨2, []⟩, ⟨3, []⟩⟩, ⟨4, 8, fun _ => 0, by decide, by decide⟩, []⟩

theorem sample_empty : Empty (fun _ => False) sample := sampleOf_empty

/-- An insertion behind the records of a single page, in a table without free segments. -/
theorem insert_at_end {m claimed : MemoryManager} {e : E} {ledgerPage page free : Nat}
    {pages : List PageRecord} (small : RawRecord.footprint e ≤ msizeMax) (room : free ≤ pageSize)
    (fits : RawRecord.footprint e ≤ free) (aligned : RawRecord.alignment E ∣ pageSize - free)
    (freePage : Nat)
    (positioned : m.Runs (PageLedger.getPageAndOffsetForRecord ⟨ledgerPage, pages⟩ (RawRecord.encoded e))
      ((page, pageSize - free), ⟨ledgerPage, [⟨page, free⟩]⟩) claimed)
    (alloc : page < claimed.pages) (ledgerAlloc : ledgerPage < claimed.pages) :
    ∃ m', m'.pages = claimed.pages ∧
      m.Runs (TableRegistry.insert ⟨⟨ledgerPage, pages⟩, ⟨freePage, []⟩⟩ e)
        (⟨page, pageSize - free⟩,
          ⟨⟨ledgerPage, [⟨page, free - RawRecord.footprint e⟩]⟩, ⟨freePage, []⟩⟩) m' := by
  have wide := RawRecord.two_le_alignment E
  have filled := footprint_pos e
  have length := padded_encoded_length small
  have size := encoded_size small
  have required := alignUp_encoded_size small
  have grow := alignUp_ge (RawRecord.encoded e).size (RawRecord.encoded e).alignment_pos
  rw [required] at grow
  have found : m.Runs (TableRegistry.getWritePosition ⟨⟨ledgerPage, pages⟩, ⟨freePage, []⟩⟩
      (RawRecord.encoded e))
      (.atEnd page (pageSize - free), ⟨⟨ledgerPage, [⟨page, free⟩]⟩, ⟨freePage, []⟩⟩) claimed := by
    refine runs_bind.mpr ⟨none, m, runs_pure.mpr ⟨rfl, rfl⟩, ?_⟩
    exact runs_bind.mpr ⟨_, _, positioned, runs_pure.mpr ⟨rfl, rfl⟩⟩
  have start : alignUp (RawRecord.alignment E) (pageSize - free) % (msizeMax + 1) = pageSize - free := by
    rw [alignUp_of_dvd (by omega) aligned]
    refine Nat.mod_eq_of_lt ?_
    rw [pageSize_eq] at room ⊢
    unfold msizeMax
    omega
  have written : claimed.Runs (MemoryAccess.writeAt page (pageSize - free) (RawRecord.encoded e)) ()
      (claimed.writeBytes page (pageSize - free) (padded (RawRecord.encoded e))) :=
    runs_writeAt.mpr ⟨alloc, aligned, by rw [length]; omega, rfl⟩
  have short : 4 + 12 * [(⟨page, free - RawRecord.footprint e⟩ : PageRecord)].length ≤ msizeMax := by
    simp [msizeMax]
  have table : 0 + (padded (PageTable.encoded [⟨page, free - RawRecord.footprint e⟩] short)).length ≤
      pageSize := by
    rw [padded_length]
    change 0 + alignUp 32 16 ≤ pageSize
    rw [pageSize_eq]
    decide
  have tableWritten := (runs_writeAt (r := ())).mpr ⟨show ledgerPage < (claimed.writeBytes page
    (pageSize - free) (padded (RawRecord.encoded e))).pages from ledgerAlloc, Nat.dvd_zero _, table, rfl⟩
  obtain ⟨final, same, committed⟩ : ∃ final, final.pages = claimed.pages ∧
      (claimed.writeBytes page (pageSize - free) (padded (RawRecord.encoded e))).Runs
        (PageLedger.commit ⟨ledgerPage, [⟨page, free⟩]⟩ page (RawRecord.encoded e))
        ⟨ledgerPage, [⟨page, free - RawRecord.footprint e⟩]⟩ final := by
    have whole : (RawRecord.encoded e).size + (RawRecord.footprint e - (RawRecord.encoded e).size) =
        RawRecord.footprint e := by omega
    unfold PageLedger.commit
    simp only [List.find?_cons_of_pos, decide_true, required, whole, PageLedger.reserve, if_true,
      PageLedger.write, dif_pos short]
    rw [if_neg (by omega)]
    refine ⟨_, ?_, runs_bind.mpr ⟨(), _, tableWritten, runs_pure.mpr ⟨rfl, rfl⟩⟩⟩
    rfl
  refine ⟨final, same, runs_bind.mpr ⟨(), _, runs_ensureRecordFits.mpr ⟨rfl, small⟩,
    runs_bind.mpr ⟨_, _, found, ?_⟩⟩⟩
  simp only [WriteAt.page, WriteAt.offset, start]
  refine runs_bind.mpr ⟨(), _, written, ?_⟩
  refine runs_bind.mpr ⟨_, _, runs_bind.mpr ⟨_, _, committed, runs_pure.mpr ⟨rfl, rfl⟩⟩, ?_⟩
  exact runs_pure.mpr ⟨rfl, rfl⟩

/-- The first insertion claims page 4 and writes at its start. -/
theorem insert_first {e : E} (small : RawRecord.footprint e ≤ msizeMax) :
    ∃ m', m'.pages = 5 ∧ sampleMemory.Runs (TableRegistry.insert ⟨⟨2, []⟩, ⟨3, []⟩⟩ e)
      (⟨4, 0⟩, ⟨⟨2, [⟨4, pageSize - RawRecord.footprint e⟩]⟩, ⟨3, []⟩⟩) m' := by
  have fits : RawRecord.footprint e ≤ pageSize := by
    rw [pageSize_eq]
    unfold msizeMax at small
    omega
  have room : sampleMemory.pages + 1 ≤ sampleMemory.capacity := by decide
  have claimed : sampleMemory.Runs MemoryAccess.claimPage 4 (sampleMemory.enlarged room) := by
    refine PageSupply.claimPage_grows (by decide) room ?_
    have bytes : UnclaimedPages.encode ⟨[], Nat.zero_le _⟩ = zeros 4 := by decide
    rw [bytes]
    exact stores_zeros (fun _ _ => rfl) (by rw [pageSize_eq]; omega)
  have positioned : sampleMemory.Runs
      (PageLedger.getPageAndOffsetForRecord ⟨2, []⟩ (RawRecord.encoded e))
      ((4, pageSize - pageSize), ⟨2, [⟨4, pageSize⟩]⟩) (sampleMemory.enlarged room) := by
    unfold PageLedger.getPageAndOffsetForRecord
    dsimp only
    rw [alignUp_encoded_size small, if_neg (by omega), Nat.sub_self]
    exact runs_bind.mpr ⟨4, _, claimed, runs_pure.mpr ⟨rfl, rfl⟩⟩
  have inserted := insert_at_end small (Nat.le_refl _) fits
    (by rw [Nat.sub_self]; exact Nat.dvd_zero _) 3 positioned (show 4 < 5 by omega) (show 2 < 5 by omega)
  rwa [Nat.sub_self] at inserted

theorem sample_insert (b : UInt8) : ∃ s', Step sample [] s' ∧ s'.live = [(⟨4, 0⟩, b)] := by
  have footprint : RawRecord.footprint b = 3 := show alignUp 3 3 = 3 by decide
  obtain ⟨m', _, inserted⟩ := insert_first (show RawRecord.footprint b ≤ msizeMax by rw [footprint]; decide)
  exact ⟨_, .insert inserted, rfl⟩

/-- After every sequence of successful calls on an empty table the layout
invariant holds, and the next call leaves the bytes of every other live record
unchanged. -/
theorem layout_invariant_along_runs {other : Nat → Prop} {s₀ s : TableState E}
    (empty : Empty other s₀) (steps : Steps s₀ s) :
    LayoutInvariant s ∧ ∀ rest s', Step s rest s' → ∀ x ∈ rest,
      s'.mm.bytesAt x.1.page x.1.offset (RawRecord.footprint x.2) =
        s.mm.bytesAt x.1.page x.1.offset (RawRecord.footprint x.2) := by
  have inv := steps.inv empty.inv
  refine ⟨inv.layoutInvariant, ?_⟩
  intro rest s' step x member
  obtain ⟨before, after⟩ := step.rest_live member
  rw [(step.inv inv).1.slot_bytes after, inv.slot_bytes before]

theorem layout_invariant_after_sample_insert :
    ∃ s, Steps sample s ∧ s.live = [(⟨4, 0⟩, 7)] ∧ LayoutInvariant s := by
  obtain ⟨s, step, live⟩ := sample_insert 7
  have steps : Steps sample s := .single ⟨[], step⟩
  exact ⟨s, steps, live, (layout_invariant_along_runs sample_empty steps).1⟩

end TableState

end WasmDbms
