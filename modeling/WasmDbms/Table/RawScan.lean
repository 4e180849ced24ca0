import WasmDbms.Table.RawReader

/-!
# The raw reader against the typed one

The typed reader steps by the alignment of the stored record, header included;
the raw reader by the alignment of the record type. For dynamic records these
are the same number. For records of fixed size they differ by the header, and the
raw reader meets the slots only for the sizes below.
-/
namespace WasmDbms
open ByteString MemoryManager Extents

variable {E : Type}

section Filled
variable [Encode E]

/-- The records a reader can see. -/
def filledRecords (live : List (RecordAddress × E)) : List (RecordAddress × E) :=
  live.filter fun x => decide (0 < Encode.size x.2)

theorem padded_empty {e : E} (empty : Encode.size e = 0) :
    padded (RawRecord.encoded e) = zeros (RawRecord.footprint e) := by
  have body : Encode.encode e = [] := by
    apply List.eq_nil_of_length_eq_zero
    rw [Encode.size_eq e (by rw [empty]; decide), empty]
  have header : (RawRecord.encoded e).bytes = zeros 2 := by
    change toLE 2 (Encode.size e) ++ Encode.encode e = zeros 2
    rw [empty, body]
    decide
  have grow := alignUp_ge 2 (RawRecord.encoded e).alignment_pos
  have footprint : RawRecord.footprint e = alignUp (RawRecord.encoded e).alignment 2 := by
    unfold RawRecord.footprint
    rw [empty]
    rfl
  rw [footprint, padded, header, zeros_length, zeros, zeros, zeros, List.replicate_append_replicate]
  congr 1
  omega

/-- The slot of an empty record is blank, so that the other records are scanned as if it were not there. -/
theorem TableInv.readable_filled {reg : TableRegistry} {m : MemoryManager} {other : Nat → Prop}
    {live : List (RecordAddress × E)} {tabs : List (Nat × List FreeSegment)}
    (inv : TableInv reg m other live tabs) :
    Readable m (reg.pageLedger.pages.map PageRecord.page) (filledRecords live) := by
  have kept : ∀ x ∈ filledRecords live, x ∈ live := fun x member => (List.mem_filter.mp member).1
  refine ⟨⟨fun x member => inv.content.stored x (kept x member), ?_⟩, inv.layout.nodup, ?_,
    fun x member => inv.slot_page (kept x member),
    fun x member => (inv.placed_slot (kept x member)).start_dvd,
    fun x member => inv.slot_end (kept x member), fun x member => inv.fits x (kept x member), ?_,
    (List.pairwise_map.mp (List.pairwise_append.mp inv.layout.apart).2.1).filter _⟩
  · intro page listed i inside outside
    by_cases slot : ∃ x ∈ live, ¬ Outside (slotExtent x) page i
    · obtain ⟨x, member, within⟩ := slot
      have empty : Encode.size x.2 = 0 := by
        apply Nat.eq_zero_of_not_pos
        intro filled
        exact within (outside x (List.mem_filter.mpr ⟨member, by simpa using filled⟩))
      have stored := inv.content.stored x member
      rw [padded_empty empty] at stored
      unfold Stores at stored
      rw [zeros_length] at stored
      simp only [Outside, slotExtent, not_forall, not_or, Nat.not_lt, Nat.not_le] at within
      obtain ⟨rfl, low, high⟩ := within
      have byte : (m.bytesAt x.1.page x.1.offset (RawRecord.footprint x.2)).getD (i - x.1.offset) 0 =
          m.byteAt x.1.page (x.1.offset + (i - x.1.offset)) := bytesAt_getD (by omega)
      rw [stored, show x.1.offset + (i - x.1.offset) = i by omega] at byte
      rw [← byte]
      simp [zeros]
    · refine inv.content.blank page listed i inside ?_
      intro x member
      exact Classical.not_not.mp fun within => slot ⟨x, member, within⟩
  · exact fun _ listed => (inv.supply.owned_allocated _ (.inl (data_owned listed))).1
  · intro x member
    simpa using (List.mem_filter.mp member).2

end Filled

section Strides
variable [TableRecord E]

variable (E) in
/-- The record types whose slots the raw reader meets: dynamic ones, and those of
a fixed size that is zero, that is two, or of which a page holds one only. -/
def RawAligned : Prop :=
  match Encode.dataSize E with
  | .dynamic => True
  | .fixed n => n = 0 ∨ n = 2 ∨ pageSize < 2 * (n + 2)

theorem strides_dynamic {m : MemoryManager} {pages : List Nat} {live : List (RecordAddress × E)}
    (dynamic : Encode.dataSize E = .dynamic) (readable : Readable m pages live) :
    Strides (snapshotAlignment E) live := by
  have same : snapshotAlignment E = RawRecord.alignment E := by
    simp only [snapshotAlignment, RawRecord.alignment, dynamic]
  have wide := RawRecord.two_le_alignment E
  have reach : ∀ x ∈ live, alignUp (RawRecord.alignment E) (x.1.offset + (2 + Encode.size x.2)) =
      x.1.offset + RawRecord.footprint x.2 := by
    intro x member
    obtain ⟨k, offset⟩ := readable.aligned x member
    rw [offset]
    exact alignUp_add_mul (by omega) _ _
  rw [same]
  refine ⟨by omega, fun _ _ => wide, readable.aligned, fun x member => Nat.le_of_eq (reach x member).symm, ?_⟩
  intro x memberX y memberY page before
  have apart := readable.apart_of_ne memberX memberY (fun same => by
    rw [same] at before
    exact Nat.lt_irrefl _ before)
  have filled := footprint_pos y.2
  simp only [Apart, slotExtent] at apart
  rw [reach x memberX]
  omega

theorem strides_fixed {m : MemoryManager} {pages : List Nat} {live : List (RecordAddress × E)} {n : Nat}
    (fixed : Encode.dataSize E = .fixed n) (meets : n = 0 ∨ n = 2 ∨ pageSize < 2 * (n + 2))
    (readable : Readable m pages live) : Strides (snapshotAlignment E) live := by
  have stride : snapshotAlignment E = if n = 0 then 1 else n := TableRecord.fixed_alignment n fixed
  have slot : RawRecord.alignment E = n + 2 := by
    simp only [RawRecord.alignment, fixed, rawRecordHeaderSize]
  have size : ∀ e : E, Encode.size e = n := (Encode.fixed_size n fixed).2
  have footprint : ∀ e : E, RawRecord.footprint e = n + 2 := by
    intro e
    unfold RawRecord.footprint
    rw [size, slot, show rawRecordHeaderSize + n = n + 2 from Nat.add_comm 2 n]
    exact alignUp_of_dvd (by omega) (Nat.dvd_refl _)
  by_cases empty : n = 0
  · have none_ : live = [] := by
      apply List.eq_nil_iff_forall_not_mem.mpr
      intro x member
      have filled := readable.nonEmpty x member
      rw [size] at filled
      omega
    rw [stride, if_pos empty, none_]
    exact ⟨by decide, by simp, by simp, by simp, by simp⟩
  · rw [stride, if_neg empty]
    have divides : ∀ x ∈ live, n ∣ x.1.offset := by
      intro x member
      have aligned := readable.aligned x member
      rw [slot] at aligned
      rcases meets with zero | rfl | wide
      · exact absurd zero empty
      · exact Nat.dvd_trans (by decide) aligned
      · -- a page holds one record, at its start
        have fits := readable.inPage x member
        rw [footprint] at fits
        have start : x.1.offset = 0 := by
          apply Nat.eq_zero_of_not_pos
          intro late
          have gap := Nat.le_of_dvd late aligned
          omega
        rw [start]
        exact Nat.dvd_zero _
    refine ⟨by omega, ?_, divides, ?_, ?_⟩
    · intro x _
      rw [pageSize_eq] at meets
      omega
    · intro x _
      rw [footprint, size, Nat.add_comm 2 n]
      exact alignUp_ge _ (by omega)
    · intro x memberX y memberY page before
      have apart := readable.apart_of_ne memberX memberY (fun same => by
        rw [same] at before
        exact Nat.lt_irrefl _ before)
      simp only [Apart, slotExtent, footprint] at apart
      refine alignUp_le_of_dvd (by omega) (divides y memberY) ?_
      rw [size]
      omega

theorem strides_of_rawAligned {m : MemoryManager} {pages : List Nat} {live : List (RecordAddress × E)}
    (aligned : RawAligned E) (readable : Readable m pages live) : Strides (snapshotAlignment E) live := by
  unfold RawAligned at aligned
  cases kind : Encode.dataSize E with
  | dynamic => exact strides_dynamic kind readable
  | fixed n =>
      rw [kind] at aligned
      exact strides_fixed kind aligned readable

end Strides

namespace TableState
variable [TableRecord E]

/-- The two readers return the same records at the same addresses in the same
order: the typed one the values, the raw one their encodings. -/
def RawAgrees (s : TableState E) : Prop :=
  ∃ found : List (RecordAddress × E), ∀ fuel, s.live.length < fuel →
    s.mm.Runs (TableReader.scan E fuel (.new s.reg.pageLedger))
      (found.map fun x => ⟨x.2, x.1.page, x.1.offset⟩) s.mm ∧
    s.mm.Runs (RawTableReader.scan fuel (.new s.reg.pageLedger (snapshotAlignment E)))
      (found.map fun x => ⟨x.1, Encode.encode x.2⟩) s.mm

/-- After every sequence of successful calls on an empty table of such a record
type the raw reader returns what the typed reader returns. -/
theorem raw_scan_agrees {other : Nat → Prop} {s₀ s : TableState E} (aligned : RawAligned E)
    (empty : Empty other s₀) (steps : Steps s₀ s) : s.RawAgrees := by
  obtain ⟨⟨tabs, table⟩, _⟩ := steps.inv empty.inv
  have readable := table.readable_filled
  have strides := strides_of_rawAligned aligned readable
  have short : (filledRecords s.live).length ≤ s.live.length := List.length_filter_le _ _
  have typed := fun fuel (enough : s.live.length < fuel) =>
    TableReader.scan_runs readable (TableReader.pending_new readable) (Nat.lt_of_le_of_lt short enough)
  have pending := RawTableReader.pending_new readable strides.pos
  have raw := fun fuel (enough : s.live.length < fuel) =>
    pending.scan_runs readable strides (Nat.lt_of_le_of_lt short enough)
  obtain ⟨found, _, perm, ordered⟩ := typed (s.live.length + 1) (Nat.lt_succ_self _)
  refine ⟨found, ?_⟩
  intro fuel enough
  obtain ⟨values, runs, permT, orderedT⟩ := typed fuel enough
  obtain ⟨bodies, runs', permR, orderedR⟩ := raw fuel enough
  rw [Readable.eq_of_ordered (perm.trans permT.symm) ordered orderedT]
  refine ⟨runs, ?_⟩
  rwa [Readable.eq_of_ordered (permT.trans permR.symm) orderedT orderedR]

end TableState

/-- The encoding of an unsigned integer of `w` bytes, as a record of that one column has it. -/
@[reducible] def uintRecord {α : Type} (w : Nat) (toNat : α → Nat) (ofNat : Nat → α)
    (bound : ∀ x, toNat x < 256 ^ w) (back : ∀ x, ofNat (toNat x) = x) (small : w + 2 ≤ msizeMax) :
    TableRecord α where
  dataSize := .fixed w
  alignment := if w = 0 then 1 else w
  encode x := toLE w (toNat x)
  size _ := w
  decode data :=
    if data.length < w then .error (.error (.decodeError .tooShort))
    else .ok (ofNat (ofLE (data.take w)))
  size_le _ := by omega
  size_eq _ _ := toLE_length _ _
  decode_encode x _ := by
    rw [if_neg (by rw [toLE_length]; omega), List.take_of_length_le (Nat.le_of_eq (toLE_length _ _)),
      ofLE_toLE_of_lt (bound x), back]
  fixed_size n h := by
    cases h
    exact ⟨small, fun _ => rfl⟩
  dynamic_alignment h := by cases h
  fixed_alignment n h := by
    cases h
    rfl

instance : TableRecord UInt16 :=
  uintRecord 2 UInt16.toNat UInt16.ofNat UInt16.toNat_lt (fun _ => UInt16.ofNat_toNat) (by decide)

instance : TableRecord UInt32 :=
  uintRecord 4 UInt32.toNat UInt32.ofNat UInt32.toNat_lt (fun _ => UInt32.ofNat_toNat) (by decide)

/-- What the raw reader returns it read at a multiple of its stride. -/
theorem RawTableReader.tryNextFrom_stride {m m' : MemoryManager} {fuel : Nat}
    {reader reader' : RawTableReader} {record : RawRecordBytes}
    (run : m.Runs (tryNextFrom fuel reader) (some record, reader') m') (pos : 0 < reader.alignment) :
    reader'.alignment = reader.alignment ∧ reader.alignment ∣ record.address.offset := by
  induction fuel generalizing m reader with
  | zero => exact absurd run runs_fail
  | succ fuel ih =>
      rw [tryNextFrom] at run
      split at run
      next => simp [runs_pure] at run
      next page offset _ =>
        dsimp only at run
        split at run
        next =>
          have rest := ih run pos
          exact rest
        next fits =>
          have aligned := dvd_alignUp reader.alignment offset
          rw [← alignUpUsize_eq pos] at aligned
          obtain ⟨header, m₁, _, run⟩ := runs_bind.mp run
          split at run
          next =>
            have rest := ih run pos
            exact rest
          next =>
            split at run
            next => exact absurd run runs_throw
            next =>
              obtain ⟨body, m₂, _, run⟩ := runs_bind.mp run
              obtain ⟨returned, _⟩ := runs_pure.mp run
              simp only [Prod.mk.injEq, Option.some.injEq] at returned
              obtain ⟨rfl, rfl⟩ := returned
              refine ⟨rfl, ?_⟩
              have small : alignUpUsize offset reader.alignment % (msizeMax + 1) =
                  alignUpUsize offset reader.alignment := by
                rw [pageSize_eq] at fits
                refine Nat.mod_eq_of_lt ?_
                unfold msizeMax
                unfold rawRecordHeaderSize at fits
                omega
              rw [small]
              exact aligned

theorem RawTableReader.scan_stride {m m' : MemoryManager} {fuel : Nat} {reader : RawTableReader}
    {found : List RawRecordBytes} (run : m.Runs (scan fuel reader) found m') (pos : 0 < reader.alignment) :
    ∀ record ∈ found, reader.alignment ∣ record.address.offset := by
  induction fuel generalizing m m' reader found with
  | zero => exact absurd run runs_fail
  | succ fuel ih =>
      obtain ⟨⟨next, reader'⟩, m₁, stepped, run⟩ := runs_bind.mp run
      cases next with
      | none =>
          obtain ⟨rfl, _⟩ := runs_pure.mp run
          simp
      | some record =>
          obtain ⟨stride, aligned⟩ := tryNextFrom_stride stepped pos
          obtain ⟨rest, m₂, scanned, run⟩ := runs_bind.mp run
          obtain ⟨rfl, _⟩ := runs_pure.mp run
          rw [List.forall_mem_cons]
          refine ⟨aligned, ?_⟩
          rw [← stride]
          exact ih scanned (stride ▸ pos)

namespace TableState

/-- A second insertion goes behind the first one. -/
theorem insert_second [Encode E] {m : MemoryManager} {e : E} (enlarged : m.pages = 5)
    (small : RawRecord.footprint e ≤ msizeMax) (fits : 2 * RawRecord.footprint e ≤ pageSize) :
    ∃ m', m.Runs (TableRegistry.insert ⟨⟨2, [⟨4, pageSize - RawRecord.footprint e⟩]⟩, ⟨3, []⟩⟩ e)
      (⟨4, RawRecord.footprint e⟩,
        ⟨⟨2, [⟨4, pageSize - RawRecord.footprint e - RawRecord.footprint e⟩]⟩, ⟨3, []⟩⟩) m' := by
  have back : pageSize - (pageSize - RawRecord.footprint e) = RawRecord.footprint e := by omega
  have positioned : m.Runs
      (PageLedger.getPageAndOffsetForRecord ⟨2, [⟨4, pageSize - RawRecord.footprint e⟩]⟩
        (RawRecord.encoded e))
      ((4, pageSize - (pageSize - RawRecord.footprint e)),
        ⟨2, [⟨4, pageSize - RawRecord.footprint e⟩]⟩) m := by
    unfold PageLedger.getPageAndOffsetForRecord
    dsimp only
    rw [alignUp_encoded_size small, if_neg (by omega), List.find?_cons_of_pos (by
      rw [back, decide_eq_true_eq]
      omega)]
    refine runs_pure.mpr ⟨?_, rfl⟩
    rw [back, Nat.mod_eq_of_lt (Nat.lt_succ_of_le small)]
  obtain ⟨m', _, inserted⟩ := insert_at_end small (Nat.sub_le _ _) (by omega)
    (by rw [back]; exact dvd_alignUp _ _) 3 positioned (by omega) (by omega)
  rw [back] at inserted
  exact ⟨m', inserted⟩

/-- Two records of four bytes: the second one is at offset 6, which no stride of
four meets. -/
theorem raw_scan_misses_record :
    ∃ s : TableState UInt32, Empty (fun _ => False) (sampleOf UInt32) ∧
      Steps (sampleOf UInt32) s ∧ s.live = [(⟨4, 6⟩, 7), (⟨4, 0⟩, 7)] ∧ ¬ s.RawAgrees := by
  have footprint : RawRecord.footprint (7 : UInt32) = 6 := show alignUp 6 6 = 6 by decide
  have small : RawRecord.footprint (7 : UInt32) ≤ msizeMax := by rw [footprint]; decide
  obtain ⟨m₁, enlarged, first⟩ := insert_first small
  obtain ⟨m₂, second⟩ := insert_second enlarged small (by rw [footprint, pageSize_eq]; omega)
  have steps : Steps (sampleOf UInt32) _ :=
    .tail (.single ⟨[], .insert first⟩) ⟨_, .insert second⟩
  refine ⟨_, sampleOf_empty, steps, by rw [footprint], ?_⟩
  rintro ⟨found, scans⟩
  obtain ⟨returned, typed, perm⟩ :=
    scan_perm_live sampleOf_empty steps (fun _ _ => Nat.zero_lt_succ 3) (Nat.lt_succ_self 2)
  obtain ⟨runs, raw⟩ := scans 3 (Nat.lt_succ_self 2)
  have same : found.map (fun x => (⟨x.2, x.1.page, x.1.offset⟩ : NextRecord UInt32)) = returned := by
    have equal := runs.symm.trans typed
    simpa using equal
  have second : (⟨7, 4, 6⟩ : NextRecord UInt32) ∈ returned := by
    rw [perm.mem_iff]
    simp [footprint]
  rw [← same, List.mem_map] at second
  obtain ⟨x, member, fields⟩ := second
  have met := RawTableReader.scan_stride raw (show 0 < 4 by decide) _ (List.mem_map_of_mem member)
  simp only [NextRecord.mk.injEq] at fields
  rw [fields.2.2] at met
  exact absurd met (show ¬ 4 ∣ 6 by decide)

theorem raw_scan_agrees_after_insert :
    ∃ s : TableState UInt16, RawAligned UInt16 ∧ Steps (sampleOf UInt16) s ∧ s.live = [(⟨4, 0⟩, 7)] ∧
      s.RawAgrees := by
  have footprint : RawRecord.footprint (7 : UInt16) = 4 := show alignUp 4 4 = 4 by decide
  obtain ⟨m', _, first⟩ := insert_first (show RawRecord.footprint (7 : UInt16) ≤ msizeMax by
    rw [footprint]
    decide)
  have steps : Steps (sampleOf UInt16) _ := .single ⟨[], .insert first⟩
  exact ⟨_, .inr (.inl rfl), steps, rfl, raw_scan_agrees (.inr (.inl rfl)) sampleOf_empty steps⟩

end TableState
end WasmDbms
