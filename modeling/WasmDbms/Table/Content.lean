import WasmDbms.Table.Layout

/-!
# The bytes of a table

The pages of a table hold the padded records in their slots and zeros
everywhere else, so that their content is a function of the live records.
-/
namespace WasmDbms
open Extents MemoryManager

variable {E : Type} [Encode E]

/-- The slot of a live record. -/
def slotExtent (x : RecordAddress × E) : Extent :=
  ⟨x.1.page, x.1.offset, RawRecord.footprint x.2⟩

/-- A byte of a page outside an extent. -/
def Outside (x : Extent) (page i : Nat) : Prop :=
  x.page = page → i < x.start ∨ x.start + x.size ≤ i

/-- Records in their slots, zeros elsewhere. -/
structure Content (m : MemoryManager) (pages : List Nat) (live : List (RecordAddress × E)) : Prop where
  stored : ∀ x ∈ live, m.Stores x.1.page x.1.offset (padded (RawRecord.encoded x.2))
  blank : ∀ page ∈ pages, ∀ i < pageSize, (∀ x ∈ live, Outside (slotExtent x) page i) →
    m.byteAt page i = 0

section Footprint

variable {e : E} (fits : RawRecord.footprint e ≤ msizeMax)
include fits

theorem size_lt_of_fits : 2 + Encode.size e ≤ msizeMax :=
  Nat.le_trans (alignUp_ge _ (RawRecord.encoded e).alignment_pos) fits

theorem encoded_size : (RawRecord.encoded e).size = 2 + Encode.size e :=
  Nat.min_eq_left (size_lt_of_fits fits)

theorem alignUp_encoded_size :
    alignUp (RawRecord.encoded e).alignment (RawRecord.encoded e).size = RawRecord.footprint e := by
  rw [encoded_size fits]
  rfl

theorem padded_encoded_length : (padded (RawRecord.encoded e)).length = RawRecord.footprint e := by
  have small := size_lt_of_fits fits
  have length : (RawRecord.encoded e).bytes.length = 2 + Encode.size e :=
    RawRecord.encode_length e (by omega)
  rw [padded_length, length]
  rfl

theorem physicalSize_encoded :
    FreeSegmentsLedger.physicalSize (RawRecord.encoded e) = RawRecord.footprint e := by
  rw [FreeSegmentsLedger.physicalSize, alignUp_encoded_size fits,
    Nat.mod_eq_of_lt (Nat.lt_succ_of_le fits)]

end Footprint

theorem footprint_pos (e : E) : 0 < RawRecord.footprint e := by
  have grow := alignUp_ge (rawRecordHeaderSize + Encode.size e) (RawRecord.encoded e).alignment_pos
  unfold rawRecordHeaderSize at grow
  exact Nat.lt_of_lt_of_le (by omega) grow

theorem alignUp_footprint (e : E) :
    alignUp (RawRecord.alignment E) (RawRecord.footprint e) = RawRecord.footprint e :=
  alignUp_of_dvd (RawRecord.encoded e).alignment_pos (dvd_alignUp _ _)

theorem runs_ensureRecordFits {m m' : MemoryManager} {e : E} {r : Unit} :
    m.Runs (TableRegistry.ensureRecordFits e) r m' ↔
      m = m' ∧ RawRecord.footprint e ≤ msizeMax := by
  have wide := RawRecord.two_le_alignment E
  have aligned : rawRecordFootprint (Encode.size e) (RawRecord.alignment E) =
      if RawRecord.footprint e ≤ msizeMax then .ok (RawRecord.footprint e)
      else .error (.error (.dataTooLarge pageSize (RawRecord.footprint e))) := by
    unfold rawRecordFootprint RawRecord.footprint
    dsimp only
    rw [if_neg (show ¬ RawRecord.alignment E = 0 by omega), Nat.add_comm (Encode.size e)]
  unfold TableRegistry.ensureRecordFits
  simp only [runs_bind, runs_lift, runs_pure, aligned]
  constructor
  · rintro ⟨size, _, ⟨fits, rfl⟩, -, rfl⟩
    split at fits
    · exact ⟨rfl, by assumption⟩
    · cases fits
  · rintro ⟨rfl, fits⟩
    exact ⟨_, _, ⟨if_pos fits, rfl⟩, trivial, rfl⟩

namespace Content

variable {m m' : MemoryManager} {pages : List Nat} {live rest : List (RecordAddress × E)}
  {x : RecordAddress × E}

theorem perm (content : Content m pages live) (same : live.Perm rest) : Content m pages rest :=
  ⟨fun x member => content.stored x (same.mem_iff.mpr member),
    fun page listed i inside out => content.blank page listed i inside
      (fun x member => out x (same.mem_iff.mp member))⟩

/-- Only the pages of the table matter. -/
theorem of_same (content : Content m pages live)
    (placed : ∀ x ∈ live, x.1.page ∈ pages ∧ x.1.offset + RawRecord.footprint x.2 ≤ pageSize ∧
      RawRecord.footprint x.2 ≤ msizeMax)
    (same : ∀ page ∈ pages, SamePage m m' page) : Content m' pages live := by
  constructor
  · intro x member
    obtain ⟨listed, fits, small⟩ := placed x member
    refine (content.stored x member).of_same ?_ (same _ listed)
    rwa [padded_encoded_length small]
  · intro page listed i inside out
    rw [same page listed i inside]
    exact content.blank page listed i inside out

/-- A record is written over free bytes. -/
theorem write (content : Content m pages live) (small : RawRecord.footprint x.2 ≤ msizeMax)
    (fits : x.1.offset + RawRecord.footprint x.2 ≤ pageSize)
    (ends : ∀ y ∈ live, y.1.offset + RawRecord.footprint y.2 ≤ pageSize ∧
      RawRecord.footprint y.2 ≤ msizeMax)
    (apart : ∀ y ∈ live, Apart (slotExtent x) (slotExtent y)) :
    Content (m.writeBytes x.1.page x.1.offset (padded (RawRecord.encoded x.2))) pages (x :: live) := by
  have length := padded_encoded_length small
  have inPage : x.1.offset + (padded (RawRecord.encoded x.2)).length ≤ pageSize := by rwa [length]
  constructor
  · rw [List.forall_mem_cons]
    refine ⟨stores_writeBytes, ?_⟩
    intro y member
    have old := content.stored y member
    have lengthy := padded_encoded_length (ends y member).2
    have fitsy := (ends y member).1
    rw [stores_iff] at old ⊢
    intro i inside
    rw [byteAt_writeBytes inPage _ (by omega), if_neg, old i inside]
    rintro ⟨page, low, high⟩
    have separated := apart y member
    simp only [Apart, slotExtent] at separated
    omega
  · intro page listed i inside out
    rw [List.forall_mem_cons] at out
    rw [byteAt_writeBytes inPage _ inside, if_neg]
    · exact content.blank page listed i inside out.2
    · rintro ⟨rfl, low, high⟩
      have free := out.1 rfl
      simp only [slotExtent] at free
      omega

/-- The slot of a record is zeroed. -/
theorem erase (content : Content m pages (x :: rest))
    (fits : x.1.offset + RawRecord.footprint x.2 ≤ pageSize)
    (ends : ∀ y ∈ rest, y.1.offset + RawRecord.footprint y.2 ≤ pageSize ∧
      RawRecord.footprint y.2 ≤ msizeMax)
    (apart : ∀ y ∈ rest, Apart (slotExtent x) (slotExtent y)) :
    Content (m.writeBytes x.1.page x.1.offset (zeros (RawRecord.footprint x.2))) pages rest := by
  have inPage : x.1.offset + (zeros (RawRecord.footprint x.2)).length ≤ pageSize := by
    rwa [zeros_length]
  constructor
  · intro y member
    have old := content.stored y (List.mem_cons_of_mem _ member)
    have lengthy := padded_encoded_length (ends y member).2
    have fitsy := (ends y member).1
    rw [stores_iff] at old ⊢
    intro i inside
    rw [byteAt_writeBytes inPage _ (by omega), if_neg, old i inside]
    rw [zeros_length]
    rintro ⟨page, low, high⟩
    have separated := apart y member
    simp only [Apart, slotExtent] at separated
    omega
  · intro page listed i inside out
    rw [byteAt_writeBytes inPage _ inside, zeros_length]
    split
    · simp [zeros]
    · rename_i outside
      refine content.blank page listed i inside ?_
      rw [List.forall_mem_cons]
      refine ⟨?_, out⟩
      rintro rfl
      simp only [slotExtent, true_and] at outside ⊢
      omega

/-- A zero page joins the table. -/
theorem addPage {page : Nat} (content : Content m pages live) (zero : m.ZeroPage page) :
    Content m (pages ++ [page]) live := by
  refine ⟨content.stored, ?_⟩
  intro q listed i inside out
  rcases List.mem_append.mp listed with old | new
  · exact content.blank q old i inside out
  · rw [List.mem_singleton.mp new]
    exact zero i inside

end Content

end WasmDbms
