import WasmDbms.Table.Reader

/-!
# What a scan of a table returns

A scan is right because every byte it can land on outside a slot is zero and
every slot starts on a stride. The reader is followed by the records it has
still to return.
-/
namespace WasmDbms
open ByteString MemoryManager Extents

variable {E : Type} [Encode E]

/-- Pages that can be scanned: live records with non-empty encodings in
disjoint aligned slots, and zeros elsewhere. -/
structure Readable (m : MemoryManager) (pages : List Nat) (live : List (RecordAddress × E)) : Prop where
  content : Content m pages live
  nodup : pages.Nodup
  allocated : ∀ page ∈ pages, page < m.pages
  listed : ∀ x ∈ live, x.1.page ∈ pages
  aligned : ∀ x ∈ live, RawRecord.alignment E ∣ x.1.offset
  inPage : ∀ x ∈ live, x.1.offset + RawRecord.footprint x.2 ≤ pageSize
  small : ∀ x ∈ live, RawRecord.footprint x.2 ≤ msizeMax
  nonEmpty : ∀ x ∈ live, 0 < Encode.size x.2
  apart : live.Pairwise (fun x y => Apart (slotExtent x) (slotExtent y))

theorem TableInv.readable {reg : TableRegistry} {m : MemoryManager} {other : Nat → Prop}
    {live : List (RecordAddress × E)} {tabs : List (Nat × List FreeSegment)}
    (inv : TableInv reg m other live tabs) (nonEmpty : ∀ x ∈ live, 0 < Encode.size x.2) :
    Readable m (reg.pageLedger.pages.map PageRecord.page) live where
  content := inv.content
  nodup := inv.layout.nodup
  allocated := fun _ listed => (inv.supply.owned_allocated _ (.inl (data_owned listed))).1
  listed := fun _ member => inv.slot_page member
  aligned := fun _ member => (inv.placed_slot member).start_dvd
  inPage := fun _ member => inv.slot_end member
  small := inv.fits
  nonEmpty := nonEmpty
  apart := List.pairwise_map.mp (List.pairwise_append.mp inv.layout.apart).2.1

namespace Readable

variable {m : MemoryManager} {pages : List Nat} {live : List (RecordAddress × E)}

theorem live_nodup (readable : Readable m pages live) : live.Nodup := by
  refine readable.apart.imp_of_mem ?_
  rintro x y member _ apart rfl
  have filled := footprint_pos x.2
  simp only [Apart, slotExtent] at apart
  omega

theorem apart_of_ne (readable : Readable m pages live) {x y : RecordAddress × E} (hx : x ∈ live)
    (hy : y ∈ live) (ne : x ≠ y) : Apart (slotExtent x) (slotExtent y) := by
  have symmetric : Std.Symm fun x y : RecordAddress × E => Apart (slotExtent x) (slotExtent y) :=
    ⟨fun _ _ apart => apart.symm⟩
  exact readable.apart.forall hx hy ne

/-- The order of a scan: the pages as they are listed, then the offsets. -/
def Precedes (pages : List Nat) (x y : RecordAddress × E) : Prop :=
  pages.idxOf x.1.page < pages.idxOf y.1.page ∨ (x.1.page = y.1.page ∧ x.1.offset < y.1.offset)

/-- The length header of a live record. -/
theorem header (readable : Readable m pages live) {x : RecordAddress × E} (member : x ∈ live) :
    m.bytesAt x.1.page x.1.offset 2 = toLE 2 (Encode.size x.2) := by
  have stored := readable.content.stored x member
  have prefixed : padded (RawRecord.encoded x.2) = toLE 2 (Encode.size x.2) ++
      (Encode.encode x.2 ++ zeros (alignUp (RawRecord.encoded x.2).alignment
        (RawRecord.encoded x.2).bytes.length - (RawRecord.encoded x.2).bytes.length)) := by
    rw [← List.append_assoc]
    rfl
  rw [prefixed] at stored
  have front := stored.left
  unfold Stores at front
  rwa [toLE_length] at front

/-- The bytes of a live record. -/
theorem record (readable : Readable m pages live) {x : RecordAddress × E} (member : x ∈ live) :
    m.Stores x.1.page x.1.offset (RawRecord.encode (RawRecord.new x.2)) :=
  (readable.content.stored x member).left

theorem length_at (readable : Readable m pages live) {x : RecordAddress × E} (member : x ∈ live) :
    ofLE [m.byteAt x.1.page x.1.offset, m.byteAt x.1.page (x.1.offset + 1)] = Encode.size x.2 := by
  have bytes : m.bytesAt x.1.page x.1.offset 2 =
      [m.byteAt x.1.page x.1.offset, m.byteAt x.1.page (x.1.offset + 1)] := rfl
  have bound := size_lt_of_fits (readable.small x member)
  rw [← bytes, readable.header member]
  refine ofLE_toLE_of_lt ?_
  unfold msizeMax at bound
  omega

/-- A slot that ends after a position starts at it or a stride later. -/
theorem slot_after (readable : Readable m pages live) {x : RecordAddress × E} (member : x ∈ live)
    {offset : Nat} (aligned : RawRecord.alignment E ∣ offset) (late : offset < x.1.offset) :
    offset + RawRecord.alignment E ≤ x.1.offset := by
  have gap := Nat.dvd_sub (readable.aligned x member) aligned
  have stride := Nat.le_of_dvd (by omega) gap
  omega

/-- From an aligned offset that lies in no slot the loop finds the next slot of the page. -/
theorem findSlot_spec (readable : Readable m pages live) {page : Nat} (listed : page ∈ pages)
    {fuel offset : Nat} (aligned : RawRecord.alignment E ∣ offset)
    (clear : ∀ x ∈ live, x.1.page = page →
      x.1.offset + RawRecord.footprint x.2 ≤ offset ∨ offset ≤ x.1.offset)
    (enough : pageSize < offset + fuel) (pos : 0 < fuel) :
    (TableReader.findSlot (RawRecord.alignment E) (m.bytesAt page 0 pageSize) fuel offset = .ok none ∧
      ∀ x ∈ live, x.1.page = page → x.1.offset < offset) ∨
    ∃ x ∈ live, x.1.page = page ∧ offset ≤ x.1.offset ∧
      TableReader.findSlot (RawRecord.alignment E) (m.bytesAt page 0 pageSize) fuel offset =
        .ok (some (x.1.offset, Encode.size x.2 + 2)) ∧
      ∀ y ∈ live, y.1.page = page → offset ≤ y.1.offset → x.1.offset ≤ y.1.offset := by
  induction fuel generalizing offset with
  | zero => omega
  | succ fuel ih =>
      unfold TableReader.findSlot
      rw [bytesAt_length]
      by_cases ended : pageSize ≤ offset + 1
      · rw [if_pos ended]
        refine .inl ⟨rfl, ?_⟩
        intro x member here
        have fits := readable.inPage x member
        have header := alignUp_ge (rawRecordHeaderSize + Encode.size x.2)
          (RawRecord.encoded x.2).alignment_pos
        have large : 2 ≤ RawRecord.footprint x.2 := Nat.le_trans (Nat.le_add_right 2 _) header
        omega
      · rw [if_neg ended, bytesAt_getD (by omega), bytesAt_getD (by omega), Nat.zero_add, Nat.zero_add]
        dsimp only
        by_cases start : ∃ x ∈ live, x.1.page = page ∧ x.1.offset = offset
        · obtain ⟨x, member, rfl, rfl⟩ := start
          have size := readable.nonEmpty x member
          have bound := size_lt_of_fits (readable.small x member)
          have fits := readable.inPage x member
          have header : 2 + Encode.size x.2 ≤ RawRecord.footprint x.2 :=
            alignUp_ge _ (RawRecord.encoded x.2).alignment_pos
          refine .inr ⟨x, member, rfl, Nat.le_refl _, ?_, fun y _ _ later => later⟩
          rw [readable.length_at member, if_neg (by omega),
            if_neg (by unfold rawRecordHeaderSize; omega),
            if_neg (by unfold rawRecordHeaderSize; omega), Nat.mod_eq_of_lt]
          · rfl
          · rw [pageSize_eq] at ended
            unfold msizeMax
            omega
        · have late : ∀ x ∈ live, x.1.page = page → offset ≤ x.1.offset →
              offset + RawRecord.alignment E ≤ x.1.offset := by
            intro x member here after
            refine readable.slot_after member aligned ?_
            exact Nat.lt_of_le_of_ne after (fun same => start ⟨x, member, here, same.symm⟩)
          have wide := RawRecord.two_le_alignment E
          have zero : ∀ i, offset ≤ i → i < offset + RawRecord.alignment E → i < pageSize →
              m.byteAt page i = 0 := by
            intro i low high inside
            refine readable.content.blank page listed i inside ?_
            intro x member here
            rcases clear x member here with before | after
            · exact .inr (Nat.le_trans before low)
            · exact .inl (Nat.lt_of_lt_of_le high (late x member here after))
          rw [zero offset (Nat.le_refl _) (by omega) (by omega),
            zero (offset + 1) (by omega) (by omega) (by omega), if_pos (by decide)]
          have next : ∀ x ∈ live, x.1.page = page →
              x.1.offset + RawRecord.footprint x.2 ≤ offset + RawRecord.alignment E ∨
                offset + RawRecord.alignment E ≤ x.1.offset := by
            intro x member here
            rcases clear x member here with before | after
            · exact .inl (by omega)
            · exact .inr (late x member here after)
          rcases ih (Nat.dvd_add aligned (Nat.dvd_refl _)) next (by omega) (by omega) with
            ⟨none_found, gone⟩ | ⟨x, member, here, after, found, first⟩
          · refine .inl ⟨none_found, ?_⟩
            intro x member here
            apply Nat.lt_of_not_le
            intro after
            have passed := gone x member here
            have stride := late x member here after
            omega
          · refine .inr ⟨x, member, here, by omega, found, ?_⟩
            intro y memberY hereY afterY
            exact first y memberY hereY (late y memberY hereY afterY)

/-- The records a reader has still to return: those of the current page from an
offset on, and those of the pages after it. -/
def remaining (live : List (RecordAddress × E)) (page offset : Nat) (rest : List Nat) :
    List (RecordAddress × E) :=
  live.filter fun x => decide ((x.1.page = page ∧ offset ≤ x.1.offset) ∨ x.1.page ∈ rest)

omit [Encode E] in
theorem mem_remaining {page offset : Nat} {rest : List Nat} {x : RecordAddress × E} :
    x ∈ remaining live page offset rest ↔
      x ∈ live ∧ ((x.1.page = page ∧ offset ≤ x.1.offset) ∨ x.1.page ∈ rest) := by
  simp [remaining]

theorem remaining_nodup (readable : Readable m pages live) (page offset : Nat) (rest : List Nat) :
    (remaining live page offset rest).Nodup := readable.live_nodup.filter _

omit [Encode E] in
/-- Nothing is left of a page: the reader is at the start of the next one. -/
theorem remaining_next {page offset next : Nat} {rest : List Nat}
    (gone : ∀ x ∈ live, x.1.page = page → x.1.offset < offset) :
    remaining live page offset (next :: rest) = remaining live next 0 rest := by
  apply List.filter_congr
  intro x member
  have passed := gone x member
  simp only [List.mem_cons, Nat.zero_le, and_true, decide_eq_decide]
  constructor
  · rintro (⟨here, late⟩ | later)
    · exact absurd (passed here) (Nat.not_lt.mpr late)
    · exact later
  · exact .inr

omit [Encode E] in
theorem remaining_last {page offset : Nat}
    (gone : ∀ x ∈ live, x.1.page = page → x.1.offset < offset) :
    remaining live page offset [] = [] := by
  apply List.filter_eq_nil_iff.mpr
  intro x member
  have passed := gone x member
  simp only [List.not_mem_nil, or_false, decide_eq_true_eq, not_and, Nat.not_le]
  exact passed

/-- The next slot of a page is returned and its bytes are passed. -/
theorem remaining_found (readable : Readable m pages live) {page offset : Nat} {rest : List Nat}
    {x : RecordAddress × E} (member : x ∈ live) (here : x.1.page = page) (after : offset ≤ x.1.offset)
    (first : ∀ y ∈ live, y.1.page = page → offset ≤ y.1.offset → x.1.offset ≤ y.1.offset)
    (apart : page ∉ rest) :
    (remaining live page offset rest).Perm
      (x :: remaining live page (x.1.offset + RawRecord.footprint x.2) rest) := by
  have filled := footprint_pos x.2
  have fresh : x ∉ remaining live page (x.1.offset + RawRecord.footprint x.2) rest := by
    rw [mem_remaining]
    rintro ⟨_, ⟨_, late⟩ | later⟩
    · omega
    · exact apart (here ▸ later)
  rw [List.perm_ext_iff_of_nodup (readable.remaining_nodup _ _ _)
    (List.nodup_cons.mpr ⟨fresh, readable.remaining_nodup _ _ _⟩)]
  intro y
  rw [List.mem_cons, mem_remaining, mem_remaining]
  constructor
  · rintro ⟨memberY, ⟨hereY, afterY⟩ | later⟩
    · by_cases same : y = x
      · exact .inl same
      · have low := first y memberY hereY afterY
        have separated := readable.apart_of_ne memberY member same
        have filledY := footprint_pos y.2
        simp only [Apart, slotExtent] at separated
        refine .inr ⟨memberY, .inl ⟨hereY, ?_⟩⟩
        omega
    · exact .inr ⟨memberY, .inr later⟩
  · rintro (rfl | ⟨memberY, ⟨hereY, late⟩ | later⟩)
    · exact ⟨member, .inl ⟨here, after⟩⟩
    · exact ⟨memberY, .inl ⟨hereY, by omega⟩⟩
    · exact ⟨memberY, .inr later⟩

/-- What remains after a record is behind it. -/
theorem precedes_remaining (readable : Readable m pages live) {before rest : List Nat}
    {x y : RecordAddress × E} (order : pages = before ++ x.1.page :: rest)
    (later : y ∈ remaining live x.1.page (x.1.offset + RawRecord.footprint x.2) rest) :
    Precedes pages x y := by
  have filled := footprint_pos x.2
  rcases (mem_remaining.mp later).2 with ⟨here, behind⟩ | after
  · exact .inr ⟨here.symm, by omega⟩
  · left
    have nodup := readable.nodup
    rw [order, List.nodup_append] at nodup
    obtain ⟨_, tail, apart⟩ := nodup
    have other : x.1.page ≠ y.1.page := fun same => (List.nodup_cons.mp tail).1 (same ▸ after)
    have first : x.1.page ∉ before := fun member => apart _ member _ List.mem_cons_self rfl
    have second : y.1.page ∉ before := fun member =>
      apart _ member _ (List.mem_cons_of_mem _ after) rfl
    rw [order, List.idxOf_append_of_notMem first, List.idxOf_append_of_notMem second,
      List.idxOf_cons_self, List.idxOf_cons_ne _ other]
    omega

omit [Encode E] in
/-- Records in scan order are determined by what they are. -/
theorem eq_of_ordered {found other : List (RecordAddress × E)} (perm : found.Perm other)
    (ordered : found.Pairwise (Precedes pages)) (ordered' : other.Pairwise (Precedes pages)) :
    found = other := by
  refine perm.eq_of_pairwise ?_ ordered ordered'
  rintro x y _ _ (before | ⟨same, before⟩) (after | ⟨same', after⟩)
  · omega
  · rw [same'] at before
    exact absurd before (Nat.lt_irrefl _)
  · rw [same] at after
    exact absurd after (Nat.lt_irrefl _)
  · omega

end Readable

theorem PageLedger.nextPageAfter_eq {ledger : PageLedger} {before rest : List Nat} {page : Nat}
    (order : ledger.pages.map PageRecord.page = before ++ page :: rest)
    (nodup : (ledger.pages.map PageRecord.page).Nodup) : ledger.nextPageAfter page = rest.head? := by
  obtain ⟨front, tail, split, rfl, mapped⟩ := List.map_eq_append_iff.mp order
  obtain ⟨r, back, rfl, rfl, rfl⟩ := List.map_eq_cons_iff.mp mapped
  have first : ∀ x ∈ front, x.page ≠ r.page := by
    intro x member same
    rw [split, List.map_append, List.nodup_append] at nodup
    exact nodup.2.2 x.page (List.mem_map_of_mem member) r.page (by simp) same
  have index : ledger.pages.findIdx? (fun x => decide (x.page = r.page)) = some front.length := by
    rw [split, List.findIdx?_append]
    have absent : front.findIdx? (fun x => decide (x.page = r.page)) = none := by
      rw [List.findIdx?_eq_none_iff]
      intro x member
      simpa using first x member
    rw [absent]
    simp [List.findIdx?_cons]
  have second : (front ++ r :: back)[front.length + 1]? = back.head? := by
    rw [List.getElem?_append_right (Nat.le_succ _)]
    cases back <;> simp
  unfold nextPageAfter
  rw [index, split]
  simp only [second, List.head?_map]

namespace TableReader

/-- The reader stands in a page of the ledger and will go on at an aligned
offset that lies in no slot. -/
structure Standing (m : MemoryManager) (live : List (RecordAddress × E)) (reader : TableReader)
    (position : Position) (before rest : List Nat) (offset : Nat) : Prop where
  order : reader.pageLedger.pages.map PageRecord.page = before ++ position.page :: rest
  buffered : reader.buffer.length = pageSize
  loaded : position.offset ≠ 0 → reader.buffer = m.bytesAt position.page 0 pageSize
  aligned : alignUp (RawRecord.alignment E) position.offset = offset
  clear : ∀ x ∈ live, x.1.page = position.page →
    x.1.offset + RawRecord.footprint x.2 ≤ offset ∨ offset ≤ x.1.offset

/-- The reader will return exactly these records. -/
def Pending (m : MemoryManager) (live : List (RecordAddress × E)) (reader : TableReader)
    (todo : List (RecordAddress × E)) : Prop :=
  match reader.position with
  | none => todo = []
  | some position => ∃ before rest offset, Standing m live reader position before rest offset ∧
      todo.Perm (Readable.remaining live position.page offset rest)

theorem refill_runs {m : MemoryManager} {live : List (RecordAddress × E)} {reader : TableReader}
    {position : Position} {before rest : List Nat} {offset : Nat}
    (standing : Standing m live reader position before rest offset)
    (alloc : position.page < m.pages) :
    m.Runs (reader.refill position.page position.offset)
      { reader with buffer := m.bytesAt position.page 0 pageSize } m := by
  unfold refill
  by_cases start : position.offset = 0
  · rw [if_pos start]
    refine runs_bind.mpr ⟨_, m, (runs_readAtRaw (Nat.zero_le _)).mpr ⟨alloc, rfl, rfl⟩, ?_⟩
    have whole : min (pageSize - 0) reader.buffer.length = pageSize := by
      rw [standing.buffered, Nat.sub_zero, Nat.min_self]
    refine runs_pure.mpr ⟨?_, rfl⟩
    rw [whole, bytesAt_length, List.drop_eq_nil_of_le (Nat.le_of_eq standing.buffered), List.append_nil]
  · rw [if_neg start]
    refine runs_pure.mpr ⟨?_, rfl⟩
    rw [← standing.loaded start]

/-- The search of one page: it finds the next slot, or the page is passed. -/
theorem findNextRecordPosition_spec {m : MemoryManager} {live : List (RecordAddress × E)}
    {reader : TableReader} {position : Position} {before rest : List Nat} {offset : Nat}
    (readable : Readable m (reader.pageLedger.pages.map PageRecord.page) live)
    (standing : Standing m live reader position before rest offset) :
    (findNextRecordPosition (RawRecord.alignment E) (m.bytesAt position.page 0 pageSize)
        position.offset = .ok none ∧
      ∀ x ∈ live, x.1.page = position.page → x.1.offset < offset) ∨
    ∃ x ∈ live, x.1.page = position.page ∧ offset ≤ x.1.offset ∧
      findNextRecordPosition (RawRecord.alignment E) (m.bytesAt position.page 0 pageSize)
        position.offset = .ok (some (x.1.offset, Encode.size x.2 + 2)) ∧
      ∀ y ∈ live, y.1.page = position.page → offset ≤ y.1.offset → x.1.offset ≤ y.1.offset := by
  have listed : position.page ∈ reader.pageLedger.pages.map PageRecord.page := by
    rw [standing.order]
    simp
  unfold findNextRecordPosition
  rw [bytesAt_length, standing.aligned]
  refine readable.findSlot_spec listed ?_ standing.clear (by omega) (by omega)
  rw [← standing.aligned]
  exact dvd_alignUp _ _

/-- The loop over the pages ends with the next slot in ledger order, or finds none left. -/
theorem findNextRecord_runs {m : MemoryManager} {live : List (RecordAddress × E)}
    {reader : TableReader} {position : Position} {before rest : List Nat} {offset fuel : Nat}
    (readable : Readable m (reader.pageLedger.pages.map PageRecord.page) live)
    (standing : Standing m live reader position before rest offset) (enough : rest.length < fuel) :
    (∃ buffer, m.Runs (findNextRecord (RawRecord.alignment E) fuel reader position)
        (none, { reader with buffer := buffer }) m ∧
      Readable.remaining live position.page offset rest = []) ∨
    ∃ x ∈ live, ∃ before' rest',
      reader.pageLedger.pages.map PageRecord.page = before' ++ x.1.page :: rest' ∧
      m.Runs (findNextRecord (RawRecord.alignment E) fuel reader position)
        (some ⟨x.1.page, x.1.offset, Encode.size x.2 + 2,
          if pageSize ≤ x.1.offset + (Encode.size x.2 + 2) then reader.nextPage x.1.page
          else some ⟨x.1.page, (x.1.offset + (Encode.size x.2 + 2)) % (msizeMax + 1)⟩⟩,
          { reader with buffer := m.bytesAt x.1.page 0 pageSize }) m ∧
      (Readable.remaining live position.page offset rest).Perm
        (x :: Readable.remaining live x.1.page (x.1.offset + RawRecord.footprint x.2) rest') := by
  -- the induction is on the pages after the current one
  induction fuel generalizing reader position before offset rest with
  | zero => omega
  | succ fuel ih =>
      have listed : position.page ∈ reader.pageLedger.pages.map PageRecord.page := by
        rw [standing.order]
        simp
      have filled := refill_runs standing (readable.allocated _ listed)
      rcases findNextRecordPosition_spec readable standing with
        ⟨nothing, gone⟩ | ⟨x, member, here, after, found, first⟩
      · have following : ({ reader with buffer := m.bytesAt position.page 0 pageSize } :
            TableReader).nextPage position.page = rest.head?.map fun page => ⟨page, 0⟩ := by
          unfold nextPage
          rw [PageLedger.nextPageAfter_eq standing.order readable.nodup]
        cases rest with
        | nil =>
            refine .inl ⟨m.bytesAt position.page 0 pageSize, ?_, Readable.remaining_last gone⟩
            unfold findNextRecord
            refine runs_bind.mpr ⟨_, m, filled,
              runs_bind.mpr ⟨none, m, runs_lift.mpr ⟨nothing, rfl⟩, ?_⟩⟩
            simp only [following, List.head?_nil, Option.map_none]
            exact runs_pure.mpr ⟨rfl, rfl⟩
        | cons next rest =>
            have turned : Standing m live
                { reader with buffer := m.bytesAt position.page 0 pageSize } ⟨next, 0⟩
                (before ++ [position.page]) rest 0 := by
              refine ⟨?_, bytesAt_length .., fun moved => absurd rfl moved, ?_, fun _ _ _ => .inr (Nat.zero_le _)⟩
              · rw [List.append_assoc]
                exact standing.order
              · exact alignUp_of_dvd (Nat.lt_of_lt_of_le (by decide) (RawRecord.two_le_alignment E))
                  (Nat.dvd_zero _)
            have stepped : ∀ result, m.Runs (findNextRecord (RawRecord.alignment E) fuel
                  { reader with buffer := m.bytesAt position.page 0 pageSize } ⟨next, 0⟩) result m →
                m.Runs (findNextRecord (RawRecord.alignment E) (fuel + 1) reader position) result m := by
              intro result runs
              rw [findNextRecord]
              refine runs_bind.mpr ⟨_, m, filled,
                runs_bind.mpr ⟨none, m, runs_lift.mpr ⟨nothing, rfl⟩, ?_⟩⟩
              simp only [following, List.head?_cons, Option.map_some]
              exact runs
            rw [Readable.remaining_next gone]
            -- the ledger is the same, only the buffer has changed
            have again : ({ reader with buffer := m.bytesAt position.page 0 pageSize } :
                TableReader).pageLedger = reader.pageLedger := rfl
            rcases ih (again ▸ readable) turned (Nat.lt_of_succ_lt_succ enough) with
              ⟨buffer, runs, empty⟩ | ⟨x, member, before', rest', order, runs, perm⟩
            · exact .inl ⟨buffer, stepped _ runs, empty⟩
            · exact .inr ⟨x, member, before', rest', order, stepped _ runs, perm⟩
      · refine .inr ⟨x, member, before, rest, here ▸ standing.order, ?_, ?_⟩
        · unfold findNextRecord
          refine runs_bind.mpr ⟨_, m, filled,
            runs_bind.mpr ⟨_, m, runs_lift.mpr ⟨found, rfl⟩, ?_⟩⟩
          refine runs_pure.mpr ⟨?_, rfl⟩
          rw [here]
          rfl
        · rw [here]
          refine readable.remaining_found member here after first ?_
          have nodup := readable.nodup
          rw [standing.order, List.nodup_append] at nodup
          exact (List.nodup_cons.mp nodup.2.1).1

/-- Where the reader goes on after a record: behind it in its page or on the next one. -/
theorem pending_after {m : MemoryManager} {live : List (RecordAddress × E)} {reader : TableReader}
    {before rest : List Nat} {x : RecordAddress × E}
    (readable : Readable m (reader.pageLedger.pages.map PageRecord.page) live) (member : x ∈ live)
    (order : reader.pageLedger.pages.map PageRecord.page = before ++ x.1.page :: rest) :
    Pending m live ⟨reader.pageLedger, m.bytesAt x.1.page 0 pageSize,
        if pageSize ≤ x.1.offset + (Encode.size x.2 + 2) then reader.nextPage x.1.page
        else some ⟨x.1.page, (x.1.offset + (Encode.size x.2 + 2)) % (msizeMax + 1)⟩⟩
      (Readable.remaining live x.1.page (x.1.offset + RawRecord.footprint x.2) rest) := by
  have wide := RawRecord.two_le_alignment E
  have header : 2 + Encode.size x.2 ≤ RawRecord.footprint x.2 :=
    alignUp_ge _ (RawRecord.encoded x.2).alignment_pos
  by_cases full : pageSize ≤ x.1.offset + (Encode.size x.2 + 2)
  · have gone : ∀ y ∈ live, y.1.page = x.1.page → y.1.offset < x.1.offset + RawRecord.footprint x.2 := by
      intro y memberY _
      have fits := readable.inPage y memberY
      have filled := footprint_pos y.2
      omega
    rw [if_pos full, nextPage, PageLedger.nextPageAfter_eq order readable.nodup]
    cases rest with
    | nil => exact Readable.remaining_last gone
    | cons next rest =>
        refine ⟨before ++ [x.1.page], rest, 0, ?_, ?_⟩
        · refine ⟨?_, bytesAt_length .., fun moved => absurd rfl moved,
            alignUp_of_dvd (by omega) (Nat.dvd_zero _), fun _ _ _ => .inr (Nat.zero_le _)⟩
          rw [List.append_assoc]
          exact order
        · rw [Readable.remaining_next gone]
  · have small : (x.1.offset + (Encode.size x.2 + 2)) % (msizeMax + 1) =
        x.1.offset + (Encode.size x.2 + 2) := by
      rw [pageSize_eq] at full
      refine Nat.mod_eq_of_lt ?_
      unfold msizeMax
      omega
    rw [if_neg full, small]
    refine ⟨before, rest, x.1.offset + RawRecord.footprint x.2, ?_, .refl _⟩
    refine ⟨order, bytesAt_length .., fun _ => rfl, ?_, ?_⟩
    · obtain ⟨k, aligned⟩ := readable.aligned x member
      rw [Nat.add_comm (Encode.size x.2), aligned]
      exact alignUp_add_mul (by omega) _ _
    · intro y memberY hereY
      by_cases same : y = x
      · exact .inl (same ▸ Nat.le_refl _)
      · have separated := readable.apart_of_ne memberY member same
        simp only [Apart, slotExtent] at separated
        have page : y.1.page = x.1.page := hereY
        omega

/-- One call of `try_next` returns one of the pending records, or ends the scan when there is none. -/
theorem tryNext_runs {m : MemoryManager} {live todo : List (RecordAddress × E)} {reader : TableReader}
    (readable : Readable m (reader.pageLedger.pages.map PageRecord.page) live)
    (pending : Pending m live reader todo) :
    (todo = [] ∧ ∃ reader', m.Runs (tryNext E reader) (none, reader') m) ∨
    ∃ x todo' reader', todo.Perm (x :: todo') ∧ reader'.pageLedger = reader.pageLedger ∧
      m.Runs (tryNext E reader) (some ⟨x.2, x.1.page, x.1.offset⟩, reader') m ∧
      Pending m live reader' todo' ∧
      ∀ y ∈ todo', Readable.Precedes (reader.pageLedger.pages.map PageRecord.page) x y := by
  unfold Pending at pending
  unfold tryNext
  cases at_ : reader.position with
  | none =>
      rw [at_] at pending
      exact .inl ⟨pending, reader, runs_pure.mpr ⟨rfl, rfl⟩⟩
  | some position =>
      rw [at_] at pending
      obtain ⟨before, rest, offset, standing, perm⟩ := pending
      have enough : rest.length < reader.pageLedger.pages.length + 1 := by
        have counted := congrArg List.length standing.order
        simp only [List.length_map, List.length_append, List.length_cons] at counted
        omega
      rcases findNextRecord_runs readable standing enough with
        ⟨buffer, runs, empty⟩ | ⟨x, member, before', rest', order, runs, split⟩
      · rw [empty] at perm
        refine .inl ⟨perm.eq_nil, ⟨reader.pageLedger, buffer, none⟩, ?_⟩
        exact runs_bind.mpr ⟨_, m, runs, runs_pure.mpr ⟨rfl, rfl⟩⟩
      · have small := size_lt_of_fits (readable.small x member)
        have fits := readable.inPage x member
        have header : 2 + Encode.size x.2 ≤ RawRecord.footprint x.2 :=
          alignUp_ge _ (RawRecord.encoded x.2).alignment_pos
        have slice : ((m.bytesAt x.1.page 0 pageSize).drop x.1.offset).take (Encode.size x.2 + 2) =
            RawRecord.encode (RawRecord.new x.2) := by
          have stored := readable.record member
          unfold Stores at stored
          rw [RawRecord.encode_length _ (by omega)] at stored
          rw [bytesAt_slice (by omega), Nat.add_comm, stored]
        have decoded := RawRecord.decode_encode x.2 (by omega) []
        rw [List.append_nil, ← slice] at decoded
        refine .inr ⟨x, _, _, perm.trans split, ?_, runs_bind.mpr ⟨_, m, runs, ?_⟩,
          pending_after readable member order, fun y later => readable.precedes_remaining order later⟩
        · rfl
        · exact runs_bind.mpr ⟨_, m, runs_lift.mpr ⟨decoded, rfl⟩, runs_pure.mpr ⟨rfl, rfl⟩⟩

/-- A scan returns the pending records, each once and in scan order. -/
theorem scan_runs {m : MemoryManager} {live todo : List (RecordAddress × E)} {reader : TableReader}
    {fuel : Nat} (readable : Readable m (reader.pageLedger.pages.map PageRecord.page) live)
    (pending : Pending m live reader todo) (enough : todo.length < fuel) :
    ∃ found : List (RecordAddress × E), m.Runs (scan E fuel reader) (found.map fun x => ⟨x.2, x.1.page, x.1.offset⟩) m ∧
      found.Perm todo ∧
      found.Pairwise (Readable.Precedes (reader.pageLedger.pages.map PageRecord.page)) := by
  induction fuel generalizing reader todo with
  | zero => omega
  | succ fuel ih =>
      rcases tryNext_runs readable pending with
        ⟨rfl, reader', runs⟩ | ⟨x, todo', reader', perm, same, runs, next, first⟩
      · exact ⟨[], runs_bind.mpr ⟨_, m, runs, runs_pure.mpr ⟨rfl, rfl⟩⟩, .refl _, .nil⟩
      · have shorter : todo'.length < fuel := by
          have counted := perm.length_eq
          rw [List.length_cons] at counted
          omega
        obtain ⟨found, scanned, complete, ordered⟩ := ih (same ▸ readable) next shorter
        refine ⟨x :: found, ?_, (complete.cons x).trans perm.symm, ?_⟩
        · refine runs_bind.mpr ⟨_, m, runs, ?_⟩
          exact runs_bind.mpr ⟨_, m, scanned, runs_pure.mpr ⟨rfl, rfl⟩⟩
        · rw [same] at ordered
          exact List.pairwise_cons.mpr ⟨fun y member => first y (complete.mem_iff.mp member), ordered⟩

/-- A fresh reader has everything before it. -/
theorem pending_new {m : MemoryManager} {live : List (RecordAddress × E)} {ledger : PageLedger}
    (readable : Readable m (ledger.pages.map PageRecord.page) live) :
    Pending m live (new ledger) live := by
  have wide := RawRecord.two_le_alignment E
  cases pages : ledger.pages with
  | nil =>
      have empty : live = [] := by
        apply List.eq_nil_iff_forall_not_mem.mpr
        intro x member
        have listed := readable.listed x member
        simp [pages] at listed
      simpa [Pending, new, pages] using empty
  | cons r rest =>
      have everything : Readable.remaining live r.page 0 (rest.map PageRecord.page) = live := by
        apply List.filter_eq_self.mpr
        intro x member
        have listed := readable.listed x member
        rw [pages, List.map_cons, List.mem_cons] at listed
        simpa using listed
      simp only [Pending, new, pages, List.head?_cons, Option.map_some]
      refine ⟨[], rest.map PageRecord.page, 0, ?_, by rw [everything]⟩
      exact ⟨by simp [pages], zeros_length _, fun moved => absurd rfl moved,
        alignUp_of_dvd (by omega) (Nat.dvd_zero _), fun _ _ _ => .inr (Nat.zero_le _)⟩

end TableReader

/-- The record at a live address is read back. -/
theorem Readable.readAt_runs {m : MemoryManager} {pages : List Nat} {live : List (RecordAddress × E)}
    (readable : Readable m pages live) {x : RecordAddress × E} (member : x ∈ live) :
    m.Runs (TableRegistry.readAt E x.1) x.2 m := by
  have alloc := readable.allocated _ (readable.listed x member)
  have aligned := readable.aligned x member
  have fits := readable.inPage x member
  have small := size_lt_of_fits (readable.small x member)
  have header : 2 + Encode.size x.2 ≤ RawRecord.footprint x.2 :=
    alignUp_ge _ (RawRecord.encoded x.2).alignment_pos
  have stored := readable.record member
  unfold TableRegistry.readAt
  cases kind : Encode.dataSize E with
  | fixed n =>
      have size : Encode.size x.2 = n := (Encode.fixed_size n kind).2 x.2
      have dataSize : RawRecord.dataSize E = .fixed (2 + n) := by
        simp only [RawRecord.dataSize, kind, rawRecordHeaderSize]
      unfold Stores at stored
      rw [RawRecord.encode_length _ (by omega), size] at stored
      have decoded := RawRecord.decode_encode x.2 (by omega) []
      rw [List.append_nil, ← stored] at decoded
      rw [dataSize]
      refine runs_bind.mpr ⟨_, m, runs_readAt_fixed alloc aligned (by omega), ?_⟩
      exact runs_bind.mpr ⟨_, m, runs_lift.mpr ⟨decoded, rfl⟩, runs_pure.mpr ⟨rfl, rfl⟩⟩
  | dynamic =>
      have filled := readable.nonEmpty x member
      have length := readable.header member
      have body := stored.right
      rw [toLE_length] at body
      unfold Stores at body
      rw [RawRecord.new, Encode.size_eq x.2 (by omega)] at body
      have bodyStart : (x.1.offset + rawRecordHeaderSize) % (msizeMax + 1) = x.1.offset + 2 := by
        rw [pageSize_eq] at fits
        refine Nat.mod_eq_of_lt ?_
        unfold rawRecordHeaderSize msizeMax
        omega
      have size : ofLE (toLE 2 (Encode.size x.2)) = Encode.size x.2 := by
        refine ofLE_toLE_of_lt ?_
        unfold msizeMax at small
        omega
      have read : ∀ offset len, offset + len ≤ pageSize →
          m.Runs (MemoryAccess.readAtRaw x.1.page offset len) (m.bytesAt x.1.page offset len) m := by
        intro offset len inside
        refine (runs_readAtRaw (by omega)).mpr ⟨alloc, ?_, rfl⟩
        rw [Nat.min_eq_right (by omega)]
      dsimp only
      rw [if_neg (fun h => h.2 (Nat.mod_eq_zero_of_dvd aligned))]
      refine runs_bind.mpr ⟨_, m, read x.1.offset 2 (by omega), ?_⟩
      rw [length, if_neg (by rw [toLE_length]; exact Nat.lt_irrefl 2), size,
        if_neg (by unfold rawRecordHeaderSize; omega), bodyStart]
      refine runs_bind.mpr ⟨_, m, read (x.1.offset + 2) (Encode.size x.2) (by omega), ?_⟩
      rw [body, Encode.size_eq x.2 (by omega), Nat.sub_self]
      refine runs_lift.mpr ⟨?_, rfl⟩
      rw [zeros, List.replicate_zero, List.append_nil]
      exact Encode.decode_encode x.2 (by omega)

namespace TableState

theorem scan_perm_live {other : Nat → Prop} {s₀ s : TableState E} (empty : Empty other s₀) (steps : Steps s₀ s)
    (nonEmpty : ∀ x ∈ s.live, 0 < Encode.size x.2) {fuel : Nat} (enough : s.live.length < fuel) :
    ∃ found, s.mm.Runs (TableReader.scan E fuel (.new s.reg.pageLedger)) found s.mm ∧
      found.Perm (s.live.map fun x => ⟨x.2, x.1.page, x.1.offset⟩) := by
  obtain ⟨⟨tabs, table⟩, _⟩ := steps.inv empty.inv
  have readable := table.readable nonEmpty
  obtain ⟨found, runs, perm, _⟩ :=
    TableReader.scan_runs readable (TableReader.pending_new readable) enough
  exact ⟨_, runs, perm.map _⟩

/-- After every sequence of successful calls on an empty table a full scan
returns the live records with their addresses, each once, and then ends; the
record at each such address is read back. -/
theorem scan_returns_live_records {other : Nat → Prop} {s₀ s : TableState E}
    (empty : Empty other s₀) (steps : Steps s₀ s) (nonEmpty : ∀ x ∈ s.live, 0 < Encode.size x.2) :
    (∀ fuel, s.live.length < fuel → ∃ found,
      s.mm.Runs (TableReader.scan E fuel (.new s.reg.pageLedger)) found s.mm ∧
        found.Perm (s.live.map fun x => ⟨x.2, x.1.page, x.1.offset⟩)) ∧
    ∀ x ∈ s.live, s.mm.Runs (TableRegistry.readAt E x.1) x.2 s.mm := by
  refine ⟨fun fuel enough => scan_perm_live empty steps nonEmpty enough, fun x member => ?_⟩
  obtain ⟨⟨tabs, table⟩, _⟩ := steps.inv empty.inv
  exact (table.readable nonEmpty).readAt_runs member

theorem scan_after_sample_insert :
    ∃ s found, Steps sample s ∧ s.live = [(⟨4, 0⟩, 7)] ∧
      s.mm.Runs (TableReader.scan UInt8 2 (.new s.reg.pageLedger)) found s.mm ∧
      found = [⟨7, 4, 0⟩] := by
  obtain ⟨s, step, live⟩ := sample_insert 7
  have steps : Steps sample s := .single ⟨[], step⟩
  obtain ⟨scans, _⟩ := scan_returns_live_records sample_empty steps (fun _ _ => Nat.zero_lt_one)
  obtain ⟨found, runs, perm⟩ := scans 2 (by rw [live]; decide)
  rw [live] at perm
  exact ⟨s, found, steps, live, runs, List.perm_singleton.mp perm⟩

end TableState

end WasmDbms
