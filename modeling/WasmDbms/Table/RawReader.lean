import WasmDbms.Table.Scan

/-!
# The raw table reader

The migration pass reads a table without its record type: it steps through the
pages in strides of the alignment in the stored snapshot and returns the encoded
bodies.
-/
namespace WasmDbms
open ByteString MemoryManager Extents

/-- A type derived with `#[derive(Table)]`: a record of fixed size is aligned to
its size, and to one byte when it is empty. -/
class TableRecord (E : Type) extends Encode E where
  fixed_alignment : ∀ n, dataSize = .fixed n → alignment = if n = 0 then 1 else n

/-- `T::schema_snapshot().alignment`. -/
def snapshotAlignment (E : Type) [TableRecord E] : Nat := Encode.alignment E

/-- `align_up_usize`. -/
def alignUpUsize (offset alignment : Nat) : Nat :=
  if alignment = 0 then offset
  else
    let rem := offset % alignment
    if rem = 0 then offset else offset + (alignment - rem)

theorem alignUpUsize_eq {alignment : Nat} (pos : 0 < alignment) (offset : Nat) :
    alignUpUsize offset alignment = alignUp alignment offset := by
  have rest := Nat.mod_lt offset pos
  have split := Nat.div_add_mod offset alignment
  unfold alignUpUsize
  rw [if_neg (by omega)]
  dsimp only
  split
  next exact_ => exact (alignUp_of_dvd pos (Nat.dvd_of_mod_eq_zero exact_)).symm
  next =>
    refine (alignUp_eq_of_dvd pos ⟨offset / alignment + 1, ?_⟩ (by omega) (by omega)).symm
    rw [Nat.mul_add, Nat.mul_one]
    omega

structure RawRecordBytes where
  address : RecordAddress
  bytes : List UInt8
  deriving DecidableEq, Repr

structure RawTableReader where
  pageLedger : PageLedger
  alignment : Nat
  cursor : Option Position
  deriving DecidableEq, Repr

namespace RawTableReader

def new (pageLedger : PageLedger) (alignment : Nat) : RawTableReader :=
  ⟨pageLedger, alignment, pageLedger.pages.head?.map fun r => ⟨r.page, 0⟩⟩

def nextPage (reader : RawTableReader) (current : Nat) : Option Position :=
  (reader.pageLedger.nextPageAfter current).map fun page => ⟨page, 0⟩

/-- Where the cursor goes on in a page, or on the next one. -/
def moved (reader : RawTableReader) (page nextOffset : Nat) : RawTableReader :=
  let cursor := if pageSize ≤ nextOffset then reader.nextPage page
    else some ⟨page, nextOffset % (msizeMax + 1)⟩
  { reader with cursor := cursor }

/-- A read into a zeroed buffer. -/
def readFull (page offset len : Nat) : Prog (List UInt8) := do
  let read ← MemoryAccess.readAtRaw page offset len
  return read ++ zeros (len - read.length)

/-- The loop of `try_next`. -/
def tryNextFrom : Nat → RawTableReader → Prog (Option RawRecordBytes × RawTableReader)
  | 0, _ => .fail .diverges
  | fuel + 1, reader =>
      match reader.cursor with
      | none => return (none, reader)
      | some ⟨page, offset⟩ =>
          let aligned := alignUpUsize offset reader.alignment
          if pageSize < aligned + rawRecordHeaderSize then
            tryNextFrom fuel { reader with cursor := reader.nextPage page }
          else do
            let header ← readFull page (aligned % (msizeMax + 1)) rawRecordHeaderSize
            let length := ofLE header
            if length = 0 then tryNextFrom fuel (reader.moved page (aligned + reader.alignment))
            else
              let bodyOffset := aligned + rawRecordHeaderSize
              if pageSize < bodyOffset + length then Prog.throw (.decodeError .tooShort)
              else do
                let body ← readFull page (bodyOffset % (msizeMax + 1)) length
                let nextOffset := alignUpUsize (bodyOffset + length) reader.alignment
                return (some ⟨⟨page, aligned % (msizeMax + 1)⟩, body⟩, reader.moved page nextOffset)

/-- Each turn of the loop passes a byte of a page or a page. -/
def tryNext (reader : RawTableReader) : Prog (Option RawRecordBytes × RawTableReader) :=
  tryNextFrom ((reader.pageLedger.pages.length + 1) * (pageSize + 3)) reader

/-- `try_next` until it returns `None`. -/
def scan : Nat → RawTableReader → Prog (List RawRecordBytes)
  | 0, _ => .fail .diverges
  | fuel + 1, reader => do
      let (next, reader) ← reader.tryNext
      match next with
      | none => return []
      | some record => do
          let rest ← scan fuel reader
          return record :: rest

end RawTableReader

variable {E : Type}

/-- A stride that meets every slot of the live records and nothing else: it
divides their offsets and leads from the end of a record to the next slot. -/
structure Strides [Encode E] (stride : Nat) (live : List (RecordAddress × E)) : Prop where
  pos : 0 < stride
  wide : ∀ x ∈ live, 2 ≤ stride
  divides : ∀ x ∈ live, stride ∣ x.1.offset
  covers : ∀ x ∈ live,
    x.1.offset + RawRecord.footprint x.2 ≤ alignUp stride (x.1.offset + (2 + Encode.size x.2))
  passes : ∀ x ∈ live, ∀ y ∈ live, x.1.page = y.1.page → x.1.offset < y.1.offset →
    alignUp stride (x.1.offset + (2 + Encode.size x.2)) ≤ y.1.offset

namespace RawTableReader
variable [Encode E] {m : MemoryManager} {live : List (RecordAddress × E)} {reader : RawTableReader}

/-- The cursor stands in a page of the ledger and goes on at an aligned offset
that lies in no slot. -/
structure Standing (live : List (RecordAddress × E)) (reader : RawTableReader)
    (position : Position) (before rest : List Nat) (offset : Nat) : Prop where
  order : reader.pageLedger.pages.map PageRecord.page = before ++ position.page :: rest
  aligned : alignUp reader.alignment position.offset = offset
  clear : ∀ x ∈ live, x.1.page = position.page →
    x.1.offset + RawRecord.footprint x.2 ≤ offset ∨ offset ≤ x.1.offset

/-- The reader will return exactly these records. -/
def Pending (live : List (RecordAddress × E)) (reader : RawTableReader)
    (todo : List (RecordAddress × E)) : Prop :=
  match reader.cursor with
  | none => todo = []
  | some position => ∃ before rest offset, Standing live reader position before rest offset ∧
      todo.Perm (Readable.remaining live position.page offset rest)

omit [Encode E] in
theorem readFull_runs {page offset len : Nat} (alloc : page < m.pages) (inside : offset + len ≤ pageSize) :
    m.Runs (readFull page offset len) (m.bytesAt page offset len) m := by
  refine runs_bind.mpr ⟨m.bytesAt page offset len, m, ?_, runs_pure.mpr ⟨?_, rfl⟩⟩
  · refine (runs_readAtRaw (by omega)).mpr ⟨alloc, ?_, rfl⟩
    rw [Nat.min_eq_right (by omega)]
  · rw [bytesAt_length, Nat.sub_self]
    exact List.append_nil _

/-- Moving on to an offset with no slot before it: everything from there on is pending. -/
theorem pending_moved {page offset : Nat} {before rest : List Nat}
    (readable : Readable m (reader.pageLedger.pages.map PageRecord.page) live)
    (pos : 0 < reader.alignment) (aligned : reader.alignment ∣ offset)
    (order : reader.pageLedger.pages.map PageRecord.page = before ++ page :: rest)
    (clear : ∀ x ∈ live, x.1.page = page →
      x.1.offset + RawRecord.footprint x.2 ≤ offset ∨ offset ≤ x.1.offset) :
    Pending live (reader.moved page offset) (Readable.remaining live page offset rest) := by
  unfold Pending moved
  by_cases full : pageSize ≤ offset
  · have gone : ∀ x ∈ live, x.1.page = page → x.1.offset < offset := by
      intro x member _
      have fits := readable.inPage x member
      have filled := footprint_pos x.2
      omega
    rw [if_pos full, nextPage, PageLedger.nextPageAfter_eq order readable.nodup]
    cases rest with
    | nil => exact Readable.remaining_last gone
    | cons next rest =>
        refine ⟨before ++ [page], rest, 0, ⟨?_, alignUp_of_dvd pos (Nat.dvd_zero _),
          fun _ _ _ => .inr (Nat.zero_le _)⟩, ?_⟩
        · rw [List.append_assoc]
          exact order
        · rw [Readable.remaining_next gone]
  · have small : offset % (msizeMax + 1) = offset := by
      rw [pageSize_eq] at full
      refine Nat.mod_eq_of_lt ?_
      unfold msizeMax
      omega
    rw [if_neg full, small]
    exact ⟨before, rest, offset, ⟨order, alignUp_of_dvd pos aligned, clear⟩, .refl _⟩

/-- What a call of the loop comes to when these records remain: the next one in
ledger order, or the end of the scan. -/
def Yields (m : MemoryManager) (live : List (RecordAddress × E)) (fuel : Nat) (reader : RawTableReader)
    (todo : List (RecordAddress × E)) : Prop :=
  (∃ reader', m.Runs (tryNextFrom fuel reader) (none, reader') m ∧ todo = []) ∨
  ∃ x ∈ live, ∃ before rest,
    reader.pageLedger.pages.map PageRecord.page = before ++ x.1.page :: rest ∧
    m.Runs (tryNextFrom fuel reader) (some ⟨x.1, Encode.encode x.2⟩,
      reader.moved x.1.page (alignUp reader.alignment (x.1.offset + (2 + Encode.size x.2)))) m ∧
    todo.Perm (x :: Readable.remaining live x.1.page (x.1.offset + RawRecord.footprint x.2) rest)

/-- A turn that only moves the cursor. -/
theorem Yields.of_turn {fuel : Nat} {reader' : RawTableReader} {todo : List (RecordAddress × E)}
    (turn : ∀ result, m.Runs (tryNextFrom fuel reader') result m →
      m.Runs (tryNextFrom (fuel + 1) reader) result m)
    (ledger : reader'.pageLedger = reader.pageLedger) (stride : reader'.alignment = reader.alignment)
    (yields : Yields m live fuel reader' todo) : Yields m live (fuel + 1) reader todo := by
  have moved_eq : reader'.moved = reader.moved := by
    funext page offset
    unfold moved nextPage
    cases reader'
    cases reader
    simp_all
  rcases yields with ⟨last, run, empty⟩ | ⟨x, member, before, rest, order, run, perm⟩
  · exact .inl ⟨last, turn _ run, empty⟩
  · rw [ledger] at order
    rw [moved_eq, stride] at run
    exact .inr ⟨x, member, before, rest, order, turn _ run, perm⟩

/-- The bytes at a stride where no record starts. -/
theorem blank_stride {page offset : Nat} {pages : List Nat} (readable : Readable m pages live)
    {stride : Nat} (strides : Strides stride live) (listed : page ∈ pages) (aligned : stride ∣ offset)
    (inside : offset + 2 ≤ pageSize)
    (clear : ∀ x ∈ live, x.1.page = page →
      x.1.offset + RawRecord.footprint x.2 ≤ offset ∨ offset ≤ x.1.offset)
    (free : ∀ x ∈ live, x.1.page = page → x.1.offset ≠ offset) :
    m.bytesAt page offset 2 = zeros 2 := by
  have zero : ∀ i, offset ≤ i → i < offset + 2 → m.byteAt page i = 0 := by
    intro i low high
    refine readable.content.blank page listed i (by omega) ?_
    intro x member here
    rcases clear x member here with before | after
    · exact .inr (Nat.le_trans before low)
    · have wide := strides.wide x member
      have gap := Nat.le_of_dvd (by have := free x member here; omega)
        (Nat.dvd_sub (strides.divides x member) aligned)
      refine .inl ?_
      simp only [slotExtent]
      omega
  have bytes : m.bytesAt page offset 2 = [m.byteAt page offset, m.byteAt page (offset + 1)] := rfl
  rw [bytes, zero offset (by omega) (by omega), zero (offset + 1) (by omega) (by omega)]
  rfl

/-- No record starts between an offset without one and the next stride. -/
theorem remaining_stride {stride page offset : Nat} {rest : List Nat} (strides : Strides stride live)
    (aligned : stride ∣ offset) (free : ∀ x ∈ live, x.1.page = page → x.1.offset ≠ offset) :
    Readable.remaining live page offset rest = Readable.remaining live page (offset + stride) rest := by
  apply List.filter_congr
  intro x member
  rw [decide_eq_decide]
  constructor
  · rintro (⟨here, late⟩ | later)
    · have apart := free x member here
      have gap := Nat.le_of_dvd (by omega) (Nat.dvd_sub (strides.divides x member) aligned)
      exact .inl ⟨here, by omega⟩
    · exact .inr later
  · rintro (⟨here, late⟩ | later)
    · exact .inl ⟨here, by omega⟩
    · exact .inr later

/-- A record that starts at the cursor is returned. -/
theorem tryNextFrom_found {position : Position} {before rest : List Nat} {fuel : Nat} {x : RecordAddress × E}
    (readable : Readable m (reader.pageLedger.pages.map PageRecord.page) live)
    (pos : 0 < reader.alignment) (at_ : reader.cursor = some position)
    (standing : Standing live reader position before rest x.1.offset) (member : x ∈ live)
    (here : x.1.page = position.page) :
    m.Runs (tryNextFrom (fuel + 1) reader) (some ⟨x.1, Encode.encode x.2⟩,
      reader.moved x.1.page (alignUp reader.alignment (x.1.offset + (2 + Encode.size x.2)))) m := by
  have alloc := readable.allocated _ (readable.listed x member)
  have fits := readable.inPage x member
  have filled := readable.nonEmpty x member
  have small := size_lt_of_fits (readable.small x member)
  have header : 2 + Encode.size x.2 ≤ RawRecord.footprint x.2 :=
    alignUp_ge _ (RawRecord.encoded x.2).alignment_pos
  have inside : x.1.offset + 2 < msizeMax + 1 := by
    rw [pageSize_eq] at fits
    unfold msizeMax
    omega
  have length : ofLE (m.bytesAt x.1.page x.1.offset 2) = Encode.size x.2 := readable.length_at member
  have body := (readable.record member).right
  rw [toLE_length] at body
  unfold Stores at body
  rw [RawRecord.new, Encode.size_eq x.2 (by omega)] at body
  have aligned : alignUpUsize position.offset reader.alignment = x.1.offset :=
    (alignUpUsize_eq pos _).trans standing.aligned
  rw [tryNextFrom, at_]
  dsimp only
  rw [aligned, ← here, if_neg (by unfold rawRecordHeaderSize; omega), Nat.mod_eq_of_lt (by omega)]
  refine runs_bind.mpr ⟨_, m, readFull_runs alloc (by unfold rawRecordHeaderSize; omega), ?_⟩
  rw [show rawRecordHeaderSize = 2 from rfl, length, if_neg (by omega), if_neg (by omega),
    Nat.mod_eq_of_lt inside]
  refine runs_bind.mpr ⟨_, m, readFull_runs alloc (by omega), runs_pure.mpr ⟨?_, rfl⟩⟩
  rw [body, alignUpUsize_eq pos, Nat.add_assoc]

/-- The loop ends with the next slot in ledger order, or finds none left. -/
theorem tryNextFrom_runs {position : Position} {before rest : List Nat} {offset fuel : Nat}
    (standing : Standing live reader position before rest offset)
    (at_ : reader.cursor = some position)
    (readable : Readable m (reader.pageLedger.pages.map PageRecord.page) live)
    (strides : Strides reader.alignment live)
    (enough : rest.length * (pageSize + 3) + (pageSize + 2 - offset) + 1 < fuel) :
    Yields m live fuel reader (Readable.remaining live position.page offset rest) := by
  -- a turn passes a stride of the page or the page itself
  induction fuel generalizing reader position before offset rest with
  | zero => omega
  | succ fuel ih =>
      have listed : position.page ∈ reader.pageLedger.pages.map PageRecord.page := by
        rw [standing.order]
        simp
      have aligned : reader.alignment ∣ offset := standing.aligned ▸ dvd_alignUp _ _
      have offset_eq : alignUpUsize position.offset reader.alignment = offset :=
        (alignUpUsize_eq strides.pos _).trans standing.aligned
      have onNext : (∀ x ∈ live, x.1.page = position.page → x.1.offset < offset) →
          Yields m live fuel { reader with cursor := reader.nextPage position.page }
            (Readable.remaining live position.page offset rest) := by
        intro gone
        rw [nextPage, PageLedger.nextPageAfter_eq standing.order readable.nodup]
        cases rest with
        | nil =>
            obtain ⟨k, rfl⟩ : ∃ k, fuel = k + 1 := ⟨fuel - 1, by omega⟩
            exact .inl ⟨_, runs_pure.mpr ⟨rfl, rfl⟩, Readable.remaining_last gone⟩
        | cons next rest =>
            have turned : Standing live { reader with cursor := some ⟨next, 0⟩ } ⟨next, 0⟩
                (before ++ [position.page]) rest 0 := by
              refine ⟨?_, alignUp_of_dvd strides.pos (Nat.dvd_zero _), fun _ _ _ => .inr (Nat.zero_le _)⟩
              rw [List.append_assoc]
              exact standing.order
            rw [List.length_cons, Nat.add_mul, Nat.one_mul] at enough
            rw [Readable.remaining_next gone]
            exact ih turned rfl readable strides (by omega)
      by_cases ended : pageSize < offset + 2
      · have gone : ∀ x ∈ live, x.1.page = position.page → x.1.offset < offset := by
          intro x member _
          have fits := readable.inPage x member
          have header : 2 + Encode.size x.2 ≤ RawRecord.footprint x.2 :=
            alignUp_ge _ (RawRecord.encoded x.2).alignment_pos
          omega
        have turn : ∀ result,
            m.Runs (tryNextFrom fuel { reader with cursor := reader.nextPage position.page }) result m →
            m.Runs (tryNextFrom (fuel + 1) reader) result m := by
          intro result run
          rw [tryNextFrom, at_]
          dsimp only
          rwa [offset_eq, if_pos (show pageSize < offset + rawRecordHeaderSize from ended)]
        exact .of_turn turn rfl rfl (onNext gone)
      by_cases start : ∃ x ∈ live, x.1.page = position.page ∧ x.1.offset = offset
      · obtain ⟨x, member, here, rfl⟩ := start
        refine .inr ⟨x, member, before, rest, here ▸ standing.order,
          tryNextFrom_found readable strides.pos at_ standing member here, ?_⟩
        rw [here]
        refine readable.remaining_found member here (Nat.le_refl _) (fun _ _ _ later => later) ?_
        have nodup := readable.nodup
        rw [standing.order, List.nodup_append] at nodup
        exact (List.nodup_cons.mp nodup.2.1).1
      · have free : ∀ x ∈ live, x.1.page = position.page → x.1.offset ≠ offset :=
          fun x member here same => start ⟨x, member, here, same⟩
        have turn : ∀ result,
            m.Runs (tryNextFrom fuel (reader.moved position.page (offset + reader.alignment))) result m →
            m.Runs (tryNextFrom (fuel + 1) reader) result m := by
          intro result run
          have small : offset % (msizeMax + 1) = offset := by
            rw [pageSize_eq] at ended
            refine Nat.mod_eq_of_lt ?_
            unfold msizeMax
            omega
          rw [tryNextFrom, at_]
          dsimp only
          rw [offset_eq, if_neg (show ¬ pageSize < offset + rawRecordHeaderSize from ended), small]
          refine runs_bind.mpr ⟨zeros 2, m, ?_, run⟩
          rw [← blank_stride readable strides listed aligned (by omega) standing.clear free]
          exact readFull_runs (readable.allocated _ listed) (Nat.not_lt.mp ended)
        refine .of_turn turn rfl rfl ?_
        unfold moved
        by_cases full : pageSize ≤ offset + reader.alignment
        · rw [if_pos full]
          refine onNext ?_
          intro x member here
          apply Nat.lt_of_not_le
          intro late
          have apart := free x member here
          have gap := Nat.le_of_dvd (by omega) (Nat.dvd_sub (strides.divides x member) aligned)
          have fits := readable.inPage x member
          have filled := footprint_pos x.2
          omega
        · have small : (offset + reader.alignment) % (msizeMax + 1) = offset + reader.alignment := by
            rw [pageSize_eq] at full
            refine Nat.mod_eq_of_lt ?_
            unfold msizeMax
            omega
          have pos := strides.pos
          rw [if_neg full, small, remaining_stride strides aligned free]
          have next : Standing live
              { reader with cursor := some ⟨position.page, offset + reader.alignment⟩ }
              ⟨position.page, offset + reader.alignment⟩ before rest (offset + reader.alignment) := by
            refine ⟨standing.order, alignUp_of_dvd pos (Nat.dvd_add aligned (Nat.dvd_refl _)), ?_⟩
            intro x member here
            have apart := free x member here
            rcases standing.clear x member here with behind | after
            · exact .inl (by omega)
            · have gap := Nat.le_of_dvd (by omega) (Nat.dvd_sub (strides.divides x member) aligned)
              exact .inr (by omega)
          have yields := ih next rfl readable strides (by omega)
          exact yields

/-- Where the reader goes on after a record. -/
theorem pending_after {before rest : List Nat} {x : RecordAddress × E}
    (readable : Readable m (reader.pageLedger.pages.map PageRecord.page) live)
    (strides : Strides reader.alignment live) (member : x ∈ live)
    (order : reader.pageLedger.pages.map PageRecord.page = before ++ x.1.page :: rest) :
    Pending live
      (reader.moved x.1.page (alignUp reader.alignment (x.1.offset + (2 + Encode.size x.2))))
      (Readable.remaining live x.1.page (x.1.offset + RawRecord.footprint x.2) rest) := by
  have covers := strides.covers x member
  have separate : ∀ y ∈ live, y.1.page = x.1.page →
      y.1.offset + RawRecord.footprint y.2 ≤ x.1.offset + RawRecord.footprint x.2 ∨
        alignUp reader.alignment (x.1.offset + (2 + Encode.size x.2)) ≤ y.1.offset := by
    intro y memberY here
    by_cases same : y = x
    · exact .inl (same ▸ Nat.le_refl _)
    · have apart := readable.apart_of_ne memberY member same
      have filled := footprint_pos x.2
      have filledY := footprint_pos y.2
      simp only [Apart, slotExtent] at apart
      by_cases later : x.1.offset < y.1.offset
      · exact .inr (strides.passes x member y memberY here.symm later)
      · exact .inl (by omega)
  have same : Readable.remaining live x.1.page (x.1.offset + RawRecord.footprint x.2) rest =
      Readable.remaining live x.1.page
        (alignUp reader.alignment (x.1.offset + (2 + Encode.size x.2))) rest := by
    apply List.filter_congr
    intro y memberY
    have filledY := footprint_pos y.2
    rw [decide_eq_decide]
    refine or_congr_left (and_congr_right fun here => ?_)
    have := separate y memberY here
    constructor <;> omega
  rw [same]
  refine pending_moved readable strides.pos (dvd_alignUp _ _) order ?_
  intro y memberY here
  rcases separate y memberY here with behind | after
  · exact .inl (Nat.le_trans behind covers)
  · exact .inr after

/-- One call of `try_next` returns one of the pending records, or ends the scan when there is none. -/
theorem tryNext_runs {todo : List (RecordAddress × E)}
    (readable : Readable m (reader.pageLedger.pages.map PageRecord.page) live)
    (strides : Strides reader.alignment live) (pending : Pending live reader todo) :
    (todo = [] ∧ ∃ reader', m.Runs reader.tryNext (none, reader') m) ∨
    ∃ x todo' reader', todo.Perm (x :: todo') ∧ reader'.pageLedger = reader.pageLedger ∧
      reader'.alignment = reader.alignment ∧
      m.Runs reader.tryNext (some ⟨x.1, Encode.encode x.2⟩, reader') m ∧
      Pending live reader' todo' ∧
      ∀ y ∈ todo', Readable.Precedes (reader.pageLedger.pages.map PageRecord.page) x y := by
  unfold Pending at pending
  unfold tryNext
  cases at_ : reader.cursor with
  | none =>
      rw [at_] at pending
      obtain ⟨fuel, some_⟩ : ∃ fuel, (reader.pageLedger.pages.length + 1) * (pageSize + 3) = fuel + 1 :=
        ⟨_, (Nat.succ_pred_eq_of_pos (Nat.mul_pos (Nat.succ_pos _) (Nat.succ_pos _))).symm⟩
      refine .inl ⟨pending, reader, ?_⟩
      rw [some_, tryNextFrom, at_]
      exact runs_pure.mpr ⟨rfl, rfl⟩
  | some position =>
      rw [at_] at pending
      obtain ⟨before, rest, offset, standing, perm⟩ := pending
      have enough : rest.length * (pageSize + 3) + (pageSize + 2 - offset) + 1 <
          (reader.pageLedger.pages.length + 1) * (pageSize + 3) := by
        have counted := congrArg List.length standing.order
        simp only [List.length_map, List.length_append, List.length_cons] at counted
        have pages : (rest.length + 2) * (pageSize + 3) ≤
            (reader.pageLedger.pages.length + 1) * (pageSize + 3) :=
          Nat.mul_le_mul_right _ (by omega)
        rw [Nat.add_mul] at pages
        omega
      rcases tryNextFrom_runs standing at_ readable strides enough with
        ⟨reader', runs, empty⟩ | ⟨x, member, before', rest', order, runs, split⟩
      · rw [empty] at perm
        exact .inl ⟨perm.eq_nil, reader', runs⟩
      · refine .inr ⟨x, _, _, perm.trans split, ?_, ?_, runs,
          pending_after readable strides member order,
          fun y later => readable.precedes_remaining order later⟩
        · rfl
        · rfl

/-- A scan returns the pending records, each once and in scan order. -/
theorem Pending.scan_runs {todo : List (RecordAddress × E)} {fuel : Nat} (pending : Pending live reader todo)
    (readable : Readable m (reader.pageLedger.pages.map PageRecord.page) live)
    (strides : Strides reader.alignment live)
    (enough : todo.length < fuel) :
    ∃ found : List (RecordAddress × E),
      m.Runs (scan fuel reader) (found.map fun x => ⟨x.1, Encode.encode x.2⟩) m ∧ found.Perm todo ∧
      found.Pairwise (Readable.Precedes (reader.pageLedger.pages.map PageRecord.page)) := by
  induction fuel generalizing reader todo with
  | zero => omega
  | succ fuel ih =>
      rcases tryNext_runs readable strides pending with
        ⟨rfl, reader', runs⟩ | ⟨x, todo', reader', perm, same, stride, runs, next, first⟩
      · exact ⟨[], runs_bind.mpr ⟨_, m, runs, runs_pure.mpr ⟨rfl, rfl⟩⟩, .refl _, .nil⟩
      · have shorter : todo'.length < fuel := by
          have counted := perm.length_eq
          rw [List.length_cons] at counted
          omega
        obtain ⟨found, scanned, complete, ordered⟩ :=
          ih next (same ▸ readable) (stride ▸ strides) shorter
        refine ⟨x :: found, ?_, (complete.cons x).trans perm.symm, ?_⟩
        · refine runs_bind.mpr ⟨_, m, runs, ?_⟩
          exact runs_bind.mpr ⟨_, m, scanned, runs_pure.mpr ⟨rfl, rfl⟩⟩
        · rw [same] at ordered
          exact List.pairwise_cons.mpr ⟨fun y member => first y (complete.mem_iff.mp member), ordered⟩

/-- A fresh reader has everything before it. -/
theorem pending_new {ledger : PageLedger} {stride : Nat}
    (readable : Readable m (ledger.pages.map PageRecord.page) live) (pos : 0 < stride) :
    Pending live (new ledger stride) live := by
  cases pages : ledger.pages with
  | nil =>
      have empty : live = [] := by
        apply List.eq_nil_iff_forall_not_mem.mpr
        intro x member
        have listed := readable.listed x member
        simp [pages] at listed
      simpa [Pending, new, pages] using empty
  | cons r rest =>
      have everything : Readable.remaining live r.page 0 (rest.map PageRecord.page) = live := by
        apply List.filter_eq_self.mpr
        intro x member
        have listed := readable.listed x member
        rw [pages, List.map_cons, List.mem_cons] at listed
        simpa using listed
      simp only [Pending, new, pages, List.head?_cons, Option.map_some]
      refine ⟨[], rest.map PageRecord.page, 0, ?_, by rw [everything]⟩
      exact ⟨by simp [pages], alignUp_of_dvd pos (Nat.dvd_zero _), fun _ _ _ => .inr (Nat.zero_le _)⟩

end RawTableReader
end WasmDbms
