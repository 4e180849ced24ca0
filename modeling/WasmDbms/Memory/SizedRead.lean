import WasmDbms.Memory.Supply

/-!
# Ledgers at the start of a page

The codec of a ledger, its write and `read_sized`, which reads a prefix of the page until the
encoded length can be computed from it, and then that many bytes.
-/
namespace WasmDbms
open ByteString MemoryManager

/-- What the arithmetic on `MSize` does on an overflow: it panics in a build with overflow
checks and wraps in a build without. -/
inductive Build where
  | checked
  | wrapping
  deriving DecidableEq

/-- The value of an operation on `MSize` numbers. -/
def Build.msize (build : Build) (n : ℕ) : Except Fault ℕ :=
  if n ≤ msizeMax then .ok n
  else if build = .checked then .error .panic
  else .ok (n % (msizeMax + 1))

namespace Build
variable {build : Build} {a b : ℕ}

theorem msize_ok (fits : a ≤ msizeMax) : build.msize a = .ok a := if_pos fits

theorem checked_panics (overflow : msizeMax < a) : checked.msize a = .error .panic := by
  rw [msize, if_neg (Nat.not_le.mpr overflow), if_pos rfl]

theorem msize_le (known : build.msize a = .ok b) : b ≤ msizeMax := by
  unfold msize at known
  split at known
  next fits =>
    cases known
    exact fits
  next =>
    split at known
    next => cases known
    next =>
      cases known
      exact Nat.le_of_lt_succ (Nat.mod_lt _ (Nat.succ_pos _))

theorem wrapping_ok : wrapping.msize a = .ok (a % (msizeMax + 1)) := by
  unfold msize
  split
  next fits => rw [Nat.mod_eq_of_lt (Nat.lt_succ_of_le fits)]
  next => rfl

/-- An operation after another one: no overflow is forgotten, and wrapped numbers add up. -/
theorem msize_bind_add : (build.msize a >>= fun n => build.msize (b + n)) = build.msize (b + a) := by
  cases build with
  | wrapping =>
      rw [wrapping_ok, wrapping_ok]
      change wrapping.msize _ = _
      rw [wrapping_ok, Nat.add_mod_mod]
  | checked =>
      by_cases fits : a ≤ msizeMax
      · rw [msize_ok fits]
        rfl
      · rw [checked_panics (Nat.lt_of_not_le fits), checked_panics (by omega)]
        rfl

/-- A sum whose summands are computed in the same arithmetic. -/
theorem sum_eq {ι : Type} {f : ι → Except Fault ℕ} {g : ι → ℕ} (l : List ι) (each : ∀ e ∈ l, f e = build.msize (g e)) :
    (build.msize a >>= fun start =>
      l.foldlM (fun sum e => do let n ← f e; build.msize (sum + n)) start) = build.msize (a + (l.map g).sum) := by
  induction l generalizing a with
  | nil =>
      change (build.msize a >>= pure) = _
      rw [bind_pure]
      rfl
  | cons e rest ih =>
      obtain ⟨first, later⟩ := List.forall_mem_cons.mp each
      have step : ∀ sum, (do let n ← f e; build.msize (sum + n)) = build.msize (g e + sum) := by
        intro sum
        rw [first, Nat.add_comm (g e)]
        exact msize_bind_add
      have added : (build.msize a >>= fun sum => do let n ← f e; build.msize (sum + n)) = build.msize (a + g e) := by
        rw [funext step, msize_bind_add, Nat.add_comm]
      calc (build.msize a >>= fun start => (e :: rest).foldlM (fun sum e => do let n ← f e; build.msize (sum + n)) start)
        _ = (build.msize a >>= fun sum => do let n ← f e; build.msize (sum + n)) >>= fun start =>
            rest.foldlM (fun sum e => do let n ← f e; build.msize (sum + n)) start := by
          rw [bind_assoc]
          rfl
        _ = build.msize (a + ((e :: rest).map g).sum) := by
          rw [added, ih later, List.map_cons, List.sum_cons, Nat.add_assoc]

end Build

/-- The `Encode` implementation of a ledger. -/
structure LedgerCodec (α : Type) where
  size : Build → α → Except Fault ℕ
  encode : α → List UInt8
  decode : List UInt8 → Except Fault α

namespace MemoryManager

/-- `write_at` with the parts of the value as they are, without what `Encode` promises of them. -/
def writeEncoding (m : MemoryManager) (page offset alignment size : ℕ) (bytes : List UInt8) :
    Except MemoryError Unit × MemoryManager :=
  if m.unallocated page then (.error (.segmentationFault page offset size pageSize), m)
  else if alignment ≠ 0 ∧ offset % alignment ≠ 0 then (.error (.offsetNotAligned offset alignment), m)
  else
    let paddedLen := alignUp alignment bytes.length
    if pageSize < offset + paddedLen then (.error (.segmentationFault page offset paddedLen pageSize), m)
    else
      andThen (m.providerWrite (absoluteOffset page offset) bytes) fun _ m =>
      let padding := paddedLen - bytes.length
      if 0 < padding then m.providerWrite (absoluteOffset page offset + bytes.length) (zeros padding)
      else (.ok (), m)

theorem writeEncoding_eq (m : MemoryManager) (page offset : ℕ) (data : Encoded) :
    m.writeEncoding page offset data.alignment data.size data.bytes = m.writeAt page offset data := rfl

/-- The size is only used in an error. -/
theorem writeEncoding_ok {m m' : MemoryManager} {page offset alignment size other : ℕ} {bytes : List UInt8}
    (written : m.writeEncoding page offset alignment size bytes = (.ok (), m')) :
    m.writeEncoding page offset alignment other bytes = (.ok (), m') := by
  unfold writeEncoding at written ⊢
  split at written
  next => cases written
  next allocated => rwa [if_neg allocated]

end MemoryManager

namespace LedgerCodec
variable {α : Type} (codec : LedgerCodec α)

/-- `mm.write_at(page, 0, &ledger)`. -/
def commit (build : Build) (page : ℕ) (x : α) (m : MemoryManager) : Except Fault Unit × MemoryManager :=
  match codec.size build x with
  | .error fault => (.error fault, m)
  | .ok size =>
      let result := m.writeEncoding page 0 defaultAlignment size (codec.encode x)
      (result.1.mapError .error, result.2)

theorem pos_of_longer {size len : ℕ} (some_ : 0 < size) (longer : ¬ len ≤ size) : 0 < len := by omega

theorem pos_of_larger {size : ℕ} (some_ : 0 < size) (inside : size < pageSize) : 0 < min (size * 4) pageSize := by omega

/-- The loop of `read_sized`, with a buffer of the given size. -/
def readFrom (encodedLen : List UInt8 → Option ℕ) (page size : ℕ) (some_ : 0 < size) : Prog α := do
  let buf ← MemoryAccess.readAtRaw page 0 size
  match encodedLen buf with
  | some len =>
      if short : len ≤ size then Prog.lift (codec.decode (buf.take len))
      else if _ : len ≤ pageSize then readFrom encodedLen page len (pos_of_longer some_ short)
      else Prog.throw (.decodeError .tooShort)
  | none =>
      if inside : size < pageSize then readFrom encodedLen page (min (size * 4) pageSize) (pos_of_larger some_ inside)
      else Prog.throw (.decodeError .tooShort)
termination_by pageSize - size

/-- `INITIAL_READ_SIZE.min(page_size)`. -/
def initialReadSize : ℕ := min 1024 pageSize

theorem initialReadSize_pos : 0 < initialReadSize := by
  rw [initialReadSize, pageSize_eq]
  decide

def readSized (encodedLen : List UInt8 → Option ℕ) (page : ℕ) : Prog α :=
  codec.readFrom encodedLen page initialReadSize initialReadSize_pos

end LedgerCodec

/-- From a prefix of a page with the code the length of the code is computed, unless the
prefix is shorter than the code and too short to tell. -/
def Announces (encodedLen : List UInt8 → Option ℕ) (code : List UInt8) : Prop :=
  ∀ read rest, read <+: code ++ rest →
    encodedLen read = some code.length ∨ encodedLen read = none ∧ read.length < code.length

/-- A shorter read is a prefix of a longer one. -/
theorem MemoryManager.bytesAt_isPrefix (m : MemoryManager) (page : ℕ) {short long : ℕ} (le : short ≤ long) :
    m.bytesAt page 0 short <+: m.bytesAt page 0 long := by
  obtain ⟨more, rfl⟩ := Nat.exists_eq_add_of_le le
  exact ⟨_, (load_add m.mem (absoluteOffset page 0) short more).symm⟩

namespace LedgerCodec
variable {α : Type} {codec : LedgerCodec α} {encodedLen : List UInt8 → Option ℕ} {page : ℕ} {x : α} {m m' : MemoryManager}
  {build : Build}

section Read
variable (announces : Announces encodedLen (codec.encode x)) (back : codec.decode (codec.encode x) = .ok x)
  (allocated : page < m.pages) (fits : (codec.encode x).length ≤ pageSize) (stored : m.Stores page 0 (codec.encode x))
include announces back allocated fits stored

/-- The buffer grows to the length of the code, and what is decoded is the code. -/
theorem readFrom_runs {size : ℕ} (some_ : 0 < size) (inside : size ≤ pageSize) :
    m.Runs (codec.readFrom encodedLen page size some_) x m := by
  obtain ⟨rest, whole⟩ := stored.bytesAt_eq fits
  -- each turn enlarges the buffer, up to the page
  induction room : pageSize - size using Nat.strong_induction_on generalizing size with
  | _ n ih =>
    have read : m.bytesAt page 0 size <+: codec.encode x ++ rest := whole ▸ m.bytesAt_isPrefix page inside
    have first : m.Runs (MemoryAccess.readAtRaw page 0 size) (m.bytesAt page 0 size) m :=
      (runs_readAtRaw (Nat.zero_le _)).mpr ⟨allocated, by rw [Nat.sub_zero, Nat.min_eq_right inside], rfl⟩
    rw [readFrom.eq_def]
    refine runs_bind.mpr ⟨_, m, first, ?_⟩
    rcases announces _ _ read with known | ⟨unknown, short⟩
    · rw [known]
      dsimp only
      split
      next enough =>
        have code : (m.bytesAt page 0 size).take (codec.encode x).length = codec.encode x := by
          have both := List.prefix_of_prefix_length_le (List.prefix_append _ _) read (by simpa using enough)
          exact (List.prefix_iff_eq_take.mp both).symm
        rw [code]
        exact runs_lift.mpr ⟨back, rfl⟩
      next more =>
        exact ih (pageSize - (codec.encode x).length) (by omega) (by omega) fits rfl
    · rw [unknown]
      rw [bytesAt_length] at short
      have larger : size < pageSize := Nat.lt_of_lt_of_le short fits
      dsimp only
      rw [dif_pos larger]
      exact ih (pageSize - min (size * 4) pageSize) (by omega) (by omega) (Nat.min_le_right _ _) rfl

theorem readSized_runs : m.Runs (codec.readSized encodedLen page) x m :=
  readFrom_runs announces back allocated fits stored initialReadSize_pos (Nat.min_le_right _ _)

end Read

/-- The ledger is committed somewhere. -/
def Committed (codec : LedgerCodec α) (build : Build) (x : α) : Prop :=
  ∃ page m m', codec.commit build page x m = (.ok (), m')

theorem short_length (bytes : List UInt8) : min bytes.length msizeMax < msizeMax → bytes.length ≤ pageSize →
    bytes.length = min bytes.length msizeMax := fun short _ => by omega

theorem widely_aligned (bytes : List UInt8) : min bytes.length msizeMax = msizeMax → bytes.length = pageSize →
    1 < defaultAlignment := fun _ _ => by decide

/-- The bytes as a value that keeps the promise of `Encode`. -/
def lawful (bytes : List UInt8) : Encoded where
  alignment := defaultAlignment
  size := min bytes.length msizeMax
  bytes := bytes
  alignment_pos := defaultAlignment_pos
  size_le := Nat.min_le_right _ _
  size_eq := short_length bytes
  saturated := widely_aligned bytes

/-- A commit that succeeds stores the encoding in a page of the memory. -/
theorem commit_ok (written : codec.commit build page x m = (.ok (), m')) :
    (∃ size, codec.size build x = .ok size) ∧ (codec.encode x).length ≤ pageSize ∧ page < m'.pages ∧
      m'.Stores page 0 (codec.encode x) := by
  unfold commit at written
  split at written
  next => cases written
  next size known =>
    have ok : m.writeEncoding page 0 defaultAlignment size (codec.encode x) = (.ok (), m') := by
      rcases result : m.writeEncoding page 0 defaultAlignment size (codec.encode x) with ⟨_ | _, after⟩
      · rw [result] at written
        cases written
      · rw [result] at written
        cases written
        rfl
    have run : m.Runs (MemoryAccess.writeAt page 0 (lawful (codec.encode x))) () m' :=
      runs_perform.mpr (writeEncoding_ok ok)
    obtain ⟨allocated, _, fits, rfl⟩ := runs_writeAt.mp run
    refine ⟨⟨size, known⟩, ?_, allocated, stores_writeBytes.left⟩
    rw [padded_length, Nat.zero_add] at fits
    exact (alignUp_ge (codec.encode x).length defaultAlignment_pos).trans fits

theorem Committed.fits (committed : codec.Committed build x) : (codec.encode x).length ≤ pageSize := by
  obtain ⟨page, m, m', written⟩ := committed
  exact (commit_ok written).2.1

/-- A ledger that fits a page of the memory is committed if its size is computed. -/
theorem commit_of_fits {size : ℕ} (known : codec.size build x = .ok size) (allocated : page < m.pages)
    (fits : (codec.encode x).length ≤ pageSize) : codec.Committed build x := by
  have multiple : defaultAlignment ∣ pageSize := by
    rw [pageSize_eq]
    decide
  have room : 0 + (padded (lawful (codec.encode x))).length ≤ pageSize := by
    rw [padded_length, Nat.zero_add]
    exact alignUp_le_of_dvd defaultAlignment_pos multiple fits
  have run : m.Runs (MemoryAccess.writeAt page 0 (lawful (codec.encode x))) ()
      (m.writeBytes page 0 (padded (lawful (codec.encode x)))) :=
    runs_writeAt.mpr ⟨allocated, Nat.dvd_zero _, room, rfl⟩
  obtain ⟨after, written⟩ : ∃ after, m.writeEncoding page 0 defaultAlignment size (codec.encode x) = (.ok (), after) :=
    ⟨_, writeEncoding_ok (runs_perform.mp run)⟩
  refine ⟨page, m, after, ?_⟩
  rw [commit, known]
  dsimp only
  rw [written]
  rfl

/-- What is stored of a ledger is read back, and its length is what each place computes. -/
structure Faithful (codec : LedgerCodec α) (encodedLen : List UInt8 → Option ℕ) (build : Build) (x : α) : Prop where
  back : codec.decode (codec.encode x) = .ok x
  size : codec.size build x = .ok (codec.encode x).length
  announces : Announces encodedLen (codec.encode x)
  read : ∀ (m : MemoryManager) page, page < m.pages → m.Stores page 0 (codec.encode x) →
    m.Runs (codec.readSized encodedLen page) x m

/-- What is committed is faithful unless it fills its page: the length of a page is no `MSize`. -/
theorem faithful_iff (back : codec.decode (codec.encode x) = .ok x) (announces : Announces encodedLen (codec.encode x))
    (short : (codec.encode x).length ≤ msizeMax → codec.size build x = .ok (codec.encode x).length)
    (narrow : ∀ n, codec.size build x = .ok n → n ≤ msizeMax)
    (committed : codec.Committed build x) : codec.Faithful encodedLen build x ↔ (codec.encode x).length ≠ pageSize := by
  have fits := committed.fits
  constructor
  · intro faithful whole
    have bound := narrow _ faithful.size
    rw [whole, pageSize_eq] at bound
    exact absurd bound (by decide)
  · intro partial_
    have small : (codec.encode x).length ≤ msizeMax := by
      rw [pageSize_eq] at fits partial_
      unfold msizeMax
      omega
    exact ⟨back, short small, announces, fun m page allocated stored => readSized_runs announces back allocated fits stored⟩

end LedgerCodec
end WasmDbms
