import WasmDbms.Lib.ByteString

/-!
# The page-level memory interface

`MemoryAccess` is the trait every registry and ledger is written against. A
program over it is a tree of primitive calls, so that one program can be run
on the plain `MemoryManager` and on the `JournaledWriter` that wraps it.
Errors are propagated by `?` everywhere in the crate: a failed call ends the
program, and the bytes it wrote before stay written.
-/
namespace WasmDbms

/-- `WASM_PAGE_SIZE`, the `PAGE_SIZE` of every provider. Page numbers (`Page = u32`),
page offsets (`PageOffset = u16`) and sizes (`MSize = u16`) are natural numbers here. -/
def pageSize : Nat := 65536

theorem pageSize_eq : pageSize = 65536 := rfl

attribute [irreducible] pageSize

/-- `MSize::MAX` and `u16::MAX`. -/
def msizeMax : Nat := 65535

inductive DecodeError where
  | badRawRecordHeader
  | tryFromSliceError
  | utf8Error
  | tooShort
  | invalidDiscriminant (byte : Nat)
  | identityDecodeError (message : String)
  | invalidJson (message : String)
  | uuidError
  deriving DecidableEq, Repr

inductive MemoryError where
  | dataTooLarge (pageSize requested : Nat)
  | decodeError (e : DecodeError)
  | failedToAllocatePage
  | unclaimedPagesFull (capacity : Nat)
  | indexNotFound (columns : List String)
  | entryNotFound
  | autoincrementOverflow (typeName : String)
  | keyTooLarge (size max : Nat)
  | offsetNotAligned (offset : Nat) (alignment : Nat)
  | outOfBounds
  | segmentationFault (page : Nat) (offset : Nat) (dataSize pageSize : Nat)
  | constraintViolation (message : String)
  | nameCollision (candidate existing : String)
  deriving DecidableEq, Repr

/-- How a call can end without a value: a returned error, a panic, or a loop
that does not end within the fuel it is given. -/
inductive Fault where
  | error (e : MemoryError)
  | panic
  | diverges
  deriving DecidableEq, Repr

inductive DataSize where
  | fixed (size : Nat)
  | dynamic
  deriving DecidableEq, Repr

/-- `align_up::<E>`: rounds up to the next multiple of `E::ALIGNMENT`. -/
def alignUp (alignment offset : Nat) : Nat :=
  (offset + alignment - 1) / alignment * alignment

theorem alignUp_ge {a : Nat} (n : Nat) (pos : 0 < a) : n ≤ alignUp a n := by
  have split := Nat.div_add_mod (n + a - 1) a
  have rest := Nat.mod_lt (n + a - 1) pos
  unfold alignUp
  rw [Nat.mul_comm]
  omega

/-- What the memory layer uses of a `&E` argument with `E: Encode`: the type's
alignment, the reported `size()` and the bytes of `encode()`. The contract of
the trait is carried along. A size below `MSize::MAX` is the length of the
encoding; a saturated size makes no promise about the bytes, except that only
dynamically sized types, which are never aligned to single bytes, fill a whole
page. Nothing is promised of an encoding that no page can hold. -/
structure Encoded where
  alignment : Nat
  size : Nat
  bytes : List UInt8
  alignment_pos : 0 < alignment
  size_le : size ≤ msizeMax
  size_eq : size < msizeMax → bytes.length ≤ pageSize → bytes.length = size
  saturated : size = msizeMax → bytes.length = pageSize → 1 < alignment
  deriving DecidableEq, Repr

theorem alignUp_mono (a : Nat) {m n : Nat} (h : m ≤ n) : alignUp a m ≤ alignUp a n :=
  Nat.mul_le_mul_right a (Nat.div_le_div_right (by omega))

theorem dvd_alignUp (a n : Nat) : a ∣ alignUp a n := Nat.dvd_mul_left a _

/-- A multiple of the alignment is a bound as soon as it bounds the unpadded length. -/
theorem alignUp_le_of_dvd {a n m : Nat} (pos : 0 < a) (multiple : a ∣ m) (h : n ≤ m) :
    alignUp a n ≤ m := by
  obtain ⟨k, rfl⟩ := multiple
  have quotient : (n + a - 1) / a ≤ k := by
    rw [← Nat.lt_succ_iff, Nat.div_lt_iff_lt_mul pos, Nat.succ_mul, Nat.mul_comm k a]
    omega
  calc (n + a - 1) / a * a ≤ k * a := Nat.mul_le_mul_right a quotient
    _ = a * k := Nat.mul_comm k a

/-- The primitive calls of `MemoryAccess`. -/
inductive MemCall where
  | growOnePage
  | zeroPage (page : Nat)
  | readAt (page : Nat) (offset : Nat) (alignment : Nat) (size : DataSize)
  | writeAt (page : Nat) (offset : Nat) (data : Encoded)
  | writeAtRaw (page : Nat) (offset : Nat) (buf : List UInt8)
  | zero (page : Nat) (offset : Nat) (data : Encoded)
  | zeroRaw (page : Nat) (offset : Nat) (len : Nat)
  | readAtRaw (page : Nat) (offset : Nat) (len : Nat)
  deriving DecidableEq, Repr

/-- The page offset a call names, a `u16`. -/
def MemCall.offset : MemCall → Nat
  | .growOnePage | .zeroPage _ => 0
  | .readAt _ offset _ _ | .writeAt _ offset _ | .writeAtRaw _ offset _ | .zero _ offset _
  | .zeroRaw _ offset _ | .readAtRaw _ offset _ => offset

/-- What a successful call returns; a typed read returns the bytes handed to `decode`. -/
@[reducible] def MemCall.Resp : MemCall → Type
  | .growOnePage => Nat
  | .readAt .. | .readAtRaw .. => List UInt8
  | _ => Unit

/-- A program over the memory interface. -/
inductive Prog (α : Type) : Type where
  | pure (a : α)
  | fail (fault : Fault)
  | call (c : MemCall) (k : c.Resp → Prog α)

namespace Prog

variable {α β σ : Type}

protected def bind : Prog α → (α → Prog β) → Prog β
  | .pure a, f => f a
  | .fail e, _ => .fail e
  | .call c k, f => .call c (fun r => (k r).bind f)

instance : Monad Prog where
  pure := Prog.pure
  bind := Prog.bind

/-- Issues one primitive call. -/
def perform (c : MemCall) : Prog c.Resp := .call c .pure

/-- Returns an error. -/
def throw (e : MemoryError) : Prog α := .fail (.error e)

/-- `?` on the result of a decoder; a decoder that indexes past its input panics. -/
def lift : Except Fault α → Prog α
  | .ok a => .pure a
  | .error e => .fail e

/-- An implementation of the interface: each call against a state. -/
abbrev Handler (σ : Type) := (c : MemCall) → σ → Except MemoryError c.Resp × σ

/-- Runs a program on an implementation; the first fault ends it. -/
def run (h : Handler σ) : Prog α → σ → Except Fault α × σ
  | .pure a, s => (.ok a, s)
  | .fail e, s => (.error e, s)
  | .call c k, s =>
      match h c s with
      | (.ok r, s') => (k r).run h s'
      | (.error e, s') => (.error (.error e), s')

variable (h : Handler σ)

@[simp] theorem run_pure (a : α) (s : σ) : (Pure.pure a : Prog α).run h s = (.ok a, s) := rfl

@[simp] theorem run_fail (e : Fault) (s : σ) : (Prog.fail e : Prog α).run h s = (.error e, s) := rfl

@[simp] theorem run_throw (e : MemoryError) (s : σ) :
    (Prog.throw e : Prog α).run h s = (.error (.error e), s) := rfl

theorem run_bind (p : Prog α) (f : α → Prog β) (s : σ) :
    (p >>= f).run h s =
      match p.run h s with
      | (.ok a, s') => (f a).run h s'
      | (.error e, s') => (.error e, s') := by
  change (p.bind f).run h s = _
  induction p generalizing s with
  | pure a => rfl
  | fail e => rfl
  | call c k ih =>
      simp only [Prog.bind, run]
      split
      · exact ih _ _
      · rfl

theorem run_perform (c : MemCall) (s : σ) :
    (perform c).run h s =
      match h c s with
      | (.ok r, s') => (.ok r, s')
      | (.error e, s') => (.error (.error e), s') := by
  simp only [perform, run]

/-- A successful sequence is a successful first part followed by a successful rest. -/
theorem run_bind_ok {p : Prog α} {f : α → Prog β} {s s' : σ} {b : β} :
    (p >>= f).run h s = (.ok b, s') ↔
      ∃ a s₁, p.run h s = (.ok a, s₁) ∧ (f a).run h s₁ = (.ok b, s') := by
  rw [run_bind]
  constructor
  · intro hrun
    rcases hp : p.run h s with ⟨r, s₁⟩
    cases r with
    | ok a => exact ⟨a, s₁, rfl, by simpa [hp] using hrun⟩
    | error e => simp [hp] at hrun
  · rintro ⟨a, s₁, hp, hf⟩
    simpa [hp] using hf

theorem run_perform_ok {c : MemCall} {s s' : σ} {r : c.Resp} :
    (perform c).run h s = (.ok r, s') ↔ h c s = (.ok r, s') := by
  rw [run_perform]
  rcases h c s with ⟨res, s₁⟩
  cases res <;> simp

theorem run_lift_ok {x : Except Fault α} {s s' : σ} {a : α} :
    (lift x).run h s = (.ok a, s') ↔ x = .ok a ∧ s = s' := by
  cases x <;> simp [lift, run]

/-- Every call the program can issue, whatever the answers, satisfies `P`. -/
def Issues (P : MemCall → Prop) : Prog α → Prop
  | .pure _ => True
  | .fail _ => True
  | .call c k => P c ∧ ∀ r, (k r).Issues P

/-- An invariant of the calls a program issues is an invariant of its runs. -/
theorem run_invariant {P : MemCall → Prop} {I : σ → Prop}
    (step : ∀ c s, P c → I s → I (h c s).2) {p : Prog α} {s : σ} (issues : p.Issues P)
    (start : I s) : I (p.run h s).2 := by
  induction p generalizing s with
  | pure a => exact start
  | fail e => exact start
  | call c k ih =>
      have next := step c s issues.1 start
      simp only [run]
      split
      · rename_i r s' answer
        rw [answer] at next
        exact ih r (issues.2 r) next
      · rename_i e s' answer
        rw [answer] at next
        exact next

end Prog

namespace MemoryAccess

def growOnePage : Prog Nat := Prog.perform .growOnePage

def zeroPage (page : Nat) : Prog Unit := Prog.perform (.zeroPage page)

/-- The bytes `read_at` hands to `decode`. -/
def readAt (page offset alignment : Nat) (size : DataSize) : Prog (List UInt8) :=
  Prog.perform (.readAt page offset alignment size)

def writeAt (page offset : Nat) (data : Encoded) : Prog Unit :=
  Prog.perform (.writeAt page offset data)

def writeAtRaw (page offset : Nat) (buf : List UInt8) : Prog Unit :=
  Prog.perform (.writeAtRaw page offset buf)

def zero (page offset : Nat) (data : Encoded) : Prog Unit := Prog.perform (.zero page offset data)

def zeroRaw (page offset len : Nat) : Prog Unit := Prog.perform (.zeroRaw page offset len)

/-- The bytes read, at most `len`. -/
def readAtRaw (page offset len : Nat) : Prog (List UInt8) :=
  Prog.perform (.readAtRaw page offset len)

end MemoryAccess

end WasmDbms
