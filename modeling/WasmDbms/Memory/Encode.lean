import WasmDbms.Memory.Manager

/-!
# Encodable values and raw records

The `Encode` trait with its contract, and the `RawRecord` wrapper that puts
the length of a record in front of its bytes.
-/
namespace WasmDbms
open ByteString

/-- The `Encode` trait. A size below `MSize::MAX` is the length of the encoding
and such a value is read back by `decode`. Fixed-size types leave room for the
record header; dynamic ones are aligned to at least 8 bytes. -/
class Encode (E : Type) where
  dataSize : DataSize
  alignment : Nat
  encode : E → List UInt8
  size : E → Nat
  decode : List UInt8 → Except Fault E
  size_le : ∀ e, size e ≤ msizeMax
  size_eq : ∀ e, size e < msizeMax → (encode e).length = size e
  decode_encode : ∀ e, size e < msizeMax → decode (encode e) = .ok e
  fixed_size : ∀ n, dataSize = .fixed n → n + 2 ≤ msizeMax ∧ ∀ e, size e = n
  dynamic_alignment : dataSize = .dynamic → 8 ≤ alignment ∧ alignment ≤ msizeMax

/-- The encoding of `Uint8`. -/
instance : Encode UInt8 where
  dataSize := .fixed 1
  alignment := 1
  encode b := [b]
  size _ := 1
  decode data := match data with
    | b :: _ => .ok b
    | [] => .error (.error (.decodeError .tooShort))
  size_le _ := by decide
  size_eq _ _ := rfl
  decode_encode _ _ := rfl
  fixed_size n h := by
    cases h
    exact ⟨by decide, fun _ => rfl⟩
  dynamic_alignment h := by cases h

/-- `RAW_RECORD_HEADER_SIZE`. -/
def rawRecordHeaderSize : Nat := 2

/-- A record with its length, as it is stored. -/
structure RawRecord (E : Type) where
  length : Nat
  data : E
  deriving DecidableEq, Repr

namespace RawRecord

variable {E : Type} [Encode E]

def new (data : E) : RawRecord E := ⟨Encode.size data, data⟩

variable (E) in
/-- `<RawRecord<E> as Encode>::SIZE`. -/
def dataSize : DataSize :=
  match Encode.dataSize E with
  | .fixed size => .fixed (rawRecordHeaderSize + size)
  | .dynamic => .dynamic

variable (E) in
/-- `<RawRecord<E> as Encode>::ALIGNMENT`. -/
def alignment : Nat :=
  match Encode.dataSize E with
  | .fixed size => size + rawRecordHeaderSize
  | .dynamic => Encode.alignment E

def encode (r : RawRecord E) : List UInt8 := toLE 2 r.length ++ Encode.encode r.data

def decode (data : List UInt8) : Except Fault (RawRecord E) :=
  if data.length < 2 then .error (.error (.decodeError .tooShort))
  else
    let length := ofLE (data.take 2)
    if data.length < rawRecordHeaderSize + length then .error (.error (.decodeError .tooShort))
    else
      match Encode.decode ((data.drop rawRecordHeaderSize).take length) with
      | .error e => .error e
      | .ok decoded => .ok ⟨length, decoded⟩

/-- `size()`, with a saturating addition. -/
def size (r : RawRecord E) : Nat := min (rawRecordHeaderSize + r.length) msizeMax

variable (E) in
theorem two_le_alignment : 2 ≤ alignment E := by
  unfold alignment
  split
  · simp [rawRecordHeaderSize]
  · rename_i dynamic
    have bound := (Encode.dynamic_alignment dynamic).1
    omega

variable (E) in
theorem alignment_le : alignment E ≤ msizeMax := by
  unfold alignment
  split
  · rename_i n fixed
    exact (Encode.fixed_size n fixed).1
  · rename_i dynamic
    exact (Encode.dynamic_alignment dynamic).2

theorem encode_length (e : E) (fits : Encode.size e < msizeMax) :
    (encode (new e)).length = 2 + Encode.size e := by
  rw [encode, List.length_append, toLE_length, new, Encode.size_eq e fits]

/-- What the memory layer uses of `RawRecord::new(e)`. -/
def encoded (e : E) : Encoded where
  alignment := alignment E
  size := size (new e)
  bytes := encode (new e)
  alignment_pos := Nat.lt_of_lt_of_le (by decide) (two_le_alignment E)
  size_le := Nat.min_le_right _ _
  size_eq := by
    intro small _
    have short : Encode.size e + 2 < msizeMax := by
      simp only [size, new, rawRecordHeaderSize] at small
      omega
    rw [encode_length e (by omega)]
    simp only [size, new, rawRecordHeaderSize]
    omega
  saturated := by
    intro _ _
    have wide := two_le_alignment E
    omega

@[simp] theorem encoded_alignment (e : E) : (encoded e).alignment = alignment E := rfl

/-- The padded length of a stored record. -/
def footprint (e : E) : Nat := alignUp (alignment E) (rawRecordHeaderSize + Encode.size e)

theorem decode_encode (e : E) (fits : Encode.size e < msizeMax) (rest : List UInt8) :
    decode (encode (new e) ++ rest) = .ok (new e) := by
  have long : (encode (new e) ++ rest).length = 2 + Encode.size e + rest.length := by
    rw [List.length_append, encode_length e fits]
  have header : ofLE ((encode (new e) ++ rest).take 2) = Encode.size e := by
    rw [encode, List.append_assoc, List.take_left' (toLE_length _ _)]
    refine ofLE_toLE_of_lt ?_
    have bound := Encode.size_le e
    unfold msizeMax at bound
    exact Nat.lt_of_le_of_lt bound (by decide)
  have body : ((encode (new e) ++ rest).drop rawRecordHeaderSize).take (Encode.size e) =
      Encode.encode e := by
    rw [encode, List.append_assoc, show rawRecordHeaderSize = 2 from rfl,
      List.drop_left' (toLE_length _ _), new, List.take_left' (Encode.size_eq e fits)]
  unfold decode
  dsimp only
  rw [header, body, Encode.decode_encode e fits, if_neg (by omega),
    if_neg (by unfold rawRecordHeaderSize; omega)]
  rfl

end RawRecord

end WasmDbms
