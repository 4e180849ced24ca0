import WasmDbms.Index.KeyCodec

/-!
# Decoding keys with 32-bit addresses

The decoders of values and of keys on a target whose `usize` has 32 bits. The lengths
inside a value are too small to overflow; the size of an entry of a key is not.
-/
namespace WasmDbms
open ByteString Result

/-- What `+` on `usize` does beyond the largest number. -/
inductive Overflow where
  | wrapping
  | trapping

def usizeSpan : ℕ := 4294967296

/-- The longest a byte string can be, `isize::MAX`. -/
def isizeMax : ℕ := 2147483647

/-- `a + b` on `usize`. -/
def addUsize (overflow : Overflow) (a b : ℕ) : Except Fault ℕ :=
  if a + b < usizeSpan then .ok (a + b)
  else match overflow with
    | .wrapping => .ok ((a + b) % usizeSpan)
    | .trapping => .error .panic

/-- `&bytes[start..stop]`. -/
def sliceRange (bytes : List UInt8) (start stop : ℕ) : Except Fault (List UInt8) :=
  if start ≤ stop ∧ stop ≤ bytes.length then .ok ((bytes.drop start).take (stop - start)) else .error .panic

section Decode
variable {D J : Type} (formats : Formats D J) (overflow : Overflow)

/-- `decode` of `Blob`, and of `Text` and `Json` up to the bytes of the text. -/
def decodePayloadOn (data : List UInt8) : Except Fault (List UInt8) := do
  if data.length < 2 then truncated
  else
    let len ← decodeLength data
    let stop ← addUsize overflow 2 len
    if data.length < stop then truncated
    else sliceRange data 2 stop

/-- `decode_custom_value`. -/
def decodeCustomValueOn (data : List UInt8) : Except Fault (StoredValue D J) := do
  if data.length < 2 then truncated
  else
    let tagLen ← decodeLength data
    let dataOffset ← addUsize overflow 2 tagLen
    let dataStart ← addUsize overflow dataOffset 2
    if data.length < dataStart then truncated
    else
      let typeTag ← sliceRange data 2 dataOffset >>= decodeUtf8
      let dataLen ← ofLE <$> bytesAt data dataOffset 2
      let stop ← addUsize overflow dataStart dataLen
      if data.length < stop then truncated
      else
        let encoded ← sliceRange data dataStart stop
        return .custom ⟨typeTag, encoded, ""⟩

/-- The content behind a discriminant. -/
def decodeContentOn (discriminant : UInt8) (rest : List UInt8) : Except Fault (StoredValue D J) :=
  match discriminant with
  | 0 => .blob <$> decodePayloadOn overflow rest
  | 9 => .json <$> (decodePayloadOn overflow rest >>= decodeUtf8 >>= parseJson formats)
  | 11 => .text <$> (decodePayloadOn overflow rest >>= decodeUtf8)
  | 17 => decodeCustomValueOn overflow rest
  | other => decodeContent formats other rest

/-- `<Value as Encode>::decode`. -/
def decodeValueOn : List UInt8 → Except Fault (StoredValue D J)
  | [] => truncated
  | discriminant :: rest => decodeContentOn formats overflow discriminant rest

/-- The loop of `decode`, with the entries that are left and the offset. -/
def decodeEntriesOn (data : List UInt8) : ℕ → ℕ → Except Fault (List (StoredValue D J))
  | 0, _ => .ok []
  | count + 1, offset => do
      if (← addUsize overflow offset 4) > data.length then truncated
      else
        let size ← ofLE <$> bytesAt data offset 4
        let offset ← addUsize overflow offset 4
        let stop ← addUsize overflow offset size
        if stop > data.length then truncated
        else
          let value ← sliceRange data offset stop >>= decodeValueOn formats overflow
          let values ← decodeEntriesOn data count (← addUsize overflow offset size)
          return value :: values

/-- `<Vec<Value> as Encode>::decode`, where `reserve` is what the allocator answers. -/
def decodeKeyOn (reserve : ℕ → Bool) (data : List UInt8) : Except Fault (List (StoredValue D J)) :=
  if data.length < 4 then truncated
  else do
    let count ← ofLE <$> bytesAt data 0 4
    if count > (data.length - 4) / minEncodedVecEntrySize then truncated
    else if !reserve count then truncated
    else decodeEntriesOn formats overflow data count 4

end Decode

/-! ## Values -/

section Values
variable {D J : Type} (formats : Formats D J) {overflow : Overflow}

theorem addUsize_eq {a b : ℕ} (small : a + b < usizeSpan) : addUsize overflow a b = .ok (a + b) := if_pos small

theorem addUsize_trapping {a b : ℕ} (far : usizeSpan ≤ a + b) : addUsize .trapping a b = .error .panic :=
  if_neg (not_lt.mpr far)

theorem addUsize_wrapping {a b : ℕ} (far : usizeSpan ≤ a + b) : addUsize .wrapping a b = .ok ((a + b) % usizeSpan) :=
  if_neg (not_lt.mpr far)

theorem sliceRange_eq {bytes : List UInt8} {start stop : ℕ} (order : start ≤ stop) (inside : stop ≤ bytes.length) :
    sliceRange bytes start stop = .ok ((bytes.drop start).take (stop - start)) := if_pos ⟨order, inside⟩

/-- A length prefix has sixteen bits. -/
theorem decodeLength_small {data : List UInt8} (two : 2 ≤ data.length) {len : ℕ} (read : decodeLength data = .ok len) :
    len < 65536 := by
  rw [decodeLength, bytesAt_eq (by omega)] at read
  cases read
  have bound := ofLE_lt ((data.drop 0).take 2)
  rw [List.length_take, List.drop_zero, Nat.min_eq_left two] at bound
  exact bound

theorem decodePayloadOn_eq (data : List UInt8) : decodePayloadOn overflow data = decodePayload data := by
  rw [decodePayloadOn, decodePayload]
  by_cases short : data.length < 2
  · rw [if_pos short, if_pos short]
  · rw [if_neg short, if_neg short]
    cases read : decodeLength data with
    | error e => rfl
    | ok len =>
        have small := decodeLength_small (not_lt.mp short) read
        have stop : addUsize overflow 2 len = .ok (2 + len) := addUsize_eq (by unfold usizeSpan; omega)
        simp only [bind, Except.bind, stop]
        by_cases cut : data.length < 2 + len
        · rw [if_pos cut, if_pos cut]
        · have inside := not_lt.mp cut
          have two : 2 ≤ (data.take (2 + len)).length := by
            rw [List.length_take]
            omega
          rw [if_neg cut, if_neg cut, sliceRange_eq (Nat.le_add_right 2 len) inside, sliceTo_eq inside]
          dsimp only
          rw [sliceFrom, if_pos two, List.drop_take]

theorem decodeCustomValueOn_eq (data : List UInt8) :
    (decodeCustomValueOn overflow data : Except Fault (StoredValue D J)) = decodeCustomValue data := by
  rw [decodeCustomValueOn, decodeCustomValue]
  by_cases short : data.length < 2
  · rw [if_pos short, if_pos short]
  · rw [if_neg short, if_neg short]
    cases read : decodeLength data with
    | error e => rfl
    | ok tagLen =>
        have small := decodeLength_small (not_lt.mp short) read
        have offset : addUsize overflow 2 tagLen = .ok (2 + tagLen) := addUsize_eq (by unfold usizeSpan; omega)
        have start : addUsize overflow (2 + tagLen) 2 = .ok (2 + tagLen + 2) := addUsize_eq (by unfold usizeSpan; omega)
        simp only [bind, Except.bind, offset, start]
        by_cases cut : data.length < 2 + tagLen + 2
        · rw [if_pos cut, if_pos cut]
        · have inside := not_lt.mp cut
          have tag : sliceRange data 2 (2 + tagLen) = bytesAt data 2 tagLen := by
            rw [sliceRange_eq (by omega) (by omega), bytesAt_eq (by omega), Nat.add_sub_cancel_left]
          rw [if_neg cut, if_neg cut, tag, bytesAt_eq (by omega), bytesAt_eq inside]
          dsimp only
          cases decodeUtf8 ((data.drop 2).take tagLen) with
          | error e => rfl
          | ok typeTag =>
              have bound := ofLE_lt ((data.drop (2 + tagLen)).take 2)
              have two : ((data.drop (2 + tagLen)).take 2).length = 2 := by
                rw [List.length_take, List.length_drop]
                omega
              rw [two] at bound
              dsimp only [Functor.map, Except.map]
              generalize ofLE ((data.drop (2 + tagLen)).take 2) = dataLen at bound
              have stop : addUsize overflow (2 + tagLen + 2) dataLen = .ok (2 + tagLen + 2 + dataLen) :=
                addUsize_eq (by unfold usizeSpan; omega)
              rw [stop]
              dsimp only
              by_cases over_ : data.length < 2 + tagLen + 2 + dataLen
              · rw [if_pos over_, if_pos over_]
              · have whole := not_lt.mp over_
                rw [if_neg over_, if_neg over_, sliceRange_eq (by omega) whole, bytesAt_eq whole, Nat.add_sub_cancel_left]

/-- Values are decoded as they are with unbounded numbers. -/
theorem decodeValueOn_eq (data : List UInt8) : decodeValueOn formats overflow data = decodeValue formats data := by
  cases data with
  | nil => rfl
  | cons discriminant rest =>
      rw [decodeValueOn, decodeValue]
      unfold decodeContentOn
      split
      · rw [decodePayloadOn_eq]
        rfl
      · rw [decodePayloadOn_eq]
        rfl
      · rw [decodePayloadOn_eq]
        rfl
      · rw [decodeCustomValueOn_eq]
        rfl
      · rfl

theorem decodeCustomValue_returns (data : List UInt8) :
    Returns (decodeCustomValue data : Except Fault (StoredValue D J)) := by
  unfold decodeCustomValue
  split
  next => exact .error
  next two =>
    refine .bind (.map (bytesAt_returns (by omega))) fun tagLen _ => ?_
    split
    next => exact .error
    next inside =>
      refine .bind (bytesAt_returns (by omega)) fun tagBytes _ => .bind (decodeUtf8_returns _) fun typeTag _ => ?_
      refine .bind (bytesAt_returns (by omega)) fun dataLen _ => ?_
      split
      next => exact .error
      next whole => exact .bind (bytesAt_returns (by omega)) fun _ _ => .ok

theorem decodeValue_returns (data : List UInt8) : Returns (decodeValue formats data) := by
  cases data with
  | nil => exact .error
  | cons discriminant rest =>
      rw [decodeValue]
      unfold decodeContent
      split
      · exact .map (decodePayload_returns rest)
      · exact .map (decodeBoolean_returns rest)
      · exact .map (Date.decode_returns rest)
      · exact .map (DateTime.decode_returns rest)
      · exact .map (decodeDecimal_returns formats rest)
      · exact decodeInt_returns _ _ rest
      · exact decodeInt_returns _ _ rest
      · exact decodeInt_returns _ _ rest
      · exact decodeInt_returns _ _ rest
      · exact .map (decodeJson_returns formats rest)
      · exact .ok
      · exact .map (decodeText_returns rest)
      · exact decodeInt_returns _ _ rest
      · exact decodeInt_returns _ _ rest
      · exact decodeInt_returns _ _ rest
      · exact decodeInt_returns _ _ rest
      · exact .map (decodeUuid_returns rest)
      · exact decodeCustomValue_returns rest
      · exact .error

end Values

/-! ## Keys -/

/-- The number in the four bytes at an offset: the count of a key, the size of an entry. -/
def announced (data : List UInt8) (offset : ℕ) : ℕ := ofLE ((data.drop offset).take 4)

/-- Where an entry of a key lies: its header and the bytes of its value. -/
structure EntryCut where
  header : ℕ
  size : ℕ

def EntryCut.start (cut : EntryCut) : ℕ := cut.header + 4

def EntryCut.stop (cut : EntryCut) : ℕ := cut.start + cut.size

/-- The header announces the size, and the value lies in the input. -/
structure EntryCut.Within (data : List UInt8) (cut : EntryCut) : Prop where
  size : cut.size = announced data cut.header
  inside : cut.stop ≤ data.length

def EntryCut.bytes (data : List UInt8) (cut : EntryCut) : List UInt8 := (data.drop cut.start).take cut.size

section Keys
variable {D J : Type} (formats : Formats D J) {overflow : Overflow} {data : List UInt8}

/-- The entries that the decoder comes to have ends that it can address. Behind an entry that is
cut off or does not decode it comes to none. -/
def Addressable (data : List UInt8) : ℕ → ℕ → Prop
  | 0, _ => True
  | count + 1, offset => offset + 4 ≤ data.length →
      offset + 4 + announced data offset < usizeSpan ∧
        (offset + 4 + announced data offset ≤ data.length →
          ∀ value, decodeValue formats ((data.drop (offset + 4)).take (announced data offset)) = .ok value →
            Addressable data count (offset + 4 + announced data offset))

theorem announced_lt (data : List UInt8) (offset : ℕ) : announced data offset < usizeSpan :=
  (ofLE_lt _).trans_le (Nat.pow_le_pow_right (by decide) (List.length_take_le 4 (data.drop offset)))

theorem Returns.cons {α : Type} {x : Except Fault (List α)} {a : α} :
    Returns (do let rest ← x; return a :: rest) ↔ Returns x := by
  cases x with
  | ok l => exact Iff.rfl
  | error e => exact Iff.rfl

section Long
variable (long : data.length ≤ isizeMax)
include long

/-- One turn of the loop. A size that takes the end beyond the largest address panics, where
`+` wraps because the end is then in front of the start. -/
theorem decodeEntriesOn_succ {count offset : ℕ} (inside : offset ≤ data.length) :
    decodeEntriesOn formats overflow data (count + 1) offset =
      if data.length < offset + 4 then truncated
      else if usizeSpan ≤ offset + 4 + announced data offset then .error .panic
      else if data.length < offset + 4 + announced data offset then truncated
      else do
        let value ← decodeValue formats ((data.drop (offset + 4)).take (announced data offset))
        let values ← decodeEntriesOn formats overflow data count (offset + 4 + announced data offset)
        return value :: values := by
  have header : addUsize overflow offset 4 = .ok (offset + 4) :=
    addUsize_eq (by unfold usizeSpan; unfold isizeMax at long; omega)
  rw [decodeEntriesOn, header]
  simp only [bind, Except.bind]
  by_cases cut : data.length < offset + 4
  · rw [if_pos cut, if_pos cut]
  · have within := not_lt.mp cut
    rw [if_neg cut, if_neg cut, bytesAt_eq within]
    dsimp only [Functor.map, Except.map]
    rw [← announced]
    have small : announced data offset < usizeSpan := announced_lt data offset
    generalize announced data offset = size at small
    by_cases far : usizeSpan ≤ offset + 4 + size
    · rw [if_pos far]
      cases overflow with
      | trapping =>
          rw [addUsize_trapping far]
      | wrapping =>
          rw [addUsize_wrapping far]
          have wrapped : (offset + 4 + size) % usizeSpan = offset + 4 + size - usizeSpan := by
            rw [Nat.mod_eq_sub_mod far]
            exact Nat.mod_eq_of_lt (by unfold isizeMax at long; unfold usizeSpan at small ⊢; omega)
          have before : offset + 4 + size - usizeSpan < offset + 4 := by omega
          dsimp only
          rw [wrapped, if_neg (by omega), sliceRange, if_neg (fun both => absurd both.1 (not_le.mpr before))]
    · rw [if_neg far, addUsize_eq (not_le.mp far)]
      dsimp only
      by_cases past : data.length < offset + 4 + size
      · rw [if_pos past, if_pos past]
      · rw [if_neg past, if_neg past, sliceRange_eq (Nat.le_add_right _ _) (not_lt.mp past), Nat.add_sub_cancel_left]
        dsimp only
        rw [decodeValueOn_eq]

/-- The loop returns exactly when it comes to no entry whose end is past the addresses. -/
theorem decodeEntriesOn_returns_iff {count offset : ℕ} (inside : offset ≤ data.length) :
    Returns (decodeEntriesOn formats overflow data count offset) ↔ Addressable formats data count offset := by
  induction count generalizing offset with
  | zero => exact iff_of_true .ok trivial
  | succ count ih =>
      rw [decodeEntriesOn_succ formats long inside, Addressable]
      by_cases cut : data.length < offset + 4
      · rw [if_pos cut]
        exact iff_of_true .error fun within => absurd within (not_le.mpr cut)
      · rw [if_neg cut, forall_prop_of_true (not_lt.mp cut)]
        by_cases far : usizeSpan ≤ offset + 4 + announced data offset
        · rw [if_pos far]
          exact iff_of_false id fun both => absurd both.1 (not_lt.mpr far)
        · rw [if_neg far, and_iff_right (not_le.mp far)]
          by_cases past : data.length < offset + 4 + announced data offset
          · rw [if_pos past]
            exact iff_of_true .error fun within => absurd within (not_le.mpr past)
          · rw [if_neg past, forall_prop_of_true (not_lt.mp past)]
            have value := decodeValue_returns formats ((data.drop (offset + 4)).take (announced data offset))
            cases read : decodeValue formats ((data.drop (offset + 4)).take (announced data offset)) with
            | error e =>
                rw [read] at value
                refine iff_of_true ?_ fun v decoded => by cases decoded
                cases e with
                | error e => exact .error
                | _ => exact value
            | ok v =>
                refine (Returns.cons (a := v)).trans ((ih (not_lt.mp past)).trans ⟨fun rest w same => ?_, fun all => all v rfl⟩)
                exact rest

/-- The entries that were decoded lie one behind the other. -/
theorem decodeEntriesOn_cuts {count offset : ℕ} (inside : offset ≤ data.length) {values : List (StoredValue D J)}
    (run : decodeEntriesOn formats overflow data count offset = .ok values) :
    ∃ cuts : List EntryCut, cuts.length = count ∧ (∀ cut ∈ cuts, cut.Within data ∧ offset ≤ cut.header) ∧
      (cuts.Pairwise fun a b => a.stop ≤ b.header) ∧
      cuts.map (fun cut => decodeValue formats (cut.bytes data)) = values.map .ok := by
  induction count generalizing offset values with
  | zero =>
      cases run
      exact ⟨[], rfl, fun _ member => absurd member List.not_mem_nil, .nil, rfl⟩
  | succ count ih =>
      rw [decodeEntriesOn_succ formats long inside] at run
      split at run
      next => cases run
      next =>
        split at run
        next => cases run
        next =>
          split at run
          next => cases run
          next past =>
            obtain ⟨value, decoded, run⟩ := bind_eq_ok.mp run
            obtain ⟨rest, later, run⟩ := bind_eq_ok.mp run
            cases run
            obtain ⟨cuts, length, within, apart, read⟩ := ih (not_lt.mp past) later
            refine ⟨⟨offset, announced data offset⟩ :: cuts, congrArg Nat.succ length, ?_, ?_, ?_⟩
            · refine List.forall_mem_cons.mpr ⟨⟨⟨rfl, not_lt.mp past⟩, le_refl _⟩, fun cut member => ?_⟩
              exact ⟨(within cut member).1, le_trans (by omega) (within cut member).2⟩
            · exact List.pairwise_cons.mpr ⟨fun cut member => (within cut member).2, apart⟩
            · rw [List.map_cons, List.map_cons, read]
              exact congrArg (· :: _) decoded

end Long

/-- Decoding the bytes as a value or as a key returns, and a key that is accepted has the
announced number of entries, each decoded from a slice of its own. -/
structure DecodesSafely (overflow : Overflow) (reserve : ℕ → Bool) (data : List UInt8) : Prop where
  value : Returns (decodeValueOn formats overflow data)
  key : Returns (decodeKeyOn formats overflow reserve data)
  cuts : ∀ values, decodeKeyOn formats overflow reserve data = .ok values → values.length = announced data 0 ∧
    ∃ cuts : List EntryCut, cuts.length = announced data 0 ∧ (∀ cut ∈ cuts, cut.Within data) ∧
      (cuts.Pairwise fun a b => a.stop ≤ b.header) ∧
      cuts.map (fun cut => decodeValue formats (cut.bytes data)) = values.map .ok

theorem decodeKeyOn_eq {reserve : ℕ → Bool} : decodeKeyOn formats overflow reserve data =
    if data.length < 4 then truncated
    else if announced data 0 > (data.length - 4) / minEncodedVecEntrySize then truncated
    else if reserve (announced data 0) then decodeEntriesOn formats overflow data (announced data 0) 4
    else truncated := by
  rw [decodeKeyOn]
  by_cases short : data.length < 4
  · rw [if_pos short, if_pos short]
  · rw [if_neg short, if_neg short, bytesAt_eq (by omega)]
    change (if announced data 0 > (data.length - 4) / minEncodedVecEntrySize then truncated
      else if (!reserve (announced data 0)) = true then truncated
      else decodeEntriesOn formats overflow data (announced data 0) 4) = _
    cases reserve (announced data 0) <;> rfl

/-- Byte strings decode safely exactly when the decoder of keys comes to no entry whose size takes
its end past the addresses. -/
theorem decodesSafely_iff (long : data.length ≤ isizeMax) (overflow : Overflow) (reserve : ℕ → Bool) :
    DecodesSafely formats overflow reserve data ↔
      (4 ≤ data.length → announced data 0 ≤ (data.length - 4) / minEncodedVecEntrySize →
        reserve (announced data 0) = true → Addressable formats data (announced data 0) 4) := by
  have loop (four : 4 ≤ data.length) (few : announced data 0 ≤ (data.length - 4) / minEncodedVecEntrySize)
      (reserved : reserve (announced data 0) = true) : decodeKeyOn formats overflow reserve data =
        decodeEntriesOn formats overflow data (announced data 0) 4 := by
    rw [decodeKeyOn_eq, if_neg (not_lt.mpr four), if_neg (not_lt.mpr few), if_pos reserved]
  constructor
  · intro safe four few reserved
    have returns := safe.key
    rw [loop four few reserved] at returns
    exact (decodeEntriesOn_returns_iff formats long four).mp returns
  · intro addressable
    have value : Returns (decodeValueOn formats overflow data) := by
      rw [decodeValueOn_eq]
      exact decodeValue_returns formats data
    have rejected (short : decodeKeyOn formats overflow reserve data = truncated) :
        DecodesSafely formats overflow reserve data :=
      ⟨value, short ▸ .error, fun values run => by cases short.symm.trans run⟩
    by_cases four : 4 ≤ data.length
    · by_cases few : announced data 0 ≤ (data.length - 4) / minEncodedVecEntrySize
      · by_cases reserved : reserve (announced data 0) = true
        · refine ⟨value, ?_, fun values run => ?_⟩
          · rw [loop four few reserved]
            exact (decodeEntriesOn_returns_iff formats long four).mpr (addressable four few reserved)
          · rw [loop four few reserved] at run
            obtain ⟨cuts, length, within, apart, read⟩ := decodeEntriesOn_cuts formats long four run
            have same := congrArg List.length read
            rw [List.length_map, List.length_map] at same
            exact ⟨same.symm.trans length, cuts, length, fun cut member => (within cut member).1, apart, read⟩
        · refine rejected ?_
          rw [decodeKeyOn_eq, if_neg (not_lt.mpr four), if_neg (not_lt.mpr few), if_neg reserved]
      · refine rejected ?_
        rw [decodeKeyOn_eq, if_neg (not_lt.mpr four), if_pos (not_le.mp few)]
    · refine rejected ?_
      rw [decodeKeyOn_eq, if_pos (not_le.mp four)]

end Keys

namespace NestedArrays

/-- A key of one `Null`. -/
def nullKey : List UInt8 := [1, 0, 0, 0, 1, 0, 0, 0, 10]

theorem null_key_safe : DecodesSafely formats .wrapping (fun _ => true) nullKey := by
  refine (decodesSafely_iff formats (by decide) .wrapping _).mpr fun _ _ _ => ?_
  exact fun _ => ⟨by decide, fun _ _ _ => trivial⟩

/-- The same key, whose entry announces four bytes less than there are addresses. -/
def overlongKey : List UInt8 := [1, 0, 0, 0, 252, 255, 255, 255, 10]

/-- Neither arithmetic rejects the size. -/
theorem overlong_key_panics : overlongKey.length ≤ isizeMax ∧
    decodeKeyOn formats .wrapping (fun _ => true) overlongKey = .error .panic ∧
    decodeKeyOn formats .trapping (fun _ => true) overlongKey = .error .panic ∧
    ¬DecodesSafely formats .wrapping (fun _ => true) overlongKey ∧
    ¬DecodesSafely formats .trapping (fun _ => true) overlongKey := by
  have wrapping : decodeKeyOn formats .wrapping (fun _ => true) overlongKey = .error .panic := rfl
  have trapping : decodeKeyOn formats .trapping (fun _ => true) overlongKey = .error .panic := rfl
  refine ⟨by decide, wrapping, trapping, fun safe => ?_, fun safe => ?_⟩
  · have returns := safe.key
    rwa [wrapping] at returns
  · have returns := safe.key
    rwa [trapping] at returns

end NestedArrays
end WasmDbms
