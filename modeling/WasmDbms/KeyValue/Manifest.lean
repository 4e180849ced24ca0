import WasmDbms.Lib.ByteString
import WasmDbms.Lib.Result
import WasmDbms.Memory.Access

/-!
# Checkpoint manifests

The head of a key-value database: which slot holds each page of the current and
of the previous checkpoint, with the hashes of the pages, and its encoding.
-/
namespace WasmDbms.KeyValue
open ByteString Result

/-- The errors of a provider: `ProviderError` and the cases of `MemoryError` it shares
with the other providers. -/
inductive ProviderFailure where
  | providerError (message : String)
  | failedToAllocatePage
  | outOfBounds
  deriving DecidableEq, Repr

/-- What the provider takes from its target: the largest allocation and the page hash. -/
structure Target where
  isizeMax : Nat
  xxh3_64 : List UInt8 → UInt64

/-- `MAX_PAGES`. -/
def maxPages : Nat := 4294967295

def magic : List UInt8 := [87, 68, 66, 77, 83, 75, 86, 50]

/-- `HEADER_SIZE`. -/
def headerSize : Nat := 24

/-- `ENTRY_SIZE`. -/
def entrySize : Nat := 9

/-- `NO_PREVIOUS_CHECKPOINT`. -/
def noPreviousCheckpoint : Nat := 18446744073709551615

def invalidManifest (message : String) : ProviderFailure := .providerError message

/-- `validate_page_count`; the product fits `u64` below the engine limit. -/
def validatePageCount (env : Target) (pages : Nat) : Except ProviderFailure Unit :=
  if pages > maxPages then .error (invalidManifest "page count exceeds the engine limit")
  else if pages * pageSize ≤ env.isizeMax then .ok ()
  else .error .failedToAllocatePage

/-- The page counts the provider can address. -/
def Target.Addressable (env : Target) (pages : Nat) : Prop := pages ≤ maxPages ∧ pages * pageSize ≤ env.isizeMax

theorem validatePageCount_eq_ok {env : Target} {pages : Nat} :
    validatePageCount env pages = .ok () ↔ env.Addressable pages := by
  rw [validatePageCount, Target.Addressable]
  by_cases many : pages > maxPages
  · rw [if_pos many]
    constructor
    · intro h
      cases h
    · intro h
      omega
  · rw [if_neg many]
    by_cases large : pages * pageSize ≤ env.isizeMax
    · rw [if_pos large]
      exact ⟨fun _ => ⟨by omega, large⟩, fun _ => rfl⟩
    · rw [if_neg large]
      constructor
      · intro h
        cases h
      · exact fun h => absurd h.2 large

/-- The slot and the hash of every page. -/
@[ext] structure Checkpoint where
  slots : List UInt8
  hashes : List UInt64
  paired : slots.length = hashes.length
  slots_le : ∀ slot ∈ slots, slot ≤ 1
  deriving DecidableEq, Repr

namespace Checkpoint

theorem slots_le_of_all {slots : List UInt8} (low : (slots.all fun slot => decide (slot ≤ 1)) = true) :
    ∀ slot ∈ slots, slot ≤ 1 :=
  fun slot member => of_decide_eq_true (List.all_eq_true.mp low slot member)

def new (env : Target) (slots : List UInt8) (hashes : List UInt64) : Except ProviderFailure Checkpoint :=
  if paired : slots.length = hashes.length then do
    validatePageCount env slots.length
    if low : slots.all fun slot => decide (slot ≤ 1) then .ok ⟨slots, hashes, paired, slots_le_of_all low⟩
    else .error (invalidManifest "manifest contains an invalid slot")
  else .error (invalidManifest "checkpoint slot and hash counts do not match")

def empty : Checkpoint where
  slots := []
  hashes := []
  paired := rfl
  slots_le := List.forall_mem_nil _

def pages (c : Checkpoint) : Nat := c.slots.length

/-- The slot of a page, and 0 for a page behind the last one. -/
def slot (c : Checkpoint) (page : Nat) : UInt8 := c.slots.getD page 0

def hash (c : Checkpoint) (page : Nat) : UInt64 := c.hashes.getD page 0

theorem slot_le (c : Checkpoint) (page : Nat) : c.slot page ≤ 1 := by
  rw [slot, List.getD_eq_getElem?_getD]
  cases found : c.slots[page]? with
  | none => exact UInt8.le_iff_toNat_le.mpr (Nat.zero_le 1)
  | some slot => exact c.slots_le slot (List.mem_of_getElem? found)

theorem new_parts {env : Target} (c : Checkpoint) (addressable : env.Addressable c.pages) :
    new env c.slots c.hashes = .ok c := by
  rw [new, dif_pos c.paired]
  have counted : validatePageCount env c.slots.length = .ok () := validatePageCount_eq_ok.mpr addressable
  have low : (c.slots.all fun slot => decide (slot ≤ 1)) = true :=
    List.all_eq_true.mpr fun slot member => decide_eq_true (c.slots_le slot member)
  rw [counted]
  exact dif_pos low

end Checkpoint

structure Manifest where
  current : Checkpoint
  previous : Option Checkpoint
  deriving DecidableEq, Repr

namespace Manifest

def new (env : Target) (current : Checkpoint) (previous : Option Checkpoint) : Except ProviderFailure Manifest := do
  validatePageCount env current.pages
  previous.forM fun previous => validatePageCount env previous.pages
  return ⟨current, previous⟩

def empty : Manifest := ⟨Checkpoint.empty, none⟩

end Manifest

/-- One page of `encode_checkpoint`. -/
def encodeEntry (entry : UInt8 × UInt64) : List UInt8 := entry.1 :: toLE 8 entry.2.toNat

def decodeSlot (entry : List UInt8) : UInt8 := entry.headD 0

def decodeHash (entry : List UInt8) : UInt64 := UInt64.ofNat (ofLE entry.tail)

def encodeCheckpoint (c : Checkpoint) : List UInt8 := (c.slots.zip c.hashes).flatMap encodeEntry

/-- `decode_checkpoint`, with the offset behind the entries it reads. -/
def decodeCheckpoint (env : Target) (bytes : List UInt8) (offset pages : Nat) :
    Except ProviderFailure (Checkpoint × Nat) := do
  let entries := chunks entrySize pages (bytes.drop offset)
  let checkpoint ← Checkpoint.new env (entries.map decodeSlot) (entries.map decodeHash)
  return (checkpoint, offset + entrySize * pages)

def decodeCount (bytes : List UInt8) (offset : Nat) : Nat := ofLE ((bytes.drop offset).take 8)

namespace Manifest

/-- `encode`. Its length checks pass for every count `validate_page_count` lets through. -/
def encode (m : Manifest) : List UInt8 :=
  magic ++ toLE 8 m.current.pages ++ toLE 8 (m.previous.elim noPreviousCheckpoint Checkpoint.pages) ++
    encodeCheckpoint m.current ++ m.previous.elim [] encodeCheckpoint

/-- The check of the second count of a header. -/
def validatePreviousCount (env : Target) (count : Nat) : Except ProviderFailure Unit :=
  if count = noPreviousCheckpoint then .ok () else validatePageCount env count

/-- The previous checkpoint of a manifest with `count` in its header. -/
def decodePrevious (env : Target) (bytes : List UInt8) (offset count : Nat) :
    Except ProviderFailure (Option Checkpoint) :=
  if count = noPreviousCheckpoint then .ok none
  else do
    let decoded ← decodeCheckpoint env bytes offset count
    return some decoded.1

def decode (env : Target) (bytes : List UInt8) : Except ProviderFailure Manifest :=
  if bytes.length < headerSize ∨ bytes.take magic.length ≠ magic then
    .error (invalidManifest "manifest header is invalid")
  else do
    let currentCount := decodeCount bytes 8
    let previousCount := decodeCount bytes 16
    validatePageCount env currentCount
    validatePreviousCount env previousCount
    let entries := currentCount + if previousCount = noPreviousCheckpoint then 0 else previousCount
    if bytes.length ≠ headerSize + entries * entrySize then
      throw (invalidManifest "manifest length does not match page count")
    let decoded ← decodeCheckpoint env bytes headerSize currentCount
    let previous ← decodePrevious env bytes decoded.2 previousCount
    Manifest.new env decoded.1 previous

end Manifest

/-! ## What is encoded is decoded -/

theorem encodeEntry_length (entry : UInt8 × UInt64) : (encodeEntry entry).length = entrySize := by
  rw [encodeEntry, List.length_cons, toLE_length, entrySize]

theorem decodeSlot_encodeEntry (entry : UInt8 × UInt64) : decodeSlot (encodeEntry entry) = entry.1 := rfl

theorem decodeHash_encodeEntry (entry : UInt8 × UInt64) : decodeHash (encodeEntry entry) = entry.2 := by
  have bound := entry.2.toNat_lt
  rw [decodeHash, encodeEntry, List.tail_cons, ofLE_toLE_of_lt (by omega), UInt64.ofNat_toNat]

theorem entries_length (c : Checkpoint) : (c.slots.zip c.hashes).length = c.pages := by
  rw [List.length_zip, ← c.paired, Nat.min_self, Checkpoint.pages]

theorem encodeCheckpoint_length (c : Checkpoint) : (encodeCheckpoint c).length = entrySize * c.pages := by
  rw [encodeCheckpoint, flatMap_length encodeEntry_length, entries_length]

theorem decodeCount_append {front : List UInt8} {offset count : Nat} (width : front.length = offset)
    (bound : count < 18446744073709551616) (rest : List UInt8) :
    decodeCount (front ++ (toLE 8 count ++ rest)) offset = count := by
  rw [decodeCount, List.drop_left' width, List.take_left' (toLE_length 8 count), ofLE_toLE_of_lt (by omega)]

theorem decodeCheckpoint_append {env : Target} {front : List UInt8} {offset : Nat} {c : Checkpoint}
    (width : front.length = offset) (addressable : env.Addressable c.pages) (rest : List UInt8) :
    decodeCheckpoint env (front ++ (encodeCheckpoint c ++ rest)) offset c.pages =
      .ok (c, offset + entrySize * c.pages) := by
  have blocks : chunks entrySize c.pages (encodeCheckpoint c ++ rest) = (c.slots.zip c.hashes).map encodeEntry := by
    rw [← entries_length c, encodeCheckpoint, chunks_flatMap encodeEntry_length]
  have slots : ((c.slots.zip c.hashes).map encodeEntry).map decodeSlot = c.slots := by
    rw [List.map_map]
    exact List.map_fst_zip (Nat.le_of_eq c.paired)
  have hashes : ((c.slots.zip c.hashes).map encodeEntry).map decodeHash = c.hashes := by
    have each : decodeHash ∘ encodeEntry = Prod.snd := funext decodeHash_encodeEntry
    rw [List.map_map, each]
    exact List.map_snd_zip (Nat.le_of_eq c.paired.symm)
  rw [decodeCheckpoint, List.drop_left' width, blocks, slots, hashes, Checkpoint.new_parts c addressable]
  rfl

namespace Manifest

/-- Both page counts of the manifest can be addressed. -/
structure Addressable (env : Target) (m : Manifest) : Prop where
  current : env.Addressable m.current.pages
  previous : ∀ c ∈ m.previous, env.Addressable c.pages

theorem new_eq_ok {env : Target} {current : Checkpoint} {previous : Option Checkpoint} {m : Manifest} :
    new env current previous = .ok m ↔ m = ⟨current, previous⟩ ∧ m.Addressable env := by
  rw [new, bind_eq_ok]
  constructor
  · rintro ⟨_, counted, rest⟩
    obtain ⟨_, counted', made⟩ := bind_eq_ok.mp rest
    cases made
    refine ⟨rfl, validatePageCount_eq_ok.mp counted, fun c here => ?_⟩
    cases here
    exact validatePageCount_eq_ok.mp counted'
  · rintro ⟨rfl, addressable⟩
    refine ⟨(), validatePageCount_eq_ok.mpr addressable.current, bind_eq_ok.mpr ⟨(), ?_, rfl⟩⟩
    cases previous with
    | none => rfl
    | some c => exact validatePageCount_eq_ok.mpr (addressable.previous c rfl)

/-- The page count of the previous checkpoint in the header. -/
def previousCount (m : Manifest) : Nat := m.previous.elim noPreviousCheckpoint Checkpoint.pages

/-- The number of entries of the previous checkpoint. -/
def previousEntries (m : Manifest) : Nat := m.previous.elim 0 Checkpoint.pages

theorem encode_eq (m : Manifest) :
    m.encode = magic ++ (toLE 8 m.current.pages ++ (toLE 8 m.previousCount ++
      (encodeCheckpoint m.current ++ m.previous.elim [] encodeCheckpoint))) := by
  rw [encode, List.append_assoc, List.append_assoc, List.append_assoc]
  rfl

theorem encode_length (m : Manifest) :
    m.encode.length = headerSize + (m.current.pages + m.previousEntries) * entrySize := by
  rw [encode_eq, previousEntries]
  simp only [List.length_append, toLE_length, encodeCheckpoint_length, headerSize, entrySize, magic]
  cases m.previous with
  | none =>
      simp only [Option.elim_none, List.length_nil, List.length_cons]
      omega
  | some c =>
      simp only [Option.elim_some, encodeCheckpoint_length, List.length_nil, List.length_cons, entrySize]
      omega

section RoundTrip
variable {env : Target} {m : Manifest} (addressable : m.Addressable env)

include addressable in
theorem previousCount_lt : m.previousCount < 18446744073709551616 := by
  rw [previousCount]
  cases here : m.previous with
  | none => decide
  | some c =>
      have bound := (addressable.previous c here).1
      rw [maxPages] at bound
      rw [Option.elim_some]
      omega

include addressable in
theorem validatePreviousCount_previousCount : validatePreviousCount env m.previousCount = .ok () := by
  rw [validatePreviousCount, previousCount]
  cases here : m.previous with
  | none => exact if_pos rfl
  | some c =>
      have counted := validatePageCount_eq_ok.mpr (addressable.previous c here)
      rw [Option.elim_some, counted]
      exact ite_self _

include addressable in
theorem previousEntries_eq :
    (if m.previousCount = noPreviousCheckpoint then 0 else m.previousCount) = m.previousEntries := by
  rw [previousCount, previousEntries]
  cases here : m.previous with
  | none => exact if_pos rfl
  | some c =>
      have bound := (addressable.previous c here).1
      rw [maxPages] at bound
      rw [Option.elim_some, Option.elim_some, if_neg]
      rw [noPreviousCheckpoint]
      omega

include addressable in
theorem decodePrevious_encode : decodePrevious env m.encode (headerSize + entrySize * m.current.pages) m.previousCount =
    .ok m.previous := by
  have front : (magic ++ toLE 8 m.current.pages ++ toLE 8 m.previousCount ++ encodeCheckpoint m.current).length =
      headerSize + entrySize * m.current.pages := by
    simp only [List.length_append, toLE_length, encodeCheckpoint_length]
    rfl
  rw [decodePrevious]
  cases here : m.previous with
  | none =>
      rw [previousCount, here]
      exact if_pos rfl
  | some c =>
      have counted : m.previousCount = c.pages := by rw [previousCount, here, Option.elim_some]
      have bytes : m.encode = magic ++ toLE 8 m.current.pages ++ toLE 8 m.previousCount ++ encodeCheckpoint m.current ++
          (encodeCheckpoint c ++ []) := by
        rw [encode, counted, here, List.append_nil]
        rfl
      have bound := (addressable.previous c here).1
      rw [maxPages] at bound
      have decoded := decodeCheckpoint_append front (addressable.previous c here) []
      rw [if_neg (by rw [counted, noPreviousCheckpoint]; omega), bytes, counted]
      rw [counted] at decoded
      rw [decoded]
      rfl

include addressable in
/-- The round trip of a manifest. -/
theorem decode_encode : decode env m.encode = .ok m := by
  have counted := addressable.current.1
  rw [maxPages] at counted
  have currentCount : decodeCount m.encode 8 = m.current.pages := by
    rw [encode_eq]
    exact decodeCount_append rfl (by omega) _
  have previousCount : decodeCount m.encode 16 = m.previousCount := by
    rw [encode_eq, ← List.append_assoc]
    apply decodeCount_append _ (previousCount_lt addressable)
    rw [List.length_append, toLE_length]
    rfl
  have header : ¬(m.encode.length < headerSize ∨ m.encode.take magic.length ≠ magic) := by
    rintro (short | other)
    · rw [encode_length] at short
      omega
    · exact other (by rw [encode_eq, List.take_left' rfl])
  have current : decodeCheckpoint env m.encode headerSize m.current.pages =
      .ok (m.current, headerSize + entrySize * m.current.pages) := by
    have front : (magic ++ toLE 8 m.current.pages ++ toLE 8 m.previousCount).length = headerSize := by
      simp only [List.length_append, toLE_length]
      rfl
    rw [encode_eq, ← List.append_assoc, ← List.append_assoc]
    exact decodeCheckpoint_append front addressable.current _
  have whole : ¬m.encode.length ≠ headerSize + (m.current.pages + m.previousEntries) * entrySize :=
    fun other => other (encode_length m)
  rw [decode, if_neg header]
  simp only [currentCount, previousCount, previousEntries_eq addressable]
  rw [validatePageCount_eq_ok.mpr addressable.current, validatePreviousCount_previousCount addressable, if_neg whole,
    current]
  apply bind_eq_ok.mpr ⟨(), rfl, bind_eq_ok.mpr ⟨(), rfl, bind_eq_ok.mpr ⟨_, rfl, ?_⟩⟩⟩
  apply bind_eq_ok.mpr ⟨_, decodePrevious_encode addressable, ?_⟩
  exact new_eq_ok.mpr ⟨rfl, addressable⟩

end RoundTrip

/-- A manifest that is read has page counts that can be addressed. -/
theorem decode_addressable {env : Target} {bytes : List UInt8} {m : Manifest} (decoded : decode env bytes = .ok m) :
    m.Addressable env := by
  rw [decode] at decoded
  split at decoded
  · cases decoded
  · obtain ⟨_, _, decoded⟩ := bind_eq_ok.mp decoded
    obtain ⟨_, _, decoded⟩ := bind_eq_ok.mp decoded
    by_cases other : bytes.length ≠ headerSize + (decodeCount bytes 8 +
        if decodeCount bytes 16 = noPreviousCheckpoint then 0 else decodeCount bytes 16) * entrySize
    · rw [if_pos other] at decoded
      cases decoded
    · rw [if_neg other] at decoded
      obtain ⟨current, _, decoded⟩ := bind_eq_ok.mp decoded
      obtain ⟨previous, _, made⟩ := bind_eq_ok.mp decoded
      exact (new_eq_ok.mp made).2

end Manifest
end WasmDbms.KeyValue
