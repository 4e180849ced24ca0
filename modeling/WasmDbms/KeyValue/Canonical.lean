import WasmDbms.KeyValue.Store

/-!
# One encoding for each manifest, one key for each place

The bytes a manifest was read from are its encoding, and no byte is read past the
end of them. The keys of a database determine its name and the place they stand for.
-/
namespace WasmDbms.KeyValue
open ByteString Result

/-! ## The encoding -/

theorem encodeEntry_decode {entry : List UInt8} (width : entry.length = entrySize) :
    encodeEntry (decodeSlot entry, decodeHash entry) = entry := by
  cases entry with
  | nil => cases width
  | cons slot hash =>
      have eight : hash.length = 8 := Nat.succ.inj width
      have bound := ofLE_lt hash
      rw [eight] at bound
      have back := toLE_ofLE hash
      rw [eight] at back
      rw [decodeSlot, decodeHash, encodeEntry, List.headD_cons, List.tail_cons, UInt64.toNat_ofNat',
        Nat.mod_eq_of_lt (lt_of_lt_of_eq bound (by decide)), back]

theorem Checkpoint.new_eq_ok {env : Target} {slots : List UInt8} {hashes : List UInt64} {c : Checkpoint}
    (made : Checkpoint.new env slots hashes = .ok c) : c.slots = slots ∧ c.hashes = hashes := by
  unfold Checkpoint.new at made
  split at made
  · obtain ⟨_, _, made⟩ := bind_eq_ok.mp made
    split at made
    · cases made
      exact ⟨rfl, rfl⟩
    · cases made
  · cases made

/-- The entries of a checkpoint that was read are the bytes it was read from. -/
theorem encodeCheckpoint_decode {env : Target} {bytes : List UInt8} {offset pages stop : Nat} {c : Checkpoint}
    (long : offset + entrySize * pages ≤ bytes.length) (read : decodeCheckpoint env bytes offset pages = .ok (c, stop)) :
    encodeCheckpoint c = (bytes.drop offset).take (entrySize * pages) ∧ c.pages = pages ∧
      stop = offset + entrySize * pages := by
  obtain ⟨checkpoint, made, same⟩ := bind_eq_ok.mp read
  cases same
  obtain ⟨slots, hashes⟩ := Checkpoint.new_eq_ok made
  have wide : entrySize * pages ≤ (bytes.drop offset).length := by
    rw [List.length_drop]
    omega
  refine ⟨?_, ?_, rfl⟩
  · have entries : (c.slots.zip c.hashes).map encodeEntry = chunks entrySize pages (bytes.drop offset) := by
      rw [slots, hashes, List.zip_map', List.map_map]
      refine (List.map_congr_left fun entry member => ?_).trans (List.map_id _)
      exact encodeEntry_decode (length_of_mem_chunks wide member)
    rw [encodeCheckpoint, List.flatMap_def, entries, chunks_flatten]
  · rw [Checkpoint.pages, slots, List.length_map, chunks_length]

/-- A count that was read, written again. -/
theorem toLE_decodeCount {bytes : List UInt8} {offset : Nat} (long : offset + 8 ≤ bytes.length) :
    toLE 8 (decodeCount bytes offset) = (bytes.drop offset).take 8 := by
  have eight : ((bytes.drop offset).take 8).length = 8 := by
    rw [List.length_take, List.length_drop]
    omega
  have back := toLE_ofLE ((bytes.drop offset).take 8)
  rwa [eight] at back

theorem take_append_drop_take (bytes : List UInt8) (offset width : Nat) :
    bytes.take offset ++ (bytes.drop offset).take width = bytes.take (offset + width) := List.take_add.symm

namespace Manifest

/-- What a manifest is read from. -/
theorem decode_parts {env : Target} {bytes : List UInt8} {m : Manifest} (decoded : decode env bytes = .ok m) :
    headerSize ≤ bytes.length ∧ bytes.take 8 = magic ∧
      bytes.length = headerSize + (decodeCount bytes 8 +
        if decodeCount bytes 16 = noPreviousCheckpoint then 0 else decodeCount bytes 16) * entrySize ∧
      ∃ stop, decodeCheckpoint env bytes headerSize (decodeCount bytes 8) = .ok (m.current, stop) ∧
        decodePrevious env bytes stop (decodeCount bytes 16) = .ok m.previous := by
  rw [decode] at decoded
  split at decoded
  · cases decoded
  · rename_i header
    obtain ⟨long, front⟩ := not_or.mp header
    obtain ⟨_, _, decoded⟩ := bind_eq_ok.mp decoded
    obtain ⟨_, _, decoded⟩ := bind_eq_ok.mp decoded
    by_cases other : bytes.length ≠ headerSize + (decodeCount bytes 8 +
        if decodeCount bytes 16 = noPreviousCheckpoint then 0 else decodeCount bytes 16) * entrySize
    · rw [if_pos other] at decoded
      cases decoded
    · rw [if_neg other] at decoded
      obtain ⟨⟨current, stop⟩, read, decoded⟩ := bind_eq_ok.mp decoded
      obtain ⟨previous, read', made⟩ := bind_eq_ok.mp decoded
      obtain ⟨rfl, _⟩ := new_eq_ok.mp made
      exact ⟨Nat.le_of_not_lt long, Classical.not_not.mp front, Classical.not_not.mp other, stop, read, read'⟩

/-- Only the encoding of a manifest is read as the manifest. -/
theorem encode_decode {env : Target} {bytes : List UInt8} {m : Manifest} (decoded : decode env bytes = .ok m) :
    m.encode = bytes := by
  obtain ⟨long, front, length, stop, read, read'⟩ := decode_parts decoded
  rw [headerSize] at long
  have current := encodeCheckpoint_decode (by rw [length, Nat.add_mul, Nat.mul_comm entrySize]; omega) read
  obtain ⟨bytes_eq, pages, rfl⟩ := current
  have header : magic ++ toLE 8 m.current.pages ++ toLE 8 (decodeCount bytes 16) = bytes.take headerSize := by
    rw [pages, toLE_decodeCount (by omega), toLE_decodeCount (by omega), ← front, take_append_drop_take,
      take_append_drop_take]
    rfl
  rw [encode_eq, ← List.append_assoc, ← List.append_assoc]
  by_cases absent : decodeCount bytes 16 = noPreviousCheckpoint
  · rw [decodePrevious, if_pos absent] at read'
    have none_ : m.previous = none := (Except.ok.inj read').symm
    rw [if_pos absent, Nat.add_zero, Nat.mul_comm] at length
    rw [previousCount, none_, Option.elim_none, Option.elim_none, ← absent, header, bytes_eq, List.append_nil,
      take_append_drop_take, List.take_of_length_le (Nat.le_of_eq length)]
  · rw [decodePrevious, if_neg absent] at read'
    obtain ⟨⟨previous, stop⟩, checkpoint, same⟩ := bind_eq_ok.mp read'
    have some_ : m.previous = some previous := (Except.ok.inj same).symm
    rw [if_neg absent] at length
    have whole : bytes.length = headerSize + entrySize * decodeCount bytes 8 + entrySize * decodeCount bytes 16 := by
      rw [length, Nat.add_mul, Nat.mul_comm entrySize, Nat.mul_comm entrySize, Nat.add_assoc]
    obtain ⟨previous_eq, previousPages, _⟩ := encodeCheckpoint_decode (Nat.le_of_eq whole.symm) checkpoint
    rw [previousCount, some_, Option.elim_some, Option.elim_some, previousPages, header, bytes_eq, previous_eq,
      ← List.append_assoc, take_append_drop_take, take_append_drop_take, List.take_of_length_le (Nat.le_of_eq whole)]

end Manifest

/-! ## The slices -/

/-- `bytes[start..stop]`, which panics outside the bytes. -/
def byteSlice (bytes : List UInt8) (start stop : Nat) : Option (List UInt8) :=
  if start ≤ stop ∧ stop ≤ bytes.length then some ((bytes.drop start).take (stop - start)) else none

theorem byteSlice_some {bytes : List UInt8} {start width : Nat} (inside : start + width ≤ bytes.length) :
    byteSlice bytes start (start + width) = some ((bytes.drop start).take width) := by
  rw [byteSlice, if_pos ⟨Nat.le_add_right start width, inside⟩, Nat.add_sub_cancel_left]

/-- `decode_count`. -/
def decodeCountSliced (bytes : List UInt8) (offset : Nat) : Option Nat := (byteSlice bytes offset (offset + 8)).map ofLE

/-- The loop of `decode_checkpoint`, from a position of its cursor on. -/
def entriesSliced (bytes : List UInt8) : Nat → Nat → Option (List (UInt8 × UInt64))
  | 0, _ => some []
  | pages + 1, cursor => do
      let slot ← bytes[cursor]?
      let hash ← byteSlice bytes (cursor + 1) (cursor + 1 + 8)
      let rest ← entriesSliced bytes pages (cursor + 1 + 8)
      return (slot, UInt64.ofNat (ofLE hash)) :: rest

/-- `decode_checkpoint`, without a result where a slice panics. -/
def decodeCheckpointSliced (env : Target) (bytes : List UInt8) (offset pages : Nat) :
    Option (Except ProviderFailure (Checkpoint × Nat)) := do
  let entries ← entriesSliced bytes pages offset
  return (Checkpoint.new env (entries.map Prod.fst) (entries.map Prod.snd)).map fun c => (c, offset + entrySize * pages)

def decodePreviousSliced (env : Target) (bytes : List UInt8) (offset count : Nat) :
    Option (Except ProviderFailure (Option Checkpoint)) :=
  if count = noPreviousCheckpoint then some (.ok none)
  else do
    let decoded ← decodeCheckpointSliced env bytes offset count
    return decoded.map fun decoded => some decoded.1

/-- The two counts of a header that passed its checks. -/
def validateCounts (env : Target) (bytes : List UInt8) (currentCount previousCount : Nat) : Except ProviderFailure Unit := do
  validatePageCount env currentCount
  Manifest.validatePreviousCount env previousCount
  let entries := currentCount + if previousCount = noPreviousCheckpoint then 0 else previousCount
  if bytes.length ≠ headerSize + entries * entrySize then
    throw (invalidManifest "manifest length does not match page count")

/-- `Manifest::decode`, without a result where a slice panics. -/
def Manifest.decodeSliced (env : Target) (bytes : List UInt8) : Option (Except ProviderFailure Manifest) :=
  if bytes.length < headerSize then some (.error (invalidManifest "manifest header is invalid"))
  else do
    let front ← byteSlice bytes 0 magic.length
    if front ≠ magic then some (.error (invalidManifest "manifest header is invalid"))
    else do
      let currentCount ← decodeCountSliced bytes 8
      let previousCount ← decodeCountSliced bytes 16
      match validateCounts env bytes currentCount previousCount with
      | .error e => return .error e
      | .ok () => do
          let decoded ← decodeCheckpointSliced env bytes headerSize currentCount
          match decoded with
          | .error e => return .error e
          | .ok (current, offset) => do
              let previous ← decodePreviousSliced env bytes offset previousCount
              return previous.bind fun previous => Manifest.new env current previous

theorem entriesSliced_eq {bytes : List UInt8} {pages cursor : Nat} (long : cursor + entrySize * pages ≤ bytes.length) :
    entriesSliced bytes pages cursor =
      some ((chunks entrySize pages (bytes.drop cursor)).map fun entry => (decodeSlot entry, decodeHash entry)) := by
  induction pages generalizing cursor with
  | zero => rfl
  | succ pages ih =>
      rw [entrySize, Nat.mul_succ] at long
      have here : cursor < bytes.length := by omega
      have first : bytes.drop cursor = bytes[cursor] :: bytes.drop (cursor + 1) := List.drop_eq_getElem_cons here
      have hash : byteSlice bytes (cursor + 1) (cursor + 1 + 8) = some ((bytes.drop (cursor + 1)).take 8) :=
        byteSlice_some (by omega)
      have rest := @ih (cursor + 1 + 8) (by rw [entrySize]; omega)
      rw [entriesSliced, List.getElem?_eq_getElem here, hash, rest, chunks]
      simp only [Option.bind_eq_bind, Option.bind_some, Option.pure_def, List.map_cons, List.drop_drop]
      congr 2
      · rw [first]
        rfl

/-- Enough bytes for the entries leave no slice outside. -/
theorem decodeCheckpointSliced_eq {env : Target} {bytes : List UInt8} {offset pages : Nat}
    (long : offset + entrySize * pages ≤ bytes.length) :
    decodeCheckpointSliced env bytes offset pages = some (decodeCheckpoint env bytes offset pages) := by
  rw [decodeCheckpointSliced, entriesSliced_eq long, decodeCheckpoint]
  simp only [Option.bind_eq_bind, Option.bind_some, Option.pure_def, List.map_map]
  rfl

theorem decodePreviousSliced_eq {env : Target} {bytes : List UInt8} {offset count : Nat}
    (long : offset + entrySize * (if count = noPreviousCheckpoint then 0 else count) ≤ bytes.length) :
    decodePreviousSliced env bytes offset count = some (Manifest.decodePrevious env bytes offset count) := by
  unfold decodePreviousSliced Manifest.decodePrevious
  split
  · rfl
  · rename_i present
    rw [if_neg present] at long
    rw [decodeCheckpointSliced_eq long]
    cases decodeCheckpoint env bytes offset count <;> rfl

theorem validateCounts_ok {env : Target} {bytes : List UInt8} {currentCount previousCount : Nat}
    (ok : validateCounts env bytes currentCount previousCount = .ok ()) :
    bytes.length = headerSize + entrySize * currentCount +
      entrySize * (if previousCount = noPreviousCheckpoint then 0 else previousCount) := by
  obtain ⟨_, _, ok⟩ := bind_eq_ok.mp ok
  obtain ⟨_, _, ok⟩ := bind_eq_ok.mp ok
  by_cases other : bytes.length ≠ headerSize + (currentCount +
      if previousCount = noPreviousCheckpoint then 0 else previousCount) * entrySize
  · rw [if_pos other] at ok
    cases ok
  · rw [Classical.not_not.mp other, Nat.add_mul, Nat.mul_comm currentCount, Nat.mul_comm _ entrySize, Nat.add_assoc]

/-- The checks of the counts come before everything else. -/
theorem validateCounts_bind {env : Target} {bytes : List UInt8} {currentCount previousCount : Nat}
    (rest : Except ProviderFailure Manifest) :
    (validateCounts env bytes currentCount previousCount >>= fun _ => rest) = (do
      validatePageCount env currentCount
      Manifest.validatePreviousCount env previousCount
      if bytes.length ≠ headerSize + (currentCount +
          if previousCount = noPreviousCheckpoint then 0 else previousCount) * entrySize then
        throw (invalidManifest "manifest length does not match page count")
      rest) := by
  unfold validateCounts
  simp only [bind_assoc]
  congr 1
  funext _
  congr 1
  funext _
  generalize headerSize + (currentCount + if previousCount = noPreviousCheckpoint then 0 else previousCount) * entrySize =
    expected
  split <;> rfl

/-- The bytes of a manifest are never read outside. -/
theorem Manifest.decodeSliced_eq (env : Target) (bytes : List UInt8) :
    Manifest.decodeSliced env bytes = some (Manifest.decode env bytes) := by
  unfold Manifest.decodeSliced Manifest.decode
  by_cases short : bytes.length < headerSize
  · rw [if_pos short, if_pos (.inl short)]
  · have long : 24 ≤ bytes.length := Nat.le_of_not_lt short
    have front : byteSlice bytes 0 magic.length = some (bytes.take magic.length) := by
      have inside : 0 + magic.length ≤ bytes.length := le_trans (by decide) long
      have read := byteSlice_some inside
      rwa [Nat.zero_add] at read
    have count : ∀ offset, offset + 8 ≤ 24 → decodeCountSliced bytes offset = some (decodeCount bytes offset) := by
      intro offset inside
      rw [decodeCountSliced, byteSlice_some (le_trans inside long)]
      rfl
    rw [if_neg short, front]
    simp only [Option.bind_eq_bind, Option.bind_some]
    by_cases other : bytes.take magic.length ≠ magic
    · rw [if_pos other, if_pos (.inr other)]
    · rw [if_neg other, if_neg (not_or.mpr ⟨short, other⟩), count 8 (by decide), count 16 (by decide)]
      simp only [Option.bind_some]
      refine Eq.trans ?_ (congrArg some (validateCounts_bind _))
      cases counts : validateCounts env bytes (decodeCount bytes 8) (decodeCount bytes 16) with
      | error e => rfl
      | ok =>
          have length := validateCounts_ok counts
          dsimp only
          rw [decodeCheckpointSliced_eq (by omega)]
          simp only [Option.bind_some]
          cases read : decodeCheckpoint env bytes headerSize (decodeCount bytes 8) with
          | error e => rfl
          | ok decoded =>
              obtain ⟨current, offset⟩ := decoded
              obtain rfl := (encodeCheckpoint_decode (by omega) read).2.2
              dsimp only
              rw [decodePreviousSliced_eq (Nat.le_of_eq length.symm)]
              rfl

/-! ## The keys -/

/-- What a database stores a value for. -/
inductive Place where
  | head
  | page (number : Nat) (slot : UInt8)
  deriving DecidableEq, Repr

/-- The key of a place of the database with this name. -/
def Place.key (name : String) : Place → Except ProviderFailure String
  | .head => do
      let keyspace ← keyspaceOf name
      return headKey keyspace
  | .page number slot => do
      let keyspace ← keyspaceOf name
      pageKey keyspace number slot

/-- The two hexadecimal digits of a byte. -/
def hexByte (byte : UInt8) : List Char := [hexDigit (byte.toNat / 16), hexDigit (byte.toNat % 16)]

theorem hexDigit_injective : ∀ i j : Fin 16, hexDigit i = hexDigit j → i = j := by decide

theorem hexDigit_ne_slash : ∀ i : Fin 16, hexDigit i ≠ '/' := by decide

theorem hexByte_inj {a b : UInt8} (same : hexByte a = hexByte b) : a = b := by
  obtain ⟨high, low, _⟩ : hexDigit (a.toNat / 16) = hexDigit (b.toNat / 16) ∧
      hexDigit (a.toNat % 16) = hexDigit (b.toNat % 16) ∧ True := by simpa [hexByte] using same
  have wide := a.toNat_lt
  have wide' := b.toNat_lt
  have high' := congrArg Fin.val (hexDigit_injective ⟨a.toNat / 16, by omega⟩ ⟨b.toNat / 16, by omega⟩ high)
  have low' := congrArg Fin.val (hexDigit_injective ⟨a.toNat % 16, by omega⟩ ⟨b.toNat % 16, by omega⟩ low)
  exact UInt8.toNat_inj.mp (by dsimp only at high' low'; omega)

theorem flatMap_hexByte_injective {a b : List UInt8} (same : a.flatMap hexByte = b.flatMap hexByte) : a = b := by
  induction a generalizing b with
  | nil =>
      cases b with
      | nil => rfl
      | cons y b => cases same
  | cons x a ih =>
      cases b with
      | nil => cases same
      | cons y b =>
          rw [List.flatMap_cons, List.flatMap_cons] at same
          obtain ⟨first, rest⟩ := List.append_inj same rfl
          rw [hexByte_inj first, ih rest]

theorem slash_notMem_hex (bytes : List UInt8) : '/' ∉ bytes.flatMap hexByte := by
  intro member
  obtain ⟨byte, _, digit⟩ := List.mem_flatMap.mp member
  have wide := byte.toNat_lt
  rcases List.mem_cons.mp digit with high | low
  · exact hexDigit_ne_slash ⟨byte.toNat / 16, by omega⟩ high.symm
  · exact hexDigit_ne_slash ⟨byte.toNat % 16, by omega⟩ (List.mem_singleton.mp low).symm

theorem keyspaceOf_eq_ok {name keyspace : String} (made : keyspaceOf name = .ok keyspace) :
    keyspace.toList = "wasm-dbms/".toList ++ name.toUTF8.data.toList.flatMap hexByte := by
  unfold keyspaceOf at made
  split at made
  · cases made
  · cases made
    rw [String.toList_append]
    exact congrArg (_ ++ ·) String.toList_ofList

/-- What stands before the first slash. -/
theorem before_slash {l l' r r' : List Char} (none : '/' ∉ l) (none' : '/' ∉ l') (same : l ++ '/' :: r = l' ++ '/' :: r') :
    l = l' := by
  have before : ∀ {l r : List Char}, '/' ∉ l → (l ++ '/' :: r).takeWhile (· ≠ '/') = l := by
    intro l r none
    have plain : ∀ c ∈ l, decide (c ≠ '/') = true := fun c member => decide_eq_true (ne_of_mem_of_not_mem member none)
    rw [List.takeWhile_append_of_pos plain, List.takeWhile_cons_of_neg (by decide), List.append_nil]
  rw [← before none, same, before none']

/-- Every key goes on with a slash behind the keyspace. -/
theorem Place.key_eq_ok {name key : String} {place : Place} (made : place.key name = .ok key) :
    ∃ keyspace rest, keyspaceOf name = .ok keyspace ∧ key.toList = keyspace.toList ++ '/' :: rest ∧
      (place = .head ∧ key = headKey keyspace ∨
        ∃ number slot, place = .page number slot ∧ key = pageKeyText keyspace number slot) := by
  cases place with
  | head =>
      obtain ⟨keyspace, spaced, same⟩ := bind_eq_ok.mp made
      cases same
      exact ⟨keyspace, "head".toList, spaced, String.toList_append .., .inl ⟨rfl, rfl⟩⟩
  | page number slot =>
      obtain ⟨keyspace, spaced, made⟩ := bind_eq_ok.mp made
      unfold pageKey at made
      split at made
      · cases made
      · cases made
        exact ⟨keyspace, _, spaced, pageKeyText_toList, .inr ⟨number, slot, rfl, rfl⟩⟩

/-- A key determines the database and the place. -/
theorem Place.key_injective {name name' key : String} {place place' : Place} (made : place.key name = .ok key)
    (made' : place'.key name' = .ok key) : name = name' ∧ place = place' := by
  obtain ⟨keyspace, rest, spaced, chars, which⟩ := Place.key_eq_ok made
  obtain ⟨keyspace', rest', spaced', chars', which'⟩ := Place.key_eq_ok made'
  have same := chars.symm.trans chars'
  rw [keyspaceOf_eq_ok spaced, keyspaceOf_eq_ok spaced', List.append_assoc, List.append_assoc,
    List.append_cancel_left_eq] at same
  have bytes := flatMap_hexByte_injective (before_slash (slash_notMem_hex _) (slash_notMem_hex _) same)
  have names : name = name' := String.toByteArray_inj.mp (ByteArray.ext (Array.toList_inj.mp bytes))
  subst names
  obtain rfl : keyspace = keyspace' := Except.ok.inj (spaced.symm.trans spaced')
  refine ⟨rfl, ?_⟩
  rcases which with ⟨rfl, head⟩ | ⟨number, slot, rfl, page⟩
  · rcases which' with ⟨rfl, _⟩ | ⟨number', slot', rfl, page'⟩
    · rfl
    · exact absurd (page'.symm.trans head) pageKeyText_ne_headKey
  · rcases which' with ⟨rfl, head'⟩ | ⟨number', slot', rfl, page'⟩
    · exact absurd (page.symm.trans head') pageKeyText_ne_headKey
    · obtain ⟨rfl, rfl⟩ := pageKeyText_injective (page.symm.trans page')
      rfl

/-- A manifest whose page counts can be addressed is read back from its encoding; reading never leaves the bytes, and
reads a manifest only from its own encoding; and no two places share a key. -/
theorem manifests_and_keys (env : Target) :
    (∀ m : Manifest, m.Addressable env → Manifest.decode env m.encode = .ok m) ∧
    (∀ bytes, Manifest.decodeSliced env bytes = some (Manifest.decode env bytes)) ∧
    (∀ bytes m, Manifest.decode env bytes = .ok m → m.encode = bytes) ∧
    ∀ (name name' key : String) (place place' : Place), place.key name = .ok key → place'.key name' = .ok key →
      name = name' ∧ place = place' :=
  ⟨fun _ => Manifest.decode_encode, Manifest.decodeSliced_eq env, fun _ _ => Manifest.encode_decode,
    fun _ _ _ _ _ => Place.key_injective⟩

/-- The manifest of a new store, on a target with an `isize` of 32 bits. -/
theorem empty_manifest_read_back :
    Manifest.decode ⟨2 ^ 31 - 1, fun _ => 0⟩ Manifest.empty.encode = .ok Manifest.empty := by
  have addressable : Manifest.empty.Addressable ⟨2 ^ 31 - 1, fun _ => 0⟩ := by
    refine ⟨⟨Nat.zero_le _, ?_⟩, fun c none_ => by cases none_⟩
    have pages : Manifest.empty.current.pages = 0 := rfl
    rw [pages, Nat.zero_mul]
    exact Nat.zero_le _
  exact (manifests_and_keys ⟨2 ^ 31 - 1, fun _ => 0⟩).1 Manifest.empty addressable

end WasmDbms.KeyValue
