import Mathlib.Data.List.Basic
import Mathlib.Logic.Function.Basic
import WasmDbms.KeyValue.Manifest

/-!
# Key-value stores

The keys of a database and the store that holds them. A failed `set` has replaced
the value or not; a failed `set_many` has replaced any of the values it was given.
-/
namespace WasmDbms.KeyValue

/-- `head_key`. -/
def headKey (keyspace : String) : String := keyspace ++ "/head"

/-- The text of a page key. -/
def pageKeyText (keyspace : String) (page : Nat) (slot : UInt8) : String :=
  keyspace ++ "/page/" ++ toString page ++ "/" ++ toString slot.toNat

/-- `page_key`. -/
def pageKey (keyspace : String) (page : Nat) (slot : UInt8) : Except ProviderFailure String :=
  if slot > 1 ∨ page > maxPages then .error (invalidManifest "page key contains an invalid address")
  else .ok (pageKeyText keyspace page slot)

def hexDigit (n : Nat) : Char := "0123456789abcdef".toList.getD n '0'

/-- `namespace`. -/
def keyspaceOf (name : String) : Except ProviderFailure String :=
  if name.isEmpty then .error (.providerError "database name cannot be empty")
  else .ok ("wasm-dbms/" ++ String.ofList (name.toUTF8.data.toList.flatMap fun byte =>
    [hexDigit (byte.toNat / 16), hexDigit (byte.toNat % 16)]))

theorem pageKey_eq_ok {keyspace : String} {page : Nat} {slot : UInt8} (slot_le : slot ≤ 1) (addressed : page ≤ maxPages) :
    pageKey keyspace page slot = .ok (pageKeyText keyspace page slot) := by
  rw [pageKey, if_neg]
  rintro (high | high)
  · exact absurd high (UInt8.not_lt.mpr slot_le)
  · omega

section Keys
variable {keyspace : String} {page page' : Nat} {slot slot' : UInt8}

theorem pageKeyText_toList : (pageKeyText keyspace page slot).toList =
    keyspace.toList ++ ("/page/".toList ++ (Nat.toDigits 10 page ++ '/' :: Nat.toDigits 10 slot.toNat)) := by
  simp only [pageKeyText, String.toList_append, Nat.toString_eq_repr, Nat.toList_repr, List.append_assoc]
  rfl

theorem toDigits_injective : Function.Injective (Nat.toDigits 10) := by
  intro m n same
  have back := congrArg (fun digits => Nat.ofDigitChars 10 digits 0) same
  simp only [Nat.ofDigitChars_ten_toDigits] at back
  exact back

theorem slash_notMem_toDigits (n : Nat) : '/' ∉ Nat.toDigits 10 n := by
  intro member
  have digit := Nat.isDigit_of_mem_toDigits (by decide) (by decide) member
  exact absurd digit (by decide)

/-- A page key determines its page and its slot. -/
theorem pageKeyText_injective (same : pageKeyText keyspace page slot = pageKeyText keyspace page' slot') :
    page = page' ∧ slot = slot' := by
  have chars := congrArg String.toList same
  rw [pageKeyText_toList, pageKeyText_toList, List.append_cancel_left_eq, List.append_cancel_left_eq,
    List.append_cons_inj_of_notMem (slash_notMem_toDigits page) (slash_notMem_toDigits slot.toNat)] at chars
  exact ⟨toDigits_injective chars.1, UInt8.toNat_inj.mp (toDigits_injective chars.2.2)⟩

theorem pageKeyText_ne_headKey : pageKeyText keyspace page slot ≠ headKey keyspace := by
  intro same
  have chars := congrArg String.toList same
  rw [pageKeyText_toList, headKey, String.toList_append, List.append_cancel_left_eq] at chars
  have second := congrArg (fun text => text[1]?) chars
  exact absurd second (by simp)

end Keys

/-- What becomes of a call that writes: it is done, or it fails and has replaced the
values under some of its keys. -/
inductive Fate where
  | done
  | failed (error : ProviderFailure) (applied : String → Bool)

/-- A key-value store. `get_many` answers every key, in an order of its own. -/
structure KeyValueStore where
  values : String → Option (List UInt8)
  order : List String → List String
  order_perm : ∀ keys, (order keys).Perm keys

/-- What `get_many` gives for the keys it is asked for. -/
abbrev Answers := List String → Except ProviderFailure (List (String × Option (List UInt8)))

namespace KeyValueStore

def get (s : KeyValueStore) (key : String) : Option (List UInt8) := s.values key

def getMany (s : KeyValueStore) (keys : List String) : List (String × Option (List UInt8)) :=
  (s.order keys).map fun key => (key, s.values key)

/-- The answers of the store itself. -/
def answers (s : KeyValueStore) : Answers := fun keys => .ok (s.getMany keys)

def put (s : KeyValueStore) (key : String) (value : List UInt8) : KeyValueStore :=
  { s with values := Function.update s.values key (some value) }

def putAll (s : KeyValueStore) (entries : List (String × List UInt8)) : KeyValueStore :=
  entries.foldl (fun s entry => s.put entry.1 entry.2) s

/-- `set`, which replaces the value or leaves the store as it is. -/
def set (s : KeyValueStore) (key : String) (value : List UInt8) : Fate → Except ProviderFailure Unit × KeyValueStore
  | .done => (.ok (), s.put key value)
  | .failed error applied => (.error error, if applied key then s.put key value else s)

/-- `set_many`. -/
def setMany (s : KeyValueStore) (entries : List (String × List UInt8)) :
    Fate → Except ProviderFailure Unit × KeyValueStore
  | .done => (.ok (), s.putAll entries)
  | .failed error applied => (.error error, s.putAll (entries.filter fun entry => applied entry.1))

section Writes
variable {s : KeyValueStore} {entries : List (String × List UInt8)} {key : String}

@[simp] theorem put_values (s : KeyValueStore) (key : String) (value : List UInt8) :
    (s.put key value).values = Function.update s.values key (some value) := rfl

theorem putAll_cons (entry : String × List UInt8) :
    s.putAll (entry :: entries) = (s.put entry.1 entry.2).putAll entries := rfl

/-- A key that is not written keeps its value. -/
theorem putAll_of_notMem (absent : ∀ value, (key, value) ∉ entries) : (s.putAll entries).values key = s.values key := by
  induction entries generalizing s with
  | nil => rfl
  | cons entry entries ih =>
      have other : key ≠ entry.1 := by
        rintro rfl
        exact absent entry.2 (List.mem_cons_self ..)
      rw [putAll_cons, ih fun value member => absent value (List.mem_cons_of_mem entry member), put_values,
        Function.update_of_ne other]

/-- A key that is written holds its value when it is given no other. -/
theorem putAll_of_mem {value : List UInt8} (member : (key, value) ∈ entries)
    (agree : ∀ value', (key, value') ∈ entries → value' = value) : (s.putAll entries).values key = some value := by
  induction entries generalizing s with
  | nil => cases member
  | cons entry entries ih =>
      rw [putAll_cons]
      by_cases later : (key, value) ∈ entries
      · exact ih later fun value' here => agree value' (List.mem_cons_of_mem entry here)
      · have first : (key, value) = entry := (List.mem_cons.mp member).resolve_right later
        subst first
        have absent : ∀ value', (key, value') ∉ entries := by
          intro value' here
          have same := agree value' (List.mem_cons_of_mem _ here)
          rw [same] at here
          exact later here
        rw [putAll_of_notMem absent, put_values, Function.update_self]

theorem setMany_of_notMem (absent : ∀ value, (key, value) ∉ entries) (fate : Fate) :
    (s.setMany entries fate).2.values key = s.values key := by
  cases fate with
  | done => exact putAll_of_notMem absent
  | failed error applied => exact putAll_of_notMem fun value member => absent value (List.mem_of_mem_filter member)

theorem set_cases (value : List UInt8) (fate : Fate) :
    ((s.set key value fate).2 = s.put key value ∨ (s.set key value fate).2 = s) ∧
      ((s.set key value fate).1 = .ok () → (s.set key value fate).2 = s.put key value) := by
  cases fate with
  | done => exact ⟨.inl rfl, fun _ => rfl⟩
  | failed error applied =>
      refine ⟨?_, fun ok => by cases ok⟩
      rw [set]
      cases applied key with
      | true => exact .inl rfl
      | false => exact .inr rfl

end Writes
end KeyValueStore
end WasmDbms.KeyValue
