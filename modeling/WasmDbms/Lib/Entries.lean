import WasmDbms.Lib.ByteString

/-!
# Length-prefixed entries

Entries of varying size stand one after the other: two bytes with the length of
the key, the key, and a tail of fixed width. They are found again by walking
over the length prefixes.
-/
namespace Entries
open ByteString

/-- `n` bytes of a buffer from an offset on. -/
def slice (buf : List UInt8) (offset n : Nat) : List UInt8 := (buf.drop offset).take n

/-- The little-endian number in `n` bytes of a buffer. -/
def field (buf : List UInt8) (offset n : Nat) : Nat := ofLE (slice buf offset n)

/-- An entry: the bytes of its key and of its tail. -/
structure Item where
  key : List UInt8
  tail : List UInt8
  deriving DecidableEq, Repr

def Item.bytes (x : Item) : List UInt8 := toLE 2 x.key.length ++ x.key ++ x.tail

def Item.size (x : Item) : Nat := 2 + x.key.length + x.tail.length

theorem Item.bytes_length (x : Item) : x.bytes.length = x.size := by
  simp [Item.bytes, Item.size, Nat.add_assoc]

def image (xs : List Item) : List UInt8 := xs.flatMap Item.bytes

theorem image_length (xs : List Item) : (image xs).length = (xs.map Item.size).sum := by
  induction xs with
  | nil => rfl
  | cons x xs ih =>
      rw [image, List.flatMap_cons, List.length_append, Item.bytes_length, List.map_cons, List.sum_cons]
      exact congrArg _ ih

/-- These entries stand in the buffer from an offset on. -/
def Laid (buf : List UInt8) (offset : Nat) (xs : List Item) : Prop :=
  ∃ rest, buf.drop offset = image xs ++ rest

theorem drop_of_drop {buf : List UInt8} {offset : Nat} {xs rest : List UInt8}
    (laid : buf.drop offset = xs ++ rest) : buf.drop (offset + xs.length) = rest := by
  rw [← List.drop_drop, laid, List.drop_left' rfl]

theorem slice_of_drop {buf : List UInt8} {offset : Nat} {xs rest : List UInt8}
    (laid : buf.drop offset = xs ++ rest) : slice buf offset xs.length = xs := by
  rw [slice, laid, List.take_left' rfl]

/-- The parts of the first entry, and where the others go on. -/
theorem Laid.cons {buf : List UInt8} {offset : Nat} {x : Item} {xs : List Item}
    (laid : Laid buf offset (x :: xs)) :
    slice buf offset 2 = toLE 2 x.key.length ∧
      slice buf (offset + 2) x.key.length = x.key ∧
      slice buf (offset + 2 + x.key.length) x.tail.length = x.tail ∧
      offset + 2 + x.key.length + x.tail.length ≤ buf.length ∧
      Laid buf (offset + 2 + x.key.length + x.tail.length) xs := by
  obtain ⟨rest, whole⟩ := laid
  have atPrefix : buf.drop offset =
      toLE 2 x.key.length ++ (x.key ++ (x.tail ++ (image xs ++ rest))) := by
    rw [whole]
    simp [image, Item.bytes, List.append_assoc]
  have atKey := drop_of_drop atPrefix
  rw [toLE_length] at atKey
  have atTail := drop_of_drop atKey
  have long := congrArg List.length atPrefix
  simp only [List.length_drop, List.length_append, toLE_length] at long
  refine ⟨?_, slice_of_drop atKey, slice_of_drop atTail, by omega, rest, drop_of_drop atTail⟩
  have read := slice_of_drop atPrefix
  rwa [toLE_length] at read

theorem Laid.field {buf : List UInt8} {offset : Nat} {x : Item} {xs : List Item}
    (laid : Laid buf offset (x :: xs)) (small : x.key.length < 65536) :
    field buf offset 2 = x.key.length := by
  rw [Entries.field, laid.cons.1]
  exact ofLE_toLE_of_lt small

/-- Where the keys stand. -/
def keyOffsets : Nat → List Item → List Nat
  | _, [] => []
  | offset, x :: xs => (offset + 2) :: keyOffsets (offset + 2 + x.key.length + x.tail.length) xs

@[simp] theorem keyOffsets_length (offset : Nat) (xs : List Item) :
    (keyOffsets offset xs).length = xs.length := by
  induction xs generalizing offset with
  | nil => rfl
  | cons x xs ih => simp [keyOffsets, ih]

/-- The entry at an index, read where its key stands. -/
theorem Laid.at_index {buf : List UInt8} {offset : Nat} {xs : List Item} (laid : Laid buf offset xs)
    {i : Nat} {x : Item} (found : xs[i]? = some x) :
    ∃ start, (keyOffsets offset xs)[i]? = some start ∧
      slice buf (start - 2) 2 = toLE 2 x.key.length ∧
      slice buf start x.key.length = x.key ∧
      slice buf (start + x.key.length) x.tail.length = x.tail := by
  induction xs generalizing offset i with
  | nil => simp at found
  | cons y xs ih =>
      obtain ⟨length, key, tail, _, rest⟩ := laid.cons
      cases i with
      | zero =>
          cases found
          exact ⟨offset + 2, rfl, length, key, tail⟩
      | succ i =>
          obtain ⟨start, there, parts⟩ := ih rest (by simpa using found)
          exact ⟨start, by simpa [keyOffsets] using there, parts⟩

end Entries
