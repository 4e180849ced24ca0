import Mathlib.Algebra.Order.Ring.Nat
import Mathlib.Data.List.GetD

/-!
# Byte strings and flat memories

Little-endian numerals of a fixed width, and a memory seen as a function from
addresses to bytes, read by `load` and overwritten by `store`.
-/
namespace ByteString

/-- The `w` low-order bytes of `n`, least significant first. -/
def toLE : Nat → Nat → List UInt8
  | 0, _ => []
  | w + 1, n => UInt8.ofNat n :: toLE w (n / 256)

/-- The number a little-endian byte string denotes. -/
def ofLE : List UInt8 → Nat
  | [] => 0
  | b :: bs => b.toNat + 256 * ofLE bs

@[simp] theorem toLE_length (w n : Nat) : (toLE w n).length = w := by
  induction w generalizing n with
  | zero => rfl
  | succ w ih => simp [toLE, ih]

theorem ofLE_toLE (w n : Nat) : ofLE (toLE w n) = n % 256 ^ w := by
  induction w generalizing n with
  | zero => simp [toLE, ofLE, Nat.mod_one]
  | succ w ih =>
      have byte : (UInt8.ofNat n).toNat = n % 256 := UInt8.toNat_ofNat'
      rw [toLE, ofLE, ih, byte, Nat.pow_succ, Nat.mul_comm (256 ^ w), Nat.mod_mul]

theorem ofLE_toLE_of_lt {w n : Nat} (h : n < 256 ^ w) : ofLE (toLE w n) = n := by
  rw [ofLE_toLE, Nat.mod_eq_of_lt h]

theorem ofLE_lt (bs : List UInt8) : ofLE bs < 256 ^ bs.length := by
  induction bs with
  | nil => simp [ofLE]
  | cons b bs ih =>
      have hb := b.toNat_lt
      simp only [ofLE, List.length_cons, Nat.pow_succ]
      omega

theorem toLE_ofLE (bs : List UInt8) : toLE bs.length (ofLE bs) = bs := by
  induction bs with
  | nil => rfl
  | cons b bs ih =>
      have hb := b.toNat_lt
      have low : (b.toNat + 256 * ofLE bs) / 256 = ofLE bs := by omega
      simp only [List.length_cons, ofLE, toLE, low, ih, List.cons.injEq, and_true]
      apply UInt8.toNat_inj.mp
      simp only [UInt8.toNat_ofNat']
      omega

/-- The first `n` blocks of `w` bytes. -/
def chunks (w : Nat) : Nat → List UInt8 → List (List UInt8)
  | 0, _ => []
  | n + 1, bs => bs.take w :: chunks w n (bs.drop w)

@[simp] theorem chunks_length (w n : Nat) (bs : List UInt8) : (chunks w n bs).length = n := by
  induction n generalizing bs with
  | zero => rfl
  | succ n ih => simp [chunks, ih]

/-- Blocks of one width that were written one after the other are read back in order. -/
theorem chunks_flatMap {α : Type} {w : Nat} {enc : α → List UInt8} (width : ∀ x, (enc x).length = w)
    (xs : List α) (rest : List UInt8) :
    chunks w xs.length (xs.flatMap enc ++ rest) = xs.map enc := by
  induction xs with
  | nil => rfl
  | cons x xs ih =>
      simp only [List.length_cons, List.flatMap_cons, List.append_assoc, chunks, List.map_cons]
      rw [List.take_left' (width x), List.drop_left' (width x), ih]

theorem map_chunks_flatMap {α : Type} {w : Nat} {enc : α → List UInt8} {dec : List UInt8 → α}
    (width : ∀ x, (enc x).length = w) {xs : List α} (back : ∀ x ∈ xs, dec (enc x) = x)
    (rest : List UInt8) : (chunks w xs.length (xs.flatMap enc ++ rest)).map dec = xs := by
  rw [chunks_flatMap width, List.map_map]
  exact (List.map_congr_left back).trans (List.map_id xs)

theorem length_of_mem_chunks {w n : Nat} {bs block : List UInt8} (long : w * n ≤ bs.length) (member : block ∈ chunks w n bs) :
    block.length = w := by
  induction n generalizing bs with
  | zero => cases member
  | succ n ih =>
      rw [Nat.mul_succ] at long
      rcases List.mem_cons.mp member with rfl | later
      · rw [List.length_take]
        omega
      · refine ih ?_ later
        rw [List.length_drop]
        omega

/-- The blocks are the data they were cut from. -/
theorem chunks_flatten (w n : Nat) (bs : List UInt8) : (chunks w n bs).flatten = bs.take (w * n) := by
  induction n generalizing bs with
  | zero => simp [chunks]
  | succ n ih => rw [chunks, List.flatten_cons, ih, Nat.mul_succ, Nat.add_comm, List.take_add]

theorem flatMap_length {α : Type} {w : Nat} {enc : α → List UInt8} (width : ∀ x, (enc x).length = w)
    (xs : List α) : (xs.flatMap enc).length = w * xs.length := by
  induction xs with
  | nil => simp
  | cons x xs ih =>
      rw [List.flatMap_cons, List.length_append, ih, width, List.length_cons, Nat.mul_succ,
        Nat.add_comm]

/-- `len` bytes from address `off` on. -/
def load (mem : Nat → UInt8) : Nat → Nat → List UInt8
  | _, 0 => []
  | off, n + 1 => mem off :: load mem (off + 1) n

/-- Overwrites the bytes from address `off` on by `bs`. -/
def store (mem : Nat → UInt8) (off : Nat) (bs : List UInt8) : Nat → UInt8 :=
  fun i => if off ≤ i ∧ i < off + bs.length then bs.getD (i - off) 0 else mem i

@[simp] theorem load_length (mem : Nat → UInt8) (off len : Nat) :
    (load mem off len).length = len := by
  induction len generalizing off with
  | zero => rfl
  | succ n ih => simp [load, ih]

theorem load_getD (mem : Nat → UInt8) (off len i : Nat) (h : i < len) :
    (load mem off len).getD i 0 = mem (off + i) := by
  induction len generalizing off i with
  | zero => omega
  | succ n ih =>
      cases i with
      | zero => simp [load]
      | succ i =>
          simp only [load, List.getD_cons_succ]
          rw [ih (off + 1) i (by omega)]
          congr 1
          omega

theorem load_congr {mem mem' : Nat → UInt8} {off len : Nat}
    (h : ∀ i, off ≤ i → i < off + len → mem i = mem' i) :
    load mem off len = load mem' off len := by
  induction len generalizing off with
  | zero => rfl
  | succ n ih =>
      simp only [load]
      rw [h off (by omega) (by omega), ih]
      intro i low high
      exact h i (by omega) (by omega)

theorem load_add (mem : Nat → UInt8) (off a b : Nat) :
    load mem off (a + b) = load mem off a ++ load mem (off + a) b := by
  induction a generalizing off with
  | zero => simp [load]
  | succ a ih =>
      have shift : a + 1 + b = (a + b) + 1 := by omega
      rw [shift]
      simp only [load, List.cons_append, ih]
      congr 3
      omega

theorem store_of_outside (mem : Nat → UInt8) (off : Nat) (bs : List UInt8) {i : Nat}
    (h : i < off ∨ off + bs.length ≤ i) : store mem off bs i = mem i := by
  unfold store
  rw [if_neg (by omega)]

theorem store_of_inside (mem : Nat → UInt8) (off : Nat) (bs : List UInt8) {i : Nat}
    (low : off ≤ i) (high : i < off + bs.length) : store mem off bs i = bs.getD (i - off) 0 := by
  unfold store
  rw [if_pos ⟨low, high⟩]

@[simp] theorem store_nil (mem : Nat → UInt8) (off : Nat) : store mem off [] = mem := by
  funext i
  exact store_of_outside mem off [] (by simp; omega)

theorem load_store_disjoint {mem : Nat → UInt8} {off off' len : Nat} {bs : List UInt8}
    (h : off' + len ≤ off ∨ off + bs.length ≤ off') :
    load (store mem off bs) off' len = load mem off' len := by
  apply load_congr
  intro i low high
  exact store_of_outside mem off bs (by omega)

theorem load_of_getD {mem : Nat → UInt8} {off : Nat} {bs : List UInt8}
    (h : ∀ i, i < bs.length → mem (off + i) = bs.getD i 0) : load mem off bs.length = bs := by
  induction bs generalizing off with
  | nil => rfl
  | cons b bs ih =>
      simp only [List.length_cons, load]
      congr 1
      · simpa using h 0 (by simp)
      · apply ih
        intro i hi
        have next := h (i + 1) (by simpa using hi)
        rw [List.getD_cons_succ] at next
        rw [← next]
        congr 1
        omega

theorem load_store_same (mem : Nat → UInt8) (off : Nat) (bs : List UInt8) :
    load (store mem off bs) off bs.length = bs := by
  apply load_of_getD
  intro i hi
  rw [store_of_inside mem off bs (by omega) (by omega)]
  congr 1
  omega

theorem store_store {mem : Nat → UInt8} {off : Nat} {xs ys : List UInt8}
    (same : xs.length = ys.length) : store (store mem off xs) off ys = store mem off ys := by
  funext i
  by_cases h : off ≤ i ∧ i < off + ys.length
  · rw [store_of_inside _ _ _ h.1 h.2, store_of_inside _ _ _ h.1 h.2]
  · rw [store_of_outside _ _ _ (by omega), store_of_outside _ _ _ (by omega),
      store_of_outside _ _ _ (by omega)]

theorem store_append (mem : Nat → UInt8) (off : Nat) (xs ys : List UInt8) :
    store mem off (xs ++ ys) = store (store mem off xs) (off + xs.length) ys := by
  funext i
  have total : (xs ++ ys).length = xs.length + ys.length := List.length_append
  by_cases hy : off + xs.length ≤ i ∧ i < off + xs.length + ys.length
  · rw [store_of_inside _ _ ys hy.1 hy.2, store_of_inside _ _ (xs ++ ys) (by omega) (by omega),
      List.getD_append_right _ _ _ _ (by omega)]
    congr 1
    omega
  · rw [store_of_outside _ _ ys (by omega)]
    by_cases hx : off ≤ i ∧ i < off + xs.length
    · rw [store_of_inside _ _ xs hx.1 hx.2, store_of_inside _ _ (xs ++ ys) hx.1 (by omega),
        List.getD_append _ _ _ _ (by omega)]
    · rw [store_of_outside _ _ xs (by omega), store_of_outside _ _ (xs ++ ys) (by omega)]

end ByteString
