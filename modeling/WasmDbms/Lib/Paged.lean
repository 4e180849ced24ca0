import Mathlib.Data.List.GetD

/-!
# Byte strings cut into pages

A memory of whole pages of one width, how it grows and is written, and which of
its pages a write leaves alone.
-/
namespace Paged

/-- A memory of `pages` pages of `w` bytes. -/
structure Image (w : Nat) where
  bytes : List UInt8
  pages : Nat
  sized : bytes.length = pages * w
  deriving DecidableEq

namespace Image
variable {w : Nat}

/-- The bytes of one page. -/
def page (m : Image w) (i : Nat) : List UInt8 := (m.bytes.drop (i * w)).take w

/-- A memory of zeros. -/
def zero (w n : Nat) : Image w := ⟨List.replicate (n * w) 0, n, List.length_replicate⟩

/-- The memory with `n` pages of zeros behind it. -/
def grow (m : Image w) (n : Nat) : Image w where
  bytes := m.bytes ++ List.replicate (n * w) 0
  pages := m.pages + n
  sized := by rw [List.length_append, List.length_replicate, m.sized, Nat.add_mul]

/-- The memory with the bytes from `off` on replaced. -/
def write (m : Image w) (off : Nat) (buf : List UInt8) (fits : off + buf.length ≤ m.pages * w) : Image w where
  bytes := m.bytes.take off ++ buf ++ m.bytes.drop (off + buf.length)
  pages := m.pages
  sized := by
    have size := m.sized
    simp only [List.length_append, List.length_take, List.length_drop]
    omega

/-- The memory with one page replaced, if it has the page. -/
def setPage (m : Image w) (i : Nat) (buf : List UInt8) : Image w :=
  if fits : i * w + buf.length ≤ m.pages * w then m.write (i * w) buf fits else m

@[simp] theorem write_bytes {m : Image w} {off : Nat} {buf : List UInt8} (fits : off + buf.length ≤ m.pages * w) :
    (m.write off buf fits).bytes = m.bytes.take off ++ (buf ++ m.bytes.drop (off + buf.length)) :=
  List.append_assoc _ _ _

@[simp] theorem write_pages {m : Image w} {off : Nat} {buf : List UInt8} (fits : off + buf.length ≤ m.pages * w) :
    (m.write off buf fits).pages = m.pages := rfl

@[simp] theorem grow_pages (m : Image w) (n : Nat) : (m.grow n).pages = m.pages + n := rfl

theorem page_end_le {n i : Nat} (inside : i < n) : i * w + w ≤ n * w := by
  rw [← Nat.succ_mul]
  exact Nat.mul_le_mul_right w inside

theorem page_length {m : Image w} {i : Nat} (inside : i < m.pages) : (m.page i).length = w := by
  have size := m.sized
  have whole := page_end_le (w := w) inside
  rw [page, List.length_take, List.length_drop]
  omega

theorem getElem?_page (m : Image w) (i : Nat) {j : Nat} (low : j < w) : (m.page i)[j]? = m.bytes[i * w + j]? := by
  rw [page, List.getElem?_take_of_lt low, List.getElem?_drop]

/-- Two pages are the same when they hold the same bytes. -/
theorem page_congr {m m' : Image w} {i : Nat} (same : ∀ j < w, m.bytes[i * w + j]? = m'.bytes[i * w + j]?) :
    m.page i = m'.page i := by
  apply List.ext_getElem?
  intro j
  by_cases low : j < w
  · rw [getElem?_page m i low, getElem?_page m' i low, same j low]
  · rw [page, page, List.getElem?_take_eq_none (Nat.le_of_not_lt low), List.getElem?_take_eq_none (Nat.le_of_not_lt low)]

/-- A memory is its pages. -/
theorem ext_page {m m' : Image w} (count : m.pages = m'.pages) (same : ∀ i < m.pages, m.page i = m'.page i) : m = m' := by
  have equal : m.bytes = m'.bytes := by
    apply List.ext_getElem?
    intro k
    by_cases inside : k < m.pages * w
    · have wide : 0 < w := Nat.pos_of_mul_pos_left (Nat.zero_lt_of_lt inside)
      have low := Nat.mod_lt k wide
      have split : k / w * w + k % w = k := Nat.div_add_mod' k w
      have here := same (k / w) ((Nat.div_lt_iff_lt_mul wide).mpr inside)
      have byte := congrArg (fun bytes => bytes[k % w]?) here
      rw [getElem?_page m _ low, getElem?_page m' _ low, split] at byte
      exact byte
    · have size := m.sized
      have size' := m'.sized
      rw [← count] at size'
      rw [List.getElem?_eq_none (by omega), List.getElem?_eq_none (by omega)]
  cases m
  cases m'
  simp only [Image.mk.injEq]
  exact ⟨equal, count⟩

theorem page_grow {m : Image w} {i : Nat} (inside : i < m.pages) (n : Nat) : (m.grow n).page i = m.page i := by
  apply page_congr
  intro j low
  have whole := page_end_le (w := w) inside
  have size := m.sized
  rw [grow, List.getElem?_append_left (by omega)]

theorem page_zero {n i : Nat} (inside : i < n) : (zero w n).page i = List.replicate w 0 := by
  have room := page_end_le inside (w := w)
  rw [page, zero, List.drop_replicate, List.take_replicate, Nat.min_eq_left (by omega)]

theorem zero_grow (n k : Nat) : (zero w n).grow k = zero w (n + k) := by
  simp only [grow, zero, List.replicate_append_replicate, Nat.add_mul]

theorem page_write_of_outside {m : Image w} {off i : Nat} {buf : List UInt8} (fits : off + buf.length ≤ m.pages * w)
    (outside : i * w + w ≤ off ∨ off + buf.length ≤ i * w) : (m.write off buf fits).page i = m.page i := by
  have size := m.sized
  apply page_congr
  intro j low
  rcases outside with before | behind
  · rw [write_bytes, List.getElem?_append_left (by rw [List.length_take]; omega), List.getElem?_take_of_lt (by omega)]
  · have front : (m.bytes.take off).length = off := by
      rw [List.length_take]
      omega
    rw [write_bytes, List.getElem?_append_right (by omega), List.getElem?_append_right (by omega),
      List.getElem?_drop, front]
    congr 1
    omega

theorem page_write_nil {m : Image w} {off : Nat} (fits : off + ([] : List UInt8).length ≤ m.pages * w) (i : Nat) :
    (m.write off [] fits).page i = m.page i := by
  apply page_congr
  intro j _
  rw [write_bytes, List.nil_append, List.length_nil, Nat.add_zero, List.take_append_drop]

theorem page_write {m : Image w} {i : Nat} {buf : List UInt8} (fits : i * w + buf.length ≤ m.pages * w)
    (whole : buf.length = w) : (m.write (i * w) buf fits).page i = buf := by
  have size := m.sized
  have front : (m.bytes.take (i * w)).length = i * w := by
    rw [List.length_take]
    omega
  rw [page, write_bytes, List.drop_left' front, List.take_left' whole]

/-- A page outside the pages from the one of the first byte to the one of the last byte
of a write is left alone. -/
theorem page_write_of_untouched {m : Image w} {off i : Nat} {buf : List UInt8} (wide : 0 < w)
    (fits : off + buf.length ≤ m.pages * w) (some_bytes : 0 < buf.length)
    (untouched : i < off / w ∨ (off + buf.length - 1) / w < i) : (m.write off buf fits).page i = m.page i := by
  apply page_write_of_outside fits
  rcases untouched with before | behind
  · left
    rw [← Nat.succ_mul]
    exact (Nat.le_div_iff_mul_le wide).mp before
  · right
    have last := (Nat.div_lt_iff_lt_mul wide).mp behind
    omega

/-! ## Filling a memory page by page -/

@[simp] theorem setPage_pages (m : Image w) (i : Nat) (buf : List UInt8) : (m.setPage i buf).pages = m.pages := by
  rw [setPage]
  split <;> rfl

theorem page_setPage {m : Image w} {i : Nat} {buf : List UInt8} (inside : i < m.pages) (whole : buf.length = w) :
    (m.setPage i buf).page i = buf := by
  have fits : i * w + buf.length ≤ m.pages * w := by
    rw [whole]
    exact page_end_le inside
  rw [setPage, dif_pos fits, page_write fits whole]

theorem page_setPage_of_ne {m : Image w} {i j : Nat} {buf : List UInt8} (other : j ≠ i) (whole : buf.length = w) :
    (m.setPage i buf).page j = m.page j := by
  rw [setPage]
  split
  · rename_i fits
    apply page_write_of_outside fits
    rcases Nat.lt_or_gt_of_ne other with before | behind
    · exact .inl (page_end_le before)
    · rw [whole]
      exact .inr (page_end_le behind)
  · rfl

/-- `m` has the pages of `image` in the set `done`. -/
def Agrees (m image : Image w) (done : Nat → Prop) : Prop :=
  m.pages = image.pages ∧ ∀ i < image.pages, done i → m.page i = image.page i

theorem Agrees.setPage {m image : Image w} {done : Nat → Prop} (agrees : m.Agrees image done) {i : Nat}
    (inside : i < image.pages) : (m.setPage i (image.page i)).Agrees image fun j => done j ∨ j = i := by
  have whole := page_length inside
  refine ⟨(setPage_pages m i _).trans agrees.1, fun j bound here => ?_⟩
  by_cases same : j = i
  · subst same
    rw [← agrees.1] at inside
    exact page_setPage inside whole
  · rw [page_setPage_of_ne same whole]
    exact agrees.2 j bound (here.resolve_right same)

theorem Agrees.mono {m image : Image w} {done done' : Nat → Prop} (agrees : m.Agrees image done)
    (fewer : ∀ i, done' i → done i) : m.Agrees image done' :=
  ⟨agrees.1, fun i bound here => agrees.2 i bound (fewer i here)⟩

theorem Agrees.eq {m image : Image w} {done : Nat → Prop} (agrees : m.Agrees image done)
    (all : ∀ i < image.pages, done i) : m = image := by
  apply ext_page agrees.1
  intro i bound
  rw [agrees.1] at bound
  exact agrees.2 i bound (all i bound)

end Image
end Paged
