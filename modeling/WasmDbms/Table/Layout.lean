import WasmDbms.Lib.Extent
import WasmDbms.Table.Registry
import Mathlib.Tactic.ByContra

/-!
# The layout of a table

Every slot and every free segment occupies an extent whose start and size are
multiples of the alignment. A free segment may record one byte less than its
extent: sizes are `u16` and a whole free page saturates at 65,535. Such a
segment ends at the page end, where no slot can lie in the missing byte.
-/
namespace WasmDbms
open Extents

theorem alignUp_eq_of_dvd {a n m : Nat} (pos : 0 < a) (multiple : a ∣ m) (low : m < n + a)
    (high : n ≤ m) : alignUp a n = m := by
  refine Nat.le_antisymm (alignUp_le_of_dvd pos multiple high) ?_
  have grow := alignUp_ge n pos
  have dvd := dvd_alignUp a n
  apply Nat.le_of_not_lt
  intro short
  have gap := Nat.dvd_sub multiple dvd
  have size := Nat.le_of_dvd (by omega) gap
  omega

theorem alignUp_of_dvd {a n : Nat} (pos : 0 < a) (multiple : a ∣ n) : alignUp a n = n :=
  alignUp_eq_of_dvd pos multiple (by omega) (Nat.le_refl _)

theorem alignUp_add_mul {a : Nat} (pos : 0 < a) (k n : Nat) :
    alignUp a (a * k + n) = a * k + alignUp a n := by
  unfold alignUp
  rw [show a * k + n + a - 1 = (n + a - 1) + a * k by omega, Nat.add_mul_div_left _ _ pos,
    Nat.add_mul, Nat.mul_comm k a, Nat.add_comm]

/-- The bytes a free segment stands for. -/
def freeExtent (a : Nat) (s : FreeSegment) : Extent := ⟨s.page, s.offset, alignUp a s.size⟩

/-- The recorded size is the whole extent, or all but the last byte of a page. -/
structure SoundSegment (a : Nat) (s : FreeSegment) : Prop where
  pos : 0 < s.size
  exact_or_last : s.size = alignUp a s.size ∨
    s.size + 1 = alignUp a s.size ∧ s.offset + alignUp a s.size = pageSize

/-- The extent is aligned and lies below the taken mark of a page of the ledger. -/
structure Placed (a : Nat) (pages : List PageRecord) (x : Extent) : Prop where
  pos : 0 < x.size
  start_dvd : a ∣ x.start
  size_dvd : a ∣ x.size
  below : ∃ r ∈ pages, r.page = x.page ∧ x.start + x.size ≤ pageSize - r.free

structure Layout (a : Nat) (pages : List PageRecord) (extents : List Extent) : Prop where
  nodup : (pages.map PageRecord.page).Nodup
  marks : ∀ r ∈ pages, r.free ≤ pageSize ∧ a ∣ pageSize - r.free
  placed : ∀ x ∈ extents, Placed a pages x
  apart : extents.Pairwise Apart

theorem Placed.end_le {a : Nat} {pages : List PageRecord} {x : Extent} (placed : Placed a pages x) :
    x.start + x.size ≤ pageSize := by
  obtain ⟨r, _, _, below⟩ := placed.below
  omega

theorem Placed.align_le {a : Nat} {pages : List PageRecord} {x : Extent} (placed : Placed a pages x) :
    a ≤ x.size := Nat.le_of_dvd placed.pos placed.size_dvd

namespace Layout

variable {a : Nat} {pages : List PageRecord} {xs ys : List Extent}

theorem perm (layout : Layout a pages xs) (same : xs.Perm ys) : Layout a pages ys :=
  ⟨layout.nodup, layout.marks, fun x member => layout.placed x (same.mem_iff.mpr member),
    pairwise_perm same layout.apart⟩

theorem tail {x : Extent} (layout : Layout a pages (x :: xs)) : Layout a pages xs :=
  ⟨layout.nodup, layout.marks, fun y member => layout.placed y (List.mem_cons_of_mem _ member),
    (List.pairwise_cons.mp layout.apart).2⟩

/-- The first `n` bytes of an extent are cut off. -/
theorem cut {x : Extent} {n : Nat} (layout : Layout a pages (x :: xs)) (pos : 0 < n) (dvd : a ∣ n)
    (inside : n < x.size) :
    Layout a pages (⟨x.page, x.start, n⟩ :: ⟨x.page, x.start + n, x.size - n⟩ :: xs) := by
  have whole := layout.placed x List.mem_cons_self
  obtain ⟨r, listed, page, below⟩ := whole.below
  refine ⟨layout.nodup, layout.marks, ?_, pairwise_cut layout.apart (Nat.le_of_lt inside)⟩
  rw [List.forall_mem_cons, List.forall_mem_cons]
  refine ⟨⟨pos, whole.start_dvd, dvd, r, listed, page, ?_⟩,
    ⟨?_, Nat.dvd_add whole.start_dvd dvd, Nat.dvd_sub whole.size_dvd dvd, r, listed, page, ?_⟩,
    fun y member => layout.placed y (List.mem_cons_of_mem _ member)⟩
  · change x.start + n ≤ _
    omega
  · change 0 < x.size - n
    omega
  · change x.start + n + (x.size - n) ≤ _
    omega

/-- Two neighbours are joined. -/
theorem join {x y : Extent} (layout : Layout a pages (x :: y :: xs)) (page : y.page = x.page)
    (next : y.start = x.start + x.size) :
    Layout a pages (⟨x.page, x.start, x.size + y.size⟩ :: xs) := by
  have left := layout.placed x List.mem_cons_self
  have right := layout.placed y (List.mem_cons_of_mem _ List.mem_cons_self)
  obtain ⟨r, listed, samePage, below⟩ := right.below
  have rest : ∀ z ∈ xs, Placed a pages z := fun z member =>
    layout.placed z (List.mem_cons_of_mem _ (List.mem_cons_of_mem _ member))
  refine ⟨layout.nodup, layout.marks, ?_,
    pairwise_join layout.apart (fun z member => (rest z member).pos) page next⟩
  rw [List.forall_mem_cons]
  refine ⟨⟨Nat.add_pos_left left.pos _, left.start_dvd, Nat.dvd_add left.size_dvd right.size_dvd,
    r, listed, samePage.trans page, ?_⟩, rest⟩
  change x.start + (x.size + y.size) ≤ _
  omega

/-- A new page with all its bytes free. -/
theorem addPage {page : Nat} (layout : Layout a pages xs)
    (fresh : page ∉ pages.map PageRecord.page) :
    Layout a (pages ++ [⟨page, pageSize⟩]) xs := by
  refine ⟨?_, ?_, ?_, layout.apart⟩
  · rw [List.map_append, List.map_singleton, List.nodup_append]
    refine ⟨layout.nodup, by simp, ?_⟩
    intro q listed p new same
    obtain rfl : p = page := List.mem_singleton.mp new
    exact fresh (same ▸ listed)
  · intro r member
    rcases List.mem_append.mp member with old | new
    · exact layout.marks r old
    · rw [List.mem_singleton.mp new]
      simp
  · intro x member
    obtain ⟨pos, start, size, r, listed, below⟩ := layout.placed x member
    exact ⟨pos, start, size, r, List.mem_append_left _ listed, below⟩

/-- The next `n` bytes at the end of a page are taken. -/
theorem takeEnd {before after : List PageRecord} {r : PageRecord} {n : Nat}
    (layout : Layout a (before ++ r :: after) xs) (pos : 0 < n) (dvd : a ∣ n) (room : n ≤ r.free) :
    Layout a (before ++ { r with free := r.free - n } :: after)
      (⟨r.page, pageSize - r.free, n⟩ :: xs) := by
  have listed : r ∈ before ++ r :: after := by simp
  obtain ⟨free_le, mark⟩ := layout.marks r listed
  have mark' : pageSize - (r.free - n) = pageSize - r.free + n := by omega
  have split : ∀ x ∈ before ++ { r with free := r.free - n } :: after,
      x = { r with free := r.free - n } ∨ x ∈ before ++ r :: after := by
    intro x member
    simp only [List.mem_append, List.mem_cons] at member ⊢
    tauto
  -- a record of the old list gives one of the new list with a mark at least as high
  have raised : ∀ x ∈ before ++ r :: after, ∃ x' ∈ before ++ { r with free := r.free - n } :: after,
      x'.page = x.page ∧ pageSize - x.free ≤ pageSize - x'.free := by
    intro x member
    simp only [List.mem_append, List.mem_cons] at member ⊢
    rcases member with old | rfl | old
    · exact ⟨x, .inl old, rfl, Nat.le_refl _⟩
    · exact ⟨_, .inr (.inl rfl), rfl, by change _ ≤ pageSize - (x.free - n); omega⟩
    · exact ⟨x, .inr (.inr old), rfl, Nat.le_refl _⟩
  have unique : ∀ x ∈ before ++ r :: after, x.page = r.page → x = r := fun x member page =>
    List.inj_on_of_nodup_map layout.nodup member listed page
  refine ⟨?_, ?_, ?_, List.pairwise_cons.mpr ⟨?_, layout.apart⟩⟩
  · simpa using layout.nodup
  · intro x member
    rcases split x member with rfl | old
    · refine ⟨Nat.le_trans (Nat.sub_le _ _) free_le, ?_⟩
      change a ∣ pageSize - (r.free - n)
      rw [mark']
      exact Nat.dvd_add mark dvd
    · exact layout.marks x old
  · rw [List.forall_mem_cons]
    refine ⟨⟨pos, mark, dvd, { r with free := r.free - n }, by simp, rfl, Nat.le_of_eq mark'.symm⟩, ?_⟩
    intro x member
    obtain ⟨posx, start, size, q, listedq, page, below⟩ := layout.placed x member
    obtain ⟨q', listedq', page', higher⟩ := raised q listedq
    exact ⟨posx, start, size, q', listedq', page'.trans page, Nat.le_trans below higher⟩
  · intro x member
    obtain ⟨_, _, _, q, listedq, page, below⟩ := layout.placed x member
    by_cases same : r.page = x.page
    · obtain rfl := unique q listedq (page.trans same.symm)
      exact .inr (.inr below)
    · exact .inl same

end Layout

/-- A freed segment that meets the end of another one: the saturated sums are exact. -/
theorem meets_end {a : Nat} {pages : List PageRecord} {n s : FreeSegment} (wide : 2 ≤ a)
    (sound : SoundSegment a n) (placed : Placed a pages (freeExtent a s))
    (meets : min (n.offset + n.size) msizeMax = s.offset) :
    n.size = alignUp a n.size ∧ n.offset + n.size = s.offset := by
  have fits : s.offset + alignUp a s.size ≤ pageSize := placed.end_le
  have large : a ≤ alignUp a s.size := placed.align_le
  rw [pageSize_eq] at fits
  unfold msizeMax at meets
  have sum : n.offset + n.size = s.offset := by omega
  refine ⟨?_, sum⟩
  rcases sound.exact_or_last with whole | ⟨_, last⟩
  · exact whole
  · rw [pageSize_eq] at last
    omega

/-- A segment joined with the exact one before it, with a saturating sum of the sizes. -/
theorem joined_segment {a : Nat} (page : Nat) {n s : FreeSegment} {pages : List PageRecord} (wide : 2 ≤ a)
    (whole : n.size = alignUp a n.size) (next : n.offset + n.size = s.offset) (posn : 0 < n.size)
    (sound : SoundSegment a s) (placed : Placed a pages (freeExtent a s)) :
    SoundSegment a ⟨page, n.offset, min (n.size + s.size) msizeMax⟩ ∧
      alignUp a (min (n.size + s.size) msizeMax) = n.size + alignUp a s.size := by
  have fits : s.offset + alignUp a s.size ≤ pageSize := placed.end_le
  have multiple : a ∣ n.size + alignUp a s.size := by
    refine Nat.dvd_add ?_ (dvd_alignUp a s.size)
    rw [whole]
    exact dvd_alignUp a n.size
  have grow := alignUp_ge s.size (show 0 < a by omega)
  have pos := sound.pos
  have aligned : alignUp a (min (n.size + s.size) msizeMax) = n.size + alignUp a s.size := by
    apply alignUp_eq_of_dvd (by omega) multiple
    · rcases sound.exact_or_last with exact_size | ⟨short, _⟩
      · rw [pageSize_eq] at fits
        unfold msizeMax
        omega
      · rw [pageSize_eq] at fits
        unfold msizeMax
        omega
    · omega
  refine ⟨⟨?_, ?_⟩, aligned⟩
  · change 0 < min (n.size + s.size) msizeMax
    unfold msizeMax
    omega
  · dsimp only
    rw [aligned]
    rw [pageSize_eq] at fits ⊢
    unfold msizeMax
    rcases sound.exact_or_last with exact_size | ⟨short, last⟩
    · omega
    · rw [pageSize_eq] at last
      omega

/-- Freeing a segment, with all its merges, keeps the layout. -/
theorem Absorbs.layout {a : Nat} {pages : List PageRecord} {segs segs' : List FreeSegment}
    {s : FreeSegment} {others : List Extent} (wide : 2 ≤ a) (absorbed : Absorbs segs s segs')
    (sounds : ∀ x ∈ segs, SoundSegment a x) (sound : SoundSegment a s)
    (layout : Layout a pages (freeExtent a s :: (segs.map (freeExtent a) ++ others))) :
    (∀ x ∈ segs', SoundSegment a x) ∧ Layout a pages (segs'.map (freeExtent a) ++ others) := by
  induction absorbed with
  | push placed =>
      constructor
      · intro x member
        rcases List.mem_cons.mp (placed.mem_iff.mp member) with rfl | old
        · exact sound
        · exact sounds x old
      · exact layout.perm ((placed.map (freeExtent a)).append_right others).symm
  | @before segs s segs' n rest taken page meets _ ih =>
      have old := fun x member => sounds x (taken.mem_iff.mpr member)
      rw [List.forall_mem_cons] at old
      have ordered : Layout a pages
          (freeExtent a n :: freeExtent a s :: (rest.map (freeExtent a) ++ others)) := by
        refine layout.perm ?_
        refine (List.Perm.cons _ ((taken.map (freeExtent a)).append_right others)).trans ?_
        exact .swap _ _ _
      have placed := ordered.placed _ (List.mem_cons_of_mem _ List.mem_cons_self)
      obtain ⟨whole, next⟩ := meets_end wide old.1 placed meets
      obtain ⟨joined, size⟩ :=
        joined_segment s.page wide whole next old.1.pos sound placed
      refine ih old.2 joined ?_
      have merged := ordered.join page.symm (by
        change s.offset = n.offset + alignUp a n.size
        omega)
      have extent : freeExtent a ⟨s.page, n.offset, min (n.size + s.size) msizeMax⟩ =
          ⟨n.page, n.offset, alignUp a n.size + alignUp a s.size⟩ := by
        unfold freeExtent
        rw [size, page, ← whole]
      rw [extent]
      exact merged
  | @after segs s segs' n rest taken page meets _ ih =>
      have old := fun x member => sounds x (taken.mem_iff.mpr member)
      rw [List.forall_mem_cons] at old
      have ordered : Layout a pages
          (freeExtent a s :: freeExtent a n :: (rest.map (freeExtent a) ++ others)) :=
        layout.perm (List.Perm.cons _ ((taken.map (freeExtent a)).append_right others))
      have placed := ordered.placed _ (List.mem_cons_of_mem _ List.mem_cons_self)
      obtain ⟨whole, next⟩ := meets_end wide sound placed meets.symm
      obtain ⟨joined, size⟩ :=
        joined_segment s.page wide whole next sound.pos old.1 placed
      refine ih old.2 joined ?_
      have merged := ordered.join page (by
        change n.offset = s.offset + alignUp a s.size
        omega)
      have extent : freeExtent a ⟨s.page, s.offset, min (s.size + n.size) msizeMax⟩ =
          ⟨s.page, s.offset, alignUp a s.size + alignUp a n.size⟩ := by
        unfold freeExtent
        rw [size, ← whole]
      rw [extent]
      exact merged

/-- Taking the first bytes of a free segment keeps the layout. -/
theorem remainder_layout {a used : Nat} {pages : List PageRecord} {s : FreeSegment}
    {others : List Extent} (wide : 2 ≤ a) (sound : SoundSegment a s) (pos : 0 < used)
    (dvd : a ∣ used) (inside : used ≤ alignUp a s.size)
    (layout : Layout a pages (freeExtent a s :: others)) :
    (∀ x ∈ FreeSegmentsTable.remainder s used, SoundSegment a x) ∧
      Layout a pages (⟨s.page, s.offset, used⟩ ::
        ((FreeSegmentsTable.remainder s used).map (freeExtent a) ++ others)) := by
  have placed := layout.placed _ List.mem_cons_self
  have fits : s.offset + alignUp a s.size ≤ pageSize := placed.end_le
  have grow := alignUp_ge s.size (show 0 < a by omega)
  have gap : a ∣ alignUp a s.size - used := Nat.dvd_sub (dvd_alignUp a s.size) dvd
  unfold FreeSegmentsTable.remainder
  split
  · rename_i partly
    have offset : min (s.offset + used) msizeMax = s.offset + used := by
      rw [pageSize_eq] at fits
      unfold msizeMax
      omega
    have size : alignUp a (s.size - used) = alignUp a s.size - used := by
      apply alignUp_eq_of_dvd (by omega) gap
      · rcases sound.exact_or_last with whole | ⟨short, _⟩ <;> omega
      · omega
    constructor
    · intro x member
      rw [List.mem_singleton.mp member, offset]
      refine ⟨by change 0 < s.size - used; omega, ?_⟩
      dsimp only
      rw [size]
      rcases sound.exact_or_last with whole | ⟨short, last⟩ <;> omega
    · have parts := layout.cut pos dvd (show used < alignUp a s.size by omega)
      simp only [List.map_cons, List.map_nil, freeExtent, offset, size]
      exact parts
  · rename_i all
    have whole : used = alignUp a s.size := by
      by_contra short
      have least := Nat.le_of_dvd (by omega) gap
      rcases sound.exact_or_last with exact_size | ⟨one, _⟩ <;> omega
    refine ⟨by simp, ?_⟩
    rw [whole]
    exact layout

end WasmDbms
