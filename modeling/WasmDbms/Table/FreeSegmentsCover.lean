import Mathlib.Tactic.Tauto
import WasmDbms.Table.FreeSegments

/-!
# The bytes that free segments cover

A table of free segments stands for a set of bytes. An insertion adds the bytes of
its segment, as long as the segments it merges do not make up a whole page: the size
of that one does not fit a `u16`.
-/
namespace WasmDbms
open MemoryManager

namespace FreeSegment

/-- The byte belongs to the segment. -/
def Covers (s : FreeSegment) (page i : Nat) : Prop := page = s.page ∧ s.offset ≤ i ∧ i < s.offset + s.size

def Apart (a b : FreeSegment) : Prop := ∀ page i, ¬ (a.Covers page i ∧ b.Covers page i)

/-- The second segment begins where the first one ends, as the ends are computed. -/
def Meets (a b : FreeSegment) : Prop := a.page = b.page ∧ min (a.offset + a.size) msizeMax = b.offset

theorem Apart.symm {a b : FreeSegment} (apart : a.Apart b) : b.Apart a := fun page i both => apart page i ⟨both.2, both.1⟩

theorem Apart.at {a b : FreeSegment} (apart : a.Apart b) (same : a.page = b.page) (i : Nat) :
    ¬ (a.offset ≤ i ∧ i < a.offset + a.size ∧ b.offset ≤ i ∧ i < b.offset + b.size) :=
  fun both => apart a.page i ⟨⟨rfl, both.1, both.2.1⟩, ⟨same, both.2.2⟩⟩

/-- Two segments of a page that are not empty lie one before the other. -/
theorem Apart.order {a b : FreeSegment} (apart : a.Apart b) (same : a.page = b.page) (filledA : 0 < a.size)
    (filledB : 0 < b.size) : a.offset + a.size ≤ b.offset ∨ b.offset + b.size ≤ a.offset := by
  have first := apart.at same a.offset
  have second := apart.at same b.offset
  omega

end FreeSegment

/-- Segments in order: typed, within their pages and pairwise disjoint. -/
structure Tidy (segs : List FreeSegment) : Prop where
  typed : ∀ s ∈ segs, s.Typed
  inside : ∀ s ∈ segs, s.offset + s.size ≤ pageSize
  apart : segs.Pairwise FreeSegment.Apart

def Covered (segs : List FreeSegment) (page i : Nat) : Prop := ∃ s ∈ segs, s.Covers page i

theorem covered_cons {s : FreeSegment} {segs : List FreeSegment} {page i : Nat} :
    Covered (s :: segs) page i ↔ s.Covers page i ∨ Covered segs page i := by
  simp [Covered]

theorem covered_perm {segs segs' : List FreeSegment} (perm : segs.Perm segs') {page i : Nat} :
    Covered segs page i ↔ Covered segs' page i := by
  simp [Covered, perm.mem_iff]

namespace Tidy

theorem of_perm {segs segs' : List FreeSegment} (tidy : Tidy segs) (perm : segs'.Perm segs) : Tidy segs' where
  typed := fun s member => tidy.typed s (perm.mem_iff.mp member)
  inside := fun s member => tidy.inside s (perm.mem_iff.mp member)
  apart := (perm.pairwise_iff FreeSegment.Apart.symm).mpr tidy.apart

theorem tail {s : FreeSegment} {segs : List FreeSegment} (tidy : Tidy (s :: segs)) : Tidy segs where
  typed := fun x member => tidy.typed x (List.mem_cons_of_mem _ member)
  inside := fun x member => tidy.inside x (List.mem_cons_of_mem _ member)
  apart := (List.pairwise_cons.mp tidy.apart).2

theorem head_apart {s : FreeSegment} {segs : List FreeSegment} (tidy : Tidy (s :: segs)) :
    ∀ x ∈ segs, s.Apart x := (List.pairwise_cons.mp tidy.apart).1

/-- Two segments in front are replaced by one that covers their bytes. -/
theorem join {s n u : FreeSegment} {segs rest : List FreeSegment} (tidy : Tidy (s :: segs))
    (taken : segs.Perm (n :: rest)) (typed : u.Typed) (inside : u.offset + u.size ≤ pageSize)
    (union : ∀ page i, u.Covers page i ↔ n.Covers page i ∨ s.Covers page i) : Tidy (u :: rest) := by
  have whole := tidy.of_perm (taken.symm.cons s)
  have left := whole.tail
  refine ⟨List.forall_mem_cons.mpr ⟨typed, left.tail.typed⟩, List.forall_mem_cons.mpr ⟨inside, left.tail.inside⟩,
    List.pairwise_cons.mpr ⟨fun x member page i both => ?_, left.tail.apart⟩⟩
  rcases (union page i).mp both.1 with old | new
  · exact left.head_apart x member page i ⟨old, both.2⟩
  · exact whole.head_apart x (List.mem_cons_of_mem _ member) page i ⟨new, both.2⟩

end Tidy

/-! ## What a merge covers -/

section Merge

variable {s n : FreeSegment} (typed : s.Typed) (typedN : n.Typed) (inside : s.offset + s.size ≤ pageSize)
  (insideN : n.offset + n.size ≤ pageSize) (apart : s.Apart n)
include typed typedN inside insideN apart

/-- A segment and one before it, unless they make up a page. -/
theorem merged_before (meets : n.Meets s) (small : n.size + s.size ≤ msizeMax) :
    n.offset + (n.size + s.size) ≤ pageSize ∧ ∀ page i,
      (⟨s.page, n.offset, n.size + s.size⟩ : FreeSegment).Covers page i ↔ n.Covers page i ∨ s.Covers page i := by
  obtain ⟨same, ends⟩ := meets
  have offset := typed.2.1
  have offsetN := typedN.2.1
  -- an end past the last offset is cut off, which only an empty segment can meet
  have clash := apart.at same.symm s.offset
  rw [pageSize_eq] at *
  unfold msizeMax at *
  refine ⟨by omega, fun page i => ?_⟩
  unfold FreeSegment.Covers
  dsimp only
  rw [same]
  omega

/-- A segment and one after it, unless they make up a page. -/
theorem merged_after (meets : s.Meets n) (small : s.size + n.size ≤ msizeMax) :
    s.offset + (s.size + n.size) ≤ pageSize ∧ ∀ page i,
      (⟨s.page, s.offset, s.size + n.size⟩ : FreeSegment).Covers page i ↔ n.Covers page i ∨ s.Covers page i := by
  obtain ⟨same, ends⟩ := meets
  have offset := typed.2.1
  have offsetN := typedN.2.1
  have clash := apart.at same n.offset
  rw [pageSize_eq] at *
  unfold msizeMax at *
  refine ⟨by omega, fun page i => ?_⟩
  unfold FreeSegment.Covers
  dsimp only
  rw [same]
  omega

/-- Segments that meet and are too large for one make up the page. -/
theorem merged_page (meets : n.Meets s ∨ s.Meets n) (large : msizeMax < n.size + s.size) :
    n.page = s.page ∧ n.size + s.size = pageSize ∧ (n.Meets s → n.offset = 0) ∧ (s.Meets n → s.offset = 0) ∧
      ∀ i < pageSize, n.Covers s.page i ∨ s.Covers s.page i := by
  have offset := typed.2.1
  have offsetN := typedN.2.1
  have size := typed.2.2
  have sizeN := typedN.2.2
  have same : n.page = s.page := by
    rcases meets with before | after
    · exact before.1
    · exact after.1.symm
  have order := apart.order same.symm
  rw [pageSize_eq] at *
  unfold FreeSegment.Meets FreeSegment.Covers msizeMax at *
  refine ⟨same, by omega, by omega, by omega, fun i small => ?_⟩
  rw [same]
  omega

end Merge

/-! ## An insertion -/

/-- How a freed segment gets into a list of segments: neighbours are merged with it until
none is left. -/
inductive Merges : List FreeSegment → FreeSegment → List FreeSegment → Prop where
  | push {segs s segs'} (free : ∀ r ∈ segs, ¬ r.Meets s ∧ ¬ s.Meets r) (placed : segs'.Perm (s :: segs)) :
      Merges segs s segs'
  | before {segs s segs' n rest} (taken : segs.Perm (n :: rest)) (meets : n.Meets s)
      (merged : Merges rest ⟨s.page, n.offset, min (n.size + s.size) msizeMax⟩ segs') : Merges segs s segs'
  | after {segs s segs' n rest} (taken : segs.Perm (n :: rest)) (meets : s.Meets n)
      (merged : Merges rest ⟨s.page, s.offset, min (s.size + n.size) msizeMax⟩ segs') : Merges segs s segs'

theorem Merges.of_perm {segs segs₀ segs' : List FreeSegment} {s : FreeSegment} (merges : Merges segs s segs')
    (perm : segs₀.Perm segs) : Merges segs₀ s segs' := by
  cases merges with
  | push free placed => exact .push (fun r member => free r (perm.mem_iff.mp member)) (placed.trans (.cons _ perm.symm))
  | before taken meets merged => exact .before (perm.trans taken) meets merged
  | after taken meets merged => exact .after (perm.trans taken) meets merged

/-- The free bytes of the page and those of the new segment are the whole page. An empty
segment only matters where it meets one that is not empty. -/
def Fills (segs : List FreeSegment) (s : FreeSegment) : Prop :=
  (∀ i < pageSize, Covered segs s.page i ∨ s.Covers s.page i) ∧
    (0 < s.size ∨ ∃ r ∈ segs, 0 < r.size ∧ (r.Meets s ∨ s.Meets r))

/-- What an insertion is to leave. -/
structure Inserted (segs : List FreeSegment) (s : FreeSegment) (segs' : List FreeSegment) : Prop where
  apart : segs'.Pairwise FreeSegment.Apart
  covers : ∀ page i, Covered segs' page i ↔ Covered segs page i ∨ s.Covers page i
  merged : ∃ u rest, segs'.Perm (u :: rest) ∧ u.page = s.page ∧ u.offset ≤ s.offset ∧
    s.offset + s.size ≤ u.offset + u.size ∧
    ∀ r ∈ rest, r.page = u.page → r.offset + r.size ≠ u.offset ∧ u.offset + u.size ≠ r.offset

section Insertion

variable {segs segs' rest : List FreeSegment} {s n u : FreeSegment}

/-- One merge does not change whether the page is filled. -/
theorem fills_merged (taken : segs.Perm (n :: rest)) (page : u.page = s.page)
    (meets : n.Meets s ∨ s.Meets n) (union : ∀ page i, u.Covers page i ↔ n.Covers page i ∨ s.Covers page i)
    (size : u.size = n.size + s.size) (start : u.offset = n.offset ∨ u.offset = s.offset)
    (typed : s.offset ≤ msizeMax) (typedN : n.offset ≤ msizeMax) : Fills rest u ↔ Fills segs s := by
  have covered : (∀ i < pageSize, Covered rest u.page i ∨ u.Covers u.page i) ↔
      ∀ i < pageSize, Covered segs s.page i ∨ s.Covers s.page i := by
    refine forall₂_congr fun i _ => ?_
    rw [page, covered_perm taken, covered_cons, union]
    tauto
  unfold Fills
  rw [covered]
  refine and_congr_right fun _ => ?_
  have members : ∀ r, r ∈ segs ↔ r = n ∨ r ∈ rest := fun r => by rw [taken.mem_iff, List.mem_cons]
  by_cases filled : 0 < s.size
  · exact iff_of_true (.inl (by omega)) (.inl filled)
  · by_cases other : 0 < n.size
    · exact iff_of_true (.inl (by omega)) (.inr ⟨n, (members n).mpr (.inl rfl), other, meets⟩)
    · -- two empty segments at one place
      have place : u.offset = s.offset := by
        rcases start with same | same
        · unfold FreeSegment.Meets at meets
          omega
        · exact same
      have same : ∀ r : FreeSegment, (r.Meets u ↔ r.Meets s) ∧ (u.Meets r ↔ s.Meets r) := by
        intro r
        unfold FreeSegment.Meets
        rw [page, place]
        omega
      constructor
      · rintro (big | ⟨r, member, big, touches⟩)
        · omega
        · exact .inr ⟨r, (members r).mpr (.inr member), big, by rwa [(same r).1, (same r).2] at touches⟩
      · rintro (big | ⟨r, member, big, touches⟩)
        · omega
        · rcases (members r).mp member with rfl | left
          · exact absurd big other
          · exact .inr ⟨r, left, big, by rwa [(same r).1, (same r).2]⟩

/-- A segment that nothing meets is put down as it is. -/
theorem Inserted.push (tidy : Tidy (s :: segs)) (free : ∀ r ∈ segs, ¬ r.Meets s ∧ ¬ s.Meets r)
    (placed : segs'.Perm (s :: segs)) : Inserted segs s segs' where
  apart := (tidy.of_perm placed).apart
  covers := by
    intro page i
    rw [covered_perm placed, covered_cons, or_comm]
  merged := by
    refine ⟨s, segs, placed, rfl, Nat.le_refl _, Nat.le_refl _, fun r member same => ⟨fun ends => ?_, fun ends => ?_⟩⟩
    · have offset := (tidy.typed s List.mem_cons_self).2.1
      exact (free r member).1 ⟨same, by omega⟩
    · have offset := (tidy.typed r (List.mem_cons_of_mem _ member)).2.1
      exact (free r member).2 ⟨same.symm, by omega⟩

/-- What is left after one merge has been left of the whole insertion. -/
theorem Inserted.of_merged (taken : segs.Perm (n :: rest)) (page : u.page = s.page)
    (union : ∀ page i, u.Covers page i ↔ n.Covers page i ∨ s.Covers page i) (low : u.offset ≤ s.offset)
    (high : s.offset + s.size ≤ u.offset + u.size) (inserted : Inserted rest u segs') : Inserted segs s segs' where
  apart := inserted.apart
  covers := by
    intro page i
    rw [inserted.covers, covered_perm taken, covered_cons, union]
    tauto
  merged := by
    obtain ⟨v, left, placed, samePage, lower, higher, alone⟩ := inserted.merged
    exact ⟨v, left, placed, samePage.trans page, by omega, by omega, alone⟩

/-- The last merge of a page that is filled cut one byte off; it stays lost. -/
theorem Merges.page_lost (merges : Merges segs s segs') (offset : s.offset = 0) (size : s.size = msizeMax)
    (empty : ∀ r ∈ segs, r.page = s.page → r.size = 0) : ¬ Covered segs' s.page msizeMax := by
  induction merges with
  | @push segs s segs' free placed =>
      rintro ⟨r, member, same, low, high⟩
      rcases List.mem_cons.mp (placed.mem_iff.mp member) with rfl | old
      · omega
      · have none := empty r old same.symm
        omega
  | @before segs s segs' n rest taken meets merged ih =>
      have zero := empty n (taken.mem_iff.mpr List.mem_cons_self) meets.1
      have ends := meets.2
      refine ih ?_ ?_ fun r member same => empty r (taken.mem_iff.mpr (List.mem_cons_of_mem _ member)) same
      · change n.offset = 0
        unfold msizeMax at ends
        omega
      · change min (n.size + s.size) msizeMax = msizeMax
        omega
  | @after segs s segs' n rest taken meets merged ih =>
      have zero := empty n (taken.mem_iff.mpr List.mem_cons_self) meets.1.symm
      refine ih offset ?_ fun r member same => empty r (taken.mem_iff.mpr (List.mem_cons_of_mem _ member)) same
      change min (s.size + n.size) msizeMax = msizeMax
      omega

/-- With the page filled, whatever is beside two segments that make it up is empty. -/
theorem Tidy.beside_page (tidy : Tidy (s :: segs)) (taken : segs.Perm (n :: rest))
    (whole : ∀ i < pageSize, n.Covers s.page i ∨ s.Covers s.page i) :
    ∀ r ∈ rest, r.page = s.page → r.size = 0 := by
  intro r member same
  have order := tidy.of_perm (taken.symm.cons s)
  have apart := order.head_apart r (List.mem_cons_of_mem _ member)
  have apartN := order.tail.head_apart r member
  have inside := order.inside r (by simp [member])
  by_contra filled
  have first := whole r.offset (by omega)
  have here : r.Covers s.page r.offset := ⟨same.symm, Nat.le_refl _, by omega⟩
  rcases first with inN | inS
  · exact apartN s.page r.offset ⟨inN, here⟩
  · exact apart s.page r.offset ⟨inS, here⟩

/-- A segment that nothing meets does not fill its page. -/
theorem not_fills_of_free (tidy : Tidy (s :: segs)) (free : ∀ r ∈ segs, ¬ r.Meets s ∧ ¬ s.Meets r) : ¬ Fills segs s := by
  rintro ⟨whole, filled | ⟨r, member, _, touches⟩⟩
  · have typed := tidy.typed s List.mem_cons_self
    have inside := tidy.inside s List.mem_cons_self
    obtain ⟨_, offset, size⟩ := typed
    -- the byte before the segment, or the one behind it
    by_cases start : s.offset = 0
    · have small : s.size < pageSize := by
        rw [pageSize_eq]
        unfold msizeMax at size
        omega
      rcases whole s.size small with ⟨r, member, same, low, high⟩ | ⟨_, _, high⟩
      · have order := (tidy.head_apart r member).order same filled (by omega)
        refine (free r member).2 ⟨same, ?_⟩
        omega
      · omega
    · rcases whole (s.offset - 1) (by omega) with ⟨r, member, same, low, high⟩ | ⟨_, low, _⟩
      · have order := (tidy.head_apart r member).order same filled (by omega)
        refine (free r member).1 ⟨same.symm, ?_⟩
        omega
      · omega
  · rcases touches with before | after
    · exact (free r member).1 before
    · exact (free r member).2 after

/-- Two segments that are too large for one fill the page. -/
theorem Tidy.fills_of_large (tidy : Tidy (s :: segs)) (taken : segs.Perm (n :: rest)) (meets : n.Meets s ∨ s.Meets n)
    (large : msizeMax < n.size + s.size) :
    Fills segs s ∧ (n.Meets s → n.offset = 0) ∧ (s.Meets n → s.offset = 0) ∧
      ∀ r ∈ rest, r.page = s.page → r.size = 0 := by
  have order := tidy.of_perm (taken.symm.cons s)
  have first : n ∈ s :: n :: rest := by simp
  obtain ⟨_, _, startN, start, whole⟩ := merged_page (order.typed s List.mem_cons_self) (order.typed n first)
    (order.inside s List.mem_cons_self) (order.inside n first) (order.head_apart n List.mem_cons_self) meets large
  refine ⟨⟨fun i inPage => ?_, ?_⟩, startN, start, tidy.beside_page taken whole⟩
  · rw [covered_perm taken, covered_cons]
    rcases whole i inPage with inN | inS
    · exact .inl (.inl inN)
    · exact .inr inS
  · by_cases filled : 0 < s.size
    · exact .inl filled
    · exact .inr ⟨n, taken.mem_iff.mpr List.mem_cons_self, by omega, meets⟩

/-- The merges do what an insertion is to do, unless the page is filled; then its last byte is lost. -/
theorem Merges.spec (merges : Merges segs s segs') (tidy : Tidy (s :: segs)) :
    (¬ Fills segs s → Inserted segs s segs') ∧ (Fills segs s → ¬ Covered segs' s.page msizeMax) := by
  induction merges with
  | @push segs s segs' free placed =>
      exact ⟨fun _ => .push tidy free placed, fun fills => absurd fills (not_fills_of_free tidy free)⟩
  | @before segs s segs' n rest taken meets merged ih =>
      have order := tidy.of_perm (taken.symm.cons s)
      have typed := order.typed s List.mem_cons_self
      have typedN := order.typed n (by simp)
      by_cases small : n.size + s.size ≤ msizeMax
      · rw [Nat.min_eq_left small] at merged ih
        obtain ⟨within, union⟩ := merged_before typed typedN (order.inside s List.mem_cons_self)
          (order.inside n (by simp)) (order.head_apart n List.mem_cons_self) meets small
        have still : Fills rest ⟨s.page, n.offset, n.size + s.size⟩ ↔ Fills segs s :=
          fills_merged taken rfl (.inl meets) union rfl (.inl rfl) typed.2.1 typedN.2.1
        have next := ih (tidy.join taken ⟨typed.1, typedN.2.1, small⟩ within union)
        rw [still] at next
        have ends := meets.2
        have bound := typedN.2.1
        refine ⟨fun fills => .of_merged (u := ⟨s.page, n.offset, n.size + s.size⟩) taken rfl union ?_ ?_ (next.1 fills),
          next.2⟩
        · change n.offset ≤ s.offset
          omega
        · change s.offset + s.size ≤ n.offset + (n.size + s.size)
          omega
      · have large := Nat.lt_of_not_le small
        obtain ⟨fills, start, _, beside⟩ := tidy.fills_of_large taken (.inl meets) large
        exact ⟨fun not => absurd fills not,
          fun _ => merged.page_lost (start meets) (Nat.min_eq_right (Nat.le_of_lt large)) beside⟩
  | @after segs s segs' n rest taken meets merged ih =>
      have order := tidy.of_perm (taken.symm.cons s)
      have typed := order.typed s List.mem_cons_self
      have typedN := order.typed n (by simp)
      by_cases small : s.size + n.size ≤ msizeMax
      · rw [Nat.min_eq_left small] at merged ih
        obtain ⟨within, union⟩ := merged_after typed typedN (order.inside s List.mem_cons_self)
          (order.inside n (by simp)) (order.head_apart n List.mem_cons_self) meets small
        have still : Fills rest ⟨s.page, s.offset, s.size + n.size⟩ ↔ Fills segs s :=
          fills_merged taken rfl (.inr meets) union (Nat.add_comm _ _) (.inr rfl) typed.2.1 typedN.2.1
        have next := ih (tidy.join taken ⟨typed.1, typed.2.1, small⟩ within union)
        rw [still] at next
        refine ⟨fun fills => .of_merged (u := ⟨s.page, s.offset, s.size + n.size⟩) taken rfl union (Nat.le_refl _) ?_
          (next.1 fills), next.2⟩
        change s.offset + s.size ≤ s.offset + (s.size + n.size)
        omega
      · have large : msizeMax < n.size + s.size := by omega
        obtain ⟨fills, _, start, beside⟩ := tidy.fills_of_large taken (.inr meets) large
        exact ⟨fun not => absurd fills not,
          fun _ => merged.page_lost (start meets) (Nat.min_eq_right (by omega)) beside⟩

/-- The merges do what an insertion is to do exactly when the page is not filled. -/
theorem Merges.inserted_iff (merges : Merges segs s segs') (tidy : Tidy (s :: segs)) :
    Inserted segs s segs' ↔ ¬ Fills segs s := by
  obtain ⟨done, lost⟩ := merges.spec tidy
  refine ⟨fun inserted fills => lost fills ((inserted.covers s.page msizeMax).mpr ?_), done⟩
  refine fills.1 msizeMax ?_
  rw [pageSize_eq]
  decide

end Insertion

namespace FreeSegmentsTable

/-- A table on an allocated page is written. -/
theorem commit_available {m : MemoryManager} {t : FreeSegmentsTable} (alloc : t.page < m.pages) :
    ∃ m', m.Runs t.commit () m' ∧ m'.pages = m.pages := by
  have small := t.encode_fits
  have inPage : 0 + (padded t.encoded).length ≤ pageSize := by
    rw [Nat.zero_add, padded_length]
    refine alignUp_le_of_dvd t.encoded.alignment_pos ?_ ?_
    · change defaultAlignment ∣ pageSize
      rw [pageSize_eq, defaultAlignment]
      omega
    · change (FreeSegmentsList.encode t.records).length ≤ pageSize
      rw [FreeSegmentsList.encode_length, pageSize_eq]
      omega
  have written : m.Runs t.commit () (m.writeBytes t.page 0 (padded t.encoded)) :=
    runs_writeAt.mpr ⟨alloc, Nat.dvd_zero _, inPage, rfl⟩
  exact ⟨_, written, rfl⟩

/-- A record of the table is taken out. -/
theorem remove_available {m : MemoryManager} {t : FreeSegmentsTable} {s : FreeSegment} (used : Nat)
    (member : s ∈ t.records) (alloc : t.page < m.pages) :
    ∃ t' m', m.Runs (t.remove s used) t' m' ∧ m'.pages = m.pages := by
  unfold remove
  split
  · rename_i missing
    rw [List.findIdx?_eq_none_iff] at missing
    exact absurd (missing s member) (by simp)
  · rename_i pos found
    obtain ⟨m', written, pages⟩ := commit_available (t := ⟨t.page, swapRemove t.records pos ++ remainder s used, by
      obtain ⟨inside, _⟩ := List.findIdx?_eq_some_iff_getElem.mp found
      have short := remainder_length s used
      have bounded := t.bounded
      rw [List.length_append, swapRemove_length inside]
      omega⟩) alloc
    exact ⟨_, m', runs_bind.mpr ⟨(), m', written, runs_pure.mpr ⟨rfl, rfl⟩⟩, pages⟩

/-- Where no neighbour is found, nothing meets the segment. -/
theorem hasAdjacentSegment_none {t : FreeSegmentsTable} {page offset size : Nat}
    (missing : t.hasAdjacentSegment page offset size = none) :
    ∀ r ∈ t.records, ¬ r.Meets ⟨page, offset, size⟩ ∧ ¬ FreeSegment.Meets ⟨page, offset, size⟩ r := by
  intro r member
  unfold hasAdjacentSegment at missing
  split at missing
  · cases missing
  · rename_i before
    split at missing
    · cases missing
    · rename_i after
      have first := List.find?_eq_none.mp before r member
      have second := List.find?_eq_none.mp after r member
      simp only [decide_eq_true_eq] at first second
      exact ⟨fun meets => first meets, fun meets => second ⟨meets.1.symm, meets.2.symm⟩⟩

/-- An insertion that has ended, and what it did with the records. -/
def Ended (m : MemoryManager) (t : FreeSegmentsTable) (insertion : Prog FreeSegmentsTable) (s : FreeSegment) : Prop :=
  ∃ t' m', m.Runs insertion t' m' ∧ t'.page = t.page ∧ m'.pages = m.pages ∧ Merges t.records s t'.records

/-- One merge: the neighbour is taken out, the union inserted and the table written once more. -/
theorem merge_available {m : MemoryManager} {t : FreeSegmentsTable} {n s : FreeSegment}
    {insertion : FreeSegmentsTable → Prog FreeSegmentsTable} (member : n ∈ t.records) (alloc : t.page < m.pages)
    (next : ∀ (m₁ : MemoryManager) (t₁ : FreeSegmentsTable), t₁.page < m₁.pages →
      t₁.records.length + 1 = t.records.length → Ended m₁ t₁ (insertion t₁) s) :
    ∃ t' m', m.Runs (t.remove n n.size >>= fun t₁ => insertion t₁ >>= fun t₂ => t₂.commit >>= fun _ => pure t₂) t' m' ∧
      t'.page = t.page ∧ m'.pages = m.pages ∧ ∃ rest, t.records.Perm (n :: rest) ∧ Merges rest s t'.records := by
  obtain ⟨t₁, m₁, removed, pages₁⟩ := remove_available n.size member alloc
  obtain ⟨page₁, _, rest, taken, left⟩ := remove_runs member removed
  rw [remainder_whole, List.nil_append] at left
  have fewer : t₁.records.length + 1 = t.records.length := by
    rw [taken.length_eq, left.length_eq, List.length_cons]
  obtain ⟨t₂, m₂, inserted, page₂, pages₂, merged⟩ := next m₁ t₁ (by rw [page₁, pages₁]; exact alloc) fewer
  obtain ⟨m₃, written, pages₃⟩ := commit_available (m := m₂) (t := t₂) (by rw [page₂, page₁, pages₂, pages₁]; exact alloc)
  exact ⟨t₂, m₃, runs_bind.mpr ⟨_, _, removed, runs_bind.mpr ⟨_, _, inserted,
      runs_bind.mpr ⟨_, _, written, runs_pure.mpr ⟨rfl, rfl⟩⟩⟩⟩,
    page₂.trans page₁, by rw [pages₃, pages₂, pages₁], rest, taken, merged.of_perm left.symm⟩

/-- A segment with no neighbour is put at the end. -/
theorem insertFreeSegment_push {m : MemoryManager} {t : FreeSegmentsTable} {page offset size : Nat} (fuel : Nat)
    (room : t.records.length < maxSegments) (alloc : t.page < m.pages)
    (missing : t.hasAdjacentSegment page offset size = none) :
    Ended m t (insertFreeSegment fuel t page offset size) ⟨page, offset, size⟩ := by
  unfold insertFreeSegment
  rw [dif_neg (by omega)]
  simp only [missing]
  obtain ⟨m', written, pages⟩ := commit_available (m := m) (t := ⟨t.page, t.records ++ [⟨page, offset, size⟩], by
    rw [List.length_append, List.length_singleton]
    omega⟩) alloc
  exact ⟨_, m', runs_bind.mpr ⟨(), m', written, runs_pure.mpr ⟨rfl, rfl⟩⟩, rfl, pages,
    .push (hasAdjacentSegment_none missing) (List.perm_append_singleton _ _)⟩

/-- An insertion into a table with room ends, after at most as many merges as it has records. -/
theorem insertFreeSegment_available {fuel : Nat} {m : MemoryManager} {t : FreeSegmentsTable} {page offset size : Nat}
    (enough : t.records.length ≤ fuel) (room : t.records.length < maxSegments) (alloc : t.page < m.pages) :
    Ended m t (insertFreeSegment fuel t page offset size) ⟨page, offset, size⟩ := by
  induction fuel generalizing m t offset size with
  | zero =>
      have empty : t.records = [] := List.eq_nil_of_length_eq_zero (by omega)
      exact insertFreeSegment_push 0 room alloc (by simp [hasAdjacentSegment, empty])
  | succ fuel ih =>
      cases adjacent : t.hasAdjacentSegment page offset size with
      | none => exact insertFreeSegment_push _ room alloc adjacent
      | some a =>
          unfold insertFreeSegment
          rw [dif_neg (by omega)]
          cases a with
          | before n =>
              simp only [adjacent]
              obtain ⟨member, samePage, meets⟩ := hasAdjacentSegment_before adjacent
              obtain ⟨t', m', run, page', pages', rest, taken, merged⟩ := merge_available (m := m)
                (s := ⟨page, n.offset, min (n.size + size) msizeMax⟩) member alloc
                fun m₁ t₁ alloc₁ fewer => ih (m := m₁) (t := t₁) (by omega) (by omega) alloc₁
              exact ⟨t', m', run, page', pages', .before taken ⟨samePage, meets⟩ merged⟩
          | after n =>
              simp only [adjacent]
              obtain ⟨member, samePage, meets⟩ := hasAdjacentSegment_after adjacent
              obtain ⟨t', m', run, page', pages', rest, taken, merged⟩ := merge_available (m := m)
                (s := ⟨page, offset, min (size + n.size) msizeMax⟩) member alloc
                fun m₁ t₁ alloc₁ fewer => ih (m := m₁) (t := t₁) (by omega) (by omega) alloc₁
              exact ⟨t', m', run, page', pages', .after taken ⟨samePage.symm, meets.symm⟩ merged⟩

end FreeSegmentsTable

/-! ## A reused segment -/

/-- The bytes left of a segment are those behind the used ones. -/
theorem covered_remainder {s : FreeSegment} {used : Nat} (inside : s.offset + s.size ≤ pageSize) {page i : Nat} :
    Covered (FreeSegmentsTable.remainder s used) page i ↔ s.Covers page i ∧ s.offset + used ≤ i := by
  rw [pageSize_eq] at inside
  unfold FreeSegmentsTable.remainder
  split
  · have small : s.offset + used ≤ msizeMax := by
      unfold msizeMax
      omega
    rw [Nat.min_eq_left small]
    simp only [Covered, List.mem_singleton, exists_eq_left, FreeSegment.Covers]
    omega
  · simp only [Covered, List.not_mem_nil, false_and, exists_false, FreeSegment.Covers, false_iff]
    omega

/-- What a removal is to leave of the bytes. -/
structure Reused (segs : List FreeSegment) (s : FreeSegment) (used : Nat) (segs' : List FreeSegment) : Prop where
  apart : segs'.Pairwise FreeSegment.Apart
  covers : ∀ page i, Covered segs' page i ↔
    Covered segs page i ∧ ¬ (page = s.page ∧ s.offset ≤ i ∧ i < s.offset + used)

theorem Tidy.reused {segs rest segs' : List FreeSegment} {s : FreeSegment} {used : Nat} (tidy : Tidy segs)
    (taken : segs.Perm (s :: rest)) (left : segs'.Perm (FreeSegmentsTable.remainder s used ++ rest))
    (within : used ≤ s.size) : Reused segs s used segs' := by
  have order := tidy.of_perm taken.symm
  have remains : ∀ page i, Covered (FreeSegmentsTable.remainder s used) page i ↔
      s.Covers page i ∧ s.offset + used ≤ i :=
    fun page i => covered_remainder (order.inside s List.mem_cons_self)
  constructor
  · refine (left.pairwise_iff FreeSegment.Apart.symm).mpr (List.pairwise_append.mpr ⟨?_, order.tail.apart, ?_⟩)
    · unfold FreeSegmentsTable.remainder
      split
      · exact List.pairwise_singleton _ _
      · exact .nil
    · intro r member x other page i both
      exact order.head_apart x other page i ⟨((remains page i).mp ⟨r, member, both.1⟩).1, both.2⟩
  · intro page i
    have union : Covered segs' page i ↔ Covered (FreeSegmentsTable.remainder s used) page i ∨ Covered rest page i := by
      rw [covered_perm left]
      simp only [Covered, List.mem_append, or_and_right, exists_or]
    rw [union, remains, covered_perm taken, covered_cons]
    constructor
    · rintro (⟨here, behind⟩ | ⟨r, member, here⟩)
      · exact ⟨.inl here, fun hit => by omega⟩
      · refine ⟨.inr ⟨r, member, here⟩, fun hit => ?_⟩
        exact order.head_apart r member page i ⟨⟨hit.1, hit.2.1, by omega⟩, here⟩
    · rintro ⟨here | here, outside⟩
      · refine .inl ⟨here, ?_⟩
        have place := here
        unfold FreeSegment.Covers at place
        omega
      · exact .inr here

/-- A table of disjoint segments takes in every segment that is disjoint from them, and its
records then are what they should be unless a whole page is free; a segment that is reused
loses the bytes that are used. -/
theorem free_bytes_kept_iff {m : MemoryManager} {t : FreeSegmentsTable} (alloc : t.page < m.pages)
    (tidy : Tidy t.records) :
    (∀ s : FreeSegment, Tidy (s :: t.records) → t.records.length < maxSegments →
      ∃ t' m', m.Runs (t.insertFreeSegment t.records.length s.page s.offset s.size) t' m' ∧
        FreeSegmentsTable.Committed m t' m' ∧ t'.page = t.page ∧ t'.records.length ≤ maxSegments ∧
        (Inserted t.records s t'.records ↔ ¬ Fills t.records s)) ∧
    ∀ s ∈ t.records, ∀ used ≤ s.size,
      ∃ t' m', m.Runs (t.remove s used) t' m' ∧
        FreeSegmentsTable.Committed m t' m' ∧ t'.page = t.page ∧ t'.records.length ≤ maxSegments ∧
        Reused t.records s used t'.records := by
  constructor
  · intro s disjoint room
    obtain ⟨t', m', run, page, _, merges⟩ :
        FreeSegmentsTable.Ended m t (t.insertFreeSegment t.records.length s.page s.offset s.size) s :=
      FreeSegmentsTable.insertFreeSegment_available (Nat.le_refl _) room alloc
    obtain ⟨_, committed, _⟩ := FreeSegmentsTable.insertFreeSegment_runs run
    exact ⟨t', m', run, committed, page, t'.bounded, merges.inserted_iff disjoint⟩
  · intro s member used within
    obtain ⟨t', m', run, _⟩ := FreeSegmentsTable.remove_available used member alloc
    obtain ⟨page, committed, rest, taken, left⟩ := FreeSegmentsTable.remove_runs member run
    exact ⟨t', m', run, committed, page, t'.bounded, tidy.reused taken left within⟩

section HalfPages

/-- A table on the first page, with the lower half of the second one free. -/
def lowerHalf : FreeSegmentsTable where
  page := 0
  records := [⟨1, 0, 32768⟩]
  bounded := by
    rw [maxSegments_eq]
    simp

def upperHalf : FreeSegment := ⟨1, 32768, 32768⟩

def twoPages : MemoryManager := ⟨2, 8, fun _ => 0, Nat.le_of_ble_eq_true rfl, eight_capacity⟩

/-- Beside the lower half, a segment of another page or one that begins behind it. -/
theorem lowerHalf_tidy {s : FreeSegment} (typed : s.Typed) (inside : s.offset + s.size ≤ pageSize)
    (beside : s.page = 1 → 32768 ≤ s.offset) : Tidy (s :: lowerHalf.records) where
  typed := List.forall_mem_cons.mpr ⟨typed, List.forall_mem_singleton.mpr ⟨by decide, by decide, by decide⟩⟩
  inside := List.forall_mem_cons.mpr ⟨inside, List.forall_mem_singleton.mpr (by rw [pageSize_eq]; decide)⟩
  apart := by
    refine List.pairwise_cons.mpr ⟨List.forall_mem_singleton.mpr fun page i both => ?_, List.pairwise_singleton _ _⟩
    obtain ⟨⟨here, low, _⟩, same, _, high⟩ := both
    dsimp only at same high
    have := beside (here.symm.trans same)
    omega

theorem free_bytes_kept_at_lower_half :
    (∃ t' m', twoPages.Runs (lowerHalf.insertFreeSegment 1 7 64 32) t' m' ∧
      Inserted lowerHalf.records ⟨7, 64, 32⟩ t'.records) ∧
    ∃ t' m', twoPages.Runs (lowerHalf.remove ⟨1, 0, 32768⟩ 96) t' m' ∧
      Reused lowerHalf.records ⟨1, 0, 32768⟩ 96 t'.records := by
  have tidy : Tidy ((⟨7, 64, 32⟩ : FreeSegment) :: lowerHalf.records) :=
    lowerHalf_tidy ⟨by decide, by decide, by decide⟩ (by rw [pageSize_eq]; decide) (by decide)
  obtain ⟨insertion, removal⟩ := free_bytes_kept_iff (m := twoPages) (t := lowerHalf) (by decide) tidy.tail
  obtain ⟨t', m', run, _, _, _, inserted⟩ := insertion ⟨7, 64, 32⟩ tidy (by rw [maxSegments_eq]; decide)
  obtain ⟨t'', m'', reuse, _, _, _, reused⟩ := removal ⟨1, 0, 32768⟩ List.mem_cons_self 96 (by decide)
  refine ⟨⟨t', m', run, inserted.mpr fun fills => ?_⟩, t'', m'', reuse, reused⟩
  -- the first byte of the other page is not free
  have first := fills.1 0 (by rw [pageSize_eq]; decide)
  simp [Covered, lowerHalf, FreeSegment.Covers] at first

/-- The other half of the page goes in: the byte at the end of the page is lost. -/
theorem half_pages_lose_a_byte : Tidy (upperHalf :: lowerHalf.records) ∧
    ∃ t' m', twoPages.Runs (lowerHalf.insertFreeSegment 1 upperHalf.page upperHalf.offset upperHalf.size) t' m' ∧
      upperHalf.Covers 1 65535 ∧ ¬ Covered t'.records 1 65535 := by
  have tidy : Tidy (upperHalf :: lowerHalf.records) :=
    lowerHalf_tidy ⟨by decide, by decide, by decide⟩ (by rw [pageSize_eq]; decide) (by decide)
  obtain ⟨t', m', run, _, _, merges⟩ : FreeSegmentsTable.Ended twoPages lowerHalf
      (lowerHalf.insertFreeSegment 1 upperHalf.page upperHalf.offset upperHalf.size) upperHalf :=
    FreeSegmentsTable.insertFreeSegment_available (Nat.le_refl 1) (by rw [maxSegments_eq]; decide) (by decide)
  refine ⟨tidy, t', m', run, ⟨rfl, by decide, by decide⟩, (merges.spec tidy).2 ⟨fun i inPage => ?_, .inl (by decide)⟩⟩
  rw [pageSize_eq] at inPage
  have split : i < 32768 ∨ 32768 ≤ i := Nat.lt_or_ge i 32768
  rcases split with low | high
  · exact .inl ⟨⟨1, 0, 32768⟩, List.mem_cons_self, rfl, Nat.zero_le i, low⟩
  · exact .inr ⟨rfl, high, inPage⟩

end HalfPages

end WasmDbms
