import WasmDbms.Memory.Supply
import Mathlib.Data.List.Perm.Basic

/-!
# Free segments

The space of deleted and moved records. Segments are kept in tables of one page
each; a segment that is freed next to another one of its table is merged with
it, and the rest of a partly reused segment is put back.
-/
namespace WasmDbms
open ByteString

structure FreeSegment where
  page : Nat
  offset : Nat
  size : Nat
  deriving DecidableEq, Repr

namespace FreeSegment

def encode (s : FreeSegment) : List UInt8 := toLE 4 s.page ++ (toLE 2 s.offset ++ toLE 2 s.size)

def decode (data : List UInt8) : FreeSegment :=
  ⟨ofLE (data.take 4), ofLE ((data.drop 4).take 2), ofLE ((data.drop 6).take 2)⟩

/-- The fields fit their types. -/
def Typed (s : FreeSegment) : Prop :=
  s.page < 4294967296 ∧ s.offset ≤ msizeMax ∧ s.size ≤ msizeMax

theorem encode_length (s : FreeSegment) : s.encode.length = 8 := by simp [encode]

theorem decode_encode {s : FreeSegment} (typed : s.Typed) : decode s.encode = s := by
  obtain ⟨page, offset, size⟩ := typed
  unfold msizeMax at offset size
  have back : s.encode.drop 6 = toLE 2 s.size := by
    rw [encode, ← List.append_assoc]
    exact List.drop_left' (by simp)
  rw [decode, back, encode, List.take_left' (toLE_length _ _), List.drop_left' (toLE_length _ _),
    List.take_left' (toLE_length _ _), List.take_of_length_le (by simp)]
  rw [ofLE_toLE_of_lt (by omega), ofLE_toLE_of_lt (by omega), ofLE_toLE_of_lt (by omega)]

end FreeSegment

/-- `max_segments`: the entries that fit a page, less one for the header. -/
def maxSegments : Nat := (pageSize + 8 - 1) / 8 - 1

theorem maxSegments_eq : maxSegments = 8191 := by
  unfold maxSegments
  rw [pageSize_eq]

/-- A table of free segments and the page it is stored in. -/
structure FreeSegmentsTable where
  page : Nat
  records : List FreeSegment
  bounded : records.length ≤ maxSegments
  deriving DecidableEq, Repr

namespace FreeSegmentsList

def encode (records : List FreeSegment) : List UInt8 :=
  toLE 2 records.length ++ records.flatMap FreeSegment.encode

theorem encode_length (records : List FreeSegment) :
    (encode records).length = 2 + 8 * records.length := by
  simp [encode, flatMap_length FreeSegment.encode_length]

end FreeSegmentsList

/-- `swap_remove`: the last element takes the place of the removed one. -/
def swapRemove {α : Type} (xs : List α) (pos : Nat) : List α :=
  match xs.getLast? with
  | none => xs
  | some last => (xs.set pos last).dropLast

inductive AdjacentSegment where
  | before (s : FreeSegment)
  | after (s : FreeSegment)
  deriving DecidableEq, Repr

namespace FreeSegmentsTable

/-- More entries than a page holds overflow the `u16` cursor or the data. -/
def decode (page : Nat) (data : List UInt8) : Except Fault FreeSegmentsTable :=
  if h : ofLE (data.take 2) ≤ maxSegments ∧ 2 + 8 * ofLE (data.take 2) ≤ data.length then
    .ok ⟨page, (chunks 8 (ofLE (data.take 2)) (data.drop 2)).map FreeSegment.decode,
      by simpa using h.1⟩
  else .error .panic

def load (page : Nat) : Prog FreeSegmentsTable := do
  let data ← MemoryAccess.readAt page 0 defaultAlignment .dynamic
  Prog.lift (decode page data)

def isFull (t : FreeSegmentsTable) : Bool := decide (maxSegments ≤ t.records.length)

theorem encode_fits (t : FreeSegmentsTable) : 2 + 8 * t.records.length ≤ 65530 := by
  have bounded := t.bounded
  rw [maxSegments_eq] at bounded
  omega

/-- What `write_at` uses of the list. -/
def encoded (t : FreeSegmentsTable) : Encoded where
  alignment := defaultAlignment
  size := 2 + 8 * t.records.length
  bytes := FreeSegmentsList.encode t.records
  alignment_pos := defaultAlignment_pos
  size_le := by
    have fits := t.encode_fits
    unfold msizeMax
    omega
  size_eq := fun _ _ => FreeSegmentsList.encode_length t.records
  saturated := fun _ _ => by decide

def commit (t : FreeSegmentsTable) : Prog Unit := MemoryAccess.writeAt t.page 0 t.encoded

def hasAdjacentSegment (t : FreeSegmentsTable) (page offset size : Nat) : Option AdjacentSegment :=
  match t.records.find? (fun r =>
      decide (r.page = page ∧ min (r.offset + r.size) msizeMax = offset)) with
  | some s => some (.before s)
  | none =>
      match t.records.find? (fun r =>
          decide (r.page = page ∧ r.offset = min (offset + size) msizeMax)) with
      | some s => some (.after s)
      | none => none

/-- What is left of a segment of which `used` bytes are taken. -/
def remainder (s : FreeSegment) (used : Nat) : List FreeSegment :=
  if used < s.size then [⟨s.page, min (s.offset + used) msizeMax, s.size - used⟩] else []

theorem remainder_length (s : FreeSegment) (used : Nat) : (remainder s used).length ≤ 1 := by
  unfold remainder
  split <;> simp

theorem swapRemove_length {α : Type} {xs : List α} {pos : Nat} (inside : pos < xs.length) :
    (swapRemove xs pos).length = xs.length - 1 := by
  unfold swapRemove
  split
  · rename_i empty
    rw [List.getLast?_eq_none_iff.mp empty] at inside
    simp at inside
  · simp

def remove (t : FreeSegmentsTable) (s : FreeSegment) (used : Nat) : Prog FreeSegmentsTable :=
  match found : t.records.findIdx? (fun r => decide (r = s)) with
  | none => return t
  | some pos => do
      let t : FreeSegmentsTable := ⟨t.page, swapRemove t.records pos ++ remainder s used, by
        obtain ⟨inside, _⟩ := List.findIdx?_eq_some_iff_getElem.mp found
        have short := remainder_length s used
        have bounded := t.bounded
        rw [List.length_append, swapRemove_length inside]
        omega⟩
      t.commit
      return t

/-- Each merge takes one record out of the table, so the number of records bounds the recursion. -/
def insertFreeSegment : Nat → FreeSegmentsTable → Nat → Nat → Nat → Prog FreeSegmentsTable
  | fuel, t, page, offset, size =>
      if full : maxSegments ≤ t.records.length then .fail .panic
      else
        match t.hasAdjacentSegment page offset size, fuel with
        | none, _ => do
            let t : FreeSegmentsTable := ⟨t.page, t.records ++ [⟨page, offset, size⟩], by
              rw [List.length_append, List.length_singleton]
              omega⟩
            t.commit
            return t
        | some _, 0 => .fail .diverges
        | some (.before s), fuel + 1 => do
            let t ← t.remove s s.size
            let t ← insertFreeSegment fuel t page s.offset (min (s.size + size) msizeMax)
            t.commit
            return t
        | some (.after s), fuel + 1 => do
            let t ← t.remove s s.size
            let t ← insertFreeSegment fuel t page offset (min (size + s.size) msizeMax)
            t.commit
            return t

theorem swapRemove_perm {α : Type} {xs : List α} {pos : Nat} (inside : pos < xs.length) :
    (xs[pos] :: swapRemove xs pos).Perm xs := by
  have filled : xs ≠ [] := List.ne_nil_of_length_pos (by omega)
  obtain ⟨init, last, rfl⟩ : ∃ init last, xs = init ++ [last] :=
    ⟨_, _, (List.dropLast_concat_getLast filled).symm⟩
  rw [List.length_append, List.length_singleton] at inside
  simp only [swapRemove, List.getLast?_append_cons, List.getLast?_singleton]
  by_cases early : pos < init.length
  · rw [List.set_append_left _ _ early, List.dropLast_concat, List.getElem_append_left early]
    refine (List.Perm.cons _ (List.set_perm_cons_eraseIdx early last)).trans ?_
    refine (List.Perm.swap _ _ _).trans ?_
    refine (List.Perm.cons _ (List.getElem_cons_eraseIdx_perm early)).trans ?_
    exact (List.perm_append_singleton last init).symm
  · obtain rfl : pos = init.length := by omega
    rw [List.set_append_right _ _ (Nat.le_refl _), Nat.sub_self, List.set_cons_zero,
      List.dropLast_concat, List.getElem_concat_length rfl]
    exact (List.perm_append_singleton last init).symm

open MemoryManager

theorem load_runs {m m' : MemoryManager} {page : Nat} {t : FreeSegmentsTable}
    (run : m.Runs (load page) t m') :
    m = m' ∧ page < m.pages ∧ decode page (m.bytesAt page 0 pageSize) = .ok t := by
  unfold load at run
  simp only [runs_bind, runs_readAt_dynamic, runs_lift] at run
  obtain ⟨data, _, ⟨alloc, rfl, rfl⟩, decoded, rfl⟩ := run
  exact ⟨rfl, alloc, decoded⟩

/-- A stored table is loaded as it was stored. -/
theorem decode_stored {m : MemoryManager} {page : Nat} {records : List FreeSegment}
    (stored : m.Stores page 0 (FreeSegmentsList.encode records))
    (bounded : records.length ≤ maxSegments) (typed : ∀ s ∈ records, s.Typed) :
    decode page (m.bytesAt page 0 pageSize) = .ok ⟨page, records, bounded⟩ := by
  have small := bounded
  rw [maxSegments_eq] at small
  have length := FreeSegmentsList.encode_length records
  obtain ⟨rest, content⟩ := stored.bytesAt_eq
    (show (FreeSegmentsList.encode records).length ≤ pageSize by rw [length, pageSize_eq]; omega)
  have count : ofLE ((FreeSegmentsList.encode records ++ rest).take 2) = records.length := by
    rw [FreeSegmentsList.encode, List.append_assoc, List.take_left' (toLE_length _ _)]
    exact ofLE_toLE_of_lt (by omega)
  have body : (chunks 8 records.length ((FreeSegmentsList.encode records ++ rest).drop 2)).map
      FreeSegment.decode = records := by
    rw [FreeSegmentsList.encode, List.append_assoc, List.drop_left' (toLE_length _ _)]
    exact map_chunks_flatMap FreeSegment.encode_length
      (fun s member => FreeSegment.decode_encode (typed s member)) rest
  rw [content, decode, dif_pos]
  · simp only [count, body]
  · rw [count, List.length_append, length]
    exact ⟨bounded, by omega⟩

/-- What writing a table back does to the memory. -/
structure Committed (m : MemoryManager) (t : FreeSegmentsTable) (m' : MemoryManager) : Prop where
  stored : m'.Stores t.page 0 (FreeSegmentsList.encode t.records)
  pages : m'.pages = m.pages
  same : ∀ q, q ≠ t.page → SamePage m m' q

theorem commit_runs {m m' : MemoryManager} {t : FreeSegmentsTable} {r : Unit}
    (run : m.Runs t.commit r m') : Committed m t m' := by
  obtain ⟨_, _, fits, rfl⟩ := runs_writeAt.mp run
  exact ⟨stores_writeBytes.left, rfl, fun q other => samePage_writeBytes fits other⟩

theorem Committed.trans {m m₁ m₂ : MemoryManager} {t t' : FreeSegmentsTable}
    (first : Committed m t m₁) (second : Committed m₁ t' m₂) (page : t'.page = t.page) :
    Committed m t' m₂ :=
  ⟨second.stored, second.pages.trans first.pages,
    fun q other => (first.same q (page ▸ other)).trans (second.same q other)⟩

theorem remove_runs {m m' : MemoryManager} {t t' : FreeSegmentsTable} {s : FreeSegment} {used : Nat}
    (member : s ∈ t.records) (run : m.Runs (t.remove s used) t' m') :
    t'.page = t.page ∧ Committed m t' m' ∧
      ∃ rest, t.records.Perm (s :: rest) ∧ t'.records.Perm (remainder s used ++ rest) := by
  unfold remove at run
  split at run
  · rename_i missing
    rw [List.findIdx?_eq_none_iff] at missing
    exact absurd (missing s member) (by simp)
  · rename_i pos found
    simp only [runs_bind, runs_pure] at run
    obtain ⟨_, _, written, rfl, rfl⟩ := run
    obtain ⟨inside, hit, _⟩ := List.findIdx?_eq_some_iff_getElem.mp found
    have same : t.records[pos] = s := by simpa using hit
    have perm := swapRemove_perm inside
    rw [same] at perm
    exact ⟨rfl, commit_runs written, _, perm.symm, List.perm_append_comm⟩

end FreeSegmentsTable

/-- How a freed segment gets into a list of segments: neighbours are taken out
and merged with it until none is left. -/
inductive Absorbs : List FreeSegment → FreeSegment → List FreeSegment → Prop where
  | push {segs s segs'} (placed : segs'.Perm (s :: segs)) : Absorbs segs s segs'
  | before {segs s segs' n rest} (taken : segs.Perm (n :: rest)) (page : n.page = s.page)
      (meets : min (n.offset + n.size) msizeMax = s.offset)
      (merged : Absorbs rest ⟨s.page, n.offset, min (n.size + s.size) msizeMax⟩ segs') :
      Absorbs segs s segs'
  | after {segs s segs' n rest} (taken : segs.Perm (n :: rest)) (page : n.page = s.page)
      (meets : n.offset = min (s.offset + s.size) msizeMax)
      (merged : Absorbs rest ⟨s.page, s.offset, min (s.size + n.size) msizeMax⟩ segs') :
      Absorbs segs s segs'

namespace Absorbs

theorem of_perm {segs segs₀ segs' : List FreeSegment} {s : FreeSegment}
    (absorbed : Absorbs segs s segs') (perm : segs₀.Perm segs) : Absorbs segs₀ s segs' := by
  cases absorbed with
  | push placed => exact .push (placed.trans (.cons _ perm.symm))
  | before taken page meets merged => exact .before (perm.trans taken) page meets merged
  | after taken page meets merged => exact .after (perm.trans taken) page meets merged

theorem perm_right {segs segs' segs₁ : List FreeSegment} {s : FreeSegment}
    (absorbed : Absorbs segs s segs') (perm : segs₁.Perm segs') : Absorbs segs s segs₁ := by
  induction absorbed with
  | push placed => exact .push (perm.trans placed)
  | before taken page meets _ ih => exact .before taken page meets (ih perm)
  | after taken page meets _ ih => exact .after taken page meets (ih perm)

/-- Segments of other tables take no part. -/
theorem frame {segs segs' : List FreeSegment} {s : FreeSegment} (absorbed : Absorbs segs s segs')
    (others : List FreeSegment) : Absorbs (segs ++ others) s (segs' ++ others) := by
  induction absorbed with
  | push placed => exact .push (placed.append_right others)
  | before taken page meets _ ih => exact .before (taken.append_right others) page meets ih
  | after taken page meets _ ih => exact .after (taken.append_right others) page meets ih

theorem typed {segs segs' : List FreeSegment} {s : FreeSegment} (absorbed : Absorbs segs s segs')
    (all : ∀ x ∈ segs, x.Typed) (new : s.Typed) : ∀ x ∈ segs', x.Typed := by
  induction absorbed with
  | push placed =>
      intro x member
      rcases List.mem_cons.mp (placed.mem_iff.mp member) with rfl | old
      · exact new
      · exact all x old
  | before taken page meets _ ih =>
      have old := fun x member => all x (taken.mem_iff.mpr member)
      rw [List.forall_mem_cons] at old
      exact ih old.2 ⟨new.1, old.1.2.1, Nat.min_le_right _ _⟩
  | after taken page meets _ ih =>
      have old := fun x member => all x (taken.mem_iff.mpr member)
      rw [List.forall_mem_cons] at old
      exact ih old.2 ⟨new.1, new.2.1, Nat.min_le_right _ _⟩

end Absorbs

namespace FreeSegmentsTable
open MemoryManager

theorem hasAdjacentSegment_before {t : FreeSegmentsTable} {page offset size : Nat} {n : FreeSegment}
    (found : t.hasAdjacentSegment page offset size = some (.before n)) :
    n ∈ t.records ∧ n.page = page ∧ min (n.offset + n.size) msizeMax = offset := by
  unfold hasAdjacentSegment at found
  split at found
  · rename_i s hit
    cases found
    have good := List.find?_some hit
    exact ⟨List.mem_of_find?_eq_some hit, by simpa using good⟩
  · split at found <;> cases found

theorem hasAdjacentSegment_after {t : FreeSegmentsTable} {page offset size : Nat} {n : FreeSegment}
    (found : t.hasAdjacentSegment page offset size = some (.after n)) :
    n ∈ t.records ∧ n.page = page ∧ n.offset = min (offset + size) msizeMax := by
  unfold hasAdjacentSegment at found
  split at found
  · cases found
  · split at found
    · rename_i s hit
      cases found
      have good := List.find?_some hit
      exact ⟨List.mem_of_find?_eq_some hit, by simpa using good⟩
    · cases found

theorem remainder_whole (s : FreeSegment) : remainder s s.size = [] := if_neg (Nat.lt_irrefl _)

theorem insertFreeSegment_runs {fuel : Nat} {m m' : MemoryManager} {t t' : FreeSegmentsTable}
    {page offset size : Nat} (run : m.Runs (insertFreeSegment fuel t page offset size) t' m') :
    t'.page = t.page ∧ Committed m t' m' ∧ Absorbs t.records ⟨page, offset, size⟩ t'.records := by
  induction fuel generalizing m m' t t' offset size with
  | zero =>
      unfold insertFreeSegment at run
      split at run
      · exact absurd run runs_fail
      · cases adjacent : t.hasAdjacentSegment page offset size with
        | none =>
            simp only [adjacent, runs_bind, runs_pure] at run
            obtain ⟨_, _, written, rfl, rfl⟩ := run
            exact ⟨rfl, commit_runs written, .push (List.perm_append_singleton _ _)⟩
        | some a =>
            rw [adjacent] at run
            exact absurd run runs_fail
  | succ fuel ih =>
      unfold insertFreeSegment at run
      split at run
      · exact absurd run runs_fail
      · cases adjacent : t.hasAdjacentSegment page offset size with
        | none =>
            simp only [adjacent, runs_bind, runs_pure] at run
            obtain ⟨_, _, written, rfl, rfl⟩ := run
            exact ⟨rfl, commit_runs written, .push (List.perm_append_singleton _ _)⟩
        | some a =>
            cases a with
            | before n =>
                simp only [adjacent, runs_bind, runs_pure] at run
                obtain ⟨t₁, m₁, removed, t₂, m₂, inserted, _, m₃, written, rfl, rfl⟩ := run
                obtain ⟨member, samePage, meets⟩ := hasAdjacentSegment_before adjacent
                obtain ⟨page₁, commit₁, rest, taken, left⟩ := remove_runs member removed
                obtain ⟨page₂, commit₂, merged⟩ := ih inserted
                rw [remainder_whole, List.nil_append] at left
                refine ⟨page₂.trans page₁, ?_, .before taken samePage meets (merged.of_perm left.symm)⟩
                exact (commit₁.trans commit₂ page₂).trans (commit_runs written) rfl
            | after n =>
                simp only [adjacent, runs_bind, runs_pure] at run
                obtain ⟨t₁, m₁, removed, t₂, m₂, inserted, _, m₃, written, rfl, rfl⟩ := run
                obtain ⟨member, samePage, meets⟩ := hasAdjacentSegment_after adjacent
                obtain ⟨page₁, commit₁, rest, taken, left⟩ := remove_runs member removed
                obtain ⟨page₂, commit₂, merged⟩ := ih inserted
                rw [remainder_whole, List.nil_append] at left
                refine ⟨page₂.trans page₁, ?_, .after taken samePage meets (merged.of_perm left.symm)⟩
                exact (commit₁.trans commit₂ page₂).trans (commit_runs written) rfl

end FreeSegmentsTable

end WasmDbms
