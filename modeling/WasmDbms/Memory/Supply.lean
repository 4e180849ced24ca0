import WasmDbms.Memory.UnclaimedPages

/-!
# Successful runs on the memory manager, page by page

`Runs` is a successful run of a program. Memory is looked at through the bytes
of single pages: a write changes one page, and `claim_page` hands out a zero
page that nobody owns and changes no page but the reserved one.
-/
namespace WasmDbms
open ByteString

namespace MemoryManager

variable {α β : Type}

/-- The program succeeds with this value and leaves this memory. -/
def Runs (m : MemoryManager) (p : Prog α) (r : α) (m' : MemoryManager) : Prop :=
  p.run exec m = (.ok r, m')

@[simp] theorem runs_bind {m m' : MemoryManager} {p : Prog α} {f : α → Prog β} {b : β} :
    m.Runs (p >>= f) b m' ↔ ∃ a m₁, m.Runs p a m₁ ∧ m₁.Runs (f a) b m' :=
  Prog.run_bind_ok exec

@[simp] theorem runs_pure {m m' : MemoryManager} {a b : α} :
    m.Runs (Pure.pure a) b m' ↔ a = b ∧ m = m' := by
  simp [Runs]

@[simp] theorem runs_fail {m m' : MemoryManager} {e : Fault} {b : α} :
    ¬ m.Runs (Prog.fail e) b m' := by
  simp [Runs]

@[simp] theorem runs_throw {m m' : MemoryManager} {e : MemoryError} {b : α} :
    ¬ m.Runs (Prog.throw e) b m' := by
  simp [Runs]

@[simp] theorem runs_lift {m m' : MemoryManager} {x : Except Fault α} {a : α} :
    m.Runs (Prog.lift x) a m' ↔ x = .ok a ∧ m = m' :=
  Prog.run_lift_ok exec

theorem runs_perform {m m' : MemoryManager} {c : MemCall} {r : c.Resp} :
    m.Runs (Prog.perform c) r m' ↔ exec c m = (.ok r, m') :=
  Prog.run_perform_ok exec

/-- The bytes from an offset of a page on. -/
def bytesAt (m : MemoryManager) (page offset len : Nat) : List UInt8 :=
  load m.mem (absoluteOffset page offset) len

@[simp] theorem bytesAt_length (m : MemoryManager) (page offset len : Nat) :
    (m.bytesAt page offset len).length = len := load_length _ _ _

theorem aligned_of_not {a offset : Nat} (pos : 0 < a) (h : ¬ (a ≠ 0 ∧ offset % a ≠ 0)) :
    a ∣ offset := by
  apply Nat.dvd_of_mod_eq_zero
  by_cases zero : offset % a = 0
  · exact zero
  · exact absurd ⟨Nat.pos_iff_ne_zero.mp pos, zero⟩ h

theorem runs_writeAt {m m' : MemoryManager} {page offset : Nat} {data : Encoded} {r : Unit} :
    m.Runs (MemoryAccess.writeAt page offset data) r m' ↔
      page < m.pages ∧ data.alignment ∣ offset ∧ offset + (padded data).length ≤ pageSize ∧
        m' = m.writeBytes page offset (padded data) := by
  refine runs_perform.trans ?_
  simp only [exec, writeAt_eq]
  split
  · rename_i unalloc
    exact iff_of_false (by simp) (fun h => absurd h.1 (by simpa using unalloc))
  · rename_i alloc
    split
    · rename_i misaligned
      exact iff_of_false (by simp) (fun h => misaligned.2 (Nat.mod_eq_zero_of_dvd h.2.1))
    · rename_i aligned
      split
      · rename_i crosses
        exact iff_of_false (by simp) (fun h => Nat.not_le.mpr crosses h.2.2.1)
      · rename_i fits
        constructor
        · intro done
          cases done
          exact ⟨by simpa using alloc, aligned_of_not data.alignment_pos aligned, by omega, rfl⟩
        · rintro ⟨_, _, _, rfl⟩
          rfl

theorem runs_zero {m m' : MemoryManager} {page offset : Nat} {data : Encoded} {r : Unit} :
    m.Runs (MemoryAccess.zero page offset data) r m' ↔
      page < m.pages ∧ data.alignment ∣ offset ∧
        offset + alignUp data.alignment data.size ≤ pageSize ∧
        m' = m.writeBytes page offset (zeros (alignUp data.alignment data.size)) := by
  refine runs_perform.trans ?_
  simp only [exec, zero_eq]
  split
  · rename_i unalloc
    exact iff_of_false (by simp) (fun h => absurd h.1 (by simpa using unalloc))
  · rename_i alloc
    split
    · rename_i misaligned
      exact iff_of_false (by simp) (fun h => misaligned.2 (Nat.mod_eq_zero_of_dvd h.2.1))
    · rename_i aligned
      split
      · rename_i crosses
        exact iff_of_false (by simp) (fun h => Nat.not_le.mpr crosses h.2.2.1)
      · rename_i fits
        constructor
        · intro done
          cases done
          exact ⟨by simpa using alloc, aligned_of_not data.alignment_pos aligned, by omega, rfl⟩
        · rintro ⟨_, _, _, rfl⟩
          rfl

theorem runs_writeAtRaw {m m' : MemoryManager} {page offset : Nat} {buf : List UInt8} {r : Unit} :
    m.Runs (MemoryAccess.writeAtRaw page offset buf) r m' ↔
      page < m.pages ∧ offset + buf.length ≤ pageSize ∧ m' = m.writeBytes page offset buf := by
  refine runs_perform.trans ?_
  simp only [exec, writeAtRaw_eq]
  split
  · rename_i unalloc
    exact iff_of_false (by simp) (fun h => absurd h.1 (by simpa using unalloc))
  · rename_i alloc
    split
    · rename_i crosses
      exact iff_of_false (by simp) (fun h => Nat.not_le.mpr crosses h.2.1)
    · rename_i fits
      constructor
      · intro done
        cases done
        exact ⟨by simpa using alloc, by omega, rfl⟩
      · rintro ⟨_, _, rfl⟩
        rfl

theorem runs_readAtRaw {m m' : MemoryManager} {page offset len : Nat} {r : List UInt8}
    (inside : offset ≤ pageSize) :
    m.Runs (MemoryAccess.readAtRaw page offset len) r m' ↔
      page < m.pages ∧ r = m.bytesAt page offset (min (pageSize - offset) len) ∧ m = m' := by
  refine runs_perform.trans ?_
  simp only [exec]
  by_cases alloc : page < m.pages
  · rw [readAtRaw_allocated len alloc inside]
    simp [alloc, bytesAt, eq_comm]
  · have failed : m.readAtRaw page offset len = .error (.segmentationFault page offset len pageSize) := by
      unfold readAtRaw
      rw [if_pos (by simpa using alloc)]
    rw [failed]
    exact iff_of_false (by simp) (fun h => alloc h.1)

theorem runs_readAt_dynamic {m m' : MemoryManager} {page alignment : Nat} {r : List UInt8} :
    m.Runs (MemoryAccess.readAt page 0 alignment .dynamic) r m' ↔
      page < m.pages ∧ r = m.bytesAt page 0 pageSize ∧ m = m' := by
  refine runs_perform.trans ?_
  simp only [exec, readAt, Nat.zero_mod, ne_eq, not_true_eq_false, and_false, if_false]
  by_cases alloc : page < m.pages
  · rw [readAtRaw_allocated _ alloc (Nat.zero_le _)]
    simp [alloc, bytesAt, eq_comm]
  · have failed : ∀ len, m.readAtRaw page 0 len = .error (.segmentationFault page 0 len pageSize) := by
      intro len
      unfold readAtRaw
      rw [if_pos (by simpa using alloc)]
    rw [failed]
    exact iff_of_false (by simp) (fun h => alloc h.1)

theorem runs_readAt_fixed {m : MemoryManager} {page offset alignment size : Nat}
    (alloc : page < m.pages) (aligned : alignment ∣ offset) (fits : offset + size ≤ pageSize) :
    m.Runs (MemoryAccess.readAt page offset alignment (.fixed size)) (m.bytesAt page offset size) m := by
  refine runs_perform.mpr ?_
  have whole : min (pageSize - offset) size = size := by omega
  simp only [exec, readAt, Nat.mod_eq_zero_of_dvd aligned, ne_eq, not_true_eq_false, and_false, if_false]
  rw [readAtRaw_allocated size alloc (by omega), whole]
  simp [bytesAt]

theorem runs_growOnePage {m m' : MemoryManager} {page : Nat} :
    m.Runs MemoryAccess.growOnePage page m' ↔
      page = m.pages ∧ ∃ room, m' = m.enlarged room := by
  refine runs_perform.trans ?_
  simp only [exec, growOnePage_eq]
  split
  · rename_i room
    constructor
    · intro done
      cases done
      exact ⟨rfl, room, rfl⟩
    · rintro ⟨rfl, _, rfl⟩
      rfl
  · rename_i full
    exact iff_of_false (by simp) (fun h => full h.2.1)

theorem pageSize_mul_lt {p p' : Nat} (h : p < p') : pageSize * p + pageSize ≤ pageSize * p' := by
  rw [← Nat.mul_succ]
  exact Nat.mul_le_mul_left pageSize h

/-- A write inside a page, seen byte by byte. -/
theorem byteAt_writeBytes {m : MemoryManager} {page offset : Nat} {bs : List UInt8}
    (fits : offset + bs.length ≤ pageSize) (page' : Nat) {i : Nat} (inside : i < pageSize) :
    (m.writeBytes page offset bs).byteAt page' i =
      if page' = page ∧ offset ≤ i ∧ i < offset + bs.length then bs.getD (i - offset) 0
      else m.byteAt page' i := by
  unfold byteAt
  rw [writeBytes_mem]
  by_cases hit : page' = page ∧ offset ≤ i ∧ i < offset + bs.length
  · obtain ⟨rfl, low, high⟩ := hit
    rw [if_pos ⟨rfl, low, high⟩, store_of_inside]
    · congr 1
      unfold absoluteOffset
      omega
    · unfold absoluteOffset
      omega
    · unfold absoluteOffset
      omega
  · rw [if_neg hit]
    apply store_of_outside
    unfold absoluteOffset
    rcases Nat.lt_trichotomy page' page with before | rfl | after
    · have gap := pageSize_mul_lt before
      omega
    · omega
    · have gap := pageSize_mul_lt after
      omega

/-- The two memories agree on a page. -/
def SamePage (m m' : MemoryManager) (page : Nat) : Prop :=
  ∀ i < pageSize, m'.byteAt page i = m.byteAt page i

theorem SamePage.trans {m m₁ m₂ : MemoryManager} {page : Nat} (first : SamePage m m₁ page)
    (second : SamePage m₁ m₂ page) : SamePage m m₂ page :=
  fun i inside => (second i inside).trans (first i inside)

theorem samePage_writeBytes {m : MemoryManager} {page offset : Nat} {bs : List UInt8}
    (fits : offset + bs.length ≤ pageSize) {page' : Nat} (other : page' ≠ page) :
    SamePage m (m.writeBytes page offset bs) page' := by
  intro i inside
  rw [byteAt_writeBytes fits page' inside, if_neg (fun h => other h.1)]

theorem byteAt_enlarged_old {m : MemoryManager} (room : m.pages + 1 ≤ m.capacity) {page i : Nat}
    (alloc : page < m.pages) (inside : i < pageSize) :
    (m.enlarged room).byteAt page i = m.byteAt page i := by
  have gap := pageSize_mul_lt alloc
  exact if_pos (by unfold absoluteOffset; omega)

theorem byteAt_enlarged_new {m : MemoryManager} (room : m.pages + 1 ≤ m.capacity) (i : Nat) :
    (m.enlarged room).byteAt m.pages i = 0 :=
  if_neg (by unfold absoluteOffset; omega)

def ZeroPage (m : MemoryManager) (page : Nat) : Prop := ∀ i < pageSize, m.byteAt page i = 0

theorem ZeroPage.of_same {m m' : MemoryManager} {page : Nat} (zero : m.ZeroPage page)
    (same : SamePage m m' page) : m'.ZeroPage page :=
  fun i inside => (same i inside).trans (zero i inside)

theorem bytesAt_congr {m m' : MemoryManager} {page offset len : Nat}
    (same : ∀ i, offset ≤ i → i < offset + len → m.byteAt page i = m'.byteAt page i) :
    m.bytesAt page offset len = m'.bytesAt page offset len := by
  apply load_congr
  unfold absoluteOffset
  intro i low high
  have shift : i = absoluteOffset page (i - pageSize * page) := by
    unfold absoluteOffset
    omega
  rw [shift]
  exact same (i - pageSize * page) (by omega) (by omega)

theorem bytesAt_getD {m : MemoryManager} {page offset len i : Nat} (inside : i < len) :
    (m.bytesAt page offset len).getD i 0 = m.byteAt page (offset + i) := by
  unfold bytesAt byteAt
  rw [load_getD _ _ _ _ inside]
  unfold absoluteOffset
  rw [Nat.add_assoc]

/-- A slice of a page. -/
theorem bytesAt_slice {m : MemoryManager} {page offset len : Nat} (fits : offset + len ≤ pageSize) :
    ((m.bytesAt page 0 pageSize).drop offset).take len = m.bytesAt page offset len := by
  unfold bytesAt absoluteOffset
  rw [show pageSize = offset + (len + (pageSize - offset - len)) by omega, load_add,
    List.drop_left' (load_length _ _ _), load_add, List.take_left' (load_length _ _ _)]
  rfl

/-- These bytes stand at an offset of the page. -/
def Stores (m : MemoryManager) (page offset : Nat) (bs : List UInt8) : Prop :=
  m.bytesAt page offset bs.length = bs

theorem stores_iff {m : MemoryManager} {page offset : Nat} {bs : List UInt8} :
    m.Stores page offset bs ↔ ∀ i < bs.length, m.byteAt page (offset + i) = bs.getD i 0 := by
  constructor
  · intro stored i inside
    rw [← bytesAt_getD inside, stored]
  · intro bytes
    apply load_of_getD
    intro i inside
    rw [← bytes i inside]
    unfold byteAt absoluteOffset
    rw [Nat.add_assoc]

theorem stores_writeBytes {m : MemoryManager} {page offset : Nat} {bs : List UInt8} :
    (m.writeBytes page offset bs).Stores page offset bs := load_store_same _ _ _

theorem Stores.left {m : MemoryManager} {page offset : Nat} {bs rest : List UInt8}
    (stored : m.Stores page offset (bs ++ rest)) : m.Stores page offset bs := by
  rw [stores_iff] at stored ⊢
  intro i inside
  rw [stored i (by rw [List.length_append]; omega), List.getD_append _ _ _ _ inside]

theorem Stores.right {m : MemoryManager} {page offset : Nat} {bs rest : List UInt8}
    (stored : m.Stores page offset (bs ++ rest)) : m.Stores page (offset + bs.length) rest := by
  rw [stores_iff] at stored ⊢
  intro i inside
  rw [Nat.add_assoc, stored (bs.length + i) (by rw [List.length_append]; omega),
    List.getD_append_right _ _ _ _ (Nat.le_add_right _ _), Nat.add_sub_cancel_left]

theorem Stores.of_same {m m' : MemoryManager} {page offset : Nat} {bs : List UInt8}
    (stored : m.Stores page offset bs) (fits : offset + bs.length ≤ pageSize)
    (same : SamePage m m' page) : m'.Stores page offset bs := by
  rw [stores_iff] at stored ⊢
  intro i inside
  rw [same (offset + i) (by omega), stored i inside]

/-- A read that reaches past stored bytes starts with them. -/
theorem Stores.bytesAt_eq {m : MemoryManager} {page offset : Nat} {bs : List UInt8}
    (stored : m.Stores page offset bs) {len : Nat} (short : bs.length ≤ len) :
    ∃ rest, m.bytesAt page offset len = bs ++ rest := by
  refine ⟨load m.mem (absoluteOffset page offset + bs.length) (len - bs.length), ?_⟩
  unfold Stores bytesAt at stored
  unfold bytesAt
  rw [show len = bs.length + (len - bs.length) by omega, load_add, stored]
  simp

theorem stores_zeros {m : MemoryManager} {page offset n : Nat} (zero : m.ZeroPage page)
    (fits : offset + n ≤ pageSize) : m.Stores page offset (zeros n) := by
  rw [stores_iff]
  intro i inside
  rw [zeros_length] at inside
  rw [zero (offset + i) (by omega)]
  simp [zeros, inside]

/-- No call changes what the host grants. -/
theorem exec_capacity (c : MemCall) (m : MemoryManager) : (exec c m).2.capacity = m.capacity := by
  cases c with
  | growOnePage =>
      rw [exec, growOnePage_eq]
      split <;> rfl
  | zeroPage page =>
      rw [exec, zeroPage_eq]
      split <;> rfl
  | readAt page offset alignment size => rfl
  | readAtRaw page offset len => rfl
  | writeAt page offset data =>
      rw [exec, writeAt_eq]
      repeat' split
      all_goals rfl
  | writeAtRaw page offset buf =>
      rw [exec, writeAtRaw_eq]
      repeat' split
      all_goals rfl
  | zero page offset data =>
      rw [exec, zero_eq]
      repeat' split
      all_goals rfl
  | zeroRaw page offset len =>
      rw [exec, zeroRaw, providerWrite]
      repeat' split
      all_goals rfl

theorem Runs.capacity {α : Type} {m m' : MemoryManager} {p : Prog α} {r : α} (run : m.Runs p r m') :
    m'.capacity = m.capacity := by
  have issues : p.Issues fun _ => True := by
    clear run
    induction p with
    | pure a => trivial
    | fail e => trivial
    | call c k ih => exact ⟨trivial, ih⟩
  have kept := Prog.run_invariant (h := exec) (I := fun s => s.capacity = m.capacity)
    (fun c s _ same => (exec_capacity c s).trans same) issues rfl
  rw [run] at kept
  exact kept

end MemoryManager

/-- What an operation may do to the memory of others. -/
structure Frame (other : Nat → Prop) (m m' : MemoryManager) : Prop where
  pages_le : m.pages ≤ m'.pages
  same : ∀ q, other q → m.SamePage m' q

theorem Frame.trans {other : Nat → Prop} {m m₁ m' : MemoryManager} (first : Frame other m m₁)
    (second : Frame other m₁ m') : Frame other m m' :=
  ⟨Nat.le_trans first.pages_le second.pages_le, fun q h => (first.same q h).trans (second.same q h)⟩

/-- The unclaimed-pages ledger is in order: it lists distinct, allocated, zero
pages that are not owned. Page 1 is the ledger's own and belongs to nobody. -/
structure PageSupply (m : MemoryManager) (owned : Nat → Prop) : Prop where
  reserved : UnclaimedPages.reservedPage < m.pages
  owned_allocated : ∀ page, owned page → page < m.pages ∧ page ≠ UnclaimedPages.reservedPage
  ledger : ∃ u : UnclaimedPages, m.Stores UnclaimedPages.reservedPage 0 u.encode ∧
    u.pages.Nodup ∧ ∀ page ∈ u.pages, page < m.pages ∧ page ≠ UnclaimedPages.reservedPage ∧
      ¬ owned page ∧ m.ZeroPage page

namespace PageSupply
open MemoryManager

theorem page_lt (m : MemoryManager) {page : Nat} (alloc : page < m.pages) : page < 4294967296 :=
  Nat.lt_trans (Nat.lt_of_lt_of_le alloc m.pages_le) m.capacity_lt

/-- Writes to owned pages leave the supply in order. -/
theorem of_same {m m' : MemoryManager} {owned : Nat → Prop} (supply : PageSupply m owned)
    (pages : m'.pages = m.pages) (same : ∀ page, ¬ owned page → SamePage m m' page) :
    PageSupply m' owned := by
  obtain ⟨u, stored, nodup, free⟩ := supply.ledger
  have notOwned : ¬ owned UnclaimedPages.reservedPage := fun h => (supply.owned_allocated _ h).2 rfl
  refine ⟨by rw [pages]; exact supply.reserved, by rw [pages]; exact supply.owned_allocated,
    u, ?_, nodup, ?_⟩
  · refine stored.of_same ?_ (same _ notOwned)
    have fits := u.encode_fits
    rw [UnclaimedPages.encode_length, pageSize_eq]
    omega
  · intro page member
    obtain ⟨alloc, other, fresh, zero⟩ := free page member
    exact ⟨by rw [pages]; exact alloc, other, fresh, zero.of_same (same page fresh)⟩

theorem congr {m : MemoryManager} {owned owned' : Nat → Prop} (supply : PageSupply m owned)
    (same : ∀ q, owned' q ↔ owned q) : PageSupply m owned' := by
  obtain rfl : owned' = owned := funext fun q => propext (same q)
  exact supply

/-- What `claim_page` gives and leaves. -/
structure Claimed (m : MemoryManager) (owned : Nat → Prop) (page : Nat) (m' : MemoryManager) :
    Prop where
  fresh : ¬ owned page
  zero : m'.ZeroPage page
  pages_le : m.pages ≤ m'.pages
  same : ∀ q, q < m.pages → q ≠ UnclaimedPages.reservedPage → SamePage m m' q
  supply : PageSupply m' (fun q => q = page ∨ owned q)

theorem claimPage_runs {m m' : MemoryManager} {owned : Nat → Prop} {page : Nat}
    (supply : PageSupply m owned) (run : m.Runs MemoryAccess.claimPage page m') :
    Claimed m owned page m' := by
  obtain ⟨u, stored, nodup, free⟩ := supply.ledger
  unfold MemoryAccess.claimPage at run
  simp only [runs_bind, runs_readAt_dynamic, runs_lift] at run
  obtain ⟨data, _, ⟨_, rfl, rfl⟩, ledger, _, ⟨decoded, rfl⟩, rest⟩ := run
  have fits := u.encode_fits
  obtain ⟨tail, content⟩ := stored.bytesAt_eq (show u.encode.length ≤ pageSize by
    rw [UnclaimedPages.encode_length, pageSize_eq]; omega)
  rw [content, UnclaimedPages.decode_encode u tail
    (fun p member => page_lt _ (free p member).1)] at decoded
  cases decoded
  split at rest
  · rename_i top left popped
    simp only [runs_bind, runs_writeAt, runs_pure] at rest
    obtain ⟨_, _, ⟨_, _, inPage, rfl⟩, rfl, rfl⟩ := rest
    have order := UnclaimedPages.pop_some popped
    rw [order, List.nodup_append] at nodup
    obtain ⟨leftNodup, -, apart⟩ := nodup
    have member : top ∈ u.pages := by rw [order]; simp
    obtain ⟨alloc, other, fresh, zero⟩ := free top member
    have same : ∀ q, q ≠ UnclaimedPages.reservedPage → SamePage m _ q :=
      fun q ne => samePage_writeBytes inPage ne
    refine ⟨fresh, zero.of_same (same top other), Nat.le_refl _, fun q _ ne => same q ne, ?_⟩
    refine ⟨supply.reserved, ?_, left, stores_writeBytes.left, leftNodup, ?_⟩
    · rintro q (rfl | owns)
      · exact ⟨alloc, other⟩
      · exact supply.owned_allocated q owns
    · intro q inLeft
      obtain ⟨allocQ, otherQ, freshQ, zeroQ⟩ := free q (by rw [order]; simp [inLeft])
      refine ⟨allocQ, otherQ, ?_, zeroQ.of_same (same q otherQ)⟩
      rintro (rfl | owns)
      · exact apart q inLeft q (by simp) rfl
      · exact freshQ owns
  · rename_i empty
    obtain ⟨rfl, room, rfl⟩ := runs_growOnePage.mp rest
    have same : ∀ q, q < m.pages → SamePage m (m.enlarged room) q :=
      fun q alloc i inside => byteAt_enlarged_old room alloc inside
    refine ⟨fun owns => Nat.lt_irrefl _ (supply.owned_allocated _ owns).1,
      fun i _ => byteAt_enlarged_new room i, Nat.le_succ _, fun q alloc _ => same q alloc, ?_⟩
    refine ⟨Nat.lt_succ_of_lt supply.reserved, ?_, u, ?_, nodup, ?_⟩
    · rintro q (rfl | owns)
      · exact ⟨Nat.lt_succ_self _, Nat.ne_of_gt supply.reserved⟩
      · exact ⟨Nat.lt_succ_of_lt (supply.owned_allocated q owns).1, (supply.owned_allocated q owns).2⟩
    · refine stored.of_same ?_ (same _ supply.reserved)
      rw [UnclaimedPages.encode_length, pageSize_eq]
      omega
    · rw [UnclaimedPages.pop_none empty]
      simp

/-- With an empty ledger the memory grows. -/
theorem claimPage_grows {m : MemoryManager} (reserved : UnclaimedPages.reservedPage < m.pages)
    (room : m.pages + 1 ≤ m.capacity)
    (empty : m.Stores UnclaimedPages.reservedPage 0 (UnclaimedPages.encode ⟨[], Nat.zero_le _⟩)) :
    m.Runs MemoryAccess.claimPage m.pages (m.enlarged room) := by
  obtain ⟨tail, content⟩ := empty.bytesAt_eq (show _ ≤ pageSize by
    rw [UnclaimedPages.encode_length, pageSize_eq]; simp)
  unfold MemoryAccess.claimPage
  refine runs_bind.mpr ⟨_, m, runs_readAt_dynamic.mpr ⟨reserved, rfl, rfl⟩, ?_⟩
  refine runs_bind.mpr ⟨⟨[], Nat.zero_le _⟩, m, runs_lift.mpr ⟨?_, rfl⟩, ?_⟩
  · rw [content]
    exact UnclaimedPages.decode_encode _ tail (by simp)
  · exact runs_growOnePage.mpr ⟨rfl, room, rfl⟩

/-- A page is handed out as long as the memory can grow by one. -/
theorem claimPage_available {m : MemoryManager} {owned : Nat → Prop} (supply : PageSupply m owned)
    (room : m.pages + 1 ≤ m.capacity) :
    ∃ page m', m.Runs MemoryAccess.claimPage page m' ∧ m'.pages ≤ m.pages + 1 := by
  obtain ⟨u, stored, _, free⟩ := supply.ledger
  have fits := u.encode_fits
  obtain ⟨tail, content⟩ := stored.bytesAt_eq (show u.encode.length ≤ pageSize by
    rw [UnclaimedPages.encode_length, pageSize_eq]; omega)
  have decoded : UnclaimedPages.decode (m.bytesAt UnclaimedPages.reservedPage 0 pageSize) = .ok u := by
    rw [content]
    exact UnclaimedPages.decode_encode u tail fun p member => page_lt _ (free p member).1
  have read : m.Runs (MemoryAccess.readAt UnclaimedPages.reservedPage 0 defaultAlignment .dynamic) _ m :=
    runs_readAt_dynamic.mpr ⟨supply.reserved, rfl, rfl⟩
  cases popped : u.pop with
  | none =>
      refine ⟨m.pages, m.enlarged room, runs_bind.mpr ⟨_, m, read, runs_bind.mpr ⟨u, m, runs_lift.mpr ⟨decoded, rfl⟩, ?_⟩⟩,
        Nat.le_refl _⟩
      rw [popped]
      exact runs_growOnePage.mpr ⟨rfl, room, rfl⟩
  | some top =>
      obtain ⟨page, ledger⟩ := top
      have small := ledger.encode_fits
      have inPage : 0 + (padded ledger.encoded).length ≤ pageSize := by
        rw [Nat.zero_add, padded_length]
        refine alignUp_le_of_dvd ledger.encoded.alignment_pos ?_ ?_
        · change defaultAlignment ∣ pageSize
          rw [pageSize_eq, defaultAlignment]
          omega
        · change ledger.encode.length ≤ pageSize
          rw [UnclaimedPages.encode_length, pageSize_eq]
          omega
      have written : m.Runs (MemoryAccess.writeAt UnclaimedPages.reservedPage 0 ledger.encoded) ()
          (m.writeBytes UnclaimedPages.reservedPage 0 (padded ledger.encoded)) :=
        runs_writeAt.mpr ⟨supply.reserved, Nat.dvd_zero _, inPage, rfl⟩
      refine ⟨page, m.writeBytes UnclaimedPages.reservedPage 0 (padded ledger.encoded), runs_bind.mpr ⟨_, m, read, runs_bind.mpr ⟨u, m, runs_lift.mpr ⟨decoded, rfl⟩, ?_⟩⟩, Nat.le_succ _⟩
      rw [popped]
      exact runs_bind.mpr ⟨(), _, written, runs_pure.mpr ⟨rfl, rfl⟩⟩

end PageSupply

end WasmDbms
