import WasmDbms.KeyValue.Provider

/-!
# Loading a checkpoint

A checkpoint loads exactly when the store holds all its pages, whatever the order of
the answers of the store, and what it loads is the memory of these pages.
-/
namespace WasmDbms.KeyValue
open Paged Result

/-! ## Batches -/

section Batches
variable {α : Type}

theorem batchesOf_range {n : Nat} (f : Nat → α) : batchesOf ((List.range n).map f) =
    (List.range ((n + 15) / maxBatchPages)).map fun number =>
      (List.range' (maxBatchPages * number) (min maxBatchPages (n - maxBatchPages * number))).map f := by
  rw [batchesOf, List.length_map, List.length_range]
  apply List.map_congr_left
  intro number _
  rw [← List.map_drop, ← List.map_take, List.range_eq_range', List.drop_range']
  congr 1
  have start : 0 + maxBatchPages * number * 1 = maxBatchPages * number := by omega
  rw [start]
  rcases Nat.le_total maxBatchPages (n - maxBatchPages * number) with full | last
  · rw [List.take_range'_of_length_ge full, Nat.min_eq_left full]
  · rw [List.take_range'_of_length_le last, Nat.min_eq_right last]

theorem mem_batchesOf {xs : List α} {x : α} : x ∈ xs ↔ ∃ batch ∈ batchesOf xs, x ∈ batch := by
  constructor
  · intro member
    obtain ⟨k, bound, rfl⟩ := List.getElem_of_mem member
    refine ⟨_, List.mem_map.mpr ⟨k / maxBatchPages, ?_, rfl⟩, ?_⟩
    · rw [List.mem_range, maxBatchPages]
      omega
    · have split : maxBatchPages * (k / maxBatchPages) + k % maxBatchPages = k := Nat.div_add_mod k maxBatchPages
      have low : k % maxBatchPages < maxBatchPages := Nat.mod_lt k (by decide)
      apply List.mem_of_getElem? (i := k % maxBatchPages)
      rw [List.getElem?_take_of_lt low, List.getElem?_drop, split, List.getElem?_eq_getElem bound]
  · rintro ⟨batch, member, inside⟩
    obtain ⟨number, _, rfl⟩ := List.mem_map.mp member
    exact List.mem_of_mem_drop (List.mem_of_mem_take inside)

end Batches

/-! ## One batch -/

/-- The key of a page of a checkpoint. -/
def Checkpoint.key (c : Checkpoint) (keyspace : String) (page : Nat) : String :=
  pageKeyText keyspace page (c.slot page)

theorem Checkpoint.key_injective (c : Checkpoint) (keyspace : String) : Function.Injective (c.key keyspace) :=
  fun _ _ same => (pageKeyText_injective same).1

/-- The store holds the pages of a checkpoint, and they are those of `image`. -/
structure Stored (env : Target) (store : KeyValueStore) (keyspace : String) (c : Checkpoint) (image : Image pageSize) :
    Prop where
  pages : image.pages = c.pages
  values : ∀ page < c.pages, store.values (c.key keyspace page) = some (image.page page)
  hashes : ∀ page < c.pages, env.xxh3_64 (image.page page) = c.hash page

section Batch
variable {env : Target} {store : KeyValueStore} {keyspace : String} {c : Checkpoint} {start len : Nat}

/-- The keys of consecutive pages. -/
def batchKeys (keyspace : String) (c : Checkpoint) (start len : Nat) : List String :=
  (List.range' start len).map (c.key keyspace)

theorem batchKeys_length : (batchKeys keyspace c start len).length = len := by
  rw [batchKeys, List.length_map, List.length_range']

theorem resolvePageInBatch_key {page : Nat} (member : page ∈ List.range' start len) :
    resolvePageInBatch (batchKeys keyspace c start len) (c.key keyspace page) start = .ok page := by
  rw [resolvePageInBatch]
  cases found : (batchKeys keyspace c start len).idxOf? (c.key keyspace page) with
  | none => exact absurd (List.mem_map_of_mem member) (List.idxOf?_eq_none_iff.mp found)
  | some i =>
      obtain ⟨bound, same, _⟩ := List.idxOf?_eq_some_iff.mp found
      simp only [batchKeys, List.getElem_map, List.getElem_range'] at same
      have here := c.key_injective keyspace same
      simp only [Except.ok.injEq]
      omega

variable (store keyspace c start len) in
/-- The answers of the store to a batch are the values of its pages in some order. -/
theorem getMany_batchKeys : ∃ pages : List Nat, pages.Perm (List.range' start len) ∧
    store.getMany (batchKeys keyspace c start len) =
      pages.map fun page => (c.key keyspace page, store.values (c.key keyspace page)) := by
  have injective := c.key_injective keyspace
  have perm := store.order_perm (batchKeys keyspace c start len)
  have back : ((store.order (batchKeys keyspace c start len)).map (Function.invFun (c.key keyspace))).map
      (c.key keyspace) = store.order (batchKeys keyspace c start len) := by
    rw [List.map_map]
    conv_rhs => rw [← List.map_id (store.order (batchKeys keyspace c start len))]
    apply List.map_congr_left
    intro key member
    obtain ⟨page, _, rfl⟩ := List.mem_map.mp (perm.mem_iff.mp member)
    rw [Function.comp_apply, Function.leftInverse_invFun injective page, id_eq]
  refine ⟨(store.order (batchKeys keyspace c start len)).map (Function.invFun (c.key keyspace)), ?_, ?_⟩
  · have pulled := perm.map (Function.invFun (c.key keyspace))
    rw [batchKeys, List.map_map, Function.invFun_comp injective, List.map_id] at pulled
    exact pulled
  · conv_lhs => rw [KeyValueStore.getMany, ← back]
    rw [List.map_map]
    rfl

section Complete
variable {image : Image pageSize} (stored : Stored env store keyspace c image) (bounded : start + len ≤ c.pages)

include stored bounded in
theorem loadPage_stored {memory : Image pageSize} {seen : List Nat} {page : Nat} (member : page ∈ List.range' start len)
    (fresh : page ∉ seen) :
    loadPage env c (batchKeys keyspace c start len) start (memory, seen)
        (c.key keyspace page, store.values (c.key keyspace page)) =
      .ok (memory.setPage page (image.page page), seen ++ [page]) := by
  have inside : page < c.pages := by
    rw [List.mem_range'_1] at member
    omega
  have whole : (image.page page).length = pageSize := Image.page_length (by rw [stored.pages]; exact inside)
  have checked : checkPage env c page (some (image.page page)) = .ok (image.page page) := by
    rw [checkPage, if_neg (fun other => other whole), if_neg (fun other => other (stored.hashes page inside))]
  rw [loadPage, resolvePageInBatch_key member, stored.values page inside]
  apply bind_eq_ok.mpr ⟨page, rfl, ?_⟩
  rw [if_neg fresh, checked]
  rfl

include stored bounded in
theorem foldlM_loadPage_stored {pages seen : List Nat} {memory : Image pageSize} {done : Nat → Prop}
    (inside : ∀ page ∈ pages, page ∈ List.range' start len) (nodup : pages.Nodup) (fresh : ∀ page ∈ pages, page ∉ seen)
    (agrees : memory.Agrees image done) :
    ∃ memory', (pages.map fun page => (c.key keyspace page, store.values (c.key keyspace page))).foldlM
        (loadPage env c (batchKeys keyspace c start len) start) (memory, seen) = .ok (memory', seen ++ pages) ∧
      memory'.Agrees image fun i => done i ∨ i ∈ pages := by
  induction pages generalizing seen memory done with
  | nil =>
      refine ⟨memory, by rw [List.append_nil]; rfl, agrees.mono fun i here => ?_⟩
      exact here.resolve_right List.not_mem_nil
  | cons page pages ih =>
      rw [List.nodup_cons] at nodup
      have member := inside page (List.mem_cons_self ..)
      have bound : page < image.pages := by
        rw [stored.pages]
        rw [List.mem_range'_1] at member
        omega
      have later : ∀ page' ∈ pages, page' ∉ seen ++ [page] := by
        intro page' here
        rw [List.mem_append, List.mem_singleton]
        rintro (before | rfl)
        · exact fresh page' (List.mem_cons_of_mem page here) before
        · exact nodup.1 here
      obtain ⟨memory', loaded, agrees'⟩ := ih (fun page' here => inside page' (List.mem_cons_of_mem page here)) nodup.2
        later (agrees.setPage bound)
      refine ⟨memory', ?_, agrees'.mono fun i here => ?_⟩
      · rw [List.map_cons, List.foldlM_cons,
          loadPage_stored stored bounded member (fresh page (List.mem_cons_self ..))]
        rw [List.append_assoc] at loaded
        exact loaded
      · rcases here with before | here
        · exact .inl (.inl before)
        · rcases List.mem_cons.mp here with rfl | later
          · exact .inl (.inr rfl)
          · exact .inr later

include stored bounded in
theorem loadBatch_stored {memory : Image pageSize} {done : Nat → Prop} (agrees : memory.Agrees image done) :
    ∃ memory', loadBatch env store.answers c (batchKeys keyspace c start len) start memory = .ok memory' ∧
      memory'.Agrees image fun i => done i ∨ i ∈ List.range' start len := by
  obtain ⟨pages, perm, answers⟩ := getMany_batchKeys store keyspace c start len
  obtain ⟨memory', loaded, agrees'⟩ := foldlM_loadPage_stored stored bounded (fun page => perm.mem_iff.mp)
    (perm.nodup_iff.mpr List.nodup_range') (fun _ _ => List.not_mem_nil) agrees
  have count : pages.length = len := by rw [perm.length_eq, List.length_range']
  refine ⟨memory', ?_, agrees'.mono fun i here => here.imp_right perm.mem_iff.mpr⟩
  rw [loadBatch, KeyValueStore.answers, answers]
  apply bind_eq_ok.mpr ⟨_, rfl, ?_⟩
  simp only [List.length_map, batchKeys_length, count, ne_eq, not_true_eq_false, if_false]
  rw [loaded]
  apply bind_eq_ok.mpr ⟨_, rfl, ?_⟩
  rw [if_neg]
  · rfl
  · rintro (other | ⟨page, member, missing⟩)
    · exact other count
    · exact missing (perm.mem_iff.mpr member)

end Complete

/-- The store answered `value` for a page, and it has the length and the hash of the page. -/
structure Answered (env : Target) (getMany : Answers) (keyspace : String) (c : Checkpoint) (page : Nat)
    (value : List UInt8) : Prop where
  whole : value.length = pageSize
  hashed : env.xxh3_64 value = c.hash page
  answered : ∃ keys found, getMany keys = .ok found ∧ (c.key keyspace page, some value) ∈ found

theorem checkPage_eq_ok {env : Target} {c : Checkpoint} {page : Nat} {found : Option (List UInt8)} {value : List UInt8}
    (checked : checkPage env c page found = .ok value) :
    found = some value ∧ value.length = pageSize ∧ env.xxh3_64 value = c.hash page := by
  cases found with
  | none => cases checked
  | some bytes =>
      rw [checkPage] at checked
      split at checked
      · cases checked
      · rename_i long
        split at checked
        · cases checked
        · rename_i hashed
          cases checked
          exact ⟨rfl, of_not_not long, of_not_not hashed⟩

theorem resolvePageInBatch_ok {key : String} {page : Nat}
    (resolved : resolvePageInBatch (batchKeys keyspace c start len) key start = .ok page) :
    page ∈ List.range' start len ∧ key = c.key keyspace page := by
  rw [resolvePageInBatch] at resolved
  split at resolved
  · rename_i i found
    cases resolved
    obtain ⟨bound, same, _⟩ := List.idxOf?_eq_some_iff.mp found
    rw [batchKeys_length] at bound
    simp only [batchKeys, List.getElem_map, List.getElem_range', Nat.one_mul] at same
    exact ⟨List.mem_range'_1.mpr ⟨Nat.le_add_right _ _, by omega⟩, same.symm⟩
  · cases resolved

variable {getMany : Answers}

/-- A memory while a batch is loaded: the pages that were seen have answered values, and those
outside the batch are as before. -/
structure Filling (env : Target) (getMany : Answers) (keyspace : String) (c : Checkpoint) (start len : Nat)
    (memory : Image pageSize) (loaded : Image pageSize × List Nat) : Prop where
  pages : loaded.1.pages = memory.pages
  outside : ∀ page, page ∉ List.range' start len → loaded.1.page page = memory.page page
  seen : ∀ page ∈ loaded.2, Answered env getMany keyspace c page (loaded.1.page page)

theorem Filling.step {memory : Image pageSize} {loaded loaded' : Image pageSize × List Nat} {keys : List String}
    {found : List (String × Option (List UInt8))} {answer : String × Option (List UInt8)} (asked : getMany keys = .ok found)
    (member : answer ∈ found) (room : start + len ≤ memory.pages)
    (filling : Filling env getMany keyspace c start len memory loaded)
    (step : loadPage env c (batchKeys keyspace c start len) start loaded answer = .ok loaded') :
    Filling env getMany keyspace c start len memory loaded' := by
  rw [loadPage] at step
  obtain ⟨page, resolved, step⟩ := bind_eq_ok.mp step
  obtain ⟨inside, named⟩ := resolvePageInBatch_ok resolved
  split at step
  · cases step
  · rename_i fresh
    obtain ⟨value, checked, made⟩ := bind_eq_ok.mp step
    cases made
    obtain ⟨given, whole, hashed⟩ := checkPage_eq_ok checked
    have here : (c.key keyspace page, some value) ∈ found := by
      rw [← named, ← given]
      exact member
    have bound : page < loaded.1.pages := by
      rw [List.mem_range'_1] at inside
      rw [filling.pages]
      omega
    refine ⟨(Image.setPage_pages _ _ _).trans filling.pages, fun other away => ?_, fun other listed => ?_⟩
    · have different : other ≠ page := fun same => away (same ▸ inside)
      exact (Image.page_setPage_of_ne different whole).trans (filling.outside other away)
    · rcases List.mem_append.mp listed with before | last
      · have different : other ≠ page := fun same => fresh (same ▸ before)
        rw [Image.page_setPage_of_ne different whole]
        exact filling.seen other before
      · rw [List.mem_singleton.mp last, Image.page_setPage bound whole]
        exact ⟨whole, hashed, keys, found, asked, here⟩

/-- A batch that loads has an answered value for each of its pages, and leaves the other pages. -/
theorem loadBatch_answered {memory memory' : Image pageSize} (room : start + len ≤ memory.pages)
    (loaded : loadBatch env getMany c (batchKeys keyspace c start len) start memory = .ok memory') :
    memory'.pages = memory.pages ∧ (∀ page, page ∉ List.range' start len → memory'.page page = memory.page page) ∧
      ∀ page ∈ List.range' start len, Answered env getMany keyspace c page (memory'.page page) := by
  rw [loadBatch] at loaded
  obtain ⟨found, asked, loaded⟩ := bind_eq_ok.mp loaded
  split at loaded
  · cases loaded
  · obtain ⟨filled, folded, loaded⟩ := bind_eq_ok.mp loaded
    have filling : Filling env getMany keyspace c start len memory filled :=
      foldlM_keeps (fun answer member _ _ filling step => filling.step asked member room step)
        ⟨rfl, fun _ _ => rfl, fun _ absurd_ => absurd absurd_ List.not_mem_nil⟩ folded
    split at loaded
    · cases loaded
    · rename_i complete
      cases loaded
      rw [batchKeys_length, not_or] at complete
      refine ⟨filling.pages, filling.outside, fun page inside => filling.seen page ?_⟩
      exact of_not_not fun missing => complete.2 ⟨page, inside, missing⟩

end Batch

/-! ## The whole checkpoint -/

section Whole
variable {env : Target} {store : KeyValueStore} {keyspace : String} {c : Checkpoint}

/-- The batches of keys from one batch on. -/
def keyBatches (keyspace : String) (c : Checkpoint) (first count : Nat) : List (List String) :=
  (List.range' first count).map fun number =>
    batchKeys keyspace c (maxBatchPages * number) (min maxBatchPages (c.pages - maxBatchPages * number))

theorem keyBatches_succ (first count : Nat) : keyBatches keyspace c first (count + 1) =
    batchKeys keyspace c (maxBatchPages * first) (min maxBatchPages (c.pages - maxBatchPages * first)) ::
      keyBatches keyspace c (first + 1) count := by
  rw [keyBatches, List.range'_succ, List.map_cons, keyBatches]

theorem batchesOf_keys : batchesOf ((List.range c.pages).map (c.key keyspace)) =
    keyBatches keyspace c 0 ((c.pages + 15) / maxBatchPages) := by
  rw [batchesOf_range, List.range_eq_range']
  rfl

theorem keys_eq (addressable : env.Addressable c.pages) :
    ((List.range c.pages).mapM fun page => pageKey keyspace page (c.slot page)) =
      .ok ((List.range c.pages).map (c.key keyspace)) := by
  apply mapM_eq_map
  intro page member
  have bound := addressable.1
  rw [List.mem_range] at member
  exact pageKey_eq_ok (c.slot_le page) (by omega)

theorem loadBatches_stored {image : Image pageSize} (stored : Stored env store keyspace c image) {first count : Nat}
    {memory : Image pageSize} (inside : maxBatchPages * (first + count) < c.pages + maxBatchPages)
    (agrees : memory.Agrees image fun i => i < maxBatchPages * first) :
    ∃ memory', loadBatches env store.answers c first (keyBatches keyspace c first count) memory = .ok memory' ∧
      memory'.Agrees image fun i => i < min c.pages (maxBatchPages * (first + count)) := by
  induction count generalizing first memory with
  | zero => exact ⟨memory, rfl, agrees.mono fun i here => lt_of_lt_of_le here (Nat.min_le_right _ _)⟩
  | succ count ih =>
      rw [maxBatchPages] at inside
      have bounded : maxBatchPages * first + min maxBatchPages (c.pages - maxBatchPages * first) ≤ c.pages := by
        rw [maxBatchPages]
        omega
      obtain ⟨memory', loaded, agrees'⟩ := loadBatch_stored stored bounded agrees
      have next : memory'.Agrees image fun i => i < maxBatchPages * (first + 1) := by
        refine ⟨agrees'.1, fun i bound here => agrees'.2 i bound ?_⟩
        rw [stored.pages] at bound
        rw [List.mem_range'_1]
        rw [maxBatchPages] at here ⊢
        omega
      have inside' : maxBatchPages * (first + 1 + count) < c.pages + maxBatchPages := by
        rw [maxBatchPages]
        omega
      obtain ⟨memory'', rest, agrees''⟩ := ih inside' next
      refine ⟨memory'', ?_, agrees''.mono fun i here => ?_⟩
      · rw [keyBatches_succ, loadBatches, Nat.mul_comm first, loaded]
        exact rest
      · have count' : first + 1 + count = first + (count + 1) := by omega
        rw [count']
        exact here

/-- A checkpoint whose pages are stored loads, and its memory is their content. -/
theorem loadMemory_stored {image : Image pageSize} (stored : Stored env store keyspace c image)
    (addressable : env.Addressable c.pages) : loadMemory env store.answers c keyspace = .ok image := by
  have blank : (Image.zero pageSize c.pages).Agrees image fun i => i < maxBatchPages * 0 :=
    ⟨stored.pages.symm, fun i _ here => absurd here (Nat.not_lt_zero i)⟩
  have inside : maxBatchPages * (0 + (c.pages + 15) / maxBatchPages) < c.pages + maxBatchPages := by
    rw [maxBatchPages]
    omega
  obtain ⟨memory, loaded, agrees⟩ := loadBatches_stored stored inside blank
  rw [loadMemory, if_neg (Nat.not_lt.mpr addressable.2), keys_eq addressable]
  apply bind_eq_ok.mpr ⟨_, rfl, ?_⟩
  rw [batchesOf_keys, loaded, agrees.eq]
  intro i bound
  rw [stored.pages] at bound
  rw [maxBatchPages]
  omega

theorem loadBatches_answered {getMany : Answers} {first count : Nat} {memory memory' : Image pageSize}
    (room : memory.pages = c.pages) (inside : maxBatchPages * (first + count) < c.pages + maxBatchPages)
    (loaded : loadBatches env getMany c first (keyBatches keyspace c first count) memory = .ok memory') :
    memory'.pages = c.pages ∧ (∀ page < maxBatchPages * first, memory'.page page = memory.page page) ∧
      ∀ page < c.pages, maxBatchPages * first ≤ page → page < maxBatchPages * (first + count) →
        Answered env getMany keyspace c page (memory'.page page) := by
  induction count generalizing first memory with
  | zero =>
      cases loaded
      refine ⟨room, fun _ _ => rfl, fun page _ low high => ?_⟩
      rw [Nat.add_zero] at high
      omega
  | succ count ih =>
      rw [keyBatches_succ, loadBatches, Nat.mul_comm first] at loaded
      obtain ⟨next, batch, rest⟩ := bind_eq_ok.mp loaded
      rw [maxBatchPages] at inside
      have bounded : maxBatchPages * first + min maxBatchPages (c.pages - maxBatchPages * first) ≤ memory.pages := by
        rw [maxBatchPages]
        omega
      obtain ⟨pages, outside, answered⟩ := loadBatch_answered bounded batch
      obtain ⟨pages', before, behind⟩ := ih (pages.trans room) (by rw [maxBatchPages]; omega) rest
      refine ⟨pages', fun page low => ?_, fun page bound low high => ?_⟩
      · rw [maxBatchPages] at low
        rw [before page (by rw [maxBatchPages]; omega), outside page (by rw [List.mem_range'_1, maxBatchPages]; omega)]
      · rw [maxBatchPages] at low high
        by_cases here : page < maxBatchPages * (first + 1)
        · rw [before page here]
          rw [maxBatchPages] at here
          exact answered page (by rw [List.mem_range'_1, maxBatchPages]; omega)
        · exact behind page bound (Nat.le_of_not_lt here) (by rw [maxBatchPages]; omega)

/-- Whatever the store answers, a checkpoint that loads consists of answered values. -/
theorem loadMemory_answered {getMany : Answers} {image : Image pageSize} (addressable : env.Addressable c.pages)
    (loaded : loadMemory env getMany c keyspace = .ok image) :
    image.pages = c.pages ∧ ∀ page < c.pages, Answered env getMany keyspace c page (image.page page) := by
  rw [loadMemory, if_neg (Nat.not_lt.mpr addressable.2), keys_eq addressable] at loaded
  obtain ⟨_, ⟨⟩, batches⟩ := bind_eq_ok.mp loaded
  rw [batchesOf_keys] at batches
  have inside : maxBatchPages * (0 + (c.pages + 15) / maxBatchPages) < c.pages + maxBatchPages := by
    rw [maxBatchPages]
    omega
  obtain ⟨pages, _, answered⟩ := loadBatches_answered rfl inside batches
  refine ⟨pages, fun page bound => answered page bound (Nat.zero_le _) ?_⟩
  rw [maxBatchPages]
  omega

/-- A checkpoint that loads from the store itself has its pages stored. -/
theorem stored_of_loadMemory {image : Image pageSize} (addressable : env.Addressable c.pages)
    (loaded : loadMemory env store.answers c keyspace = .ok image) : Stored env store keyspace c image := by
  obtain ⟨pages, answered⟩ := loadMemory_answered addressable loaded
  refine ⟨pages, fun page inside => ?_, fun page inside => (answered page inside).hashed⟩
  obtain ⟨keys, found, asked, listed⟩ := (answered page inside).answered
  cases asked
  obtain ⟨key, _, same⟩ := List.mem_map.mp listed
  obtain ⟨rfl, held⟩ := Prod.mk.inj same
  exact held

end Whole
end WasmDbms.KeyValue
