import WasmDbms.KeyValue.Load

/-!
# Recovery of a checkpoint

The pages the stored head leads to are never overwritten before the head changes. So
after any calls and any failure of a flush the database opens with the memory of the
last flush that replaced the head.
-/
namespace WasmDbms.KeyValue
open Paged Result

/-! ## The writes of a flush -/

namespace Provider
section Writes
variable {p : Provider} {c : Checkpoint}

/-- The entries of a batch, when all its pages can be addressed. -/
def entries (p : Provider) (c : Checkpoint) (batch : List Nat) : List (String × List UInt8) :=
  batch.map fun page => (c.key p.keyspace page, p.memory.page page)

theorem batchEntries_eq {batch : List Nat} (addressed : ∀ page ∈ batch, page ≤ maxPages) :
    p.batchEntries c batch = .ok (p.entries c batch) := by
  apply mapM_eq_map
  intro page member
  rw [pageKey_eq_ok (c.slot_le page) (addressed page member)]
  rfl

section Cons
variable {batch : List Nat} {batches : List (List Nat)} {store store' : KeyValueStore} {fates : List Fate}

theorem writeBatches_cons_error {e : ProviderFailure} (addressed : ∀ page ∈ batch, page ≤ maxPages)
    (written : store.setMany (p.entries c batch) (fates.headD .done) = (.error e, store')) :
    p.writeBatches c (batch :: batches) store fates = (.error e, store', fates.tail) := by
  simp only [writeBatches, batchEntries_eq addressed, written]

theorem writeBatches_cons_ok (addressed : ∀ page ∈ batch, page ≤ maxPages)
    (written : store.setMany (p.entries c batch) (fates.headD .done) = (.ok (), store')) :
    p.writeBatches c (batch :: batches) store fates = p.writeBatches c batches store' fates.tail := by
  simp only [writeBatches, batchEntries_eq addressed, written]

end Cons

theorem notMem_entries {batch : List Nat} {key : String} (other : ∀ page ∈ batch, key ≠ c.key p.keyspace page)
    (value : List UInt8) : (key, value) ∉ p.entries c batch := by
  intro member
  obtain ⟨page, inside, same⟩ := List.mem_map.mp member
  exact other page inside (congrArg Prod.fst same).symm

/-- The batches leave every key alone that is not one of their pages. -/
theorem writeBatches_frame {batches : List (List Nat)} (addressed : ∀ batch ∈ batches, ∀ page ∈ batch, page ≤ maxPages)
    {store : KeyValueStore} {fates : List Fate} {key : String}
    (other : ∀ batch ∈ batches, ∀ page ∈ batch, key ≠ c.key p.keyspace page) :
    (p.writeBatches c batches store fates).2.1.values key = store.values key := by
  induction batches generalizing store fates with
  | nil => rfl
  | cons batch batches ih =>
      rw [List.forall_mem_cons] at addressed other
      have first := store.setMany_of_notMem (notMem_entries other.1) (fates.headD .done)
      rcases written : store.setMany (p.entries c batch) (fates.headD .done) with ⟨result, store'⟩
      rw [written] at first
      cases result with
      | error e =>
          rw [writeBatches_cons_error addressed.1 written]
          exact first
      | ok _ =>
          rw [writeBatches_cons_ok addressed.1 written]
          exact (ih addressed.2 other.2).trans first

theorem entries_written {batch : List Nat} {page : Nat} (member : page ∈ batch) (store : KeyValueStore) :
    (store.putAll (p.entries c batch)).values (c.key p.keyspace page) = some (p.memory.page page) := by
  have listed : (c.key p.keyspace page, p.memory.page page) ∈ p.entries c batch := List.mem_map.mpr ⟨page, member, rfl⟩
  apply KeyValueStore.putAll_of_mem listed
  intro value' member'
  obtain ⟨page', _, same⟩ := List.mem_map.mp member'
  have equal := c.key_injective p.keyspace (congrArg Prod.fst same)
  subst equal
  exact (congrArg Prod.snd same).symm

/-- When all batches are written, the store holds all their pages. -/
theorem writeBatches_written {batches : List (List Nat)}
    (addressed : ∀ batch ∈ batches, ∀ page ∈ batch, page ≤ maxPages) {store store' : KeyValueStore} {fates fates' : List Fate}
    (written : p.writeBatches c batches store fates = (.ok (), store', fates')) {page : Nat}
    (listed : ∃ batch ∈ batches, page ∈ batch) : store'.values (c.key p.keyspace page) = some (p.memory.page page) := by
  induction batches generalizing store fates with
  | nil =>
      obtain ⟨batch, member, _⟩ := listed
      cases member
  | cons first batches ih =>
      rw [List.forall_mem_cons] at addressed
      cases fate : fates.headD .done with
      | failed error applied =>
          rw [writeBatches_cons_error addressed.1 (by rw [fate]; rfl)] at written
          cases written
      | done =>
          have sent : store.setMany (p.entries c first) (fates.headD .done) =
              (.ok (), store.putAll (p.entries c first)) := by
            rw [fate]
            rfl
          have rest := written
          rw [writeBatches_cons_ok addressed.1 sent] at rest
          by_cases later : ∃ batch ∈ batches, page ∈ batch
          · exact ih addressed.2 rest later
          · have kept : (p.writeBatches c batches (store.putAll (p.entries c first)) fates.tail).2.1.values
                (c.key p.keyspace page) = (store.putAll (p.entries c first)).values (c.key p.keyspace page) := by
              apply writeBatches_frame addressed.2
              intro batch listed' page' member' same
              rw [c.key_injective p.keyspace same] at later
              exact later ⟨batch, listed', member'⟩
            rw [rest] at kept
            rw [List.exists_mem_cons_iff] at listed
            exact kept.trans (entries_written (listed.resolve_right later) store)

end Writes

/-! ## The slots of the new checkpoint -/

section Slots
variable {env : Target} {p : Provider} {page : Nat}

theorem mem_dirtyPageNumbers : page ∈ p.dirtyPageNumbers ↔ page < p.memory.pages ∧ p.dirty page = true := by
  rw [dirtyPageNumbers, List.mem_filter, List.mem_range, p.tracked]

theorem candidate_pages : (p.candidate env).pages = p.memory.pages := by
  rw [Checkpoint.pages, candidate, List.length_map, List.length_range]

theorem candidate_slot (inside : page < p.memory.pages) : (p.candidate env).slot page = p.candidateSlot page := by
  rw [Checkpoint.slot, candidate, List.getD_eq_getElem?_getD, List.getElem?_map, List.getElem?_range inside]
  rfl

theorem candidate_hash (inside : page < p.memory.pages) : (p.candidate env).hash page = p.candidateHash env page := by
  rw [Checkpoint.hash, candidate, List.getD_eq_getElem?_getD, List.getElem?_map, List.getElem?_range inside]
  rfl

theorem one_sub_ne (slot : UInt8) (low : slot ≤ 1) : 1 - slot ≠ slot := by
  intro same
  have low' := UInt8.le_iff_toNat_le.mp low
  have number := congrArg UInt8.toNat same
  rw [UInt8.toNat_sub_of_le 1 slot low] at number
  simp only [UInt8.toNat_one] at low' number
  omega

/-- A dirty page gets the slot its published version does not have. -/
theorem candidateSlot_ne (dirty : p.dirty page = true) (published : page < p.published.pages) :
    p.candidateSlot page ≠ p.published.slot page := by
  have listed : page < p.published.slots.length := published
  rw [candidateSlot, if_pos dirty, if_pos listed]
  exact one_sub_ne _ (p.published.slot_le page)

/-- No page of the published checkpoint is among the pages a flush writes. -/
theorem candidate_key_ne {page' : Nat} (dirty : page' ∈ p.dirtyPageNumbers) (published : page < p.published.pages) :
    p.published.key p.keyspace page ≠ (p.candidate env).key p.keyspace page' := by
  intro same
  rw [mem_dirtyPageNumbers] at dirty
  obtain ⟨pages, slots⟩ := pageKeyText_injective same
  subst pages
  rw [candidate_slot dirty.1] at slots
  exact candidateSlot_ne dirty.2 published slots.symm

/-- A checkpoint with a dirty page is not the published one. -/
theorem candidate_ne (dirty : page ∈ p.dirtyPageNumbers) : p.candidate env ≠ p.published := by
  intro same
  rw [mem_dirtyPageNumbers] at dirty
  have published : page < p.published.pages := by
    rw [← same, candidate_pages]
    exact dirty.1
  have slots : (p.candidate env).slot page = p.candidateSlot page := candidate_slot dirty.1
  rw [same] at slots
  exact candidateSlot_ne dirty.2 published slots.symm

end Slots
end Provider

/-! ## What the store keeps -/

theorem readHead_congr {env : Target} {store store' : KeyValueStore} {keyspace : String}
    (same : store'.values (headKey keyspace) = store.values (headKey keyspace)) :
    readHead env store' keyspace = readHead env store keyspace := by
  rw [readHead, readHead, KeyValueStore.get, KeyValueStore.get, same]

theorem Stored.congr {env : Target} {store store' : KeyValueStore} {keyspace : String} {c : Checkpoint}
    {image : Image pageSize} (stored : Stored env store keyspace c image)
    (same : ∀ page < c.pages, store'.values (c.key keyspace page) = store.values (c.key keyspace page)) :
    Stored env store' keyspace c image where
  pages := stored.pages
  values page inside := (same page inside).trans (stored.values page inside)
  hashes := stored.hashes

/-- The head under a key of its own leads to the checkpoint `c`, whose pages are stored
and make up `image`. -/
structure Durable (env : Target) (store : KeyValueStore) (keyspace : String) (c : Checkpoint) (image : Image pageSize) :
    Prop where
  head : ∃ manifest, readHead env store keyspace = .ok manifest ∧ manifest.current = c
  addressable : env.Addressable c.pages
  stored : Stored env store keyspace c image

/-- A durable checkpoint is the one the database opens with. -/
theorem Durable.withStore {env : Target} {store : KeyValueStore} {keyspace name : String} {c : Checkpoint}
    {image : Image pageSize} (durable : Durable env store keyspace c image) (named : keyspaceOf name = .ok keyspace) :
    Provider.withStore env store name = .ok (Provider.opened store keyspace image c false) := by
  obtain ⟨manifest, found, rfl⟩ := durable.head
  rw [Provider.withStore, Provider.withAnswers, named]
  apply bind_eq_ok.mpr ⟨_, rfl, bind_eq_ok.mpr ⟨_, found, ?_⟩⟩
  rw [loadMemory_stored durable.stored durable.addressable]

theorem Durable.congr {env : Target} {store store' : KeyValueStore} {keyspace : String} {c : Checkpoint}
    {image : Image pageSize} (durable : Durable env store keyspace c image)
    (head : store'.values (headKey keyspace) = store.values (headKey keyspace))
    (pages : ∀ page < c.pages, store'.values (c.key keyspace page) = store.values (c.key keyspace page)) :
    Durable env store' keyspace c image where
  head := by
    rw [readHead_congr head]
    exact durable.head
  addressable := durable.addressable
  stored := durable.stored.congr pages

/-! ## A provider beside its store -/

namespace Provider

/-- The pages of the provider that are not dirty are those of the durable checkpoint. -/
structure Clean (p : Provider) (c : Checkpoint) (image : Image pageSize) : Prop where
  published : p.published = c
  within : c.pages ≤ p.memory.pages
  clean : ∀ page < p.memory.pages, p.dirty page = false → page < c.pages ∧ p.memory.page page = image.page page

/-- The store of the provider would be opened with `image`, and the provider knows its
checkpoint unless it is poisoned. -/
structure Settled (env : Target) (p : Provider) (c : Checkpoint) (image : Image pageSize) : Prop where
  durable : Durable env p.store p.keyspace c image
  writable : p.fallbackCheckpoint = false
  clean : p.poisoned = false → p.Clean c image

section Flush
variable {env : Target} {p : Provider} {c : Checkpoint} {image : Image pageSize}

/-- A flush with something to write has a manifest of the new and the published checkpoint. -/
theorem prepareFlush_eq_some {manifest : Manifest} (prepared : p.prepareFlush env = .ok (some manifest)) :
    p.poisoned = false ∧ (∃ page, page ∈ p.dirtyPageNumbers) ∧ manifest = ⟨p.candidate env, some p.published⟩ ∧
      manifest.Addressable env := by
  rw [prepareFlush] at prepared
  obtain ⟨_, healthy, prepared⟩ := bind_eq_ok.mp prepared
  rw [checkPoisoned] at healthy
  split at healthy
  · cases healthy
  rename_i poisoned
  split at prepared
  · cases prepared
  rename_i some_dirty
  obtain ⟨_, _, prepared⟩ := bind_eq_ok.mp prepared
  obtain ⟨made, created, prepared⟩ := bind_eq_ok.mp prepared
  cases prepared
  refine ⟨Bool.eq_false_iff.mpr poisoned, ?_, Manifest.new_eq_ok.mp created⟩
  rw [List.isEmpty_iff] at some_dirty
  exact List.exists_mem_of_ne_nil _ some_dirty

/-- A flush with nothing to write finds no dirty page. -/
theorem prepareFlush_eq_none (prepared : p.prepareFlush env = .ok none) :
    p.poisoned = false ∧ ∀ page < p.memory.pages, p.dirty page = false := by
  rw [prepareFlush] at prepared
  obtain ⟨_, healthy, prepared⟩ := bind_eq_ok.mp prepared
  rw [checkPoisoned] at healthy
  split at healthy
  · cases healthy
  rename_i poisoned
  split at prepared
  · rename_i none_dirty
    refine ⟨Bool.eq_false_iff.mpr poisoned, fun page inside => Bool.eq_false_iff.mpr fun dirty => ?_⟩
    have member := mem_dirtyPageNumbers.mpr ⟨inside, dirty⟩
    rw [List.isEmpty_iff.mp none_dirty] at member
    cases member
  · obtain ⟨_, _, prepared⟩ := bind_eq_ok.mp prepared
    obtain ⟨_, _, prepared⟩ := bind_eq_ok.mp prepared
    cases prepared

/-- The memory of a provider without dirty pages is the durable one. -/
theorem Clean.memory_eq (clean : p.Clean c image) (pages : image.pages = c.pages)
    (none_dirty : ∀ page < p.memory.pages, p.dirty page = false) : p.memory = image := by
  have shorter : p.memory.pages ≤ c.pages := by
    by_contra longer
    have last := (clean.clean c.pages (by omega) (none_dirty c.pages (by omega))).1
    omega
  apply Image.ext_page
  · have within := clean.within
    omega
  · exact fun page inside => (clean.clean page inside (none_dirty page inside)).2

section Batches
variable {fates : List Fate} {store' : KeyValueStore}

/-- The pages a flush writes can be addressed. -/
theorem batches_addressed (addressable : env.Addressable (p.candidate env).pages) :
    ∀ batch ∈ batchesOf p.dirtyPageNumbers, ∀ page ∈ batch, page ≤ maxPages := by
  intro batch listed page member
  have dirty := mem_dirtyPageNumbers.mp (mem_batchesOf.mpr ⟨batch, listed, member⟩)
  have bound := addressable.1
  rw [candidate_pages] at bound
  omega

theorem batches_frame (addressable : env.Addressable (p.candidate env).pages) {key : String}
    (other : ∀ page ∈ p.dirtyPageNumbers, key ≠ (p.candidate env).key p.keyspace page) :
    (p.writeBatches (p.candidate env) (batchesOf p.dirtyPageNumbers) p.store fates).2.1.values key =
      p.store.values key := by
  apply writeBatches_frame (batches_addressed addressable)
  intro batch listed page member
  exact other page (mem_batchesOf.mpr ⟨batch, listed, member⟩)

variable (fates) in
theorem batches_head (addressable : env.Addressable (p.candidate env).pages) :
    (p.writeBatches (p.candidate env) (batchesOf p.dirtyPageNumbers) p.store fates).2.1.values (headKey p.keyspace) =
      p.store.values (headKey p.keyspace) :=
  batches_frame addressable fun _ _ => pageKeyText_ne_headKey.symm

variable (fates) in
/-- No batch of a flush touches the durable checkpoint, whatever fails. -/
theorem batches_durable (durable : Durable env p.store p.keyspace c image) (clean : p.Clean c image)
    (addressable : env.Addressable (p.candidate env).pages) :
    Durable env (p.writeBatches (p.candidate env) (batchesOf p.dirtyPageNumbers) p.store fates).2.1 p.keyspace c image := by
  obtain rfl := clean.published
  apply durable.congr (batches_head fates addressable)
  intro page inside
  exact batches_frame addressable fun page' dirty => candidate_key_ne dirty inside

/-- After all batches the store holds the pages of the new checkpoint. -/
theorem batches_stored (durable : Durable env p.store p.keyspace c image) (clean : p.Clean c image)
    (addressable : env.Addressable (p.candidate env).pages) {fates' : List Fate}
    (written : p.writeBatches (p.candidate env) (batchesOf p.dirtyPageNumbers) p.store fates = (.ok (), store', fates')) :
    Stored env store' p.keyspace (p.candidate env) p.memory := by
  obtain rfl := clean.published
  refine ⟨candidate_pages.symm, fun page inside => ?_, fun page inside => ?_⟩
  all_goals rw [candidate_pages] at inside
  · by_cases dirty : page ∈ p.dirtyPageNumbers
    · exact writeBatches_written (batches_addressed addressable) written (mem_batchesOf.mp dirty)
    · have spared : p.dirty page = false := Bool.eq_false_iff.mpr fun here => dirty (mem_dirtyPageNumbers.mpr ⟨inside, here⟩)
      obtain ⟨published, same⟩ := clean.clean page inside spared
      have slot : (p.candidate env).key p.keyspace page = p.published.key p.keyspace page := by
        rw [Checkpoint.key, Checkpoint.key, candidate_slot inside, candidateSlot, spared]
        rfl
      have kept : (p.writeBatches (p.candidate env) (batchesOf p.dirtyPageNumbers) p.store fates).2.1.values
          ((p.candidate env).key p.keyspace page) = p.store.values ((p.candidate env).key p.keyspace page) := by
        apply batches_frame addressable
        intro page' dirty' equal
        rw [(p.candidate env).key_injective p.keyspace equal] at dirty
        exact dirty dirty'
      rw [written] at kept
      rw [kept, slot, durable.stored.values page published, same]
  · rw [candidate_hash inside, candidateHash]
    cases dirty : p.dirty page with
    | true => rfl
    | false =>
        obtain ⟨published, same⟩ := clean.clean page inside dirty
        rw [same]
        exact durable.stored.hashes page published

/-- Replacing the head makes the new checkpoint the durable one. -/
theorem durable_put {manifest : Manifest} {memory : Image pageSize} (addressable : manifest.Addressable env)
    (stored : Stored env store' p.keyspace manifest.current memory) :
    Durable env (store'.put (headKey p.keyspace) manifest.encode) p.keyspace manifest.current memory where
  head := by
    refine ⟨manifest, ?_, rfl⟩
    rw [readHead, KeyValueStore.get, KeyValueStore.put_values, Function.update_self]
    exact Manifest.decode_encode addressable
  addressable := addressable.current
  stored := by
    apply stored.congr
    intro page _
    rw [KeyValueStore.put_values]
    exact Function.update_of_ne pageKeyText_ne_headKey _ _

end Batches

section Stages
variable {fates fates' : List Fate} {manifest : Manifest} {store' : KeyValueStore}

theorem flush_error {e : ProviderFailure} (prepared : p.prepareFlush env = .error e) :
    p.flush env fates = (.error e, p) := by
  simp only [Provider.flush, prepared]

theorem flush_none (prepared : p.prepareFlush env = .ok none) : p.flush env fates = (.ok (), p) := by
  simp only [Provider.flush, prepared]

theorem flush_some (prepared : p.prepareFlush env = .ok (some manifest)) :
    p.flush env fates = p.writeCheckpoint manifest fates := by
  simp only [Provider.flush, prepared]

theorem writeCheckpoint_error {e : ProviderFailure} (written : p.writeBatches manifest.current
      (batchesOf p.dirtyPageNumbers) p.store fates = (.error e, store', fates')) :
    p.writeCheckpoint manifest fates = (.error e, { p with store := store' }) := by
  simp only [writeCheckpoint, written]

theorem writeCheckpoint_ok (written : p.writeBatches manifest.current (batchesOf p.dirtyPageNumbers) p.store fates =
      (.ok (), store', fates')) :
    p.writeCheckpoint manifest fates = p.publish manifest store' (fates'.headD .done) := by
  simp only [writeCheckpoint, written]

theorem publish_failed (error : ProviderFailure) (applied : String → Bool) :
    p.publish manifest store' (.failed error applied) = (.error error, { p with
      store := if applied (headKey p.keyspace) then store'.put (headKey p.keyspace) manifest.encode else store'
      poisoned := true }) := rfl

end Stages

/-- How a flush ends: the head is the old one and so is the durable checkpoint, or the
head is a new one and the memory of the provider is durable. -/
inductive Flushed (env : Target) (p : Provider) (c : Checkpoint) (image : Image pageSize) :
    Except ProviderFailure Unit × Provider → Prop
  | kept {result : Except ProviderFailure Unit} {p' : Provider}
      (head : p'.store.values (headKey p.keyspace) = p.store.values (headKey p.keyspace))
      (settled : p'.Settled env c image) (complete : result = .ok () → p.memory = image) : Flushed env p c image (result, p')
  | replaced {result : Except ProviderFailure Unit} {p' : Provider} {c' : Checkpoint}
      (head : p'.store.values (headKey p.keyspace) ≠ p.store.values (headKey p.keyspace))
      (settled : p'.Settled env c' p.memory) : Flushed env p c image (result, p')

/-- A provider whose memory was published is clean. -/
theorem clean_of_published {p' : Provider} (pages : p'.memory.pages = p'.published.pages) :
    p'.Clean p'.published p'.memory where
  published := rfl
  within := Nat.le_of_eq pages.symm
  clean page inside _ := by
    rw [pages] at inside
    exact ⟨inside, rfl⟩

/-- A head that is replaced is a different one. -/
theorem head_replaced {manifest : Manifest} (durable : Durable env p.store p.keyspace c image)
    (addressable : manifest.Addressable env) (other : manifest.current ≠ c) :
    some manifest.encode ≠ p.store.values (headKey p.keyspace) := by
  intro same
  obtain ⟨found, read, rfl⟩ := durable.head
  rw [readHead, KeyValueStore.get, ← same] at read
  have decoded := (Manifest.decode_encode addressable).symm.trans read
  cases decoded
  exact other rfl

/-- The step lemma of a flush. -/
theorem Settled.flush (settled : p.Settled env c image) (fates : List Fate) :
    Flushed env p c image (p.flush env fates) := by
  rcases prepared : p.prepareFlush env with e | (_ | manifest)
  · rw [flush_error prepared]
    exact .kept rfl settled nofun
  · obtain ⟨healthy, none_dirty⟩ := prepareFlush_eq_none prepared
    rw [flush_none prepared]
    exact .kept rfl settled fun _ => (settled.clean healthy).memory_eq settled.durable.stored.pages none_dirty
  · obtain ⟨healthy, ⟨page, dirty⟩, rfl, addressable⟩ := prepareFlush_eq_some prepared
    rw [flush_some prepared]
    have clean := settled.clean healthy
    have durable := batches_durable fates settled.durable clean addressable.current
    have head := batches_head fates addressable.current
    rcases written : p.writeBatches (p.candidate env) (batchesOf p.dirtyPageNumbers) p.store fates with
      ⟨e | _, store', fates'⟩
    · -- a batch failed: the pages are still dirty and the head is still there
      rw [written] at durable head
      rw [writeCheckpoint_error written]
      exact .kept head ⟨durable, settled.writable, fun _ => ⟨clean.published, clean.within, clean.clean⟩⟩ nofun
    · rw [written] at durable head
      rw [writeCheckpoint_ok written]
      have stored := batches_stored settled.durable clean addressable.current written
      have placed := durable_put addressable stored
      have other : p.candidate env ≠ c := by
        rw [← clean.published]
        exact candidate_ne dirty
      have changed := head_replaced settled.durable addressable other
      have updated : (store'.put (headKey p.keyspace) (Manifest.encode ⟨p.candidate env, some p.published⟩)).values
          (headKey p.keyspace) ≠ p.store.values (headKey p.keyspace) := by
        rw [KeyValueStore.put_values, Function.update_self]
        exact changed
      cases fates'.headD .done with
      | done =>
          have pages : p.memory.pages = (p.candidate env).pages := candidate_pages.symm
          exact .replaced updated ⟨placed, rfl, fun _ => clean_of_published pages⟩
      | failed error applied =>
          rw [publish_failed]
          cases applied (headKey p.keyspace) with
          | true => exact .replaced updated ⟨placed, settled.writable, nofun⟩
          | false => exact .kept head ⟨durable, settled.writable, nofun⟩ nofun

end Flush

/-! ## The other calls -/

section Calls
variable {env : Target} {p p' : Provider} {c : Checkpoint} {image : Image pageSize}

theorem checkWritable_ok (ok : p.checkWritable = .ok ()) : p.poisoned = false ∧ p.fallbackCheckpoint = false := by
  rw [checkWritable] at ok
  obtain ⟨_, healthy, ok⟩ := bind_eq_ok.mp ok
  rw [checkPoisoned] at healthy
  split at healthy
  · cases healthy
  rename_i poisoned
  split at ok
  · cases ok
  rename_i fallback
  exact ⟨Bool.eq_false_iff.mpr poisoned, Bool.eq_false_iff.mpr fallback⟩

theorem grow_ok {newPages previousSize : Nat} (grown : p.grow env newPages = .ok (previousSize, p')) :
    p.checkWritable = .ok () ∧ p' = { p with
      memory := p.memory.grow newPages
      dirtyPages := p.dirtyPages ++ List.replicate newPages true
      tracked := by rw [List.length_append, List.length_replicate, p.tracked, Image.grow_pages] } := by
  rw [Provider.grow] at grown
  obtain ⟨_, writable, grown⟩ := bind_eq_ok.mp grown
  by_cases huge : p.memory.pages + newPages ≥ 18446744073709551616
  · rw [if_pos huge] at grown
    cases grown
  rw [if_neg huge] at grown
  obtain ⟨_, _, grown⟩ := bind_eq_ok.mp grown
  cases grown
  exact ⟨writable, rfl⟩

/-- Growing leaves the store, and the pages that were clean. -/
theorem Settled.grow {newPages previousSize : Nat} (settled : p.Settled env c image)
    (grown : p.grow env newPages = .ok (previousSize, p')) : p'.Settled env c image := by
  obtain ⟨writable, rfl⟩ := grow_ok grown
  have clean := settled.clean (checkWritable_ok writable).1
  refine ⟨settled.durable, settled.writable, fun _ => ⟨clean.published, ?_, fun page inside spared => ?_⟩⟩
  · exact Nat.le_trans clean.within (Nat.le_add_right _ _)
  · simp only [dirty, List.getD_eq_getElem?_getD] at spared
    by_cases old : page < p.memory.pages
    · rw [List.getElem?_append_left (by rw [p.tracked]; exact old), ← List.getD_eq_getElem?_getD] at spared
      obtain ⟨published, same⟩ := clean.clean page old spared
      exact ⟨published, (Image.page_grow old newPages).trans same⟩
    · have fresh : page - p.dirtyPages.length < newPages := by
        rw [Image.grow_pages] at inside
        rw [p.tracked]
        omega
      rw [List.getElem?_append_right (by rw [p.tracked]; omega), List.getElem?_replicate, if_pos fresh] at spared
      cases spared

theorem dirty_markDirty {first stop page : Nat} (inside : page < p.memory.pages) :
    (p.markDirty first stop).dirty page = (p.dirty page || (decide (first ≤ page) && decide (page < stop))) := by
  have bound : page < p.dirtyPages.length := by
    rw [p.tracked]
    exact inside
  simp only [dirty, markDirty, List.getD_eq_getElem?_getD, List.getElem?_mapIdx, List.getElem?_eq_getElem bound,
    Option.map_some, Option.getD_some]

theorem write_ok {offset : Nat} {buf : List UInt8} (written : p.write offset buf = .ok p') :
    p.checkWritable = .ok () ∧ p'.keyspace = p.keyspace ∧ p'.store = p.store := by
  rw [Provider.write] at written
  obtain ⟨_, writable, written⟩ := bind_eq_ok.mp written
  refine ⟨writable, ?_⟩
  split at written
  · split at written
    · cases written
      exact ⟨rfl, rfl⟩
    · cases written
      exact ⟨rfl, rfl⟩
  · cases written

/-- Writing leaves the store, and marks every page it changes. -/
theorem Settled.write {offset : Nat} {buf : List UInt8} (settled : p.Settled env c image)
    (written : p.write offset buf = .ok p') : p'.Settled env c image := by
  rw [Provider.write] at written
  obtain ⟨_, writable, written⟩ := bind_eq_ok.mp written
  have clean := settled.clean (checkWritable_ok writable).1
  split at written
  · rename_i fits
    split at written
    · rename_i nothing
      cases written
      rw [List.isEmpty_iff] at nothing
      subst nothing
      refine ⟨settled.durable, settled.writable, fun _ => ⟨clean.published, clean.within, fun page inside spared => ?_⟩⟩
      obtain ⟨published, same⟩ := clean.clean page inside spared
      exact ⟨published, (Image.page_write_nil fits page).trans same⟩
    · rename_i something
      cases written
      have some_bytes : 0 < buf.length := by
        rw [List.isEmpty_iff] at something
        exact List.length_pos_iff.mpr something
      refine ⟨settled.durable, settled.writable, fun _ => ⟨clean.published, clean.within, fun page inside spared => ?_⟩⟩
      let q : Provider := { p with memory := p.memory.write offset buf fits, tracked := p.tracked }
      have bound : page < q.memory.pages := inside
      have marked : (p.dirty page || (decide (offset / pageSize ≤ page) &&
          decide (page < (offset + buf.length - 1) / pageSize + 1))) = false := (dirty_markDirty bound).symm.trans spared
      rw [Bool.or_eq_false_iff, Bool.and_eq_false_iff, decide_eq_false_iff_not, decide_eq_false_iff_not] at marked
      obtain ⟨published, same⟩ := clean.clean page inside marked.1
      have wide : 0 < pageSize := by
        rw [pageSize_eq]
        decide
      refine ⟨published, (Image.page_write_of_untouched wide fits some_bytes ?_).trans same⟩
      exact marked.2.imp Nat.lt_of_not_le fun behind => by omega
  · cases written

end Calls

/-! ## Opening -/

theorem opened_settled {env : Target} {store : KeyValueStore} {keyspace : String} {c : Checkpoint}
    {image : Image pageSize} (durable : Durable env store keyspace c image) :
    (opened store keyspace image c false).Settled env c image :=
  ⟨durable, rfl, fun _ => clean_of_published durable.stored.pages⟩

theorem opened_dirty {store : KeyValueStore} {keyspace : String} {image : Image pageSize} {c : Checkpoint} {fallback : Bool}
    (page : Nat) : (opened store keyspace image c fallback).dirty page = false := by
  simp only [dirty, opened, List.getD_eq_getElem?_getD, List.getElem?_replicate]
  split <;> rfl

end Provider

theorem readHead_addressable {env : Target} {store : KeyValueStore} {keyspace : String} {manifest : Manifest}
    (found : readHead env store keyspace = .ok manifest) : manifest.Addressable env := by
  rw [readHead] at found
  split at found
  · exact Manifest.decode_addressable found
  · cases found
    refine ⟨⟨Nat.zero_le _, ?_⟩, nofun⟩
    rw [Checkpoint.pages, Manifest.empty, Checkpoint.empty, List.length_nil, Nat.zero_mul]
    exact Nat.zero_le _

/-- A provider that could only load the previous checkpoint. It accepts no call that
changes anything. -/
structure Frozen (env : Target) (name : String) (p : Provider) (image : Image pageSize) : Prop where
  fallback : p.fallbackCheckpoint = true
  none_dirty : ∀ page, p.dirty page = false
  reopens : Provider.withStore env p.store name = .ok p
  memory : p.memory = image

/-- A provider as it is opened: with the current checkpoint, or frozen. -/
theorem withStore_cases {env : Target} {store : KeyValueStore} {name : String} {p : Provider}
    (opened : Provider.withStore env store name = .ok p) :
    keyspaceOf name = .ok p.keyspace ∧ p.poisoned = false ∧
      ((∃ c, p.Settled env c p.memory) ∨ Frozen env name p p.memory) := by
  have given := opened
  rw [Provider.withStore, Provider.withAnswers] at opened
  obtain ⟨keyspace, named, opened⟩ := bind_eq_ok.mp opened
  obtain ⟨manifest, found, opened⟩ := bind_eq_ok.mp opened
  have addressable := readHead_addressable found
  split at opened
  · rename_i memory loaded
    cases opened
    have stored := stored_of_loadMemory addressable.current loaded
    exact ⟨named, rfl, .inl ⟨_, Provider.opened_settled ⟨⟨manifest, found, rfl⟩, addressable.current, stored⟩⟩⟩
  · rw [Provider.openPrevious.eq_def] at opened
    split at opened
    · cases opened
    · split at opened
      · split at opened
        · cases opened
          exact ⟨named, rfl, .inr ⟨rfl, Provider.opened_dirty, given, rfl⟩⟩
        · cases opened
      · cases opened

/-! ## Runs -/

/-- The memory the database opens with after a flush: that of the flush when it replaced
the head, and the one of the last flush that did otherwise. -/
def recovered (env : Target) (p : Provider) (fates : List Fate) (image : Image pageSize) : Image pageSize :=
  if (p.flush env fates).2.store.values (headKey p.keyspace) = p.store.values (headKey p.keyspace) then image
  else p.memory

/-- The runs of a database from any store it opens with, and beside each provider the
memory of the last flush that replaced the head. A flush takes any fates, and a provider
is dropped at any time: a crash inside a flush is a flush that fails there and whose
provider is dropped. -/
inductive Run (env : Target) (name : String) : Provider → Image pageSize → Prop
  | opened {store : KeyValueStore} {p : Provider} (opens : Provider.withStore env store name = .ok p) :
      Run env name p p.memory
  | grow {p p' : Provider} {image : Image pageSize} {newPages previousSize : Nat} (run : Run env name p image)
      (grown : p.grow env newPages = .ok (previousSize, p')) : Run env name p' image
  | write {p p' : Provider} {image : Image pageSize} {offset : Nat} {buf : List UInt8} (run : Run env name p image)
      (written : p.write offset buf = .ok p') : Run env name p' image
  | flush {p : Provider} {image : Image pageSize} (run : Run env name p image) (fates : List Fate) :
      Run env name (p.flush env fates).2 (recovered env p fates image)
  | reopened {p p' : Provider} {image : Image pageSize} (run : Run env name p image)
      (opens : Provider.withStore env p.store name = .ok p') : Run env name p' image

/-- What every run keeps. -/
inductive Safe (env : Target) (name : String) (p : Provider) (image : Image pageSize) : Prop
  | settled {c : Checkpoint} (named : keyspaceOf name = .ok p.keyspace) (settled : p.Settled env c image)
  | frozen (frozen : Frozen env name p image)

section Steps
variable {env : Target} {name : String} {p p' : Provider} {image : Image pageSize}

theorem flush_keyspace (fates : List Fate) : (p.flush env fates).2.keyspace = p.keyspace := by
  rcases prepared : p.prepareFlush env with e | (_ | manifest)
  · rw [Provider.flush_error prepared]
  · rw [Provider.flush_none prepared]
  · rw [Provider.flush_some prepared]
    rcases written : p.writeBatches manifest.current (batchesOf p.dirtyPageNumbers) p.store fates with
      ⟨e | _, store', fates'⟩
    · rw [Provider.writeCheckpoint_error written]
    · rw [Provider.writeCheckpoint_ok written]
      cases fates'.headD .done with
      | done => rfl
      | failed error applied => rfl

/-- A frozen provider has nothing to flush. -/
theorem Frozen.flush (frozen : Frozen env name p image) (fates : List Fate) : (p.flush env fates).2 = p := by
  rcases prepared : p.prepareFlush env with e | (_ | manifest)
  · rw [Provider.flush_error prepared]
  · rw [Provider.flush_none prepared]
  · obtain ⟨_, ⟨page, dirty⟩, _⟩ := Provider.prepareFlush_eq_some prepared
    have clean := frozen.none_dirty page
    rw [(Provider.mem_dirtyPageNumbers.mp dirty).2] at clean
    cases clean

theorem Safe.flush (safe : Safe env name p image) (fates : List Fate) :
    Safe env name (p.flush env fates).2 (recovered env p fates image) := by
  cases safe with
  | settled named settled =>
      have keyspace : keyspaceOf name = .ok (p.flush env fates).2.keyspace := by
        rw [flush_keyspace]
        exact named
      rw [recovered]
      have flushed := settled.flush fates
      generalize p.flush env fates = result at flushed keyspace ⊢
      cases flushed with
      | kept head settled' _ =>
          rw [if_pos head]
          exact .settled keyspace settled'
      | replaced head settled' =>
          rw [if_neg head]
          exact .settled keyspace settled'
  | frozen frozen =>
      rw [recovered, frozen.flush fates, if_pos rfl]
      exact .frozen frozen

/-- A safe provider opens again with its image. -/
theorem Safe.reopens (safe : Safe env name p image) :
    ∃ p', Provider.withStore env p.store name = .ok p' ∧ p'.memory = image := by
  cases safe with
  | settled named settled => exact ⟨_, settled.durable.withStore named, rfl⟩
  | frozen frozen => exact ⟨p, frozen.reopens, frozen.memory⟩

theorem Safe.opened {store : KeyValueStore} (opens : Provider.withStore env store name = .ok p) :
    Safe env name p p.memory := by
  obtain ⟨named, _, ⟨c, settled⟩ | frozen⟩ := withStore_cases opens
  · exact .settled named settled
  · exact .frozen frozen

theorem Safe.writable (safe : Safe env name p image) (writable : p.checkWritable = .ok ()) :
    ∃ c, keyspaceOf name = .ok p.keyspace ∧ p.Settled env c image := by
  cases safe with
  | settled named settled => exact ⟨_, named, settled⟩
  | frozen frozen =>
      have fallback := (Provider.checkWritable_ok writable).2
      rw [frozen.fallback] at fallback
      cases fallback

/-- Every run is safe. -/
theorem Run.safe (run : Run env name p image) : Safe env name p image := by
  induction run with
  | opened opens => exact Safe.opened opens
  | grow run grown ih =>
      obtain ⟨writable, result⟩ := Provider.grow_ok grown
      obtain ⟨c, named, settled⟩ := ih.writable writable
      have settled' := settled.grow grown
      subst result
      exact .settled named settled'
  | write run written ih =>
      obtain ⟨writable, keyspace, _⟩ := Provider.write_ok written
      obtain ⟨c, named, settled⟩ := ih.writable writable
      rw [← keyspace] at named
      exact .settled named (settled.write written)
  | flush run fates ih => exact ih.flush fates
  | reopened run opens ih =>
      obtain ⟨p', opens', same⟩ := ih.reopens
      cases opens.symm.trans opens'
      rw [← same]
      exact Safe.opened opens

/-- Whatever fails or stops inside a flush, the database opens again with the memory of
the last flush that replaced the head, and with the memory of this one when the head was
replaced; a flush that returns `Ok` is visible. -/
theorem Run.reopens_after_flush (run : Run env name p image) (fates : List Fate) :
    ∃ p', Provider.withStore env (p.flush env fates).2.store name = .ok p' ∧
      p'.memory = (if (p.flush env fates).2.store.values (headKey p.keyspace) = p.store.values (headKey p.keyspace)
        then image else p.memory) ∧
      ((p.flush env fates).1 = .ok () → p'.memory = p.memory) := by
  obtain ⟨p', opens, same⟩ := (run.safe.flush fates).reopens
  refine ⟨p', opens, same, fun complete => ?_⟩
  rw [same, recovered]
  split
  · rename_i head
    cases run.safe with
    | settled named settled =>
        have flushed := settled.flush fates
        generalize p.flush env fates = result at flushed head complete
        cases flushed with
        | kept _ _ whole => exact (whole complete).symm
        | replaced other _ => exact absurd head other
    | frozen frozen => exact frozen.memory.symm
  · rfl

end Steps

/-! ## A flush that fails after the head was replaced -/

namespace Restart

/-- A 64-bit target, with the hash of a page of zeros. -/
def env : Target := ⟨9223372036854775807, fun _ => 3725042947095682218⟩

def emptyStore : KeyValueStore := ⟨fun _ => none, id, List.Perm.refl⟩

def keyspace : String := "wasm-dbms/6462"

def start : Provider := Provider.opened emptyStore keyspace (Image.zero pageSize 0) Checkpoint.empty false

def grown : Provider :=
  { start with memory := start.memory.grow 1, dirtyPages := [true], tracked := rfl }

/-- The page is written, and the answer to the write of the head is lost. -/
def fates : List Fate := [.done, .failed (.providerError "no answer") fun _ => true]

theorem start_durable : Durable env emptyStore keyspace Checkpoint.empty (Image.zero pageSize 0) where
  head := ⟨Manifest.empty, rfl, rfl⟩
  addressable := ⟨Nat.zero_le _, by rw [Checkpoint.pages, Checkpoint.empty, List.length_nil, Nat.zero_mul]; exact Nat.zero_le _⟩
  stored := ⟨rfl, nofun, nofun⟩

theorem grown_eq : start.grow env 1 = .ok (start.size, grown) := by
  have counted : validatePageCount env (start.memory.pages + 1) = .ok () := by
    have one : start.memory.pages + 1 = 1 := rfl
    rw [validatePageCount_eq_ok, Target.Addressable, one, pageSize_eq]
    decide
  rw [Provider.grow]
  apply bind_eq_ok.mpr ⟨(), rfl, ?_⟩
  rw [if_neg (by decide), counted]
  rfl

theorem run : Run env "db" grown (Image.zero pageSize 0) :=
  .grow (.opened (start_durable.withStore (by decide))) grown_eq

theorem answer_lost : ∃ p', Provider.withStore env (grown.flush env fates).2.store "db" = .ok p' ∧
    p'.memory = (if (grown.flush env fates).2.store.values (headKey keyspace) = grown.store.values (headKey keyspace)
      then Image.zero pageSize 0 else grown.memory) ∧
    ((grown.flush env fates).1 = .ok () → p'.memory = grown.memory) :=
  run.reopens_after_flush fates

end Restart

end WasmDbms.KeyValue
