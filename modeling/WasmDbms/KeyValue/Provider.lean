import WasmDbms.Lib.Paged
import WasmDbms.KeyValue.Store

/-!
# The key-value memory provider

A memory kept in the process, with the pages that changed since the checkpoint it
was loaded from or last wrote. `flush` writes the changed pages into the slots the
checkpoint does not use and then replaces the head.
-/
namespace WasmDbms.KeyValue
open Paged

/-- `MAX_BATCH_PAGES`. -/
def maxBatchPages : Nat := 16

/-- `chunks(MAX_BATCH_PAGES)`. -/
def batchesOf {α : Type} (xs : List α) : List (List α) :=
  (List.range ((xs.length + 15) / maxBatchPages)).map fun number => (xs.drop (maxBatchPages * number)).take maxBatchPages

/-- `resolve_page_in_batch`. -/
def resolvePageInBatch (batch : List String) (key : String) (batchStart : Nat) : Except ProviderFailure Nat :=
  match batch.idxOf? key with
  | some page => .ok (batchStart + page)
  | none => .error (.providerError "key-value page batch returned an unexpected key")

section Load
variable (env : Target) (getMany : Answers) (checkpoint : Checkpoint)

/-- The value of a page, if it is the one the checkpoint was made with. -/
def checkPage (page : Nat) : Option (List UInt8) → Except ProviderFailure (List UInt8)
  | none => .error (.providerError "key-value page value is missing")
  | some value =>
      if value.length ≠ pageSize then .error (.providerError "key-value page has an invalid length")
      else if env.xxh3_64 value ≠ checkpoint.hash page then
        .error (.providerError "key-value page hash does not match checkpoint")
      else .ok value

/-- One answer of `get_many`, put into the memory and among the pages seen in the batch. -/
def loadPage (batch : List String) (batchStart : Nat) (loaded : Image pageSize × List Nat)
    (answer : String × Option (List UInt8)) : Except ProviderFailure (Image pageSize × List Nat) := do
  let page ← resolvePageInBatch batch answer.1 batchStart
  if page ∈ loaded.2 then throw (.providerError "key-value page batch returned a duplicate key")
  let value ← checkPage env checkpoint page answer.2
  return (loaded.1.setPage page value, loaded.2 ++ [page])

def loadBatch (batch : List String) (batchStart : Nat) (memory : Image pageSize) :
    Except ProviderFailure (Image pageSize) := do
  let values ← getMany batch
  if values.length ≠ batch.length then throw (.providerError "key-value page batch omitted a key")
  let loaded ← values.foldlM (loadPage env checkpoint batch batchStart) (memory, [])
  if loaded.2.length ≠ batch.length ∨ ∃ page ∈ List.range' batchStart batch.length, page ∉ loaded.2 then
    throw (.providerError "key-value page batch omitted a key")
  return loaded.1

def loadBatches : Nat → List (List String) → Image pageSize → Except ProviderFailure (Image pageSize)
  | _, [], memory => .ok memory
  | number, batch :: batches, memory => do
      let memory ← loadBatch env getMany checkpoint batch (number * maxBatchPages) memory
      loadBatches (number + 1) batches memory

/-- `load_memory`. -/
def loadMemory (keyspace : String) : Except ProviderFailure (Image pageSize) := do
  if env.isizeMax < checkpoint.pages * pageSize then throw .failedToAllocatePage
  let keys ← (List.range checkpoint.pages).mapM fun page => pageKey keyspace page (checkpoint.slot page)
  loadBatches env getMany checkpoint 0 (batchesOf keys) (Image.zero pageSize checkpoint.pages)

end Load

/-- `WasiKeyValueMemoryProvider`. Its page count is the one of its memory. -/
structure Provider where
  store : KeyValueStore
  keyspace : String
  memory : Image pageSize
  published : Checkpoint
  dirtyPages : List Bool
  fallbackCheckpoint : Bool
  poisoned : Bool
  tracked : dirtyPages.length = memory.pages

/-- The manifest under the head key, and the empty one of a new database. -/
def readHead (env : Target) (store : KeyValueStore) (keyspace : String) : Except ProviderFailure Manifest :=
  match store.get (headKey keyspace) with
  | some bytes => Manifest.decode env bytes
  | none => .ok Manifest.empty

namespace Provider

/-- A provider just loaded from `published`. -/
def opened (store : KeyValueStore) (keyspace : String) (memory : Image pageSize) (published : Checkpoint)
    (fallback : Bool) : Provider where
  store := store
  keyspace := keyspace
  memory := memory
  published := published
  dirtyPages := List.replicate memory.pages false
  fallbackCheckpoint := fallback
  poisoned := false
  tracked := List.length_replicate

/-- The second attempt of `with_store`, after the current checkpoint failed to load. -/
def openPrevious (env : Target) (getMany : Answers) (store : KeyValueStore) (keyspace : String) (currentError : ProviderFailure) :
    Option Checkpoint → Except ProviderFailure Provider
  | none => .error currentError
  | some previous =>
      if 0 < previous.pages then
        match loadMemory env getMany previous keyspace with
        | .ok memory => .ok (opened store keyspace memory previous true)
        | .error _ => .error currentError
      else .error currentError

/-- `with_store`, where the store answers `get_many` in any way. -/
def withAnswers (env : Target) (getMany : Answers) (store : KeyValueStore) (name : String) :
    Except ProviderFailure Provider := do
  let keyspace ← keyspaceOf name
  let manifest ← readHead env store keyspace
  match loadMemory env getMany manifest.current keyspace with
  | .ok memory => .ok (opened store keyspace memory manifest.current false)
  | .error currentError => openPrevious env getMany store keyspace currentError manifest.previous

/-- `with_store`. -/
def withStore (env : Target) (store : KeyValueStore) (name : String) : Except ProviderFailure Provider :=
  withAnswers env store.answers store name

section Calls
variable (p : Provider)

def checkPoisoned : Except ProviderFailure Unit :=
  if p.poisoned then .error (.providerError "key-value memory provider is poisoned; reopen it") else .ok ()

def checkWritable : Except ProviderFailure Unit := do
  p.checkPoisoned
  if p.fallbackCheckpoint then
    .error (.providerError "fallback checkpoint is read-only; reopen the provider before writing")
  else .ok ()

def size : Nat := p.memory.pages * pageSize

/-- `grow`. All its checks come before the first change. -/
def grow (env : Target) (newPages : Nat) : Except ProviderFailure (Nat × Provider) := do
  p.checkWritable
  let pages := p.memory.pages + newPages
  if pages ≥ 18446744073709551616 then throw .failedToAllocatePage
  validatePageCount env pages
  return (p.size, { p with
    memory := p.memory.grow newPages
    dirtyPages := p.dirtyPages ++ List.replicate newPages true
    tracked := by rw [List.length_append, List.length_replicate, p.tracked, Image.grow_pages] })

/-- `read` of `len` bytes. -/
def read (offset len : Nat) : Except ProviderFailure (List UInt8) := do
  p.checkPoisoned
  if offset + len ≤ p.size then return (p.memory.bytes.drop offset).take len else throw .outOfBounds

/-- `mark_dirty` of the pages from `first` up to `stop`. -/
def markDirty (first stop : Nat) : Provider :=
  { p with
    dirtyPages := p.dirtyPages.mapIdx fun page dirty => dirty || (decide (first ≤ page) && decide (page < stop))
    tracked := by rw [List.length_mapIdx, p.tracked] }

/-- `write`. A range past the end of `u64` is past the end of the memory, too. -/
def write (offset : Nat) (buf : List UInt8) : Except ProviderFailure Provider := do
  p.checkWritable
  if fits : offset + buf.length ≤ p.memory.pages * pageSize then
    let written := { p with memory := p.memory.write offset buf fits, tracked := p.tracked }
    if buf.isEmpty then return written
    else return written.markDirty (offset / pageSize) ((offset + buf.length - 1) / pageSize + 1)
  else throw .outOfBounds

def dirty (page : Nat) : Bool := p.dirtyPages.getD page false

/-- `dirty_page_numbers`. -/
def dirtyPageNumbers : List Nat := (List.range p.dirtyPages.length).filter p.dirty

/-- The slot a flush gives to a page: a dirty page changes its slot. -/
def candidateSlot (page : Nat) : UInt8 :=
  if p.dirty page then
    if page < p.published.slots.length then 1 - p.published.slot page else 0
  else p.published.slot page

def candidateHash (env : Target) (page : Nat) : UInt64 :=
  if p.dirty page then env.xxh3_64 (p.memory.page page) else p.published.hash page

theorem one_sub_le {slot : UInt8} (low : slot ≤ 1) : 1 - slot ≤ 1 := by
  have low' := UInt8.le_iff_toNat_le.mp low
  rw [UInt8.le_iff_toNat_le, UInt8.toNat_sub_of_le 1 slot low]
  exact Nat.sub_le _ _

theorem candidateSlot_le (page : Nat) : p.candidateSlot page ≤ 1 := by
  have low := p.published.slot_le page
  rw [candidateSlot]
  split
  · split
    · exact one_sub_le low
    · exact UInt8.le_iff_toNat_le.mpr (Nat.zero_le 1)
  · exact low

/-- The checkpoint a flush publishes. -/
def candidate (env : Target) : Checkpoint where
  slots := (List.range p.memory.pages).map p.candidateSlot
  hashes := (List.range p.memory.pages).map (p.candidateHash env)
  paired := by rw [List.length_map, List.length_map]
  slots_le := by
    intro slot member
    rw [List.mem_map] at member
    obtain ⟨page, _, rfl⟩ := member
    exact p.candidateSlot_le page

/-- The entries of one batch of a flush. -/
def batchEntries (checkpoint : Checkpoint) (batch : List Nat) : Except ProviderFailure (List (String × List UInt8)) :=
  batch.mapM fun page => do
    let key ← pageKey p.keyspace page (checkpoint.slot page)
    return (key, p.memory.page page)

/-- The page batches of a flush, one call of `set_many` a batch. -/
def writeBatches (checkpoint : Checkpoint) :
    List (List Nat) → KeyValueStore → List Fate → Except ProviderFailure Unit × KeyValueStore × List Fate
  | [], store, fates => (.ok (), store, fates)
  | batch :: batches, store, fates =>
      match p.batchEntries checkpoint batch with
      | .error e => (.error e, store, fates)
      | .ok entries =>
          match store.setMany entries (fates.headD .done) with
          | (.error e, store) => (.error e, store, fates.tail)
          | (.ok _, store) => writeBatches checkpoint batches store fates.tail

/-- The last step of a flush: a failure to replace the head poisons the provider. -/
def publish (manifest : Manifest) (store : KeyValueStore) (fate : Fate) : Except ProviderFailure Unit × Provider :=
  match store.set (headKey p.keyspace) manifest.encode fate with
  | (.error e, store) => (.error e, { p with store, poisoned := true })
  | (.ok _, store) => (.ok (), { p with
      store
      published := manifest.current
      dirtyPages := List.replicate p.memory.pages false
      fallbackCheckpoint := false
      tracked := List.length_replicate })

/-- The pages and then the head. -/
def writeCheckpoint (manifest : Manifest) (fates : List Fate) : Except ProviderFailure Unit × Provider :=
  match p.writeBatches manifest.current (batchesOf p.dirtyPageNumbers) p.store fates with
  | (.error e, store, _) => (.error e, { p with store })
  | (.ok _, store, fates) => p.publish manifest store (fates.headD .done)

/-- The manifest a flush is about to write, if it has anything to write. -/
def prepareFlush (env : Target) : Except ProviderFailure (Option Manifest) := do
  p.checkPoisoned
  if p.dirtyPageNumbers.isEmpty then return none
  p.checkWritable
  let manifest ← Manifest.new env (p.candidate env) (some p.published)
  return some manifest

/-- `flush_inner`. Each call of the store takes one of the fates; a crash in one of the
calls leaves the store a failure of the call leaves. -/
def flush (env : Target) (fates : List Fate) : Except ProviderFailure Unit × Provider :=
  match p.prepareFlush env with
  | .error e => (.error e, p)
  | .ok none => (.ok (), p)
  | .ok (some manifest) => p.writeCheckpoint manifest fates

end Calls
end Provider
end WasmDbms.KeyValue
