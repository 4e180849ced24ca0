import WasmDbms.KeyValue.Recovery

/-!
# Opening a damaged store

The page values of a store may be missing, cut or changed, and `get_many` may answer
anything. While the hash of a page tells the wrong values, what opens is one of the two
checkpoints that the head leads to, and the older one stays as it is.
-/
namespace WasmDbms.KeyValue
open Paged Result

/-! ## The calls of a provider -/

theorem pages_of_multiple {bytes : List UInt8} (whole : bytes.length % pageSize = 0) :
    bytes.length = bytes.length / pageSize * pageSize :=
  (Nat.div_mul_cancel (Nat.dvd_of_mod_eq_zero whole)).symm

/-- `import_snapshot`. -/
def Provider.importSnapshot (env : Target) (p : Provider) (bytes : List UInt8) : Except ProviderFailure Provider := do
  p.checkWritable
  if p.memory.pages ≠ 0 then throw (.providerError "cannot import a snapshot into a non-empty provider")
  if whole : bytes.length % pageSize = 0 then
    validatePageCount env (bytes.length / pageSize)
    return { p with
      memory := ⟨bytes, bytes.length / pageSize, pages_of_multiple whole⟩
      published := Checkpoint.empty
      dirtyPages := List.replicate (bytes.length / pageSize) true
      tracked := List.length_replicate }
  else throw (.providerError "snapshot length is not page-aligned")

/-- The calls that change a provider or its store. -/
inductive Call where
  | grow (newPages : Nat)
  | write (offset : Nat) (buf : List UInt8)
  | importSnapshot (bytes : List UInt8)
  | flush (fates : List Fate)

namespace Call

/-- A call that fails before its first change leaves the provider. -/
def settle (p : Provider) : Except ProviderFailure Provider → Except ProviderFailure Unit × Provider
  | .ok p' => (.ok (), p')
  | .error e => (.error e, p)

theorem settle_keeps {P : Provider → Prop} {p : Provider} {result : Except ProviderFailure Provider} (same : P p)
    (changed : ∀ p', result = .ok p' → P p') : P (settle p result).2 := by
  cases result with
  | error e => exact same
  | ok p' => exact changed p' rfl

def perform (env : Target) (p : Provider) : Call → Except ProviderFailure Unit × Provider
  | .grow newPages => settle p ((p.grow env newPages).map Prod.snd)
  | .write offset buf => settle p (p.write offset buf)
  | .importSnapshot bytes => settle p (p.importSnapshot env bytes)
  | .flush fates => p.flush env fates

/-- The calls that change the memory. -/
def Writes : Call → Prop
  | .flush _ => False
  | _ => True

end Call

/-- The provider after some calls. -/
def performAll (env : Target) (p : Provider) (calls : List Call) : Provider :=
  calls.foldl (fun p call => (call.perform env p).2) p

/-! ## The checkpoints of a head -/

/-- The memories of the current and of the previous checkpoint. -/
structure Memories where
  current : Image pageSize
  previous : Option (Image pageSize)

/-- A new head leads to the memory of the provider, and then to the one that was current. -/
def Memories.after (m : Memories) (p p' : Provider) : Memories :=
  if p'.store.values (headKey p.keyspace) = p.store.values (headKey p.keyspace) then m
  else ⟨p.memory, some m.current⟩

/-- The runs of a new database, with the memories of the last two flushes that replaced the
head. A flush takes any fates. -/
inductive History (env : Target) (name : String) : Provider → Memories → Prop
  | opened {store : KeyValueStore} {p : Provider} (opens : Provider.withStore env store name = .ok p)
      (fresh : store.values (headKey p.keyspace) = none) : History env name p ⟨p.memory, none⟩
  | call {p : Provider} {m : Memories} (history : History env name p m) (call : Call) :
      History env name (call.perform env p).2 (m.after p (call.perform env p).2)
  | reopened {p p' : Provider} {m : Memories} (history : History env name p m)
      (opens : Provider.withStore env p.store name = .ok p') : History env name p' m

/-- The checkpoint was made for this memory. -/
structure Describes (env : Target) (c : Checkpoint) (image : Image pageSize) : Prop where
  pages : image.pages = c.pages
  hashes : ∀ page < c.pages, env.xxh3_64 (image.page page) = c.hash page

/-- The checkpoints under the head were made for these memories. -/
def LeadsTo (env : Target) (store : KeyValueStore) (keyspace : String) (m : Memories) : Prop :=
  ∃ manifest, readHead env store keyspace = .ok manifest ∧ Describes env manifest.current m.current ∧
    ∀ c, manifest.previous = some c → ∃ image, m.previous = some image ∧ Describes env c image

/-- What every history keeps. -/
structure Remembers (env : Target) (name : String) (p : Provider) (m : Memories) : Prop where
  named : keyspaceOf name = .ok p.keyspace
  settled : ∃ c, p.Settled env c m.current
  leads : LeadsTo env p.store p.keyspace m

section Steps
variable {env : Target} {name : String} {p p' : Provider} {m : Memories} {c : Checkpoint} {image : Image pageSize}

theorem Stored.describes {store : KeyValueStore} {keyspace : String} (stored : Stored env store keyspace c image) :
    Describes env c image := ⟨stored.pages, stored.hashes⟩

theorem importSnapshot_ok {bytes : List UInt8} (imported : p.importSnapshot env bytes = .ok p') :
    p.checkWritable = .ok () ∧ p.memory.pages = 0 ∧ p'.store = p.store ∧ p'.keyspace = p.keyspace ∧
      p'.fallbackCheckpoint = p.fallbackCheckpoint ∧ p'.published = Checkpoint.empty ∧ ∀ page < p'.memory.pages, p'.dirty page = true := by
  rw [Provider.importSnapshot] at imported
  obtain ⟨_, writable, imported⟩ := bind_eq_ok.mp imported
  by_cases filled : p.memory.pages ≠ 0
  · rw [if_pos filled] at imported
    cases imported
  · rw [if_neg filled] at imported
    split at imported
    · obtain ⟨_, _, made⟩ := bind_eq_ok.mp imported
      cases made
      refine ⟨writable, of_not_not filled, rfl, rfl, rfl, rfl, fun page inside => ?_⟩
      rw [Provider.dirty, List.getD_eq_getElem?_getD, List.getElem?_replicate, if_pos inside]
      rfl
    · cases imported

/-- An import starts a provider without pages anew. -/
theorem Provider.Settled.importSnapshot {bytes : List UInt8} (settled : p.Settled env c image)
    (imported : p.importSnapshot env bytes = .ok p') : p'.Settled env c image := by
  obtain ⟨writable, blank, store, keyspace, fallback, published, all⟩ := importSnapshot_ok imported
  have clean := settled.clean (checkWritable_ok writable).1
  have none_ : c.slots = [] := List.eq_nil_of_length_eq_zero (Nat.le_zero.mp (blank ▸ clean.within))
  have empty_ : Checkpoint.empty = c := by
    apply Checkpoint.ext none_.symm
    exact (List.eq_nil_of_length_eq_zero (c.paired.symm.trans (by rw [none_, List.length_nil]))).symm
  refine ⟨store ▸ keyspace ▸ settled.durable, fallback.trans settled.writable, fun _ => ⟨published.trans empty_, ?_, ?_⟩⟩
  · rw [Checkpoint.pages, none_]
    exact Nat.zero_le _
  · intro page inside spared
    rw [all page inside] at spared
    cases spared

/-- A flush leaves the head, or puts the new and the published checkpoint there. -/
theorem Provider.Settled.flush_head (settled : p.Settled env c image) (fates : List Fate) :
    (p.flush env fates).2.store.values (headKey p.keyspace) = p.store.values (headKey p.keyspace) ∨
      (readHead env (p.flush env fates).2.store p.keyspace = .ok ⟨p.candidate env, some p.published⟩ ∧ p.published = c) := by
  rcases prepared : p.prepareFlush env with e | (_ | manifest)
  · rw [flush_error prepared]
    exact .inl rfl
  · rw [flush_none prepared]
    exact .inl rfl
  · obtain ⟨healthy, _, rfl, addressable⟩ := prepareFlush_eq_some prepared
    rw [flush_some prepared]
    have head := batches_head fates addressable.current
    rcases written : p.writeBatches (p.candidate env) (batchesOf p.dirtyPageNumbers) p.store fates with
      ⟨e | _, store', fates'⟩
    · rw [written] at head
      rw [writeCheckpoint_error written]
      exact .inl head
    · rw [written] at head
      rw [writeCheckpoint_ok written]
      have put : readHead env (store'.put (headKey p.keyspace) (Manifest.encode ⟨p.candidate env, some p.published⟩))
          p.keyspace = .ok ⟨p.candidate env, some p.published⟩ := by
        rw [readHead, KeyValueStore.get, KeyValueStore.put_values, Function.update_self]
        exact Manifest.decode_encode addressable
      have published := (settled.clean healthy).published
      cases fates'.headD .done with
      | done => exact .inr ⟨put, published⟩
      | failed error applied =>
          rw [publish_failed]
          cases applied (headKey p.keyspace) with
          | true => exact .inr ⟨put, published⟩
          | false => exact .inl head

/-- A call leaves the head and the durable checkpoint, or replaces both. -/
theorem Remembers.call (remembers : Remembers env name p m) (call : Call) :
    Remembers env name (call.perform env p).2 (m.after p (call.perform env p).2) := by
  obtain ⟨named, ⟨c, settled⟩, leads⟩ := remembers
  have same : Remembers env name p (m.after p p) := by
    rw [Memories.after, if_pos rfl]
    exact ⟨named, ⟨c, settled⟩, leads⟩
  have kept : ∀ {p' : Provider}, p'.Settled env c m.current → p'.store = p.store → p'.keyspace = p.keyspace →
      Remembers env name p' (m.after p p') := by
    intro p' settled' store keyspace
    rw [Memories.after, if_pos (by rw [store])]
    refine ⟨keyspace ▸ named, ⟨c, settled'⟩, ?_⟩
    rw [store, keyspace]
    exact leads
  cases call with
  | grow newPages =>
      refine Call.settle_keeps (P := fun q => Remembers env name q (m.after p q)) same fun p' result => ?_
      obtain ⟨⟨previousSize, q⟩, grown, moved⟩ := map_eq_ok.mp result
      obtain rfl : q = p' := moved
      have made := (Provider.grow_ok grown).2
      exact kept (settled.grow grown) (by rw [made]) (by rw [made])
  | write offset buf =>
      refine Call.settle_keeps (P := fun q => Remembers env name q (m.after p q)) same fun p' written => ?_
      obtain ⟨_, keyspace, store⟩ := Provider.write_ok written
      exact kept (settled.write written) store keyspace
  | importSnapshot bytes =>
      refine Call.settle_keeps (P := fun q => Remembers env name q (m.after p q)) same fun p' imported => ?_
      obtain ⟨_, _, store, keyspace, _⟩ := importSnapshot_ok imported
      exact kept (settled.importSnapshot imported) store keyspace
  | flush fates =>
      have head := settled.flush_head fates
      have keyspace := @flush_keyspace env p fates
      have flushed := settled.flush fates
      change Remembers env name (p.flush env fates).2 (m.after p (p.flush env fates).2)
      generalize p.flush env fates = result at head keyspace flushed ⊢
      cases flushed with
      | @kept _ p' same settled' _ =>
          refine ⟨keyspace.symm ▸ named, ⟨c, ?_⟩, ?_⟩
          · rw [Memories.after, if_pos same]
            exact settled'
          · obtain ⟨manifest, found, current, previous⟩ := leads
            rw [Memories.after, if_pos same]
            exact ⟨manifest, (by rw [keyspace, readHead_congr same]; exact found), current, previous⟩
      | @replaced _ p' c' other settled' =>
          obtain ⟨found, published⟩ := head.resolve_left other
          rw [Memories.after, if_neg other]
          refine ⟨keyspace.symm ▸ named, ⟨c', settled'⟩, _, keyspace.symm ▸ found, ?_, fun previous given => ?_⟩
          · obtain ⟨manifest, read, current⟩ := settled'.durable.head
            rw [keyspace] at read
            cases found.symm.trans read
            rw [current]
            exact settled'.durable.stored.describes
          · cases given
            exact ⟨m.current, rfl, published ▸ settled.durable.stored.describes⟩

/-- Every history is remembered by the store. -/
theorem History.remembers (history : History env name p m) : Remembers env name p m := by
  induction history with
  | @opened store p opens fresh =>
      have named := (withStore_cases opens).1
      have read : readHead env store p.keyspace = .ok Manifest.empty := by
        rw [readHead, KeyValueStore.get, fresh]
      have durable : Durable env store p.keyspace Checkpoint.empty (Image.zero pageSize 0) :=
        ⟨⟨_, read, rfl⟩, (readHead_addressable read).current, rfl, fun page inside => absurd inside (Nat.not_lt_zero page),
          fun page inside => absurd inside (Nat.not_lt_zero page)⟩
      have opened := opens.symm.trans (durable.withStore named)
      generalize keyspaceEq : p.keyspace = keyspace at *
      cases opened
      exact ⟨named, ⟨_, Provider.opened_settled durable⟩, _, read, durable.stored.describes,
        fun c given => absurd given.symm (Option.some_ne_none c)⟩
  | call _ call ih => exact ih.call call
  | @reopened p p' m _ opens ih =>
      obtain ⟨named, ⟨c, settled⟩, leads⟩ := ih
      have opened := settled.durable.withStore named
      cases opened.symm.trans opens
      exact ⟨named, ⟨c, Provider.opened_settled settled.durable⟩, leads⟩

/-- A flush that returns `Ok` makes the memory of the provider the current one. -/
theorem History.flush_completed (history : History env name p m) {fates : List Fate} (complete : (p.flush env fates).1 = .ok ()) :
    (m.after p (p.flush env fates).2).current = p.memory := by
  obtain ⟨_, ⟨c, settled⟩, _⟩ := history.remembers
  have flushed := settled.flush fates
  generalize p.flush env fates = result at flushed complete ⊢
  cases flushed with
  | kept same _ whole =>
      rw [Memories.after, if_pos same]
      exact (whole complete).symm
  | replaced other _ =>
      rw [Memories.after, if_neg other]

end Steps

/-! ## Opening -/

/-- The hash of each page of a memory tells it from other values that are answered for the page. -/
def Detects (env : Target) (getMany : Answers) (keyspace : String) (image : Image pageSize) : Prop :=
  ∀ keys found, getMany keys = .ok found → ∀ page < image.pages, ∀ slot value,
    (pageKeyText keyspace page slot, some value) ∈ found → value.length = pageSize →
      env.xxh3_64 value = env.xxh3_64 (image.page page) → value = image.page page

/-- Whatever calls come, those that change the memory are refused, and nothing changes. -/
structure ReadOnly (env : Target) (p : Provider) : Prop where
  keeps : ∀ calls : List Call, performAll env p calls = p
  refuses : ∀ (calls : List Call) (call : Call), call.Writes → (call.perform env (performAll env p calls)).1 =
    .error (.providerError "fallback checkpoint is read-only; reopen the provider before writing")

section Opening
variable {env : Target} {name : String} {p q : Provider} {m : Memories} {getMany : Answers} {damaged : KeyValueStore}

theorem Describes.loaded {c : Checkpoint} {keyspace : String} {image memory : Image pageSize}
    (describes : Describes env c image) (detects : Detects env getMany keyspace image) (addressable : env.Addressable c.pages)
    (loaded : loadMemory env getMany c keyspace = .ok memory) : memory = image := by
  obtain ⟨pages, answered⟩ := loadMemory_answered addressable loaded
  apply Image.ext_page (pages.trans describes.pages.symm)
  intro page inside
  rw [pages] at inside
  obtain ⟨whole, hashed, keys, found, asked, listed⟩ := answered page inside
  exact detects keys found asked page (describes.pages ▸ inside) (c.slot page) _ listed whole
    (hashed.trans (describes.hashes page inside).symm)

/-- A head whose current checkpoint does not load opens the previous one, frozen. -/
theorem withAnswers_previous {store : KeyValueStore} {keyspace : String} {current previous : Checkpoint}
    {memory : Image pageSize} {currentError : ProviderFailure} (named : keyspaceOf name = .ok keyspace)
    (found : readHead env store keyspace = .ok ⟨current, some previous⟩)
    (unloaded : loadMemory env getMany current keyspace = .error currentError) (filled : 0 < previous.pages)
    (loaded : loadMemory env getMany previous keyspace = .ok memory) :
    Provider.withAnswers env getMany store name = .ok (Provider.opened store keyspace memory previous true) := by
  have fallback : Provider.openPrevious env getMany store keyspace currentError (some previous) =
      .ok (Provider.opened store keyspace memory previous true) := by
    rw [Provider.openPrevious, if_pos filled, loaded]
  rw [Provider.withAnswers, named]
  apply bind_eq_ok.mpr ⟨_, rfl, bind_eq_ok.mpr ⟨_, found, ?_⟩⟩
  split
  · rename_i other
    cases other.symm.trans unloaded
  · rename_i error failed
    cases failed.symm.trans unloaded
    exact fallback

section Fallback
variable {store : KeyValueStore} {keyspace : String} {memory : Image pageSize} {c : Checkpoint}

theorem checkWritable_fallback : (Provider.opened store keyspace memory c true).checkWritable =
    .error (.providerError "fallback checkpoint is read-only; reopen the provider before writing") := rfl

/-- A provider of a previous checkpoint refuses every change. -/
theorem perform_fallback (call : Call) :
    (call.perform env (Provider.opened store keyspace memory c true)).2 = Provider.opened store keyspace memory c true ∧
      (call.Writes → (call.perform env (Provider.opened store keyspace memory c true)).1 =
        .error (.providerError "fallback checkpoint is read-only; reopen the provider before writing")) := by
  cases call with
  | grow newPages =>
      rw [Call.perform, Provider.grow, checkWritable_fallback]
      exact ⟨rfl, fun _ => rfl⟩
  | write offset buf =>
      rw [Call.perform, Provider.write, checkWritable_fallback]
      exact ⟨rfl, fun _ => rfl⟩
  | importSnapshot bytes =>
      rw [Call.perform, Provider.importSnapshot, checkWritable_fallback]
      exact ⟨rfl, fun _ => rfl⟩
  | flush fates =>
      refine ⟨?_, False.elim⟩
      rw [Call.perform]
      rcases prepared : (Provider.opened store keyspace memory c true).prepareFlush env with e | (_ | manifest)
      · rw [Provider.flush_error prepared]
      · rw [Provider.flush_none prepared]
      · obtain ⟨_, ⟨page, dirty⟩, _⟩ := Provider.prepareFlush_eq_some prepared
        have spared := (Provider.mem_dirtyPageNumbers.mp dirty).2
        rw [Provider.opened_dirty] at spared
        cases spared

theorem opened_readOnly : ReadOnly env (Provider.opened store keyspace memory c true) := by
  have keeps : ∀ calls : List Call, performAll env (Provider.opened store keyspace memory c true) calls =
      Provider.opened store keyspace memory c true := by
    intro calls
    induction calls with
    | nil => rfl
    | cons call calls ih =>
        rw [performAll, List.foldl_cons, (perform_fallback call).1]
        exact ih
  refine ⟨keeps, fun calls call writes => ?_⟩
  rw [keeps calls]
  exact (perform_fallback call).2 writes

end Fallback

/-- However the page values are damaged and however `get_many` answers, a database that opens
has the memory of the current checkpoint, or that of the previous one, which then is not empty and
cannot be changed. -/
theorem History.opens_after_damage (history : History env name p m)
    (head : damaged.values (headKey p.keyspace) = p.store.values (headKey p.keyspace))
    (current : Detects env getMany p.keyspace m.current)
    (previous : ∀ image, m.previous = some image → Detects env getMany p.keyspace image)
    (opens : Provider.withAnswers env getMany damaged name = .ok q) :
    (q.memory = m.current ∧ q.fallbackCheckpoint = false) ∨
      (m.previous = some q.memory ∧ 0 < q.memory.pages ∧ ReadOnly env q) := by
  obtain ⟨named, _, manifest, read, currentMade, previousMade⟩ := history.remembers
  rw [Provider.withAnswers, named] at opens
  obtain ⟨_, ⟨⟩, opens⟩ := bind_eq_ok.mp opens
  obtain ⟨found, given, opens⟩ := bind_eq_ok.mp opens
  rw [readHead_congr head] at given
  cases read.symm.trans given
  have addressable := readHead_addressable read
  split at opens
  · rename_i memory loaded
    cases opens
    exact .inl ⟨currentMade.loaded current addressable.current loaded, rfl⟩
  · rw [Provider.openPrevious.eq_def] at opens
    split at opens
    · cases opens
    · rename_i c older
      split at opens
      · rename_i filled
        split at opens
        · rename_i memory loaded
          cases opens
          obtain ⟨image, remembered, made⟩ := previousMade c older
          have same : memory = image := made.loaded (previous image remembered) (addressable.previous c older) loaded
          subst same
          exact .inr ⟨remembered, Nat.lt_of_lt_of_eq filled made.pages.symm, opened_readOnly⟩
        · cases opens
      · cases opens

end Opening
/-! ## A page of the current checkpoint is missing -/

section Done
variable {env : Target} {p : Provider} {c : Checkpoint}

theorem writeBatches_done {batches : List (List Nat)} (addressed : ∀ batch ∈ batches, ∀ page ∈ batch, page ≤ maxPages)
    (store : KeyValueStore) : p.writeBatches c batches store [] = (.ok (), store.putAll (p.entries c batches.flatten), []) := by
  induction batches generalizing store with
  | nil => rfl
  | cons batch batches ih =>
      obtain ⟨here, later⟩ := List.forall_mem_cons.mp addressed
      have sent : store.setMany (p.entries c batch) (([] : List Fate).headD .done) = (.ok (), store.putAll (p.entries c batch)) := rfl
      rw [Provider.writeBatches_cons_ok here sent, List.tail_nil, ih later, List.flatten_cons, Provider.entries,
        Provider.entries, Provider.entries, List.map_append, KeyValueStore.putAll, KeyValueStore.putAll, KeyValueStore.putAll,
        List.foldl_append]

/-- A flush completes when no call of the store fails. -/
theorem flush_done {manifest : Manifest} (prepared : p.prepareFlush env = .ok (some manifest)) :
    p.flush env [] = (.ok (), { p with
      store := (p.store.putAll (p.entries manifest.current (batchesOf p.dirtyPageNumbers).flatten)).put
        (headKey p.keyspace) manifest.encode
      published := manifest.current
      dirtyPages := List.replicate p.memory.pages false
      fallbackCheckpoint := false
      tracked := List.length_replicate }) := by
  obtain ⟨_, _, rfl, addressable⟩ := Provider.prepareFlush_eq_some prepared
  rw [Provider.flush_some prepared, Provider.writeCheckpoint_ok (writeBatches_done (Provider.batches_addressed addressable.current) _)]
  rfl

end Done

namespace MissingPage
open Restart

/-- The hash of a page of zeros. -/
def zeroHash : UInt64 := 3725042947095682218

theorem paired (n : Nat) : (List.replicate n (0 : UInt8)).length = (List.replicate n zeroHash).length := by
  rw [List.length_replicate, List.length_replicate]

theorem slots_le (n : Nat) : ∀ slot ∈ List.replicate n (0 : UInt8), slot ≤ 1 := by
  intro slot member
  rw [List.eq_of_mem_replicate member]
  decide

/-- `n` pages of zeros, each in its first slot. -/
def zeros (n : Nat) : Checkpoint := ⟨List.replicate n 0, List.replicate n zeroHash, paired n, slots_le n⟩

def provider (store : KeyValueStore) (n : Nat) : Provider :=
  Provider.opened store keyspace (Image.zero pageSize n) (zeros n) false

theorem grown_tracked (n : Nat) : (List.replicate n false ++ [true]).length = n + 1 := by
  rw [List.length_append, List.length_replicate, List.length_singleton]

def longer (store : KeyValueStore) (n : Nat) : Provider :=
  { provider store n with
    memory := Image.zero pageSize (n + 1)
    dirtyPages := List.replicate n false ++ [true]
    tracked := grown_tracked n }

/-- The store with one more page and a head that leads to it. -/
def extended (store : KeyValueStore) (n : Nat) : KeyValueStore :=
  (store.put (pageKeyText keyspace n 0) (List.replicate pageSize 0)).put (headKey keyspace)
    (Manifest.encode ⟨zeros (n + 1), some (zeros n)⟩)

theorem replaced_memory {p : Provider} {memory memory' : Image pageSize} {flags : List Bool} (same : memory = memory')
    (tracked : flags.length = memory.pages) (tracked' : flags.length = memory'.pages) :
    { p with memory := memory, dirtyPages := flags, tracked := tracked } =
      { p with memory := memory', dirtyPages := flags, tracked := tracked' } := by
  subst same
  rfl

section Stage
variable (store : KeyValueStore) {n : Nat}

theorem longer_dirty (page : Nat) : (longer store n).dirty page = decide (page = n) := by
  have flags : (longer store n).dirtyPages = List.replicate n false ++ [true] := rfl
  rw [Provider.dirty, flags, List.getD_eq_getElem?_getD, List.getElem?_append, List.length_replicate, List.getElem?_replicate]
  by_cases low : page < n
  · rw [if_pos low, if_pos low, decide_eq_false (Nat.ne_of_lt low)]
    rfl
  · rw [if_neg low]
    rcases Nat.eq_or_lt_of_le (Nat.le_of_not_lt low) with rfl | high
    · rw [Nat.sub_self, decide_eq_true rfl]
      rfl
    · rw [decide_eq_false (Nat.ne_of_gt high), List.getElem?_eq_none (by rw [List.length_singleton]; omega)]
      rfl

theorem longer_dirtyPageNumbers : (longer store n).dirtyPageNumbers = [n] := by
  have size : (longer store n).dirtyPages.length = n + 1 := grown_tracked n
  have clean : (List.range n).filter (longer store n).dirty = [] := by
    rw [List.filter_eq_nil_iff]
    intro page inside
    rw [longer_dirty, decide_eq_true_eq]
    exact Nat.ne_of_lt (List.mem_range.mp inside)
  rw [Provider.dirtyPageNumbers, size, List.range_succ, List.filter_append, clean, List.nil_append,
    List.filter_cons_of_pos (by rw [longer_dirty, decide_eq_true rfl]), List.filter_nil]

theorem zeros_slot (n page : Nat) : (zeros n).slot page = 0 := by
  have slots : (zeros n).slots = List.replicate n 0 := rfl
  rw [Checkpoint.slot, slots, List.getD_eq_getElem?_getD, List.getElem?_replicate]
  split <;> rfl

theorem zeros_hash {page : Nat} (inside : page < n) : (zeros n).hash page = zeroHash := by
  have hashes : (zeros n).hashes = List.replicate n zeroHash := rfl
  rw [Checkpoint.hash, hashes, List.getD_eq_getElem?_getD, List.getElem?_replicate, if_pos inside]
  rfl

theorem longer_candidate : (longer store n).candidate env = zeros (n + 1) := by
  have pages : (longer store n).memory.pages = n + 1 := rfl
  have published : (longer store n).published = zeros n := rfl
  apply Checkpoint.ext
  · refine List.eq_replicate_iff.mpr ⟨by rw [Provider.candidate, List.length_map, List.length_range, pages], fun slot member => ?_⟩
    obtain ⟨page, _, rfl⟩ := List.mem_map.mp member
    rw [Provider.candidateSlot, longer_dirty, published, zeros_slot]
    by_cases last : page = n
    · have none_ : ¬ page < (zeros n).slots.length := by
        have slots : (zeros n).slots = List.replicate n 0 := rfl
        rw [slots, List.length_replicate]
        omega
      rw [decide_eq_true last, if_pos rfl, if_neg none_]
    · rw [decide_eq_false last]
      rfl
  · refine List.eq_replicate_iff.mpr ⟨by rw [Provider.candidate, List.length_map, List.length_range, pages], fun hash member => ?_⟩
    obtain ⟨page, inside, rfl⟩ := List.mem_map.mp member
    rw [Provider.candidateHash, longer_dirty, published]
    by_cases last : page = n
    · rw [decide_eq_true last, if_pos rfl]
      rfl
    · rw [decide_eq_false last]
      have low : page < n := by
        rw [pages, List.mem_range] at inside
        omega
      exact zeros_hash low

variable (addressable : env.Addressable (n + 1))

include addressable in
theorem provider_grow : ((Call.grow 1).perform env (provider store n)).2 = longer store n := by
  have pages : (provider store n).memory.pages = n := rfl
  have grown : (provider store n).grow env 1 = .ok ((provider store n).size, longer store n) := by
    have bound := addressable.1
    rw [maxPages] at bound
    rw [Provider.grow]
    apply bind_eq_ok.mpr ⟨(), rfl, ?_⟩
    rw [pages, if_neg (by omega), validatePageCount_eq_ok.mpr addressable]
    exact congrArg (fun p => Except.ok ((provider store n).size, p)) (replaced_memory (Image.zero_grow n 1) _ (grown_tracked n))
  rw [Call.perform, grown]
  rfl

include addressable in
theorem zeros_addressable : Manifest.Addressable env ⟨zeros (n + 1), some (zeros n)⟩ := by
  have pages : ∀ k, (zeros k).pages = k := fun k => List.length_replicate
  refine ⟨by rw [pages]; exact addressable, fun c previous => ?_⟩
  cases previous
  rw [pages]
  exact ⟨Nat.le_of_succ_le addressable.1, Nat.le_trans (Nat.mul_le_mul_right _ (Nat.le_succ n)) addressable.2⟩

include addressable in
theorem longer_flush : ((Call.flush []).perform env (longer store n)).2 = provider (extended store n) (n + 1) := by
  have prepared : (longer store n).prepareFlush env = .ok (some ⟨zeros (n + 1), some (zeros n)⟩) := by
    rw [Provider.prepareFlush, longer_candidate, longer_dirtyPageNumbers]
    apply bind_eq_ok.mpr ⟨(), rfl, ?_⟩
    rw [if_neg (by simp)]
    exact bind_eq_ok.mpr ⟨(), rfl, bind_eq_ok.mpr ⟨_, Manifest.new_eq_ok.mpr ⟨rfl, zeros_addressable addressable⟩, rfl⟩⟩
  have entries : (longer store n).entries (zeros (n + 1)) (batchesOf [n]).flatten =
      [(pageKeyText keyspace n 0, List.replicate pageSize 0)] := by
    have key : (zeros (n + 1)).key (longer store n).keyspace n = pageKeyText keyspace n 0 := by
      rw [Checkpoint.key, zeros_slot]
      rfl
    have value : (longer store n).memory.page n = List.replicate pageSize 0 := Image.page_zero (Nat.lt_succ_self n)
    have one : (batchesOf [n]).flatten = [n] := by simp [batchesOf, maxBatchPages]
    rw [one, Provider.entries, List.map_singleton, key, value]
  rw [Call.perform, flush_done prepared, longer_dirtyPageNumbers]
  dsimp only
  rw [entries]
  rfl

end Stage

def stored : KeyValueStore := extended (extended emptyStore 0) 1

/-- The store without the second page. -/
def damaged : KeyValueStore := { stored with values := Function.update stored.values (pageKeyText keyspace 1 0) none }

theorem addressable {n : Nat} (low : n ≤ 2) : env.Addressable n := by
  refine ⟨Nat.le_trans low (by decide), Nat.le_trans (Nat.mul_le_mul_right _ low) ?_⟩
  rw [pageSize_eq]
  decide

theorem damaged_values : damaged.values = Function.update stored.values (pageKeyText keyspace 1 0) none := rfl

theorem damaged_head : damaged.values (headKey keyspace) = stored.values (headKey keyspace) := by
  rw [damaged_values, Function.update_of_ne pageKeyText_ne_headKey.symm]

theorem damaged_read : readHead env damaged keyspace = .ok ⟨zeros 2, some (zeros 1)⟩ := by
  rw [readHead_congr damaged_head, readHead, KeyValueStore.get, stored, extended, KeyValueStore.put_values, Function.update_self]
  exact Manifest.decode_encode (zeros_addressable (addressable (Nat.le_refl 2)))

/-- What the store answers for a page is a page of zeros. -/
theorem damaged_page {page : Nat} {slot : UInt8} {value : List UInt8}
    (held : damaged.values (pageKeyText keyspace page slot) = some value) : value = List.replicate pageSize 0 := by
  rw [damaged_values, Function.update_apply] at held
  split at held
  · cases held
  · rw [stored, extended, KeyValueStore.put_values, Function.update_of_ne pageKeyText_ne_headKey, KeyValueStore.put_values,
      Function.update_apply] at held
    split at held
    · exact (Option.some.inj held).symm
    · rw [extended, KeyValueStore.put_values, Function.update_of_ne pageKeyText_ne_headKey, KeyValueStore.put_values,
        Function.update_apply] at held
      split at held
      · exact (Option.some.inj held).symm
      · cases held

theorem first_held : damaged.values (pageKeyText keyspace 0 0) = some (List.replicate pageSize 0) := by
  have other : pageKeyText keyspace 0 0 ≠ pageKeyText keyspace 1 0 := fun same =>
    absurd (pageKeyText_injective same).1 (by decide)
  rw [damaged_values, Function.update_of_ne other, stored, extended, KeyValueStore.put_values,
    Function.update_of_ne pageKeyText_ne_headKey, KeyValueStore.put_values, Function.update_of_ne other, extended,
    KeyValueStore.put_values, Function.update_of_ne pageKeyText_ne_headKey, KeyValueStore.put_values, Function.update_self]

theorem zeros_pages (n : Nat) : (zeros n).pages = n := List.length_replicate

theorem first_stored : Stored env damaged keyspace (zeros 1) (Image.zero pageSize 1) := by
  have only : ∀ page < (zeros 1).pages, page = 0 := fun page inside => Nat.lt_one_iff.mp (zeros_pages 1 ▸ inside)
  refine ⟨(zeros_pages 1).symm, fun page inside => ?_, fun page inside => ?_⟩
  · rw [only page inside, Checkpoint.key, zeros_slot, Image.page_zero Nat.one_pos]
    exact first_held
  · rw [only page inside, zeros_hash Nat.one_pos]
    rfl

theorem opens : Provider.withAnswers env damaged.answers damaged "db" =
    .ok (Provider.opened damaged keyspace (Image.zero pageSize 1) (zeros 1) true) := by
  have filled : 0 < (zeros 1).pages := by
    rw [zeros_pages]
    exact Nat.one_pos
  have previous := loadMemory_stored first_stored (zeros_pages 1 ▸ addressable (Nat.le_succ 1))
  cases loaded : loadMemory env damaged.answers (zeros 2) keyspace with
  | ok memory =>
      have held := (stored_of_loadMemory (zeros_pages 2 ▸ addressable (Nat.le_refl 2)) loaded).values 1
        (zeros_pages 2 ▸ Nat.one_lt_two)
      rw [Checkpoint.key, zeros_slot, damaged_values, Function.update_self] at held
      cases held
  | error e => exact withAnswers_previous (by decide) damaged_read loaded filled previous

/-- A memory of zeros. -/
def Blank (image : Image pageSize) : Prop := ∃ n, image = Image.zero pageSize n

theorem Blank.detects {image : Image pageSize} (blank : Blank image) : Detects env damaged.answers keyspace image := by
  obtain ⟨n, rfl⟩ := blank
  intro keys found asked page inside slot value listed _ _
  cases asked
  obtain ⟨key, _, same⟩ := List.mem_map.mp listed
  obtain ⟨rfl, held⟩ := Prod.mk.inj same
  exact (damaged_page held).trans (Image.page_zero (n := n) inside).symm

theorem blank_after {m : Memories} {p p' : Provider} (memory : Blank p.memory)
    (blank : Blank m.current ∧ ∀ image, m.previous = some image → Blank image) :
    Blank (m.after p p').current ∧ ∀ image, (m.after p p').previous = some image → Blank image := by
  rw [Memories.after]
  split
  · exact blank
  · exact ⟨memory, fun image given => Option.some.inj given ▸ blank.1⟩

theorem history : ∃ m, History env "db" (provider stored 2) m ∧
    Blank m.current ∧ ∀ image, m.previous = some image → Blank image := by
  have start_ : History env "db" (provider emptyStore 0) ⟨(provider emptyStore 0).memory, none⟩ :=
    .opened (start_durable.withStore (by decide)) rfl
  have stage : ∀ (store : KeyValueStore) (n : Nat) (m : Memories), n + 1 ≤ 2 → History env "db" (provider store n) m →
      (Blank m.current ∧ ∀ image, m.previous = some image → Blank image) → ∃ m', History env "db" (provider (extended store n) (n + 1)) m' ∧
        Blank m'.current ∧ ∀ image, m'.previous = some image → Blank image := by
    intro store n m low run blank
    have grown := run.call (.grow 1)
    rw [provider_grow store (addressable low)] at grown
    have flushed := grown.call (.flush [])
    rw [longer_flush store (addressable low)] at flushed
    exact ⟨_, flushed, blank_after ⟨n + 1, rfl⟩ (blank_after ⟨n, rfl⟩ blank)⟩
  obtain ⟨m, run, blank⟩ := stage emptyStore 0 _ (by decide) start_
    ⟨⟨0, rfl⟩, fun image given => absurd given.symm (Option.some_ne_none image)⟩
  exact stage _ 1 m (by decide) run blank

/-- The database opens with its first page, and cannot be changed. -/
theorem first_page_readOnly : ∃ q, Provider.withAnswers env damaged.answers damaged "db" = .ok q ∧ q.memory = Image.zero pageSize 1 ∧
    ReadOnly env q := by
  obtain ⟨m, run, current, previous⟩ := history
  refine ⟨_, opens, rfl, ?_⟩
  have cases_ := run.opens_after_damage damaged_head current.detects (fun image given => (previous image given).detects) opens
  rcases cases_ with ⟨_, absurd_⟩ | ⟨_, _, readOnly⟩
  · cases absurd_
  · exact readOnly

end MissingPage
end WasmDbms.KeyValue
