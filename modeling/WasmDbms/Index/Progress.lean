import Mathlib.Data.List.Lex
import WasmDbms.Index.Runs

/-!
# When an insertion returns

A climb along the path succeeds exactly as far as the keys rise, and with pages
to claim nothing else of an insertion can fail.
-/
namespace WasmDbms
open Bisect ByteString MemoryManager

variable {K : Type} [Key K]

/-- The key fits a separator entry on its own. -/
def Light (key : K) : Prop := internalHeaderSize + (2 + (Encode.encode key).length + 4) ≤ pageSize

theorem NodeBody.Narrow.light {body : NodeBody K} (narrow : body.Narrow) {key : K} (member : key ∈ body.keys) :
    Light key := by
  have bound := narrow key member
  unfold Light
  cases body with
  | internal body => exact bound
  | leaf body =>
      simp only [headerSize, keySize, tailSize, leafHeaderSize, recordPointerSize] at bound
      unfold internalHeaderSize
      omega

omit [Key K] in
/-- What rises with a promotion. -/
def Promotion.risen (promotion : Promotion K) : K × Nat := (promotion.key, promotion.leftPage)

/-- A split gives the key at the cut, and leaves a half that fits. -/
theorem splitNode_rises {m m' : MemoryManager} {n n' : BTreeNode K} {p : Promotion K}
    (large : pageSize < n.body.used) (run : m.Runs (IndexTree.splitNode n) (n', p) m') :
    n.body.Narrow ∧ risingKey n.body n.body.keys = some (some p.key) ∧ p.key ∈ n.body.keys ∧
      p.leftPage = n.page ∧ n'.body.Fits := by
  rw [NodeBody.used_eq] at large
  cases kind : n.body with
  | leaf body =>
      rw [kind] at large
      simp only [IndexTree.splitNode, kind, runs_bind, runs_lift] at run
      obtain ⟨index, _, ⟨split, rfl⟩, rest⟩ := run
      obtain ⟨narrow, cut⟩ := splitIndex_iff.mp split
      obtain ⟨leftFits, _, first, head, found⟩ := leaf_halves cut
      simp only [head, runs_bind, runs_pure] at rest
      obtain ⟨_, _, _, _, _, _, _, _, _, result, _⟩ := rest
      cases result
      have key : (NodeBody.leaf body).keys[index]? = some first.key := by
        rw [NodeBody.keys, List.getElem?_map, found]
        rfl
      refine ⟨narrow, ?_, List.mem_of_getElem? key, rfl, leftFits _ _⟩
      unfold risingKey
      dsimp only
      rw [if_neg (Nat.not_le.mpr large)]
      change Option.map _ (byteBalancedSplitIndex _ _ false) = _
      rw [cut, Option.map_some, key]
  | internal body =>
      rw [kind] at large
      simp only [IndexTree.splitNode, kind, runs_bind, runs_lift] at run
      obtain ⟨index, _, ⟨split, rfl⟩, rest⟩ := run
      obtain ⟨narrow, cut⟩ := splitIndex_iff.mp split
      obtain ⟨leftFits, _, median, found⟩ := internal_halves cut
      simp only [found, runs_bind, runs_pure] at rest
      obtain ⟨_, _, _, _, _, _, result, _⟩ := rest
      cases result
      have key : (NodeBody.internal body).keys[index]? = some median.key := by
        rw [NodeBody.keys, List.getElem?_map, found]
        rfl
      refine ⟨narrow, ?_, List.mem_of_getElem? key, rfl, leftFits _⟩
      unfold risingKey
      dsimp only
      rw [if_neg (Nat.not_le.mpr large)]
      change Option.map _ (byteBalancedSplitIndex _ _ true) = _
      rw [cut, Option.map_some, key]

/-- A round of the climb, as far as the keys decide it. -/
theorem Round.rises {m m' : MemoryManager} {n n' : BTreeNode K} {promotion : Option (Promotion K)}
    (round : Round m n n' promotion m') :
    risingKey n.body n.body.keys = some (promotion.map Promotion.key) ∧ n'.body.Fits ∧
      ∀ p, promotion = some p → p.leftPage = n.page ∧ Light p.key := by
  rcases round with ⟨checked, rfl, rfl, rfl⟩ | ⟨checked, p, rfl, halved⟩
  · obtain ⟨_, small⟩ := wouldOverflow_iff.mp checked
    have fits : n'.body.Fits := Nat.le_of_not_lt (of_decide_eq_false small.symm)
    refine ⟨?_, fits, nofun⟩
    unfold NodeBody.Fits at fits
    rw [NodeBody.used_eq] at fits
    exact if_pos fits
  · obtain ⟨_, large⟩ := wouldOverflow_iff.mp checked
    obtain ⟨narrow, rises, member, left, fits⟩ := splitNode_rises (of_decide_eq_true large.symm) halved
    refine ⟨rises, fits, ?_⟩
    intro q same
    cases same
    exact ⟨left, narrow.light member⟩

/-- What a node has absorbed. -/
theorem absorb_keys {n n₁ : BTreeNode K} {promotion : Option (Promotion K)}
    (absorbed : IndexTree.absorb n promotion = .ok n₁) :
    n₁.page = n.page ∧ n₁.body.keys = keysWith n.body (promotion.map Promotion.risen) ∧
      risingKey n₁.body = risingKey n.body := by
  cases promotion with
  | none =>
      cases absorbed
      exact ⟨rfl, rfl, rfl⟩
  | some p =>
      simp only [IndexTree.absorb, IndexTree.promoteIntoInternal] at absorbed
      cases kind : n.body with
      | leaf body => simp [kind] at absorbed
      | internal body =>
          simp only [kind] at absorbed
          cases promoted : IndexTree.promoteEntries body p with
          | error e => simp [promoted] at absorbed
          | ok body₁ =>
              simp only [promoted] at absorbed
              cases absorbed
              refine ⟨rfl, ?_, rfl⟩
              change body₁.entries.map InternalEntry.key = if body.rightmostChild = p.leftPage then _ else _
              unfold IndexTree.promoteEntries at promoted
              dsimp only at promoted
              split at promoted
              · rename_i last
                cases promoted
                rw [if_pos last, List.map_append]
                rfl
              · rename_i inner
                rw [if_neg inner]
                split at promoted
                · rename_i position found
                  cases promoted
                  obtain ⟨_, rfl⟩ := List.findIdx?_eq_some_iff_findIdx_eq.mp found
                  have modified : ∀ (l : List (InternalEntry K)) (i : Nat),
                      (l.modify i fun entry => ⟨entry.key, p.rightPage⟩).map InternalEntry.key =
                        l.map InternalEntry.key := by
                    intro l i
                    induction l generalizing i with
                    | nil => simp
                    | cons e l ih => cases i <;> simp [ih]
                  rw [modified, List.map_insertIdx]
                  rfl
                · cases promoted

/-- What a climb that returns makes of its path: the keys that rise, and nodes that fit. -/
theorem climb_rises {m m' : MemoryManager} {promotion left : Option (Promotion K)} {nodes out : List (BTreeNode K)}
    (light : ∀ p, promotion = some p → Light p.key)
    (run : m.Runs (IndexTree.climb promotion nodes) (out, left) m') :
    rise (promotion.map Promotion.risen) nodes = some (left.map Promotion.risen) ∧
      (∀ n ∈ out, n.body.Fits) ∧ ∀ p, left = some p → Light p.key := by
  induction nodes generalizing m promotion out with
  | nil =>
      obtain ⟨result, _⟩ := runs_pure.mp run
      cases result
      exact ⟨rfl, by simp, light⟩
  | cons n nodes ih =>
      obtain ⟨n₁, n₂, mid, m₁, rest, absorbed, round, climbed, rfl⟩ := climb_cons.mp run
      obtain ⟨page, keys, same⟩ := absorb_keys absorbed
      obtain ⟨rises, fits, promoted⟩ := round.rises
      obtain ⟨rest', fits', light'⟩ := ih (fun p found => (promoted p found).2) climbed
      refine ⟨?_, List.forall_mem_cons.mpr ⟨fits, fits'⟩, light'⟩
      rw [keys, same] at rises
      rw [rise, rises, ← rest']
      cases mid with
      | none => rfl
      | some p =>
          have left := (promoted p rfl).1
          rw [page] at left
          simp only [Option.map_some, Promotion.risen, left]

/-- The memory can grow by so many pages. -/
def MemoryManager.Room (m : MemoryManager) (n : Nat) : Prop := m.pages + n ≤ m.capacity

theorem MemoryManager.Room.of_runs {α : Type} {m m' : MemoryManager} {p : Prog α} {r : α} {n : Nat} (room : m.Room n)
    (run : m.Runs p r m') (pages : m'.pages = m.pages) : m'.Room n := by
  unfold Room at *
  rw [run.capacity, pages]
  exact room

theorem PageSupply.claimPage_room {m : MemoryManager} {owned : Nat → Prop} {n : Nat} (supply : PageSupply m owned)
    (room : m.Room (n + 1)) : ∃ page m', m.Runs MemoryAccess.claimPage page m' ∧ m'.Room n := by
  unfold Room at *
  obtain ⟨page, m', claimed, pages⟩ := supply.claimPage_available (by omega)
  refine ⟨page, m', claimed, ?_⟩
  rw [claimed.capacity]
  omega

theorem flush_pages {m m' : MemoryManager} {node r : BTreeNode K} (run : m.Runs node.flush r m') :
    m'.pages = m.pages := by
  unfold BTreeNode.flush at run
  split at run
  · obtain ⟨_, rfl⟩ := runs_pure.mp run
    rfl
  · simp only [runs_bind, runs_lift, runs_writeAtRaw, runs_pure] at run
    obtain ⟨_, _, ⟨_, rfl⟩, _, _, ⟨_, _, rfl⟩, _, rfl⟩ := run
    rfl

section Split

variable {other : Nat → Prop} {m : MemoryManager} {nodes : Nodes K} {height k : Nat}
  {before after : Level K} {upper : WithTop K} {waiting : List (BTreeNode K)}

theorem relinkNext_available {next : Option Nat} (right : Nat)
    (held : ∀ x, next = some x → ∃ b, Holds m x (.leaf b : NodeBody K)) :
    ∃ m', m.Runs (IndexTree.relinkNext (K := K) next right) () m' ∧ m'.pages = m.pages := by
  cases next with
  | none => exact ⟨m, runs_pure.mpr ⟨rfl, rfl⟩, rfl⟩
  | some x =>
      obtain ⟨b, holds⟩ := held x rfl
      obtain ⟨header, counted, read⟩ := holds.read_runs
      have count : BTreeNode.Counted (⟨x, header, .leaf { b with prevLeaf := some right }, true⟩ : BTreeNode K) :=
        counted
      have fits : (NodeBody.leaf { b with prevLeaf := some right }).Fits := holds.fits
      obtain ⟨r, m', flushed⟩ := flush_runs count fits holds.allocated
      exact ⟨m', runs_bind.mpr ⟨_, m, read, runs_bind.mpr ⟨r, m', flushed, runs_pure.mpr ⟨rfl, rfl⟩⟩⟩,
        flush_pages flushed⟩

/-- A right half with few entries is flushed to its page. -/
theorem half_flushed {page : Nat} {parent : Option Nat} {body : NodeBody K} (fits : body.Fits)
    (alloc : page < m.pages) :
    ∃ r m', m.Runs (BTreeNode.flush ⟨page, ⟨parent, body.items.length % 65536⟩, body, true⟩) r m' := by
  refine flush_runs ?_ fits alloc
  have short := fits.length_lt
  exact Nat.mod_eq_of_lt (by omega)

/-- A leaf with a cut is split when a page can be claimed. -/
theorem Settled.split_leaf_available {n : BTreeNode K} {body : LeafNodeBody K}
    (settled : Settled other m nodes 0 (before ++ (n.page, upper) :: after) [n]) (kind : n.body = .leaf body)
    {index : Nat} (split : IndexTree.splitIndex n.body false = .ok index) (room : m.Room (k + 1)) :
    ∃ n' p m', m.Runs (IndexTree.splitNode n) (n', p) m' ∧ m'.Room k := by
  rw [kind] at split
  obtain ⟨_, rightFits, first, head, _⟩ := leaf_halves (splitIndex_iff.mp split).2
  obtain ⟨right, m₁, claimed, room₁⟩ := settled.supply.claimPage_room room
  have claim := settled.supply.claimPage_runs claimed
  have held : ∀ x, body.nextLeaf = some x → ∃ b, Holds m₁ x (.leaf b : NodeBody K) := by
    intro x behind
    obtain ⟨listed, _, b, _, holds⟩ := settled.neighbour kind behind
    have allocated := settled.supply.owned_allocated x (.inl listed)
    exact ⟨b, holds.of_same claim.pages_le (claim.same x allocated.1 allocated.2)⟩
  obtain ⟨m₂, relinked, pages₂⟩ := relinkNext_available right held
  have alloc : right < m₂.pages := by
    rw [pages₂]
    exact (claim.supply.owned_allocated right (.inl rfl)).1
  obtain ⟨r, m₃, flushed⟩ := half_flushed (rightFits (some n.page) body.nextLeaf) alloc
  rw [NodeBody.items, List.length_map] at flushed
  refine ⟨⟨n.page, ⟨n.header.parentPage, (body.entries.take index).length % 65536⟩,
    .leaf ⟨body.entries.take index, body.prevLeaf, some right⟩, true⟩, ⟨first.key, n.page, right⟩, m₃, ?_,
    (room₁.of_runs relinked pages₂).of_runs flushed (flush_pages flushed)⟩
  simp only [IndexTree.splitNode, kind, runs_bind, runs_lift]
  refine ⟨index, m, ⟨split, rfl⟩, ?_⟩
  simp only [head, runs_bind, runs_pure]
  exact ⟨right, m₁, claimed, (), m₂, relinked, r, m₃, flushed, rfl, rfl⟩

/-- An internal node with a cut is split when a page can be claimed. -/
theorem Settled.split_internal_available {n : BTreeNode K} {body : InternalNodeBody K}
    (settled : Settled other m nodes (height + 1) (before ++ (n.page, upper) :: after) (waiting ++ [n]))
    (kind : n.body = .internal body) {index : Nat} (split : IndexTree.splitIndex n.body true = .ok index)
    (room : m.Room (k + 1)) : ∃ n' p m', m.Runs (IndexTree.splitNode n) (n', p) m' ∧ m'.Room k := by
  rw [kind] at split
  obtain ⟨_, rightFits, median, found⟩ := internal_halves (splitIndex_iff.mp split).2
  obtain ⟨right, m₁, claimed, room₁⟩ := settled.supply.claimPage_room room
  have claim := settled.supply.claimPage_runs claimed
  have alloc := (claim.supply.owned_allocated right (.inl rfl)).1
  obtain ⟨r, m₂, flushed⟩ := half_flushed (rightFits body.rightmostChild) alloc
  rw [NodeBody.items, List.length_map] at flushed
  refine ⟨⟨n.page, ⟨n.header.parentPage, (body.entries.take index).length % 65536⟩,
    .internal ⟨body.entries.take index, median.childPage⟩, true⟩, ⟨median.key, n.page, right⟩, m₂, ?_,
    room₁.of_runs flushed (flush_pages flushed)⟩
  simp only [IndexTree.splitNode, kind, runs_bind, runs_lift]
  refine ⟨index, m, ⟨split, rfl⟩, ?_⟩
  simp only [found, runs_bind, runs_pure]
  exact ⟨right, m₁, claimed, r, m₂, flushed, rfl, rfl⟩

/-- A node whose keys go on rising goes through its round. -/
theorem Settled.round_available {n : BTreeNode K} {risen : Option K}
    (settled : Settled other m nodes height (before ++ (n.page, upper) :: after) (waiting ++ [n]))
    (bottom : height = 0 → waiting = []) (narrow : n.body.Narrow)
    (rises : risingKey n.body n.body.keys = some risen) (room : m.Room (k + 1)) :
    ∃ n' promotion m', Round m n n' promotion m' ∧ m'.Room k := by
  by_cases fits : n.body.used ≤ pageSize
  · have checked := wouldOverflow_iff.mpr ⟨narrow, (decide_eq_false (Nat.not_lt.mpr fits)).symm⟩
    refine ⟨n, none, m, .inl ⟨checked, rfl, rfl, rfl⟩, ?_⟩
    unfold Room at *
    omega
  · have checked := wouldOverflow_iff.mpr ⟨narrow, (decide_eq_true (Nat.lt_of_not_le fits)).symm⟩
    rw [NodeBody.used_eq] at fits
    unfold risingKey at rises
    dsimp only at rises
    rw [if_neg fits] at rises
    obtain ⟨index, cut, _⟩ := Option.map_eq_some_iff.mp rises
    have split := splitIndex_iff.mpr ⟨narrow, cut⟩
    have node := (settled.overlay.loaded n (by simp)).2.1
    suffices halved : ∃ n' p m', m.Runs (IndexTree.splitNode n) (n', p) m' ∧ m'.Room k by
      obtain ⟨n', p, m', halved, room'⟩ := halved
      exact ⟨n', some p, m', .inr ⟨checked, p, rfl, halved⟩, room'⟩
    cases height with
    | zero =>
        obtain rfl := bottom rfl
        obtain ⟨body, leaf⟩ := settled.forest.graded (n.page, upper) (by simp)
        have kind : n.body = .leaf body := node.trans leaf
        have mode : n.body.isInternal = false := by rw [kind]; rfl
        rw [mode] at split
        exact settled.split_leaf_available kind split room
    | succ height =>
        obtain ⟨body, internal⟩ := settled.forest.graded.1 (n.page, upper) (by simp)
        have kind : n.body = .internal body := node.trans internal
        have mode : n.body.isInternal = true := by rw [kind]; rfl
        rw [mode] at split
        exact settled.split_internal_available kind split room

end Split

section Path

variable {other : Nat → Prop} {m m' : MemoryManager} {nodes : Nodes K} {height k : Nat}
  {before after : Level K} {page : Nat} {upper : WithTop K} {key : K} {pointer : RecordAddress}

/-- The nodes down to a leaf are read. -/
theorem Settled.readPath_runs {fuel : Nat} (settled : Settled other m nodes height (before ++ (page, upper) :: after) [])
    (routed : Routed key before upper) (deep : height < fuel) :
    ∃ path, m.Runs (IndexTree.readPath key fuel page) path m := by
  induction height generalizing other before page after upper fuel with
  | zero =>
      obtain ⟨fuel, rfl⟩ : ∃ n, fuel = n + 1 := ⟨fuel - 1, by omega⟩
      obtain ⟨body, node⟩ := settled.forest.graded (page, upper) (by simp)
      obtain ⟨header, _, read⟩ := (settled.overlay.disk page (by simp [nodePages]) (by simp)).read_runs
      rw [node] at read
      exact ⟨_, runs_bind.mpr ⟨_, m, read, runs_pure.mpr ⟨rfl, rfl⟩⟩⟩
  | succ height ih =>
      obtain ⟨fuel, rfl⟩ : ∃ n, fuel = n + 1 := ⟨fuel - 1, by omega⟩
      obtain ⟨body, node⟩ := settled.forest.graded.1 (page, upper) (by simp)
      have listed : page ∈ nodePages nodes (height + 1) (before ++ (page, upper) :: after) :=
        mem_nodePages nodes (height + 1) (x := (page, upper)) (by simp)
      obtain ⟨header, _, read⟩ := (settled.overlay.disk page listed (by simp)).read_runs
      rw [node] at read
      obtain ⟨left, sep, rest, _, _, _, routed', lower⟩ := settled.descend routed node
      obtain ⟨path, found⟩ := ih lower routed' (Nat.lt_of_succ_lt_succ deep)
      exact ⟨_, runs_bind.mpr ⟨_, m, read, runs_bind.mpr ⟨path, m, found, runs_pure.mpr ⟨rfl, rfl⟩⟩⟩⟩

omit [Key K] in
theorem keysWith_mem {body : NodeBody K} {risen : Option (K × Nat)} {key : K} (member : key ∈ keysWith body risen) :
    key ∈ body.keys ∨ ∃ page, risen = some (key, page) := by
  cases risen with
  | none => exact .inl member
  | some pair =>
      obtain ⟨new, child⟩ := pair
      cases body with
      | leaf body => exact .inl member
      | internal body =>
          change key ∈ if body.rightmostChild = child then _ else _ at member
          split at member
          · rcases List.mem_append.mp member with old | only
            · exact .inl old
            · obtain rfl := List.mem_singleton.mp only
              exact .inr ⟨child, rfl⟩
          · rcases List.eq_or_mem_of_mem_insertIdx member with rfl | old
            · exact .inr ⟨child, rfl⟩
            · exact .inl old

omit [Key K] in
/-- The node above a split has a place for what rises. -/
theorem absorb_available {n : BTreeNode K} {body : InternalNodeBody K} {left rest pre post level' : Level K}
    {child : Nat} {sep : WithTop K} {mid : Option (Promotion K)} (kind : n.body = .internal body)
    (order : body.fan upper = left ++ (child, sep) :: rest) (distinct : ((body.fan upper).map Prod.fst).Nodup)
    (outcome : Outcome pre post child sep mid level') : ∃ n₁, IndexTree.absorb n mid = .ok n₁ := by
  cases outcome with
  | whole => exact ⟨n, rfl⟩
  | split key right =>
      obtain ⟨body₁, promoted, _, _⟩ := fan_promote key right order distinct
      exact ⟨_, by simp only [IndexTree.absorb, IndexTree.promoteIntoInternal, kind, promoted]; rfl⟩

/-- A leaf takes in a key that fits a page on its own. -/
theorem insertIntoLeaf_narrow {n : BTreeNode K} {body : LeafNodeBody K} (kind : n.body = .leaf body)
    (sorted : body.entries.Pairwise EntryLe) (narrow : n.body.Narrow)
    (small : leafHeaderSize + (2 + (Encode.encode key).length + recordPointerSize) ≤ pageSize) :
    (IndexTree.insertIntoLeaf n key pointer).body.Narrow := by
  rw [kind] at narrow
  rw [insertIntoLeaf_eq kind]
  intro k member
  obtain ⟨e, inNew, rfl⟩ := List.mem_map.mp member
  rcases List.mem_cons.mp ((withEntry_spec key pointer sorted).2.mem_iff.mp inNew) with rfl | old
  · exact small
  · exact narrow e.key (List.mem_map_of_mem old)

/-- The climb along the path of a key returns when the keys rise to its end. -/
theorem Settled.climb_available {fuel : Nat} {path : List (BTreeNode K)} {risen : Option (K × Nat)}
    (settled : Settled other m nodes height (before ++ (page, upper) :: after) [])
    (routed : Routed key before upper) (range : pointer.InRange)
    (read : m.Runs (IndexTree.readPath key fuel page) path m')
    (small : leafHeaderSize + (2 + (Encode.encode key).length + recordPointerSize) ≤ pageSize)
    (rises : rise none (path.reverse.modifyHead fun leaf => IndexTree.insertIntoLeaf leaf key pointer) = some risen)
    (room : m.Room (k + path.length)) : ∃ out promotion m₁, m.Runs (IndexTree.climb none
      (path.reverse.modifyHead fun leaf => IndexTree.insertIntoLeaf leaf key pointer)) (out, promotion) m₁ ∧
        m₁.Room k := by
  -- the induction follows `climb_path`, which settles the level below before this node's round
  induction height generalizing other before page after upper fuel path risen k m' with
  | zero =>
      obtain ⟨body, node⟩ := settled.forest.graded (page, upper) (by simp)
      have held := settled.overlay.disk page (by simp [nodePages]) (by simp)
      cases fuel with
      | zero => simp [IndexTree.readPath] at read
      | succ fuel =>
          simp only [IndexTree.readPath, runs_bind] at read
          obtain ⟨n, _, found, rest⟩ := read
          obtain ⟨rfl, here, kind, _, _⟩ := held.read_eq found
          have narrow := held.fits.narrow
          rw [← kind] at narrow
          rw [node] at kind held
          simp only [kind, runs_pure] at rest
          obtain ⟨rfl, rfl⟩ := rest
          rw [List.reverse_singleton, List.modifyHead_cons] at rises ⊢
          obtain ⟨nodes₁, entered, _, _⟩ := settled.enter routed range here kind node
          have placed : (IndexTree.insertIntoLeaf n key pointer).page = page := by
            rw [insertIntoLeaf_eq kind]
            exact here
          rw [← placed] at entered
          have alone : Settled other m nodes₁ 0 (before ++ ((IndexTree.insertIntoLeaf n key pointer).page, upper) ::
            after) ([] ++ [IndexTree.insertIntoLeaf n key pointer]) := entered
          have wide : (IndexTree.insertIntoLeaf n key pointer).body.Narrow :=
            insertIntoLeaf_narrow kind (settled.sorted_leaf node) narrow small
          rw [rise] at rises
          cases step : risingKey (IndexTree.insertIntoLeaf n key pointer).body
              (keysWith (IndexTree.insertIntoLeaf n key pointer).body none) with
          | none => simp [step] at rises
          | some risenKey =>
              obtain ⟨n₂, promotion, m₁, round, room₁⟩ := alone.round_available (fun _ => rfl) wide step room
              exact ⟨[n₂], promotion, m₁,
                climb_cons.mpr ⟨_, n₂, promotion, m₁, [], rfl, round, runs_pure.mpr ⟨rfl, rfl⟩, rfl⟩, room₁⟩
  | succ height ih =>
      obtain ⟨body, node⟩ := settled.forest.graded.1 (page, upper) (by simp)
      have listed : page ∈ nodePages nodes (height + 1) (before ++ (page, upper) :: after) :=
        mem_nodePages nodes (height + 1) (x := (page, upper)) (by simp)
      have held := settled.overlay.disk page listed (by simp)
      cases fuel with
      | zero => simp [IndexTree.readPath] at read
      | succ fuel =>
          simp only [IndexTree.readPath, runs_bind] at read
          obtain ⟨n, _, found, rest⟩ := read
          obtain ⟨rfl, here, kind, _, counted⟩ := held.read_eq found
          rw [← kind] at counted
          rw [node] at kind held
          simp only [kind, runs_bind, runs_pure] at rest
          obtain ⟨lowerPath, m₁, lowerRead, rfl, rfl⟩ := rest
          obtain ⟨left, sep, right, order, distinct, levelOrder, routed', lower⟩ := settled.descend routed node
          have short := held.fits.length_lt
          rw [NodeBody.items, List.length_map] at short
          have filled : lowerPath.reverse ≠ [] := by simpa using readPath_ne_nil lowerRead
          rw [List.reverse_cons, modifyHead_append _ _ filled] at rises ⊢
          rw [rise_append] at rises
          obtain ⟨mid, lowerRises, last⟩ := Option.bind_eq_some_iff.mp rises
          rw [List.length_cons, Nat.add_comm lowerPath.length, ← Nat.add_assoc] at room
          obtain ⟨out₁, promotion, m₂, lowerRun, room₂⟩ := ih lower routed' lowerRead lowerRises room
          obtain ⟨risesToo, _, light⟩ := climb_rises (fun _ none => by cases none) lowerRun
          obtain rfl := Option.some.inj (risesToo.symm.trans lowerRises)
          obtain ⟨nodes₁, level₁, outcome, settled₁, widens₁, _⟩ :=
            climb_path lower routed' range lowerRead lowerRun
          obtain ⟨n₁, absorbed⟩ := absorb_available kind order distinct outcome
          obtain ⟨body₁, here₁, kind₁, counted₁, _, clean, children⟩ :=
            absorb_fan kind short counted order distinct outcome absorbed
          rw [← levelOrder] at widens₁
          obtain ⟨nodes₂, settled₂, _, _⟩ := settled.raise settled₁ widens₁ node here kind
            (here₁.trans here) kind₁ counted₁ clean children
          obtain ⟨_, keys, same⟩ := absorb_keys absorbed
          have narrow : n₁.body.Narrow := by
            intro key member
            rw [keys] at member
            rw [kind₁]
            rcases keysWith_mem member with old | ⟨child, new⟩
            · rw [kind] at old
              exact held.fits.narrow key old
            · obtain ⟨p, only, risen⟩ := Option.map_eq_some_iff.mp new
              cases risen
              exact light p only
          rw [rise, ← keys, ← same] at last
          cases step : risingKey n₁.body n₁.body.keys with
          | none => simp [step] at last
          | some risenKey =>
              have placed : n₁.page = page := here₁.trans here
              subst placed
              obtain ⟨n₂, left, m₃, round, room₃⟩ :=
                settled₂.round_available (fun zero => by cases zero) narrow step room₂
              refine ⟨out₁ ++ [n₂], left, m₃, climb_append.mpr ⟨out₁, promotion, m₂, [n₂], lowerRun, ?_, rfl⟩, room₃⟩
              exact climb_cons.mpr ⟨n₁, n₂, left, m₃, [], absorbed, round, runs_pure.mpr ⟨rfl, rfl⟩, rfl⟩

/-- Nodes that fit are flushed. -/
theorem Overlay.flushAll_available {pages : List Nat} {waiting : List (BTreeNode K)}
    (overlay : Overlay m nodes pages waiting) (fits : ∀ n ∈ waiting, n.body.Fits) (alloc : ∀ q ∈ pages, q < m.pages) :
    ∃ m', m.Runs (IndexTree.flushAll waiting) () m' := by
  induction waiting generalizing m with
  | nil => exact ⟨m, runs_pure.mpr ⟨rfl, rfl⟩⟩
  | cons n rest ih =>
      obtain ⟨listed, _, counted, _, _⟩ := overlay.loaded n List.mem_cons_self
      rw [List.forall_mem_cons] at fits
      obtain ⟨r, m₁, flushed⟩ := flush_runs counted fits.1 (alloc n.page listed)
      obtain ⟨overlay₁, pages₁, _⟩ := overlay.flush_head flushed
      obtain ⟨m', remaining⟩ := ih overlay₁ fits.2 fun q member => pages₁ ▸ alloc q member
      exact ⟨m', runs_bind.mpr ⟨r, m₁, flushed, remaining⟩⟩

/-- A new root is made when a page can be claimed. -/
theorem Settled.growRoot_available {tree : IndexTree} {out : List (BTreeNode K)} {promotion : Option (Promotion K)}
    {level : Level K} (settled : Settled other m nodes height level out) (fits : ∀ n ∈ out, n.body.Fits)
    (light : ∀ p, promotion = some p → Light p.key) (room : m.Room 1) :
    ∃ tree' path m', m.Runs (tree.growRoot out.reverse promotion) (tree', path) m' ∧ ∀ n ∈ path, n.body.Fits := by
  cases promotion with
  | none => exact ⟨tree, out.reverse, m, runs_pure.mpr ⟨rfl, rfl⟩, fun n member => fits n (List.mem_reverse.mp member)⟩
  | some p =>
      obtain ⟨root, m₁, claimed, _⟩ := settled.supply.claimPage_room room
      have alloc := ((settled.supply.claimPage_runs claimed).supply.owned_allocated root (.inl rfl)).1
      have small : (NodeBody.internal ⟨[⟨p.key, p.leftPage⟩], p.rightPage⟩ : NodeBody K).Fits := by
        have bound := light p rfl
        unfold NodeBody.Fits
        rw [NodeBody.used_eq]
        simpa [NodeBody.keys, NodeBody.keySize, NodeBody.tailSize, NodeBody.headerSize, Light] using bound
      have counted : BTreeNode.Counted (⟨root, ⟨none, 1⟩, .internal ⟨[⟨p.key, p.leftPage⟩], p.rightPage⟩, true⟩ :
        BTreeNode K) := rfl
      obtain ⟨r, m₂, flushed⟩ := flush_runs counted small alloc
      refine ⟨⟨root⟩, _, m₂, runs_bind.mpr ⟨root, m₁, claimed, runs_bind.mpr ⟨r, m₂, flushed,
        runs_pure.mpr ⟨rfl, rfl⟩⟩⟩, ?_⟩
      intro n member
      cases order : out.reverse with
      | nil => simp [order] at member
      | cons top rest =>
          have all : ∀ n ∈ top :: rest, n.body.Fits := fun n inOut =>
            fits n (List.mem_reverse.mp (order ▸ inOut))
          rw [order, List.modifyHead_cons] at member
          rcases List.mem_cons.mp member with rfl | old
          · exact all top List.mem_cons_self
          · exact all n (List.mem_cons_of_mem _ old)

end Path

/-- The path of a key with the key in its leaf. -/
def entered (key : K) (pointer : RecordAddress) (path : List (BTreeNode K)) : List (BTreeNode K) :=
  path.reverse.modifyHead fun leaf => IndexTree.insertIntoLeaf leaf key pointer

section Insert

variable {other : Nat → Prop} {m m' : MemoryManager} {nodes : Nodes K} {height fuel : Nat} {tree : IndexTree}
  {key : K} {pointer : RecordAddress} {path : List (BTreeNode K)}

theorem IndexInv.settled (inv : IndexInv tree m nodes height other) :
    Settled other m nodes height ([] ++ (tree.rootPage, ⊤) :: []) [] :=
  ⟨inv.toForest, ⟨by simp, by simp, fun page listed _ => inv.holds page listed⟩, inv.supply, inv.separate⟩

/-- An insertion that returns has let the keys rise. -/
theorem insert_rises {tree' : IndexTree} (read : m.Runs (IndexTree.readPath key fuel tree.rootPage) path m)
    (run : m.Runs (tree.insert fuel key pointer) tree' m') : (rise none (entered key pointer path)).isSome := by
  simp only [IndexTree.insert, runs_bind] at run
  obtain ⟨path', m₁, read', rest⟩ := run
  obtain ⟨rfl, rfl⟩ := read.det read'
  unfold entered
  cases order : path.reverse with
  | nil => simp [order] at rest
  | cons leaf ancestors =>
      simp only [order, runs_bind] at rest
      obtain ⟨⟨out, promotion⟩, _, climbed, _⟩ := rest
      obtain ⟨rises, _, _⟩ := climb_rises (fun _ none => by cases none) climbed
      rw [List.modifyHead_cons]
      exact Option.isSome_of_mem rises

/-- An insertion returns when the keys rise, with pages for every level and a new root. -/
theorem IndexInv.insert_available (inv : IndexInv tree m nodes height other) (range : pointer.InRange)
    (small : leafHeaderSize + (2 + (Encode.encode key).length + recordPointerSize) ≤ pageSize)
    (read : m.Runs (IndexTree.readPath key fuel tree.rootPage) path m)
    (rises : (rise none (entered key pointer path)).isSome) (room : m.Room (path.length + 1)) :
    ∃ tree' m', m.Runs (tree.insert fuel key pointer) tree' m' := by
  obtain ⟨risen, rises⟩ := Option.isSome_iff_exists.mp rises
  have routed : Routed key [] (⊤ : WithTop K) := ⟨by simp, WithTop.coe_lt_top key⟩
  rw [Nat.add_comm] at room
  obtain ⟨out, promotion, m₁, climbed, room₁⟩ := inv.settled.climb_available routed range read small rises room
  obtain ⟨_, fits, light⟩ := climb_rises (fun _ none => by cases none) climbed
  obtain ⟨nodes₁, level, outcome, settled₁, _, _⟩ := climb_path inv.settled routed range read climbed
  have top : ∃ tree' path m', m₁.Runs (tree.growRoot out.reverse promotion) (tree', path) m' ∧
      ∀ n ∈ path, n.body.Fits := settled₁.growRoot_available fits light room₁
  obtain ⟨tree', waiting, m₂, grown, fits₂⟩ := top
  obtain ⟨nodes₂, height₂, settled₂, _, _⟩ := settled₁.growRoot outcome grown
  obtain ⟨m₃, flushed⟩ := settled₂.overlay.flushAll_available fits₂ fun q member => settled₂.allocated member
  refine ⟨tree', m₃, ?_⟩
  simp only [IndexTree.insert, runs_bind]
  refine ⟨path, m, read, ?_⟩
  cases order : path.reverse with
  | nil =>
      have empty : path = [] := by simpa using order
      exact absurd empty (readPath_ne_nil read)
  | cons leaf ancestors =>
      rw [order, List.modifyHead_cons] at climbed
      simp only [runs_bind, runs_pure]
      exact ⟨_, m₁, climbed, _, m₂, grown, (), m₃, flushed, rfl, rfl⟩

end Insert

/-- After every sequence of calls on a new tree, with a page to claim for every node of the
path and a new root, a key that fits its entries is inserted if and only if every node of
its path that overflows on the way up has a cut whose halves fit a page each. -/
theorem insert_returns_iff_cuts {other : Nat → Prop} {m₀ m₁ m : MemoryManager} {tree₀ tree : IndexTree}
    {calls : List (IndexCall K)} (supply : PageSupply m₀ other) (created : m₀.Runs (IndexTree.init K) tree₀ m₁)
    (run : IndexRun tree₀ m₁ calls tree m) {key : K} {pointer : RecordAddress} (range : pointer.InRange)
    (leafEntry : ∃ size, leafEntrySizeFromLen (Encode.encode key).length = .ok size)
    (_internalEntry : ∃ size, internalEntrySizeFromLen (Encode.encode key).length = .ok size) :
    ∃ path, m.Ends (fun fuel => IndexTree.readPath key fuel tree.rootPage) path m ∧
      (m.Room (path.length + 1) →
        ((∃ tree' m', m.Ends (fun fuel => tree.insert fuel key pointer) tree' m') ↔
          (rise none (entered key pointer path)).isSome)) := by
  obtain ⟨pairs, _, nodes, height, inv, _⟩ := run.holds (IndexTree.init_holds supply created)
  have routed : Routed key [] (⊤ : WithTop K) := ⟨by simp, WithTop.coe_lt_top key⟩
  obtain ⟨path, read⟩ := inv.settled.readPath_runs routed (Nat.lt_succ_self height)
  obtain ⟨size, checked⟩ := leafEntry
  have small : leafHeaderSize + (2 + (Encode.encode key).length + recordPointerSize) ≤ pageSize :=
    entrySizeFromLen_eq checked ▸ entrySizeFromLen_fits checked
  obtain ⟨deep, reads⟩ := Approx.ends (fun fuel => IndexTree.readPath_more key fuel tree.rootPage) read
  refine ⟨path, ⟨deep, reads⟩, fun room => ⟨?_, fun rises => ?_⟩⟩
  · rintro ⟨tree', m', enough, returns⟩
    exact insert_rises (reads (max deep enough) (Nat.le_max_left _ _)) (returns _ (Nat.le_max_right _ _))
  · obtain ⟨tree', m', inserted⟩ := inv.insert_available range small read rises room
    exact ⟨tree', m', Approx.ends (IndexTree.insert_more tree key pointer) inserted⟩

theorem insert_returns_iff_cuts_after_sample_insert : ∃ (m : MemoryManager) (path : List (BTreeNode UInt8)),
    m.Ends (fun fuel => IndexTree.readPath (3 : UInt8) fuel 2) path m ∧
      (m.Room (path.length + 1) →
        ((∃ tree' m', m.Ends (fun fuel => IndexTree.insert fuel ⟨2⟩ (3 : UInt8) ⟨6, 0⟩) tree' m') ↔
          (rise none (entered 3 ⟨6, 0⟩ path)).isSome)) := by
  obtain ⟨m₁, created, root, _⟩ := IndexSample.created UInt8
  obtain ⟨m, run⟩ := IndexSample.inserted root
  exact ⟨m, insert_returns_iff_cuts IndexSample.memory_supply created run ⟨by decide, by decide⟩
    ⟨9, by rw [leafEntrySizeFromLen, entrySizeFromLen, pageSize_eq]; rfl⟩
    ⟨7, by rw [internalEntrySizeFromLen, entrySizeFromLen, pageSize_eq]; rfl⟩⟩

theorem climb_stuck {m : MemoryManager} {n : BTreeNode K} {body : LeafNodeBody K} {fault : Fault}
    (kind : n.body = .leaf body) (overflow : n.wouldOverflow = .ok true)
    (stuck : IndexTree.splitIndex n.body false = .error fault) : m.Fails (IndexTree.climb none [n]) fault m := by
  rw [IndexTree.climb]
  have absorbed : m.Runs (Prog.lift (IndexTree.absorb n none)) n m := runs_lift.mpr ⟨rfl, rfl⟩
  have checked : m.Runs (Prog.lift n.wouldOverflow) true m := runs_lift.mpr ⟨overflow, rfl⟩
  refine absorbed.then_fails (checked.then_fails ?_)
  rw [if_pos rfl]
  refine Fails.then_stops ?_ _
  simp only [IndexTree.splitNode, kind]
  refine Fails.then_stops ?_ _
  rw [← kind, stuck]
  rfl

/-- A leaf that overflows and has no cut does not take the entry in. -/
theorem Holds.insert_aborts {m : MemoryManager} {page : Nat} {body : LeafNodeBody K} {key : K}
    {pointer : RecordAddress} (root : Holds m page (.leaf body)) {whole : LeafNodeBody K}
    (added : { body with entries := withEntry key pointer body.entries } = whole)
    (narrow : (NodeBody.leaf whole).Narrow) (large : pageSize < (NodeBody.leaf whole).used) {sizes : List Nat}
    (measured : (NodeBody.leaf whole).keys.map (NodeBody.leaf whole).keySize = sizes)
    (stuck : byteBalancedSplitIndex sizes leafHeaderSize false = none) :
    m.Aborts (fun fuel => IndexTree.insert fuel ⟨page⟩ key pointer)
      (.error (.keyTooLarge (sizes.foldl max 0) (pageSize - leafHeaderSize))) m := by
  obtain ⟨header, _, read⟩ := root.read_runs
  refine ⟨1, fun fuel enough => ?_⟩
  obtain ⟨fuel, rfl⟩ : ∃ n, fuel = n + 1 := ⟨fuel - 1, by omega⟩
  have path : m.Runs (IndexTree.readPath key (fuel + 1) page) [⟨page, header, .leaf body, false⟩] m :=
    runs_bind.mpr ⟨_, m, read, runs_pure.mpr ⟨rfl, rfl⟩⟩
  have fault : IndexTree.splitIndex (.leaf whole) false =
      .error (.error (.keyTooLarge (sizes.foldl max 0) (pageSize - leafHeaderSize))) := by
    rw [← measured] at stuck ⊢
    exact splitIndex_error narrow stuck
  refine path.then_fails ?_
  rw [List.reverse_singleton]
  dsimp only
  rw [insertIntoLeaf_eq (n := ⟨page, header, .leaf body, false⟩) rfl, added]
  refine Fails.then_stops (climb_stuck rfl ?_ fault) _
  exact wouldOverflow_iff.mpr ⟨narrow, (decide_eq_true large).symm⟩

/-! ## Three long keys in one leaf -/

structure Blob where
  bytes : List UInt8
  deriving DecidableEq, Repr

/-- The encoding of `Blob`. -/
instance : Encode Blob where
  dataSize := .dynamic
  alignment := defaultAlignment
  encode blob := toLE 2 (min blob.bytes.length msizeMax) ++ blob.bytes
  size blob := min (2 + blob.bytes.length) msizeMax
  decode data :=
    if data.length < 2 then .error tooShort
    else
      let length := ofLE (data.take 2)
      if data.length < 2 + length then .error tooShort
      else .ok ⟨(data.drop 2).take length⟩
  size_le _ := Nat.min_le_right _ _
  size_eq blob small := by
    rw [List.length_append, toLE_length]
    omega
  decode_encode blob small := by
    have short : blob.bytes.length < msizeMax := by omega
    have value : ofLE (toLE 2 (min blob.bytes.length msizeMax)) = blob.bytes.length := by
      rw [Nat.min_eq_left (Nat.le_of_lt short)]
      refine ofLE_toLE_of_lt ?_
      unfold msizeMax at short
      omega
    dsimp only
    rw [List.take_left' (toLE_length _ _), List.drop_left' (toLE_length _ _), value, List.length_append, toLE_length,
      if_neg (by omega), if_neg (by omega), List.take_length]
  fixed_size n h := by cases h
  dynamic_alignment _ := by decide

theorem Blob.encode_length (blob : Blob) : (Encode.encode blob).length = 2 + blob.bytes.length := by
  change (toLE 2 _ ++ blob.bytes).length = _
  rw [List.length_append, toLE_length]

/-- Blobs are ordered byte by byte. -/
instance : Key Blob where
  toPreorder := Preorder.lift fun blob => blob.bytes.map UInt8.toNat
  total a b := le_total (a.bytes.map UInt8.toNat) (b.bytes.map UInt8.toNat)
  decidableLE a b := inferInstanceAs (Decidable (a.bytes.map UInt8.toNat ≤ b.bytes.map UInt8.toNat))
  decidableLT a b := inferInstanceAs (Decidable (a.bytes.map UInt8.toNat < b.bytes.map UInt8.toNat))
  readable blob small := by
    refine Encode.decode_encode blob ?_
    rw [Blob.encode_length] at small
    change min (2 + blob.bytes.length) msizeMax < msizeMax
    omega

namespace LongKeys

/-- A blob that starts with this byte. -/
def startingWith (byte : UInt8) (zeros : Nat) : Blob := ⟨byte :: List.replicate zeros 0⟩

theorem encode_length (byte : UInt8) (zeros : Nat) :
    (Encode.encode (startingWith byte zeros)).length = 3 + zeros := by
  rw [Blob.encode_length, startingWith, List.length_cons, List.length_replicate]
  omega

/-- A leaf with these entries, alone in its tree. -/
def leafOf (entries : List (LeafEntry Blob)) : LeafNodeBody Blob := ⟨entries, none, none⟩

def first : LeafEntry Blob := ⟨startingWith 1 29997, ⟨5, 0⟩⟩
def middle : LeafEntry Blob := ⟨startingWith 2 59997, ⟨5, 32⟩⟩
def last : LeafEntry Blob := ⟨startingWith 3 29997, ⟨5, 64⟩⟩

theorem sizes_of (entries : List (LeafEntry Blob)) :
    (NodeBody.leaf (leafOf entries)).keys.map (NodeBody.leaf (leafOf entries)).keySize =
      entries.map fun e => 8 + (Encode.encode e.key).length := by
  change (entries.map LeafEntry.key).map _ = _
  rw [List.map_map]
  apply List.map_congr_left
  intro e _
  change 2 + (Encode.encode e.key).length + 6 = _
  omega

/-- The size of an entry, from what its key is. -/
theorem size_of {e : LeafEntry Blob} {byte : UInt8} {zeros n : Nat} (is_key : e.key = startingWith byte zeros)
    (total : 11 + zeros = n) : 8 + (Encode.encode e.key).length = n := by
  rw [is_key, encode_length]
  omega

theorem first_length : 8 + (Encode.encode first.key).length = 30008 :=
  size_of (show first.key = startingWith 1 29997 from rfl) rfl

theorem middle_length : 8 + (Encode.encode middle.key).length = 60008 :=
  size_of (show middle.key = startingWith 2 59997 from rfl) rfl

theorem last_length : 8 + (Encode.encode last.key).length = 30008 :=
  size_of (show last.key = startingWith 3 29997 from rfl) rfl

/-- Whether a leaf fits is decided by the sizes of its entries. -/
theorem fits_of_sizes {entries : List (LeafEntry Blob)} {sizes : List Nat}
    (measured : (entries.map fun e => 8 + (Encode.encode e.key).length) = sizes)
    (small : leafHeaderSize + sizes.sum ≤ 65536) : (NodeBody.leaf (leafOf entries)).Fits := by
  unfold NodeBody.Fits
  rw [NodeBody.used_eq, sizes_of, measured, pageSize_eq]
  exact small

theorem with_first : withEntry first.key first.pointer [] = [first] := by
  have position : partitionPoint (precedes first.key first.pointer) [] = 0 := by decide
  rw [withEntry, position]
  rfl

theorem with_last : withEntry last.key last.pointer [first] = [first, last] := by
  have position : partitionPoint (precedes last.key last.pointer) [first] = 1 := by decide
  rw [withEntry, position]
  rfl

theorem with_middle : withEntry middle.key middle.pointer [first, last] = [first, middle, last] := by
  have position : partitionPoint (precedes middle.key middle.pointer) [first, last] = 1 := by decide
  rw [withEntry, position]
  rfl

/-- The two keys of thirty thousand bytes share the root leaf. -/
theorem two_inserted : ∃ m₁ m, IndexSample.memory.Runs (IndexTree.init Blob) ⟨2⟩ m₁ ∧
    IndexRun ⟨2⟩ m₁ [.insert first.key first.pointer, .insert last.key last.pointer] ⟨2⟩ m ∧
    Holds m 2 (.leaf (leafOf [first, last])) ∧ m.Room 5 := by
  obtain ⟨m₁, created, root, pages₁⟩ := IndexSample.created Blob
  have fits₁ : (NodeBody.leaf (leafOf [first])).Fits := by
    apply fits_of_sizes (List.map_singleton.trans (congrArg (fun n => [n]) first_length))
    decide
  have fits₂ : (NodeBody.leaf (leafOf [first, last])).Fits := by
    apply fits_of_sizes (List.map_cons.trans (congrArg₂ List.cons first_length
      (List.map_singleton.trans (congrArg (fun n => [n]) last_length))))
    decide
  rw [← with_first] at fits₁
  obtain ⟨m₂, returns₁, holds₁, pages₂⟩ := root.insert_ends ⟨by decide, by decide⟩ fits₁
  rw [← with_last, ← with_first] at fits₂
  obtain ⟨m₃, returns₂, holds₂, pages₃⟩ := holds₁.insert_ends ⟨by decide, by decide⟩ fits₂
  rw [with_first, with_last] at holds₂
  refine ⟨m₁, m₃, created, .call (.call .start (.insert first.key first.pointer) ⟨by decide, by decide⟩ returns₁)
    (.insert last.key last.pointer) ⟨by decide, by decide⟩ returns₂, holds₂, ?_⟩
  obtain ⟨_, runs₁⟩ := returns₁
  obtain ⟨_, runs₂⟩ := returns₂
  unfold Room
  rw [pages₃, pages₂, pages₁, (runs₂ _ (Nat.le_refl _)).capacity, (runs₁ _ (Nat.le_refl _)).capacity, created.capacity]
  decide

end LongKeys

/-- A key of sixty thousand bytes between two of thirty thousand is turned away from a
tree of one leaf, with its own size in the error although that size fits. -/
theorem insert_between_long_keys_aborts :
    ∃ (m₁ m : MemoryManager) (calls : List (IndexCall Blob)) (key : Blob) (pointer : RecordAddress),
      PageSupply IndexSample.memory (fun _ => False) ∧ IndexSample.memory.Runs (IndexTree.init Blob) ⟨2⟩ m₁ ∧
      IndexRun ⟨2⟩ m₁ calls ⟨2⟩ m ∧ pointer.InRange ∧
      leafEntrySizeFromLen (Encode.encode key).length = .ok 60008 ∧
      internalEntrySizeFromLen (Encode.encode key).length = .ok 60006 ∧ m.Room 5 ∧
      m.Aborts (fun fuel => IndexTree.insert fuel ⟨2⟩ key pointer) (.error (.keyTooLarge 60008 65521)) m := by
  obtain ⟨m₁, m, created, run, holds, room⟩ := LongKeys.two_inserted
  have length : (Encode.encode LongKeys.middle.key).length = 60000 := LongKeys.encode_length 2 59997
  have measured := LongKeys.sizes_of [LongKeys.first, LongKeys.middle, LongKeys.last]
  simp only [List.map_cons, List.map_nil, LongKeys.first_length, LongKeys.middle_length, LongKeys.last_length]
    at measured
  have narrow : (NodeBody.leaf (LongKeys.leafOf [LongKeys.first, LongKeys.middle, LongKeys.last])).Narrow := by
    intro key member
    have size := List.mem_map_of_mem (f := (NodeBody.leaf
      (LongKeys.leafOf [LongKeys.first, LongKeys.middle, LongKeys.last])).keySize) member
    rw [measured] at size
    have header : (NodeBody.leaf (LongKeys.leafOf [LongKeys.first, LongKeys.middle, LongKeys.last])).headerSize = 15 := rfl
    rw [header, pageSize_eq]
    simp only [List.mem_cons, List.not_mem_nil, or_false] at size
    omega
  have large : pageSize <
      (NodeBody.leaf (LongKeys.leafOf [LongKeys.first, LongKeys.middle, LongKeys.last])).used := by
    rw [NodeBody.used_eq, measured, pageSize_eq]
    decide
  have stuck : byteBalancedSplitIndex [30008, 60008, 30008] leafHeaderSize false = none := by
    rw [byteBalancedSplitIndex, pageSize_eq]
    decide
  have added : { LongKeys.leafOf [LongKeys.first, LongKeys.last] with
      entries := withEntry LongKeys.middle.key LongKeys.middle.pointer [LongKeys.first, LongKeys.last] } =
      LongKeys.leafOf [LongKeys.first, LongKeys.middle, LongKeys.last] :=
    congrArg LongKeys.leafOf LongKeys.with_middle
  have aborts := holds.insert_aborts added narrow large measured stuck
  rw [pageSize_eq] at aborts
  refine ⟨m₁, m, _, LongKeys.middle.key, LongKeys.middle.pointer, IndexSample.memory_supply, created, run,
    ⟨by decide, by decide⟩, ?_, ?_, room, aborts⟩
  · rw [length, leafEntrySizeFromLen, entrySizeFromLen, pageSize_eq]
    rfl
  · rw [length, internalEntrySizeFromLen, entrySizeFromLen, pageSize_eq]
    rfl

end WasmDbms
