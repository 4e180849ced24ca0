import WasmDbms.Index.Delete
import WasmDbms.Index.Insert

/-!
# Updating an entry

`update` deletes and inserts. An insertion can fail, but never with
`EntryNotFound`: the nodes it reads are in memory, and nothing else in it reports
that error. So `update` reports it exactly when the deletion does.
-/
namespace WasmDbms
open Bisect MemoryManager

/-- The program does not end with `EntryNotFound`. -/
def NotMissing {α : Type} (m : MemoryManager) (p : Prog α) : Prop :=
  ∀ m', ¬ m.Fails p (.error .entryNotFound) m'

section Rules

variable {α β : Type} {m : MemoryManager}

theorem notMissing_pure (a : α) : NotMissing m (pure a) := by
  intro m' fails
  simp [Fails] at fails

theorem notMissing_panic : NotMissing m (Prog.fail .panic : Prog α) := by
  intro m' fails
  simp [Fails] at fails

theorem notMissing_of_runs {p : Prog α} {a : α} {m₁ : MemoryManager} (run : m.Runs p a m₁) : NotMissing m p := by
  intro m' fails
  have both := run.symm.trans fails
  cases both

theorem notMissing_lift {x : Except Fault α} (other : x ≠ .error (.error .entryNotFound)) :
    NotMissing m (Prog.lift x) := by
  intro m' fails
  cases x with
  | ok a => simp [Fails, Prog.lift, Prog.run] at fails
  | error e =>
      simp only [Fails, Prog.lift, Prog.run_fail, Prod.mk.injEq, Except.error.injEq] at fails
      exact other (by rw [fails.1])

theorem NotMissing.bind {p : Prog α} {f : α → Prog β} (first : NotMissing m p)
    (rest : ∀ a m₁, m.Runs p a m₁ → NotMissing m₁ (f a)) : NotMissing m (p >>= f) := by
  intro m' fails
  unfold Fails at fails
  rw [Prog.run_bind] at fails
  rcases run : p.run exec m with ⟨r, m₁⟩
  cases r with
  | ok a =>
      rw [run] at fails
      exact rest a m₁ run m' fails
  | error e =>
      rw [run] at fails
      simp only [Prod.mk.injEq, Except.error.injEq] at fails
      refine first m₁ ?_
      rw [Fails, run, fails.1]

theorem readAtRaw_ne (page offset len : Nat) : m.readAtRaw page offset len ≠ .error .entryNotFound := by
  unfold readAtRaw providerRead
  split
  · simp
  · split <;> simp

theorem readAt_ne (page offset alignment : Nat) (size : DataSize) :
    m.readAt page offset alignment size ≠ .error .entryNotFound := by
  unfold readAt
  split
  · simp
  · dsimp only
    split
    · rename_i e failed
      rintro same
      cases same
      exact readAtRaw_ne _ _ _ failed
    · cases size with
      | fixed size =>
          dsimp only
          split <;> simp
      | dynamic =>
          dsimp only
          split <;> simp

/-- No primitive call reports a missing entry. -/
theorem exec_ne (c : MemCall) : (exec c m).1 ≠ .error .entryNotFound := by
  cases c with
  | growOnePage =>
      rw [exec, growOnePage_eq]
      split <;> simp
  | zeroPage page =>
      rw [exec, zeroPage_eq]
      split <;> simp
  | readAt page offset alignment size => exact readAt_ne _ _ _ _
  | writeAt page offset data =>
      rw [exec, writeAt_eq]
      split
      · simp
      · split
        · simp
        · split <;> simp
  | writeAtRaw page offset buf =>
      rw [exec, writeAtRaw_eq]
      split
      · simp
      · split <;> simp
  | zero page offset data =>
      rw [exec, zero_eq]
      split
      · simp
      · split
        · simp
        · split <;> simp
  | zeroRaw page offset len =>
      rw [exec, zeroRaw_eq]
      split
      · simp
      · split <;> simp
  | readAtRaw page offset len => exact readAtRaw_ne _ _ _

theorem notMissing_perform (c : MemCall) : NotMissing m (Prog.perform c) := by
  have other := exec_ne (m := m) c
  intro m' fails
  unfold Fails at fails
  rw [Prog.run_perform] at fails
  rcases run : exec c m with ⟨r, m₁⟩
  rw [run] at fails other
  cases r with
  | ok a => cases fails
  | error e =>
      simp only [Prod.mk.injEq, Except.error.injEq, Fault.error.injEq] at fails
      exact other (by rw [fails.1])

theorem decode_ne (data : List UInt8) : UnclaimedPages.decode data ≠ .error (.error .entryNotFound) := by
  unfold UnclaimedPages.decode
  split
  · simp
  · split
    · simp
    · split <;> simp

theorem claimPage_notMissing : NotMissing m MemoryAccess.claimPage := by
  refine (notMissing_perform _).bind fun data m₁ _ => ?_
  refine (notMissing_lift (decode_ne data)).bind fun ledger m₂ _ => ?_
  split
  · exact (notMissing_perform _).bind fun _ _ _ => notMissing_pure _
  · exact notMissing_perform _

end Rules

variable {K : Type} [Key K]

section Nodes

variable {m : MemoryManager}

theorem entrySizeFromLen_ne (header tail keyLen : Nat) :
    entrySizeFromLen header tail keyLen ≠ .error (.error .entryNotFound) := by
  unfold entrySizeFromLen
  split
  · simp
  · dsimp only
    split <;> simp

theorem serializeEntries_ne (header tail offset : Nat) (items : List Entries.Item) :
    serializeEntries header tail offset items ≠ .error (.error .entryNotFound) := by
  induction items generalizing offset with
  | nil => simp [serializeEntries]
  | cons x xs ih =>
      unfold serializeEntries
      split
      · rename_i e failed
        rintro same
        cases same
        exact entrySizeFromLen_ne _ _ _ failed
      · split
        · simp
        · split
          · rename_i e failed
            rintro same
            cases same
            exact ih _ failed
          · simp

theorem flush_notMissing (node : BTreeNode K) : NotMissing m node.flush := by
  unfold BTreeNode.flush
  split
  · exact notMissing_pure _
  · refine (notMissing_lift ?_).bind fun buf m₁ _ => ?_
    · unfold BTreeNode.serialize
      split
      · rename_i e failed
        rintro same
        cases same
        exact serializeEntries_ne _ _ _ _ failed
      · simp
    · exact (notMissing_perform _).bind fun _ _ _ => notMissing_pure _

theorem entrySizes_ne (body : NodeBody K) : BTreeNode.entrySizes body ≠ .error (.error .entryNotFound) := by
  unfold BTreeNode.entrySizes
  generalize body.items = items
  induction items with
  | nil => simp [pure, Except.pure]
  | cons x xs ih =>
      rw [List.mapM_cons]
      cases first : entrySizeFromLen body.headerSize body.tailSize x.key.length with
      | error e =>
          rintro same
          cases same
          exact entrySizeFromLen_ne _ _ _ first
      | ok size =>
          cases rest : xs.mapM fun x => entrySizeFromLen body.headerSize body.tailSize x.key.length with
          | error e =>
              rintro same
              cases same
              exact ih rest
          | ok sizes => simp [bind, Except.bind, pure, Except.pure]

theorem wouldOverflow_ne (node : BTreeNode K) : node.wouldOverflow ≠ .error (.error .entryNotFound) := by
  unfold BTreeNode.wouldOverflow BTreeNode.entriesByteSize
  cases sizes : BTreeNode.entrySizes node.body with
  | error e =>
      rintro same
      cases same
      exact entrySizes_ne _ sizes
  | ok _ => simp [Except.map]

theorem splitIndex_ne (body : NodeBody K) (promoteMedian : Bool) :
    IndexTree.splitIndex body promoteMedian ≠ .error (.error .entryNotFound) := by
  unfold IndexTree.splitIndex
  split
  · rename_i e failed
    rintro same
    cases same
    exact entrySizes_ne _ failed
  · split <;> simp

theorem splitNode_notMissing {node : BTreeNode K}
    (relinked : ∀ body m₁ page, node.body = .leaf body → m.Runs MemoryAccess.claimPage page m₁ →
      NotMissing m₁ (IndexTree.relinkNext (K := K) body.nextLeaf page)) :
    NotMissing m (IndexTree.splitNode node) := by
  unfold IndexTree.splitNode
  split
  · rename_i body kind
    refine (notMissing_lift (splitIndex_ne _ _)).bind fun splitAt m₁ lifted => ?_
    obtain ⟨_, rfl⟩ := runs_lift.mp lifted
    dsimp only
    split
    · exact notMissing_panic
    · refine claimPage_notMissing.bind fun page m₂ claimed => ?_
      refine (relinked body m₂ page kind claimed).bind fun _ m₃ _ => ?_
      exact (flush_notMissing _).bind fun _ _ _ => notMissing_pure _
  · refine (notMissing_lift (splitIndex_ne _ _)).bind fun mid m₁ _ => ?_
    dsimp only
    split
    · exact notMissing_panic
    · refine claimPage_notMissing.bind fun page m₂ _ => ?_
      exact (flush_notMissing _).bind fun _ _ _ => notMissing_pure _

omit [Key K] in
theorem promoteEntries_ne (body : InternalNodeBody K) (promotion : Promotion K) :
    IndexTree.promoteEntries body promotion ≠ .error (.error .entryNotFound) := by
  unfold IndexTree.promoteEntries
  dsimp only
  split
  · simp
  · split <;> simp

omit [Key K] in
theorem absorb_ne (node : BTreeNode K) (promotion : Option (Promotion K)) :
    IndexTree.absorb node promotion ≠ .error (.error .entryNotFound) := by
  cases promotion with
  | none => simp [IndexTree.absorb]
  | some p =>
      rw [IndexTree.absorb, IndexTree.promoteIntoInternal]
      cases node.body with
      | leaf _ => simp
      | internal body =>
          cases promoted : IndexTree.promoteEntries body p with
          | ok _ => simp [promoted]
          | error e =>
              simp only [promoted]
              rintro same
              cases same
              exact promoteEntries_ne _ _ promoted

omit [Key K] in
theorem absorb_internal {node node' : BTreeNode K} {promotion : Option (Promotion K)}
    (internal : ∃ body, node.body = .internal body) (absorbed : IndexTree.absorb node promotion = .ok node') :
    ∃ body, node'.body = .internal body := by
  obtain ⟨body, kind⟩ := internal
  cases promotion with
  | none =>
      cases absorbed
      exact ⟨body, kind⟩
  | some p =>
      simp only [IndexTree.absorb, IndexTree.promoteIntoInternal, kind] at absorbed
      split at absorbed
      · cases absorbed
      · cases absorbed
        exact ⟨_, rfl⟩

/-- The climb above the leaf reads nothing. -/
theorem climb_internal_notMissing {above : List (BTreeNode K)}
    (internal : ∀ n ∈ above, ∃ body, n.body = .internal body) (promotion : Option (Promotion K)) :
    NotMissing m (IndexTree.climb promotion above) := by
  induction above generalizing promotion m with
  | nil => exact notMissing_pure _
  | cons n above ih =>
      rw [List.forall_mem_cons] at internal
      rw [IndexTree.climb]
      refine (notMissing_lift (absorb_ne n promotion)).bind fun n₁ m₁ lifted => ?_
      obtain ⟨body, kind⟩ := absorb_internal internal.1 (runs_lift.mp lifted).1
      refine (notMissing_lift (wouldOverflow_ne n₁)).bind fun overflow m₂ _ => ?_
      split
      · refine (splitNode_notMissing ?_).bind fun r m₃ _ => ?_
        · intro leaf _ _ isLeaf
          rw [kind] at isLeaf
          cases isLeaf
        · exact (ih internal.2 (some r.2)).bind fun _ _ _ => notMissing_pure _
      · exact (ih internal.2 none).bind fun _ _ _ => notMissing_pure _

theorem flushAll_notMissing (path : List (BTreeNode K)) : NotMissing m (IndexTree.flushAll path) := by
  induction path generalizing m with
  | nil => exact notMissing_pure _
  | cons n path ih => exact (flush_notMissing n).bind fun _ _ _ => ih

theorem growRoot_notMissing (tree : IndexTree) (path : List (BTreeNode K)) (promotion : Option (Promotion K)) :
    NotMissing m (tree.growRoot path promotion) := by
  cases promotion with
  | none => exact notMissing_pure _
  | some p =>
      refine claimPage_notMissing.bind fun root m₁ _ => ?_
      exact (flush_notMissing _).bind fun _ _ _ => notMissing_pure _

end Nodes

section Path

variable {m : MemoryManager} {nodes : Nodes K} {height : Nat} {before after : Level K} {page : Nat}
  {upper : WithTop K} {key : K}

/-- The path of a key in memory: internal nodes down to a leaf of the tree. -/
theorem readPath_shape (fuel : Nat) (graded : Graded nodes height (before ++ (page, upper) :: after))
    (ascending : Ascending (leaves nodes height (before ++ (page, upper) :: after)))
    (routed : Routed key before upper)
    (holds : ∀ q ∈ nodePages nodes height (before ++ (page, upper) :: after), Holds m q (nodes q)) :
    NotMissing m (IndexTree.readPath key fuel page : Prog (List (BTreeNode K))) ∧
      ∀ path m', m.Runs (IndexTree.readPath key fuel page) path m' →
        ∃ ancestors leaf body, path = ancestors ++ [leaf] ∧ leaf.body = .leaf body ∧
          nodes leaf.page = .leaf body ∧
          leaf.page ∈ (leaves nodes height (before ++ (page, upper) :: after)).map Prod.fst ∧
          ∀ n ∈ ancestors, ∃ b, n.body = .internal b := by
  induction height generalizing before after page upper fuel with
  | zero =>
      obtain ⟨body, node⟩ := graded (page, upper) (by simp)
      cases fuel with
      | zero => exact ⟨fun m' fails => by simp [Fails, IndexTree.readPath] at fails, by simp [IndexTree.readPath]⟩
      | succ fuel =>
          have held := holds page (by simp [nodePages])
          rw [node] at held
          obtain ⟨header, _, read⟩ := held.read_runs
          have runs : m.Runs (IndexTree.readPath key (fuel + 1) page) [⟨page, header, .leaf body, false⟩] m :=
            runs_bind.mpr ⟨_, m, read, runs_pure.mpr ⟨rfl, rfl⟩⟩
          refine ⟨notMissing_of_runs runs, ?_⟩
          intro path m' other
          obtain ⟨rfl, rfl⟩ := other.det runs
          exact ⟨[], _, body, rfl, rfl, node, by simp [leaves], by simp⟩
  | succ height ih =>
      obtain ⟨body, node⟩ := graded.1 (page, upper) (by simp)
      cases fuel with
      | zero => exact ⟨fun m' fails => by simp [Fails, IndexTree.readPath] at fails, by simp [IndexTree.readPath]⟩
      | succ fuel =>
          have held := holds page (mem_nodePages nodes (height + 1) (x := (page, upper)) (by simp))
          rw [node] at held
          obtain ⟨header, _, read⟩ := held.read_runs
          obtain ⟨left, sep, rest, _, order, routed'⟩ :=
            routed.descend node (ascending.of_sublist (leaves_sublist graded.2))
          have lower := graded.2
          rw [leaves, order] at ascending
          rw [order] at lower
          obtain ⟨found, shape⟩ := ih fuel lower ascending routed'
            (fun q listed => holds q (List.mem_append_right _ (order ▸ listed)))
          rw [IndexTree.readPath]
          constructor
          · refine (notMissing_of_runs read).bind fun n m₁ run => ?_
            obtain ⟨rfl, rfl⟩ := run.det read
            exact found.bind fun _ _ _ => notMissing_pure _
          · intro path m' run
            obtain ⟨n, m₁, first, second⟩ := runs_bind.mp run
            obtain ⟨rfl, rfl⟩ := first.det read
            simp only [runs_bind, runs_pure] at second
            obtain ⟨lowerPath, m₂, lowerRun, rfl, rfl⟩ := second
            obtain ⟨ancestors, leaf, body', rfl, kind, leafNode, listed, internal⟩ := shape lowerPath m₂ lowerRun
            refine ⟨_ :: ancestors, leaf, body', rfl, kind, leafNode, ?_, ?_⟩
            · rw [leaves, order]
              exact listed
            · rw [List.forall_mem_cons]
              exact ⟨⟨body, rfl⟩, internal⟩

end Path

namespace IndexInv

variable {tree : IndexTree} {m : MemoryManager} {nodes : Nodes K} {height : Nat} {other : Nat → Prop}
  {key : K} {pointer : RecordAddress} {fuel : Nat}

/-- The leaf behind a leaf of the tree can be relinked after a claim. -/
theorem relinkNext_notMissing (inv : IndexInv tree m nodes height other) {leaf right : Nat}
    {body : LeafNodeBody K} {m₁ : MemoryManager} (node : nodes leaf = .leaf body)
    (listed : leaf ∈ leafPages nodes height tree) (claimed : m.Runs MemoryAccess.claimPage right m₁) :
    NotMissing m₁ (IndexTree.relinkNext (K := K) body.nextLeaf right) := by
  obtain ⟨front, back, split⟩ := List.append_of_mem listed
  have chain := inv.chain
  rw [split] at chain
  obtain ⟨body', node', _, _, following, _⟩ := chain.leaf_at
  rw [node] at node'
  cases node'
  rw [following]
  cases back with
  | nil => exact notMissing_pure _
  | cons next back =>
      have nextListed : next ∈ leafPages nodes height tree := by
        rw [split]
        simp
      have owned := leaf_page next nextListed
      have claim := inv.supply.claimPage_runs claimed
      obtain ⟨alloc, notReserved⟩ := inv.supply.owned_allocated next (.inl owned)
      have held := (inv.holds next owned).of_same claim.pages_le (claim.same next alloc notReserved)
      obtain ⟨header, _, read⟩ := held.read_runs
      refine (notMissing_of_runs read).bind fun n m₂ _ => ?_
      split
      · exact notMissing_pure _
      · exact (flush_notMissing _).bind fun _ _ _ => notMissing_pure _

/-- An insertion does not report a missing entry. -/
theorem insert_notMissing (inv : IndexInv tree m nodes height other) :
    NotMissing m (tree.insert fuel key pointer) := by
  have routed : Routed key [] (⊤ : WithTop K) := ⟨by simp, WithTop.coe_lt_top key⟩
  have graded : Graded nodes height ([] ++ (tree.rootPage, ⊤) :: []) := inv.graded
  obtain ⟨found, shape⟩ := readPath_shape fuel graded inv.ordered.ascending routed inv.holds
  refine found.bind fun path m₁ read => ?_
  obtain ⟨ancestors, leaf, body, rfl, kind, node, listed, internal⟩ := shape path m₁ read
  obtain rfl := readPath_keeps read
  rw [List.reverse_append, List.reverse_singleton, List.singleton_append]
  dsimp only
  have above : ∀ n ∈ ancestors.reverse, ∃ b, n.body = .internal b :=
    fun n member => internal n (List.mem_reverse.mp member)
  have climbed : NotMissing m
      (IndexTree.climb none (IndexTree.insertIntoLeaf leaf key pointer :: ancestors.reverse)) := by
    rw [IndexTree.climb]
    refine (notMissing_lift (absorb_ne _ none)).bind fun n₁ m₁ lifted => ?_
    obtain ⟨same, rfl⟩ := runs_lift.mp lifted
    cases same
    refine (notMissing_lift (wouldOverflow_ne _)).bind fun overflow m₂ lifted => ?_
    obtain ⟨_, rfl⟩ := runs_lift.mp lifted
    split
    · refine (splitNode_notMissing ?_).bind fun r m₃ _ =>
        (climb_internal_notMissing above _).bind fun _ _ _ => notMissing_pure _
      intro body' m₂ right isLeaf claimed
      rw [insertIntoLeaf_eq kind] at isLeaf
      cases isLeaf
      exact (inv.relinkNext_notMissing node listed claimed :)
    · exact (climb_internal_notMissing above _).bind fun _ _ _ => notMissing_pure _
  refine climbed.bind fun r m₂ _ => ?_
  refine (growRoot_notMissing _ _ _).bind fun s m₃ _ => ?_
  exact (flushAll_notMissing _).bind fun _ _ _ => notMissing_pure _

end IndexInv

end WasmDbms
