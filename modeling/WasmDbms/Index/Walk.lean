import WasmDbms.Index.Invariant

/-!
# The range scan

The cursor stands in a leaf of the chain. What is left for it is the rest of
that leaf and everything in the leaves behind it; a call takes one entry off
that list, whatever emptied leaves lie between, and stops at the end key.
-/
namespace WasmDbms
open Bisect MemoryManager

variable {K : Type} [Key K]

/-- The keys below the end of a range. -/
def beforeEnd (endKey : Option K) (e : LeafEntry K) : Bool := endKey.all fun last => decide (e.key < last)

/-- The keys of a range: from the start on, and below the end. -/
def inRange (startKey : K) (endKey : Option K) (e : LeafEntry K) : Bool :=
  decide (startKey ≤ e.key) && beforeEnd endKey e

theorem isPastEnd_eq (walker : IndexTreeWalker K) (e : LeafEntry K) :
    walker.isPastEnd e.key = !beforeEnd walker.endKey e := by
  unfold IndexTreeWalker.isPastEnd beforeEnd
  cases walker.endKey with
  | none => rfl
  | some last =>
      rw [Option.any_some, Option.all_some, ← decide_not, decide_eq_decide]
      exact Key.not_lt.symm

/-- Among sorted keys those below the end come first. -/
theorem takeWhile_beforeEnd (endKey : Option K) {entries : List (LeafEntry K)}
    (sorted : entries.Pairwise fun a b => a.key ≤ b.key) :
    entries.takeWhile (beforeEnd endKey) = entries.filter (beforeEnd endKey) := by
  induction entries with
  | nil => rfl
  | cons e rest ih =>
      rw [List.pairwise_cons] at sorted
      cases keep : beforeEnd endKey e with
      | true => rw [List.takeWhile_cons_of_pos keep, List.filter_cons_of_pos keep, ih sorted.2]
      | false =>
          have past : ∀ f ∈ rest, beforeEnd endKey f = false := by
            intro f member
            cases endKey with
            | none => cases keep
            | some last =>
                have reached : last ≤ e.key := Key.not_lt.mp (by simpa [beforeEnd] using keep)
                have beyond := Key.not_lt.mpr (reached.trans (sorted.1 f member))
                simpa [beforeEnd] using beyond
          rw [List.takeWhile_cons_of_neg (by simp [keep]), List.filter_cons_of_neg (by simp [keep])]
          exact (List.filter_eq_nil_iff.mpr fun f member => by simp [past f member]).symm

namespace IndexTreeWalker

variable {m : MemoryManager} {nodes : Nodes K} {walker : IndexTreeWalker K}

/-- The cursor stands in a leaf of the chain with this left to visit. -/
structure At (m : MemoryManager) (nodes : Nodes K) (walker : IndexTreeWalker K) (left : List (LeafEntry K))
    (before : List Nat) (page : Nat) (after : List Nat) : Prop where
  chain : Chain m nodes (before ++ page :: after)
  entries : walker.entries = leafEntries nodes page
  nextLeaf : walker.nextLeaf = after.head?
  left : left = walker.entries.drop walker.cursor ++ content nodes after

theorem At.sorted {left : List (LeafEntry K)} {before after : List Nat} {page : Nat}
    (here : At m nodes walker left before page after) : left.Pairwise fun a b => a.key ≤ b.key := by
  have sorted := here.chain.sorted
  rw [content_split] at sorted
  rw [here.left, here.entries]
  refine (List.pairwise_append.mp sorted).2.1.sublist ?_
  exact (List.drop_sublist _ _).append_right _

/-- The next leaf is loaded. -/
theorem At.load_next {left : List (LeafEntry K)} {before after : List Nat} {page next : Nat}
    (here : At m nodes walker left before page (next :: after))
    (finished : walker.entries[walker.cursor]? = none) : ∃ walker' : IndexTreeWalker K,
      m.Runs walker.loadNextLeaf (true, walker') m ∧ walker'.endKey = walker.endKey ∧
        At m nodes walker' left (before ++ [page]) next after := by
  have chain : Chain m nodes ((before ++ [page]) ++ next :: after) := by
    rw [List.append_assoc]
    exact here.chain
  obtain ⟨body, node, entries, _, following, held⟩ := chain.leaf_at
  obtain ⟨header, _, read⟩ := held.read_runs
  refine ⟨{ walker with entries := body.entries, cursor := 0, nextLeaf := body.nextLeaf }, ?_, rfl,
    chain, entries.symm, following, ?_⟩
  · unfold loadNextLeaf
    rw [here.nextLeaf]
    exact runs_bind.mpr ⟨_, m, read, runs_pure.mpr ⟨rfl, rfl⟩⟩
  · have used : walker.entries.drop walker.cursor = [] :=
      List.drop_eq_nil_of_le (List.getElem?_eq_none_iff.mp finished)
    rw [here.left, used, ← entries]
    rfl

/-- One call of the cursor. -/
theorem advance_runs {left : List (LeafEntry K)} {before after : List Nat} {page fuel : Nat}
    (here : At m nodes walker left before page after) (enough : after.length < fuel) :
    ∃ walker' : IndexTreeWalker K,
      m.Runs (walker.advance fuel) ((left.takeWhile (beforeEnd walker.endKey)).head?, walker') m ∧
      walker'.endKey = walker.endKey ∧
      ∀ e rest, left = e :: rest → beforeEnd walker.endKey e = true →
        ∃ before' page' after', At m nodes walker' rest before' page' after' ∧ after'.length ≤ after.length := by
  induction fuel generalizing walker before page after with
  | zero => omega
  | succ fuel ih =>
      rw [advance]
      cases found : walker.entries[walker.cursor]? with
      | some e =>
          have step : walker.entries.drop walker.cursor = e :: walker.entries.drop (walker.cursor + 1) := by
            obtain ⟨inside, same⟩ := List.getElem?_eq_some_iff.mp found
            rw [← same]
            exact List.drop_eq_getElem_cons inside
          have order : left = e :: (walker.entries.drop (walker.cursor + 1) ++ content nodes after) := by
            rw [here.left, step, List.cons_append]
          dsimp only
          rw [isPastEnd_eq, order]
          cases keep : beforeEnd walker.endKey e with
          | true =>
              rw [List.takeWhile_cons_of_pos keep]
              refine ⟨{ walker with cursor := walker.cursor + 1 }, runs_pure.mpr ⟨rfl, rfl⟩, rfl, ?_⟩
              intro e' rest equal _
              cases equal
              exact ⟨before, page, after, ⟨here.chain, here.entries, here.nextLeaf, rfl⟩, Nat.le_refl _⟩
          | false =>
              rw [List.takeWhile_cons_of_neg (by simp [keep])]
              refine ⟨walker, runs_pure.mpr ⟨rfl, rfl⟩, rfl, ?_⟩
              intro e' rest equal keep'
              cases equal
              rw [keep] at keep'
              cases keep'
      | none =>
          cases after with
          | nil =>
              have empty : left = [] := by
                rw [here.left, List.drop_eq_nil_of_le (List.getElem?_eq_none_iff.mp found)]
                rfl
              have stuck : m.Runs walker.loadNextLeaf (false, walker) m := by
                unfold loadNextLeaf
                rw [here.nextLeaf]
                exact runs_pure.mpr ⟨rfl, rfl⟩
              subst empty
              refine ⟨walker, runs_bind.mpr ⟨_, m, stuck, runs_pure.mpr ⟨rfl, rfl⟩⟩, rfl, ?_⟩
              intro e rest equal
              cases equal
          | cons next after =>
              obtain ⟨walker₁, loaded, endKey, there⟩ := here.load_next found
              obtain ⟨walker', runs, endKey', onward⟩ := ih there (Nat.lt_of_succ_lt_succ enough)
              rw [endKey] at runs endKey' onward
              refine ⟨walker', runs_bind.mpr ⟨_, m, loaded, runs⟩, endKey', ?_⟩
              intro e rest equal keep
              obtain ⟨before', page', after', at', shorter⟩ := onward e rest equal keep
              exact ⟨before', page', after', at', Nat.le_succ_of_le shorter⟩

/-- The cursor called until it stops visits what is left below the end key. -/
theorem drain_runs {α : Type} {f : LeafEntry K → α} {step : IndexTreeWalker K → Prog (Option α × IndexTreeWalker K)}
    {fuel rounds : Nat} (steps : ∀ walker, step walker = do
      let (entry, walker) ← walker.advance fuel
      return (entry.map f, walker)) {left : List (LeafEntry K)} {before after : List Nat} {page : Nat}
    (here : At m nodes walker left before page after) (enough : after.length < fuel)
    (long : left.length < rounds) :
    m.Runs (drain step rounds walker) ((left.takeWhile (beforeEnd walker.endKey)).map f) m := by
  induction rounds generalizing walker left before page after with
  | zero => omega
  | succ rounds ih =>
      obtain ⟨walker', runs, endKey, onward⟩ := advance_runs here enough
      have stepped : m.Runs (step walker)
          ((left.takeWhile (beforeEnd walker.endKey)).head?.map f, walker') m := by
        rw [steps]
        exact runs_bind.mpr ⟨_, m, runs, runs_pure.mpr ⟨rfl, rfl⟩⟩
      rw [drain]
      refine runs_bind.mpr ⟨_, m, stepped, ?_⟩
      cases left with
      | nil => exact runs_pure.mpr ⟨rfl, rfl⟩
      | cons e rest =>
          cases keep : beforeEnd walker.endKey e with
          | true =>
              rw [List.takeWhile_cons_of_pos keep]
              obtain ⟨before', page', after', there, shorter⟩ := onward e rest rfl keep
              have remaining := ih there (Nat.lt_of_le_of_lt shorter enough) (Nat.lt_of_succ_lt_succ long)
              rw [endKey] at remaining
              exact runs_bind.mpr ⟨_, m, remaining, runs_pure.mpr ⟨rfl, rfl⟩⟩
          | false =>
              rw [List.takeWhile_cons_of_neg (by simp [keep])]
              exact runs_pure.mpr ⟨rfl, rfl⟩

end IndexTreeWalker

namespace IndexInv

variable {tree : IndexTree} {m : MemoryManager} {nodes : Nodes K} {height : Nat} {other : Nat → Prop}

/-- The cursor of a range scan starts before the first key of the range. -/
theorem rangeScan_runs (inv : IndexInv tree m nodes height other) (startKey : K) (endKey : Option K)
    {fuel : Nat} (deep : height < fuel) (wide : (leafPages nodes height tree).length ≤ fuel) :
    ∃ (walker : IndexTreeWalker K) (before : List Nat) (page : Nat) (after : List Nat),
      m.Runs (tree.rangeScan fuel startKey endKey) walker m ∧ walker.endKey = endKey ∧ after.length < fuel ∧
      IndexTreeWalker.At m nodes walker
        ((entries nodes height tree).filter fun e => decide (startKey ≤ e.key)) before page after := by
  obtain ⟨before, page, after, header, split, passed, reached, _, runs⟩ := inv.findSearchStartLeaf_runs startKey deep wide
  have chain := inv.chain
  rw [split] at chain
  obtain ⟨body, node, inLeaf, _, following, _⟩ := chain.leaf_at
  have short : after.length < fuel := by
    have counted := congrArg List.length split
    rw [List.length_append, List.length_cons] at counted
    omega
  have sorted := chain.inner_sorted
  rw [inLeaf] at sorted
  have parted : Partitioned (fun e : LeafEntry K => decide (e.key < startKey)) body.entries := by
    refine sorted.imp ?_
    intro a b ordered below
    exact decide_eq_true (lt_of_le_of_lt ordered (of_decide_eq_true below))
  obtain ⟨inside, low, high⟩ := partitionPoint_spec parted
  have dropped : ∀ es : List (LeafEntry K), (∀ e ∈ es, e.key < startKey) →
      es.filter (fun e => decide (startKey ≤ e.key)) = [] := by
    intro es below
    refine List.filter_eq_nil_iff.mpr fun e member reached => ?_
    exact (lt_iff_le_not_ge.mp (below e member)).2 (of_decide_eq_true reached)
  have kept : ∀ es : List (LeafEntry K), (∀ e ∈ es, startKey ≤ e.key) →
      es.filter (fun e => decide (startKey ≤ e.key)) = es := by
    intro es above
    exact List.filter_eq_self.mpr fun e member => decide_eq_true (above e member)
  have from_start : (entries nodes height tree).filter (fun e => decide (startKey ≤ e.key)) =
      body.entries.drop (partitionPoint (fun e => decide (e.key < startKey)) body.entries) ++ content nodes after := by
    unfold entries
    rw [split, content_split, inLeaf, List.filter_append, List.filter_append, dropped _ passed, kept _ reached]
    conv_lhs => rw [← List.take_append_drop (partitionPoint (fun e => decide (e.key < startKey)) body.entries)
      body.entries]
    rw [List.filter_append, dropped _ (fun e member => of_decide_eq_true (low e member)),
      kept _ (fun e member => Key.not_lt.mp (of_decide_eq_false (high e member)))]
    rfl
  refine ⟨⟨body.entries, partitionPoint (fun e => decide (e.key < startKey)) body.entries, body.nextLeaf, endKey⟩,
    before, page, after, ?_, rfl, short, chain, inLeaf.symm, following, from_start⟩
  refine runs_bind.mpr ⟨_, m, runs, ?_⟩
  dsimp only
  rw [node]
  exact runs_pure.mpr ⟨rfl, rfl⟩

/-- A range scan visits the entries of the range in order and stops. -/
theorem rangeScan_drain (inv : IndexInv tree m nodes height other) (startKey : K) (endKey : Option K)
    {fuel : Nat} (deep : height < fuel) (wide : (leafPages nodes height tree).length ≤ fuel) :
    ∃ walker : IndexTreeWalker K, m.Runs (tree.rangeScan fuel startKey endKey) walker m ∧
      ∀ rounds, (entries nodes height tree).length < rounds →
        m.Runs (IndexTreeWalker.drain (IndexTreeWalker.next fuel) rounds walker)
          (((entries nodes height tree).filter (inRange startKey endKey)).map LeafEntry.pointer) m ∧
        m.Runs (IndexTreeWalker.drain (IndexTreeWalker.nextEntry fuel) rounds walker)
          (((entries nodes height tree).filter (inRange startKey endKey)).map fun e => (e.key, e.pointer)) m := by
  obtain ⟨walker, before, page, after, runs, rfl, short, here⟩ := inv.rangeScan_runs startKey endKey deep wide
  have scanned : (entries nodes height tree).filter (inRange startKey walker.endKey) =
      ((entries nodes height tree).filter fun e => decide (startKey ≤ e.key)).takeWhile
        (beforeEnd walker.endKey) := by
    rw [takeWhile_beforeEnd _ here.sorted, List.filter_filter]
    refine List.filter_congr fun e _ => ?_
    exact Bool.and_comm _ _
  refine ⟨walker, runs, fun rounds long => ?_⟩
  have fewer := Nat.lt_of_le_of_lt (List.length_filter_le (fun e : LeafEntry K => decide (startKey ≤ e.key))
    (entries nodes height tree)) long
  rw [scanned]
  exact ⟨IndexTreeWalker.drain_runs (fun _ => rfl) here short fewer,
    IndexTreeWalker.drain_runs (fun _ => rfl) here short fewer⟩

end IndexInv

end WasmDbms
