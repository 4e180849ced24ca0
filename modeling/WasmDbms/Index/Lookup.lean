import Mathlib.Data.List.Induction
import Mathlib.Data.List.TakeWhile
import WasmDbms.Index.Chain

/-!
# Finding keys

The descent reaches a leaf, the walk back stops at a leaf with nothing of the
key before it, and `search` and `delete` go forward from there.
-/
namespace WasmDbms
open Bisect MemoryManager

variable {K : Type} [Key K]

section Descent

variable {m : MemoryManager} {nodes : Nodes K}

/-- The view of an internal node routes a key as the node does. -/
theorem childFor_eq {body : InternalNodeBody K} (fits : (NodeBody.internal body).Fits)
    (range : (NodeBody.internal body).InRange) (parentPage : Option Nat) (key : K)
    (parted : Partitioned (fun e : InternalEntry K => decide (e.key ≤ key)) body.entries) :
    ((NodeBody.internal body).view parentPage).childFor key = .ok (some (IndexTree.findChild body key)) := by
  have length : ((NodeBody.internal body).view parentPage).len = body.entries.length := by
    rw [view_len, NodeBody.items, List.length_map]
  have item : ∀ {i : Nat} {e : InternalEntry K}, body.entries[i]? = some e →
      (NodeBody.internal body).items[i]? = some e.item := by
    intro i e found
    simp [NodeBody.items, found]
  have keys : ∀ i < body.entries.length, (do return decide ((← ((NodeBody.internal body).view
      parentPage).key i) ≤ key) : Except Fault Bool) =
        .ok ((body.entries[i]?.map fun e => decide (e.key ≤ key)).getD false) := by
    intro i inside
    have here := List.getElem?_eq_getElem inside
    have found := item here
    rw [view_key fits parentPage found (Key.readable _ (fits.key_lt (List.mem_of_getElem? found))), here]
    rfl
  have point : ((NodeBody.internal body).view parentPage).partitionPoint (fun entry => decide (entry ≤ key)) =
      .ok (partitionPoint (fun e : InternalEntry K => decide (e.key ≤ key)) body.entries) := by
    unfold NodeView.partitionPoint
    rw [length]
    exact bisect_eq parted keys
  unfold NodeView.childFor IndexTree.findChild
  change (((NodeBody.internal body).view parentPage).partitionPoint (fun entry => decide (entry ≤ key)) >>=
    fun index => if index < ((NodeBody.internal body).view parentPage).len then
      ((NodeBody.internal body).view parentPage).keyRange index >>= fun range =>
        pure (some (Entries.field ((NodeBody.internal body).pageImage parentPage) range.2 4))
    else pure (some body.rightmostChild) : Except Fault (Option Nat)) = _
  rw [point, length]
  generalize partitionPoint (fun e : InternalEntry K => decide (e.key ≤ key)) body.entries = r
  by_cases inside : r < body.entries.length
  · have found := List.getElem?_eq_getElem inside
    obtain ⟨start, keyRange, _, tail⟩ := view_entry fits parentPage (item found)
    have four : (body.entries[r]).item.tail.length = 4 := ByteString.toLE_length _ _
    rw [four] at tail
    have child : Entries.field ((NodeBody.internal body).pageImage parentPage)
        (start + (body.entries[r]).item.key.length) 4 = (body.entries[r]).childPage := by
      rw [Entries.field, tail]
      exact ByteString.ofLE_toLE_of_lt (range.2 _ (List.getElem_mem inside))
    change (if r < body.entries.length then _ else _) = _
    rw [if_pos inside, keyRange, found]
    exact congrArg (fun page => Except.ok (some page)) child
  · change (if r < body.entries.length then _ else _) = _
    rw [if_neg inside, List.getElem?_eq_none (Nat.le_of_not_lt inside)]
    rfl

/-- The descent ends in the leaf the key routes to. -/
theorem findLeafPageInto_runs {key : K} {height fuel : Nat} {before after : Level K} {page : Nat}
    {upper : WithTop K} (graded : Graded nodes height (before ++ (page, upper) :: after))
    (ascending : Ascending (leaves nodes height (before ++ (page, upper) :: after)))
    (routed : Routed key before upper)
    (holds : ∀ q ∈ nodePages nodes height (before ++ (page, upper) :: after), Holds m q (nodes q))
    (enough : height < fuel) :
    ∃ left leaf sep right parentPage,
      leaves nodes height (before ++ (page, upper) :: after) = left ++ (leaf, sep) :: right ∧
      Routed key left sep ∧
      m.Runs (IndexTree.findLeafPageInto key fuel page) (leaf, (nodes leaf).pageImage parentPage) m := by
  induction height generalizing before after page upper fuel with
  | zero =>
      obtain ⟨fuel, rfl⟩ : ∃ n, fuel = n + 1 := ⟨fuel - 1, by omega⟩
      obtain ⟨body, node⟩ := graded (page, upper) (by simp)
      obtain ⟨parentPage, read⟩ := (holds page (by simp [nodePages])).readPage_runs
      refine ⟨before, page, upper, after, parentPage, rfl, routed, ?_⟩
      unfold IndexTree.findLeafPageInto
      refine runs_bind.mpr ⟨_, m, read, ?_⟩
      rw [node, isLeafPage_leaf, if_pos rfl]
      exact runs_pure.mpr ⟨rfl, rfl⟩
  | succ height ih =>
      obtain ⟨fuel, rfl⟩ : ∃ n, fuel = n + 1 := ⟨fuel - 1, by omega⟩
      obtain ⟨body, node⟩ := graded.1 (page, upper) (by simp)
      have held := holds page (mem_nodePages nodes (height + 1) (x := (page, upper)) (by simp))
      obtain ⟨parentPage, read⟩ := held.readPage_runs
      rw [node] at held read
      have below : Ascending ((before ++ (page, upper) :: after).flatMap (fan nodes)) :=
        ascending.of_sublist (leaves_sublist graded.2)
      obtain ⟨left, sep, rest, split, order, routed'⟩ := routed.descend node below
      have sorted : Ascending (body.fan upper) := by
        refine below.sublist ?_
        rw [List.flatMap_append, List.flatMap_cons]
        have here : fan nodes (page, upper) = body.fan upper := by
          unfold fan
          rw [node]
        rw [here]
        exact (List.sublist_append_left _ _).trans (List.sublist_append_right _ _)
      have child := childFor_eq held.fits held.range parentPage key (body.parted key sorted)
      have lower := graded.2
      rw [leaves, order] at ascending
      rw [order] at lower
      obtain ⟨left', leaf, sep', right, parent, found, inner, runs⟩ := ih lower ascending routed'
        (fun q listed => holds q (List.mem_append_right _ (order ▸ listed))) (Nat.lt_of_succ_lt_succ enough)
      refine ⟨left', leaf, sep', right, parent, by rw [leaves, order, found], inner, ?_⟩
      unfold IndexTree.findLeafPageInto
      refine runs_bind.mpr ⟨_, m, read, ?_⟩
      rw [isLeafPage_internal, if_neg (by simp)]
      refine runs_bind.mpr ⟨_, m, runs_lift.mpr ⟨parse_pageImage held.fits held.range parentPage, rfl⟩, ?_⟩
      exact runs_bind.mpr ⟨_, m, runs_lift.mpr ⟨child, rfl⟩, runs⟩

end Descent

section Back

variable {m : MemoryManager} {nodes : Nodes K}

/-- No entry of these leaves reaches the key. -/
def Passed (nodes : Nodes K) (pages : List Nat) (key : K) : Prop := ∀ e ∈ content nodes pages, e.key < key

/-- Every entry of these leaves reaches the key. -/
def Reached (nodes : Nodes K) (pages : List Nat) (key : K) : Prop := ∀ e ∈ content nodes pages, key ≤ e.key

/-- The search for an earlier leaf that may hold the key: it finds one, or everything before is passed. -/
theorem skipEmptied_runs (key : K) {before : List Nat} (after : List Nat)
    (chain : Chain m nodes (before ++ after)) {fuel : Nat} (enough : before.length ≤ fuel) :
    (m.Runs (IndexTree.skipEmptied key fuel before.getLast?) none m ∧ Passed nodes before key) ∨
    ∃ front page back parentPage, before = front ++ page :: back ∧
      (∃ e ∈ leafEntries nodes page, key ≤ e.key) ∧
      m.Runs (IndexTree.skipEmptied key fuel before.getLast?)
        (some (page, (nodes page).pageImage parentPage)) m := by
  -- the leaves before are taken off from the right
  induction before using List.reverseRecOn generalizing fuel after with
  | nil =>
      refine .inl ⟨?_, by simp [Passed, content]⟩
      cases fuel <;> exact runs_pure.mpr ⟨rfl, rfl⟩
  | append_singleton front page ih =>
      obtain ⟨fuel, rfl⟩ : ∃ n, fuel = n + 1 :=
        ⟨fuel - 1, by rw [List.length_append, List.length_singleton] at enough; omega⟩
      rw [List.append_assoc, List.singleton_append] at chain
      obtain ⟨body, node, entries, prev, _, held⟩ := chain.leaf_at
      obtain ⟨parentPage, read⟩ := held.readPage_runs
      have length : ((NodeBody.leaf body).view parentPage).len = body.entries.length := by
        rw [view_len, NodeBody.items, List.length_map]
      rw [List.getLast?_append_of_ne_nil _ (by simp), List.getLast?_singleton]
      unfold IndexTree.skipEmptied
      have stepped : ∀ result, m.Runs (if ((NodeBody.leaf body).view parentPage).len = 0 then
            IndexTree.skipEmptied key fuel ((NodeBody.leaf body).view parentPage).prevLeaf
          else do
            let last ← Prog.lift (((NodeBody.leaf body).view parentPage).key
              (((NodeBody.leaf body).view parentPage).len - 1))
            if key ≤ last then return some (page, (NodeBody.leaf body).pageImage parentPage)
            else return none) result m →
          m.Runs (do
            let buf ← BTreeNode.readPage page
            let view ← Prog.lift (NodeView.parse buf)
            if view.len = 0 then IndexTree.skipEmptied key fuel view.prevLeaf
            else do
              let last ← Prog.lift (view.key (view.len - 1))
              if key ≤ last then return some (page, buf) else return none) result m := by
        intro result runs
        refine runs_bind.mpr ⟨_, m, read, runs_bind.mpr ⟨_, m, runs_lift.mpr
          ⟨parse_pageImage held.fits held.range parentPage, rfl⟩, runs⟩⟩
      rw [length] at stepped
      cases last : body.entries.getLast? with
      | none =>
          have empty : body.entries = [] := List.getLast?_eq_none_iff.mp last
          rw [if_pos (by rw [empty]; rfl)] at stepped
          have link : ((NodeBody.leaf body).view parentPage).prevLeaf = front.getLast? := prev
          rw [link] at stepped
          have shorter : front.length ≤ fuel := by
            rw [List.length_append, List.length_singleton] at enough
            omega
          rcases ih (page :: after) chain shorter with
            ⟨runs, passed⟩ | ⟨front', found, back, parent, split, high, runs⟩
          · refine .inl ⟨stepped _ runs, ?_⟩
            intro e member
            rw [content, List.flatMap_append, List.mem_append] at member
            rcases member with early | here
            · exact passed e early
            · simp [entries, empty] at here
          · exact .inr ⟨front', found, back ++ [page], parent, by rw [split]; simp, high, stepped _ runs⟩
      | some e =>
          have filled : body.entries ≠ [] := by
            rintro empty
            simp [empty] at last
          have position : body.entries[body.entries.length - 1]? = some e := by
            rw [← last, List.getLast?_eq_getElem?]
          rw [if_neg (by simpa using filled)] at stepped
          have decoded := leaf_view_key held.fits parentPage position
          have listed : e ∈ leafEntries nodes page := by
            rw [entries]
            exact List.mem_of_getLast? last
          by_cases reaches : key ≤ e.key
          · refine .inr ⟨front, page, [], parentPage, rfl, ⟨e, listed, reaches⟩, stepped _ ?_⟩
            refine runs_bind.mpr ⟨e.key, m, runs_lift.mpr ⟨decoded, rfl⟩, ?_⟩
            rw [if_pos reaches, node]
            exact runs_pure.mpr ⟨rfl, rfl⟩
          · refine .inl ⟨stepped _ ?_, ?_⟩
            · refine runs_bind.mpr ⟨e.key, m, runs_lift.mpr ⟨decoded, rfl⟩, ?_⟩
              rw [if_neg reaches]
              exact runs_pure.mpr ⟨rfl, rfl⟩
            · have below := Key.not_le.mp reaches
              intro f member
              rw [content, List.flatMap_append, List.mem_append] at member
              rcases member with early | here
              · exact lt_of_le_of_lt (chain.before_le early listed) below
              · rw [List.flatMap_singleton] at here
                refine lt_of_le_of_lt ?_ below
                obtain ⟨init, ending⟩ := List.getLast?_eq_some_iff.mp last
                have sorted := chain.inner_sorted
                rw [entries, ending] at sorted here
                rcases List.mem_append.mp here with inner | final
                · exact (List.pairwise_append.mp sorted).2.2 f inner e (List.mem_singleton_self _)
                · rw [List.mem_singleton.mp final]

/-- The walk back stops at a leaf with nothing of the key before it. -/
theorem walkBack_runs (key : K) {pages before after : List Nat} {page : Nat} (parentPage : Option Nat)
    (chain : Chain m nodes pages) (split : pages = before ++ page :: after) (beyond : Reached nodes after key)
    {fuel : Nat} (enough : before.length < fuel) :
    ∃ before' page' after' parent', pages = before' ++ page' :: after' ∧ Passed nodes before' key ∧
      Reached nodes after' key ∧ m.Runs (IndexTree.walkBack key fuel page ((nodes page).pageImage parentPage))
        (page', (nodes page').pageImage parent') m := by
  induction fuel generalizing before page after parentPage with
  | zero => omega
  | succ fuel ih =>
      subst split
      obtain ⟨body, node, entries, prev, _, held⟩ := chain.leaf_at
      have link : ((NodeBody.leaf body).view parentPage).prevLeaf = before.getLast? := prev
      rw [node]
      by_cases early : (body.entries.head?.map LeafEntry.key).any (fun first => decide (first < key)) = true
      · unfold IndexTree.walkBack
        refine ⟨before, page, after, parentPage, rfl, ?_, beyond, runs_bind.mpr ⟨_, m, runs_lift.mpr
          ⟨firstLeafKey_pageImage held.fits held.range parentPage, rfl⟩, ?_⟩⟩
        · cases list : body.entries with
          | nil => simp [list] at early
          | cons e rest =>
              have below : e.key < key := by simpa [list] using early
              intro f member
              refine lt_of_le_of_lt (chain.before_le member ?_) below
              rw [entries, list]
              exact List.mem_cons_self
        · rw [if_pos early, node]
          exact runs_pure.mpr ⟨rfl, rfl⟩
      · have stepped : ∀ found result, m.Runs (IndexTree.skipEmptied key fuel before.getLast?) found m →
            m.Runs (found.elim
              (if before.getLast?.isSome then BTreeNode.readPage page >>= fun buf => pure (page, buf)
                else pure (page, (NodeBody.leaf body).pageImage parentPage))
              fun leaf => IndexTree.walkBack key fuel leaf.1 leaf.2) result m →
            m.Runs (IndexTree.walkBack key (fuel + 1) page ((NodeBody.leaf body).pageImage parentPage)) result m := by
          intro found result skipped runs
          unfold IndexTree.walkBack
          refine runs_bind.mpr ⟨_, m, runs_lift.mpr
            ⟨firstLeafKey_pageImage held.fits held.range parentPage, rfl⟩, ?_⟩
          rw [if_neg early]
          refine runs_bind.mpr ⟨_, m, runs_lift.mpr
            ⟨parse_pageImage held.fits held.range parentPage, rfl⟩, ?_⟩
          rw [link]
          refine runs_bind.mpr ⟨found, m, skipped, ?_⟩
          cases found <;> exact runs
        rcases skipEmptied_runs key (page :: after) chain (Nat.le_of_lt_succ enough) with
          ⟨skipped, passed⟩ | ⟨front, found, back, parent, split, ⟨e, listed, high⟩, skipped⟩
        · obtain ⟨parent, read⟩ := held.readPage_runs
          by_cases first : before.getLast?.isSome = true
          · refine ⟨before, page, after, parent, rfl, passed, beyond, stepped none _ skipped ?_⟩
            rw [Option.elim_none, if_pos first, node]
            exact runs_bind.mpr ⟨_, m, read, runs_pure.mpr ⟨rfl, rfl⟩⟩
          · refine ⟨before, page, after, parentPage, rfl, passed, beyond, stepped none _ skipped ?_⟩
            rw [Option.elim_none, if_neg first, node]
            exact runs_pure.mpr ⟨rfl, rfl⟩
        · have shorter : front.length < fuel := by
            have counted := congrArg List.length split
            rw [List.length_append, List.length_cons] at counted
            omega
          have moved : before ++ page :: after = front ++ found :: (back ++ page :: after) := by
            rw [split, List.append_assoc, List.cons_append]
          have onward : Reached nodes (back ++ page :: after) key := by
            intro f member
            rw [moved] at chain
            exact high.trans (chain.le_after listed member)
          obtain ⟨before', page', after', parent', order, passed, reached, runs⟩ := ih parent moved onward shorter
          exact ⟨before', page', after', parent', order, passed, reached, stepped _ _ skipped runs⟩

end Back

section Forward

variable {m : MemoryManager} {nodes : Nodes K}

/-- The entries with a key. -/
def matching (key : K) (entries : List (LeafEntry K)) : List (LeafEntry K) :=
  entries.filter fun e => Key.same e.key key

theorem same_iff {a b : K} : Key.same a b = true ↔ a ≤ b ∧ b ≤ a := by
  simp [Key.same]

theorem matching_of_lt {key : K} {entries : List (LeafEntry K)} (below : ∀ e ∈ entries, e.key < key) :
    matching key entries = [] := by
  apply List.filter_eq_nil_iff.mpr
  intro e member same
  exact (lt_iff_le_not_ge.mp (below e member)).2 (same_iff.mp same).2

theorem matching_of_gt {key : K} {entries : List (LeafEntry K)} (above : ∀ e ∈ entries, key < e.key) :
    matching key entries = [] := by
  apply List.filter_eq_nil_iff.mpr
  intro e member same
  exact (lt_iff_le_not_ge.mp (above e member)).2 (same_iff.mp same).1

/-- Among sorted keys from the key on, the equal ones come first. -/
theorem matching_eq_takeWhile {key : K} {entries : List (LeafEntry K)}
    (sorted : entries.Pairwise fun a b => a.key ≤ b.key) (reached : ∀ e ∈ entries, key ≤ e.key) :
    matching key entries = entries.takeWhile fun e => Key.same e.key key := by
  induction entries with
  | nil => rfl
  | cons e rest ih =>
      rw [List.pairwise_cons] at sorted
      rw [List.forall_mem_cons] at reached
      cases equal : Key.same e.key key with
      | true =>
          have inner := ih sorted.2 reached.2
          unfold matching at inner ⊢
          simp only [List.filter_cons, List.takeWhile_cons, equal, if_true, inner]
      | false =>
          have above : key < e.key := by
            refine Key.not_le.mp fun le => ?_
            rw [same_iff.mpr ⟨le, reached.1⟩] at equal
            cases equal
          have rest_above : ∀ f ∈ e :: rest, key < f.key := by
            rw [List.forall_mem_cons]
            exact ⟨above, fun f member => lt_of_lt_of_le above (sorted.1 f member)⟩
          rw [matching_of_gt rest_above, List.takeWhile_cons_of_neg (by simp [equal])]

/-- What one leaf contributes to a search. -/
theorem collectLeaf_eq (key : K) (parentPage : Option Nat) {limit : Nat} {body : LeafNodeBody K}
    (fits : (NodeBody.leaf body).Fits) (range : (NodeBody.leaf body).InRange) {n start : Nat}
    {results : List RecordAddress} {rest : List (LeafEntry K)} (left : body.entries.drop start = rest)
    (count : n = rest.length)
    (room : results.length + (rest.takeWhile fun e => Key.same e.key key).length ≤ limit) :
    IndexTree.collectLeaf key limit ((NodeBody.leaf body).view parentPage) n start results =
      .ok (if rest.all (fun e => Key.same e.key key) then .inr (results ++ rest.map LeafEntry.pointer)
        else .inl (some (results ++ (rest.takeWhile fun e => Key.same e.key key).map LeafEntry.pointer))) := by
  induction n generalizing start results rest with
  | zero =>
      have empty : rest = [] := List.length_eq_zero_iff.mp count.symm
      subst empty
      simp [IndexTree.collectLeaf]
  | succ n ih =>
      obtain ⟨e, tail, rfl⟩ : ∃ e tail, rest = e :: tail :=
        List.exists_cons_of_ne_nil (List.ne_nil_of_length_eq_add_one count.symm)
      have found : body.entries[start]? = some e := by
        rw [← List.head?_drop, left]
        rfl
      have next : body.entries.drop (start + 1) = tail := by
        rw [← List.drop_drop, left]
        rfl
      unfold IndexTree.collectLeaf
      rw [leaf_view_key fits parentPage found, leaf_view_pointer fits range parentPage found]
      cases equal : Key.same e.key key with
      | false =>
          have stop : (e :: tail).takeWhile (fun e => Key.same e.key key) = [] :=
            List.takeWhile_cons_of_neg (by simp [equal])
          rw [stop]
          simp [bind, Except.bind, equal, pure, Except.pure]
      | true =>
          have take : (e :: tail).takeWhile (fun e => Key.same e.key key) =
              e :: tail.takeWhile fun e => Key.same e.key key := List.takeWhile_cons_of_pos equal
          rw [take, List.length_cons] at room
          have grown : (results ++ [e.pointer]).length +
              (tail.takeWhile fun e => Key.same e.key key).length ≤ limit := by
            rw [List.length_append, List.length_singleton]
            omega
          have recursive := ih next (Nat.succ.inj count) grown
          have notFull : ¬ results.length = limit := by omega
          simp only [bind, Except.bind, equal, Bool.true_eq_false, if_false, notFull, recursive, take]
          simp [equal]

/-- A search forward from a leaf returns everything from there on that has the key. -/
theorem collect_runs {key : K} {limit fuel : Nat} {before after : List Nat} {page : Nat}
    {parentPage : Option Nat} {results : List RecordAddress}
    (chain : Chain m nodes (before ++ page :: after)) (enough : after.length < fuel)
    (room : results.length + (matching key (content nodes (page :: after))).length ≤ limit) :
    m.Runs (IndexTree.collect key limit fuel ((nodes page).pageImage parentPage) results)
      (some (results ++ (matching key (content nodes (page :: after))).map LeafEntry.pointer)) m := by
  induction fuel generalizing before page after parentPage results with
  | zero => omega
  | succ fuel ih =>
      obtain ⟨body, node, entries, _, following, held⟩ := chain.leaf_at
      have sorted := chain.inner_sorted
      rw [entries] at sorted
      have parted : Partitioned (fun e : LeafEntry K => decide (e.key < key)) body.entries := by
        refine sorted.imp ?_
        intro a b ordered below
        exact decide_eq_true (lt_of_le_of_lt ordered (of_decide_eq_true below))
      obtain ⟨start, point, inside, low, high⟩ :=
        leaf_view_partitionPoint held.fits parentPage (fun k => decide (k < key)) parted
      have length : ((NodeBody.leaf body).view parentPage).len - start = (body.entries.drop start).length := by
        rw [view_len, NodeBody.items, List.length_map, List.length_drop]
      have reached : ∀ e ∈ body.entries.drop start, key ≤ e.key :=
        fun e member => Key.not_lt.mp (of_decide_eq_false (high e member))
      have here : matching key body.entries =
          (body.entries.drop start).takeWhile fun e => Key.same e.key key := by
        conv_lhs => rw [← List.take_append_drop start body.entries]
        unfold matching
        rw [List.filter_append]
        have none_below := matching_of_lt fun e member => of_decide_eq_true (low e member)
        have from_start := matching_eq_takeWhile (sorted.sublist (List.drop_sublist start _)) reached
        unfold matching at none_below from_start
        rw [none_below, from_start, List.nil_append]
      have whole : matching key (content nodes (page :: after)) =
          matching key body.entries ++ matching key (content nodes after) := by
        unfold content matching
        rw [List.flatMap_cons, List.filter_append, entries]
      rw [whole, List.length_append, here] at room
      have enoughRoom : results.length +
          ((body.entries.drop start).takeWhile fun e => Key.same e.key key).length ≤ limit := by omega
      have collected := collectLeaf_eq key parentPage held.fits held.range rfl length enoughRoom
      unfold IndexTree.collect
      rw [node]
      refine runs_bind.mpr ⟨_, m, runs_lift.mpr ⟨parse_pageImage held.fits held.range parentPage, rfl⟩, ?_⟩
      rw [if_neg (show ¬ ((NodeBody.leaf body).view parentPage).isLeaf = false by simp [NodeView.isLeaf, NodeBody.view])]
      refine runs_bind.mpr ⟨start, m, runs_lift.mpr ⟨point, rfl⟩, ?_⟩
      refine runs_bind.mpr ⟨_, m, runs_lift.mpr ⟨collected, rfl⟩, ?_⟩
      rw [whole, here]
      by_cases all : (body.entries.drop start).all (fun e => Key.same e.key key) = true
      · have everything : (body.entries.drop start).takeWhile (fun e => Key.same e.key key) =
            body.entries.drop start := List.takeWhile_eq_self_iff.mpr (List.all_eq_true.mp all)
        rw [if_pos all]
        dsimp only
        have link : ((NodeBody.leaf body).view parentPage).nextLeaf = after.head? := following
        rw [link, everything]
        rw [everything] at room
        cases after with
        | nil => exact runs_pure.mpr ⟨by simp [content, matching], rfl⟩
        | cons next after =>
            have chain' : Chain m nodes ((before ++ [page]) ++ next :: after) := by
              rw [List.append_assoc]
              exact chain
            obtain ⟨body', node', _, _, _, held'⟩ := chain'.leaf_at
            obtain ⟨parent, read⟩ := held'.readPage_runs
            rw [← node'] at read
            have grown : (results ++ (body.entries.drop start).map LeafEntry.pointer).length +
                (matching key (content nodes (next :: after))).length ≤ limit := by
              rw [List.length_append, List.length_map]
              omega
            have recursive := @ih _ _ _ parent _ chain' (Nat.lt_of_succ_lt_succ enough) grown
            rw [List.map_append, ← List.append_assoc]
            exact runs_bind.mpr ⟨_, m, read, recursive⟩
      · have ended : matching key (content nodes after) = [] := by
          obtain ⟨e, member, differs⟩ : ∃ e ∈ body.entries.drop start, Key.same e.key key = false := by
            simpa using all
          have above : key < e.key := by
            refine Key.not_le.mp fun le => ?_
            rw [same_iff.mpr ⟨le, reached e member⟩] at differs
            cases differs
          have listed : e ∈ leafEntries nodes page := by
            rw [entries]
            exact List.mem_of_mem_drop member
          exact matching_of_gt fun f later => lt_of_lt_of_le above (chain.le_after listed later)
        rw [if_neg all, ended, List.append_nil]
        exact runs_pure.mpr ⟨rfl, rfl⟩

end Forward

end WasmDbms
