import WasmDbms.Index.Representation

/-!
# The two readers of a node

`deserialize` decodes a page at once, `NodeView` decodes single entries of its
bytes. Both are compared with the node that was written.
-/
namespace WasmDbms
open Bisect ByteString Entries

variable {K : Type} [Key K]

omit [Key K] in
/-- The links of a node lead to pages; the sentinel is none. -/
structure BTreeNode.Linked (node : BTreeNode K) : Prop where
  parent : ∀ page, node.header.parentPage = some page → page ≠ noPageSentinel
  prev : ∀ page, node.body.prevLeaf = some page → page ≠ noPageSentinel
  next : ∀ page, node.body.nextLeaf = some page → page ≠ noPageSentinel

omit [Key K] in
/-- The numbers of a node have the width of their types: pages are `u32`, offsets `u16`. -/
structure BTreeNode.Typed (node : BTreeNode K) : Prop where
  parent : ∀ page, node.header.parentPage = some page → page < 4294967296
  prev : ∀ page, node.body.prevLeaf = some page → page < 4294967296
  next : ∀ page, node.body.nextLeaf = some page → page < 4294967296
  children : ∀ page ∈ node.body.children, page < 4294967296
  pointers : ∀ body, node.body = .leaf body → ∀ e ∈ body.entries, e.pointer.InRange

omit [Key K] in
theorem BTreeNode.Typed.inRange {node : BTreeNode K} (typed : node.Typed) (linked : node.Linked) :
    node.body.InRange := by
  have small : ∀ page, page < 4294967296 → page ≠ noPageSentinel → page < noPageSentinel := by
    unfold noPageSentinel
    omega
  cases kind : node.body with
  | internal body =>
      have children := typed.children
      rw [kind] at children
      refine ⟨children _ (by simp [NodeBody.children]), fun e member => children _ ?_⟩
      exact List.mem_append_left _ (List.mem_map_of_mem member)
  | leaf body =>
      have prev := typed.prev
      have next := typed.next
      have prev' := linked.prev
      have next' := linked.next
      rw [kind] at prev next prev' next'
      exact ⟨fun page found => small page (prev page found) (prev' page found),
        fun page found => small page (next page found) (next' page found), typed.pointers body kind⟩

/-- What a view of a page shows, beside a decoded node. -/
structure NodeView.Agrees (view : NodeView) (node : BTreeNode K) : Prop where
  isLeafPage : NodeView.isLeafPage view.buf = !node.body.isInternal
  isLeaf : view.isLeaf = !node.body.isInternal
  len : view.len = node.body.keys.length
  key : ∀ (i : Nat) (key : K), node.body.keys[i]? = some key → view.key i = .ok key
  pointer : ∀ body, node.body = .leaf body →
    ∀ (i : Nat) (e : LeafEntry K), body.entries[i]? = some e → view.pointer i = .ok e.pointer
  prevLeaf : view.prevLeaf = node.body.prevLeaf
  nextLeaf : view.nextLeaf = node.body.nextLeaf
  partitionPoint : ∀ pred : K → Bool, Partitioned pred node.body.keys →
    view.partitionPoint pred = .ok (Bisect.partitionPoint pred node.body.keys)
  firstLeafKey : node.body.isInternal = false → NodeView.firstLeafKey K view.buf = .ok node.firstKey
  childFor : ∀ body, node.body = .internal body → ∀ key : K,
    view.childFor key = .ok (some (IndexTree.findChild body key))
  childForLeaf : node.body.isInternal = false → ∀ key : K, view.childFor key = .ok none

theorem item_of_key {body : NodeBody K} {i : Nat} {key : K} (found : body.keys[i]? = some key) :
    ∃ x, body.items[i]? = some x ∧ x.key = Encode.encode key := by
  cases body with
  | internal body =>
      simp only [NodeBody.keys, List.getElem?_map, Option.map_eq_some_iff] at found
      obtain ⟨e, there, rfl⟩ := found
      exact ⟨e.item, by simp [NodeBody.items, there], rfl⟩
  | leaf body =>
      simp only [NodeBody.keys, List.getElem?_map, Option.map_eq_some_iff] at found
      obtain ⟨e, there, rfl⟩ := found
      exact ⟨e.item, by simp [NodeBody.items, there], rfl⟩

section View

variable {body : NodeBody K} (fits : body.Fits) (parentPage : Option Nat)
include fits

/-- The view finds every key. -/
theorem view_keys {i : Nat} {key : K} (found : body.keys[i]? = some key) :
    (body.view parentPage).key i = .ok key := by
  obtain ⟨x, there, encoded⟩ := item_of_key found
  have short := fits.key_lt (List.mem_of_getElem? there)
  rw [encoded] at short
  refine view_key fits parentPage there ?_
  rw [encoded]
  exact Key.readable key short

/-- The search in a view finds the partition point of the keys. -/
theorem view_partitionPoint (pred : K → Bool) (parted : Partitioned pred body.keys) :
    (body.view parentPage).partitionPoint pred = .ok (Bisect.partitionPoint pred body.keys) := by
  have length : (body.view parentPage).len = body.keys.length := by
    rw [view_len]
    cases body <;> simp [NodeBody.items, NodeBody.keys]
  unfold NodeView.partitionPoint
  rw [length]
  refine bisect_eq parted fun i inside => ?_
  have here := List.getElem?_eq_getElem inside
  rw [view_keys fits parentPage here, here]
  rfl

/-- The view finds every pointer of a leaf. -/
theorem view_pointer {leaf : LeafNodeBody K} (kind : body = .leaf leaf) (pointers : ∀ e ∈ leaf.entries, e.pointer.InRange)
    {i : Nat} {e : LeafEntry K} (found : leaf.entries[i]? = some e) :
    (body.view parentPage).pointer i = .ok e.pointer := by
  have there : body.items[i]? = some e.item := by
    rw [kind]
    simp [NodeBody.items, found]
  obtain ⟨start, range, _, tail⟩ := view_entry fits parentPage there
  have width : e.item.tail.length = recordPointerSize := by
    have measured := NodeBody.tail_length (List.mem_of_getElem? there)
    rwa [kind] at measured
  unfold NodeView.pointer
  rw [range]
  change RecordAddress.decode (slice (body.pageImage parentPage) (start + e.item.key.length) recordPointerSize) = _
  rw [← width, tail]
  exact RecordAddress.decode_encode (pointers e (List.mem_of_getElem? found))

end View

/-- The parent link in the bytes of a node. -/
theorem parent_slice (parentPage : Option Nat) (body : NodeBody K) :
    slice (body.pageImage parentPage) 1 4 = toLE 4 (parentPage.getD noPageSentinel) := by
  cases body with
  | internal body =>
      obtain ⟨rest, whole⟩ := NodeBody.pageImage_internal parentPage body
      rw [whole, slice, List.drop_one, List.tail_cons]
      exact List.take_left' (toLE_length _ _)
  | leaf body =>
      obtain ⟨rest, whole⟩ := NodeBody.pageImage_leaf parentPage body
      rw [whole, slice, List.drop_one, List.tail_cons]
      exact List.take_left' (toLE_length _ _)

/-- A view of the page of a node with sorted keys agrees with the node. -/
theorem view_agrees {node : BTreeNode K} (fits : node.body.Fits) (range : node.body.InRange)
    (sorted : node.body.keys.Pairwise (· ≤ ·)) : (node.body.view node.header.parentPage).Agrees node where
  isLeafPage := by
    change NodeView.isLeafPage (node.body.pageImage node.header.parentPage) = _
    cases node.body with
    | internal body => exact isLeafPage_internal body _
    | leaf body => exact isLeafPage_leaf body _
  isLeaf := by cases kind : node.body <;> rfl
  len := by
    rw [view_len]
    cases node.body <;> simp [NodeBody.items, NodeBody.keys]
  key := fun _ _ found => view_keys fits _ found
  pointer := by
    intro body kind i e found
    rw [kind] at range
    exact view_pointer fits _ kind range.2.2 found
  prevLeaf := by cases kind : node.body <;> rfl
  nextLeaf := by cases kind : node.body <;> rfl
  partitionPoint := fun pred parted => view_partitionPoint fits _ pred parted
  firstLeafKey := by
    intro leaf
    cases kind : node.body with
    | internal body =>
        rw [kind] at leaf
        cases leaf
    | leaf body =>
        rw [kind] at fits range
        have first : node.firstKey = body.entries.head?.map LeafEntry.key := by rw [BTreeNode.firstKey, kind]
        rw [first]
        exact firstLeafKey_pageImage fits range _
  childFor := by
    intro body kind key
    rw [kind] at fits range sorted ⊢
    refine childFor_eq fits range _ key ?_
    have ordered : body.entries.Pairwise fun a b => a.key ≤ b.key := List.pairwise_map.mp sorted
    refine ordered.imp ?_
    intro a b le below
    exact decide_eq_true (le_trans le (of_decide_eq_true below))
  childForLeaf := by
    intro leaf key
    cases kind : node.body with
    | internal body =>
        rw [kind] at leaf
        cases leaf
    | leaf body => rfl

/-- A node that fits a page is read back from its bytes, and a view of them agrees with it. -/
theorem node_read_back {node : BTreeNode K} (counted : node.Counted) (fits : node.body.Fits) (typed : node.Typed)
    (linked : node.Linked) (sorted : node.body.keys.Pairwise (· ≤ ·)) :
    ∃ buf, node.serialize = .ok buf ∧
      BTreeNode.deserialize node.page buf = .ok { node with dirty := false } ∧
      ∃ view, NodeView.parse buf = .ok view ∧ view.buf = buf ∧ view.Agrees node := by
  have range := typed.inRange linked
  have parent : readLink (node.body.pageImage node.header.parentPage) 1 = node.header.parentPage := by
    refine readLink_of_slice (parent_slice _ _) fun page found => ?_
    have small := typed.parent page found
    have other := linked.parent page found
    unfold noPageSentinel at *
    omega
  refine ⟨node.body.pageImage node.header.parentPage, (serialize_eq counted).mpr ⟨fits, rfl⟩, ?_,
    node.body.view node.header.parentPage, parse_pageImage fits range _, rfl, view_agrees fits range sorted⟩
  obtain ⟨header, count, link, decoded⟩ := deserialize_pageImage fits range node.page node.header.parentPage
  rw [decoded]
  have whole : header = node.header := by
    cases header
    cases hdr : node.header
    simp only at count link
    simp only [BTreeNode.Counted, hdr] at counted parent link
    rw [count, link, parent, counted]
  rw [whole]

/-- A leaf of two entries under a parent. -/
def sampleLeaf : BTreeNode UInt8 :=
  ⟨4, ⟨some 3, 2⟩, .leaf ⟨[⟨7, ⟨5, 0⟩⟩, ⟨9, ⟨5, 32⟩⟩], none, some 6⟩, true⟩

theorem node_read_back_sample : ∃ buf, sampleLeaf.serialize = .ok buf ∧
    BTreeNode.deserialize 4 buf = .ok { sampleLeaf with dirty := false } ∧
    ∃ view, NodeView.parse buf = .ok view ∧ view.buf = buf ∧ view.Agrees sampleLeaf := by
  have fits : sampleLeaf.body.Fits := by
    unfold NodeBody.Fits
    rw [pageSize_eq]
    decide
  have typed : sampleLeaf.Typed := by
    refine ⟨?_, ?_, ?_, ?_, ?_⟩
    · rintro page ⟨⟩
      decide
    · rintro page ⟨⟩
    · rintro page ⟨⟩
      decide
    · decide
    · rintro body ⟨⟩
      simp [RecordAddress.InRange]
  have linked : sampleLeaf.Linked := by
    refine ⟨?_, ?_, ?_⟩
    · rintro page ⟨⟩
      decide
    · rintro page ⟨⟩
    · rintro page ⟨⟩
      decide
  exact node_read_back rfl fits typed linked (by decide)

/-- A leaf whose parent link is the sentinel. -/
def sentinelLeaf : BTreeNode UInt8 := ⟨4, ⟨some noPageSentinel, 0⟩, .leaf ⟨[], none, none⟩, true⟩

/-- The sentinel is read back as a missing link. -/
theorem sentinel_parent_lost : sentinelLeaf.Counted ∧ sentinelLeaf.body.Fits ∧ sentinelLeaf.Typed ∧
    ∃ buf, sentinelLeaf.serialize = .ok buf ∧
      BTreeNode.deserialize 4 buf ≠ .ok { sentinelLeaf with dirty := false } := by
  have fits : sentinelLeaf.body.Fits := by
    unfold NodeBody.Fits
    rw [pageSize_eq]
    decide
  have range : sentinelLeaf.body.InRange :=
    ⟨fun _ found => (by cases found), fun _ found => (by cases found), by simp⟩
  refine ⟨rfl, fits, ⟨?_, fun _ found => (by cases found), fun _ found => (by cases found), by decide, ?_⟩,
    sentinelLeaf.body.pageImage (some noPageSentinel), (serialize_eq rfl).mpr ⟨fits, rfl⟩, fun same => ?_⟩
  · rintro page ⟨⟩
    decide
  · rintro body ⟨⟩
    simp
  · obtain ⟨header, _, link, decoded⟩ := deserialize_pageImage fits range 4 (some noPageSentinel)
    rw [decoded] at same
    have missing : readLink (sentinelLeaf.body.pageImage (some noPageSentinel)) 1 = none :=
      readLink_of_slice (parent_slice (some noPageSentinel) sentinelLeaf.body) fun _ found => by cases found
    have parent : header.parentPage = some noPageSentinel := by
      have equal := Except.ok.inj same
      exact congrArg (fun node => node.header.parentPage) equal
    rw [link, missing] at parent
    cases parent

end WasmDbms
