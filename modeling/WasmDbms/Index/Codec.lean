import Mathlib.Algebra.Order.BigOperators.Group.List
import Mathlib.Algebra.Order.Ring.Nat
import WasmDbms.Index.Node

/-!
# Nodes in memory

A node that fits is written as one page image, and both readers get its entries
back: `deserialize` all of them, `NodeView` one at a time.
-/
namespace WasmDbms
open ByteString Entries MemoryManager

variable {K : Type} [Key K]

namespace NodeBody

/-- The numbers of a node fit their fields; links are pages, never the sentinel. -/
def InRange : NodeBody K → Prop
  | .internal body => body.rightmostChild < 4294967296 ∧ ∀ e ∈ body.entries, e.childPage < 4294967296
  | .leaf body => (∀ page, body.prevLeaf = some page → page < noPageSentinel) ∧
      (∀ page, body.nextLeaf = some page → page < noPageSentinel) ∧
      ∀ e ∈ body.entries, e.pointer.InRange

def used (body : NodeBody K) : Nat := body.headerSize + (image body.items).length

/-- The node fits a page. -/
def Fits (body : NodeBody K) : Prop := body.used ≤ pageSize

/-- The page of a node. -/
def pageImage (parentPage : Option Nat) (body : NodeBody K) : List UInt8 :=
  let used := body.headerBytes parentPage body.items.length ++ image body.items
  used ++ zeros (pageSize - used.length)

omit [Key K] in
theorem headerBytes_length (parentPage : Option Nat) (n : Nat) (body : NodeBody K) :
    (body.headerBytes parentPage n).length = body.headerSize := by
  cases body <;> simp [headerBytes, headerSize, internalHeaderSize, leafHeaderSize]

theorem pageImage_length {body : NodeBody K} (fits : body.Fits) (parentPage : Option Nat) :
    (body.pageImage parentPage).length = pageSize := by
  unfold Fits used at fits
  simp only [pageImage, List.length_append, zeros_length, headerBytes_length]
  omega

theorem tail_length {body : NodeBody K} {x : Item} (member : x ∈ body.items) :
    x.tail.length = body.tailSize := by
  cases body with
  | internal body =>
      obtain ⟨e, _, rfl⟩ := List.mem_map.mp member
      exact toLE_length _ _
  | leaf body =>
      obtain ⟨e, _, rfl⟩ := List.mem_map.mp member
      simp [LeafEntry.item, RecordAddress.encode, tailSize, recordPointerSize]

omit [Key K] in
theorem headerSize_pos (body : NodeBody K) : 11 ≤ body.headerSize := by
  cases body <;> simp [headerSize, internalHeaderSize, leafHeaderSize]

/-- No entry of a node that fits is close to the size limits. -/
theorem Fits.item_le {body : NodeBody K} (fits : body.Fits) {x : Item} (member : x ∈ body.items) :
    body.headerSize + x.size ≤ pageSize := by
  have part : x.size ≤ (body.items.map Item.size).sum :=
    List.single_le_sum (fun _ _ => Nat.zero_le _) _ (List.mem_map_of_mem member)
  unfold Fits used at fits
  rw [image_length] at fits
  omega

theorem Fits.key_lt {body : NodeBody K} (fits : body.Fits) {x : Item} (member : x ∈ body.items) :
    x.key.length < msizeMax := by
  have small := fits.item_le member
  have header := body.headerSize_pos
  rw [pageSize_eq] at small
  unfold Item.size at small
  unfold msizeMax
  omega

/-- Every entry takes at least six bytes. -/
theorem Fits.length_lt {body : NodeBody K} (fits : body.Fits) : body.items.length < 16384 := by
  have wide : ∀ x ∈ body.items, 6 ≤ x.size := by
    intro x member
    have tail := tail_length member
    have four : 4 ≤ body.tailSize := by cases body <;> simp [tailSize, recordPointerSize]
    unfold Item.size
    omega
  have sum : body.items.length * 6 ≤ (body.items.map Item.size).sum := by
    have bound := List.card_nsmul_le_sum (body.items.map Item.size) 6 (by simpa using wide)
    simpa using bound
  unfold Fits used at fits
  rw [image_length, pageSize_eq] at fits
  omega

end NodeBody

theorem entrySizeFromLen_ok {header tail : Nat} {x : Item} (width : x.tail.length = tail)
    (small : x.key.length ≤ msizeMax) (fits : header + x.size ≤ pageSize) :
    entrySizeFromLen header tail x.key.length = .ok x.size := by
  subst width
  unfold entrySizeFromLen
  rw [if_neg (by omega)]
  dsimp only
  rw [if_neg (by unfold Item.size at fits; omega)]
  rfl

/-- A successful size check is exact. -/
theorem entrySizeFromLen_eq {header tail n size : Nat} (checked : entrySizeFromLen header tail n = .ok size) :
    size = 2 + n + tail := by
  unfold entrySizeFromLen at checked
  split at checked
  · cases checked
  · dsimp only at checked
    split at checked
    · cases checked
    · cases checked
      rfl

theorem serializeEntries_ok {header tail offset : Nat} {xs : List Item}
    (width : ∀ x ∈ xs, x.tail.length = tail) (small : ∀ x ∈ xs, x.key.length ≤ msizeMax)
    (each : ∀ x ∈ xs, header + x.size ≤ pageSize) (fits : offset + (image xs).length ≤ pageSize) :
    serializeEntries header tail offset xs = .ok (image xs) := by
  induction xs generalizing offset with
  | nil => rfl
  | cons x xs ih =>
      simp only [List.forall_mem_cons] at width small each
      have split : (image (x :: xs)).length = x.size + (image xs).length := by
        rw [image_length, image_length, List.map_cons, List.sum_cons]
      rw [split] at fits
      unfold serializeEntries
      rw [entrySizeFromLen_ok width.1 small.1 each.1]
      dsimp only
      rw [if_neg (by omega), ih width.2 small.2 each.2 (by omega)]
      rfl

theorem serializeEntries_fits {header tail offset : Nat} {xs : List Item} {bytes : List UInt8}
    (width : ∀ x ∈ xs, x.tail.length = tail) (inside : offset ≤ pageSize)
    (done : serializeEntries header tail offset xs = .ok bytes) :
    offset + (image xs).length ≤ pageSize := by
  induction xs generalizing offset bytes with
  | nil => simpa [image] using inside
  | cons x xs ih =>
      simp only [List.forall_mem_cons] at width
      have split : (image (x :: xs)).length = x.size + (image xs).length := by
        rw [image_length, image_length, List.map_cons, List.sum_cons]
      unfold serializeEntries at done
      cases checked : entrySizeFromLen header tail x.key.length with
      | error e => simp [checked] at done
      | ok size =>
          have exactSize : size = x.size := by
            rw [entrySizeFromLen_eq checked, ← width.1]
            rfl
          simp only [checked] at done
          split at done
          · cases done
          · rename_i room
            cases rest : serializeEntries header tail (offset + size) xs with
            | error e => simp [rest] at done
            | ok tailBytes =>
                have bound := ih width.2 (by omega) rest
                omega

/-- `serialize` succeeds on exactly the nodes that fit, with their page image. -/
theorem serialize_eq {node : BTreeNode K} (counted : node.header.numEntries = node.body.items.length)
    {bytes : List UInt8} : node.serialize = .ok bytes ↔
      node.body.Fits ∧ bytes = node.body.pageImage node.header.parentPage := by
  have width : ∀ x ∈ node.body.items, x.tail.length = node.body.tailSize :=
    fun x member => NodeBody.tail_length member
  unfold BTreeNode.serialize
  constructor
  · intro done
    have inside : node.body.headerSize ≤ pageSize := by
      rw [pageSize_eq]
      cases node.body <;> simp [NodeBody.headerSize, internalHeaderSize, leafHeaderSize]
    cases entries : serializeEntries node.body.headerSize node.body.tailSize node.body.headerSize
        node.body.items with
    | error e => simp [entries] at done
    | ok written =>
        have fits : node.body.Fits := serializeEntries_fits width inside entries
        rw [serializeEntries_ok width (fun x member => Nat.le_of_lt (fits.key_lt member))
          (fun x member => fits.item_le member) fits] at done
        cases done
        refine ⟨fits, ?_⟩
        rw [counted]
        rfl
  · rintro ⟨fits, rfl⟩
    rw [serializeEntries_ok width (fun x member => Nat.le_of_lt (fits.key_lt member))
      (fun x member => fits.item_le member) fits, counted]
    rfl

/-- The fields that both kinds of nodes start with. -/
theorem header_fields {buf rest : List UInt8} {nodeType : UInt8} {parent n link : Nat}
    (whole : buf = nodeType :: (toLE 4 parent ++ (toLE 2 n ++ (toLE 4 link ++ rest)))) :
    buf.getD 0 0 = nodeType ∧ slice buf 5 2 = toLE 2 n ∧ slice buf 7 4 = toLE 4 link ∧
      buf.drop 11 = rest := by
  have one : buf.drop 1 = toLE 4 parent ++ (toLE 2 n ++ (toLE 4 link ++ rest)) := by
    rw [whole]
    rfl
  have five := drop_of_drop one
  rw [toLE_length] at five
  have seven := drop_of_drop five
  rw [toLE_length] at seven
  have eleven := drop_of_drop seven
  rw [toLE_length] at eleven
  refine ⟨by rw [whole]; rfl, ?_, ?_, eleven⟩
  · have read := slice_of_drop five
    rwa [toLE_length] at read
  · have read := slice_of_drop seven
    rwa [toLE_length] at read

theorem readLink_of_slice {buf : List UInt8} {offset : Nat} {link : Option Nat}
    (stored : slice buf offset 4 = toLE 4 (link.getD noPageSentinel))
    (range : ∀ page, link = some page → page < noPageSentinel) : readLink buf offset = link := by
  unfold readLink field
  rw [stored]
  cases link with
  | none =>
      rw [Option.getD_none, ofLE_toLE_of_lt (by decide)]
      simp
  | some page =>
      have small := range page rfl
      have value : ofLE (toLE 4 page) = page := by
        refine ofLE_toLE_of_lt ?_
        unfold noPageSentinel at small
        omega
      rw [Option.getD_some, value]
      simp [Nat.ne_of_lt small]

namespace NodeBody

theorem pageImage_internal (parentPage : Option Nat) (b : InternalNodeBody K) : ∃ rest,
    (internal b).pageImage parentPage = nodeTypeInternal ::
      (toLE 4 (parentPage.getD noPageSentinel) ++ (toLE 2 (internal b).items.length ++
        (toLE 4 b.rightmostChild ++ rest))) := by
  refine ⟨image (internal b).items ++ zeros (pageSize -
    ((internal b).headerBytes parentPage (internal b).items.length ++ image (internal b).items).length), ?_⟩
  simp only [pageImage, headerBytes, List.cons_append, List.append_assoc]

theorem pageImage_leaf (parentPage : Option Nat) (b : LeafNodeBody K) : ∃ rest,
    (leaf b).pageImage parentPage = nodeTypeLeaf ::
      (toLE 4 (parentPage.getD noPageSentinel) ++ (toLE 2 (leaf b).items.length ++
        (toLE 4 (b.prevLeaf.getD noPageSentinel) ++ (toLE 4 (b.nextLeaf.getD noPageSentinel) ++ rest)))) := by
  refine ⟨image (leaf b).items ++ zeros (pageSize -
    ((leaf b).headerBytes parentPage (leaf b).items.length ++ image (leaf b).items).length), ?_⟩
  simp only [pageImage, headerBytes, List.cons_append, List.append_assoc]

/-- What the readers see of an internal node. -/
theorem internal_fields {b : InternalNodeBody K} (fits : (internal b).Fits)
    (range : (internal b).InRange) (parentPage : Option Nat) :
    ((internal b).pageImage parentPage).getD 0 0 = nodeTypeInternal ∧
      field ((internal b).pageImage parentPage) 5 2 = b.entries.length ∧
      field ((internal b).pageImage parentPage) 7 4 = b.rightmostChild := by
  obtain ⟨rest, whole⟩ := pageImage_internal parentPage b
  obtain ⟨kind, count, child, _⟩ := header_fields whole
  have short := fits.length_lt
  have length : (internal b).items.length = b.entries.length := List.length_map _
  refine ⟨kind, ?_, ?_⟩
  · rw [field, count, ofLE_toLE_of_lt (by omega), length]
  · rw [field, child]
    exact ofLE_toLE_of_lt range.1

/-- What the readers see of a leaf. -/
theorem leaf_fields {b : LeafNodeBody K} (fits : (leaf b).Fits) (range : (leaf b).InRange)
    (parentPage : Option Nat) :
    ((leaf b).pageImage parentPage).getD 0 0 = nodeTypeLeaf ∧
      field ((leaf b).pageImage parentPage) 5 2 = b.entries.length ∧
      readLink ((leaf b).pageImage parentPage) 7 = b.prevLeaf ∧
      readLink ((leaf b).pageImage parentPage) 11 = b.nextLeaf := by
  obtain ⟨rest, whole⟩ := pageImage_leaf parentPage b
  obtain ⟨kind, count, prev, after⟩ := header_fields whole
  have next := slice_of_drop after
  rw [toLE_length] at next
  have short := fits.length_lt
  have length : (leaf b).items.length = b.entries.length := List.length_map _
  refine ⟨kind, ?_, readLink_of_slice prev range.1, readLink_of_slice next range.2.1⟩
  rw [field, count, ofLE_toLE_of_lt (by omega), length]

theorem pageImage_laid (parentPage : Option Nat) (body : NodeBody K) :
    Laid (body.pageImage parentPage) body.headerSize body.items := by
  refine ⟨zeros (pageSize - (body.headerBytes parentPage body.items.length ++ image body.items).length), ?_⟩
  unfold pageImage
  dsimp only
  rw [List.append_assoc, List.drop_left' (headerBytes_length _ _ _)]

end NodeBody

/-- Entries that decode are read back in order. -/
theorem deserializeEntries_ok {P A : Type} {tail : Nat} {decodeTail : List UInt8 → Except Fault P}
    {buf : List UInt8} {offset : Nat} {item : A → Item} {entry : A → K × P} {xs : List A}
    (laid : Laid buf offset (xs.map item))
    (small : ∀ x ∈ xs, (item x).key.length < msizeMax)
    (width : ∀ x ∈ xs, (item x).tail.length = tail)
    (keys : ∀ x ∈ xs, Encode.decode (item x).key = .ok (entry x).1)
    (tails : ∀ x ∈ xs, decodeTail (item x).tail = .ok (entry x).2) :
    deserializeEntries tail decodeTail buf xs.length offset = .ok (xs.map entry) := by
  induction xs generalizing offset with
  | nil => rfl
  | cons x xs ih =>
      simp only [List.forall_mem_cons] at small width keys tails
      obtain ⟨_, key, tailBytes, inside, rest⟩ := laid.cons
      have keySize : field buf offset 2 = (item x).key.length :=
        laid.field (Nat.lt_trans small.1 (by decide))
      rw [width.1] at tailBytes inside rest
      rw [List.length_cons]
      unfold deserializeEntries
      rw [if_neg (by omega)]
      dsimp only
      rw [keySize, if_neg (by omega), key, tailBytes, keys.1, tails.1,
        ih rest small.2 width.2 keys.2 tails.2]
      rfl

theorem parseOffsets_ok {tail : Nat} {buf : List UInt8} {offset : Nat} {xs : List Item}
    (laid : Laid buf offset xs) (small : ∀ x ∈ xs, x.key.length < msizeMax)
    (width : ∀ x ∈ xs, x.tail.length = tail) :
    NodeView.parseOffsets tail buf xs.length offset = .ok (keyOffsets offset xs) := by
  induction xs generalizing offset with
  | nil => rfl
  | cons x xs ih =>
      simp only [List.forall_mem_cons] at small width
      obtain ⟨_, _, _, inside, rest⟩ := laid.cons
      have keySize : field buf offset 2 = x.key.length :=
        laid.field (Nat.lt_trans small.1 (by decide))
      rw [width.1] at inside rest
      rw [List.length_cons]
      unfold NodeView.parseOffsets
      rw [if_neg (by omega)]
      dsimp only
      rw [keySize, if_neg (by omega), ih rest small.2 width.2, keyOffsets, width.1]
      rfl

theorem deserialize_pageImage {body : NodeBody K} (fits : body.Fits) (range : body.InRange)
    (page : Nat) (parentPage : Option Nat) : ∃ header : NodeHeader,
    header.numEntries = body.items.length ∧ header.parentPage = readLink (body.pageImage parentPage) 1 ∧
      BTreeNode.deserialize page (body.pageImage parentPage) = .ok ⟨page, header, body, false⟩ := by
  refine ⟨⟨readLink (body.pageImage parentPage) 1, body.items.length⟩, rfl, rfl, ?_⟩
  have long : (body.pageImage parentPage).length = pageSize := body.pageImage_length fits parentPage
  have laid := body.pageImage_laid parentPage
  have wide : ¬ pageSize < internalHeaderSize ∧ ¬ pageSize < leafHeaderSize := by
    rw [pageSize_eq]
    decide
  unfold BTreeNode.deserialize
  rw [long, if_neg wide.1]
  cases body with
  | internal b =>
      obtain ⟨kind, count, child⟩ := NodeBody.internal_fields fits range parentPage
      have entries : deserializeEntries 4 (fun tail => .ok (field tail 0 4))
          ((NodeBody.internal b).pageImage parentPage) b.entries.length internalHeaderSize =
          .ok (b.entries.map fun e => (e.key, e.childPage)) := by
        refine deserializeEntries_ok laid ?_ (fun _ _ => toLE_length _ _) ?_ ?_
        · exact fun e member => fits.key_lt (List.mem_map_of_mem member)
        · exact fun e member => Key.readable _ (fits.key_lt (List.mem_map_of_mem member))
        · intro e member
          have tail : field (toLE 4 e.childPage) 0 4 = e.childPage := by
            rw [field, slice, List.drop_zero, List.take_of_length_le (by simp)]
            exact ofLE_toLE_of_lt (range.2 e member)
          exact congrArg Except.ok tail
      have back : (b.entries.map fun e => (e.key, e.childPage)).map
          (fun e => (⟨e.1, e.2⟩ : InternalEntry K)) = b.entries := by
        rw [List.map_map]
        exact List.map_id b.entries
      simp only [kind, count, child, if_true, entries]
      change Except.ok _ = Except.ok _
      rw [back]
      simp [NodeBody.items]
  | leaf b =>
      obtain ⟨kind, count, prev, next⟩ := NodeBody.leaf_fields fits range parentPage
      have entries : deserializeEntries recordPointerSize RecordAddress.decode
          ((NodeBody.leaf b).pageImage parentPage) b.entries.length leafHeaderSize =
          .ok (b.entries.map fun e => (e.key, e.pointer)) := by
        refine deserializeEntries_ok laid ?_ ?_ ?_ ?_
        · exact fun e member => fits.key_lt (List.mem_map_of_mem member)
        · intro e member
          have listed : e.item ∈ (NodeBody.leaf b).items := List.mem_map_of_mem member
          exact NodeBody.tail_length listed
        · exact fun e member => Key.readable _ (fits.key_lt (List.mem_map_of_mem member))
        · exact fun e member => RecordAddress.decode_encode (range.2.2 e member)
      have back : (b.entries.map fun e => (e.key, e.pointer)).map
          (fun e => (⟨e.1, e.2⟩ : LeafEntry K)) = b.entries := by
        rw [List.map_map]
        exact List.map_id b.entries
      have other : ¬ nodeTypeLeaf = nodeTypeInternal := by decide
      simp only [kind, count, prev, next, if_true, if_neg other, if_neg wide.2, entries]
      change Except.ok _ = Except.ok _
      rw [back]
      simp [NodeBody.items]

/-- The view of a node's page. -/
def NodeBody.view (parentPage : Option Nat) (body : NodeBody K) : NodeView where
  buf := body.pageImage parentPage
  kind := match body with
    | .internal b => .internal b.rightmostChild
    | .leaf b => .leaf b.prevLeaf b.nextLeaf
  keyOffsets := keyOffsets body.headerSize body.items

theorem parse_pageImage {body : NodeBody K} (fits : body.Fits) (range : body.InRange)
    (parentPage : Option Nat) : NodeView.parse (body.pageImage parentPage) = .ok (body.view parentPage) := by
  have long : (body.pageImage parentPage).length = pageSize := body.pageImage_length fits parentPage
  have offsets := parseOffsets_ok (body.pageImage_laid parentPage) (fun x member => fits.key_lt member)
    (fun x member => NodeBody.tail_length member)
  have wide : ¬ pageSize < internalHeaderSize ∧ leafHeaderSize ≤ pageSize := by
    rw [pageSize_eq]
    decide
  unfold NodeView.parse
  rw [long, if_neg wide.1]
  cases body with
  | internal b =>
      obtain ⟨kind, count, child⟩ := NodeBody.internal_fields fits range parentPage
      have length : (NodeBody.internal b).items.length = b.entries.length := List.length_map _
      rw [length] at offsets
      simp only [NodeBody.tailSize, NodeBody.headerSize] at offsets
      simp only [kind, count, child, if_true, offsets]
      rfl
  | leaf b =>
      obtain ⟨kind, count, prev, next⟩ := NodeBody.leaf_fields fits range parentPage
      have length : (NodeBody.leaf b).items.length = b.entries.length := List.length_map _
      have other : ¬ nodeTypeLeaf = nodeTypeInternal := by decide
      rw [length] at offsets
      simp only [NodeBody.tailSize, NodeBody.headerSize] at offsets
      simp only [kind, count, prev, next, if_neg other, wide.2, and_self, if_true, offsets]
      rfl

@[simp] theorem view_len (parentPage : Option Nat) (body : NodeBody K) :
    (body.view parentPage).len = body.items.length := keyOffsets_length _ _

section View

variable {body : NodeBody K} (fits : body.Fits) (parentPage : Option Nat) {i : Nat} {x : Item}
  (found : body.items[i]? = some x)
include fits found

/-- Where the view finds an entry. -/
theorem view_entry : ∃ start, (body.view parentPage).keyRange i = .ok (start, start + x.key.length) ∧
    slice (body.pageImage parentPage) start x.key.length = x.key ∧
    slice (body.pageImage parentPage) (start + x.key.length) x.tail.length = x.tail := by
  obtain ⟨start, there, length, key, tail⟩ := (body.pageImage_laid parentPage).at_index found
  refine ⟨start, ?_, key, tail⟩
  have small := fits.key_lt (List.mem_of_getElem? found)
  have keySize : field (body.pageImage parentPage) (start - 2) 2 = x.key.length := by
    rw [field, length]
    exact ofLE_toLE_of_lt (Nat.lt_trans small (by decide))
  unfold NodeView.keyRange
  simp only [NodeBody.view, there, keySize]

theorem view_key {k : K} (decodes : Encode.decode x.key = .ok k) :
    (body.view parentPage).key i = .ok k := by
  obtain ⟨start, range, key, _⟩ := view_entry fits parentPage found
  unfold NodeView.key
  rw [range]
  change Encode.decode (slice (body.pageImage parentPage) start (start + x.key.length - start)) = _
  rw [Nat.add_sub_cancel_left, key, decodes]

end View

theorem firstLeafKey_pageImage {b : LeafNodeBody K} (fits : (NodeBody.leaf b).Fits)
    (range : (NodeBody.leaf b).InRange) (parentPage : Option Nat) :
    NodeView.firstLeafKey K ((NodeBody.leaf b).pageImage parentPage) =
      .ok (b.entries.head?.map LeafEntry.key) := by
  obtain ⟨kind, count, _, _⟩ := NodeBody.leaf_fields fits range parentPage
  have long := NodeBody.pageImage_length fits parentPage
  have laid := (NodeBody.leaf b).pageImage_laid parentPage
  have wide : ¬ (pageSize < leafHeaderSize ∨ nodeTypeLeaf ≠ nodeTypeLeaf) := by
    rw [pageSize_eq]
    decide
  unfold NodeView.firstLeafKey
  rw [long, kind, if_neg wide, count]
  cases entries : b.entries with
  | nil => rfl
  | cons e rest =>
      have items : (NodeBody.leaf b).items = e.item :: rest.map LeafEntry.item := by
        simp [NodeBody.items, entries]
      have member : e.item ∈ (NodeBody.leaf b).items := by simp [items]
      rw [items] at laid
      obtain ⟨_, key, _, inside, _⟩ := laid.cons
      have keySize : field ((NodeBody.leaf b).pageImage parentPage) leafHeaderSize 2 = e.item.key.length :=
        laid.field (Nat.lt_trans (fits.key_lt member) (by decide))
      have tail : e.item.tail.length = recordPointerSize := NodeBody.tail_length member
      rw [tail, long] at inside
      have room : leafHeaderSize + 2 + e.item.key.length + recordPointerSize ≤ pageSize := inside
      rw [if_neg (by simp)]
      dsimp only
      rw [keySize, if_neg (Nat.not_lt.mpr room)]
      have decoded : Encode.decode (slice ((NodeBody.leaf b).pageImage parentPage) (leafHeaderSize + 2)
          e.item.key.length) = .ok e.key := by
        rw [show slice ((NodeBody.leaf b).pageImage parentPage) (leafHeaderSize + 2) e.item.key.length =
          e.item.key from key]
        exact Key.readable _ (fits.key_lt member)
      rw [decoded]
      rfl

theorem isLeafPage_internal (b : InternalNodeBody K) (parentPage : Option Nat) :
    NodeView.isLeafPage ((NodeBody.internal b).pageImage parentPage) = false := by
  obtain ⟨rest, whole⟩ := NodeBody.pageImage_internal parentPage b
  rw [whole]
  simp [NodeView.isLeafPage, nodeTypeInternal, nodeTypeLeaf]

theorem isLeafPage_leaf (b : LeafNodeBody K) (parentPage : Option Nat) :
    NodeView.isLeafPage ((NodeBody.leaf b).pageImage parentPage) = true := by
  obtain ⟨rest, whole⟩ := NodeBody.pageImage_leaf parentPage b
  rw [whole]
  simp [NodeView.isLeafPage]

end WasmDbms
