import Mathlib.Order.Basic
import WasmDbms.Lib.Bisect
import WasmDbms.Lib.Entries
import WasmDbms.Table.Registry

/-!
# Nodes of an index tree

A node of the B+ tree fills one page: a header, the entries with their length
prefixes, and zeros. `BTreeNode` is the decoded form, `NodeView` reads single
entries of the page bytes.
-/
namespace WasmDbms
open ByteString Entries

/-- `K: Encode + Ord`. Keys that compare as equal may have different encodings.
An encoding shorter than `MSize::MAX` is decoded to its key. -/
class Key (K : Type) extends Encode K, Preorder K where
  total : ∀ a b : K, a ≤ b ∨ b ≤ a
  decidableLE : DecidableLE K
  decidableLT : DecidableLT K
  readable : ∀ k : K, (encode k).length < msizeMax → decode (encode k) = .ok k

attribute [reducible, instance] Key.decidableLE Key.decidableLT

/-- `==` on keys. -/
def Key.same {K : Type} [Key K] (a b : K) : Bool := decide (a ≤ b) && decide (b ≤ a)

namespace RecordAddress

def encode (a : RecordAddress) : List UInt8 := toLE 4 a.page ++ toLE 2 a.offset

def decode (data : List UInt8) : Except Fault RecordAddress :=
  if data.length < 6 then .error (.error (.decodeError .tooShort))
  else .ok ⟨field data 0 4, field data 4 2⟩

/-- The order of addresses: by page, then by offset. -/
def lt (a b : RecordAddress) : Bool :=
  decide (a.page < b.page) || (decide (a.page = b.page) && decide (a.offset < b.offset))

/-- The fields fit `u32` and `u16`. -/
def InRange (a : RecordAddress) : Prop := a.page < 4294967296 ∧ a.offset < 65536

theorem decode_encode {a : RecordAddress} (range : a.InRange) : decode a.encode = .ok a := by
  have page : field a.encode 0 4 = a.page := by
    rw [field, slice, List.drop_zero, encode, List.take_left' (toLE_length _ _)]
    exact ofLE_toLE_of_lt range.1
  have offset : field a.encode 4 2 = a.offset := by
    rw [field, slice, encode, List.drop_left' (toLE_length _ _),
      List.take_of_length_le (by simp)]
    exact ofLE_toLE_of_lt range.2
  have long : ¬ a.encode.length < 6 := by simp [encode]
  rw [decode, if_neg long, page, offset]

end RecordAddress

structure NodeHeader where
  parentPage : Option Nat
  numEntries : Nat
  deriving DecidableEq, Repr

structure InternalEntry (K : Type) where
  key : K
  childPage : Nat
  deriving DecidableEq, Repr

structure LeafEntry (K : Type) where
  key : K
  pointer : RecordAddress
  deriving DecidableEq, Repr

structure InternalNodeBody (K : Type) where
  entries : List (InternalEntry K)
  rightmostChild : Nat
  deriving DecidableEq, Repr

structure LeafNodeBody (K : Type) where
  entries : List (LeafEntry K)
  prevLeaf : Option Nat
  nextLeaf : Option Nat
  deriving DecidableEq, Repr

inductive NodeBody (K : Type) where
  | internal (body : InternalNodeBody K)
  | leaf (body : LeafNodeBody K)
  deriving DecidableEq, Repr

structure BTreeNode (K : Type) where
  page : Nat
  header : NodeHeader
  body : NodeBody K
  dirty : Bool
  deriving DecidableEq, Repr

structure Promotion (K : Type) where
  key : K
  leftPage : Nat
  rightPage : Nat
  deriving DecidableEq, Repr

def nodeTypeInternal : UInt8 := 0
def nodeTypeLeaf : UInt8 := 1
def noPageSentinel : Nat := 4294967295
def internalHeaderSize : Nat := 11
def leafHeaderSize : Nat := 15
def recordPointerSize : Nat := 6

def tooShort : Fault := .error (.decodeError .tooShort)

/-- `read_link`: the sentinel stands for a missing link. -/
def readLink (buf : List UInt8) (offset : Nat) : Option Nat :=
  let page := field buf offset 4
  if page ≠ noPageSentinel then some page else none

/-- `leaf_entry_size_from_len` and `internal_entry_size_from_len`, which differ in
the header of the node and the tail of an entry. -/
def entrySizeFromLen (header tail keyLen : Nat) : Except Fault Nat :=
  if msizeMax < keyLen then .error (.error (.keyTooLarge keyLen msizeMax))
  else
    let entrySize := 2 + keyLen + tail
    if pageSize < header + entrySize then
      .error (.error (.keyTooLarge entrySize (pageSize - header)))
    else .ok entrySize

def leafEntrySizeFromLen : Nat → Except Fault Nat := entrySizeFromLen leafHeaderSize recordPointerSize

def internalEntrySizeFromLen : Nat → Except Fault Nat := entrySizeFromLen internalHeaderSize 4

/-- The entry loop of `serialize`. The later `u16::try_from` cannot fail behind the size check. -/
def serializeEntries (header tail : Nat) : Nat → List Item → Except Fault (List UInt8)
  | _, [] => .ok []
  | offset, x :: xs =>
      match entrySizeFromLen header tail x.key.length with
      | .error e => .error e
      | .ok entrySize =>
          if pageSize < offset + entrySize then
            .error (.error (.keyTooLarge entrySize (pageSize - header)))
          else
            match serializeEntries header tail (offset + entrySize) xs with
            | .error e => .error e
            | .ok rest => .ok (x.bytes ++ rest)

/-- The entry loop of `deserialize`. -/
def deserializeEntries {K P : Type} [Encode K] (tail : Nat) (decodeTail : List UInt8 → Except Fault P)
    (buf : List UInt8) : Nat → Nat → Except Fault (List (K × P))
  | 0, _ => .ok []
  | n + 1, offset =>
      if buf.length < offset + 2 then .error tooShort
      else
        let keySize := field buf offset 2
        if buf.length < offset + 2 + keySize + tail then .error tooShort
        else do
          let key ← Encode.decode (slice buf (offset + 2) keySize)
          let payload ← decodeTail (slice buf (offset + 2 + keySize) tail)
          let rest ← deserializeEntries tail decodeTail buf n (offset + 2 + keySize + tail)
          return (key, payload) :: rest

section Items

variable {K : Type} [Encode K]

def InternalEntry.item (e : InternalEntry K) : Item := ⟨Encode.encode e.key, toLE 4 e.childPage⟩

def LeafEntry.item (e : LeafEntry K) : Item := ⟨Encode.encode e.key, e.pointer.encode⟩

def NodeBody.items : NodeBody K → List Item
  | .internal body => body.entries.map InternalEntry.item
  | .leaf body => body.entries.map LeafEntry.item

end Items

def NodeBody.headerSize {K : Type} : NodeBody K → Nat
  | .internal _ => internalHeaderSize
  | .leaf _ => leafHeaderSize

def NodeBody.tailSize {K : Type} : NodeBody K → Nat
  | .internal _ => 4
  | .leaf _ => recordPointerSize

/-- The header bytes of a node. -/
def NodeBody.headerBytes {K : Type} (parentPage : Option Nat) (numEntries : Nat) :
    NodeBody K → List UInt8
  | .internal body => nodeTypeInternal :: (toLE 4 (parentPage.getD noPageSentinel) ++
      toLE 2 numEntries ++ toLE 4 body.rightmostChild)
  | .leaf body => nodeTypeLeaf :: (toLE 4 (parentPage.getD noPageSentinel) ++
      toLE 2 numEntries ++ toLE 4 (body.prevLeaf.getD noPageSentinel) ++
      toLE 4 (body.nextLeaf.getD noPageSentinel))

namespace BTreeNode

def newLeaf {K : Type} (page : Nat) (parentPage : Option Nat) : BTreeNode K :=
  ⟨page, ⟨parentPage, 0⟩, .leaf ⟨[], none, none⟩, true⟩

variable {K : Type} [Encode K]

def serialize (node : BTreeNode K) : Except Fault (List UInt8) :=
  match serializeEntries node.body.headerSize node.body.tailSize node.body.headerSize node.body.items with
  | .error e => .error e
  | .ok entries =>
      let used := node.body.headerBytes node.header.parentPage node.header.numEntries ++ entries
      .ok (used ++ MemoryManager.zeros (pageSize - used.length))

def deserialize (page : Nat) (buf : List UInt8) : Except Fault (BTreeNode K) :=
  if buf.length < internalHeaderSize then .error tooShort
  else
    let parentPage := readLink buf 1
    let numEntries := field buf 5 2
    let nodeType := buf.getD 0 0
    if nodeType = nodeTypeInternal then do
      let entries ← deserializeEntries 4 (fun tail => .ok (field tail 0 4)) buf numEntries
        internalHeaderSize
      return ⟨page, ⟨parentPage, numEntries⟩,
        .internal ⟨entries.map fun e => ⟨e.1, e.2⟩, field buf 7 4⟩, false⟩
    else if nodeType = nodeTypeLeaf then
      if buf.length < leafHeaderSize then .error tooShort
      else do
        let entries ← deserializeEntries recordPointerSize RecordAddress.decode buf numEntries
          leafHeaderSize
        return ⟨page, ⟨parentPage, numEntries⟩,
          .leaf ⟨entries.map fun e => ⟨e.1, e.2⟩, readLink buf 7, readLink buf 11⟩, false⟩
    else .error tooShort

/-- The bytes of a page; the buffer keeps its zeros where the read is short. -/
def readPage (page : Nat) : Prog (List UInt8) := do
  let buf ← MemoryAccess.readAtRaw page 0 pageSize
  return buf ++ MemoryManager.zeros (pageSize - buf.length)

def read (page : Nat) : Prog (BTreeNode K) := do
  let buf ← readPage page
  Prog.lift (deserialize page buf)

def flush (node : BTreeNode K) : Prog (BTreeNode K) :=
  if node.dirty = false then return node
  else do
    let buf ← Prog.lift node.serialize
    MemoryAccess.writeAtRaw node.page 0 buf
    return { node with dirty := false }

/-- The sizes of the entries, as far as every entry fits a page. -/
def entrySizes (body : NodeBody K) : Except Fault (List Nat) :=
  body.items.mapM fun x => entrySizeFromLen body.headerSize body.tailSize x.key.length

def entriesByteSize (node : BTreeNode K) : Except Fault Nat :=
  (entrySizes node.body).map List.sum

def wouldOverflow (node : BTreeNode K) : Except Fault Bool :=
  node.entriesByteSize.map fun size => decide (pageSize < node.body.headerSize + size)

omit [Encode K] in
def firstKey (node : BTreeNode K) : Option K :=
  match node.body with
  | .internal body => body.entries.head?.map InternalEntry.key
  | .leaf body => body.entries.head?.map LeafEntry.key

end BTreeNode

inductive NodeKind where
  | internal (rightmostChild : Nat)
  | leaf (prevLeaf nextLeaf : Option Nat)
  deriving DecidableEq, Repr

structure NodeView where
  buf : List UInt8
  kind : NodeKind
  keyOffsets : List Nat
  deriving DecidableEq, Repr

namespace NodeView

/-- The entry loop of `parse`. -/
def parseOffsets (tail : Nat) (buf : List UInt8) : Nat → Nat → Except Fault (List Nat)
  | 0, _ => .ok []
  | n + 1, offset =>
      if buf.length < offset + 2 then .error tooShort
      else
        let keySize := field buf offset 2
        if buf.length < offset + 2 + keySize + tail then .error tooShort
        else do
          let rest ← parseOffsets tail buf n (offset + 2 + keySize + tail)
          return (offset + 2) :: rest

def parse (buf : List UInt8) : Except Fault NodeView :=
  if buf.length < internalHeaderSize then .error tooShort
  else
    let numEntries := field buf 5 2
    let nodeType := buf.getD 0 0
    if nodeType = nodeTypeInternal then do
      let keyOffsets ← parseOffsets 4 buf numEntries internalHeaderSize
      return ⟨buf, .internal (field buf 7 4), keyOffsets⟩
    else if nodeType = nodeTypeLeaf ∧ leafHeaderSize ≤ buf.length then do
      let keyOffsets ← parseOffsets recordPointerSize buf numEntries leafHeaderSize
      return ⟨buf, .leaf (readLink buf 7) (readLink buf 11), keyOffsets⟩
    else .error tooShort

def firstLeafKey (K : Type) [Encode K] (buf : List UInt8) : Except Fault (Option K) :=
  if buf.length < leafHeaderSize ∨ buf.getD 0 0 ≠ nodeTypeLeaf then .error tooShort
  else if field buf 5 2 = 0 then .ok none
  else
    let start := leafHeaderSize + 2
    let keySize := field buf leafHeaderSize 2
    if buf.length < start + keySize + recordPointerSize then .error tooShort
    else (Encode.decode (slice buf start keySize)).map some

def isLeafPage (buf : List UInt8) : Bool := decide (buf.head? = some nodeTypeLeaf)

def len (view : NodeView) : Nat := view.keyOffsets.length

def isLeaf (view : NodeView) : Bool :=
  match view.kind with
  | .leaf _ _ => true
  | .internal _ => false

def prevLeaf (view : NodeView) : Option Nat :=
  match view.kind with
  | .leaf prev _ => prev
  | .internal _ => none

def nextLeaf (view : NodeView) : Option Nat :=
  match view.kind with
  | .leaf _ next => next
  | .internal _ => none

/-- `key_range`; an index past the end panics. -/
def keyRange (view : NodeView) (index : Nat) : Except Fault (Nat × Nat) :=
  match view.keyOffsets[index]? with
  | none => .error .panic
  | some start => .ok (start, start + field view.buf (start - 2) 2)

def key {K : Type} [Encode K] (view : NodeView) (index : Nat) : Except Fault K := do
  let (start, stop) ← view.keyRange index
  Encode.decode (slice view.buf start (stop - start))

def pointer (view : NodeView) (index : Nat) : Except Fault RecordAddress := do
  let (_, keyEnd) ← view.keyRange index
  RecordAddress.decode (slice view.buf keyEnd recordPointerSize)

def partitionPoint {K : Type} [Encode K] (view : NodeView) (pred : K → Bool) : Except Fault Nat :=
  Bisect.bisect (fun mid => do return pred (← view.key mid)) view.len

def childFor {K : Type} [Key K] (view : NodeView) (key : K) : Except Fault (Option Nat) :=
  match view.kind with
  | .leaf _ _ => .ok none
  | .internal rightmostChild => do
      let index ← view.partitionPoint fun entry => decide (entry ≤ key)
      if index < view.len then
        let (_, keyEnd) ← view.keyRange index
        return some (field view.buf keyEnd 4)
      else return some rightmostChild

end NodeView

end WasmDbms
