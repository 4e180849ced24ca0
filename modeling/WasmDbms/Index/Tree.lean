import WasmDbms.Index.Node

/-!
# The index tree

The page-backed B+ tree: descent by separators, insertion with byte-balanced
splits, deletion that leaves emptied leaves in place, and the forward cursor.
Loops that follow pages take the number of rounds as fuel.
-/
namespace WasmDbms
open Bisect

structure IndexTree where
  rootPage : Nat
  deriving DecidableEq, Repr

/-- The loop of `byte_balanced_split_index` with the best index so far and its imbalance. -/
def balancedSplitLoop (capacity total count : Nat) (promoteMedian : Bool) :
    Nat → Nat → Option (Nat × Nat) → List Nat → Option (Nat × Nat)
  | _, _, best, [] => best
  | index, left, best, size :: sizes =>
      let right := if promoteMedian then total - left - size else total - left
      let rightNonEmpty := !promoteMedian || decide (index + 1 < count)
      let imbalance := (left - right) + (right - left)
      let better := match best with
        | none => true
        | some (_, bestImbalance) => decide (imbalance < bestImbalance)
      let best := if 0 < index ∧ rightNonEmpty = true ∧ left ≤ capacity ∧ right ≤ capacity ∧ better = true
        then some (index, imbalance) else best
      balancedSplitLoop capacity total count promoteMedian (index + 1) (left + size) best sizes

def byteBalancedSplitIndex (entrySizes : List Nat) (headerSize : Nat) (promoteMedian : Bool) : Option Nat :=
  if pageSize < headerSize then none
  else
    (balancedSplitLoop (pageSize - headerSize) entrySizes.sum entrySizes.length promoteMedian 0 0 none
      entrySizes).map Prod.fst

namespace IndexTree

variable {K : Type} [Key K]

variable (K) in
/-- An empty tree with a single root leaf. -/
def init : Prog IndexTree := do
  let rootPage ← MemoryAccess.claimPage
  let _ ← (BTreeNode.newLeaf rootPage none : BTreeNode K).flush
  return ⟨rootPage⟩

/-- Keys equal to a separator route right. -/
def findChild (internal : InternalNodeBody K) (key : K) : Nat :=
  match internal.entries[partitionPoint (fun entry => decide (entry.key ≤ key)) internal.entries]? with
  | some entry => entry.childPage
  | none => internal.rightmostChild

/-- The nodes from a page down to the leaf the key routes to. -/
def readPath (key : K) : Nat → Nat → Prog (List (BTreeNode K))
  | 0, _ => .fail .diverges
  | fuel + 1, page => do
      let node ← BTreeNode.read page
      match node.body with
      | .internal body => do
          let rest ← readPath key fuel (findChild body key)
          return node :: rest
      | .leaf _ => return [node]

/-- The entry is put in its place in the leaf at the end of the path. -/
def insertIntoLeaf (node : BTreeNode K) (key : K) (pointer : RecordAddress) : BTreeNode K :=
  match node.body with
  | .internal _ => node
  | .leaf body =>
      let position := partitionPoint
        (fun entry => decide (entry.key < key) || (Key.same entry.key key && entry.pointer.lt pointer))
        body.entries
      let entries := body.entries.insertIdx position ⟨key, pointer⟩
      { node with
        body := .leaf { body with entries := entries }
        header := { node.header with numEntries := entries.length % 65536 }
        dirty := true }

/-- The split index of a node, or `KeyTooLarge` with the largest entry. -/
def splitIndex (body : NodeBody K) (promoteMedian : Bool) : Except Fault Nat :=
  match BTreeNode.entrySizes body with
  | .error e => .error e
  | .ok sizes =>
      match byteBalancedSplitIndex sizes body.headerSize promoteMedian with
      | some index => .ok index
      | none => .error (.error (.keyTooLarge (sizes.foldl max 0) (pageSize - body.headerSize)))

/-- The leaf behind a split leaf gets the new leaf as its predecessor. -/
def relinkNext (nextLeaf : Option Nat) (rightPage : Nat) : Prog Unit :=
  match nextLeaf with
  | none => return ()
  | some nextPage => do
      let node : BTreeNode K ← BTreeNode.read nextPage
      match node.body with
      | .internal _ => return ()
      | .leaf body => do
          let _ ← BTreeNode.flush { node with
            body := .leaf { body with prevLeaf := some rightPage }, dirty := true }
          return ()

def splitNode (node : BTreeNode K) : Prog (BTreeNode K × Promotion K) :=
  match node.body with
  | .leaf body => do
      let splitAt ← Prog.lift (splitIndex node.body false)
      let rightEntries := body.entries.drop splitAt
      match rightEntries.head? with
      | none => .fail .panic
      | some first => do
          let rightPage ← MemoryAccess.claimPage
          relinkNext (K := K) body.nextLeaf rightPage
          let leftEntries := body.entries.take splitAt
          let _ ← BTreeNode.flush (⟨rightPage, ⟨node.header.parentPage, rightEntries.length % 65536⟩,
            .leaf ⟨rightEntries, some node.page, body.nextLeaf⟩, true⟩ : BTreeNode K)
          return (⟨node.page, ⟨node.header.parentPage, leftEntries.length % 65536⟩,
            .leaf ⟨leftEntries, body.prevLeaf, some rightPage⟩, true⟩, ⟨first.key, node.page, rightPage⟩)
  | .internal body => do
      let mid ← Prog.lift (splitIndex node.body true)
      match body.entries[mid]? with
      | none => .fail .panic
      | some median => do
          let leftEntries := body.entries.take mid
          let rightEntries := body.entries.drop (mid + 1)
          let rightPage ← MemoryAccess.claimPage
          let _ ← BTreeNode.flush (⟨rightPage, ⟨node.header.parentPage, rightEntries.length % 65536⟩,
            .internal ⟨rightEntries, body.rightmostChild⟩, true⟩ : BTreeNode K)
          return (⟨node.page, ⟨node.header.parentPage, leftEntries.length % 65536⟩,
            .internal ⟨leftEntries, median.childPage⟩, true⟩, ⟨median.key, node.page, rightPage⟩)

/-- The entries of a parent after the split of a child. -/
def promoteEntries (body : InternalNodeBody K) (promotion : Promotion K) :
    Except Fault (InternalNodeBody K) :=
  let promoted : InternalEntry K := ⟨promotion.key, promotion.leftPage⟩
  if body.rightmostChild = promotion.leftPage then
    .ok ⟨body.entries ++ [promoted], promotion.rightPage⟩
  else
    match body.entries.findIdx? fun entry => decide (entry.childPage = promotion.leftPage) with
    | some position =>
        let entries := body.entries.insertIdx position promoted
        .ok ⟨entries.modify (position + 1) (fun entry => ⟨entry.key, promotion.rightPage⟩),
          body.rightmostChild⟩
    | none => .error .panic

def promoteIntoInternal (parent : BTreeNode K) (promotion : Promotion K) : Except Fault (BTreeNode K) :=
  match parent.body with
  | .leaf _ => .error .panic
  | .internal body =>
      match promoteEntries body promotion with
      | .error e => .error e
      | .ok body => .ok { parent with
          body := .internal body
          header := { parent.header with numEntries := body.entries.length % 65536 }
          dirty := true }

/-- What the split below leaves for a node of the path. -/
def absorb (node : BTreeNode K) : Option (Promotion K) → Except Fault (BTreeNode K)
  | none => .ok node
  | some promotion => promoteIntoInternal node promotion

/-- The loop of `insert` over the path from the leaf up: a node that overflows is
split and its median promoted into the node above. A promotion out of the root is left over. -/
def climb : Option (Promotion K) → List (BTreeNode K) → Prog (List (BTreeNode K) × Option (Promotion K))
  | promotion, [] => return ([], promotion)
  | promotion, node :: above => do
      let node ← Prog.lift (absorb node promotion)
      let overflow ← Prog.lift node.wouldOverflow
      if overflow then do
        let (node, promotion) ← splitNode node
        let (above, left) ← climb (some promotion) above
        return (node :: above, left)
      else do
        let (above, left) ← climb none above
        return (node :: above, left)

/-- A promotion out of the root makes a new root above the two halves. -/
def growRoot (tree : IndexTree) (path : List (BTreeNode K)) : Option (Promotion K) →
    Prog (IndexTree × List (BTreeNode K))
  | none => return (tree, path)
  | some promotion => do
      let newRootPage ← MemoryAccess.claimPage
      let path := path.modifyHead fun node =>
        { node with header := { node.header with parentPage := some newRootPage }, dirty := true }
      let _ ← BTreeNode.flush (⟨newRootPage, ⟨none, 1⟩,
        .internal ⟨[⟨promotion.key, promotion.leftPage⟩], promotion.rightPage⟩, true⟩ : BTreeNode K)
      return (⟨newRootPage⟩, path)

def flushAll : List (BTreeNode K) → Prog Unit
  | [] => return ()
  | node :: nodes => do
      let _ ← node.flush
      flushAll nodes

def insert (fuel : Nat) (tree : IndexTree) (key : K) (pointer : RecordAddress) : Prog IndexTree := do
  let path ← readPath key fuel tree.rootPage
  match path.reverse with
  | [] => .fail .panic
  | leaf :: ancestors => do
      let (nodes, promotion) ← climb none (insertIntoLeaf leaf key pointer :: ancestors)
      let (tree, path) ← growRoot tree nodes.reverse promotion
      flushAll path
      return tree

/-- The leaf a key routes to, with its bytes. -/
def findLeafPageInto (key : K) : Nat → Nat → Prog (Nat × List UInt8)
  | 0, _ => .fail .diverges
  | fuel + 1, page => do
      let buf ← BTreeNode.readPage page
      if NodeView.isLeafPage buf then return (page, buf)
      else do
        let view ← Prog.lift (NodeView.parse buf)
        match ← Prog.lift (view.childFor key) with
        | some child => findLeafPageInto key fuel child
        | none => return (page, buf)

/-- The nearest earlier leaf that is not empty, if it may still hold the key. -/
def skipEmptied (key : K) : Nat → Option Nat → Prog (Option (Nat × List UInt8))
  | _, none => return none
  | 0, some _ => .fail .diverges
  | fuel + 1, some prev => do
      let buf ← BTreeNode.readPage prev
      let view ← Prog.lift (NodeView.parse buf)
      if view.len = 0 then skipEmptied key fuel view.prevLeaf
      else do
        let last ← Prog.lift (view.key (view.len - 1))
        if key ≤ last then return some (prev, buf) else return none

/-- The walk back over the sibling chain. -/
def walkBack (key : K) : Nat → Nat → List UInt8 → Prog (Nat × List UInt8)
  | 0, _, _ => .fail .diverges
  | fuel + 1, page, buf => do
      let first ← Prog.lift (NodeView.firstLeafKey K buf)
      if first.any fun first => decide (first < key) then return (page, buf)
      else do
        let view ← Prog.lift (NodeView.parse buf)
        match ← skipEmptied key fuel view.prevLeaf with
        | some (prev, buf) => walkBack key fuel prev buf
        | none =>
            if view.prevLeaf.isSome then do
              let buf ← BTreeNode.readPage page
              return (page, buf)
            else return (page, buf)

def findSearchStartPage (fuel : Nat) (tree : IndexTree) (key : K) : Prog (Nat × List UInt8) := do
  let (page, buf) ← findLeafPageInto key fuel tree.rootPage
  walkBack key fuel page buf

def findSearchStartLeaf (fuel : Nat) (tree : IndexTree) (key : K) : Prog (BTreeNode K) := do
  let (page, buf) ← findSearchStartPage fuel tree key
  Prog.lift (BTreeNode.deserialize page buf)

/-- `usize::MAX`. -/
def usizeMax : Nat := 18446744073709551615

/-- The entries of one leaf from an index on: the answer when the key or the
limit ends, or the results so far at the end of the leaf. -/
def collectLeaf (key : K) (limit : Nat) (view : NodeView) : Nat → Nat → List RecordAddress →
    Except Fault (Option (List RecordAddress) ⊕ List RecordAddress)
  | 0, _, results => .ok (.inr results)
  | n + 1, index, results => do
      let found : K ← view.key index
      if Key.same found key = false then return .inl (some results)
      else if results.length = limit then return .inl none
      else do
        let pointer ← view.pointer index
        collectLeaf key limit view n (index + 1) (results ++ [pointer])

def collect (key : K) (limit : Nat) : Nat → List UInt8 → List RecordAddress →
    Prog (Option (List RecordAddress))
  | 0, _, _ => .fail .diverges
  | fuel + 1, buf, results => do
      let view ← Prog.lift (NodeView.parse buf)
      if view.isLeaf = false then return some results
      else do
        let start ← Prog.lift (view.partitionPoint fun entry : K => decide (entry < key))
        match ← Prog.lift (collectLeaf key limit view (view.len - start) start results) with
        | .inl answer => return answer
        | .inr results =>
            match view.nextLeaf with
            | none => return some results
            | some page => do
                let buf ← BTreeNode.readPage page
                collect key limit fuel buf results

def searchLimited (fuel : Nat) (tree : IndexTree) (key : K) (limit : Nat) :
    Prog (Option (List RecordAddress)) := do
  let (_, buf) ← findSearchStartPage fuel tree key
  collect key limit fuel buf []

def search (fuel : Nat) (tree : IndexTree) (key : K) : Prog (List RecordAddress) := do
  let found ← searchLimited fuel tree key usizeMax
  return found.getD []

/-- The loop of `delete` along the sibling chain. -/
def deleteFrom (key : K) (pointer : RecordAddress) : Nat → BTreeNode K → Prog Unit
  | 0, _ => .fail .diverges
  | fuel + 1, node =>
      match node.body with
      | .internal _ => Prog.throw .entryNotFound
      | .leaf body =>
          match body.entries.findIdx? fun entry => Key.same entry.key key && decide (entry.pointer = pointer) with
          | some index => do
              let entries := body.entries.eraseIdx index
              let _ ← BTreeNode.flush { node with
                body := .leaf { body with entries := entries }
                header := { node.header with numEntries := entries.length % 65536 }
                dirty := true }
              return ()
          | none =>
              match body.nextLeaf with
              | none => Prog.throw .entryNotFound
              | some page => do
                  let next ← BTreeNode.read page
                  if next.firstKey.any fun first => decide (key < first) then Prog.throw .entryNotFound
                  else deleteFrom key pointer fuel next

def delete (fuel : Nat) (tree : IndexTree) (key : K) (pointer : RecordAddress) : Prog Unit := do
  let leaf ← findSearchStartLeaf fuel tree key
  deleteFrom key pointer fuel leaf

def update (fuel : Nat) (tree : IndexTree) (key : K) (oldPointer newPointer : RecordAddress) :
    Prog IndexTree := do
  delete fuel tree key oldPointer
  insert fuel tree key newPointer

end IndexTree

structure IndexTreeWalker (K : Type) where
  entries : List (LeafEntry K)
  cursor : Nat
  nextLeaf : Option Nat
  endKey : Option K
  deriving DecidableEq, Repr

namespace IndexTreeWalker

variable {K : Type} [Key K]

def isPastEnd (walker : IndexTreeWalker K) (key : K) : Bool :=
  walker.endKey.any fun endKey => decide (endKey ≤ key)

def loadNextLeaf (walker : IndexTreeWalker K) : Prog (Bool × IndexTreeWalker K) :=
  match walker.nextLeaf with
  | none => return (false, walker)
  | some page => do
      let node : BTreeNode K ← BTreeNode.read page
      match node.body with
      | .leaf leaf => return (true, { walker with entries := leaf.entries, cursor := 0, nextLeaf := leaf.nextLeaf })
      | .internal _ => return (false, walker)

/-- The loop that `next` and `next_entry` share. -/
def advance : Nat → IndexTreeWalker K → Prog (Option (LeafEntry K) × IndexTreeWalker K)
  | 0, _ => .fail .diverges
  | fuel + 1, walker =>
      match walker.entries[walker.cursor]? with
      | some entry =>
          if walker.isPastEnd entry.key then return (none, walker)
          else return (some entry, { walker with cursor := walker.cursor + 1 })
      | none => do
          let (loaded, walker) ← walker.loadNextLeaf
          if loaded then advance fuel walker else return (none, walker)

def next (fuel : Nat) (walker : IndexTreeWalker K) :
    Prog (Option RecordAddress × IndexTreeWalker K) := do
  let (entry, walker) ← walker.advance fuel
  return (entry.map LeafEntry.pointer, walker)

def nextEntry (fuel : Nat) (walker : IndexTreeWalker K) :
    Prog (Option (K × RecordAddress) × IndexTreeWalker K) := do
  let (entry, walker) ← walker.advance fuel
  return (entry.map fun e => (e.key, e.pointer), walker)

/-- A cursor call repeated until it returns nothing. -/
def drain {α : Type} (step : IndexTreeWalker K → Prog (Option α × IndexTreeWalker K)) :
    Nat → IndexTreeWalker K → Prog (List α)
  | 0, _ => .fail .diverges
  | fuel + 1, walker => do
      let (entry, walker) ← step walker
      match entry with
      | none => return []
      | some entry => do
          let rest ← drain step fuel walker
          return entry :: rest

end IndexTreeWalker

namespace IndexTree

variable {K : Type} [Key K]

def rangeScan (fuel : Nat) (tree : IndexTree) (startKey : K) (endKey : Option K) :
    Prog (IndexTreeWalker K) := do
  let leaf ← findSearchStartLeaf fuel tree startKey
  match leaf.body with
  | .leaf body =>
      return ⟨body.entries, partitionPoint (fun entry => decide (entry.key < startKey)) body.entries,
        body.nextLeaf, endKey⟩
  | .internal _ => .fail .panic

end IndexTree

end WasmDbms
