import Mathlib.Tactic
import StorageDb.Lib.SortedAssoc
import StorageDb.Btree.Node
import StorageDb.Buffer.Pool

namespace StorageDb
open Bytes

-- The tree touches its pages only through read_node, write_node and allocate_page.
class NodeStore (σ : Type) where
  readNode : PageId → Prog Error σ BTreeNode
  writeNode : BTreeNode → Prog Error σ Unit
  allocatePage : Prog Error σ PageId

structure BPlusTree where
  rootPageId : PageId
  deriving DecidableEq, Repr

def Page.copyData (src dst : Page) : Page := ⟨dst.id,src.data,src.size⟩

def BTreeNode.sealed (nd : BTreeNode) : BTreeNode := ⟨nd.page.updateChecksum⟩

namespace BufferPoolManager

def readNode (pageId : PageId) : Prog Error BufferPoolManager BTreeNode := do
  let page ← fetchPage pageId
  unpinPage pageId false
  pure ⟨page⟩

def writeNode (nd : BTreeNode) : Prog Error BufferPoolManager Unit := do
  let pageId := nd.page.id
  let i ← fetchPageMut pageId
  modifyPage i nd.sealed.page.copyData
  unpinPage pageId true

def allocatePage : Prog Error BufferPoolManager PageId := do
  let pageId ← newPage
  unpinPage pageId false
  pure pageId

instance : NodeStore BufferPoolManager where
  readNode := readNode
  writeNode := writeNode
  allocatePage := allocatePage

end BufferPoolManager

namespace BPlusTree
open NodeStore BTreeNode

def create : Prog Error BufferPoolManager BPlusTree := do
  let rootId ← BufferPoolManager.newPage
  let i ← BufferPoolManager.fetchPageMut rootId
  BufferPoolManager.modifyPage i (newLeaf rootId).sealed.page.copyData
  BufferPoolManager.unpinPage rootId true
  BufferPoolManager.unpinPage rootId false
  pure ⟨rootId⟩

def open_ (rootPageId : PageId) : BPlusTree := ⟨rootPageId⟩

variable {σ : Type} [NodeStore σ]

-- Loops and recursion of the source carry a fuel; running out of it is a hang.
def descend (choose : BTreeNode → Option PageId) : Nat → PageId → Prog Error σ PageId
  | 0, _ => Prog.fail .hang
  | fuel + 1, currentId => do
    let node ← readNode currentId
    if node.isLeaf then pure currentId
    else do
      let child ← Prog.ofOption (choose node)
      descend choose fuel child

def findLeaf (tree : BPlusTree) (fuel : Nat) (key : Bytes) : Prog Error σ PageId :=
  descend (fun node => do
    let childIdx ← node.internalFindChild key
    node.internalChild childIdx) fuel tree.rootPageId

def search (tree : BPlusTree) (fuel : Nat) (key : Bytes) : Prog Error σ (Option Bytes) := do
  let leafId ← tree.findLeaf fuel key
  let node ← readNode leafId
  let (idx,found) ← Prog.ofOption (node.leafFindSlot key)
  if found then do
    let v ← Prog.ofOption (node.leafValue idx)
    pure (some v)
  else pure none

def setParentOf (parentId childId : PageId) : Prog Error σ Unit := do
  let child ← readNode childId
  writeNode (child.setParent parentId)

def setParents (parentId : PageId) : List PageId → Prog Error σ Unit
  | [] => pure ()
  | childId :: rest => do
    setParentOf parentId childId
    setParents parentId rest

def updateChildrenParent (parentId : PageId) : Prog Error σ Unit := do
  let parent ← readNode parentId
  let children ← Prog.ofOption ((List.range parent.numChildren).mapM parent.internalChild)
  setParents parentId children

def newRoot (leftChild : PageId) (key : Bytes) (rightChild : PageId) :
    Prog Error σ BPlusTree := do
  let newRootId ← allocatePage
  let root ← Prog.ofOption
    (((newInternal newRootId).setLeftmostChild leftChild).internalInsert key rightChild)
  writeNode root
  setParentOf newRootId leftChild
  setParentOf newRootId rightChild
  pure ⟨newRootId⟩

-- binary_search_by(|(k, _)| k.cmp(key)).unwrap_or_else(|i| i), on any list: an overflowing insert
-- can leave the entries of a page unsorted.
def insertPos {α : Type} (key : Bytes) (entries : List (Bytes × α)) : Nat :=
  Bisect.insertionPoint (fun e => keyCmp e.1 key) entries

theorem insertPos_eq_rank {α : Type} {entries : List (Bytes × α)}
    (hs : SortedAssoc.Sorted entries) (key : Bytes) :
    insertPos key entries = SortedAssoc.rank key entries := by
  refine Bisect.insertionPoint_eq (SortedAssoc.rank_le_length key entries) ?_ ?_ ?_
  · intro i e hi he
    exact keyCmp_lt (SortedAssoc.lt_of_getElem?_lt_rank hi he)
  · intro e he hlt
    have hle := SortedAssoc.le_of_rank_le_getElem? hs le_rfl he
    rcases hle.lt_or_eq with h | h
    · rw [keyCmp_gt h] at hlt
      cases hlt
    · rw [← h,keyCmp_self] at hlt
      cases hlt
  · intro i e hi he
    exact keyCmp_gt (SortedAssoc.lt_of_rank_lt_getElem? hs hi he)

-- split_internal up to its call of insert_into_parent; the result is the key pushed up and the
-- page of the right half.
def splitInternal (oldNode : BTreeNode) (newKey : Bytes) (newChild : PageId) :
    Prog Error σ (Bytes × PageId) := do
  let (leftmost,entries) ← Prog.ofOption oldNode.internalEntries
  let entries := entries.insertIdx (insertPos newKey entries) (newKey,newChild)
  let splitPoint := entries.length / 2
  let (pushUpKey,rightLeftmost) ← Prog.ofOption entries[splitPoint]?
  let rightId ← allocatePage
  let rightNode ← Prog.ofOption (((newInternal rightId).setLevel oldNode.getLevel).internalRebuild
    rightLeftmost (entries.drop (splitPoint + 1)))
  let newOldNode ← Prog.ofOption ((((newInternal oldNode.page.id).setLevel
    oldNode.getLevel).setParent oldNode.getParent).internalRebuild leftmost
      (entries.take splitPoint))
  writeNode newOldNode
  writeNode rightNode
  updateChildrenParent rightId
  pure (pushUpKey,rightId)

def insertIntoParent (tree : BPlusTree) : Nat → PageId → Bytes → PageId → PageId →
    Prog Error σ BPlusTree
  | 0, _, _, _, _ => Prog.fail .hang
  | fuel + 1, leftChild, key, rightChild, parentId =>
    if parentId = invalidPageId then newRoot leftChild key rightChild
    else do
      let parent ← readNode parentId
      let fits ← Prog.ofOption (parent.internalCanFit key)
      if fits then do
        let parent ← Prog.ofOption (parent.internalInsert key rightChild)
        writeNode parent
        setParentOf parentId rightChild
        pure tree
      else do
        let (pushUpKey,rightId) ← splitInternal parent key rightChild
        insertIntoParent tree fuel parent.page.id pushUpKey rightId parent.getParent

-- split_and_insert_leaf up to its call of insert_into_parent.
def splitLeaf (oldNode : BTreeNode) (key value : Bytes) : Prog Error σ (Bytes × PageId) := do
  let entries ← Prog.ofOption oldNode.leafEntries
  let entries := entries.insertIdx (insertPos key entries) (key,value)
  let splitPoint := entries.length / 2
  let rightId ← allocatePage
  let oldNode' ← Prog.ofOption ((((newLeaf oldNode.page.id).setParent
    oldNode.getParent).setRightSibling rightId).leafFill (entries.take splitPoint))
  let rightNode ← Prog.ofOption (((newLeaf rightId).setRightSibling
    oldNode.getRightSibling).leafFill (entries.drop splitPoint))
  let splitKey ← Prog.ofOption (rightNode.leafKey 0)
  writeNode oldNode'
  writeNode rightNode
  pure (splitKey,rightId)

def splitAndInsertLeaf (tree : BPlusTree) (fuel : Nat) (oldNode : BTreeNode) (key value : Bytes) :
    Prog Error σ BPlusTree := do
  let (splitKey,rightId) ← splitLeaf oldNode key value
  insertIntoParent tree fuel oldNode.page.id splitKey rightId oldNode.getParent

-- insert below find_leaf.
def insertAt (tree : BPlusTree) (fuel : Nat) (leafId : PageId) (key value : Bytes) :
    Prog Error σ (Bool × BPlusTree) := do
  let node ← readNode leafId
  let (_,found) ← Prog.ofOption (node.leafFindSlot key)
  if found then do
    let (_,node) ← Prog.ofOption (node.leafInsert key value)
    writeNode node
    pure (false,tree)
  else do
    let fits ← Prog.ofOption (node.leafCanFit key value)
    if fits then do
      let (_,node) ← Prog.ofOption (node.leafInsert key value)
      writeNode node
      pure (true,tree)
    else do
      let tree ← splitAndInsertLeaf tree fuel node key value
      pure (true,tree)

def insert (tree : BPlusTree) (fuel : Nat) (key value : Bytes) :
    Prog Error σ (Bool × BPlusTree) := do
  let leafId ← tree.findLeaf fuel key
  insertAt tree fuel leafId key value

def delete (tree : BPlusTree) (fuel : Nat) (key : Bytes) : Prog Error σ (Option Bytes) := do
  let leafId ← tree.findLeaf fuel key
  let node ← readNode leafId
  let (result,node) ← Prog.ofOption (node.leafDelete key)
  if result.isSome then writeNode node
  pure result

def scanLeaves : Nat → PageId → Prog Error σ (List (Bytes × Bytes))
  | 0, _ => Prog.fail .hang
  | fuel + 1, currentId => do
    let node ← readNode currentId
    let entries ← Prog.ofOption node.leafEntries
    if node.getRightSibling = invalidPageId then pure entries
    else do
      let rest ← scanLeaves fuel node.getRightSibling
      pure (entries ++ rest)

def scanAll (tree : BPlusTree) (fuel : Nat) : Prog Error σ (List (Bytes × Bytes)) := do
  let leafId ← descend (fun node => some node.getLeftmostChild) fuel tree.rootPageId
  scanLeaves fuel leafId

-- The flag says that a key above the range was met, which leaves both loops.
def rangeLeaf (node : BTreeNode) (start stop : Bytes) :
    List Nat → Option (List (Bytes × Bytes) × Bool)
  | [] => some ([],false)
  | i :: rest => do
    let key ← node.leafKey i
    if stop < key then some ([],true)
    else if start ≤ key then do
      let value ← node.leafValue i
      let (found,done) ← rangeLeaf node start stop rest
      some ((key,value) :: found,done)
    else rangeLeaf node start stop rest

def rangeLeaves (start stop : Bytes) : Nat → PageId → Prog Error σ (List (Bytes × Bytes))
  | 0, _ => Prog.fail .hang
  | fuel + 1, currentId => do
    let node ← readNode currentId
    let (found,done) ← Prog.ofOption (rangeLeaf node start stop (List.range node.numKeys))
    if done then pure found
    else if node.getRightSibling = invalidPageId then pure found
    else do
      let rest ← rangeLeaves start stop fuel node.getRightSibling
      pure (found ++ rest)

def rangeScan (tree : BPlusTree) (fuel : Nat) (start stop : Bytes) :
    Prog Error σ (List (Bytes × Bytes)) := do
  let leafId ← tree.findLeaf fuel start
  rangeLeaves start stop fuel leafId

end BPlusTree

end StorageDb
