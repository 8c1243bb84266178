import Mathlib.Tactic
import StorageDb.Lib.Bisect
import StorageDb.Disk.Page

namespace StorageDb
open Bytes Bisect

def keyCmp (a b : Bytes) : Ordering := if a < b then .lt else if a = b then .eq else .gt

theorem keyCmp_lt {a b : Bytes} (h : a < b) : keyCmp a b = .lt := if_pos h

theorem keyCmp_self (a : Bytes) : keyCmp a a = .eq := by
  rw [keyCmp,if_neg (lt_irrefl a),if_pos rfl]

theorem keyCmp_gt {a b : Bytes} (h : b < a) : keyCmp a b = .gt := by
  rw [keyCmp,if_neg h.not_gt,if_neg h.ne']

def maxKeySize : Nat := 256
def maxValueSize : Nat := 256
def leafSlotSize : Nat := 6
def internalSlotSize : Nat := 8
def btreeHeaderSize : Nat := 10

@[ext] structure BTreeNode where
  page : Page
  deriving DecidableEq

-- In the node operations none is a panic: an index or slice out of range, or a subtraction
-- below zero.
namespace BTreeNode

def getRightSibling (nd : BTreeNode) : PageId := UInt32.ofNat (nd.page.field 16 4)
def setRightSibling (nd : BTreeNode) (pid : PageId) : BTreeNode :=
  ⟨nd.page.setField 16 4 pid.toNat (by decide)⟩
def getParent (nd : BTreeNode) : PageId := UInt32.ofNat (nd.page.field 20 4)
def setParent (nd : BTreeNode) (pid : PageId) : BTreeNode :=
  ⟨nd.page.setField 20 4 pid.toNat (by decide)⟩
def getLevel (nd : BTreeNode) : Nat := nd.page.field 24 2
def setLevel (nd : BTreeNode) (level : Nat) : BTreeNode :=
  ⟨nd.page.setField 24 2 level (by decide)⟩

def isLeaf (nd : BTreeNode) : Bool := nd.page.getPageType == .leaf

def numKeys (nd : BTreeNode) : Nat := nd.page.getNumSlots

def blank (pageId : PageId) (t : PageType) : BTreeNode :=
  ⟨(((Page.new pageId).setPageType t).setNumSlots 0).setFreeOffset (headerSize + btreeHeaderSize)⟩

def newLeaf (pageId : PageId) : BTreeNode :=
  (((blank pageId .leaf).setRightSibling invalidPageId).setParent invalidPageId).setLevel 0

def newInternal (pageId : PageId) : BTreeNode :=
  (((blank pageId .internal).setRightSibling invalidPageId).setParent invalidPageId).setLevel 1

def reset (nd : BTreeNode) (t : PageType) : BTreeNode :=
  (((blank nd.page.id t).setRightSibling nd.getRightSibling).setParent nd.getParent).setLevel
    nd.getLevel

def leafSlotsStart : Nat := headerSize + btreeHeaderSize

def leafSlotOffset (idx : Nat) : Nat := leafSlotsStart + idx * leafSlotSize

def readLeafSlot (nd : BTreeNode) (idx : Nat) : Option (Nat × Nat × Nat) := do
  let s ← nd.page.read (leafSlotOffset idx) leafSlotSize
  some (leNat (slice s 0 2),leNat (slice s 2 2),leNat (slice s 4 2))

def writeLeafSlot (nd : BTreeNode) (idx dataOffset keyLen valLen : Nat) : Option BTreeNode := do
  let pg ← nd.page.write (leafSlotOffset idx)
    (leBytes 2 dataOffset ++ (leBytes 2 keyLen ++ leBytes 2 valLen))
  some ⟨pg⟩

def leafKey (nd : BTreeNode) (idx : Nat) : Option Bytes := do
  let (dataOffset,keyLen,_) ← nd.readLeafSlot idx
  nd.page.read dataOffset keyLen

def leafValue (nd : BTreeNode) (idx : Nat) : Option Bytes := do
  let (dataOffset,keyLen,valLen) ← nd.readLeafSlot idx
  nd.page.read (dataOffset + keyLen) valLen

def leafFindSlot (nd : BTreeNode) (key : Bytes) : Option (Nat × Bool) :=
  if nd.numKeys = 0 then some (0,false)
  else bisect (fun mid => (nd.leafKey mid).map (fun k => keyCmp k key)) nd.numKeys 0 nd.numKeys

def leafDataFrontier (nd : BTreeNode) : Option Nat :=
  let n := nd.numKeys
  if n = 0 then some pageSize
  else do
    let (lastOff,_,_) ← nd.readLeafSlot (n - 1)
    let (firstOff,_,_) ← nd.readLeafSlot 0
    (List.range' 1 (n - 2)).foldlM (fun low i => do
      let (off,_,_) ← nd.readLeafSlot i
      some (if off < low then off else low)) (if firstOff < lastOff then firstOff else lastOff)

def leafAvailableSpace (nd : BTreeNode) : Option Nat := do
  let slotsEnd := leafSlotsStart + (nd.numKeys + 1) * leafSlotSize
  let dataStart ← nd.leafDataFrontier
  some (if dataStart > slotsEnd then dataStart - slotsEnd else 0)

def leafCanFit (nd : BTreeNode) (key value : Bytes) : Option Bool := do
  let needed := leafSlotSize + key.length + value.length
  let space ← nd.leafAvailableSpace
  some (decide (space ≥ needed))

def shiftLeafSlots (pos : Nat) : Nat → BTreeNode → Option BTreeNode
  | 0, nd => some nd
  | m + 1, nd => do
    let (off,keyLen,valLen) ← nd.readLeafSlot (pos + m)
    let nd' ← nd.writeLeafSlot (pos + m + 1) off keyLen valLen
    shiftLeafSlots pos m nd'

-- The part of leaf_insert that runs when the key is absent.
def leafPlace (nd : BTreeNode) (slotIdx : Nat) (key value : Bytes) : Option BTreeNode := do
  let n := nd.numKeys
  let currentDataStart ← nd.leafDataFrontier
  let kvLen := key.length + value.length
  if currentDataStart < kvLen then none
  else
    let newDataOffset := currentDataStart - kvLen
    let pg ← nd.page.write newDataOffset key
    let pg ← pg.write (newDataOffset + key.length) value
    let nd ← shiftLeafSlots slotIdx (n - slotIdx) ⟨pg⟩
    let nd ← nd.writeLeafSlot slotIdx newDataOffset key.length value.length
    some ⟨nd.page.setNumSlots (n + 1)⟩

def leafEntries (nd : BTreeNode) : Option (List (Bytes × Bytes)) :=
  (List.range nd.numKeys).mapM (fun i => do
    let k ← nd.leafKey i
    let v ← nd.leafValue i
    some (k,v))

def leafEntriesWith (nd : BTreeNode) (idx : Nat) (newValue : Bytes) :
    Option (List (Bytes × Bytes)) :=
  (List.range nd.numKeys).mapM (fun i => do
    let k ← nd.leafKey i
    let v ← if i = idx then some newValue else nd.leafValue i
    some (k,v))

def leafEntriesWithout (nd : BTreeNode) (idx : Nat) : Option (List (Bytes × Bytes)) :=
  ((List.range nd.numKeys).filter (· ≠ idx)).mapM (fun i => do
    let k ← nd.leafKey i
    let v ← nd.leafValue i
    some (k,v))

-- leaf_insert and leaf_update call each other; the fuel bounds that nesting, which is at most
-- the number of keys because a rebuild starts from an empty page.
def leafInsertAux : Nat → BTreeNode → Bytes → Bytes → Option (Bool × BTreeNode)
  | fuel, nd, key, value => do
    let (slotIdx,found) ← nd.leafFindSlot key
    if found then
      match fuel with
      | 0 => none
      | fuel + 1 =>
        let entries ← nd.leafEntriesWith slotIdx value
        let nd' ← entries.foldlM (fun nd e => do
          let r ← leafInsertAux fuel nd e.1 e.2
          some r.2) (nd.reset .leaf)
        some (false,nd')
    else
      let nd' ← nd.leafPlace slotIdx key value
      some (true,nd')

def leafInsert (nd : BTreeNode) (key value : Bytes) : Option (Bool × BTreeNode) :=
  leafInsertAux (nd.numKeys + 1) nd key value

def leafFill (nd : BTreeNode) (entries : List (Bytes × Bytes)) : Option BTreeNode :=
  entries.foldlM (fun nd e => do
    let r ← nd.leafInsert e.1 e.2
    some r.2) nd

def leafDelete (nd : BTreeNode) (key : Bytes) : Option (Option Bytes × BTreeNode) := do
  let (idx,found) ← nd.leafFindSlot key
  if found then
    let oldVal ← nd.leafValue idx
    let entries ← nd.leafEntriesWithout idx
    let nd' ← (nd.reset .leaf).leafFill entries
    some (some oldVal,nd')
  else some (none,nd)

def internalLeftmostChildOffset : Nat := headerSize + btreeHeaderSize

def getLeftmostChild (nd : BTreeNode) : PageId := UInt32.ofNat (nd.page.field 26 4)
def setLeftmostChild (nd : BTreeNode) (pid : PageId) : BTreeNode :=
  ⟨nd.page.setField 26 4 pid.toNat (by decide)⟩

def internalSlotsStart : Nat := internalLeftmostChildOffset + 4

def internalSlotOffset (idx : Nat) : Nat := internalSlotsStart + idx * internalSlotSize

def readInternalSlot (nd : BTreeNode) (idx : Nat) : Option (Nat × Nat × PageId) := do
  let s ← nd.page.read (internalSlotOffset idx) internalSlotSize
  some (leNat (slice s 0 2),leNat (slice s 2 2),UInt32.ofNat (leNat (slice s 4 4)))

def writeInternalSlot (nd : BTreeNode) (idx keyOffset keyLen : Nat) (rightChild : PageId) :
    Option BTreeNode := do
  let pg ← nd.page.write (internalSlotOffset idx)
    (leBytes 2 keyOffset ++ (leBytes 2 keyLen ++ leBytes 4 rightChild.toNat))
  some ⟨pg⟩

def internalKey (nd : BTreeNode) (idx : Nat) : Option Bytes := do
  let (keyOffset,keyLen,_) ← nd.readInternalSlot idx
  nd.page.read keyOffset keyLen

def internalChild (nd : BTreeNode) (idx : Nat) : Option PageId :=
  if idx = 0 then some nd.getLeftmostChild
  else do
    let (_,_,rightChild) ← nd.readInternalSlot (idx - 1)
    some rightChild

def numChildren (nd : BTreeNode) : Nat := nd.numKeys + 1

-- The binary search of internal_find_child, which internal_insert repeats.
def internalSearch (nd : BTreeNode) (key : Bytes) : Option Nat :=
  (bisect (fun mid => (nd.internalKey mid).map (fun k => if key < k then .gt else .lt))
    nd.numKeys 0 nd.numKeys).map Prod.fst

def internalFindChild (nd : BTreeNode) (key : Bytes) : Option Nat :=
  if nd.numKeys = 0 then some 0 else nd.internalSearch key

def internalDataFrontier (nd : BTreeNode) : Option Nat :=
  if nd.numKeys = 0 then some pageSize
  else (List.range nd.numKeys).foldlM (fun low i => do
    let (off,_,_) ← nd.readInternalSlot i
    some (if off < low then off else low)) pageSize

def internalAvailableSpace (nd : BTreeNode) : Option Nat := do
  let slotsEnd := internalSlotsStart + (nd.numKeys + 1) * internalSlotSize
  let dataStart ← nd.internalDataFrontier
  some (if dataStart > slotsEnd then dataStart - slotsEnd else 0)

def internalCanFit (nd : BTreeNode) (key : Bytes) : Option Bool := do
  let needed := internalSlotSize + key.length
  let space ← nd.internalAvailableSpace
  some (decide (space ≥ needed))

def shiftInternalSlots (pos : Nat) : Nat → BTreeNode → Option BTreeNode
  | 0, nd => some nd
  | m + 1, nd => do
    let (off,keyLen,child) ← nd.readInternalSlot (pos + m)
    let nd' ← nd.writeInternalSlot (pos + m + 1) off keyLen child
    shiftInternalSlots pos m nd'

def internalInsert (nd : BTreeNode) (key : Bytes) (rightChild : PageId) : Option BTreeNode := do
  let n := nd.numKeys
  let pos ← nd.internalSearch key
  let currentDataStart ← nd.internalDataFrontier
  if currentDataStart < key.length then none
  else
    let newDataOffset := currentDataStart - key.length
    let pg ← nd.page.write newDataOffset key
    let nd ← shiftInternalSlots pos (n - pos) ⟨pg⟩
    let nd ← nd.writeInternalSlot pos newDataOffset key.length rightChild
    some ⟨nd.page.setNumSlots (n + 1)⟩

def internalEntries (nd : BTreeNode) : Option (PageId × List (Bytes × PageId)) := do
  let entries ← (List.range nd.numKeys).mapM (fun i => do
    let (_,_,rightChild) ← nd.readInternalSlot i
    let k ← nd.internalKey i
    some (k,rightChild))
  some (nd.getLeftmostChild,entries)

def internalFill (nd : BTreeNode) (entries : List (Bytes × PageId)) : Option BTreeNode :=
  entries.foldlM (fun nd e => nd.internalInsert e.1 e.2) nd

def internalRebuild (nd : BTreeNode) (leftmost : PageId) (entries : List (Bytes × PageId)) :
    Option BTreeNode :=
  ((nd.reset .internal).setLeftmostChild leftmost).internalFill entries

end BTreeNode

end StorageDb
