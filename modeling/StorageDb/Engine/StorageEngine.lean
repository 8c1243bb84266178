import Mathlib.Tactic
import StorageDb.Btree.Tree
import StorageDb.Txn.TransactionManager

namespace StorageDb
open Bytes

structure StorageEngine where
  btree : BPlusTree
  pool : BufferPoolManager
  wal : WalManager
  txnManager : TransactionManager

structure Directory where
  data : Bytes
  log : Bytes

def defaultPoolCapacity : Nat := 1024

-- page.data[..copy_len].copy_from_slice(&image[..copy_len])
def Page.overlay (image : Bytes) (pg : Page) : Page where
  id := pg.id
  data := splice pg.data 0 (image.take pageSize)
  size := by
    rw [length_splice,pg.size]
    rw [pg.size,List.length_take]
    omega

namespace StorageEngine

def onPool {α : Type} (m : Prog Error BufferPoolManager α) : Prog Error StorageEngine α :=
  Prog.zoom pool (fun p e => { e with pool := p }) m

def onWal {α : Type} (m : Prog Error WalManager α) : Prog Error StorageEngine α :=
  Prog.zoom wal (fun w e => { e with wal := w }) m

def txns (e : StorageEngine) : TxnSystem := ⟨e.txnManager,e.wal⟩

def onTxns {α : Type} (m : Prog Error TxnSystem α) : Prog Error StorageEngine α :=
  Prog.zoom txns (fun s e => { e with txnManager := s.manager, wal := s.wal }) m

theorem onPool_ok {α : Type} {e : StorageEngine} {m : Prog Error BufferPoolManager α} {a : α}
    {p : BufferPoolManager}
    (h : m e.pool = (.ok a,p)) : onPool m e = (.ok a,{ e with pool := p }) := by
  rw [onPool,Prog.zoom,h]

theorem onWal_ok {α : Type} {e : StorageEngine} {m : Prog Error WalManager α} {a : α}
    {w : WalManager}
    (h : m e.wal = (.ok a,w)) : onWal m e = (.ok a,{ e with wal := w }) := by
  rw [onWal,Prog.zoom,h]

def applyImage (numPages : UInt32) (pageId : PageId) (image : Bytes) :
    Prog Error BufferPoolManager Unit :=
  if pageId < numPages then do
    let i ← BufferPoolManager.fetchPageMut pageId
    BufferPoolManager.modifyPage i (Page.overlay image)
    BufferPoolManager.unpinPage pageId true
  else pure ()

def applyImages (numPages : UInt32) : List (PageId × Bytes) → Prog Error BufferPoolManager Unit
  | [] => pure ()
  | (pageId,image) :: rest => do
    applyImage numPages pageId image
    applyImages numPages rest

def recover : Prog Error StorageEngine Unit := do
  let actions ← onWal WalManager.recover
  if actions.redo = [] ∧ actions.undo = [] then pure ()
  else do
    let e ← Prog.get
    onPool (applyImages e.pool.disk.numPages actions.redo)
    onPool (applyImages e.pool.disk.numPages actions.undo)
    onPool BufferPoolManager.flushAll
    onWal WalManager.truncate

-- The engine before open has read anything; open runs on it, so that what a failed open has
-- written can be seen.
def mount (dir : Directory) (capacity : Nat) (diskFaults walFaults : List (Option Nat)) :
    StorageEngine where
  btree := .open_ 0
  pool := .new (.open_ dir.data diskFaults) capacity
  wal := .onFile dir.log walFaults
  txnManager := .new

def openTree : Prog Error StorageEngine Unit := do
  let e ← Prog.get
  if e.pool.disk.numPages = 0 then do
    let tree ← onPool BPlusTree.create
    Prog.modify (fun e => { e with btree := tree })
  else Prog.modify (fun e => { e with btree := .open_ 0 })

def open_ : Prog Error StorageEngine Unit := do
  onWal WalManager.open_
  openTree
  recover

-- The fuel bounds the loops of the tree, as in Btree.
def put (fuel : Nat) (key value : Bytes) : Prog Error StorageEngine Unit := do
  let e ← Prog.get
  let (_,tree) ← onPool (e.btree.insert fuel key value)
  Prog.modify (fun e => { e with btree := tree })

def get (fuel : Nat) (key : Bytes) : Prog Error StorageEngine (Option Bytes) := do
  let e ← Prog.get
  onPool (e.btree.search fuel key)

def delete (fuel : Nat) (key : Bytes) : Prog Error StorageEngine (Option Bytes) := do
  let e ← Prog.get
  onPool (e.btree.delete fuel key)

def scanAll (fuel : Nat) : Prog Error StorageEngine (List (Bytes × Bytes)) := do
  let e ← Prog.get
  onPool (e.btree.scanAll fuel)

def rangeScan (fuel : Nat) (start stop : Bytes) :
    Prog Error StorageEngine (List (Bytes × Bytes)) := do
  let e ← Prog.get
  onPool (e.btree.rangeScan fuel start stop)

def beginTransaction : Prog Error StorageEngine TxnId := onTxns TxnSystem.begin

-- The key and the value stand where the record has its page images.
def txnPut (fuel : Nat) (txnId : TxnId) (key value : Bytes) : Prog Error StorageEngine Unit := do
  let _ ← onWal (WalManager.logPageWrite txnId 0 key value)
  put fuel key value

def txnGet (fuel : Nat) (_txnId : TxnId) (key : Bytes) : Prog Error StorageEngine (Option Bytes) :=
  get fuel key

def txnDelete (fuel : Nat) (txnId : TxnId) (key : Bytes) :
    Prog Error StorageEngine (Option Bytes) := do
  let old ← delete fuel key
  match old with
  | some val => do
    let _ ← onWal (WalManager.logPageWrite txnId 0 key val)
    pure old
  | none => pure old

def commitTransaction (txnId : TxnId) : Prog Error StorageEngine Unit :=
  onTxns (TxnSystem.commit txnId)

-- The write set that abort returns is dropped.
def abortTransaction (txnId : TxnId) : Prog Error StorageEngine Unit := do
  let _ ← onTxns (TxnSystem.abort txnId)
  pure ()

def checkpoint : Prog Error StorageEngine Unit := do
  let e ← Prog.get
  let _ ← onWal (WalManager.logCheckpoint e.txnManager.activeTransactionIds)
  pure ()

def sync : Prog Error StorageEngine Unit := do
  onWal WalManager.flush
  onPool BufferPoolManager.flushAll

-- What is on disk when the process ends.
def directory (e : StorageEngine) : Directory := ⟨e.pool.disk.file,e.wal.file⟩

end StorageEngine

end StorageDb
