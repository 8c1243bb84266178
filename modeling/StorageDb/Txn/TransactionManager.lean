import Mathlib.Tactic
import StorageDb.Txn.LockManager
import StorageDb.Wal.WalManager

namespace StorageDb

inductive TransactionState where
  | active
  | committed
  | aborted
  deriving DecidableEq, Repr

structure Transaction where
  txnId : TxnId
  state : TransactionState
  writeSet : AList (fun _ : PageId => Bytes)
  readSet : List PageId

def Transaction.new (txnId : TxnId) : Transaction := ⟨txnId,.active,∅,[]⟩

structure TransactionManager where
  nextTxnId : TxnId
  activeTxns : AList (fun _ : TxnId => Transaction)
  lockManager : LockManager

structure TxnSystem where
  manager : TransactionManager
  wal : WalManager

namespace TransactionManager

def new : TransactionManager := ⟨1,∅,.new⟩

def withTxn (txnId : TxnId) (txn : Transaction) (m : TransactionManager) : TransactionManager :=
  { m with activeTxns := m.activeTxns.insert txnId txn }

def onLocks {α : Type} (m : Prog Error LockManager α) : Prog Error TransactionManager α :=
  Prog.zoom lockManager (fun l m => { m with lockManager := l }) m

-- The two lock calls differ in the mode and in the set of the transaction that grows.
def acquireLock (mode : LockMode) (note : Transaction → Transaction) (txnId : TxnId)
    (pageId : PageId) : Prog Error TransactionManager Unit := do
  let m ← Prog.get
  match m.activeTxns.lookup txnId with
  | none => Prog.fail (.err (.transactionAborted txnId))
  | some txn => do
    let _ ← onLocks (LockManager.acquire txnId pageId mode)
    Prog.modify (withTxn txnId (note txn))

def acquireReadLock (txnId : TxnId) (pageId : PageId) : Prog Error TransactionManager Unit :=
  acquireLock .shared (fun txn => { txn with readSet := txn.readSet ++ [pageId] }) txnId pageId

-- Only the first before-image of a page is kept.
def acquireWriteLock (txnId : TxnId) (pageId : PageId) (beforeImage : Bytes) :
    Prog Error TransactionManager Unit :=
  acquireLock .exclusive (fun txn => { txn with
    writeSet := txn.writeSet.insert pageId ((txn.writeSet.lookup pageId).getD beforeImage) })
    txnId pageId

theorem spec_acquireLock {mode : LockMode} {note : Transaction → Transaction} {t : TxnId}
    {p : PageId}
    {m : TransactionManager} {Q : Except (Fault Error) Bool → LockManager → Prop}
    {R : Except (Fault Error) Unit → TransactionManager → Prop}
    (h : Prog.Spec (LockManager.acquire t p mode) m.lockManager Q)
    (absent : m.activeTxns.lookup t = none → R (.error (.err (.transactionAborted t))) m)
    (granted : ∀ txn b l, m.activeTxns.lookup t = some txn → Q (.ok b) l →
      R (.ok ()) (withTxn t (note txn) { m with lockManager := l }))
    (refused : ∀ f l, Q (.error f) l → R (.error f) { m with lockManager := l }) :
    Prog.Spec (acquireLock mode note t p) m R := by
  rw [acquireLock,Prog.spec_get_bind]
  cases hl : m.activeTxns.lookup t with
  | none => exact absent hl
  | some txn => exact h.zoom_bind (fun b l hq => granted txn b l hl hq) refused

def started (m : TransactionManager) : TransactionManager :=
  withTxn m.nextTxnId (.new m.nextTxnId) { m with nextTxnId := m.nextTxnId + 1 }

def ended (txnId : TxnId) (m : TransactionManager) : TransactionManager :=
  { m with
    lockManager := m.lockManager.releaseAll txnId
    activeTxns := m.activeTxns.erase txnId }

def activeTransactionIds (m : TransactionManager) : List TxnId := m.activeTxns.keys

def stateOf (m : TransactionManager) (txnId : TxnId) : Option TransactionState :=
  (m.activeTxns.lookup txnId).map Transaction.state

end TransactionManager

namespace TxnSystem
open TransactionManager

def onWal {α : Type} (m : Prog Error WalManager α) : Prog Error TxnSystem α :=
  Prog.zoom wal (fun w s => { s with wal := w }) m

def onManager {α : Type} (m : Prog Error TransactionManager α) : Prog Error TxnSystem α :=
  Prog.zoom manager (fun t s => { s with manager := t }) m

def update (f : TransactionManager → TransactionManager) : Prog Error TxnSystem Unit :=
  onManager (Prog.modify f)

theorem spec_update_bind {α : Type} {s : TxnSystem} {f : TransactionManager → TransactionManager}
    {g : Unit → Prog Error TxnSystem α} {Q : Except (Fault Error) α → TxnSystem → Prop} :
    Prog.Spec (update f >>= g) s Q ↔ Prog.Spec (g ()) { s with manager := f s.manager } Q := Iff.rfl

-- next_txn_id is an AtomicU64, which wraps.
def begin : Prog Error TxnSystem TxnId := do
  let s ← Prog.get
  let txnId := s.manager.nextTxnId
  update started
  let _ ← onWal (WalManager.logBegin txnId)
  pure txnId

def logWrite (txnId : TxnId) (pageId : PageId) (beforeImage afterImage : Bytes) :
    Prog Error TxnSystem Unit := do
  let s ← Prog.get
  match s.manager.activeTxns.lookup txnId with
  | none => Prog.fail (.err (.transactionAborted txnId))
  | some _ => do
    let _ ← onWal (WalManager.logPageWrite txnId pageId beforeImage afterImage)
    pure ()

def commit (txnId : TxnId) : Prog Error TxnSystem Unit := do
  let s ← Prog.get
  match s.manager.activeTxns.lookup txnId with
  | none => Prog.fail (.err (.transactionAborted txnId))
  | some txn =>
    if txn.state = .active then do
      update (withTxn txnId { txn with state := .committed })
      let _ ← onWal (WalManager.logCommit txnId)
      update (ended txnId)
    else Prog.fail (.err (.transactionAborted txnId))

def abort (txnId : TxnId) : Prog Error TxnSystem (AList (fun _ : PageId => Bytes)) := do
  let s ← Prog.get
  match s.manager.activeTxns.lookup txnId with
  | none => Prog.fail (.err (.transactionAborted txnId))
  | some txn => do
    update (withTxn txnId { txn with state := .aborted })
    let _ ← onWal (WalManager.logAbort txnId)
    update (ended txnId)
    pure txn.writeSet

end TxnSystem

inductive TxnCall where
  | begin
  | acquireReadLock (txnId : TxnId) (pageId : PageId)
  | acquireWriteLock (txnId : TxnId) (pageId : PageId) (beforeImage : Bytes)
  | logWrite (txnId : TxnId) (pageId : PageId) (beforeImage afterImage : Bytes)
  | commit (txnId : TxnId)
  | abort (txnId : TxnId)

inductive TxnReply where
  | begun (txnId : TxnId)
  | done
  | undo (writeSet : AList (fun _ : PageId => Bytes))

def TxnCall.exec : TxnCall → Prog Error TxnSystem TxnReply
  | .begin => TxnReply.begun <$> TxnSystem.begin
  | .acquireReadLock t p =>
    (fun _ => .done) <$> TxnSystem.onManager (TransactionManager.acquireReadLock t p)
  | .acquireWriteLock t p b =>
    (fun _ => .done) <$> TxnSystem.onManager (TransactionManager.acquireWriteLock t p b)
  | .logWrite t p b a => (fun _ => .done) <$> TxnSystem.logWrite t p b a
  | .commit t => (fun _ => .done) <$> TxnSystem.commit t
  | .abort t => TxnReply.undo <$> TxnSystem.abort t

namespace TxnSystem
open TransactionManager

variable {s : TxnSystem}

theorem spec_lockCall {mode : LockMode} {note : Transaction → Transaction} {t : TxnId} {p : PageId}
    {Q : Except (Fault Error) Bool → LockManager → Prop}
    {R : Except (Fault Error) TxnReply → TxnSystem → Prop}
    (h : Prog.Spec (LockManager.acquire t p mode) s.manager.lockManager Q)
    (absent : s.manager.activeTxns.lookup t = none → R (.error (.err (.transactionAborted t))) s)
    (granted : ∀ txn b l, s.manager.activeTxns.lookup t = some txn → Q (.ok b) l →
      R (.ok .done) { s with manager := withTxn t (note txn) { s.manager with lockManager := l } })
    (refused : ∀ f l, Q (.error f) l →
      R (.error f) { s with manager := { s.manager with lockManager := l } }) :
    Prog.Spec ((fun _ => TxnReply.done) <$> onManager (acquireLock mode note t p)) s R := by
  refine Prog.Spec.map (Q := fun r s' => R (r.map fun _ => .done) s') ?_ (fun _ _ h => h)
    (fun _ _ h => h)
  rw [onManager,Prog.spec_zoom]
  exact spec_acquireLock h absent granted refused

end TxnSystem

end StorageDb
