import Mathlib.Tactic
import StorageDb.Wal.LogRecord

namespace StorageDb
open Bytes FrameLog

-- faults schedules the system calls as in the disk manager. appended and synced are ghosts: the
-- records given to the log as they were serialized, and the file length the last flush reached.
structure WalManager where
  file : Bytes
  nextLsn : Lsn
  offset : Nat
  flushedLsn : Lsn
  txnLastLsn : TxnId → Option Lsn
  writeBuffer : Bytes
  faults : List (Option Nat)
  appended : List LogRecord
  synced : Nat

structure RecoveryActions where
  redo : List (PageId × Bytes)
  undo : List (PageId × Bytes)
  committedTxns : Finset TxnId
  abortedTxns : Finset TxnId
  deriving DecidableEq

structure Analysis where
  committed : Finset TxnId
  aborted : Finset TxnId
  active : Finset TxnId

def Analysis.step (a : Analysis) (r : LogRecord) : Analysis :=
  match r.recordType with
  | .begin => { a with active := insert r.txnId a.active }
  | .commit =>
    { a with committed := insert r.txnId a.committed, active := a.active.erase r.txnId }
  | .abort => { a with aborted := insert r.txnId a.aborted, active := a.active.erase r.txnId }
  | _ => a

def analyse (records : List LogRecord) : Analysis := records.foldl Analysis.step ⟨∅,∅,∅⟩

-- The redo and the undo loop differ in the transactions, the image and the order of the records.
def collectImages (txns : Finset TxnId) (image : Bytes × Bytes → Bytes) :
    List LogRecord → Except (Fault Error) (List (PageId × Bytes))
  | [] => .ok []
  | r :: rs =>
    if r.recordType = .pageWrite ∧ r.txnId ∈ txns then do
      let images ← r.pageWriteImages
      let rest ← collectImages txns image rs
      match images with
      | some im => pure ((r.pageId,image im) :: rest)
      | none => pure rest
    else collectImages txns image rs

def recoveryActions (records : List LogRecord) : Except (Fault Error) RecoveryActions := do
  if records = [] then pure ⟨[],[],∅,∅⟩
  else
    let a := analyse records
    let redo ← collectImages a.committed Prod.snd records
    let undo ← collectImages a.active Prod.fst records.reverse
    pure ⟨redo,undo,a.committed,a.active⟩

-- Transaction 0 stands for no transaction: its records keep the prev_lsn they came with.
def LogRecord.stamped (next : Lsn) (last : TxnId → Option Lsn) (record : LogRecord) : LogRecord :=
  { record with
    lsn := next
    prevLsn := if record.txnId = 0 then record.prevLsn else (last record.txnId).getD 0 }

def trackLsn (next : Lsn) (last : TxnId → Option Lsn) (txnId : TxnId) : TxnId → Option Lsn :=
  if txnId = 0 then last else Function.update last txnId (some next)

def maxLsn (records : List LogRecord) : Lsn :=
  records.foldl (fun m r => if m < r.lsn then r.lsn else m) 0

namespace WalManager

-- A log file before open has looked at it.
def onFile (file : Bytes) (faults : List (Option Nat)) : WalManager where
  file := file
  nextLsn := 0
  offset := 0
  flushedLsn := 0
  txnLastLsn := fun _ => none
  writeBuffer := []
  faults := faults
  appended := []
  synced := 0

def tick : Prog Error WalManager (Option Nat) := fun w =>
  (.ok (w.faults.headD none),{ w with faults := w.faults.tail })

def sysCall : Prog Error WalManager Unit := do
  let fault ← tick
  if fault.isSome then Prog.fail (.err .io) else pure ()

def readAllRecords : Prog Error WalManager (List LogRecord) := do
  sysCall
  sysCall
  let w ← Prog.get
  match readAll LogRecord.deserialize w.file with
  | .ok records => pure records
  | .error f => Prog.fail f

def opened (records : List LogRecord) (w : WalManager) : WalManager :=
  { w with
    nextLsn := maxLsn records + 1
    offset := w.file.length
    flushedLsn := maxLsn records
    synced := w.file.length }

-- max_lsn + 1 panics on overflow.
def startAfter (records : List LogRecord) : Prog Error WalManager Unit :=
  if (maxLsn records).toNat + 1 < 2 ^ 64 then Prog.modify (opened records) else Prog.fail .panic

def open_ : Prog Error WalManager Unit := do
  sysCall
  sysCall
  let w ← Prog.get
  let records ← if w.file.length > 0 then readAllRecords else pure []
  startAfter records

def stamp (record : LogRecord) (w : WalManager) : LogRecord :=
  record.stamped w.nextLsn w.txnLastLsn

def track (record : LogRecord) (w : WalManager) : WalManager :=
  { w with
    nextLsn := w.nextLsn + 1
    txnLastLsn := trackLsn w.nextLsn w.txnLastLsn record.txnId }

-- A Vec longer than isize::MAX and a u64 offset overflow panic.
def append (record : LogRecord) : Prog Error WalManager Lsn := do
  let w ← Prog.get
  let r := w.stamp record
  let bytes := r.serialize
  Prog.modify (track record)
  if w.writeBuffer.length + bytes.length < 2 ^ 63 then
    Prog.modify (fun w => { w with writeBuffer := w.writeBuffer ++ bytes })
    if w.offset + bytes.length < 2 ^ 64 then
      Prog.modify (fun w =>
        { w with offset := w.offset + bytes.length, appended := w.appended ++ [r] })
      pure r.lsn
    else Prog.fail .panic
  else Prog.fail .panic

def writeAll (off : Nat) (src : Bytes) : Prog Error WalManager Unit := do
  sysCall
  let fault ← tick
  match fault with
  | none => Prog.modify (fun w => { w with file := overwrite w.file off src })
  | some n => do
    Prog.modify (fun w => { w with file := overwrite w.file off (src.take n) })
    Prog.fail (.err .io)

def drain : Prog Error WalManager Unit := do
  let w ← Prog.get
  if w.writeBuffer = [] then pure ()
  else if w.offset < w.writeBuffer.length then Prog.fail .panic
  else do
    writeAll (w.offset - w.writeBuffer.length) w.writeBuffer
    Prog.modify (fun w => { w with writeBuffer := [] })

def flush : Prog Error WalManager Unit := do
  drain
  sysCall
  let w ← Prog.get
  if w.nextLsn = 0 then Prog.fail .panic
  else Prog.modify (fun w => { w with flushedLsn := w.nextLsn - 1, synced := w.file.length })

def forget (txnId : TxnId) (w : WalManager) : WalManager :=
  { w with txnLastLsn := Function.update w.txnLastLsn txnId none }

def lastLsn (txnId : TxnId) (w : WalManager) : Lsn := (w.txnLastLsn txnId).getD 0

def logBegin (txnId : TxnId) : Prog Error WalManager Lsn := append (.begin 0 txnId)

def logCommit (txnId : TxnId) : Prog Error WalManager Lsn := do
  let w ← Prog.get
  let lsn ← append (.commit 0 txnId (w.lastLsn txnId))
  flush
  Prog.modify (forget txnId)
  pure lsn

def logAbort (txnId : TxnId) : Prog Error WalManager Lsn := do
  let w ← Prog.get
  let lsn ← append (.abort 0 txnId (w.lastLsn txnId))
  Prog.modify (forget txnId)
  pure lsn

def logPageWrite (txnId : TxnId) (pageId : PageId) (beforeImage afterImage : Bytes) :
    Prog Error WalManager Lsn := do
  let w ← Prog.get
  append (.pageWrite 0 txnId (w.lastLsn txnId) pageId beforeImage afterImage)

def logCheckpoint (activeTxns : List TxnId) : Prog Error WalManager Lsn := do
  let lsn ← append (.checkpoint 0 activeTxns)
  flush
  pure lsn

def recover : Prog Error WalManager RecoveryActions := do
  let records ← readAllRecords
  match recoveryActions records with
  | .ok actions => pure actions
  | .error f => Prog.fail f

def truncate : Prog Error WalManager Unit := do
  Prog.modify (fun w => { w with writeBuffer := [] })
  sysCall
  Prog.modify (fun w => { w with file := [], appended := [], synced := 0 })
  sysCall
  Prog.modify (fun w => { w with offset := 0, txnLastLsn := fun _ => none })

end WalManager

inductive WalOp where
  | begin (txnId : TxnId)
  | pageWrite (txnId : TxnId) (pageId : PageId) (beforeImage afterImage : Bytes)
  | commit (txnId : TxnId)
  | abort (txnId : TxnId)
  | checkpoint (activeTxns : List TxnId)
  | flush
  deriving DecidableEq

def WalOp.payload : WalOp → Nat
  | .pageWrite _ _ b a => 4 + b.length + a.length
  | .checkpoint ts => 4 + 8 * ts.length
  | _ => 0

def WalOp.PayloadFits (op : WalOp) : Prop := recordHeaderSize + op.payload < 2 ^ 32

instance (op : WalOp) : Decidable op.PayloadFits := by unfold WalOp.PayloadFits; infer_instance

def WalOp.exec : WalOp → Prog Error WalManager (Option Lsn)
  | .begin t => some <$> WalManager.logBegin t
  | .pageWrite t p b a => some <$> WalManager.logPageWrite t p b a
  | .commit t => some <$> WalManager.logCommit t
  | .abort t => some <$> WalManager.logAbort t
  | .checkpoint ts => some <$> WalManager.logCheckpoint ts
  | .flush => (fun _ => none) <$> WalManager.flush

-- An error leaves the log usable; a panic ends the process.
def WalManager.run : List WalOp → WalManager →
    List (Except (Fault Error) (Option Lsn)) × WalManager
  | [], w => ([],w)
  | op :: ops, w =>
    match op.exec w with
    | (.error .panic,w') => ([.error .panic],w')
    | (r,w') => (r :: (run ops w').1,(run ops w').2)

def WalManager.execAll : List WalOp → Prog Error WalManager (List (Option Lsn))
  | [] => pure []
  | op :: ops => do
    let l ← op.exec
    let ls ← execAll ops
    pure (l :: ls)

def WalOp.request (last : TxnId → Option Lsn) : WalOp → Option LogRecord
  | .begin t => some (.begin 0 t)
  | .pageWrite t p b a => some (.pageWrite 0 t ((last t).getD 0) p b a)
  | .commit t => some (.commit 0 t ((last t).getD 0))
  | .abort t => some (.abort 0 t ((last t).getD 0))
  | .checkpoint ts => some (.checkpoint 0 ts)
  | .flush => none

def WalOp.entry (next : Lsn) (last : TxnId → Option Lsn) (op : WalOp) : Option LogRecord :=
  (op.request last).map (LogRecord.stamped next last)

def WalOp.tracked (next : Lsn) (last : TxnId → Option Lsn) : WalOp → TxnId → Option Lsn
  | .begin t => trackLsn next last t
  | .pageWrite t _ _ _ => trackLsn next last t
  | .commit t => Function.update (trackLsn next last t) t none
  | .abort t => Function.update (trackLsn next last t) t none
  | .checkpoint _ => last
  | .flush => last

def sessionRecords (next : Lsn) (last : TxnId → Option Lsn) : List WalOp → List LogRecord
  | [] => []
  | op :: ops =>
    match op.entry next last with
    | some r => r :: sessionRecords (next + 1) (op.tracked next last) ops
    | none => sessionRecords next (op.tracked next last) ops

def WalOp.syncs : WalOp → Bool
  | .commit _ => true
  | .checkpoint _ => true
  | .flush => true
  | _ => false

def syncedPrefix : List WalOp → List WalOp
  | [] => []
  | op :: ops => if op.syncs || ops.any WalOp.syncs then op :: syncedPrefix ops else []

def committedRecords : List LogRecord → List LogRecord
  | [] => []
  | r :: rs =>
    if (r :: rs).any (fun c => c.recordType = .commit ∧ c.txnId = r.txnId) then
      r :: committedRecords rs
    else committedRecords rs

end StorageDb
