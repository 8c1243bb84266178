import Mathlib.Tactic
import StorageDb.Txn.TransactionManager

namespace StorageDb

-- The log call a transaction call makes, if it gets that far.
def TxnCall.walOp (m : TransactionManager) : TxnCall → Option WalOp
  | .begin => some (.begin m.nextTxnId)
  | .logWrite t p b a => if (m.stateOf t).isSome then some (.pageWrite t p b a) else none
  | .commit t => if m.stateOf t = some .active then some (.commit t) else none
  | .abort t => if (m.stateOf t).isSome then some (.abort t) else none
  | .acquireReadLock _ _ => none
  | .acquireWriteLock _ _ _ => none

-- The state of every transaction after a call; ok says that the call returned Ok.
def TxnCall.states (m : TransactionManager) (ok : Bool) :
    TxnCall → TxnId → Option TransactionState
  | .begin => Function.update m.stateOf m.nextTxnId (some .active)
  | .commit t =>
    if m.stateOf t = some .active then
      Function.update m.stateOf t (if ok then none else some .committed)
    else m.stateOf
  | .abort t =>
    if (m.stateOf t).isSome then Function.update m.stateOf t (if ok then none else some .aborted)
    else m.stateOf
  | _ => m.stateOf

def TxnCall.nextId (m : TransactionManager) : TxnCall → TxnId
  | .begin => m.nextTxnId + 1
  | _ => m.nextTxnId

-- The outcome r fails exactly where the log call does, and in the same way.
def WalOp.Decides {α : Type} (op : WalOp) (w : WalManager) (r : Except (Fault Error) α) : Prop :=
  ∀ f, r = .error f ↔ (op.exec w).1 = .error f

structure TxnCall.Effect (c : TxnCall) (s : TxnSystem) (r : Except (Fault Error) TxnReply)
    (s' : TxnSystem) : Prop where
  wal : s'.wal = (c.walOp s.manager).elim s.wal (fun op => (op.exec s.wal).2)
  fault : ∀ op, c.walOp s.manager = some op → op.Decides s.wal r
  next : s'.manager.nextTxnId = c.nextId s.manager
  states : s'.manager.stateOf = c.states s.manager r.isOk

namespace WalOp

variable {α β : Type} {op : WalOp} {w : WalManager}

theorem Decides.ok {a : α} (h : op.Decides w (.ok a)) (b : β) : op.Decides w (.ok b) :=
  fun f => iff_of_false (fun e => (by cases e)) (fun e => (by cases (h f).mpr e))

theorem Decides.error {f : Fault Error} (h : op.Decides w (.error f : Except (Fault Error) α)) :
    op.Decides w (.error f : Except (Fault Error) β) := by
  intro f'
  rw [(h f).mp rfl]
  exact ⟨fun e => by cases e; rfl,fun e => by cases e; rfl⟩

theorem Decides.isOk {r : Except (Fault Error) α} (h : op.Decides w r) :
    r.isOk = (op.exec w).1.isOk := by
  cases hr : (op.exec w).1 with
  | error f =>
    rw [(h f).mpr hr]
    rfl
  | ok l =>
    cases r with
    | ok a => rfl
    | error f => cases hr.symm.trans ((h f).mp rfl)

end WalOp

namespace TransactionManager

variable {m : TransactionManager} {t : TxnId}

theorem stateOf_withTxn (txn : Transaction) :
    (withTxn t txn m).stateOf = Function.update m.stateOf t (some txn.state) := by
  funext u
  by_cases hu : u = t
  · subst hu
    rw [Function.update_self,stateOf,withTxn,AList.lookup_insert]
    rfl
  · rw [Function.update_of_ne hu,stateOf,withTxn,AList.lookup_insert_ne hu,stateOf]

theorem stateOf_ended : (ended t m).stateOf = Function.update m.stateOf t none := by
  funext u
  by_cases hu : u = t
  · subst hu
    rw [Function.update_self,stateOf,ended,AList.lookup_erase]
    rfl
  · rw [Function.update_of_ne hu,stateOf,ended,AList.lookup_erase_ne hu,stateOf]

end TransactionManager

namespace TxnSystem
open TransactionManager

variable {s : TxnSystem}

theorem onWal_effect {α : Type} (op : WalOp) {m : Prog Error WalManager α} {g : α → Option Lsn}
    (hop : op.exec = g <$> m) : Prog.Spec (onWal m) s (fun r s' =>
      s' = { s with wal := (op.exec s.wal).2 } ∧ op.Decides s.wal r) := by
  have hexec : op.exec s.wal = ((m s.wal).1.map g,(m s.wal).2) := by rw [hop,Prog.map_run]
  refine ⟨by rw [hexec]; rfl,fun f => ?_⟩
  rw [hexec]
  change (m s.wal).1 = .error f ↔ (m s.wal).1.map g = .error f
  cases (m s.wal).1 with
  | ok l => exact iff_of_false (fun e => (by cases e)) (fun e => (by cases e))
  | error f' => exact ⟨fun e => by cases e; rfl,fun e => by cases e; rfl⟩

theorem begin_effect : Prog.Spec TxnCall.begin.exec s (TxnCall.begin.Effect s) := by
  have hstates : (started s.manager).stateOf =
      Function.update s.manager.stateOf s.manager.nextTxnId (some .active) := stateOf_withTxn _
  refine Prog.Spec.map (Q := fun r s' => s' = ⟨started s.manager,
    ((WalOp.begin s.manager.nextTxnId).exec s.wal).2⟩ ∧
      (WalOp.begin s.manager.nextTxnId).Decides s.wal r) ?_ ?_ ?_
  · rw [begin,Prog.spec_get_bind]
    dsimp only
    rw [spec_update_bind]
    refine (onWal_effect (.begin s.manager.nextTxnId) rfl).bind ?_ ?_
    · rintro l s' ⟨rfl,hd⟩
      exact ⟨rfl,hd.ok _⟩
    · rintro f s' ⟨rfl,hd⟩
      exact ⟨rfl,hd.error⟩
  · rintro t s' ⟨rfl,hd⟩
    exact ⟨rfl,fun op ho => by cases ho; exact hd.ok _,rfl,hstates⟩
  · rintro f s' ⟨rfl,hd⟩
    exact ⟨rfl,fun op ho => by cases ho; exact hd.error,rfl,hstates⟩

theorem Effect.silent {c : TxnCall} {r : Except (Fault Error) TxnReply} {s' : TxnSystem}
    (hw : s'.wal = s.wal) (ho : c.walOp s.manager = none)
    (hn : s'.manager.nextTxnId = c.nextId s.manager)
    (hs : s'.manager.stateOf = c.states s.manager r.isOk) : c.Effect s r s' where
  wal := by rw [ho]; exact hw
  fault op h := by rw [ho] at h; cases h
  next := hn
  states := hs

theorem commit_effect (t : TxnId) : Prog.Spec (TxnCall.commit t).exec s
    ((TxnCall.commit t).Effect s) := by
  have habsent (f : Fault Error) (h : ¬ s.manager.stateOf t = some .active) :
      (TxnCall.commit t).Effect s (.error f) s :=
    Effect.silent rfl (if_neg h) rfl (if_neg h).symm
  refine Prog.Spec.map (Q := fun r s' => (TxnCall.commit t).Effect s (r.map fun _ => .done) s') ?_
    (fun _ _ h => h) (fun _ _ h => h)
  rw [commit,Prog.spec_get_bind]
  cases hl : s.manager.activeTxns.lookup t with
  | none => exact habsent _ (by rw [stateOf,hl]; simp)
  | some txn =>
    have hst : s.manager.stateOf t = some txn.state := by rw [stateOf,hl]; rfl
    dsimp only
    split_ifs with ha
    · rw [ha] at hst
      have hop : (TxnCall.commit t).walOp s.manager = some (.commit t) := if_pos hst
      have hstates (ok : Bool) : (TxnCall.commit t).states s.manager ok =
          Function.update s.manager.stateOf t (if ok then none else some .committed) := if_pos hst
      rw [spec_update_bind]
      refine (onWal_effect (.commit t) rfl).bind ?_ ?_
      · rintro l s' ⟨rfl,hd⟩
        refine ⟨by rw [hop]; rfl,fun op ho => ?_,rfl,?_⟩
        · rw [hop] at ho
          cases ho
          exact hd.ok _
        · rw [hstates]
          refine stateOf_ended.trans ?_
          rw [stateOf_withTxn,Function.update_idem]
          rfl
      · rintro f s' ⟨rfl,hd⟩
        refine ⟨by rw [hop]; rfl,fun op ho => ?_,rfl,?_⟩
        · rw [hop] at ho
          cases ho
          exact hd.error
        · rw [hstates]
          exact stateOf_withTxn _
    · refine habsent _ ?_
      rw [hst]
      simpa using ha

theorem abort_effect (t : TxnId) : Prog.Spec (TxnCall.abort t).exec s
    ((TxnCall.abort t).Effect s) := by
  refine Prog.Spec.map (Q := fun r s' => (TxnCall.abort t).Effect s (r.map TxnReply.undo) s') ?_
    (fun _ _ h => h) (fun _ _ h => h)
  rw [abort,Prog.spec_get_bind]
  cases hl : s.manager.activeTxns.lookup t with
  | none =>
    have hst : ¬ (s.manager.stateOf t).isSome = true := by rw [stateOf,hl]; simp
    exact Effect.silent rfl (if_neg hst) rfl (if_neg hst).symm
  | some txn =>
    have hst : (s.manager.stateOf t).isSome = true := by rw [stateOf,hl]; rfl
    have hop : (TxnCall.abort t).walOp s.manager = some (.abort t) := if_pos hst
    have hstates (ok : Bool) : (TxnCall.abort t).states s.manager ok =
        Function.update s.manager.stateOf t (if ok then none else some .aborted) := if_pos hst
    dsimp only
    rw [spec_update_bind]
    refine (onWal_effect (.abort t) rfl).bind ?_ ?_
    · rintro l s' ⟨rfl,hd⟩
      refine ⟨by rw [hop]; rfl,fun op ho => ?_,rfl,?_⟩
      · rw [hop] at ho
        cases ho
        exact hd.ok _
      · rw [hstates]
        refine stateOf_ended.trans ?_
        rw [stateOf_withTxn,Function.update_idem]
        rfl
    · rintro f s' ⟨rfl,hd⟩
      refine ⟨by rw [hop]; rfl,fun op ho => ?_,rfl,?_⟩
      · rw [hop] at ho
        cases ho
        exact hd.error
      · rw [hstates]
        exact stateOf_withTxn _

theorem abort_refused {t : TxnId} (h : s.manager.stateOf t = none) :
    (TxnCall.abort t).exec s = (.error (.err (.transactionAborted t)),s) := by
  have hl : s.manager.activeTxns.lookup t = none := Option.map_eq_none_iff.mp h
  rw [TxnCall.exec,Prog.map_run,abort,Prog.get_bind_run,hl]
  rfl

theorem logWrite_effect (t : TxnId) (p : PageId) (b a : Bytes) :
    Prog.Spec (TxnCall.logWrite t p b a).exec s ((TxnCall.logWrite t p b a).Effect s) := by
  refine Prog.Spec.map
    (Q := fun r s' => (TxnCall.logWrite t p b a).Effect s (r.map fun _ => .done) s') ?_
    (fun _ _ h => h) (fun _ _ h => h)
  rw [logWrite,Prog.spec_get_bind]
  cases hl : s.manager.activeTxns.lookup t with
  | none =>
    have hst : ¬ (s.manager.stateOf t).isSome = true := by rw [stateOf,hl]; simp
    exact Effect.silent rfl (if_neg hst) rfl rfl
  | some txn =>
    have hst : (s.manager.stateOf t).isSome = true := by rw [stateOf,hl]; rfl
    have hop : (TxnCall.logWrite t p b a).walOp s.manager = some (.pageWrite t p b a) := if_pos hst
    refine (onWal_effect (.pageWrite t p b a) rfl).bind ?_ ?_
    · rintro l s' ⟨rfl,hd⟩
      refine ⟨by rw [hop]; rfl,fun op ho => ?_,rfl,rfl⟩
      rw [hop] at ho
      cases ho
      exact hd.ok _
    · rintro f s' ⟨rfl,hd⟩
      refine ⟨by rw [hop]; rfl,fun op ho => ?_,rfl,rfl⟩
      rw [hop] at ho
      cases ho
      exact hd.error

theorem lock_states {t : TxnId} {txn txn' : Transaction} {l : LockManager}
    (hl : s.manager.activeTxns.lookup t = some txn) (he : txn'.state = txn.state) :
    (withTxn t txn' { s.manager with lockManager := l }).stateOf = s.manager.stateOf := by
  have hst : s.manager.stateOf t = some txn'.state := by rw [stateOf,hl,he]; rfl
  refine (stateOf_withTxn txn').trans ?_
  exact (congrArg (Function.update s.manager.stateOf t) hst.symm).trans (Function.update_eq_self ..)

theorem lock_effect {c : TxnCall} {mode : LockMode} {note : Transaction → Transaction} {t : TxnId}
    {p : PageId} (hn : ∀ txn, (note txn).state = txn.state) (ho : c.walOp s.manager = none)
    (hid : c.nextId s.manager = s.manager.nextTxnId)
    (hst : ∀ ok, c.states s.manager ok = s.manager.stateOf) :
    Prog.Spec ((fun _ => TxnReply.done) <$> onManager (acquireLock mode note t p)) s
      (c.Effect s) := by
  refine spec_lockCall (Q := fun _ _ => True) trivial (fun _ => ?_) (fun txn b l hl _ => ?_)
    (fun f l _ => ?_)
  · exact Effect.silent rfl ho hid.symm (hst _).symm
  · exact Effect.silent rfl ho hid.symm ((lock_states hl (hn txn)).trans (hst _).symm)
  · exact Effect.silent rfl ho hid.symm (hst _).symm

theorem exec_effect (c : TxnCall) (s : TxnSystem) : Prog.Spec c.exec s (c.Effect s) := by
  cases c with
  | begin => exact begin_effect
  | acquireReadLock t p => exact lock_effect (fun _ => rfl) rfl rfl (fun _ => rfl)
  | acquireWriteLock t p b => exact lock_effect (fun _ => rfl) rfl rfl (fun _ => rfl)
  | logWrite t p b a => exact logWrite_effect t p b a
  | commit t => exact commit_effect t
  | abort t => exact abort_effect t

end TxnSystem

-- A transaction call, or a call on the log between two of them.
inductive LoggedStep where
  | call (c : TxnCall)
  | flush
  | checkpoint (activeTxns : List TxnId)

namespace LoggedStep

def exec : LoggedStep → Prog Error TxnSystem TxnReply
  | .call c => c.exec
  | .flush => (fun _ => .done) <$> TxnSystem.onWal WalManager.flush
  | .checkpoint ts => (fun _ => .done) <$> TxnSystem.onWal (WalManager.logCheckpoint ts)

def walOp (m : TransactionManager) : LoggedStep → Option WalOp
  | .call c => c.walOp m
  | .flush => some .flush
  | .checkpoint ts => some (.checkpoint ts)

def nextId (m : TransactionManager) : LoggedStep → TxnId
  | .call c => c.nextId m
  | _ => m.nextTxnId

def states (m : TransactionManager) (ok : Bool) : LoggedStep → TxnId → Option TransactionState
  | .call c => c.states m ok
  | _ => m.stateOf

structure Effect (st : LoggedStep) (s : TxnSystem) (r : Except (Fault Error) TxnReply)
    (s' : TxnSystem) : Prop where
  wal : s'.wal = (st.walOp s.manager).elim s.wal (fun op => (op.exec s.wal).2)
  fault : ∀ op, st.walOp s.manager = some op → op.Decides s.wal r
  next : s'.manager.nextTxnId = st.nextId s.manager
  states : s'.manager.stateOf = st.states s.manager r.isOk

theorem exec_effect (st : LoggedStep) (s : TxnSystem) : Prog.Spec st.exec s (st.Effect s) := by
  cases st with
  | call c =>
    have h := TxnSystem.exec_effect c s
    exact ⟨h.wal,h.fault,h.next,h.states⟩
  | flush =>
    refine (TxnSystem.onWal_effect .flush rfl).map ?_ ?_
    · rintro a s' ⟨rfl,hd⟩
      exact ⟨rfl,fun op ho => by cases ho; exact hd.ok _,rfl,rfl⟩
    · rintro f s' ⟨rfl,hd⟩
      exact ⟨rfl,fun op ho => by cases ho; exact hd.error,rfl,rfl⟩
  | checkpoint ts =>
    refine (TxnSystem.onWal_effect (.checkpoint ts) rfl).map ?_ ?_
    · rintro a s' ⟨rfl,hd⟩
      exact ⟨rfl,fun op ho => by cases ho; exact hd.ok _,rfl,rfl⟩
    · rintro f s' ⟨rfl,hd⟩
      exact ⟨rfl,fun op ho => by cases ho; exact hd.error,rfl,rfl⟩

end LoggedStep

end StorageDb
