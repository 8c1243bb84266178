import Mathlib.Tactic
import StorageDb.Wal.Reopen
import StorageDb.Txn.Lifecycle
import StorageDb.Engine.StorageEngine

namespace StorageDb

inductive EngineCall where
  | put (key value : Bytes)
  | get (key : Bytes)
  | delete (key : Bytes)
  | scanAll
  | rangeScan (start stop : Bytes)
  | begin
  | txnPut (txnId : TxnId) (key value : Bytes)
  | txnGet (txnId : TxnId) (key : Bytes)
  | txnDelete (txnId : TxnId) (key : Bytes)
  | commit (txnId : TxnId)
  | abort (txnId : TxnId)
  | checkpoint
  | sync

inductive EngineReply where
  | done
  | value (value : Option Bytes)
  | entries (entries : List (Bytes × Bytes))
  | begun (txnId : TxnId)
  deriving DecidableEq

namespace EngineCall
open StorageEngine

def exec (fuel : Nat) : EngineCall → Prog Error StorageEngine EngineReply
  | .put k v => (fun _ => .done) <$> StorageEngine.put fuel k v
  | .get k => .value <$> StorageEngine.get fuel k
  | .delete k => .value <$> StorageEngine.delete fuel k
  | .scanAll => .entries <$> StorageEngine.scanAll fuel
  | .rangeScan a b => .entries <$> StorageEngine.rangeScan fuel a b
  | .begin => .begun <$> beginTransaction
  | .txnPut t k v => (fun _ => .done) <$> StorageEngine.txnPut fuel t k v
  | .txnGet t k => .value <$> StorageEngine.txnGet fuel t k
  | .txnDelete t k => .value <$> StorageEngine.txnDelete fuel t k
  | .commit t => (fun _ => .done) <$> commitTransaction t
  | .abort t => (fun _ => .done) <$> abortTransaction t
  | .checkpoint => (fun _ => .done) <$> StorageEngine.checkpoint
  | .sync => (fun _ => .done) <$> StorageEngine.sync

def txnCall : EngineCall → Option TxnCall
  | .begin => some .begin
  | .commit t => some (.commit t)
  | .abort t => some (.abort t)
  | _ => none

-- The log call that a call may make. A txn_delete that finds nothing logs nothing, and what it
-- finds comes from one page.
def MayLog (m : TransactionManager) : EngineCall → Option WalOp → Prop
  | .begin,o => o = TxnCall.begin.walOp m
  | .commit t,o => o = (TxnCall.commit t).walOp m
  | .abort t,o => o = (TxnCall.abort t).walOp m
  | .txnPut t k v,o => o = some (.pageWrite t 0 k v)
  | .txnDelete t k,o => o = none ∨ ∃ v, o = some (.pageWrite t 0 k v) ∧ v.length ≤ pageSize
  | .checkpoint,o => o = some (.checkpoint m.activeTransactionIds)
  | .sync,o => o = some .flush
  | _,o => o = none

def states (m : TransactionManager) (ok : Bool) (c : EngineCall) :
    TxnId → Option TransactionState :=
  match c.txnCall with
  | some c' => c'.states m ok
  | none => m.stateOf

def nextId (m : TransactionManager) (c : EngineCall) : TxnId :=
  match c.txnCall with
  | some c' => c'.nextId m
  | none => m.nextTxnId

structure Effect (c : EngineCall) (e : StorageEngine) (r : Except (Fault Error) EngineReply)
    (e' : StorageEngine) : Prop where
  log : ∃ o, c.MayLog e.txnManager o ∧ e'.wal = o.elim e.wal (fun op => (op.exec e.wal).2) ∧
    ∀ op, o = some op → ∀ f, (op.exec e.wal).1 = .error f → r = .error f
  decides : ∀ c', c.txnCall = some c' → ∀ op, c'.walOp e.txnManager = some op → op.Decides e.wal r
  next : e'.txnManager.nextTxnId = c.nextId e.txnManager
  states : e'.txnManager.stateOf = c.states e.txnManager r.isOk

end EngineCall

namespace StorageEngine

variable {α : Type} {e : StorageEngine}

def Storing (m : Prog Error StorageEngine α) : Prop :=
  ∀ e, Prog.Spec m e (fun _ e' => e'.wal = e.wal ∧ e'.txnManager = e.txnManager)

theorem storing_onPool (m : Prog Error BufferPoolManager α) : Storing (onPool m) :=
  fun _ => ⟨rfl,rfl⟩

theorem storing_modify {f : StorageEngine → StorageEngine}
    (h : ∀ e, (f e).wal = e.wal ∧ (f e).txnManager = e.txnManager) : Storing (Prog.modify f) := h

theorem Storing.bind {β : Type} {m : Prog Error StorageEngine α}
    {f : α → Prog Error StorageEngine β} (hm : Storing m) (hf : ∀ a, Storing (f a)) :
    Storing (m >>= f) := by
  intro e
  refine (hm e).bind ?_ (fun _ _ h => h)
  rintro a e' ⟨h1,h2⟩
  refine (hf a e').mono ?_
  rintro - e'' ⟨h3,h4⟩
  exact ⟨h3.trans h1,h4.trans h2⟩

theorem storing_get_bind {f : StorageEngine → Prog Error StorageEngine α}
    (hf : ∀ e, Storing (f e)) :
    Storing (Prog.get >>= f) := fun e => hf e e

theorem Storing.map {β : Type} {m : Prog Error StorageEngine α} (h : Storing m) (g : α → β) :
    Storing (g <$> m) := h.bind fun _ _ => ⟨rfl,rfl⟩

theorem storing_put (fuel : Nat) (k v : Bytes) : Storing (put fuel k v) :=
  storing_get_bind fun _ => (storing_onPool _).bind fun _ => storing_modify fun _ => ⟨rfl,rfl⟩

theorem storing_get (fuel : Nat) (k : Bytes) : Storing (get fuel k) :=
  storing_get_bind fun _ => storing_onPool _

theorem storing_delete (fuel : Nat) (k : Bytes) : Storing (delete fuel k) :=
  storing_get_bind fun _ => storing_onPool _

theorem storing_scanAll (fuel : Nat) : Storing (scanAll fuel) :=
  storing_get_bind fun _ => storing_onPool _

theorem storing_rangeScan (fuel : Nat) (a b : Bytes) : Storing (rangeScan fuel a b) :=
  storing_get_bind fun _ => storing_onPool _

theorem Storing.effect {c : EngineCall} {fuel : Nat} (h : Storing (c.exec fuel))
    (hc : c.txnCall = none) (hl : ∀ m, c.MayLog m none) (e : StorageEngine) :
    Prog.Spec (c.exec fuel) e (c.Effect e) := by
  obtain ⟨hw,hm⟩ := h e
  refine ⟨⟨none,hl _,hw,fun op ho => (by cases ho)⟩,fun c' hc' => ?_,?_,?_⟩
  · rw [hc] at hc'
    cases hc'
  · rw [hm,EngineCall.nextId,hc]
  · rw [hm,EngineCall.states,hc]

theorem onTxns_effect {β : Type} {m : Prog Error TxnSystem α} {c : TxnCall} {g : α → TxnReply}
    (hc : c.exec = g <$> m) (k : α → β) : Prog.Spec (k <$> onTxns m) e (fun r e' =>
      ∃ r', c.Effect e.txns r' e'.txns ∧ r'.isOk = r.isOk ∧ ∀ f, r' = .error f → r = .error f) := by
  have he := TxnSystem.exec_effect c e.txns
  rw [hc,Prog.Spec,Prog.map_run] at he
  rw [Prog.Spec,Prog.map_run]
  refine ⟨_,he,?_,?_⟩
  · change ((m e.txns).1.map g).isOk = ((m e.txns).1.map k).isOk
    cases (m e.txns).1 <;> rfl
  · intro f hf
    change (m e.txns).1.map k = .error f
    cases hr : (m e.txns).1 with
    | error f' =>
      rw [hr] at hf
      cases hf
      rfl
    | ok a =>
      rw [hr] at hf
      cases hf

theorem txn_effect {fuel : Nat} {c : EngineCall} {c' : TxnCall} (hc : c.txnCall = some c')
    (hl : ∀ m, c.MayLog m (c'.walOp m))
    (h : Prog.Spec (c.exec fuel) e (fun r e' => ∃ r', c'.Effect e.txns r' e'.txns ∧
      r'.isOk = r.isOk ∧ ∀ f, r' = .error f → r = .error f)) :
    Prog.Spec (c.exec fuel) e (c.Effect e) := by
  obtain ⟨r',he,hok,hf⟩ := h
  refine ⟨⟨_,hl _,he.wal,fun op ho f hop => hf f ((he.fault op ho f).mpr hop)⟩,?_,?_,?_⟩
  · intro c'' hc'' op ho f
    rw [hc] at hc''
    cases hc''
    refine Iff.trans ⟨fun hr => ?_,hf f⟩ (he.fault op ho f)
    rw [hr] at hok hf
    cases r' with
    | ok a => cases hok
    | error f' =>
      cases hf f' rfl
      rfl
  · rw [EngineCall.nextId,hc]
    exact he.next
  · rw [EngineCall.states,hc]
    dsimp only
    rw [← hok]
    exact he.states

theorem wal_effect {fuel : Nat} {c : EngineCall} (op : WalOp) {e₁ : StorageEngine}
    {m : Prog Error WalManager α} {g : α → Option Lsn}
    {f : α → Prog Error StorageEngine EngineReply} (hop : op.exec = g <$> m)
    (hc : c.txnCall = none) (hl : c.MayLog e.txnManager (some op)) (hw₁ : e₁.wal = e.wal)
    (ht₁ : e₁.txnManager = e.txnManager) (hexec : c.exec fuel e = (onWal m >>= f) e₁)
    (hf : ∀ a, Storing (f a)) : Prog.Spec (c.exec fuel) e (c.Effect e) := by
  have hrun : op.exec e.wal = ((m e.wal).1.map g,(m e.wal).2) := by rw [hop,Prog.map_run]
  have hnone {r : Except (Fault Error) EngineReply} (c' : TxnCall) (hc' : c.txnCall = some c') :
      ∀ op, c'.walOp e.txnManager = some op → op.Decides e.wal r := by
    rw [hc] at hc'
    cases hc'
  rw [Prog.Spec,hexec]
  rcases hm : m e.wal with ⟨r,w⟩
  rw [hm] at hrun
  have honWal : onWal m e₁ = (r,{ e₁ with wal := w }) := by rw [onWal,Prog.zoom,hw₁,hm]
  cases r with
  | error f' =>
    rw [Prog.bind_error honWal]
    refine ⟨⟨some op,hl,by rw [Option.elim,hrun],fun op' ho f'' hop' => ?_⟩,hnone,?_,?_⟩
    · cases ho
      rw [hrun] at hop'
      cases hop'
      rfl
    · rw [EngineCall.nextId,hc,ht₁]
    · rw [EngineCall.states,hc,ht₁]
  | ok a =>
    rw [Prog.bind_ok honWal]
    obtain ⟨hw,ht⟩ := hf a { e₁ with wal := w }
    refine ⟨⟨some op,hl,?_,fun op' ho f'' hop' => ?_⟩,hnone,?_,?_⟩
    · rw [Option.elim,hrun]
      exact hw
    · cases ho
      rw [hrun] at hop'
      cases hop'
    · rw [ht,EngineCall.nextId,hc,ht₁]
    · rw [ht,EngineCall.states,hc,ht₁]

theorem leafDelete_length {nd nd' : BTreeNode} {k v : Bytes}
    (h : nd.leafDelete k = some (some v,nd')) : v.length ≤ pageSize := by
  have hread {pg : Page} {off len : Nat} (hr : pg.read off len = some v) : v.length ≤ pageSize := by
    rw [Page.read] at hr
    split_ifs at hr with hle
    cases hr
    rw [Bytes.length_slice (by rw [pg.size]; exact hle)]
    omega
  simp only [BTreeNode.leafDelete,Option.bind_eq_bind,Option.bind_eq_some_iff] at h
  obtain ⟨⟨idx,found⟩,-,h⟩ := h
  cases found with
  | false => simp at h
  | true =>
    simp only [if_true,Option.bind_eq_some_iff] at h
    obtain ⟨v',hv,es,-,nd'',-,h⟩ := h
    cases h
    simp only [BTreeNode.leafValue,Option.bind_eq_bind,Option.bind_eq_some_iff] at hv
    obtain ⟨⟨off,keyLen,valLen⟩,-,hv⟩ := hv
    exact hread hv

theorem delete_length (fuel : Nat) (k : Bytes) (e : StorageEngine) :
    Prog.Spec (delete fuel k) e (fun r _ => ∀ v, r = .ok (some v) → v.length ≤ pageSize) := by
  rw [delete,Prog.spec_get_bind,onPool,Prog.spec_zoom]
  refine Prog.Spec.bind (Q := fun _ _ => True) trivial (fun leafId p _ => ?_)
    (fun _ _ _ _ h => (by cases h))
  refine Prog.Spec.bind (Q := fun _ _ => True) trivial (fun nd p _ => ?_)
    (fun _ _ _ _ h => (by cases h))
  cases hd : nd.leafDelete k with
  | none => exact fun v h => (by cases h)
  | some x =>
    obtain ⟨old,nd'⟩ := x
    cases old with
    | none => exact fun v h => (by cases h)
    | some v =>
      change Prog.Spec (NodeStore.writeNode nd' >>= fun _ => pure (some v)) p _
      refine Prog.Spec.bind (Q := fun _ _ => True) trivial (fun _ p _ v' hv => ?_)
        (fun _ _ _ _ h => (by cases h))
      cases hv
      exact leafDelete_length hd

theorem txnDelete_effect (fuel : Nat) (t : TxnId) (k : Bytes) :
    Prog.Spec ((EngineCall.txnDelete t k).exec fuel) e ((EngineCall.txnDelete t k).Effect e) := by
  have hstore := storing_delete fuel k e
  have hlen := delete_length fuel k e
  rcases hd : delete fuel k e with ⟨r,e₁⟩
  rw [Prog.Spec,hd] at hstore hlen
  obtain ⟨hw,ht⟩ := hstore
  have hsilent (r : Except (Fault Error) EngineReply) : (EngineCall.txnDelete t k).Effect e r e₁ :=
    ⟨⟨none,Or.inl rfl,hw,fun op ho => (by cases ho)⟩,fun c' hc' => (by cases hc'),by rw [ht]; rfl,
      by rw [ht]; rfl⟩
  cases r with
  | error f =>
    have hexec : (EngineCall.txnDelete t k).exec fuel e = (.error f,e₁) := by
      rw [EngineCall.exec,Prog.map_run,txnDelete,Prog.bind_error hd]
      rfl
    rw [Prog.Spec,hexec]
    exact hsilent _
  | ok old =>
    cases old with
    | none =>
      have hexec : (EngineCall.txnDelete t k).exec fuel e = (.ok (.value none),e₁) := by
        rw [EngineCall.exec,Prog.map_run,txnDelete,Prog.bind_ok hd]
        rfl
      rw [Prog.Spec,hexec]
      exact hsilent _
    | some v =>
      refine wal_effect (.pageWrite t 0 k v) rfl rfl (Or.inr ⟨v,rfl,hlen v rfl⟩) hw ht
        (f := fun _ => pure (.value (some v))) ?_ (fun _ _ => ⟨rfl,rfl⟩)
      rw [EngineCall.exec,Prog.map_run,txnDelete,Prog.bind_ok hd]
      change _ = ((fun _ => EngineReply.value (some v)) <$> onWal _) e₁
      rw [Prog.map_run]
      change (Except.map _ ((_ <$> onWal _) e₁).1,((_ <$> onWal _) e₁).2) = _
      rw [Prog.map_run]
      cases (onWal (WalManager.logPageWrite t 0 k v) e₁).1 <;> rfl

-- open appends no record of its own.
theorem open_appended (dir : Directory) (capacity : Nat)
    (diskFaults walFaults : List (Option Nat)) :
    Prog.Spec open_ (mount dir capacity diskFaults walFaults) (fun _ e =>
      e.wal.appended = [] ∧ e.txnManager = .new) := by
  have hwal {α : Type} {m : Prog Error WalManager α}
      (h : Prog.Preserves (fun w => w.appended = []) m) :
      Prog.Preserves (fun e : StorageEngine => e.wal.appended = [] ∧ e.txnManager = .new)
        (onWal m) := fun e he => ⟨h e.wal he.1,he.2⟩
  have hpool {α : Type} (m : Prog Error BufferPoolManager α) :
      Prog.Preserves (fun e : StorageEngine => e.wal.appended = [] ∧ e.txnManager = .new)
        (onPool m) := fun e he => he
  have htree : Prog.Preserves (fun e : StorageEngine => e.wal.appended = [] ∧ e.txnManager = .new)
      openTree := by
    refine Prog.preserves_get.bind fun e => ?_
    split_ifs
    · exact (hpool _).bind fun tree => Prog.preserves_modify fun _ h => h
    · exact Prog.preserves_modify fun _ h => h
  have hrecover : Prog.Preserves
      (fun e : StorageEngine => e.wal.appended = [] ∧ e.txnManager = .new) recover := by
    refine (hwal WalManager.recover_unlogged).bind fun actions => ?_
    split_ifs
    · exact Prog.preserves_pure ()
    · exact Prog.preserves_get.bind fun e => (hpool _).bind fun _ => (hpool _).bind fun _ =>
        (hpool _).bind fun _ => hwal WalManager.truncate_unlogged
  exact ((hwal WalManager.open_unlogged).bind fun _ => htree.bind fun _ => hrecover) _ ⟨rfl,rfl⟩

theorem open_wal (dir : Directory) (capacity : Nat) (diskFaults walFaults : List (Option Nat)) :
    Prog.Spec open_ (mount dir capacity diskFaults walFaults) (fun r e => r = .ok () → ∃ rs fs,
      FrameLog.readAll LogRecord.deserialize dir.log = .ok rs ∧
        (e.wal = .opened rs (.onFile dir.log fs) ∨
          e.wal = { (WalManager.opened rs (.onFile dir.log fs)).truncated with
            faults := fs })) := by
  have hpool {α : Type} (m : Prog Error BufferPoolManager α) (e : StorageEngine) :
      Prog.Spec (onPool m) e (fun _ e' => e'.wal = e.wal) := rfl
  have htree (e : StorageEngine) : Prog.Spec openTree e (fun _ e' => e'.wal = e.wal) := by
    rw [openTree,Prog.spec_get_bind]
    split_ifs
    · exact (hpool _ e).bind (fun _ _ h => h) (fun _ _ h => h)
    · rfl
  rw [open_]
  refine Prog.Spec.zoom_bind (WalManager.open_spec dir.log walFaults) ?_
    (fun _ _ _ h => (by cases h))
  intro _ w hw
  obtain ⟨rs,fs,hread,-,rfl⟩ := hw rfl
  refine (htree _).bind ?_ (fun _ _ _ h => (by cases h))
  intro _ e he
  have he : e.wal = .opened rs (.onFile dir.log fs) := he
  rw [recover]
  refine Prog.Spec.zoom_bind (WalManager.recover_keeps e.wal) ?_ (fun _ _ _ h => (by cases h))
  rintro actions w ⟨fs',rfl⟩
  have he' : ({ e.wal with faults := fs' } : WalManager) = .opened rs (.onFile dir.log fs') := by
    rw [he]
    rfl
  rw [he']
  split_ifs
  · exact fun _ => ⟨rs,fs',hread,Or.inl rfl⟩
  · rw [Prog.spec_get_bind]
    refine (hpool _ _).bind (fun _ e1 h1 => ?_) (fun _ _ _ h => (by cases h))
    refine (hpool _ e1).bind (fun _ e2 h2 => ?_) (fun _ _ _ h => (by cases h))
    refine (hpool _ e2).bind (fun _ e3 h3 => ?_) (fun _ _ _ h => (by cases h))
    have h3 := h3.trans (h2.trans h1)
    intro hok
    obtain ⟨fs'',ht⟩ := WalManager.truncate_spec e3.wal hok
    refine ⟨rs,fs'',hread,Or.inr (Eq.trans ht ?_)⟩
    rw [h3]
    rfl

-- A session ends with its first panic; an error leaves the engine in use.
def run (fuel : Nat) : List EngineCall → StorageEngine →
    List (Except (Fault Error) EngineReply) × StorageEngine
  | [],e => ([],e)
  | c :: cs,e =>
    match c.exec fuel e with
    | (.error .panic,e') => ([.error .panic],e')
    | (.error .hang,e') => ([.error .hang],e')
    | (r,e') => (r :: (run fuel cs e').1,(run fuel cs e').2)

def Lives (r : Except (Fault Error) EngineReply) : Prop := r ≠ .error .panic ∧ r ≠ .error .hang

instance (r : Except (Fault Error) EngineReply) : Decidable (Lives r) :=
  inferInstanceAs (Decidable (_ ∧ _))

theorem run_cons {fuel : Nat} {c : EngineCall} {cs : List EngineCall} {e' : StorageEngine}
    {r : Except (Fault Error) EngineReply} (h : c.exec fuel e = (r,e')) (hr : Lives r) :
    run fuel (c :: cs) e = (r :: (run fuel cs e').1,(run fuel cs e').2) := by
  rw [run,h]
  rcases r with f | a
  · cases f with
    | panic => exact absurd rfl hr.1
    | hang => exact absurd rfl hr.2
    | err x => rfl
  · rfl

theorem run_cons_dead {fuel : Nat} {c : EngineCall} {cs : List EngineCall} {e' : StorageEngine}
    {r : Except (Fault Error) EngineReply} (h : c.exec fuel e = (r,e')) (hr : ¬ Lives r) :
    run fuel (c :: cs) e = ([r],e') := by
  rw [run,h]
  rcases r with f | a
  · cases f with
    | panic => rfl
    | hang => rfl
    | err x => exact absurd ⟨by simp,by simp⟩ hr
  · exact absurd ⟨by simp,by simp⟩ hr

end StorageEngine

open StorageEngine in
theorem EngineCall.exec_effect (c : EngineCall) (fuel : Nat) (e : StorageEngine) :
    Prog.Spec (c.exec fuel) e (c.Effect e) := by
  cases c with
  | put k v =>
    exact Storing.effect (c := .put k v) ((storing_put fuel k v).map _) rfl (fun _ => rfl) e
  | get k => exact Storing.effect (c := .get k) ((storing_get fuel k).map _) rfl (fun _ => rfl) e
  | delete k =>
    exact Storing.effect (c := .delete k) ((storing_delete fuel k).map _) rfl (fun _ => rfl) e
  | scanAll =>
    exact Storing.effect (c := .scanAll) ((storing_scanAll fuel).map _) rfl (fun _ => rfl) e
  | rangeScan a b =>
    exact Storing.effect (c := .rangeScan a b) ((storing_rangeScan fuel a b).map _) rfl
      (fun _ => rfl) e
  | txnGet t k =>
    exact Storing.effect (c := .txnGet t k) ((storing_get fuel k).map _) rfl (fun _ => rfl) e
  | begin => exact txn_effect rfl (fun _ => rfl) (onTxns_effect rfl _)
  | commit t => exact txn_effect rfl (fun _ => rfl) (onTxns_effect rfl _)
  | abort t =>
    have hexec : (EngineCall.abort t).exec fuel = (fun _ => EngineReply.done) <$>
        onTxns (TxnSystem.abort t) := by
      simp [exec,abortTransaction]
    exact txn_effect rfl (fun _ => rfl) (hexec ▸ onTxns_effect rfl _)
  | txnPut t k v =>
    refine wal_effect (.pageWrite t 0 k v) rfl rfl rfl rfl rfl
      (f := fun _ => (fun _ => .done) <$> StorageEngine.put fuel k v) ?_
      (fun _ => (storing_put fuel k v).map _)
    simp [exec,StorageEngine.txnPut]
  | txnDelete t k => exact txnDelete_effect fuel t k
  | checkpoint =>
    refine wal_effect (.checkpoint e.txnManager.activeTransactionIds) rfl rfl rfl rfl rfl
      (f := fun _ => pure .done) ?_ (fun _ _ => ⟨rfl,rfl⟩)
    simp [exec,StorageEngine.checkpoint]
  | sync =>
    refine wal_effect .flush (m := WalManager.flush) rfl rfl rfl rfl rfl
      (f := fun _ => (fun _ => .done) <$> onPool BufferPoolManager.flushAll) ?_
      (fun _ => (storing_onPool _).map _)
    simp [exec,StorageEngine.sync]

end StorageDb
