import Mathlib.Tactic
import StorageDb.Txn.LockFootprint
import StorageDb.Engine.EngineCall

namespace StorageDb

namespace TransactionManager

variable {m m' : TransactionManager} {n : Nat}

inductive Moves (m : TransactionManager) : TransactionManager → Prop
  | same : Moves m m
  | started : Moves m m.started
  | marked (t : TxnId) (txn : Transaction) (st : TransactionState)
      (h : m.activeTxns.lookup t = some txn) : Moves m (m.withTxn t { txn with state := st })
  | ended (t : TxnId) (txn : Transaction) (st : TransactionState)
      (h : m.activeTxns.lookup t = some txn) :
      Moves m ((m.withTxn t { txn with state := st }).ended t)

structure Bare (n : Nat) (m : TransactionManager) : Prop where
  locks : m.lockManager = .new
  sets : ∀ t txn, m.activeTxns.lookup t = some txn → txn.readSet = [] ∧ txn.writeSet = ∅
  count : m.activeCount ≤ n

theorem bare_new : Bare 0 .new where
  locks := rfl
  sets t txn h := by cases h
  count := le_rfl

theorem activeCount_withTxn (m : TransactionManager) (t : TxnId) (txn : Transaction) :
    (m.withTxn t txn).activeCount ≤ m.activeCount + 1 := by
  rw [activeCount,activeCount,withTxn,AList.keys_insert,List.length_cons]
  exact Nat.add_le_add_right (List.length_erase_le ..) 1

theorem activeCount_withTxn_mem {t : TxnId} {txn : Transaction}
    (h : m.activeTxns.lookup t = some txn) (txn' : Transaction) :
    (m.withTxn t txn').activeCount = m.activeCount := by
  have hmem : t ∈ m.activeTxns.keys := by
    rw [← AList.mem_keys,← AList.lookup_isSome,h]
    rfl
  have hpos := List.length_pos_of_mem hmem
  rw [activeCount,activeCount,withTxn,AList.keys_insert,List.length_cons,
    List.length_erase_of_mem hmem]
  omega

theorem activeCount_ended (t : TxnId) (m : TransactionManager) :
    (m.ended t).activeCount ≤ m.activeCount := by
  rw [activeCount,activeCount,ended,AList.keys_erase]
  exact List.length_erase_le ..

theorem Bare.withTxn (h : Bare n m) {t : TxnId} {txn : Transaction}
    (hs : txn.readSet = [] ∧ txn.writeSet = ∅) (hn : (m.withTxn t txn).activeCount ≤ n) :
    Bare n (m.withTxn t txn) where
  locks := h.locks
  sets u txn' hu := by
    rw [TransactionManager.withTxn] at hu
    dsimp only at hu
    by_cases htu : u = t
    · rw [htu,AList.lookup_insert] at hu
      cases hu
      exact hs
    · rw [AList.lookup_insert_ne htu] at hu
      exact h.sets u txn' hu
  count := hn

theorem Bare.ended (h : Bare n m) (t : TxnId) : Bare n (m.ended t) where
  locks := by
    rw [TransactionManager.ended,h.locks]
    rfl
  sets u txn hu := by
    rw [TransactionManager.ended] at hu
    dsimp only at hu
    by_cases htu : u = t
    · rw [htu,AList.lookup_erase] at hu
      cases hu
    · rw [AList.lookup_erase_ne htu] at hu
      exact h.sets u txn hu
  count := (activeCount_ended t m).trans h.count

theorem Bare.mono {k : Nat} (h : Bare n m) (hk : n ≤ k) : Bare k m :=
  ⟨h.locks,h.sets,h.count.trans hk⟩

theorem Bare.moves (h : Bare n m) (hm : Moves m m') : Bare (n + 1) m' := by
  have hmark {t : TxnId} {txn : Transaction} (st : TransactionState)
      (hl : m.activeTxns.lookup t = some txn) : Bare n (m.withTxn t { txn with state := st }) :=
    h.withTxn (h.sets t txn hl) ((activeCount_withTxn_mem hl _).le.trans h.count)
  cases hm with
  | same => exact h.mono n.le_succ
  | started =>
    have hb : Bare (n + 1) { m with nextTxnId := m.nextTxnId + 1 } :=
      ⟨h.locks,h.sets,h.count.trans n.le_succ⟩
    exact hb.withTxn ⟨rfl,rfl⟩ ((activeCount_withTxn _ _ _).trans (Nat.add_le_add_right h.count 1))
  | marked t txn st hl => exact (hmark st hl).mono n.le_succ
  | ended t txn st hl => exact ((hmark st hl).ended t).mono n.le_succ

end TransactionManager

namespace TxnSystem
open TransactionManager

variable {s : TxnSystem}

theorem begin_moves (s : TxnSystem) :
    Prog.Spec begin s (fun _ s' => Moves s.manager s'.manager) := by
  rw [begin,Prog.spec_get_bind,spec_update_bind]
  refine Prog.Spec.zoom_bind (Q := fun _ _ => True) trivial ?_ ?_
  · exact fun _ _ _ => .started
  · exact fun _ _ _ => .started

theorem commit_moves (s : TxnSystem) (t : TxnId) :
    Prog.Spec (commit t) s (fun _ s' => Moves s.manager s'.manager) := by
  rw [commit,Prog.spec_get_bind]
  cases hl : s.manager.activeTxns.lookup t with
  | none => exact .same
  | some txn =>
    dsimp only
    split_ifs
    · rw [spec_update_bind]
      refine Prog.Spec.zoom_bind (Q := fun _ _ => True) trivial ?_ ?_
      · exact fun _ _ _ => .ended t txn .committed hl
      · exact fun _ _ _ => .marked t txn .committed hl
    · exact .same

theorem abort_moves (s : TxnSystem) (t : TxnId) :
    Prog.Spec (abort t) s (fun r s' => Moves s.manager s'.manager ∧ ∀ ws, r = .ok ws →
      ∃ txn, s.manager.activeTxns.lookup t = some txn ∧ ws = txn.writeSet) := by
  rw [abort,Prog.spec_get_bind]
  cases hl : s.manager.activeTxns.lookup t with
  | none => exact ⟨.same,fun ws h => (by cases h)⟩
  | some txn =>
    dsimp only
    rw [spec_update_bind]
    refine Prog.Spec.zoom_bind (Q := fun _ _ => True) trivial ?_ ?_
    · refine fun _ _ _ => ⟨.ended t txn .aborted hl,fun ws h => ?_⟩
      cases h
      exact ⟨txn,rfl,rfl⟩
    · exact fun _ _ _ => ⟨.marked t txn .aborted hl,fun ws h => (by cases h)⟩

end TxnSystem

namespace StorageEngine
open TransactionManager

variable {fuel : Nat} {e : StorageEngine} {n : Nat}

section table

variable {T : TransactionManager}

theorem keeps_onWal {α : Type} (m : Prog Error WalManager α) :
    Prog.Preserves (fun e : StorageEngine => e.txnManager = T) (onWal m) := fun _ h => h

theorem keeps_of_storing {α : Type} {m : Prog Error StorageEngine α} (h : Storing m) :
    Prog.Preserves (fun e : StorageEngine => e.txnManager = T) m :=
  fun e he => (h e).2.trans he

theorem keeps_moves {α β : Type} {m : Prog Error StorageEngine α} (g : α → β)
    (h : ∀ T, Prog.Preserves (fun e : StorageEngine => e.txnManager = T) m) (e : StorageEngine) :
    Prog.Spec (g <$> m) e (fun _ e' => Moves e.txnManager e'.txnManager) := by
  rw [Prog.Spec,Prog.map_run]
  have he := h e.txnManager e rfl
  change Moves e.txnManager (m e).2.txnManager
  rw [he]
  exact .same

end table

theorem onTxns_moves {α β : Type} {m : Prog Error TxnSystem α} (g : α → β)
    (h : Prog.Spec m e.txns (fun _ s' => Moves e.txnManager s'.manager)) :
    Prog.Spec (g <$> onTxns m) e (fun _ e' => Moves e.txnManager e'.txnManager) := by
  rw [Prog.Spec,Prog.map_run]
  exact h

theorem exec_moves (c : EngineCall) (fuel : Nat) (e : StorageEngine) :
    Prog.Spec (c.exec fuel) e (fun _ e' => Moves e.txnManager e'.txnManager) := by
  cases c with
  | put k v => exact keeps_moves _ (fun _ => keeps_of_storing (storing_put fuel k v)) e
  | get k => exact keeps_moves _ (fun _ => keeps_of_storing (storing_get fuel k)) e
  | delete k => exact keeps_moves _ (fun _ => keeps_of_storing (storing_delete fuel k)) e
  | scanAll => exact keeps_moves _ (fun _ => keeps_of_storing (storing_scanAll fuel)) e
  | rangeScan a b => exact keeps_moves _ (fun _ => keeps_of_storing (storing_rangeScan fuel a b)) e
  | txnGet t k => exact keeps_moves _ (fun _ => keeps_of_storing (storing_get fuel k)) e
  | begin => exact onTxns_moves _ (TxnSystem.begin_moves e.txns)
  | commit t => exact onTxns_moves _ (TxnSystem.commit_moves e.txns t)
  | abort t =>
    have hexec : (EngineCall.abort t).exec fuel = (fun _ => EngineReply.done) <$>
        onTxns (TxnSystem.abort t) := by
      simp [EngineCall.exec,abortTransaction]
    rw [hexec]
    exact onTxns_moves _ ((TxnSystem.abort_moves e.txns t).mono fun _ _ h => h.1)
  | txnPut t k v =>
    refine keeps_moves _ (fun T => ?_) e
    exact (keeps_onWal _).bind fun _ => keeps_of_storing (storing_put fuel k v)
  | txnDelete t k =>
    refine keeps_moves _ (fun T => ?_) e
    refine (keeps_of_storing (storing_delete fuel k)).bind fun old => ?_
    cases old with
    | none => exact Prog.preserves_pure _
    | some v => exact (keeps_onWal _).bind fun _ => Prog.preserves_pure _
  | checkpoint =>
    refine keeps_moves _ (fun T => ?_) e
    exact Prog.preserves_get.bind fun _ => (keeps_onWal _).bind fun _ => Prog.preserves_pure _
  | sync =>
    refine keeps_moves _ (fun T => ?_) e
    exact (keeps_onWal _).bind fun _ => keeps_of_storing (storing_onPool _)

theorem run_bare (fuel : Nat) (cs : List EngineCall) (h : Bare n e.txnManager) :
    Bare (n + cs.length) (run fuel cs e).2.txnManager := by
  induction cs generalizing e n with
  | nil => exact h
  | cons c cs ih =>
    have hstep := h.moves (exec_moves c fuel e)
    rcases hc : c.exec fuel e with ⟨r,e'⟩
    rw [hc] at hstep
    by_cases hr : Lives r
    · rw [run_cons hc hr,List.length_cons,show n + (cs.length + 1) = n + 1 + cs.length by omega]
      exact ih hstep
    · rw [run_cons_dead hc hr,List.length_cons]
      exact hstep.mono (by omega)

theorem engine_never_locks {dir : Directory} {capacity : Nat}
    {diskFaults walFaults : List (Option Nat)}
    (hopen : open_ (mount dir capacity diskFaults walFaults) = (.ok (),e)) (fuel : Nat)
    (cs : List EngineCall) :
    (run fuel cs e).2.txnManager.lockManager.numLocks = 0 ∧
      (run fuel cs e).2.txnManager.activeCount ≤ cs.length ∧
      (∀ t p, (run fuel cs e).2.txnManager.lockManager.holdsLock t p = false) ∧
      ∀ t ws s, TxnSystem.abort t (run fuel cs e).2.txns = (.ok ws,s) → ws = ∅ := by
  have hnew := ((open_appended dir capacity diskFaults walFaults).of_eq hopen).2
  have hb : Bare (0 + cs.length) (run fuel cs e).2.txnManager :=
    run_bare fuel cs (hnew ▸ bare_new)
  rw [Nat.zero_add] at hb
  refine ⟨?_,hb.count,fun t p => ?_,fun t ws s ha => ?_⟩
  · rw [hb.locks]
    rfl
  · rw [hb.locks]
    rfl
  · obtain ⟨txn,hl,rfl⟩ := ((TxnSystem.abort_moves _ t).of_eq ha).2 ws rfl
    exact (hb.sets t txn hl).2

theorem engine_never_locks_write : ∃ e, open_ (mount ⟨[],[]⟩ 4 [] []) = (.ok (),e) ∧
    (run 1 [.begin,.txnPut 1 [1] [2]] e).1 = [.ok (.begun 1),.ok .done] ∧
    (run 1 [.begin,.txnPut 1 [1] [2]] e).2.txnManager.lockManager.numLocks = 0 := by
  have hopen := Prog.run_eq (m := open_) (r := .ok ()) (s := mount ⟨[],[]⟩ 4 [] [])
    (by decide +kernel)
  exact ⟨_,hopen,by decide +kernel,(engine_never_locks hopen 1 _).1⟩

end StorageEngine

end StorageDb
