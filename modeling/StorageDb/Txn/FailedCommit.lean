import Mathlib.Tactic
import StorageDb.Wal.Analysis
import StorageDb.Wal.TornTail
import StorageDb.Txn.Lifecycle

namespace StorageDb
open FrameLog

def LoggedStep.abortOk : LoggedStep → Except (Fault Error) TxnReply → Finset TxnId
  | .call (.abort t),.ok _ => {t}
  | _,_ => ∅

structure TxnTrace where
  sys : TxnSystem
  aborted : Finset TxnId

namespace TxnTrace

def step (tr : TxnTrace) (st : LoggedStep) : TxnTrace :=
  ⟨(st.exec tr.sys).2,tr.aborted ∪ st.abortOk (st.exec tr.sys).1⟩

-- An error leaves the session running; a panic ends it.
def run : List LoggedStep → TxnTrace → TxnTrace
  | [],tr => tr
  | st :: steps,tr =>
    match (st.exec tr.sys).1 with
    | .error .panic => tr.step st
    | _ => run steps (tr.step st)

-- No abort after a commit that failed; ids do not run out and payloads have 32-bit lengths.
def Careful (tr : TxnTrace) : LoggedStep → Prop
  | .call .begin => tr.sys.manager.nextTxnId.toNat + 1 < 2 ^ 64
  | .call (.abort t) => tr.sys.manager.stateOf t ≠ some .committed
  | .call (.logWrite t p b a) => (WalOp.pageWrite t p b a).PayloadFits
  | .checkpoint ts => (WalOp.checkpoint ts).PayloadFits
  | _ => True

instance (tr : TxnTrace) (st : LoggedStep) : Decidable (tr.Careful st) := by
  unfold Careful
  split <;> infer_instance

def CarefulRun : List LoggedStep → TxnTrace → Prop
  | [],_ => True
  | st :: steps,tr => tr.Careful st ∧
    ((st.exec tr.sys).1 ≠ .error .panic → CarefulRun steps (tr.step st))

-- No transaction has both a Commit record and an abort that returned Ok.
structure Unmixed (tr : TxnTrace) : Prop where
  commits : ∀ r ∈ tr.sys.wal.appended, r.recordType = .commit → r.txnId ∉ tr.aborted ∧
    r.txnId.toNat < tr.sys.manager.nextTxnId.toNat ∧
    (tr.sys.manager.stateOf r.txnId = none ∨ tr.sys.manager.stateOf r.txnId = some .committed)
  ended : ∀ t ∈ tr.aborted, t.toNat < tr.sys.manager.nextTxnId.toNat ∧
    tr.sys.manager.stateOf t = none
  known : ∀ t, tr.sys.manager.stateOf t ≠ none → t.toNat < tr.sys.manager.nextTxnId.toNat

variable {tr : TxnTrace} {st : LoggedStep}

theorem Careful.fits (h : tr.Careful st) {op : WalOp} (ho : st.walOp tr.sys.manager = some op) :
    op.PayloadFits := by
  cases st with
  | flush => cases ho; decide
  | checkpoint ts => cases ho; exact h
  | call c =>
    cases c with
    | begin => cases ho; exact (by decide : recordHeaderSize + 0 < 2 ^ 32)
    | acquireReadLock t p => cases ho
    | acquireWriteLock t p b => cases ho
    | logWrite t p b a =>
      rw [LoggedStep.walOp,TxnCall.walOp] at ho
      split_ifs at ho
      cases ho
      exact h
    | commit t =>
      rw [LoggedStep.walOp,TxnCall.walOp] at ho
      split_ifs at ho
      cases ho
      exact (by decide : recordHeaderSize + 0 < 2 ^ 32)
    | abort t =>
      rw [LoggedStep.walOp,TxnCall.walOp] at ho
      split_ifs at ho
      cases ho
      exact (by decide : recordHeaderSize + 0 < 2 ^ 32)

theorem logged_step {k : Nat} (hl : WalManager.Logged [] 0 k tr.sys.wal) (h : tr.Careful st) :
    (∀ r ∈ (tr.step st).sys.wal.appended, r ∈ tr.sys.wal.appended ∨
      ∃ op, st.walOp tr.sys.manager = some op ∧
        op.entry tr.sys.wal.nextLsn tr.sys.wal.txnLastLsn = some r) ∧
      WalManager.Durable [] 0 k (tr.step st).sys.wal ∧
      ((st.exec tr.sys).1 ≠ .error .panic → WalManager.Logged [] 0 k (tr.step st).sys.wal) := by
  obtain ⟨hwal,hfault,-,-⟩ := LoggedStep.exec_effect st tr.sys
  change (tr.step st).sys.wal = _ at hwal
  cases ho : st.walOp tr.sys.manager with
  | none =>
    rw [ho] at hwal
    have hwal' : (tr.step st).sys.wal = tr.sys.wal := hwal
    rw [hwal']
    exact ⟨fun r hr => Or.inl hr,hl.toDurable,fun _ => hl⟩
  | some op =>
    rw [ho] at hwal
    have hwal' : (tr.step st).sys.wal = (op.exec tr.sys.wal).2 := hwal
    have hx := hl.exec_spec (h.fits ho)
    rcases he : op.exec tr.sys.wal with ⟨r,w⟩
    have hx' := hx.of_eq he
    rw [he] at hwal'
    rw [hwal']
    cases r with
    | ok l =>
      obtain ⟨-,h1,h2⟩ := hx'
      refine ⟨fun r hr => ?_,h1.toDurable,fun _ => h1⟩
      rw [h2.entry] at hr
      rcases List.mem_append.mp hr with hr | hr
      · exact Or.inl hr
      · exact Or.inr ⟨op,rfl,Option.mem_toList.mp hr⟩
    | error f =>
      refine ⟨fun r hr => ?_,hx'.durable,fun hne => hx'.logged ?_⟩
      · rcases hx'.grown with hg | hg
        · rw [hg] at hr
          exact Or.inl hr
        · rw [hg] at hr
          rcases List.mem_append.mp hr with hr | hr
          · exact Or.inl hr
          · exact Or.inr ⟨op,rfl,Option.mem_toList.mp hr⟩
      · rintro rfl
        exact hne ((hfault op ho .panic).mpr (by rw [he]))

structure Moved (tr : TxnTrace) (st : LoggedStep) : Prop where
  next : tr.sys.manager.nextTxnId.toNat ≤ (tr.step st).sys.manager.nextTxnId.toNat
  ended : ∀ u, u.toNat < tr.sys.manager.nextTxnId.toNat → tr.sys.manager.stateOf u = none ∨
    tr.sys.manager.stateOf u = some .committed →
    (tr.step st).sys.manager.stateOf u = tr.sys.manager.stateOf u
  known : ∀ u, (tr.step st).sys.manager.stateOf u ≠ none → tr.sys.manager.stateOf u ≠ none ∨
    u.toNat < (tr.step st).sys.manager.nextTxnId.toNat
  abort : ∀ u ∈ st.abortOk (st.exec tr.sys).1, tr.sys.manager.stateOf u ≠ none ∧
    tr.sys.manager.stateOf u ≠ some .committed ∧ (tr.step st).sys.manager.stateOf u = none

theorem moved_same (hm : (tr.step st).sys.manager.nextTxnId = tr.sys.manager.nextTxnId)
    (hs : (tr.step st).sys.manager.stateOf = tr.sys.manager.stateOf)
    (ha : st.abortOk (st.exec tr.sys).1 = ∅) : tr.Moved st where
  next := by rw [hm]
  ended u _ _ := by rw [hs]
  known u hu := by rw [hs] at hu; exact Or.inl hu
  abort u hu := by rw [ha] at hu; cases hu

theorem moved_one {t : TxnId} {x : Option TransactionState}
    (hm : (tr.step st).sys.manager.nextTxnId = tr.sys.manager.nextTxnId)
    (hs : (tr.step st).sys.manager.stateOf = Function.update tr.sys.manager.stateOf t x)
    (ht : tr.sys.manager.stateOf t ≠ none) (hc : tr.sys.manager.stateOf t ≠ some .committed)
    (ha : ∀ u ∈ st.abortOk (st.exec tr.sys).1, u = t ∧ x = none) : tr.Moved st where
  next := by rw [hm]
  ended u _ hu := by
    rw [hs,Function.update_of_ne]
    rintro rfl
    rcases hu with hu | hu
    · exact ht hu
    · exact hc hu
  known u hu := by
    by_cases hut : u = t
    · exact Or.inl (hut ▸ ht)
    · rw [hs,Function.update_of_ne hut] at hu
      exact Or.inl hu
  abort u hu := by
    obtain ⟨rfl,rfl⟩ := ha u hu
    rw [hs,Function.update_self]
    exact ⟨ht,hc,rfl⟩

theorem Careful.moved_begin (h : tr.Careful (.call .begin)) : tr.Moved (.call .begin) := by
  have he := TxnSystem.exec_effect .begin tr.sys
  have hb : tr.sys.manager.nextTxnId.toNat + 1 < 2 ^ 64 := h
  have hn : (tr.step (.call .begin)).sys.manager.nextTxnId.toNat =
      tr.sys.manager.nextTxnId.toNat + 1 := by
    have hnext : (tr.step (.call .begin)).sys.manager.nextTxnId = tr.sys.manager.nextTxnId + 1 :=
      he.next
    rw [hnext,UInt64.toNat_add]
    exact Nat.mod_eq_of_lt hb
  have hs : (tr.step (.call .begin)).sys.manager.stateOf =
      Function.update tr.sys.manager.stateOf tr.sys.manager.nextTxnId (some .active) := he.states
  refine ⟨by omega,fun u hlt _ => ?_,fun u hu => ?_,fun u hu => by cases hu⟩
  · rw [hs,Function.update_of_ne]
    rintro rfl
    omega
  · rw [hs,Function.update_apply] at hu
    split_ifs at hu with hun
    · exact Or.inr (by rw [hn,hun]; omega)
    · exact Or.inl hu

theorem Careful.moved (h : tr.Careful st) : tr.Moved st := by
  have he := LoggedStep.exec_effect st tr.sys
  cases st with
  | flush => exact moved_same he.next he.states rfl
  | checkpoint ts => exact moved_same he.next he.states rfl
  | call c =>
    cases c with
    | acquireReadLock t p => exact moved_same he.next he.states rfl
    | acquireWriteLock t p b => exact moved_same he.next he.states rfl
    | logWrite t p b a => exact moved_same he.next he.states rfl
    | begin => exact h.moved_begin
    | commit t =>
      by_cases hst : tr.sys.manager.stateOf t = some .active
      · exact moved_one he.next (he.states.trans (if_pos hst)) (by rw [hst]; simp)
          (by rw [hst]; simp) (fun u hu => by cases hu)
      · exact moved_same he.next (he.states.trans (if_neg hst)) rfl
    | abort t =>
      cases hst : tr.sys.manager.stateOf t with
      | none =>
        have hr := TxnSystem.abort_refused hst
        refine moved_same he.next (he.states.trans (if_neg (by rw [hst]; simp))) ?_
        change LoggedStep.abortOk _ ((TxnCall.abort t).exec tr.sys).1 = ∅
        rw [hr]
        rfl
      | some x =>
        refine moved_one he.next (he.states.trans (if_pos (by rw [hst]; rfl))) (by rw [hst]; simp) h
          (fun u hu => ?_)
        change u ∈ LoggedStep.abortOk _ ((TxnCall.abort t).exec tr.sys).1 at hu
        cases hr : ((TxnCall.abort t).exec tr.sys).1 with
        | error f =>
          rw [hr] at hu
          cases hu
        | ok y =>
          rw [hr] at hu
          refine ⟨Finset.mem_singleton.mp hu,?_⟩
          change (if ((TxnCall.abort t).exec tr.sys).1.isOk then none else _) = none
          rw [hr]
          rfl

theorem commit_of_walOp {t : TxnId} (h : st.walOp tr.sys.manager = some (.commit t)) :
    st = .call (.commit t) ∧ tr.sys.manager.stateOf t = some .active := by
  cases st with
  | flush => cases h
  | checkpoint ts => cases h
  | call c =>
    cases c with
    | commit u =>
      rw [LoggedStep.walOp,TxnCall.walOp] at h
      split_ifs at h with hst
      cases h
      exact ⟨rfl,hst⟩
    | begin => cases h
    | acquireReadLock u p => cases h
    | acquireWriteLock u p b => cases h
    | logWrite u p b a =>
      rw [LoggedStep.walOp,TxnCall.walOp] at h
      split_ifs at h
      cases h
    | abort u =>
      rw [LoggedStep.walOp,TxnCall.walOp] at h
      split_ifs at h
      cases h

theorem Unmixed.step (h : tr.Unmixed) (hc : tr.Careful st)
    (hnew : ∀ r ∈ (tr.step st).sys.wal.appended, r ∈ tr.sys.wal.appended ∨
      ∃ op, st.walOp tr.sys.manager = some op ∧
        op.entry tr.sys.wal.nextLsn tr.sys.wal.txnLastLsn = some r) : (tr.step st).Unmixed := by
  have hm := hc.moved
  have hnext := hm.next
  constructor
  case commits =>
    intro r hr hrc
    rcases hnew r hr with hr | ⟨op,ho,hentry⟩
    · obtain ⟨h1,h2,h3⟩ := h.commits r hr hrc
      refine ⟨fun ha => ?_,by omega,by rw [hm.ended _ h2 h3]; exact h3⟩
      rcases Finset.mem_union.mp ha with ha | ha
      · exact h1 ha
      · obtain ⟨hne,hnc,-⟩ := hm.abort _ ha
        rcases h3 with h3 | h3
        · exact hne h3
        · exact hnc h3
    · -- the commit record of this step
      obtain ⟨t,rfl⟩ := commit_of_entry hentry hrc
      obtain ⟨rfl,hst⟩ := commit_of_walOp ho
      have hrt : r.txnId = t := by cases hentry; rfl
      have hs := (TxnSystem.exec_effect (.commit t) tr.sys).states.trans (if_pos hst)
      rw [hrt]
      refine ⟨fun ha => ?_,?_,?_⟩
      · rcases Finset.mem_union.mp ha with ha | ha
        · have hnone := (h.ended t ha).2
          rw [hst] at hnone
          cases hnone
        · cases ha
      · have hlt := h.known t (by rw [hst]; simp)
        omega
      · have hsu : (tr.step (.call (.commit t))).sys.manager.stateOf t =
            if ((TxnCall.commit t).exec tr.sys).1.isOk then none else some .committed :=
          (congrFun hs t).trans (Function.update_self ..)
        rw [hsu]
        split_ifs
        · exact Or.inl rfl
        · exact Or.inr rfl
  case ended =>
    intro t ht
    rcases Finset.mem_union.mp ht with ht | ht
    · obtain ⟨h1,h2⟩ := h.ended t ht
      exact ⟨by omega,by rw [hm.ended t h1 (Or.inl h2)]; exact h2⟩
    · obtain ⟨h1,-,h3⟩ := hm.abort t ht
      have := h.known t h1
      exact ⟨by omega,h3⟩
  case known =>
    intro t ht
    rcases hm.known t ht with h1 | h1
    · have := h.known t h1
      omega
    · exact h1

theorem Unmixed.run {steps : List LoggedStep} {k : Nat} (h : tr.Unmixed)
    (hl : WalManager.Logged [] 0 k tr.sys.wal) (hc : CarefulRun steps tr) :
    (run steps tr).Unmixed ∧ WalManager.Durable [] 0 k (run steps tr).sys.wal := by
  induction steps generalizing tr with
  | nil => exact ⟨h,hl.toDurable⟩
  | cons st steps ih =>
    obtain ⟨hnew,hd,hlog⟩ := logged_step hl hc.1
    have hstep := h.step hc.1 hnew
    rw [TxnTrace.run]
    split
    · exact ⟨hstep,hd⟩
    · rename_i hne
      exact ih hstep (hlog hne) (hc.2 hne)

def start (wal : WalManager) : TxnTrace := ⟨⟨.new,wal⟩,∅⟩

theorem start_unmixed {wal : WalManager} (h : wal.appended = []) : (start wal).Unmixed where
  commits r hr := by
    change r ∈ wal.appended at hr
    rw [h] at hr
    cases hr
  ended t ht := by cases ht
  known t ht := absurd rfl ht

theorem abort_excludes_commit {faults faults' : List (Option Nat)} {wal w' w'' : WalManager}
    {steps : List LoggedStep} {t : TxnId} {n : Nat} {actions : RecoveryActions}
    (hopen : WalManager.open_ (.onFile [] faults) = (.ok (),wal))
    (hc : CarefulRun steps (start wal)) (ht : t ∈ (run steps (start wal)).aborted)
    (hn : n ≤ (run steps (start wal)).sys.wal.file.length)
    (hre : WalManager.open_ (.onFile ((run steps (start wal)).sys.wal.file.take n) faults') =
      (.ok (),w'))
    (hrec : WalManager.recover w' = (.ok actions,w'')) :
    t ∉ actions.committedTxns ∧ ∃ rs,
      readAll LogRecord.deserialize ((run steps (start wal)).sys.wal.file.take n) = .ok rs ∧
      collectImages actions.committedTxns Prod.snd (rs.filter (fun r => r.txnId ≠ t)) =
        .ok actions.redo := by
  obtain ⟨rs,fs,hrs,-,rfl⟩ := (WalManager.open_spec [] faults).of_eq hopen rfl
  obtain rfl : rs = [] := by cases hrs; rfl
  have hstart : (start (WalManager.opened [] (.onFile [] fs))).Unmixed := start_unmixed rfl
  obtain ⟨hu,hd⟩ := hstart.run (WalManager.Logged.opened [] [] fs) hc
  generalize run steps (start _) = out at *
  obtain ⟨m,-,hread,-⟩ := LogRecord.framing.readAll_take hd.fits n
  have hfile : out.sys.wal.file.take n = out.sys.wal.stream.take n := by
    rw [hd.file,List.nil_append,List.take_take,Nat.min_eq_left hn]
  have hread' : readAll LogRecord.deserialize (out.sys.wal.file.take n) =
      .ok (out.sys.wal.appended.take m) := by rw [hfile]; exact hread
  obtain ⟨rs',fs',hrs',-,rfl⟩ := (WalManager.open_spec _ faults').of_eq hre rfl
  obtain ⟨rs,hrs,hact⟩ := (WalManager.recover_spec _).of_eq hrec actions rfl
  have hfile' : (WalManager.opened rs' (.onFile (out.sys.wal.file.take n) fs')).file =
      out.sys.wal.file.take n := rfl
  rw [hfile',hread'] at hrs
  cases hrs
  obtain ⟨hcom,-,hredo,-⟩ := recoveryActions_ok hact
  have hnot : t ∉ actions.committedTxns := by
    rw [hcom,mem_committed]
    rintro ⟨r,hr,hrc,rfl⟩
    exact (hu.commits r (List.mem_of_mem_take hr) hrc).1 ht
  refine ⟨hnot,_,hread',?_⟩
  rw [collectImages_filter _ hnot,hcom]
  exact hredo

def abortedSteps : List LoggedStep :=
  [.call .begin,.call (.logWrite 1 0 [1] [2]),.call (.abort 1),.flush]

def freshLog (faults : List (Option Nat)) : WalManager := .opened [] (.onFile [] faults)

theorem abort_excludes_commit_undone : ∃ w' w'' actions,
    WalManager.open_ (.onFile [] []) = (.ok (),freshLog []) ∧
      1 ∈ (run abortedSteps (start (freshLog []))).aborted ∧
      WalManager.open_ (.onFile ((run abortedSteps (start (freshLog []))).sys.wal.file.take
        129) []) =
        (.ok (),w') ∧
      WalManager.recover w' = (.ok actions,w'') ∧ 1 ∉ actions.committedTxns := by
  have hopen : WalManager.open_ (.onFile [] []) = (.ok (),freshLog []) := rfl
  have ht : 1 ∈ (run abortedSteps (start (freshLog []))).aborted := by decide +kernel
  have hc : CarefulRun abortedSteps (start (freshLog [])) := by
    refine ⟨?_,fun _ => ⟨?_,fun _ => ⟨?_,fun _ => ⟨?_,fun _ => trivial⟩⟩⟩⟩ <;> decide +kernel
  obtain ⟨u,hre⟩ := Prog.run_isOk (m := WalManager.open_)
    (s := .onFile ((run abortedSteps (start (freshLog []))).sys.wal.file.take 129) [])
    (by decide +kernel)
  obtain ⟨actions,hrec⟩ := Prog.run_isOk (m := WalManager.recover)
    (s := (WalManager.open_ (.onFile ((run abortedSteps (start (freshLog []))).sys.wal.file.take
      129) [])).2) (by decide +kernel)
  exact ⟨_,_,actions,hopen,ht,hre,hrec,
    (abort_excludes_commit hopen hc ht (by decide +kernel) hre hrec).1⟩

-- The sync of the commit fails after its record has been written.
def lostFaults : List (Option Nat) := [none,none,some 0]

def lostSteps : List LoggedStep :=
  [.call .begin,.call (.logWrite 1 0 [1] [2]),.call (.commit 1),.call (.abort 1),.flush]

theorem abort_after_failed_commit : ∃ w' w'' actions,
    WalManager.open_ (.onFile [] (none :: none :: lostFaults)) = (.ok (),freshLog lostFaults) ∧
      1 ∈ (run lostSteps (start (freshLog lostFaults))).aborted ∧
      WalManager.open_ (.onFile (run lostSteps (start (freshLog lostFaults))).sys.wal.file []) =
        (.ok (),w') ∧
      WalManager.recover w' = (.ok actions,w'') ∧
      1 ∈ actions.committedTxns ∧ actions.redo = [(0,[2])] := by
  obtain ⟨u,hre⟩ := Prog.run_isOk (m := WalManager.open_)
    (s := .onFile (run lostSteps (start (freshLog lostFaults))).sys.wal.file []) (by decide +kernel)
  have hrec : ((WalManager.recover (WalManager.open_ (.onFile
      (run lostSteps (start (freshLog lostFaults))).sys.wal.file [])).2).1 =
        .ok ⟨[(0,[2])],[],{1},∅⟩) := by decide +kernel
  exact ⟨_,_,_,rfl,by decide +kernel,hre,Prog.run_eq hrec,by simp,rfl⟩

end TxnTrace

end StorageDb
