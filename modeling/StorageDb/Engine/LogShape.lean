import Mathlib.Tactic
import StorageDb.Wal.Reopen
import StorageDb.Engine.EngineCall

namespace StorageDb

-- The records of one transaction id. A checkpoint belongs to no transaction.
def recordTypesOf (t : TxnId) (rs : List LogRecord) : List LogRecordType :=
  (rs.filter (fun r => r.txnId = t ∧ r.recordType ≠ .checkpoint)).map LogRecord.recordType

-- Begin, then page writes, then at most one commit or abort and nothing after it.
def WellShaped (l : List LogRecordType) : Prop :=
  l = [] ∨ ∃ n tail, l = .begin :: (List.replicate n .pageWrite ++ tail) ∧
    (tail = [] ∨ tail = [.commit] ∨ tail = [.abort])

def OpenShape (l : List LogRecordType) : Prop := ∃ n, l = .begin :: List.replicate n .pageWrite

theorem OpenShape.wellShaped {l : List LogRecordType} (h : OpenShape l) : WellShaped l := by
  obtain ⟨n,rfl⟩ := h
  exact Or.inr ⟨n,[],by rw [List.append_nil],Or.inl rfl⟩

theorem OpenShape.write {l : List LogRecordType} (h : OpenShape l) :
    OpenShape (l ++ [.pageWrite]) := by
  obtain ⟨n,rfl⟩ := h
  exact ⟨n + 1,by rw [List.replicate_succ',List.cons_append]⟩

theorem OpenShape.finish {l : List LogRecordType} (h : OpenShape l) {x : LogRecordType}
    (hx : x = .commit ∨ x = .abort) : WellShaped (l ++ [x]) := by
  obtain ⟨n,rfl⟩ := h
  refine Or.inr ⟨n,[x],rfl,Or.inr ?_⟩
  rcases hx with rfl | rfl
  · exact Or.inl rfl
  · exact Or.inr rfl

def WalOp.mark : WalOp → Option (TxnId × LogRecordType)
  | .begin t => some (t,.begin)
  | .pageWrite t _ _ _ => some (t,.pageWrite)
  | .commit t => some (t,.commit)
  | .abort t => some (t,.abort)
  | .checkpoint _ => none
  | .flush => none

def marked (o : Option (TxnId × LogRecordType)) (t : TxnId) (l : List LogRecordType) :
    List LogRecordType :=
  match o with
  | some (u,x) => if u = t then l ++ [x] else l
  | none => l

theorem recordTypesOf_entry (op : WalOp) (next : Lsn) (last : TxnId → Option Lsn) (t : TxnId)
    (rs : List LogRecord) : recordTypesOf t (rs ++ (op.entry next last).toList) =
      marked op.mark t (recordTypesOf t rs) := by
  have hone (r : LogRecord) : recordTypesOf t (rs ++ [r]) = recordTypesOf t rs ++
      if r.txnId = t ∧ r.recordType ≠ .checkpoint then [r.recordType] else [] := by
    rw [recordTypesOf,List.filter_append,List.map_append]
    congr 1
    split_ifs with h <;> simp [h]
  have hmark (r : LogRecord) (u : TxnId) (x : LogRecordType) (hu : r.txnId = u)
      (hx : r.recordType = x) (hc : x ≠ .checkpoint) :
      recordTypesOf t (rs ++ [r]) = marked (some (u,x)) t (recordTypesOf t rs) := by
    rw [hone,hu,hx,marked]
    split_ifs with h1 h2 h2
    · rfl
    · exact absurd h1.1 h2
    · exact absurd ⟨h2,hc⟩ h1
    · exact List.append_nil _
  cases op with
  | begin u => exact hmark _ u .begin rfl rfl (by decide)
  | pageWrite u p b a => exact hmark _ u .pageWrite rfl rfl (by decide)
  | commit u => exact hmark _ u .commit rfl rfl (by decide)
  | abort u => exact hmark _ u .abort rfl rfl (by decide)
  | checkpoint ts =>
    refine (hone _).trans ?_
    rw [if_neg fun h => h.2 rfl]
    exact List.append_nil _
  | flush =>
    change recordTypesOf t (rs ++ []) = _
    rw [List.append_nil]
    rfl

namespace StorageEngine

-- Every call names a running transaction, except that a commit or abort may name any id that is
-- not past a failed commit; ids do not run out.
def NamesRunning (e : StorageEngine) : EngineCall → Prop
  | .begin => e.txnManager.nextTxnId.toNat + 1 < 2 ^ 64
  | .txnPut t _ _ => e.txnManager.stateOf t = some .active
  | .txnDelete t _ => e.txnManager.stateOf t = some .active
  | .abort t => e.txnManager.stateOf t ≠ some .committed
  | _ => True

instance (e : StorageEngine) (c : EngineCall) : Decidable (e.NamesRunning c) := by
  unfold NamesRunning
  split <;> infer_instance

def Along (C : StorageEngine → EngineCall → Prop) (fuel : Nat) :
    List EngineCall → StorageEngine → Prop
  | [],_ => True
  | c :: cs,e => C e c ∧ (Lives (c.exec fuel e).1 → Along C fuel cs (c.exec fuel e).2)

def types (e : StorageEngine) (t : TxnId) : List LogRecordType := recordTypesOf t e.wal.appended

structure Shaped (e : StorageEngine) : Prop where
  shaped : ∀ t, WellShaped (e.types t)
  running : ∀ t, e.txnManager.stateOf t = some .active → OpenShape (e.types t)
  fresh : ∀ t, e.txnManager.nextTxnId.toNat ≤ t.toNat → e.types t = []
  known : ∀ t, e.txnManager.stateOf t ≠ none → t.toNat < e.txnManager.nextTxnId.toNat
  undecided : ∀ t, e.txnManager.stateOf t ≠ some .aborted

variable {e e' : StorageEngine} {c : EngineCall} {r : Except (Fault Error) EngineReply}

theorem Shaped.same (h : Shaped e) (ht : e'.types = e.types)
    (hs : e'.txnManager.stateOf = e.txnManager.stateOf)
    (hn : e'.txnManager.nextTxnId = e.txnManager.nextTxnId) : Shaped e' := by
  refine ⟨?_,?_,?_,?_,?_⟩
  · rw [ht]
    exact h.shaped
  · rw [ht,hs]
    exact h.running
  · rw [ht,hn]
    exact h.fresh
  · rw [hs,hn]
    exact h.known
  · rw [hs]
    exact h.undecided

theorem Shaped.wellShaped_marked {u : TxnId} {x : LogRecordType} (h : Shaped e)
    (hu : WellShaped (e.types u ++ [x])) (t : TxnId) :
    WellShaped (marked (some (u,x)) t (e.types t)) := by
  rw [marked]
  split_ifs with htu
  · rw [← htu]
    exact hu
  · exact h.shaped t

theorem Shaped.mark {u : TxnId} {x : LogRecordType} (st : Option TransactionState)
    (h : Shaped e) (ht : ∀ t, e'.types t = marked (some (u,x)) t (e.types t))
    (hu : WellShaped (e.types u ++ [x]))
    (hs : e'.txnManager.stateOf = Function.update e.txnManager.stateOf u st)
    (hactive : st = some .active → OpenShape (e.types u ++ [x])) (habort : st ≠ some .aborted)
    (hn : e.txnManager.nextTxnId.toNat ≤ e'.txnManager.nextTxnId.toNat)
    (hlt : u.toNat < e'.txnManager.nextTxnId.toNat) : Shaped e' := by
  have hself : e'.types u = e.types u ++ [x] := (ht u).trans (if_pos rfl)
  have hother {t : TxnId} (hne : t ≠ u) : e'.types t = e.types t :=
    (ht t).trans (if_neg (Ne.symm hne))
  refine ⟨fun t => ht t ▸ h.wellShaped_marked hu t,fun t hst => ?_,fun t hle => ?_,
    fun t hst => ?_,fun t => ?_⟩
  · by_cases htu : t = u
    · rw [htu,hs,Function.update_self] at hst
      rw [htu,hself]
      exact hactive hst
    · rw [hs,Function.update_of_ne htu] at hst
      rw [hother htu]
      exact h.running t hst
  · have htu : t ≠ u := by
      rintro rfl
      omega
    rw [hother htu]
    exact h.fresh t (hn.trans hle)
  · by_cases htu : t = u
    · rw [htu]
      exact hlt
    · rw [hs,Function.update_of_ne htu] at hst
      exact (h.known t hst).trans_le hn
  · by_cases htu : t = u
    · rw [htu,hs,Function.update_self]
      exact habort
    · rw [hs,Function.update_of_ne htu]
      exact h.undecided t

theorem types_step (he : c.Effect e r e') : ∃ o, c.MayLog e.txnManager o ∧
    ((∀ t, e'.types t = marked (o.bind WalOp.mark) t (e.types t)) ∨
      r = .error .panic ∧ e'.types = e.types) := by
  obtain ⟨o,hm,hw,hf⟩ := he.log
  refine ⟨o,hm,?_⟩
  cases o with
  | none =>
    have hw : e'.wal = e.wal := hw
    refine Or.inl fun t => ?_
    rw [types,hw]
    rfl
  | some op =>
    have hw : e'.wal = (op.exec e.wal).2 := hw
    have ha := WalManager.exec_adds op e.wal
    rw [Prog.Spec,← hw] at ha
    rcases ha with ha | ⟨hr,ha⟩
    · refine Or.inl fun t => ?_
      rw [types,ha,recordTypesOf_entry]
      rfl
    · refine Or.inr ⟨hf op rfl _ hr,funext fun t => ?_⟩
      rw [types,ha]
      rfl

theorem Shaped.quiet_step (h : Shaped e) (he : c.Effect e r e') (hc : c.txnCall = none)
    (hm : ∀ o, c.MayLog e.txnManager o → o.bind WalOp.mark = none) : Shaped e' := by
  obtain ⟨o,ho,ht⟩ := types_step he
  rw [hm o ho] at ht
  refine h.same ?_ ?_ ?_
  · rcases ht with ht | ⟨-,ht⟩
    · exact funext ht
    · exact ht
  · rw [he.states,EngineCall.states,hc]
  · rw [he.next,EngineCall.nextId,hc]

theorem Shaped.write_step {t : TxnId} (h : Shaped e) (he : c.Effect e r e') (hc : c.txnCall = none)
    (hm : ∀ o, c.MayLog e.txnManager o → o = none ∨ ∃ k v, o = some (.pageWrite t 0 k v))
    (hst : e.txnManager.stateOf t = some .active) : Shaped e' := by
  have hs : e'.txnManager.stateOf = e.txnManager.stateOf := by rw [he.states,EngineCall.states,hc]
  have hn : e'.txnManager.nextTxnId = e.txnManager.nextTxnId := by
    rw [he.next,EngineCall.nextId,hc]
  have hopen := (h.running t hst).write
  obtain ⟨o,ho,ht⟩ := types_step he
  rcases ht with ht | ⟨-,ht⟩
  · rcases hm o ho with rfl | ⟨k,v,rfl⟩
    · exact h.same (funext ht) hs hn
    · refine h.mark (some .active) ht hopen.wellShaped ?_ (fun _ => hopen) (by decide)
        (by rw [hn]) ?_
      · rw [hs,← hst,Function.update_eq_self]
      · rw [hn]
        exact h.known t (by rw [hst]; simp)
  · exact h.same ht hs hn

theorem Shaped.begin_step (h : Shaped e) (he : EngineCall.begin.Effect e r e')
    (hn : e.txnManager.nextTxnId.toNat + 1 < 2 ^ 64) :
    (∀ t, WellShaped (e'.types t)) ∧ (Lives r → Shaped e') := by
  have hnext : e'.txnManager.nextTxnId.toNat = e.txnManager.nextTxnId.toNat + 1 := by
    have hn' : e'.txnManager.nextTxnId = e.txnManager.nextTxnId + 1 := he.next
    rw [hn',UInt64.toNat_add]
    exact Nat.mod_eq_of_lt hn
  have hopen : OpenShape (e.types e.txnManager.nextTxnId ++ [.begin]) := by
    rw [h.fresh _ le_rfl]
    exact ⟨0,rfl⟩
  obtain ⟨o,rfl,ht⟩ := types_step he
  rcases ht with ht | ⟨rfl,ht⟩
  · have h' : Shaped e' := h.mark (some .active) ht hopen.wellShaped he.states
      (fun _ => hopen) (by decide) (by omega) (by omega)
    exact ⟨h'.shaped,fun _ => h'⟩
  · exact ⟨ht ▸ h.shaped,fun hl => absurd rfl hl.1⟩

theorem Shaped.commit_step {t : TxnId} (h : Shaped e) (he : (EngineCall.commit t).Effect e r e') :
    (∀ t, WellShaped (e'.types t)) ∧ (Lives r → Shaped e') := by
  obtain ⟨o,rfl,ht⟩ := types_step he
  by_cases hst : e.txnManager.stateOf t = some .active
  · have hs := he.states.trans (if_pos hst)
    have hend := (h.running t hst).finish (Or.inl rfl)
    rw [TxnCall.walOp,if_pos hst] at ht
    rcases ht with ht | ⟨rfl,ht⟩
    · have h' : Shaped e' := by
        refine h.mark _ ht hend hs (fun ha => ?_) ?_ (le_of_eq (congrArg _ he.next).symm) ?_
        · split_ifs at ha
          cases ha
        · split_ifs <;> decide
        · rw [show e'.txnManager.nextTxnId = e.txnManager.nextTxnId from he.next]
          exact h.known t (by rw [hst]; simp)
      exact ⟨h'.shaped,fun _ => h'⟩
    · exact ⟨ht ▸ h.shaped,fun hl => absurd rfl hl.1⟩
  · rw [TxnCall.walOp,if_neg hst] at ht
    have h' : Shaped e' := by
      refine h.same ?_ (he.states.trans (if_neg hst)) he.next
      rcases ht with ht | ⟨-,ht⟩
      · exact funext ht
      · exact ht
    exact ⟨h'.shaped,fun _ => h'⟩

theorem Shaped.abort_step {t : TxnId} (h : Shaped e) (he : (EngineCall.abort t).Effect e r e')
    (hc : e.txnManager.stateOf t ≠ some .committed) :
    (∀ t, WellShaped (e'.types t)) ∧ (Lives r → Shaped e') := by
  obtain ⟨o,rfl,ht⟩ := types_step he
  by_cases hst : (e.txnManager.stateOf t).isSome = true
  · have hactive : e.txnManager.stateOf t = some .active := by
      obtain ⟨x,hx⟩ := Option.isSome_iff_exists.mp hst
      have ha := h.undecided t
      rw [hx] at hc ha ⊢
      cases x with
      | active => rfl
      | committed => exact absurd rfl hc
      | aborted => exact absurd rfl ha
    have hs := he.states.trans (if_pos hst)
    have hend := (h.running t hactive).finish (Or.inr rfl)
    have hop : (TxnCall.abort t).walOp e.txnManager = some (.abort t) := if_pos hst
    rw [hop] at ht
    rcases ht with ht | ⟨rfl,ht⟩
    · refine ⟨fun u => ht u ▸ h.wellShaped_marked hend u,fun hl => ?_⟩
      -- an abort whose log call does not panic returns Ok
      have hok : r.isOk = true := by
        cases hr : r with
        | ok a => rfl
        | error f =>
          have hf := (he.decides _ rfl _ hop f).mp hr
          have hpanic := WalManager.logAbort_panics hf
          rw [hpanic] at hr
          exact absurd hr hl.1
      rw [hok] at hs
      refine h.mark _ ht hend hs (fun ha => (by cases ha)) (fun ha => (by cases ha))
        (le_of_eq (congrArg _ he.next).symm) ?_
      rw [show e'.txnManager.nextTxnId = e.txnManager.nextTxnId from he.next]
      exact h.known t (by rw [hactive]; simp)
    · exact ⟨ht ▸ h.shaped,fun hl => absurd rfl hl.1⟩
  · have hop : (TxnCall.abort t).walOp e.txnManager = none := if_neg hst
    rw [hop] at ht
    have h' : Shaped e' := by
      refine h.same ?_ (he.states.trans (if_neg hst)) he.next
      rcases ht with ht | ⟨-,ht⟩
      · exact funext ht
      · exact ht
    exact ⟨h'.shaped,fun _ => h'⟩

theorem Shaped.step (h : Shaped e) (hc : e.NamesRunning c) (he : c.Effect e r e') :
    (∀ t, WellShaped (e'.types t)) ∧ (Lives r → Shaped e') := by
  have hall (h' : Shaped e') : (∀ t, WellShaped (e'.types t)) ∧ (Lives r → Shaped e') :=
    ⟨h'.shaped,fun _ => h'⟩
  have hquiet (hc : c.txnCall = none) (hm : ∀ o, c.MayLog e.txnManager o → o = none) :
      (∀ t, WellShaped (e'.types t)) ∧ (Lives r → Shaped e') :=
    hall (h.quiet_step he hc fun o ho => by rw [hm o ho]; rfl)
  cases c with
  | begin => exact h.begin_step he hc
  | commit t => exact h.commit_step he
  | abort t => exact h.abort_step he hc
  | txnPut t k v =>
    exact hall (h.write_step he rfl (fun o ho => Or.inr ⟨k,v,ho⟩) hc)
  | txnDelete t k =>
    refine hall (h.write_step he rfl (fun o ho => ?_) hc)
    rcases ho with ho | ⟨v,ho,-⟩
    · exact Or.inl ho
    · exact Or.inr ⟨k,v,ho⟩
  | checkpoint => exact hall (h.quiet_step he rfl fun o ho => by rw [show o = _ from ho]; rfl)
  | sync => exact hall (h.quiet_step he rfl fun o ho => by rw [show o = _ from ho]; rfl)
  | put k v => exact hquiet rfl fun _ ho => ho
  | get k => exact hquiet rfl fun _ ho => ho
  | delete k => exact hquiet rfl fun _ ho => ho
  | scanAll => exact hquiet rfl fun _ ho => ho
  | rangeScan a b => exact hquiet rfl fun _ ho => ho
  | txnGet t k => exact hquiet rfl fun _ ho => ho

theorem Shaped.run {fuel : Nat} {cs : List EngineCall} (h : Shaped e)
    (hc : Along NamesRunning fuel cs e) (t : TxnId) : WellShaped ((run fuel cs e).2.types t) := by
  induction cs generalizing e with
  | nil => exact h.shaped t
  | cons c cs ih =>
    obtain ⟨h1,h2⟩ := h.step hc.1 (c.exec_effect fuel e)
    by_cases hl : Lives (c.exec fuel e).1
    · rw [run_cons rfl hl]
      exact ih (h2 hl) (hc.2 hl)
    · rw [run_cons_dead rfl hl]
      exact h1 t

theorem shaped_session {dir : Directory} {capacity fuel : Nat}
    {diskFaults walFaults : List (Option Nat)} {cs : List EngineCall}
    (hopen : open_ (mount dir capacity diskFaults walFaults) = (.ok (),e))
    (hc : Along NamesRunning fuel cs e) (t : TxnId) :
    WellShaped (recordTypesOf t (run fuel cs e).2.wal.appended) := by
  obtain ⟨ha,hm⟩ := (open_appended dir capacity diskFaults walFaults).of_eq hopen
  have hnone (t : TxnId) : e.txnManager.stateOf t = none := by
    rw [hm]
    rfl
  have htypes (t : TxnId) : e.types t = [] := by
    rw [types,ha]
    rfl
  refine Shaped.run ⟨fun t => Or.inl (htypes t),fun t ht => ?_,fun t _ => htypes t,fun t ht => ?_,
    fun t ht => ?_⟩ hc t
  · rw [hnone] at ht
    cases ht
  · exact absurd (hnone t) ht
  · rw [hnone] at ht
    cases ht

def emptyDir : Directory := ⟨[],[]⟩

def freshEngine : StorageEngine := (open_ (mount emptyDir 4 [] [])).2

theorem open_freshEngine : open_ (mount emptyDir 4 [] []) = (.ok (),freshEngine) :=
  Prog.run_eq (by decide +kernel)

def shapedCalls : List EngineCall :=
  [.begin,.txnPut 1 [1] [2],.txnDelete 1 [1],.commit 1]

theorem shaped_session_commit : open_ (mount emptyDir 4 [] []) = (.ok (),freshEngine) ∧
    WellShaped (recordTypesOf 1 (run 1 shapedCalls freshEngine).2.wal.appended) := by
  have hc : Along NamesRunning 1 shapedCalls freshEngine := by
    refine ⟨?_,fun _ => ⟨?_,fun _ => ⟨?_,fun _ => ⟨?_,fun _ => trivial⟩⟩⟩⟩ <;> decide +kernel
  exact ⟨open_freshEngine,shaped_session open_freshEngine hc 1⟩

theorem stray_write_logged : open_ (mount emptyDir 4 [] []) = (.ok (),freshEngine) ∧
    (run 1 [.txnPut 7 [1] [2]] freshEngine).1 = [.ok .done] ∧
    ¬ WellShaped (recordTypesOf 7 (run 1 [.txnPut 7 [1] [2]] freshEngine).2.wal.appended) := by
  have htypes : recordTypesOf 7 (run 1 [.txnPut 7 [1] [2]] freshEngine).2.wal.appended =
      [.pageWrite] := by decide +kernel
  refine ⟨open_freshEngine,by decide +kernel,?_⟩
  rw [htypes]
  rintro (h | ⟨n,tail,h,-⟩) <;> cases h

end StorageEngine

end StorageDb
