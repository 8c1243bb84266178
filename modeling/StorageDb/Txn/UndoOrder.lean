import Mathlib.Tactic
import StorageDb.Wal.UndoChain
import StorageDb.Wal.Bookkeeping
import StorageDb.Wal.Reopen
import StorageDb.Txn.Lifecycle

namespace StorageDb
open FrameLog

namespace TxnSystem
open TransactionManager

def start (wal : WalManager) : TxnSystem := ⟨.new,wal⟩

-- An error leaves the manager and the log in use; a panic ends the process.
def runSteps : List LoggedStep → TxnSystem → TxnSystem
  | [],s => s
  | st :: steps,s =>
    match st.exec s with
    | (.error .panic,s') => s'
    | (_,s') => runSteps steps s'

def logCalls : List LoggedStep → TxnSystem → List (WalOp × Except (Fault Error) TxnReply)
  | [],_ => []
  | st :: steps,s =>
    (st.walOp s.manager).toList.map (fun op => (op,(st.exec s).1)) ++
      match (st.exec s).1 with
      | .error .panic => []
      | _ => logCalls steps (st.exec s).2

-- Every record takes 41 bytes of a file whose offset fits 64 bits, so neither counter wraps.
structure Chained (s : TxnSystem) : Prop where
  log : ChainedLog s.wal.appended
  next : s.wal.nextLsn.toNat = s.wal.appended.length + 1
  room : 41 * s.wal.appended.length ≤ s.wal.offset
  offset : s.wal.offset < 2 ^ 64
  buffer : s.wal.writeBuffer.length ≤ s.wal.offset
  ids : 0 < s.manager.nextTxnId.toNat ∧ s.manager.nextTxnId.toNat ≤ s.wal.appended.length + 1
  known : ∀ t, s.manager.stateOf t ≠ none → t ≠ 0 ∧ t.toNat < s.manager.nextTxnId.toNat
  fresh : ∀ t, s.manager.nextTxnId.toNat ≤ t.toNat →
    ofTxn t s.wal.appended = [] ∧ s.wal.txnLastLsn t = none
  last : ∀ t, s.manager.stateOf t ≠ none → ∃ ys q, ofTxn t s.wal.appended = ys ++ [q] ∧
    s.wal.txnLastLsn t = some q.lsn

variable {s : TxnSystem} {t : TxnId}

theorem chained_start {wal : WalManager} (ha : wal.appended = []) (hn : wal.nextLsn = 1)
    (ho : wal.offset = 0) (hb : wal.writeBuffer = []) (hl : wal.txnLastLsn = fun _ => none) :
    Chained (start wal) where
  log := by
    change ChainedLog wal.appended
    rw [ha]
    exact chainedLog_nil
  next := by
    change wal.nextLsn.toNat = wal.appended.length + 1
    rw [ha,hn]
    rfl
  room := by
    change 41 * wal.appended.length ≤ wal.offset
    rw [ha]
    exact Nat.zero_le _
  offset := by
    change wal.offset < 2 ^ 64
    rw [ho]
    decide
  buffer := by
    change wal.writeBuffer.length ≤ wal.offset
    rw [hb]
    exact Nat.zero_le _
  ids := ⟨Nat.one_pos,by
    change 1 ≤ wal.appended.length + 1
    omega⟩
  known t ht := absurd rfl ht
  fresh t _ := by
    change ofTxn t wal.appended = [] ∧ wal.txnLastLsn t = none
    rw [ha,hl]
    exact ⟨rfl,rfl⟩
  last t ht := absurd rfl ht

theorem Chained.linked_later (h : Chained s) (ht : s.manager.stateOf t ≠ none) {record : LogRecord}
    (hr : record.txnId = t) (hc : record.recordType ≠ .checkpoint) :
    Linked s.wal.appended (record.stamped s.wal.nextLsn s.wal.txnLastLsn) := by
  obtain ⟨ys,q,hys,hq⟩ := h.last t ht
  have h0 := (h.known t ht).1
  subst hr
  refine ⟨h.next,iff_of_false hc h0,fun _ hnil => ?_,fun ys' q' _ hys' => ?_⟩
  · change ofTxn record.txnId _ = [] at hnil
    rw [hys] at hnil
    simp at hnil
  · change ofTxn record.txnId _ = _ at hys'
    rw [hys] at hys'
    obtain ⟨-,hqq⟩ := List.append_inj' hys' rfl
    cases hqq
    change (if record.txnId = 0 then _ else (s.wal.txnLastLsn record.txnId).getD 0) = q.lsn
    rw [if_neg h0,hq]
    rfl

theorem Chained.linked (h : Chained s) {st : LoggedStep} {op : WalOp}
    (ho : st.walOp s.manager = some op) {r : LogRecord}
    (he : op.entry s.wal.nextLsn s.wal.txnLastLsn = some r) : Linked s.wal.appended r := by
  cases st with
  | flush =>
    cases ho
    cases he
  | checkpoint ts =>
    cases ho
    cases he
    exact ⟨h.next,iff_of_true rfl rfl,fun h0 => absurd rfl h0,fun _ _ h0 => absurd rfl h0⟩
  | call c =>
    cases c with
    | acquireReadLock t p => cases ho
    | acquireWriteLock t p b => cases ho
    | begin =>
      cases ho
      cases he
      obtain ⟨hnil,hlast⟩ := h.fresh s.manager.nextTxnId le_rfl
      have h0 : s.manager.nextTxnId ≠ 0 := by
        intro e
        have := h.ids.1
        rw [e] at this
        exact absurd this (by decide)
      refine ⟨h.next,iff_of_false (fun e => by cases e) h0,fun _ _ => ⟨rfl,?_⟩,fun ys q _ hys => ?_⟩
      · change (if s.manager.nextTxnId = 0 then _
          else (s.wal.txnLastLsn s.manager.nextTxnId).getD 0) = 0
        rw [if_neg h0,hlast]
        rfl
      · change ofTxn s.manager.nextTxnId _ = _ at hys
        rw [hnil] at hys
        simp at hys
    | logWrite t p b a =>
      change (if _ then _ else _) = _ at ho
      split_ifs at ho with hst
      cases ho
      cases he
      exact h.linked_later (Option.isSome_iff_ne_none.mp hst) rfl (fun e => by cases e)
    | commit t =>
      change (if _ then _ else _) = _ at ho
      split_ifs at ho with hst
      cases ho
      cases he
      have hne : s.manager.stateOf t ≠ none := by rw [hst]; simp
      exact h.linked_later hne rfl (fun e => by cases e)
    | abort t =>
      change (if _ then _ else _) = _ at ho
      split_ifs at ho with hst
      cases ho
      cases he
      exact h.linked_later (Option.isSome_iff_ne_none.mp hst) rfl (fun e => by cases e)

theorem Chained.extend (h : Chained s) {s' : TxnSystem} {r : LogRecord}
    {x : Option TransactionState}
    (hr : r.txnId = t) (hl : Linked s.wal.appended r)
    (ha : s'.wal.appended = s.wal.appended ++ [r]) (hn : s'.wal.nextLsn = s.wal.nextLsn + 1)
    (ho : s'.wal.offset = s.wal.offset + r.serialize.length) (hb : s'.wal.offset < 2 ^ 64)
    (hbuf : s'.wal.writeBuffer.length ≤ s'.wal.offset)
    (hlast : ∀ u, u ≠ t → s'.wal.txnLastLsn u = s.wal.txnLastLsn u)
    (hst : s'.manager.stateOf = Function.update s.manager.stateOf t x)
    (hx : x ≠ none → t ≠ 0 ∧ s'.wal.txnLastLsn t = some r.lsn)
    (hid : t.toNat < s'.manager.nextTxnId.toNat)
    (hle : s.manager.nextTxnId.toNat ≤ s'.manager.nextTxnId.toNat)
    (hids : s'.manager.nextTxnId.toNat ≤ s.wal.appended.length + 2) : Chained s' := by
  have hlen : s'.wal.appended.length = s.wal.appended.length + 1 := by rw [ha]; simp
  have hroom : 41 * s'.wal.appended.length ≤ s'.wal.offset := by
    have := h.room
    rw [hlen,ho,LogRecord.length_serialize]
    omega
  have hother (u : TxnId) (hu : u ≠ t) : ofTxn u s'.wal.appended = ofTxn u s.wal.appended := by
    rw [ha,ofTxn_snoc,if_neg (by rw [hr]; exact Ne.symm hu)]
  have hstate (u : TxnId) (hu : u ≠ t) : s'.manager.stateOf u = s.manager.stateOf u := by
    rw [hst,Function.update_of_ne hu]
  have hself : s'.manager.stateOf t = x := by rw [hst,Function.update_self]
  refine ⟨?_,?_,hroom,hb,hbuf,⟨h.ids.1.trans_le hle,by omega⟩,fun u hu => ?_,fun u hu => ?_,
    fun u hu => ?_⟩
  · rw [ha]
    exact h.log.snoc hl
  · have hnext := h.next
    rw [hn,UInt64.toNat_add,hnext,hlen]
    exact Nat.mod_eq_of_lt (by rw [UInt64.toNat_one]; omega)
  · by_cases hut : u = t
    · subst hut
      rw [hself] at hu
      exact ⟨(hx hu).1,hid⟩
    · rw [hstate u hut] at hu
      obtain ⟨h1,h2⟩ := h.known u hu
      exact ⟨h1,by omega⟩
  · have hut : u ≠ t := by
      rintro rfl
      omega
    rw [hother u hut,hlast u hut]
    exact h.fresh u (by omega)
  · by_cases hut : u = t
    · subst hut
      rw [hself] at hu
      exact ⟨ofTxn u s.wal.appended,r,by rw [ha,ofTxn_snoc,if_pos hr],(hx hu).2⟩
    · rw [hstate u hut] at hu
      rw [hother u hut,hlast u hut]
      exact h.last u hu

theorem Chained.same (h : Chained s) {s' : TxnSystem} (hb : s'.wal.book = s.wal.book)
    (hbuf : s'.wal.writeBuffer.length ≤ s'.wal.offset)
    (hn : s'.manager.nextTxnId = s.manager.nextTxnId)
    (hs : s'.manager.stateOf = s.manager.stateOf) : Chained s' := by
  simp only [WalManager.book,Prod.mk.injEq] at hb
  obtain ⟨h1,h2,h3,h4⟩ := hb
  obtain ⟨log,next,room,offset,-,ids,known,fresh,last⟩ := h
  refine ⟨?_,?_,?_,?_,hbuf,?_,?_,?_,?_⟩
  · rwa [h1]
  · rwa [h1,h2]
  · rwa [h1,h4]
  · rwa [h4]
  · rwa [h1,hn]
  · rwa [hs,hn]
  · rwa [h1,h3,hn]
  · rwa [h1,h3,hs]

theorem trackLsn_other {next : Lsn} {last : TxnId → Option Lsn} {u : TxnId} (hu : u ≠ t) :
    trackLsn next last t u = last u := by
  rw [trackLsn]
  split_ifs
  · rfl
  · exact Function.update_of_ne hu ..

theorem trackLsn_self {next : Lsn} {last : TxnId → Option Lsn} (ht : t ≠ 0) :
    trackLsn next last t t = some next := by
  rw [trackLsn,if_neg ht,Function.update_self]

theorem Chained.small (h : Chained s) : s.wal.appended.length + 2 < 2 ^ 64 := by
  have h1 := h.room
  have h2 := h.offset
  omega

theorem Chained.exec_clean (h : Chained s) (op : WalOp) :
    Prog.Spec op.exec s.wal (WalManager.Clean s.wal) := by
  have hn := h.next
  have hs := h.small
  refine WalManager.exec_clean h.buffer (fun e => ?_) (fun e => ?_) op
  · rw [e] at hn
    simp at hn
  · have := congrArg UInt64.toNat e
    rw [UInt64.toNat_add,hn,UInt64.toNat_one,Nat.mod_eq_of_lt (by omega)] at this
    simp at this

structure Booked (s : TxnSystem) (op : WalOp) (ok : Bool) (s' : TxnSystem) : Prop where
  book : s'.wal.book = s.wal.booked op ok
  offset : s'.wal.offset < 2 ^ 64
  buffer : s'.wal.writeBuffer.length ≤ s'.wal.offset

section logged

variable {st : LoggedStep} {op : WalOp} {s' : TxnSystem} {ok : Bool} (h : Chained s)
  (hk : Booked s op ok s')
include h hk

theorem Chained.logged {record : LogRecord} {x : Option TransactionState}
    (ho : st.walOp s.manager = some op) (hq : op.request s.wal.txnLastLsn = some record)
    (hr : record.txnId = t)
    (hlast : ∀ u, u ≠ t → op.lastAfter s.wal.nextLsn s.wal.txnLastLsn ok u = s.wal.txnLastLsn u)
    (hst : s'.manager.stateOf = Function.update s.manager.stateOf t x)
    (hx : x ≠ none → t ≠ 0 ∧
      op.lastAfter s.wal.nextLsn s.wal.txnLastLsn ok t = some s.wal.nextLsn)
    (hid : t.toNat < s'.manager.nextTxnId.toNat)
    (hle : s.manager.nextTxnId.toNat ≤ s'.manager.nextTxnId.toNat)
    (hids : s'.manager.nextTxnId.toNat ≤ s.wal.appended.length + 2) : Chained s' := by
  obtain ⟨hbook,hb,hbuf⟩ := hk
  have hentry : op.entry s.wal.nextLsn s.wal.txnLastLsn =
      some (record.stamped s.wal.nextLsn s.wal.txnLastLsn) := by
    rw [WalOp.entry,hq]
    rfl
  rw [WalManager.booked,hentry] at hbook
  simp only [WalManager.book,Prod.mk.injEq] at hbook
  obtain ⟨h1,h2,h3,h4⟩ := hbook
  have hr' : (record.stamped s.wal.nextLsn s.wal.txnLastLsn).txnId = t := hr
  refine h.extend (x := x) hr' (h.linked ho hentry) h1 h2 h4 hb hbuf (fun u hu => ?_) hst
    (fun hne => ?_) hid hle hids
  · rw [h3]
    exact hlast u hu
  · rw [h3]
    exact hx hne

theorem Chained.of_known {record : LogRecord} {x : Option TransactionState}
    (ho : st.walOp s.manager = some op) (hq : op.request s.wal.txnLastLsn = some record)
    (hr : record.txnId = t) (ht : s.manager.stateOf t ≠ none)
    (hlast : ∀ u, u ≠ t → op.lastAfter s.wal.nextLsn s.wal.txnLastLsn ok u = s.wal.txnLastLsn u)
    (hst : s'.manager.stateOf = Function.update s.manager.stateOf t x)
    (hx : x ≠ none → op.lastAfter s.wal.nextLsn s.wal.txnLastLsn ok t =
      trackLsn s.wal.nextLsn s.wal.txnLastLsn t t)
    (hn : s'.manager.nextTxnId = s.manager.nextTxnId) : Chained s' := by
  obtain ⟨h0,hlt⟩ := h.known t ht
  have hids := h.ids
  refine h.logged hk ho hq hr hlast hst (fun hne => ⟨h0,(hx hne).trans (trackLsn_self h0)⟩) ?_ ?_ ?_
  · rw [hn]
    exact hlt
  · rw [hn]
  · rw [hn]
    omega

end logged

theorem states_of_silent {st : LoggedStep} (ho : st.walOp s.manager = none) (ok : Bool) :
    st.states s.manager ok = s.manager.stateOf ∧ st.nextId s.manager = s.manager.nextTxnId := by
  cases st with
  | flush => cases ho
  | checkpoint ts => cases ho
  | call c =>
    cases c with
    | begin => cases ho
    | acquireReadLock t p => exact ⟨rfl,rfl⟩
    | acquireWriteLock t p b => exact ⟨rfl,rfl⟩
    | logWrite t p b a => exact ⟨rfl,rfl⟩
    | commit t =>
      change (if _ then _ else _) = _ at ho
      split_ifs at ho with hst
      exact ⟨if_neg hst,rfl⟩
    | abort t =>
      change (if _ then _ else _) = _ at ho
      split_ifs at ho with hst
      exact ⟨if_neg hst,rfl⟩

theorem Chained.begun (h : Chained s) {s' : TxnSystem} {ok : Bool}
    (hk : Booked s (.begin s.manager.nextTxnId) ok s')
    (hn : s'.manager.nextTxnId = s.manager.nextTxnId + 1)
    (hst : s'.manager.stateOf =
      Function.update s.manager.stateOf s.manager.nextTxnId (some .active)) : Chained s' := by
  have hids := h.ids
  have hsmall := h.small
  have hop : LoggedStep.walOp s.manager (.call .begin) = some (.begin s.manager.nextTxnId) := rfl
  have h0 : s.manager.nextTxnId ≠ 0 := fun e => by simp [e] at hids
  have hnext : s'.manager.nextTxnId.toNat = s.manager.nextTxnId.toNat + 1 := by
    rw [hn,UInt64.toNat_add]
    exact Nat.mod_eq_of_lt (by rw [UInt64.toNat_one]; omega)
  exact h.logged hk (t := s.manager.nextTxnId) hop rfl rfl (fun u hu => trackLsn_other hu) hst
    (fun _ => ⟨h0,trackLsn_self h0⟩) (by omega) (by omega) (by omega)

theorem Chained.checkpointed (h : Chained s) {s' : TxnSystem} {ok : Bool} {ts : List TxnId}
    (hk : Booked s (.checkpoint ts) ok s') (hn : s'.manager.nextTxnId = s.manager.nextTxnId)
    (hst : s'.manager.stateOf = s.manager.stateOf) : Chained s' := by
  have hids := h.ids
  have h0 : s.manager.stateOf 0 = none := by
    by_contra hne
    exact (h.known 0 hne).1 rfl
  have hop : LoggedStep.walOp s.manager (.checkpoint ts) = some (.checkpoint ts) := rfl
  refine h.logged hk (t := 0) (x := none) hop rfl rfl (fun _ _ => rfl) ?_
    (fun hne => absurd rfl hne) ?_ (by rw [hn]) (by rw [hn]; omega)
  · exact hst.trans (h0 ▸ (Function.update_eq_self 0 s.manager.stateOf).symm)
  · rw [hn]
    exact hids.1

theorem Chained.step (h : Chained s) {st : LoggedStep} {r : Except (Fault Error) TxnReply}
    {s' : TxnSystem} (he : st.exec s = (r,s')) (hp : r ≠ .error .panic) : Chained s' := by
  obtain ⟨hwal,hfault,hnext,hstates⟩ := (LoggedStep.exec_effect st s).of_eq he
  cases ho : st.walOp s.manager with
  | none =>
    rw [ho] at hwal
    change s'.wal = s.wal at hwal
    have hsame := states_of_silent ho r.isOk
    exact h.same (congrArg WalManager.book hwal) (by rw [hwal]; exact h.buffer)
      (hnext.trans hsame.2) (hstates.trans hsame.1)
  | some op =>
    rw [ho] at hwal
    change s'.wal = (op.exec s.wal).2 at hwal
    have hd := hfault op ho
    have hpanic : (op.exec s.wal).1 ≠ .error .panic := fun e => hp ((hd .panic).mpr e)
    have hk : Booked s op r.isOk s' := by
      rcases WalManager.exec_books op s.wal with hpan | ⟨h1,h2⟩
      · exact absurd hpan hpanic
      · refine ⟨by rw [hwal,hd.isOk]; exact h1,by rw [hwal]; exact h2 (Or.inr h.offset),?_⟩
        rw [hwal]
        exact (h.exec_clean op).backed hpanic
    cases st with
    | flush =>
      cases ho
      exact h.same hk.book hk.buffer hnext hstates
    | checkpoint ts =>
      cases ho
      exact h.checkpointed hk hnext hstates
    | call c =>
      cases c with
      | acquireReadLock t p => cases ho
      | acquireWriteLock t p b => cases ho
      | begin =>
        cases ho
        exact h.begun hk hnext hstates
      | logWrite t p b a =>
        have hop := ho
        change (if _ then _ else _) = _ at ho
        split_ifs at ho with hst
        cases ho
        exact h.of_known hk (t := t) hop rfl rfl (Option.isSome_iff_ne_none.mp hst)
          (fun u hu => trackLsn_other hu)
          (hstates.trans (Function.update_eq_self t s.manager.stateOf).symm) (fun _ => rfl) hnext
      | commit t =>
        have hop := ho
        change (if _ then _ else _) = _ at ho
        split_ifs at ho with hst
        cases ho
        refine h.of_known hk (t := t) hop rfl rfl (by rw [hst]; simp) (fun u hu => ?_)
          (hstates.trans (if_pos hst)) (fun hx => ?_) hnext
        · rw [WalOp.lastAfter]
          split_ifs
          · exact (Function.update_of_ne hu ..).trans (trackLsn_other hu)
          · exact trackLsn_other hu
        · cases hr : r.isOk with
          | true =>
            rw [hr] at hx
            exact absurd rfl hx
          | false => rfl
      | abort t =>
        have hop := ho
        change (if _ then _ else _) = _ at ho
        split_ifs at ho with hst
        cases ho
        have hok : r.isOk = true := by
          cases r with
          | ok a => rfl
          | error f =>
            exact absurd (congrArg Except.error (WalManager.logAbort_panics ((hd f).mp rfl))) hp
        refine h.of_known hk (t := t) (x := none) hop rfl rfl (Option.isSome_iff_ne_none.mp hst)
          (fun u hu => ?_) ?_ (fun hx => absurd rfl hx) hnext
        · exact (Function.update_of_ne hu ..).trans (trackLsn_other hu)
        · refine hstates.trans ((if_pos hst).trans ?_)
          rw [hok]
          rfl

theorem step_records {st : LoggedStep} {r : Except (Fault Error) TxnReply}
    {s' : TxnSystem} (he : st.exec s = (r,s')) (hp : r ≠ .error .panic)
    (calls : List (WalOp × Except (Fault Error) TxnReply)) :
    s.wal.appended ++ runRecords s.wal.nextLsn s.wal.txnLastLsn
        ((st.walOp s.manager).toList.map (fun op => (op,r)) ++ calls) =
      s'.wal.appended ++ runRecords s'.wal.nextLsn s'.wal.txnLastLsn calls := by
  obtain ⟨hwal,hfault,-,-⟩ := (LoggedStep.exec_effect st s).of_eq he
  cases ho : st.walOp s.manager with
  | none =>
    rw [ho] at hwal
    change s'.wal = s.wal at hwal
    rw [hwal]
    rfl
  | some op =>
    rw [ho] at hwal
    change s'.wal = (op.exec s.wal).2 at hwal
    have hd := hfault op ho
    rw [hwal]
    exact WalManager.exec_records (r := (op.exec s.wal).1) rfl
      (fun e => hp ((hd .panic).mpr e)) hd.isOk hp calls

theorem Chained.panic_records (h : Chained s) {st : LoggedStep} {s' : TxnSystem}
    (he : st.exec s = (.error .panic,s')) : s'.wal.appended = s.wal.appended := by
  obtain ⟨hwal,hfault,-,-⟩ := (LoggedStep.exec_effect st s).of_eq he
  cases ho : st.walOp s.manager with
  | none =>
    rw [ho] at hwal
    exact congrArg WalManager.appended hwal
  | some op =>
    rw [ho] at hwal
    change s'.wal = (op.exec s.wal).2 at hwal
    rw [hwal]
    exact (h.exec_clean op).panic ((hfault op ho .panic).mp rfl)

theorem Chained.runSteps (h : Chained s) (steps : List LoggedStep) :
    ChainedLog (runSteps steps s).wal.appended ∧ (runSteps steps s).wal.appended =
      s.wal.appended ++ runRecords s.wal.nextLsn s.wal.txnLastLsn (logCalls steps s) := by
  induction steps generalizing s with
  | nil => exact ⟨h.log,(List.append_nil _).symm⟩
  | cons st steps ih =>
    rcases he : st.exec s with ⟨r,s'⟩
    by_cases hp : r = .error .panic
    · subst hp
      have hrun : TxnSystem.runSteps (st :: steps) s = s' := by rw [TxnSystem.runSteps,he]
      have hsame := h.panic_records he
      have hnone : runRecords s.wal.nextLsn s.wal.txnLastLsn (logCalls (st :: steps) s) = [] := by
        rw [logCalls,he]
        cases st.walOp s.manager <;> rfl
      rw [hrun,hsame,hnone,List.append_nil]
      exact ⟨h.log,rfl⟩
    · have hrun : TxnSystem.runSteps (st :: steps) s = TxnSystem.runSteps steps s' := by
        rw [TxnSystem.runSteps,he]
        split
        · rename_i hpan
          cases hpan
          exact absurd rfl hp
        · rename_i hpan
          cases hpan
          rfl
      have hcalls : logCalls (st :: steps) s =
          (st.walOp s.manager).toList.map (fun op => (op,r)) ++ logCalls steps s' := by
        rw [logCalls,he]
        dsimp only
        split
        · exact absurd rfl hp
        · rfl
      rw [hrun,hcalls,step_records he hp]
      exact ih (h.step he hp)

end TxnSystem

structure ExactChains (log : List LogRecord) : Prop where
  lsns : log.map (fun r => r.lsn.toNat) = List.range' 1 log.length
  chain : ∀ pre r post, log = pre ++ r :: post → r.recordType ≠ .checkpoint →
    ∀ fuel, pre.length ≤ fuel → undoChain log fuel r.prevLsn = (ofTxn r.txnId pre).reverse
  falls : ∀ pre r post, log = pre ++ r :: post →
    (r :: (ofTxn r.txnId pre).reverse).Pairwise (fun a b => b.lsn < a.lsn)
  begins : ∀ pre r post, log = pre ++ r :: post → r.recordType ≠ .checkpoint →
    ∃ b ys, r :: (ofTxn r.txnId pre).reverse = ys ++ [b] ∧ b.txnId = r.txnId ∧
      b.recordType = .begin ∧ b.prevLsn = 0

theorem ChainedLog.exactChains {log : List LogRecord} (h : ChainedLog log) : ExactChains log where
  lsns := h.lsns
  chain pre r post he hr fuel hf := (h.undoChain_eq he hr hf).1
  falls pre r post he := by
    have hp := h.pairwise
    rw [he,List.pairwise_append] at hp
    obtain ⟨hpre,-,hcross⟩ := hp
    refine List.pairwise_cons.mpr ⟨fun a ha => ?_,?_⟩
    · exact hcross a (List.mem_of_mem_filter (List.mem_reverse.mp ha)) r List.mem_cons_self
    · exact List.pairwise_reverse.mpr (hpre.sublist List.filter_sublist)
  begins pre r post he hr := by
    obtain ⟨-,b,ys,hb,htype,hprev⟩ := h.undoChain_eq he hr le_rfl
    refine ⟨b,ys,hb,?_,htype,hprev⟩
    have hmem : b ∈ r :: (ofTxn r.txnId pre).reverse := by rw [hb]; simp
    rcases List.mem_cons.mp hmem with rfl | hmem
    · rfl
    · simpa using (List.mem_filter.mp (List.mem_reverse.mp hmem)).2

namespace TxnSystem

theorem undo_chains_exact {faults : List (Option Nat)} {w : WalManager}
    (hopen : WalManager.open_ (.onFile [] faults) = (.ok (),w)) (steps : List LoggedStep) :
    (runSteps steps (start w)).wal.appended =
        runRecords 1 (fun _ => none) (logCalls steps (start w)) ∧
      ExactChains (runSteps steps (start w)).wal.appended := by
  obtain ⟨rs,fs,hrs,-,rfl⟩ := (WalManager.open_spec [] faults).of_eq hopen rfl
  obtain rfl : rs = [] := by cases hrs; rfl
  have hstart : Chained (start (WalManager.opened [] (.onFile [] fs))) :=
    chained_start rfl rfl rfl rfl rfl
  obtain ⟨hlog,hrecords⟩ := hstart.runSteps steps
  exact ⟨hrecords,hlog.exactChains⟩

def interleavedSteps : List LoggedStep :=
  [.call .begin,.call .begin,.call (.logWrite 1 7 [] [1]),.call (.logWrite 2 8 [] [2]),
    .checkpoint [1,2],.call (.logWrite 1 7 [1] [3]),.call (.abort 1),.call (.commit 2)]

theorem undo_chains_exact_interleaved : ∃ w, WalManager.open_ (.onFile [] []) = (.ok (),w) ∧
    (runSteps interleavedSteps (start w)).wal.appended.length = 8 ∧
    ExactChains (runSteps interleavedSteps (start w)).wal.appended := by
  have hopen := WalManager.open_calm (show readAll LogRecord.deserialize [] = .ok [] from rfl)
    (by decide)
  exact ⟨_,hopen,by decide +kernel,(undo_chains_exact hopen _).2⟩

end TxnSystem

end StorageDb
