import Mathlib.Tactic
import StorageDb.Txn.Serializability
import StorageDb.Txn.LockTable
import StorageDb.Txn.UndoOrder

namespace StorageDb

abbrev WriteSet := AList (fun _ : PageId => Bytes)

def TransactionManager.writeSetOf (m : TransactionManager) (t : TxnId) : Option WriteSet :=
  (m.activeTxns.lookup t).map Transaction.writeSet

-- The write sets after a call; ok says that the call returned Ok.
def TxnCall.writeSets (m : TransactionManager) (ok : Bool) : TxnCall → TxnId → Option WriteSet
  | .begin => Function.update m.writeSetOf m.nextTxnId (some ∅)
  | .acquireWriteLock t p b =>
    if ok then Function.update m.writeSetOf t
      ((m.writeSetOf t).map fun ws => ws.insert p ((ws.lookup p).getD b))
    else m.writeSetOf
  | .commit t => if ok then Function.update m.writeSetOf t none else m.writeSetOf
  | .abort t => if ok then Function.update m.writeSetOf t none else m.writeSetOf
  | _ => m.writeSetOf

structure TxnCall.Writes (c : TxnCall) (s : TxnSystem) (r : Except (Fault Error) TxnReply)
    (s' : TxnSystem) : Prop where
  sets : s'.manager.writeSetOf = c.writeSets s.manager r.isOk
  mirrored : s.manager.lockManager.Mirrored → s'.manager.lockManager.Mirrored

namespace TransactionManager

variable {m : TransactionManager} {t : TxnId}

theorem writeSetOf_withTxn (txn : Transaction) :
    (withTxn t txn m).writeSetOf = Function.update m.writeSetOf t (some txn.writeSet) := by
  funext u
  by_cases hu : u = t
  · subst hu
    rw [Function.update_self,writeSetOf,withTxn,AList.lookup_insert]
    rfl
  · rw [Function.update_of_ne hu,writeSetOf,withTxn,AList.lookup_insert_ne hu,writeSetOf]

theorem writeSetOf_ended : (ended t m).writeSetOf = Function.update m.writeSetOf t none := by
  funext u
  by_cases hu : u = t
  · subst hu
    rw [Function.update_self,writeSetOf,ended,AList.lookup_erase]
    rfl
  · rw [Function.update_of_ne hu,writeSetOf,ended,AList.lookup_erase_ne hu,writeSetOf]

theorem writeSetOf_kept {txn txn' : Transaction} (hl : m.activeTxns.lookup t = some txn)
    (he : txn'.writeSet = txn.writeSet) : (withTxn t txn' m).writeSetOf = m.writeSetOf := by
  have hw : m.writeSetOf t = some txn'.writeSet := by rw [writeSetOf,hl,he]; rfl
  rw [writeSetOf_withTxn,← hw,Function.update_eq_self]

end TransactionManager

namespace TxnSystem
open TransactionManager

variable {s : TxnSystem}

theorem begin_writes : Prog.Spec TxnCall.begin.exec s (TxnCall.begin.Writes s) := by
  have hstarted {r : Except (Fault Error) TxnReply} {s' : TxnSystem}
      (h : s'.manager = started s.manager) : TxnCall.begin.Writes s r s' := by
    refine ⟨?_,fun hm => ?_⟩
    · rw [h]
      exact writeSetOf_withTxn _
    · rw [h]
      exact hm
  refine Prog.Spec.map (Q := fun _ s' => s'.manager = started s.manager) ?_
    (fun _ _ h => hstarted h)
    (fun _ _ h => hstarted h)
  rw [begin,Prog.spec_get_bind]
  dsimp only
  rw [spec_update_bind]
  exact (onWal_spec _).bind (fun _ _ h => h) (fun _ _ h => h)

theorem lock_writes {c : TxnCall} {mode : LockMode} {note : Transaction → Transaction} {t : TxnId}
    {p : PageId} (hfail : c.writeSets s.manager false = s.manager.writeSetOf)
    (hok : ∀ txn, s.manager.activeTxns.lookup t = some txn → c.writeSets s.manager true =
      Function.update s.manager.writeSetOf t (some (note txn).writeSet)) :
    Prog.Spec ((fun _ => TxnReply.done) <$> onManager (acquireLock mode note t p)) s
      (c.Writes s) := by
  refine spec_lockCall (Q := fun _ l => s.manager.lockManager.Mirrored → l.Mirrored)
    (fun hm => hm.exec (.acquire t p mode)) (fun _ => ?_) (fun txn b l hl hm => ?_)
      (fun f l hm => ?_)
  · exact ⟨hfail.symm,id⟩
  · refine ⟨?_,hm⟩
    exact (writeSetOf_withTxn (m := { s.manager with lockManager := l }) _).trans (hok txn hl).symm
  · exact ⟨hfail.symm,hm⟩

theorem acquireReadLock_writes (t : TxnId) (p : PageId) :
    Prog.Spec (TxnCall.acquireReadLock t p).exec s ((TxnCall.acquireReadLock t p).Writes s) := by
  refine lock_writes rfl fun txn hl => ?_
  have hw : s.manager.writeSetOf t = some txn.writeSet := by rw [writeSetOf,hl]; rfl
  rw [← hw,Function.update_eq_self]
  rfl

theorem acquireWriteLock_writes (t : TxnId) (p : PageId) (b : Bytes) :
    Prog.Spec (TxnCall.acquireWriteLock t p b).exec s
      ((TxnCall.acquireWriteLock t p b).Writes s) := by
  refine lock_writes rfl fun txn hl => ?_
  have hw : s.manager.writeSetOf t = some txn.writeSet := by rw [writeSetOf,hl]; rfl
  change Function.update s.manager.writeSetOf t _ = _
  rw [hw]
  rfl

theorem logWrite_writes (t : TxnId) (p : PageId) (b a : Bytes) :
    Prog.Spec (TxnCall.logWrite t p b a).exec s ((TxnCall.logWrite t p b a).Writes s) := by
  refine Prog.Spec.map (Q := fun _ s' => s'.manager = s.manager) ?_
    (fun _ _ h => ⟨by rw [h]; rfl,fun hm => by rwa [h]⟩)
    (fun _ _ h => ⟨by rw [h]; rfl,fun hm => by rwa [h]⟩)
  rw [logWrite,Prog.spec_get_bind]
  cases s.manager.activeTxns.lookup t with
  | none => rfl
  | some txn => exact (onWal_spec _).bind (fun _ _ hs => hs) (fun _ _ hs => hs)

theorem ended_writes {t : TxnId} {m : TransactionManager} {s' : TxnSystem} (hs : s'.manager = m)
    (hw : m.writeSetOf = s.manager.writeSetOf) (hl : m.lockManager = s.manager.lockManager) :
    (ended t s'.manager).writeSetOf = Function.update s.manager.writeSetOf t none ∧
      (s.manager.lockManager.Mirrored → (ended t s'.manager).lockManager.Mirrored) := by
  refine ⟨?_,fun hm => ?_⟩
  · rw [writeSetOf_ended,hs,hw]
  · change (s'.manager.lockManager.releaseAll t).Mirrored
    rw [hs,hl]
    exact (hm.releaseAll t).mirrored

theorem commit_writes (t : TxnId) :
    Prog.Spec (TxnCall.commit t).exec s ((TxnCall.commit t).Writes s) := by
  refine Prog.Spec.map (Q := fun r s' => (TxnCall.commit t).Writes s (r.map fun _ => .done) s') ?_
    (fun _ _ h => h) (fun _ _ h => h)
  rw [commit,Prog.spec_get_bind]
  cases hl : s.manager.activeTxns.lookup t with
  | none => exact ⟨rfl,id⟩
  | some txn =>
    have hkept : (withTxn t { txn with state := .committed } s.manager).writeSetOf =
        s.manager.writeSetOf := writeSetOf_kept hl rfl
    dsimp only
    split_ifs
    · rw [spec_update_bind]
      refine (onWal_spec _).bind (fun l s' hs => ?_) (fun f s' hs => ⟨?_,fun hm => ?_⟩)
      · obtain ⟨h1,h2⟩ := ended_writes (t := t) hs hkept rfl
        exact ⟨h1,h2⟩
      · exact (congrArg writeSetOf hs).trans hkept
      · rw [hs]
        exact hm
    · exact ⟨rfl,id⟩

theorem abort_writes (t : TxnId) :
    Prog.Spec (TxnCall.abort t).exec s ((TxnCall.abort t).Writes s) := by
  refine Prog.Spec.map (Q := fun r s' => (TxnCall.abort t).Writes s (r.map .undo) s') ?_
    (fun _ _ h => h) (fun _ _ h => h)
  rw [abort,Prog.spec_get_bind]
  cases hl : s.manager.activeTxns.lookup t with
  | none => exact ⟨rfl,id⟩
  | some txn =>
    have hkept : (withTxn t { txn with state := .aborted } s.manager).writeSetOf =
        s.manager.writeSetOf := writeSetOf_kept hl rfl
    dsimp only
    rw [spec_update_bind]
    refine (onWal_spec _).bind (fun l s' hs => ?_) (fun f s' hs => ⟨?_,fun hm => ?_⟩)
    · obtain ⟨h1,h2⟩ := ended_writes (t := t) hs hkept rfl
      exact ⟨h1,h2⟩
    · exact (congrArg writeSetOf hs).trans hkept
    · rw [hs]
      exact hm

theorem exec_writes (c : TxnCall) (s : TxnSystem) : Prog.Spec c.exec s (c.Writes s) := by
  cases c with
  | begin => exact begin_writes
  | acquireReadLock t p => exact acquireReadLock_writes t p
  | acquireWriteLock t p b => exact acquireWriteLock_writes t p b
  | logWrite t p b a => exact logWrite_writes t p b a
  | commit t => exact commit_writes t
  | abort t => exact abort_writes t

theorem abort_writeSet {t : TxnId} {ws : WriteSet} {s' : TxnSystem}
    (h : abort t s = (.ok ws,s')) : s.manager.writeSetOf t = some ws := by
  have hs : Prog.Spec (abort t) s
      (fun r _ => ∀ ws, r = .ok ws → s.manager.writeSetOf t = some ws) := by
    rw [abort,Prog.spec_get_bind]
    cases hl : s.manager.activeTxns.lookup t with
    | none => exact fun _ e => by cases e
    | some txn =>
      dsimp only
      rw [spec_update_bind]
      refine (onWal_spec _).bind (fun l s' _ => ?_) (fun f s' _ _ e => by cases e)
      rw [spec_update_bind]
      intro ws e
      cases e
      rw [writeSetOf,hl]
      rfl
  exact hs.of_eq h ws rfl

theorem acquireWriteLock_live {t : TxnId} {p : PageId} {b : Bytes} {a : TxnReply} {s' : TxnSystem}
    (h : (TxnCall.acquireWriteLock t p b).exec s = (.ok a,s')) : s.manager.writeSetOf t ≠ none := by
  intro hn
  have hl : s.manager.activeTxns.lookup t = none := Option.map_eq_none_iff.mp hn
  have hrun : acquireWriteLock t p b s.manager =
      (.error (.err (.transactionAborted t)),s.manager) := by
    rw [acquireWriteLock,acquireLock,Prog.get_bind_run,hl]
    rfl
  rw [TxnCall.exec,Prog.map_run,onManager,Prog.zoom,hrun] at h
  cases h

theorem grants_exec {c : TxnCall} {r : Except (Fault Error) TxnReply} {s' : TxnSystem}
    (h : s.manager.lockManager.Sound) (he : c.exec s = (r,s')) {u : TxnId} {p : PageId}
    {mode : LockMode} (hu : s'.manager.writeSetOf u ≠ none)
    (hg : s.manager.lockManager.Grants u p mode) : s'.manager.lockManager.Grants u p mode := by
  have hl : Locked s s' (c.action r) := by
    have := exec_locked h c
    rwa [he] at this
  have hw := ((exec_writes c s).of_eq he).sets
  have hfinish {t : TxnId} (hs : s'.manager.writeSetOf =
    Function.update s.manager.writeSetOf t none)
      (ht : s'.manager.lockManager = s.manager.lockManager.releaseAll t) :
      s'.manager.lockManager.Grants u p mode := by
    rw [ht]
    refine (h.releaseAll t).2 u p mode (fun e => hu ?_) hg
    rw [hs,e,Function.update_self]
  have hsilent (ht : s'.manager.lockManager.entryOf = s.manager.lockManager.entryOf) :
      s'.manager.lockManager.Grants u p mode := by
    rw [LockManager.Grants,ht]
    exact hg
  cases r with
  | error f => cases c <;> exact hsilent hl
  | ok a =>
    cases c with
    | begin => exact hsilent hl
    | acquireReadLock t q => exact hl.kept u p mode hg
    | acquireWriteLock t q b => exact hl.kept u p mode hg
    | logWrite t q b a => exact hsilent hl
    | commit t => exact hfinish hw hl
    | abort t => exact hfinish hw hl

-- An id is given out with a log record of at least 41 bytes, and the offset of the log fits 64
-- bits, so ids are not reused.
structure Numbered (s : TxnSystem) : Prop where
  pos : 0 < s.manager.nextTxnId.toNat
  room : 41 * (s.manager.nextTxnId.toNat - 1) ≤ s.wal.offset
  offset : s.manager.nextTxnId.toNat = 1 ∨ s.wal.offset < 2 ^ 64

theorem offset_step {st : LoggedStep} {op : WalOp} {r : Except (Fault Error) TxnReply}
    {s' : TxnSystem} (he : st.exec s = (r,s')) (hp : r ≠ .error .panic)
    (ho : st.walOp s.manager = some op) :
    s'.wal.offset = s.wal.offset + ((op.entry s.wal.nextLsn s.wal.txnLastLsn).elim 0
        fun r => r.serialize.length) ∧
      ((op.entry s.wal.nextLsn s.wal.txnLastLsn).isSome ∨ s.wal.offset < 2 ^ 64 →
        s'.wal.offset < 2 ^ 64) := by
  obtain ⟨hwal,hfault,-,-⟩ := (LoggedStep.exec_effect st s).of_eq he
  rw [ho] at hwal
  change s'.wal = (op.exec s.wal).2 at hwal
  rcases WalManager.exec_books op s.wal with hpanic | ⟨h1,h2⟩
  · exact absurd ((hfault op ho .panic).mpr hpanic) hp
  · rw [hwal]
    refine ⟨?_,h2⟩
    have hoff := congrArg (fun b => b.2.2.2) h1
    change (op.exec s.wal).2.offset = _ at hoff
    rw [hoff,WalManager.booked]
    cases op.entry s.wal.nextLsn s.wal.txnLastLsn <;> rfl

theorem Numbered.begin (h : Numbered s) {r : Except (Fault Error) TxnReply} {s' : TxnSystem}
    (he : (LoggedStep.call .begin).exec s = (r,s')) (hp : r ≠ .error .panic) :
    Numbered s' ∧ s'.manager.nextTxnId.toNat = s.manager.nextTxnId.toNat + 1 := by
  obtain ⟨h1,h2,h3⟩ := h
  have hn : s'.manager.nextTxnId = s.manager.nextTxnId + 1 :=
    ((LoggedStep.exec_effect _ s).of_eq he).next
  obtain ⟨hoff,hlt⟩ := offset_step he hp rfl
  have hbound := hlt (Or.inl rfl)
  change _ = _ + (LogRecord.serialize _).length at hoff
  rw [LogRecord.length_serialize] at hoff
  have hnext : s'.manager.nextTxnId.toNat = s.manager.nextTxnId.toNat + 1 := by
    rw [hn,UInt64.toNat_add]
    exact Nat.mod_eq_of_lt (by rw [UInt64.toNat_one]; omega)
  exact ⟨⟨by omega,by omega,Or.inr hbound⟩,hnext⟩

theorem Numbered.step (h : Numbered s) (st : LoggedStep) {r : Except (Fault Error) TxnReply}
    {s' : TxnSystem} (he : st.exec s = (r,s')) (hp : r ≠ .error .panic)
    (hn : s'.manager.nextTxnId = s.manager.nextTxnId) : Numbered s' := by
  obtain ⟨h1,h2,h3⟩ := h
  cases ho : st.walOp s.manager with
  | none =>
    have hwal := ((LoggedStep.exec_effect st s).of_eq he).wal
    rw [ho] at hwal
    change s'.wal = s.wal at hwal
    exact ⟨by rwa [hn],by rwa [hn,hwal],by rwa [hn,hwal]⟩
  | some op =>
    obtain ⟨hoff,hlt⟩ := offset_step he hp ho
    exact ⟨by rwa [hn],by rw [hn]; omega,by rw [hn]; exact h3.imp_right fun h => hlt (Or.inr h)⟩

end TxnSystem

-- The pages, and for each transaction the pages it has write-locked and their content before its
-- first change.
structure PageTrace where
  sys : TxnSystem
  pages : PageId → Bytes
  writeLocked : TxnId → Finset PageId
  original : TxnId → PageId → Option Bytes

inductive PageStep where
  | log (st : LoggedStep)
  | change (txnId : TxnId) (pageId : PageId) (content : Bytes)
  | undo (txnId : TxnId)

def restore (ws : WriteSet) (pages : PageId → Bytes) : PageId → Bytes :=
  fun p => (ws.lookup p).getD (pages p)

def LoggedStep.writeLocked (locked : TxnId → Finset PageId) (ok : Bool) :
    LoggedStep → TxnId → Finset PageId
  | .call (.acquireWriteLock t p _) =>
    if ok then Function.update locked t (insert p (locked t)) else locked
  | _ => locked

namespace PageTrace

def start (wal : WalManager) (pages : PageId → Bytes) : PageTrace :=
  ⟨.start wal,pages,fun _ => ∅,fun _ _ => none⟩

def changed (t : TxnId) (p : PageId) (content : Bytes) (tr : PageTrace) : PageTrace :=
  { tr with
    pages := Function.update tr.pages p content
    original := Function.update tr.original t
      (Function.update (tr.original t) p (some ((tr.original t p).getD (tr.pages p)))) }

def exec : PageStep → Prog Error PageTrace TxnReply
  | .log st,tr =>
    let (r,sys) := st.exec tr.sys
    (r,{ tr with sys := sys, writeLocked := st.writeLocked tr.writeLocked r.isOk })
  | .change t p content,tr => (.ok .done,tr.changed t p content)
  | .undo t,tr =>
    match TxnSystem.abort t tr.sys with
    | (.ok ws,sys) => (.ok (.undo ws),{ tr with sys := sys, pages := restore ws tr.pages })
    | (.error f,sys) => (.error f,{ tr with sys := sys })

-- A before-image is the page's content, and only a page its transaction has write-locked changes.
def Allowed (tr : PageTrace) : PageStep → Prop
  | .log (.call (.acquireWriteLock _ p b)) => b = tr.pages p
  | .change t p _ => t ∈ tr.sys.manager.activeTxns ∧ p ∈ tr.writeLocked t
  | _ => True

inductive Reached : PageTrace → Prop
  | start (wal : WalManager) (pages : PageId → Bytes) : Reached (.start wal pages)
  | step {tr tr' : PageTrace} {st : PageStep} {r : Except (Fault Error) TxnReply} :
    Reached tr → tr.Allowed st → exec st tr = (r,tr') → r ≠ .error .panic → Reached tr'

structure Undoable (tr : PageTrace) : Prop where
  mirrored : tr.sys.manager.lockManager.Mirrored
  numbered : tr.sys.Numbered
  known : ∀ t, tr.sys.manager.writeSetOf t ≠ none → t.toNat < tr.sys.manager.nextTxnId.toNat
  fresh : ∀ t, tr.sys.manager.nextTxnId.toNat ≤ t.toNat → tr.writeLocked t = ∅
  changed : ∀ t p, tr.original t p ≠ none → p ∈ tr.writeLocked t
  keys : ∀ t ws, tr.sys.manager.writeSetOf t = some ws → ∀ p, p ∈ ws ↔ p ∈ tr.writeLocked t
  held : ∀ t, tr.sys.manager.writeSetOf t ≠ none → ∀ p ∈ tr.writeLocked t,
    tr.sys.manager.lockManager.Grants t p .exclusive
  image : ∀ t ws, tr.sys.manager.writeSetOf t = some ws → ∀ p b, ws.lookup p = some b →
    (tr.original t p).getD (tr.pages p) = b

variable {tr : PageTrace} {t u : TxnId} {p : PageId} {ws : WriteSet} {sys : TxnSystem}
  {r : Except (Fault Error) TxnReply}

theorem undoable_start (wal : WalManager) (pages : PageId → Bytes) :
    Undoable (.start wal pages) where
  mirrored := LockManager.mirrored_new
  numbered := ⟨Nat.one_pos,Nat.zero_le _,Or.inl rfl⟩
  known t h := absurd rfl h
  fresh t _ := rfl
  changed t p h := absurd rfl h
  keys t ws h := by cases h
  held t h := absurd rfl h
  image t ws h := by cases h

theorem Undoable.alone (h : Undoable tr) (hw : tr.sys.manager.writeSetOf t = some ws) (hp : p ∈ ws)
    (hu : u ∈ (tr.sys.manager.lockManager.entryOf p).holders) : u = t := by
  have hne : tr.sys.manager.writeSetOf t ≠ none := by rw [hw]; simp
  obtain ⟨hmem,hmode⟩ := h.held t hne p ((h.keys t ws hw p).mp hp)
  have hcard := (h.mirrored.sound p).2 (hmode rfl)
  exact Finset.card_le_one.mp hcard u hu t hmem

theorem Undoable.shrink (h : Undoable tr) (hm : sys.manager.lockManager.Mirrored)
    (hnum : sys.Numbered) (hnext : sys.manager.nextTxnId = tr.sys.manager.nextTxnId)
    (hsets : ∀ u ws, sys.manager.writeSetOf u = some ws → tr.sys.manager.writeSetOf u = some ws)
    (hgrants : ∀ u p, sys.manager.writeSetOf u ≠ none →
      tr.sys.manager.lockManager.Grants u p .exclusive →
        sys.manager.lockManager.Grants u p .exclusive) :
    Undoable { tr with sys := sys } := by
  have hlive (u : TxnId) (hu : sys.manager.writeSetOf u ≠ none) :
      tr.sys.manager.writeSetOf u ≠ none := by
    obtain ⟨ws,hws⟩ := Option.ne_none_iff_exists'.mp hu
    rw [hsets u ws hws]
    simp
  refine ⟨hm,hnum,fun u hu => ?_,fun u hu => ?_,h.changed,fun u ws hw => ?_,fun u hu p hp => ?_,
    fun u ws hw => ?_⟩
  · change _ < sys.manager.nextTxnId.toNat
    rw [hnext]
    exact h.known u (hlive u hu)
  · change sys.manager.nextTxnId.toNat ≤ _ at hu
    rw [hnext] at hu
    exact h.fresh u hu
  · exact h.keys u ws (hsets u ws hw)
  · exact hgrants u p hu (h.held u (hlive u hu) p hp)
  · exact h.image u ws (hsets u ws hw)

theorem Undoable.begin (h : Undoable tr) (he : TxnCall.begin.exec tr.sys = (r,sys))
    (hr : r ≠ .error .panic) : Undoable { tr with sys := sys } := by
  obtain ⟨hsets,hm⟩ := (TxnSystem.exec_writes .begin tr.sys).of_eq he
  obtain ⟨hnum,hnext⟩ := h.numbered.begin he hr
  change sys.manager.writeSetOf =
    Function.update tr.sys.manager.writeSetOf tr.sys.manager.nextTxnId (some ∅) at hsets
  have hnone := h.fresh tr.sys.manager.nextTxnId le_rfl
  refine ⟨hm h.mirrored,hnum,fun u hu => ?_,fun u hu => ?_,h.changed,fun u ws hw => ?_,
    fun u hu p hp => ?_,fun u ws hw => ?_⟩
  · change sys.manager.writeSetOf u ≠ none at hu
    change _ < sys.manager.nextTxnId.toNat
    by_cases hut : u = tr.sys.manager.nextTxnId
    · rw [hut]
      omega
    · rw [hsets,Function.update_of_ne hut] at hu
      have := h.known u hu
      omega
  · change sys.manager.nextTxnId.toNat ≤ _ at hu
    exact h.fresh u (by omega)
  · change sys.manager.writeSetOf u = some ws at hw
    change ∀ p, p ∈ ws ↔ p ∈ tr.writeLocked u
    by_cases hut : u = tr.sys.manager.nextTxnId
    · rw [hsets,hut,Function.update_self] at hw
      cases hw
      rw [hut,hnone]
      exact fun p => iff_of_false List.not_mem_nil (Finset.notMem_empty p)
    · rw [hsets,Function.update_of_ne hut] at hw
      exact h.keys u ws hw
  · have hg : tr.sys.manager.lockManager.Grants u p .exclusive := by
      refine h.held u ?_ p hp
      by_cases hut : u = tr.sys.manager.nextTxnId
      · change p ∈ tr.writeLocked u at hp
        rw [hut,hnone] at hp
        exact absurd hp (Finset.notMem_empty p)
      · change sys.manager.writeSetOf u ≠ none at hu
        rwa [hsets,Function.update_of_ne hut] at hu
    exact TxnSystem.grants_exec h.mirrored.sound he hu hg
  · change sys.manager.writeSetOf u = some ws at hw
    change ∀ p b, _ → (tr.original u p).getD (tr.pages p) = b
    by_cases hut : u = tr.sys.manager.nextTxnId
    · rw [hsets,hut,Function.update_self] at hw
      cases hw
      intro p b hb
      rw [AList.lookup_empty] at hb
      cases hb
    · rw [hsets,Function.update_of_ne hut] at hw
      exact h.image u ws hw

theorem mem_writeLocked (q : PageId) :
    q ∈ Function.update tr.writeLocked t (insert p (tr.writeLocked t)) u ↔
      u = t ∧ q = p ∨ q ∈ tr.writeLocked u := by
  by_cases hut : u = t
  · rw [hut,Function.update_self,Finset.mem_insert]
    simp
  · rw [Function.update_of_ne hut]
    simp [hut]

-- The first write lock on a page keeps its content, a later one the image that is there.
theorem Undoable.locked_image (h : Undoable tr) (hws : tr.sys.manager.writeSetOf t = some ws)
    {q : PageId} {b : Bytes}
    (hb : (ws.insert p ((ws.lookup p).getD (tr.pages p))).lookup q = some b) :
    (tr.original t q).getD (tr.pages q) = b := by
  by_cases hqp : q = p
  · subst hqp
    rw [AList.lookup_insert] at hb
    cases hb
    cases hl : ws.lookup q with
    | some b => exact h.image t ws hws q b hl
    | none =>
      have hnone : tr.original t q = none := by
        by_contra hne
        exact AList.lookup_eq_none.mp hl ((h.keys t ws hws q).mpr (h.changed t q hne))
      rw [hnone]
  · rw [AList.lookup_insert_ne hqp] at hb
    exact h.image t ws hws q b hb

theorem Undoable.acquireWriteLock (h : Undoable tr) {a : TxnReply}
    (he : (TxnCall.acquireWriteLock t p (tr.pages p)).exec tr.sys = (.ok a,sys))
    (hne : tr.sys.manager.writeSetOf t ≠ none) : Undoable { tr with
      sys := sys
      writeLocked := Function.update tr.writeLocked t (insert p (tr.writeLocked t)) } := by
  obtain ⟨hsets,hm⟩ := (TxnSystem.exec_writes _ tr.sys).of_eq he
  have hnext : sys.manager.nextTxnId = tr.sys.manager.nextTxnId :=
    ((TxnSystem.exec_effect _ tr.sys).of_eq he).next
  have hnum : sys.Numbered :=
    h.numbered.step (.call (.acquireWriteLock t p (tr.pages p))) he
      (fun e => by cases e) hnext
  have hlock : tr.sys.manager.lockManager.Acquired t p .exclusive sys.manager.lockManager := by
    have := TxnSystem.exec_locked h.mirrored.sound (.acquireWriteLock t p (tr.pages p))
    rw [he] at this
    exact this
  change sys.manager.writeSetOf = Function.update tr.sys.manager.writeSetOf t _ at hsets
  have hself : sys.manager.writeSetOf t = (tr.sys.manager.writeSetOf t).map
      fun ws => ws.insert p ((ws.lookup p).getD (tr.pages p)) := by
    rw [hsets,Function.update_self]
  have hother (u : TxnId) (hu : u ≠ t) : sys.manager.writeSetOf u =
      tr.sys.manager.writeSetOf u := by
    rw [hsets,Function.update_of_ne hu]
  have hlive (u : TxnId) (hu : sys.manager.writeSetOf u ≠ none) :
      tr.sys.manager.writeSetOf u ≠ none := by
    by_cases hut : u = t
    · rw [hut] at hu ⊢
      rwa [hself,Ne,Option.map_eq_none_iff] at hu
    · rwa [hother u hut] at hu
  refine ⟨hm h.mirrored,hnum,fun u hu => ?_,fun u hu => ?_,fun u q hq => ?_,fun u ws hw => ?_,
    fun u hu q hq => ?_,fun u ws hw => ?_⟩
  · change _ < sys.manager.nextTxnId.toNat
    rw [hnext]
    exact h.known u (hlive u hu)
  · change sys.manager.nextTxnId.toNat ≤ _ at hu
    rw [hnext] at hu
    have hut : u ≠ t := by
      rintro rfl
      exact absurd (h.known u hne) (by omega)
    exact (Function.update_of_ne hut ..).trans (h.fresh u hu)
  · exact (mem_writeLocked q).mpr (Or.inr (h.changed u q hq))
  · change ∀ q, q ∈ ws ↔ q ∈ Function.update tr.writeLocked t (insert p (tr.writeLocked t)) u
    intro q
    rw [mem_writeLocked]
    by_cases hut : u = t
    · subst hut
      obtain ⟨ws,hws,rfl⟩ := Option.map_eq_some_iff.mp (hself.symm.trans hw)
      rw [AList.mem_insert,h.keys u ws hws q]
      simp
    · rw [h.keys u ws ((hother u hut).symm.trans hw) q]
      simp [hut]
  · rcases (mem_writeLocked q).mp hq with ⟨rfl,rfl⟩ | hq
    · exact hlock.granted
    · exact hlock.kept u q _ (h.held u (hlive u hu) q hq)
  · intro q b hb
    by_cases hut : u = t
    · subst hut
      obtain ⟨ws,hws,rfl⟩ := Option.map_eq_some_iff.mp (hself.symm.trans hw)
      exact h.locked_image hws hb
    · exact h.image u ws ((hother u hut).symm.trans hw) q b hb

theorem Undoable.call (h : Undoable tr) {c : TxnCall} (hc : tr.Allowed (.log (.call c)))
    (he : c.exec tr.sys = (r,sys)) (hr : r ≠ .error .panic) :
    Undoable { tr with
      sys := sys
      writeLocked := (LoggedStep.call c).writeLocked tr.writeLocked r.isOk } := by
  obtain ⟨hsets,hm⟩ := (TxnSystem.exec_writes c tr.sys).of_eq he
  have hnext := ((TxnSystem.exec_effect c tr.sys).of_eq he).next
  have hshrink (hn : c.nextId tr.sys.manager = tr.sys.manager.nextTxnId)
      (hs : ∀ u ws, sys.manager.writeSetOf u = some ws → tr.sys.manager.writeSetOf u = some ws) :
      Undoable { tr with sys := sys } :=
    h.shrink (hm h.mirrored) (h.numbered.step (.call c) he hr (hnext.trans hn))
      (hnext.trans hn) hs (fun u p hu => TxnSystem.grants_exec h.mirrored.sound he hu)
  have hend {t : TxnId} {ok : Bool}
      (hs : sys.manager.writeSetOf = if ok then Function.update tr.sys.manager.writeSetOf t none
        else tr.sys.manager.writeSetOf) (u : TxnId) (ws : WriteSet)
      (hw : sys.manager.writeSetOf u = some ws) : tr.sys.manager.writeSetOf u = some ws := by
    rw [hs] at hw
    split_ifs at hw
    · by_cases hut : u = t
      · rw [hut,Function.update_self] at hw
        cases hw
      · rwa [Function.update_of_ne hut] at hw
    · exact hw
  cases c with
  | begin => exact h.begin he hr
  | acquireReadLock t p => exact hshrink rfl fun u ws hw => by rwa [hsets] at hw
  | logWrite t p b a => exact hshrink rfl fun u ws hw => by rwa [hsets] at hw
  | commit t => exact hshrink rfl (hend hsets)
  | abort t => exact hshrink rfl (hend hsets)
  | acquireWriteLock t p b =>
    cases r with
    | error f => exact hshrink rfl fun u ws hw => by rwa [hsets] at hw
    | ok a =>
      obtain rfl : b = tr.pages p := hc
      exact h.acquireWriteLock he (TxnSystem.acquireWriteLock_live he)

theorem Undoable.change (h : Undoable tr) (ht : tr.sys.manager.writeSetOf t ≠ none)
    (hp : p ∈ tr.writeLocked t) (content : Bytes) : Undoable (tr.changed t p content) := by
  refine ⟨h.mirrored,h.numbered,h.known,h.fresh,fun u q hq => ?_,h.keys,h.held,
    fun u ws hw q b hb => ?_⟩
  · by_cases hut : u = t
    · subst hut
      by_cases hqp : q = p
      · rw [hqp]
        exact hp
      · refine h.changed u q ?_
        change Function.update tr.original u _ u q ≠ none at hq
        rwa [Function.update_self,Function.update_of_ne hqp] at hq
    · refine h.changed u q ?_
      change Function.update tr.original t _ u q ≠ none at hq
      rwa [Function.update_of_ne hut] at hq
  · have himage := h.image u ws hw q b hb
    change (Function.update tr.original t _ u q).getD (Function.update tr.pages p content q) = b
    by_cases hut : u = t
    · subst hut
      rw [Function.update_self]
      by_cases hqp : q = p
      · rw [hqp] at himage ⊢
        rw [Function.update_self]
        exact himage
      · rw [Function.update_of_ne hqp,Function.update_of_ne hqp]
        exact himage
    · have hqp : q ≠ p := by
        rintro rfl
        have hq : q ∈ ws := AList.lookup_isSome.mp (by rw [hb]; rfl)
        exact hut (h.alone hw hq (h.held t ht q hp).1).symm
      rw [Function.update_of_ne hut,Function.update_of_ne hqp]
      exact himage

theorem Undoable.manager (h : Undoable tr) {st : LoggedStep} (he : st.exec tr.sys = (r,sys))
    (hr : r ≠ .error .panic) (hs : sys.manager = tr.sys.manager) :
    Undoable { tr with sys := sys } := by
  refine h.shrink ?_ (h.numbered.step st he hr (by rw [hs])) (by rw [hs]) (fun u ws hw => ?_)
    (fun u p _ hg => ?_)
  · rw [hs]
    exact h.mirrored
  · rwa [hs] at hw
  · rwa [hs]

theorem Undoable.log (h : Undoable tr) {st : LoggedStep} (hst : tr.Allowed (.log st))
    (he : st.exec tr.sys = (r,sys)) (hr : r ≠ .error .panic) :
    Undoable { tr with sys := sys, writeLocked := st.writeLocked tr.writeLocked r.isOk } := by
  cases st with
  | call c => exact h.call hst he hr
  | flush =>
    have hs : Prog.Spec LoggedStep.flush.exec tr.sys (fun _ s' => s'.manager = tr.sys.manager) :=
      (TxnSystem.onWal_spec WalManager.flush).map (fun _ _ h => h) (fun _ _ h => h)
    exact h.manager he hr (hs.of_eq he)
  | checkpoint ts =>
    have hs : Prog.Spec (LoggedStep.checkpoint ts).exec tr.sys
        (fun _ s' => s'.manager = tr.sys.manager) :=
      (TxnSystem.onWal_spec (WalManager.logCheckpoint ts)).map (fun _ _ h => h) (fun _ _ h => h)
    exact h.manager he hr (hs.of_eq he)

theorem Undoable.restored (h : Undoable { tr with sys := sys })
    (hold : Undoable tr) (hw : tr.sys.manager.writeSetOf t = some ws)
    (hsets : sys.manager.writeSetOf = Function.update tr.sys.manager.writeSetOf t none) :
    Undoable { tr with sys := sys, pages := restore ws tr.pages } := by
  refine ⟨h.mirrored,h.numbered,h.known,h.fresh,h.changed,h.keys,h.held,fun u vs hv q b hb => ?_⟩
  change sys.manager.writeSetOf u = some vs at hv
  have hut : u ≠ t := by
    rintro rfl
    rw [hsets,Function.update_self] at hv
    cases hv
  rw [hsets,Function.update_of_ne hut] at hv
  have hq : q ∈ vs := AList.lookup_isSome.mp (by rw [hb]; rfl)
  have hnone : ws.lookup q = none := by
    refine AList.lookup_eq_none.mpr fun hqw => hut ?_
    refine hold.alone hw hqw (hold.held u ?_ q ((hold.keys u vs hv q).mp hq)).1
    rw [hv]
    simp
  change (tr.original u q).getD (restore ws tr.pages q) = b
  rw [restore,hnone]
  exact hold.image u vs hv q b hb

theorem abort_exec {f : Except (Fault Error) WriteSet} (he : TxnSystem.abort t tr.sys = (f,sys)) :
    (TxnCall.abort t).exec tr.sys = (f.map .undo,sys) := by
  rw [TxnCall.exec,Prog.map_run,he]

theorem Undoable.undo (h : Undoable tr) {tr' : PageTrace} (he : exec (.undo t) tr = (r,tr'))
    (hr : r ≠ .error .panic) : Undoable tr' := by
  rw [exec] at he
  rcases hab : TxnSystem.abort t tr.sys with ⟨f,sys⟩
  rw [hab] at he
  cases f with
  | error f =>
    cases he
    exact h.call (c := .abort t) trivial (abort_exec hab) hr
  | ok ws =>
    cases he
    have hcall := h.call (c := .abort t) trivial (abort_exec hab) (fun e => by cases e)
    refine Undoable.restored hcall h (TxnSystem.abort_writeSet hab) ?_
    exact ((TxnSystem.exec_writes _ tr.sys).of_eq (abort_exec hab)).sets

theorem Reached.undoable (h : Reached tr) : Undoable tr := by
  induction h with
  | start wal pages => exact undoable_start wal pages
  | @step tr tr' st r _ ha he hr ih =>
    cases st with
    | log st =>
      cases he
      exact ih.log ha rfl hr
    | change t p content =>
      cases he
      obtain ⟨ht,hp⟩ := ha
      refine ih.change (fun hn => ?_) hp content
      rw [TransactionManager.writeSetOf,Option.map_eq_none_iff] at hn
      exact AList.lookup_eq_none.mp hn ht
    | undo t => exact ih.undo he hr

structure Undoes (tr : PageTrace) (t : TxnId) (ws : WriteSet) (s' : TxnSystem) : Prop where
  once : ws.keys.Nodup
  pages : ∀ p, p ∈ ws.keys ↔ p ∈ tr.writeLocked t
  restored : ∀ p content, tr.original t p = some content → restore ws tr.pages p = content
  unchanged : ∀ p, tr.original t p = none → restore ws tr.pages p = tr.pages p
  alone : ∀ p ∈ ws.keys, ∀ u, u ≠ t → tr.sys.manager.lockManager.holdsLock u p = false ∧
    s'.manager.lockManager.holdsLock u p = false

theorem abort_undoes (h : Reached tr) (ha : TxnSystem.abort t tr.sys = (.ok ws,sys)) :
    Undoes tr t ws sys := by
  have hu := h.undoable
  have hw := TxnSystem.abort_writeSet ha
  have hkeys (p : PageId) : p ∈ ws ↔ p ∈ tr.writeLocked t := hu.keys t ws hw p
  refine ⟨ws.keys_nodup,hkeys,fun p content hc => ?_,fun p hc => ?_,fun p hp u hut => ⟨?_,?_⟩⟩
  · have hp : p ∈ ws := (hkeys p).mpr (hu.changed t p (by rw [hc]; simp))
    obtain ⟨b,hb⟩ := Option.isSome_iff_exists.mp (AList.lookup_isSome.mpr hp)
    have himage := hu.image t ws hw p b hb
    rw [hc] at himage
    rw [restore,hb]
    exact himage.symm
  · rw [restore]
    cases hb : ws.lookup p with
    | none => rfl
    | some b =>
      have himage := hu.image t ws hw p b hb
      rw [hc] at himage
      exact himage.symm
  · rw [LockManager.holdsLock,decide_eq_false_iff_not]
    exact fun hm => hut (hu.alone hw hp hm)
  · rw [LockManager.holdsLock,decide_eq_false_iff_not]
    have hlock : sys.manager.lockManager = tr.sys.manager.lockManager.releaseAll t := by
      have := TxnSystem.exec_locked hu.mirrored.sound (.abort t)
      rw [abort_exec ha] at this
      exact this
    rw [hlock]
    intro hm
    have hg := ((hu.mirrored.releaseAll t).spares.grants u hut p .shared).mp
      ⟨hm,fun e => by cases e⟩
    exact hut (hu.alone hw hp hg.1)

-- Transaction 1 locks page 7 and changes it twice with another write lock in between, while
-- transaction 2 changes page 3; then transaction 1 aborts.
theorem abort_undoes_page : ∃ tr ws sys, Reached tr ∧ TxnSystem.abort 1 tr.sys = (.ok ws,sys) ∧
    tr.original 1 7 = some [5] ∧ tr.pages 7 = [9] ∧ tr.original 2 3 = some [5] ∧
    tr.pages 3 = [6] ∧ restore ws tr.pages 3 = [6] ∧ Undoes tr 1 ws sys := by
  have h0 := Reached.start (.onFile [] []) (fun _ => [5])
  have h1 : Reached _ := @Reached.step _ _ (.log (.call .begin)) (.ok (.begun 1)) h0 trivial rfl
    (fun e => by cases e)
  have h2 : Reached _ := @Reached.step _ _ (.log (.call .begin)) (.ok (.begun 2)) h1 trivial rfl
    (fun e => by cases e)
  have h3 : Reached _ := @Reached.step _ _ (.log (.call (.acquireWriteLock 1 7 [5]))) (.ok .done) h2
    rfl rfl (fun e => by cases e)
  have h4 : Reached _ := @Reached.step _ _ (.change 1 7 [8]) (.ok .done) h3
    ⟨by decide,by decide⟩ rfl (fun e => by cases e)
  have h5 : Reached _ := @Reached.step _ _ (.log (.call (.acquireWriteLock 2 3 [5]))) (.ok .done) h4
    rfl rfl (fun e => by cases e)
  have h6 : Reached _ := @Reached.step _ _ (.change 2 3 [6]) (.ok .done) h5
    ⟨by decide,by decide⟩ rfl (fun e => by cases e)
  have h7 : Reached _ := @Reached.step _ _ (.log (.call (.acquireWriteLock 1 7 [8]))) (.ok .done) h6
    rfl rfl (fun e => by cases e)
  have h8 : Reached _ := @Reached.step _ _ (.change 1 7 [9]) (.ok .done) h7
    ⟨by decide,by decide⟩ rfl (fun e => by cases e)
  exact ⟨_,_,_,h8,rfl,rfl,rfl,rfl,rfl,rfl,abort_undoes h8 rfl⟩

end PageTrace

end StorageDb
