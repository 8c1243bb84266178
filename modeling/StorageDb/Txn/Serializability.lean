import Mathlib.Tactic
import StorageDb.Lib.Schedule
import StorageDb.Txn.TransactionManager

namespace StorageDb
open Schedule

def lockMode (exclusive : Bool) : LockMode := if exclusive then .exclusive else .shared

theorem lockMode_shared {x : Bool} : lockMode x = .shared ↔ x = false := by
  cases x <;> simp [lockMode]

-- An acquire call that returns Ok is an access; a commit or abort that returns Ok ends its
-- transaction.
def TxnCall.action : TxnCall → Except (Fault Error) TxnReply → Action TxnId PageId
  | .acquireReadLock t p,.ok _ => .access t p false
  | .acquireWriteLock t p _,.ok _ => .access t p true
  | .commit t,.ok _ => .finish t true
  | .abort t,.ok _ => .finish t false
  | _,_ => .silent

namespace TxnSystem

def schedule : List TxnCall → TxnSystem → List (Action TxnId PageId)
  | [],_ => []
  | c :: calls,s => c.action (c.exec s).1 :: schedule calls (c.exec s).2

def Locked (s : TxnSystem) (s' : TxnSystem) : Action TxnId PageId → Prop
  | .access t p x =>
    s.manager.lockManager.Acquired t p (lockMode x) s'.manager.lockManager
  | .finish t _ => s'.manager.lockManager = s.manager.lockManager.releaseAll t
  | .silent => s'.manager.lockManager.entryOf = s.manager.lockManager.entryOf

variable {s : TxnSystem}

theorem onWal_spec {α : Type} (m : Prog Error WalManager α) :
    Prog.Spec (onWal m) s (fun _ s' => s'.manager = s.manager) := rfl

theorem lock_locked (h : s.manager.lockManager.Sound) {note : Transaction → Transaction} {t : TxnId}
    {p : PageId} {x : Bool} (act : Except (Fault Error) TxnReply → Action TxnId PageId)
    (hok : ∀ a, act (.ok a) = .access t p x) (herr : ∀ f, act (.error f) = .silent) :
    Prog.Spec ((fun _ => TxnReply.done) <$> onManager
      (TransactionManager.acquireLock (lockMode x) note t p)) s
      (fun r s' => Locked s s' (act r)) := by
  refine spec_lockCall (h.acquire_spec t p (lockMode x)) (fun _ => ?_) ?_ ?_
  · rw [herr]
    rfl
  · rintro txn b l - (⟨-,-,ha⟩ | ⟨hb,-⟩)
    · rw [hok]
      exact ha
    · cases hb
  · rintro f l (⟨b,hb,-⟩ | ⟨-,he⟩)
    · cases hb
    · rw [herr]
      exact he

theorem commit_locked (t : TxnId) : Prog.Spec (TxnCall.commit t).exec s
    (fun r s' => Locked s s' ((TxnCall.commit t).action r)) := by
  refine Prog.Spec.map (Q := fun r s' => Locked s s' (match r with
    | .ok _ => .finish t true
    | .error _ => .silent)) ?_ (fun _ _ hl => hl) (fun _ _ hl => hl)
  rw [commit,Prog.spec_get_bind]
  cases s.manager.activeTxns.lookup t with
  | none => rfl
  | some txn =>
    dsimp only
    split_ifs
    · rw [spec_update_bind]
      refine (onWal_spec (WalManager.logCommit t)).bind ?_ ?_
      · intro l s' hs
        change s'.manager.lockManager.releaseAll t = _
        rw [hs]
        rfl
      · intro e s' hs
        change s'.manager.lockManager.entryOf = _
        rw [hs]
        rfl
    · rfl

theorem abort_locked (t : TxnId) : Prog.Spec (TxnCall.abort t).exec s
    (fun r s' => Locked s s' ((TxnCall.abort t).action r)) := by
  refine Prog.Spec.map (Q := fun r s' => Locked s s' (match r with
    | .ok _ => .finish t false
    | .error _ => .silent)) ?_ (fun _ _ hl => hl) (fun _ _ hl => hl)
  rw [abort,Prog.spec_get_bind]
  cases s.manager.activeTxns.lookup t with
  | none => rfl
  | some txn =>
    dsimp only
    rw [spec_update_bind]
    refine (onWal_spec (WalManager.logAbort t)).bind ?_ ?_
    · intro l s' hs
      change s'.manager.lockManager.releaseAll t = _
      rw [hs]
      rfl
    · intro e s' hs
      change s'.manager.lockManager.entryOf = _
      rw [hs]
      rfl

theorem begin_locked : Prog.Spec TxnCall.begin.exec s
    (fun r s' => Locked s s' (TxnCall.begin.action r)) := by
  refine Prog.Spec.map (Q := fun _ s' => Locked s s' .silent) ?_ (fun _ _ hl => hl)
    (fun _ _ hl => hl)
  rw [begin,Prog.spec_get_bind]
  dsimp only
  rw [spec_update_bind]
  refine (onWal_spec (WalManager.logBegin s.manager.nextTxnId)).bind ?_ ?_
  · intro l s' hs
    change s'.manager.lockManager.entryOf = _
    rw [hs]
    rfl
  · intro e s' hs
    change s'.manager.lockManager.entryOf = _
    rw [hs]
    rfl

theorem logWrite_locked (t : TxnId) (p : PageId) (b a : Bytes) :
    Prog.Spec (TxnCall.logWrite t p b a).exec s
      (fun r s' => Locked s s' ((TxnCall.logWrite t p b a).action r)) := by
  refine Prog.Spec.map (Q := fun _ s' => s'.manager = s.manager) ?_ (fun _ _ hs => ?_)
    (fun _ _ hs => ?_)
  · rw [logWrite,Prog.spec_get_bind]
    cases s.manager.activeTxns.lookup t with
    | none => rfl
    | some txn =>
      exact (onWal_spec (WalManager.logPageWrite t p b a)).bind (fun _ _ hs => hs)
        (fun _ _ hs => hs)
  · change _ = _
    rw [hs]
  · change _ = _
    rw [hs]

theorem exec_locked (h : s.manager.lockManager.Sound) (c : TxnCall) :
    Locked s (c.exec s).2 (c.action (c.exec s).1) := by
  cases c with
  | begin => exact begin_locked
  | acquireReadLock t p =>
    exact lock_locked (x := false) h (TxnCall.acquireReadLock t p).action (fun _ => rfl)
      (fun _ => rfl)
  | acquireWriteLock t p b =>
    exact lock_locked (x := true) h (TxnCall.acquireWriteLock t p b).action (fun _ => rfl)
      (fun _ => rfl)
  | logWrite t p b a => exact logWrite_locked t p b a
  | commit t => exact commit_locked t
  | abort t => exact abort_locked t

structure Held (done : List (Action TxnId PageId)) (s : TxnSystem) : Prop where
  sound : s.manager.lockManager.Sound
  strict : Strict done
  covered : ∀ i t p x, Open done i t p x → s.manager.lockManager.Grants t p (lockMode x)

theorem Held.step {done : List (Action TxnId PageId)} (h : Held done s) {s' : TxnSystem}
    {a : Action TxnId PageId} (hl : Locked s s' a) : Held (done ++ [a]) s' := by
  cases a with
  | access t p x =>
    refine ⟨hl.sound,h.strict.append ?_,?_⟩
    · rintro t' p' x' ⟨⟩ i u y hopen hne
      obtain ⟨hy,hx⟩ := hl.apart u (lockMode y) hne (h.covered i u p y hopen)
      rw [lockMode_shared] at hx hy
      rw [hx,hy]
      rfl
    · intro i u q y hopen
      rcases hopen.of_append with ⟨ho,-⟩ | he
      · exact hl.kept u q _ (h.covered i u q y ho)
      · cases he
        exact hl.granted
  | finish t c =>
    have hl' : s'.manager.lockManager = s.manager.lockManager.releaseAll t := hl
    obtain ⟨h1,h2⟩ := h.sound.releaseAll t
    refine ⟨by rw [hl']; exact h1,h.strict.append (fun _ _ _ e => (by cases e)),?_⟩
    intro i u q y hopen
    rcases hopen.of_append with ⟨ho,hne⟩ | he
    · rw [hl']
      refine h2 u q _ (fun hu => ?_) (h.covered i u q y ho)
      exact hne c (by rw [hu])
    · cases he
  | silent =>
    have hl' : s'.manager.lockManager.entryOf = s.manager.lockManager.entryOf := hl
    refine ⟨fun r => by rw [hl']; exact h.sound r,h.strict.append (fun _ _ _ e => (by cases e)),?_⟩
    intro i u q y hopen
    rcases hopen.of_append with ⟨ho,-⟩ | he
    · rw [LockManager.Grants,hl']
      exact h.covered i u q y ho
    · cases he

theorem Held.schedule {done : List (Action TxnId PageId)} (h : Held done s) (calls : List TxnCall) :
    Strict (done ++ schedule calls s) := by
  induction calls generalizing done s with
  | nil =>
    rw [TxnSystem.schedule,List.append_nil]
    exact h.strict
  | cons c calls ih =>
    rw [TxnSystem.schedule,List.append_cons]
    exact ih (h.step (exec_locked h.sound c))

theorem schedule_serializable (wal : WalManager) (calls : List TxnCall) :
    let s := schedule calls ⟨TransactionManager.new,wal⟩
    (∀ k k', Conflict s k k' → k < k') ∧ (∀ k, ¬ Relation.TransGen (Conflict s) k k) ∧
      Strict s := by
  intro s
  have hheld : Held [] ⟨TransactionManager.new,wal⟩ :=
    ⟨LockManager.sound_new,strict_nil,fun i t p x ho => by cases ho.1⟩
  have h : Strict s := hheld.schedule calls
  exact ⟨fun _ _ => h.conflict_lt,h.acyclic,h⟩

end TxnSystem

end StorageDb
