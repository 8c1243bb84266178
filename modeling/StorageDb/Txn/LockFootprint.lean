import Mathlib.Tactic
import StorageDb.Txn.LockTable
import StorageDb.Txn.Serializability

namespace StorageDb
open Prog

namespace LockManager

variable {lm lm' : LockManager} {t u : TxnId} {p q : ResourceId} {mode m : LockMode}

def Adds (t : TxnId) (p : ResourceId) (mode : LockMode) (u : TxnId) (q : ResourceId)
    (m : LockMode) :
    Prop := u = t ∧ q = p ∧ (m = .shared ∨ mode = .exclusive)

theorem grants_of_entryOf (h : lm'.entryOf = lm.entryOf) : lm'.Grants u q m ↔ lm.Grants u q m := by
  rw [Grants,Grants,h]

theorem grants_replaced {entry : LockEntry}
    (hl : ∀ r, lm'.entryOf r = if r = p then entry else lm.entryOf r)
    (hholders : ∀ u ∈ entry.holders, u ∈ (lm.entryOf p).holders ∨ u = t)
    (hmode : entry.mode = .exclusive → mode = .exclusive ∧ ∀ u ∈ entry.holders, u = t)
    (hg : lm'.Grants u q m) : lm.Grants u q m ∨ Adds t p mode u q m := by
  rw [Grants,hl] at hg
  split_ifs at hg with hq
  · subst hq
    by_cases hu : u = t
    · refine Or.inr ⟨hu,rfl,?_⟩
      cases m with
      | shared => exact Or.inl rfl
      | exclusive => exact Or.inr (hmode (hg.2 rfl)).1
    · refine Or.inl ⟨(hholders u hg.1).resolve_right hu,fun hx => ?_⟩
      exact absurd ((hmode (hg.2 hx)).2 u hg.1) hu
  · exact Or.inl hg

theorem acquire_adds (lm : LockManager) (t : TxnId) (p : ResourceId) (mode : LockMode) :
    Spec (acquire t p mode) lm (fun r lm' => ∀ b, r = .ok b → ∀ u q m, lm'.Grants u q m →
      lm.Grants u q m ∨ Adds t p mode u q m) := by
  have hset (e : LockEntry) (r : ResourceId) : (setEntry p e (setEntry p (lm.entryOf p)
      lm)).entryOf r = if r = p then e else lm.entryOf r := by
    rw [entryOf_setEntry,entryOf_setEntry]
    split_ifs <;> rfl
  rw [acquire]
  simp only [spec_get_bind,spec_modify_bind]
  split_ifs with hm hx hc hf
  · intro b _ u q m hg
    have hg' : (setEntry p { lm.entryOf p with mode := .exclusive }
        (setEntry p (lm.entryOf p) lm)).Grants u q m := hg
    refine grants_replaced (hset ⟨.exclusive,_,_⟩) (fun x hx => Or.inl hx)
      (fun _ => ⟨hx.2,fun x hxm => ?_⟩) hg'
    exact Finset.card_le_one.mp hc.le x hxm t hm
  · exact fun _ e => by cases e
  · intro b _ u q m hg
    have hsame : (setEntry p (lm.entryOf p) lm).entryOf = lm.entryOf := by
      funext r
      rw [entryOf_setEntry]
      split_ifs with hr
      · rw [hr]
      · rfl
    exact Or.inl ((grants_of_entryOf hsame).mp hg)
  · intro b _ u q m hg
    have hg' : (setEntry p { lm.entryOf p with
        mode := mode, holders := insert t (lm.entryOf p).holders }
        (setEntry p (lm.entryOf p) lm)).Grants u q m := hg
    refine grants_replaced (hset _) (fun x hx => (Finset.mem_insert.mp hx).symm)
      (fun he => ⟨he,?_⟩) hg'
    intro x hx
    rw [hf] at hx
    exact Finset.mem_singleton.mp hx
  · cases hmode : (lm.entryOf p).mode with
    | exclusive => exact fun _ e => by cases e
    | shared =>
      cases mode with
      | exclusive => exact fun _ e => by cases e
      | shared =>
        intro b _ u q m hg
        have hg' : (setEntry p ⟨.shared,insert t (lm.entryOf p).holders,(lm.entryOf p).waitQueue⟩
            (setEntry p (lm.entryOf p) lm)).Grants u q m := hg
        exact grants_replaced (hset _) (fun x hx => (Finset.mem_insert.mp hx).symm)
          (fun he => by cases he) hg'

theorem Mirrored.acquire_grants (h : Mirrored lm) (t : TxnId) (p : ResourceId) (mode : LockMode) :
    Spec (acquire t p mode) lm (fun r lm' => Mirrored lm' ∧
      (∀ b, r = .ok b → ∀ u q m, lm'.Grants u q m ↔ lm.Grants u q m ∨ Adds t p mode u q m) ∧
      ∀ e, r = .error e → ∀ u q m, lm'.Grants u q m ↔ lm.Grants u q m) := by
  have hd := h.acquire_decided t p mode
  have hs := h.sound.acquire_spec t p mode
  have ha := acquire_adds lm t p mode
  refine ⟨hd.mirrored,fun b hb u q m => ⟨ha b hb u q m,?_⟩,fun e he u q m => ?_⟩
  · rcases hs with ⟨b',-,hacq⟩ | ⟨he,-⟩
    · rintro (hg | ⟨rfl,rfl,hm⟩)
      · exact hacq.kept u q m hg
      · refine ⟨hacq.granted.1,fun hx => hacq.granted.2 (hm.resolve_left ?_)⟩
        rw [hx]
        exact fun e => by cases e
    · rw [hb] at he
      cases he
  · rcases hs with ⟨b,hb,-⟩ | ⟨-,hsame⟩
    · rw [he] at hb
      cases hb
    · exact grants_of_entryOf hsame

end LockManager

-- The weakest lock that refuses a request of this mode.
def LockMode.against : LockMode → LockMode
  | .shared => .exclusive
  | .exclusive => .shared

namespace TransactionManager

variable {m m' : TransactionManager} {t u : TxnId} {p q : PageId} {mode : LockMode}

-- The pages that a transaction in the table has asked for: to write, or at all.
def Touches (m : TransactionManager) (t : TxnId) (p : PageId) (mode : LockMode) : Prop :=
  ∃ txn, m.activeTxns.lookup t = some txn ∧
    ((txn.writeSet.lookup p).isSome = true ∨ mode = .shared ∧ p ∈ txn.readSet)

structure Footprint (m : TransactionManager) : Prop where
  mirrored : m.lockManager.Mirrored
  grants : ∀ t p mode, m.lockManager.Grants t p mode ↔ m.Touches t p mode
  older : ∀ t txn, m.activeTxns.lookup t = some txn → t.toNat < m.nextTxnId.toNat

theorem lookup_withTxn (txn : Transaction) : (withTxn t txn m).activeTxns.lookup u =
    if u = t then some txn else m.activeTxns.lookup u := by
  split_ifs with h
  · rw [h,withTxn,AList.lookup_insert]
  · rw [withTxn,AList.lookup_insert_ne h]

theorem footprint_new : Footprint new where
  mirrored := LockManager.mirrored_new
  grants t p mode := by
    refine iff_of_false (fun hg => Finset.notMem_empty t hg.1) ?_
    rintro ⟨txn,hl,-⟩
    cases hl
  older t txn hl := by cases hl

theorem Footprint.restated (h : Footprint m) {txn txn' : Transaction}
    (hl : m.activeTxns.lookup t = some txn) (hw : txn'.writeSet = txn.writeSet)
    (hr : txn'.readSet = txn.readSet) : Footprint (withTxn t txn' m) := by
  refine ⟨h.mirrored,fun u q mode => (h.grants u q mode).trans ?_,fun u x hx => ?_⟩
  · simp only [Touches,lookup_withTxn]
    split_ifs with hu
    · subst hu
      simp only [hl,Option.some.injEq,exists_eq_left',hw,hr]
    · rfl
  · rw [lookup_withTxn] at hx
    split_ifs at hx with hu
    · rw [hu]
      exact h.older t txn hl
    · exact h.older u x hx

theorem Footprint.started (h : Footprint m) (hn : m.nextTxnId.toNat + 1 < 2 ^ 64) :
    Footprint (started m) := by
  have hnext : (m.nextTxnId + 1).toNat = m.nextTxnId.toNat + 1 := by
    rw [UInt64.toNat_add,UInt64.toNat_one,Nat.mod_eq_of_lt hn]
  have hfree : m.activeTxns.lookup m.nextTxnId = none := by
    cases hl : m.activeTxns.lookup m.nextTxnId with
    | none => rfl
    | some txn => exact absurd (h.older _ txn hl) (lt_irrefl _)
  have hlook (u : TxnId) : (TransactionManager.started m).activeTxns.lookup u =
      if u = m.nextTxnId then some (.new m.nextTxnId) else m.activeTxns.lookup u := lookup_withTxn _
  refine ⟨h.mirrored,fun u q mode => (h.grants u q mode).trans ?_,fun u x hx => ?_⟩
  · simp only [Touches,hlook]
    split_ifs with hu
    · subst hu
      refine iff_of_false ?_ ?_
      · rintro ⟨txn,hl,-⟩
        rw [hfree] at hl
        cases hl
      · rintro ⟨txn,hl,hsets⟩
        cases hl
        rcases hsets with hw | ⟨-,hr⟩
        · cases hw
        · exact List.not_mem_nil hr
    · rfl
  · change u.toNat < (m.nextTxnId + 1).toNat
    rw [hlook] at hx
    split_ifs at hx with hu
    · rw [hu,hnext]
      exact Nat.lt_succ_self _
    · rw [hnext]
      exact (h.older u x hx).trans (Nat.lt_succ_self _)

theorem Footprint.ended (h : Footprint m) (t : TxnId) : Footprint (ended t m) := by
  have hr := h.mirrored.releaseAll t
  have hlook (u : TxnId) : (TransactionManager.ended t m).activeTxns.lookup u =
      if u = t then none else m.activeTxns.lookup u := by
    split_ifs with hu
    · rw [hu,TransactionManager.ended,AList.lookup_erase]
    · rw [TransactionManager.ended,AList.lookup_erase_ne hu]
  refine ⟨hr.mirrored,fun u q mode => ?_,fun u x hx => ?_⟩
  · simp only [Touches,hlook]
    split_ifs with hu
    · subst hu
      refine iff_of_false (fun hg => hr.free q hg.1) ?_
      rintro ⟨txn,hl,-⟩
      cases hl
    · exact (hr.spares.grants u hu q mode).trans (h.grants u q mode)
  · rw [hlook] at hx
    split_ifs at hx
    exact h.older u x hx

theorem Footprint.acquired (h : Footprint m) {l : LockManager} {txn txn' : Transaction}
    (hl : m.activeTxns.lookup t = some txn) (hm : l.Mirrored)
    (hg : ∀ u q x, l.Grants u q x ↔ m.lockManager.Grants u q x ∨ LockManager.Adds t p mode u q x)
    (hsets : ∀ q (x : LockMode),
      ((txn'.writeSet.lookup q).isSome = true ∨ x = .shared ∧ q ∈ txn'.readSet) ↔
      ((txn.writeSet.lookup q).isSome = true ∨ x = .shared ∧ q ∈ txn.readSet) ∨
        q = p ∧ (x = .shared ∨ mode = .exclusive)) :
    Footprint (withTxn t txn' { m with lockManager := l }) := by
  refine ⟨hm,fun u q x => (hg u q x).trans ?_,fun u x hx => ?_⟩
  · rw [h.grants]
    simp only [Touches,lookup_withTxn,LockManager.Adds]
    split_ifs with hu
    · subst hu
      simp only [hl,Option.some.injEq,exists_eq_left',true_and]
      exact (hsets q x).symm
    · exact or_iff_left fun hadd => hu hadd.1
  · rw [lookup_withTxn] at hx
    split_ifs at hx with hu
    · rw [hu]
      exact h.older t txn hl
    · exact h.older u x hx

theorem Footprint.refused (h : Footprint m) {l : LockManager} (hm : l.Mirrored)
    (hg : ∀ u q x, l.Grants u q x ↔ m.lockManager.Grants u q x) :
    Footprint { m with lockManager := l } :=
  ⟨hm,fun u q x => (hg u q x).trans (h.grants u q x),h.older⟩

theorem Footprint.acquireLock (h : Footprint m) {note : Transaction → Transaction}
    (hnote : ∀ (txn : Transaction) q (x : LockMode),
      (((note txn).writeSet.lookup q).isSome = true ∨ x = .shared ∧ q ∈ (note txn).readSet) ↔
      ((txn.writeSet.lookup q).isSome = true ∨ x = .shared ∧ q ∈ txn.readSet) ∨
        q = p ∧ (x = .shared ∨ mode = .exclusive)) (t : TxnId) :
    Spec (acquireLock mode note t p) m (fun _ m' => Footprint m' ∧ m'.nextTxnId = m.nextTxnId) := by
  refine spec_acquireLock (h.mirrored.acquire_grants t p mode) (fun _ => ⟨h,rfl⟩) ?_ ?_
  · rintro txn b l hl ⟨hm,hok,-⟩
    exact ⟨h.acquired hl hm (hok b rfl) (hnote txn),rfl⟩
  · rintro e l ⟨hm,-,herr⟩
    exact ⟨h.refused hm (herr e rfl),rfl⟩

theorem Footprint.acquireReadLock (h : Footprint m) (t : TxnId) (p : PageId) :
    Spec (acquireReadLock t p) m (fun _ m' => Footprint m' ∧ m'.nextTxnId = m.nextTxnId) := by
  refine h.acquireLock (fun txn q x => ?_) t
  simp only [List.mem_append,List.mem_singleton]
  grind

theorem Footprint.acquireWriteLock (h : Footprint m) (t : TxnId) (p : PageId) (b : Bytes) :
    Spec (acquireWriteLock t p b) m (fun _ m' => Footprint m' ∧ m'.nextTxnId = m.nextTxnId) := by
  refine h.acquireLock (fun txn q x => ?_) t
  by_cases hq : q = p
  · subst hq
    simp [AList.lookup_insert]
  · simp [AList.lookup_insert_ne hq,hq]

end TransactionManager

namespace TxnSystem
open TransactionManager

variable {s : TxnSystem}

def Steps (s s' : TxnSystem) : Prop :=
  Footprint s'.manager ∧ s'.manager.nextTxnId.toNat ≤ s.manager.nextTxnId.toNat + 1

theorem steps_of_manager {s' s'' : TxnSystem} (h : Steps s s') (he : s''.manager = s'.manager) :
    Steps s s'' := by rwa [Steps,he]

theorem Steps.ended {s' : TxnSystem} (h : Steps s s') (t : TxnId) :
    Steps s { s' with manager := ended t s'.manager } := ⟨h.1.ended t,h.2⟩

theorem exec_steps (h : Footprint s.manager) (hn : s.manager.nextTxnId.toNat + 1 < 2 ^ 64)
    (c : TxnCall) : Spec c.exec s (fun _ s' => Steps s s') := by
  have hsame {m : TransactionManager} (hf : Footprint m) (hid : m.nextTxnId = s.manager.nextTxnId) :
      Footprint m ∧ m.nextTxnId.toNat ≤ s.manager.nextTxnId.toNat + 1 :=
    ⟨hf,hid ▸ Nat.le_succ _⟩
  cases c with
  | begin =>
    refine Spec.map (Q := fun _ s' => Steps s s') ?_ (fun _ _ h => h) (fun _ _ h => h)
    rw [begin,spec_get_bind]
    dsimp only
    rw [spec_update_bind]
    have hstart : Steps s { s with manager := started s.manager } := by
      refine ⟨h.started hn,?_⟩
      change (s.manager.nextTxnId + 1).toNat ≤ _
      rw [UInt64.toNat_add,UInt64.toNat_one,Nat.mod_eq_of_lt hn]
    exact (onWal_spec _).bind (fun _ _ he => steps_of_manager hstart he)
      (fun _ _ he => steps_of_manager hstart he)
  | acquireReadLock t p =>
    refine Spec.map (Q := fun _ s' => Steps s s') ?_ (fun _ _ h => h) (fun _ _ h => h)
    rw [onManager,spec_zoom]
    exact (h.acquireReadLock t p).mono fun _ m' hm => hsame hm.1 hm.2
  | acquireWriteLock t p b =>
    refine Spec.map (Q := fun _ s' => Steps s s') ?_ (fun _ _ h => h) (fun _ _ h => h)
    rw [onManager,spec_zoom]
    exact (h.acquireWriteLock t p b).mono fun _ m' hm => hsame hm.1 hm.2
  | logWrite t p b a =>
    refine Spec.map (Q := fun _ s' => Steps s s') ?_ (fun _ _ h => h) (fun _ _ h => h)
    rw [logWrite,spec_get_bind]
    cases s.manager.activeTxns.lookup t with
    | none => exact hsame h rfl
    | some txn =>
      exact (onWal_spec _).bind (fun _ _ he => steps_of_manager (hsame h rfl) he)
        (fun _ _ he => steps_of_manager (hsame h rfl) he)
  | commit t =>
    refine Spec.map (Q := fun _ s' => Steps s s') ?_ (fun _ _ h => h) (fun _ _ h => h)
    rw [commit,spec_get_bind]
    cases hl : s.manager.activeTxns.lookup t with
    | none => exact hsame h rfl
    | some txn =>
      dsimp only
      split_ifs
      · have hput : Steps s { s with
            manager := withTxn t { txn with state := .committed } s.manager } :=
          hsame (h.restated hl rfl rfl) rfl
        rw [spec_update_bind]
        exact (onWal_spec _).bind (fun _ _ he => (steps_of_manager hput he).ended t)
          (fun _ _ he => steps_of_manager hput he)
      · exact hsame h rfl
  | abort t =>
    refine Spec.map (Q := fun _ s' => Steps s s') ?_ (fun _ _ h => h) (fun _ _ h => h)
    rw [abort,spec_get_bind]
    cases hl : s.manager.activeTxns.lookup t with
    | none => exact hsame h rfl
    | some txn =>
      dsimp only
      have hput : Steps s { s with
          manager := withTxn t { txn with state := .aborted } s.manager } :=
        hsame (h.restated hl rfl rfl) rfl
      rw [spec_update_bind]
      exact (onWal_spec _).bind (fun _ _ he => (steps_of_manager hput he).ended t)
        (fun _ _ he => steps_of_manager hput he)

def runCalls (calls : List TxnCall) (s : TxnSystem) : TxnSystem :=
  calls.foldl (fun s c => (c.exec s).2) s

theorem footprint_runCalls (h : Footprint s.manager) (calls : List TxnCall)
    (hn : s.manager.nextTxnId.toNat + calls.length < 2 ^ 64) :
    Footprint (runCalls calls s).manager := by
  induction calls generalizing s with
  | nil => exact h
  | cons c calls ih =>
    rw [List.length_cons] at hn
    obtain ⟨h1,hle⟩ := exec_steps h (by omega) c
    refine ih (s := (c.exec s).2) h1 ?_
    omega

end TxnSystem

namespace LockManager

def numLocks (lm : LockManager) : Nat := lm.lockTable.keys.length

end LockManager

namespace TransactionManager

def activeCount (m : TransactionManager) : Nat := m.activeTxns.keys.length

def isActive (m : TransactionManager) (txnId : TxnId) : Bool := (m.activeTxns.lookup txnId).isSome

variable {m : TransactionManager}

theorem Footprint.holder_active (h : Footprint m) {t : TxnId} {p : PageId}
    (ht : t ∈ (m.lockManager.entryOf p).holders) : m.isActive t = true := by
  obtain ⟨txn,hl,-⟩ := (h.grants t p .shared).mp ⟨ht,fun e => by cases e⟩
  rw [isActive,hl]
  rfl

theorem Footprint.numLocks (h : Footprint m) (h0 : m.activeCount = 0) :
    m.lockManager.numLocks = 0 := by
  rw [LockManager.numLocks,List.length_eq_zero_iff,List.eq_nil_iff_forall_not_mem]
  intro p hp
  obtain ⟨entry,he⟩ := Option.isSome_iff_exists.mp (AList.lookup_isSome.mpr (AList.mem_keys.mpr hp))
  obtain ⟨t,ht⟩ := (h.mirrored.kept p entry he).held
  have hentry : m.lockManager.entryOf p = entry := by rw [LockManager.entryOf,he]; rfl
  have ha := h.holder_active (hentry ▸ ht)
  rw [isActive,AList.lookup_isSome] at ha
  have hkeys := List.length_eq_zero_iff.mp h0 ▸ AList.mem_keys.mp ha
  exact List.not_mem_nil hkeys

theorem Footprint.conflict_iff (h : Footprint m) {t : TxnId} {p : PageId} {mode : LockMode} :
    m.lockManager.Conflict t p mode ↔ ∃ u, u ≠ t ∧ m.Touches u p mode.against := by
  have hgrants (u : TxnId) : m.lockManager.Grants u p mode.against ↔
      u ∈ (m.lockManager.entryOf p).holders ∧
        LockMode.compatible (m.lockManager.entryOf p).mode mode = false := by
    cases mode with
    | exclusive =>
      have hx (md : LockMode) : LockMode.compatible md .exclusive = false := by cases md <;> rfl
      exact ⟨fun hg => ⟨hg.1,hx _⟩,fun hg => ⟨hg.1,fun e => by cases e⟩⟩
    | shared =>
      have hx (md : LockMode) : LockMode.compatible md .shared = false ↔ md = .exclusive := by
        cases md <;> decide
      rw [hx]
      exact ⟨fun hg => ⟨hg.1,hg.2 rfl⟩,fun hg => ⟨hg.1,fun _ => hg.2⟩⟩
  constructor
  · rintro ⟨u,hu,hne,hc⟩
    exact ⟨u,hne,(h.grants ..).mp ((hgrants u).mpr ⟨hu,hc⟩)⟩
  · rintro ⟨u,hne,hu⟩
    obtain ⟨hu,hc⟩ := (hgrants u).mp ((h.grants ..).mpr hu)
    exact ⟨u,hu,hne,hc⟩

def Answers (m : TransactionManager) (t : TxnId) (p : PageId) (mode : LockMode)
    (r : Except (Fault Error) Unit) : Prop :=
  (r = .ok () ↔ ∀ u, u ≠ t → ¬ m.Touches u p mode.against) ∧
    ∀ f, r = .error f → f = .err (.lockConflict t)

theorem Footprint.answers (h : Footprint m) {t : TxnId} (ht : m.isActive t = true) {p : PageId}
    {mode : LockMode} {note : Transaction → Transaction} :
    Spec (TransactionManager.acquireLock mode note t p) m (fun r _ => m.Answers t p mode r) := by
  have hcon : m.lockManager.Conflict t p mode ↔ _ := h.conflict_iff
  obtain ⟨txn,htxn⟩ := Option.isSome_iff_exists.mp ht
  refine spec_acquireLock (h.mirrored.acquire_decided t p mode) (fun hl => ?_) ?_ ?_
  · rw [htxn] at hl
    cases hl
  · rintro - b l - hd
    refine ⟨iff_of_true rfl fun u hne hu => ?_,fun f hf => (by cases hf)⟩
    obtain ⟨f,hf⟩ := hd.conflict.mpr (hcon.mpr ⟨u,hne,hu⟩)
    cases hf
  · rintro f l hd
    refine ⟨iff_of_false (fun e => (by cases e)) fun hall => ?_,fun f' hf => ?_⟩
    · obtain ⟨u,hne,hu⟩ := hcon.mp (hd.conflict.mp ⟨f,rfl⟩)
      exact hall u hne hu
    · cases hf
      exact (hd.refused f rfl).1

end TransactionManager

namespace TxnSystem
open TransactionManager

theorem footprint_reached (wal : WalManager) (calls : List TxnCall)
    (hn : calls.length + 1 < 2 ^ 64) :
    Footprint (runCalls calls ⟨.new,wal⟩).manager := by
  refine footprint_runCalls (s := ⟨.new,wal⟩) footprint_new calls ?_
  change 1 + calls.length < 2 ^ 64
  omega

theorem lock_footprint (wal : WalManager) (calls : List TxnCall) (hn : calls.length + 1 < 2 ^ 64) :
    let m := (runCalls calls ⟨.new,wal⟩).manager
    (∀ t p, m.lockManager.holdsLock t p = true ↔ ∃ txn, m.activeTxns.lookup t = some txn ∧
      ((txn.writeSet.lookup p).isSome = true ∨ p ∈ txn.readSet)) ∧
    (∀ t p, m.lockManager.Grants t p .exclusive ↔ ∃ txn, m.activeTxns.lookup t = some txn ∧
      (txn.writeSet.lookup p).isSome = true) ∧
    (m.activeCount = 0 → m.lockManager.numLocks = 0) := by
  intro m
  have h : Footprint m := footprint_reached wal calls hn
  refine ⟨fun t p => ?_,fun t p => ?_,h.numLocks⟩
  · have hg := h.grants t p .shared
    simp only [Touches,true_and] at hg
    rw [← hg,LockManager.holdsLock,decide_eq_true_iff]
    exact ⟨fun ht => ⟨ht,fun e => by cases e⟩,fun hx => hx.1⟩
  · have hg := h.grants t p .exclusive
    simp only [Touches,reduceCtorEq,false_and,or_false] at hg
    exact hg

theorem lock_footprint_two_writers :
    let m := (runCalls [.begin,.begin,.acquireReadLock 1 4,.acquireWriteLock 2 4 [],
      .acquireWriteLock 2 5 [],.commit 1,.acquireWriteLock 2 4 []] ⟨.new,.onFile [] []⟩).manager
    m.activeCount = 1 ∧ m.lockManager.numLocks = 2 ∧ (m.lockManager.Grants 2 4 .exclusive ↔
      ∃ txn, m.activeTxns.lookup 2 = some txn ∧ (txn.writeSet.lookup 4).isSome = true) :=
  ⟨by decide +kernel,by decide +kernel,(lock_footprint _ _ (by decide)).2.1 2 4⟩

theorem lock_requests_decided (wal : WalManager) (calls : List TxnCall)
    (hn : calls.length + 1 < 2 ^ 64) {t : TxnId}
    (ht : (runCalls calls ⟨.new,wal⟩).manager.isActive t = true) (p : PageId) (b : Bytes) :
    let m := (runCalls calls ⟨.new,wal⟩).manager
    m.Answers t p .shared (acquireReadLock t p m).1 ∧
      m.Answers t p .exclusive (acquireWriteLock t p b m).1 := by
  have h := footprint_reached wal calls hn
  exact ⟨h.answers ht,h.answers ht⟩

theorem lock_requests_decided_readers :
    let m := (runCalls [.begin,.begin,.acquireReadLock 1 4,.acquireReadLock 2 4]
      ⟨.new,.onFile [] []⟩).manager
    m.isActive 1 = true ∧ (acquireWriteLock 1 4 [] m).1 = .error (.err (.lockConflict 1)) ∧
      m.Answers 1 4 .exclusive (acquireWriteLock 1 4 [] m).1 := by
  have ht : (runCalls [.begin,.begin,.acquireReadLock 1 4,.acquireReadLock 2 4]
      ⟨.new,.onFile [] []⟩).manager.isActive 1 = true := by decide +kernel
  exact ⟨ht,by decide +kernel,(lock_requests_decided _ _ (by decide) ht 4 []).2⟩

end TxnSystem

end StorageDb
