import Mathlib.Tactic
import StorageDb.Txn.LockManager

namespace StorageDb

def LockMode.compatible : LockMode → LockMode → Bool
  | .shared,.shared => true
  | _,_ => false

namespace LockManager

variable {lm lm' : LockManager} {t u : TxnId} {r q : ResourceId} {mode m : LockMode}
  {rs : List ResourceId}

def locksOf (lm : LockManager) (t : TxnId) : List ResourceId := (lm.txnLocks.lookup t).getD []

-- The two maps up to the order in which a hash map lists them.
def Same (lm lm' : LockManager) : Prop :=
  (∀ r, lm'.lockTable.lookup r = lm.lockTable.lookup r) ∧ lm'.txnLocks = lm.txnLocks

structure Kept (entry : LockEntry) : Prop where
  held : entry.holders.Nonempty
  single : entry.mode = .exclusive → entry.holders.card = 1
  noWaiters : entry.waitQueue = []

structure Mirrored (lm : LockManager) : Prop where
  mirror : ∀ t r, r ∈ lm.locksOf t ↔ t ∈ (lm.entryOf r).holders
  kept : ∀ r entry, lm.lockTable.lookup r = some entry → Kept entry

theorem lookup_setEntry (entry : LockEntry) : (setEntry r entry lm).lockTable.lookup q =
    if q = r then some entry else lm.lockTable.lookup q := by
  split_ifs with h
  · rw [h,setEntry,AList.lookup_insert]
  · rw [setEntry,AList.lookup_insert_ne h]

theorem mem_locksOf_addLock :
    q ∈ (addLock t r lm).locksOf u ↔ u = t ∧ q = r ∨ q ∈ lm.locksOf u := by
  rw [locksOf,addLock]
  dsimp only
  by_cases h : u = t
  · subst h
    rw [AList.lookup_insert,Option.getD_some,List.mem_insert_iff]
    simp [locksOf]
  · rw [AList.lookup_insert_ne h]
    simp [h,locksOf]

theorem entryOf_lookup (lm : LockManager) (r : ResourceId) :
    lm.entryOf r = (lm.lockTable.lookup r).getD ⟨.shared,∅,[]⟩ := rfl

theorem lookup_of_holder (h : t ∈ (lm.entryOf r).holders) :
    lm.lockTable.lookup r = some (lm.entryOf r) := by
  rw [entryOf] at h ⊢
  cases hl : lm.lockTable.lookup r with
  | some entry => rfl
  | none =>
    rw [hl] at h
    exact absurd h (Finset.notMem_empty t)

theorem mirrored_new : Mirrored new where
  mirror t r := by simp [locksOf,entryOf,new]
  kept r entry h := by simp [new] at h

theorem Mirrored.kept_of_holder (h : Mirrored lm) (ht : t ∈ (lm.entryOf r).holders) :
    Kept (lm.entryOf r) := h.kept r _ (lookup_of_holder ht)

theorem Mirrored.noWaiters (h : Mirrored lm) (r : ResourceId) : (lm.entryOf r).waitQueue = [] := by
  rw [entryOf]
  cases hl : lm.lockTable.lookup r with
  | some entry => exact (h.kept r entry hl).noWaiters
  | none => rfl

theorem Mirrored.sound (h : Mirrored lm) : Sound lm := by
  refine fun r => ⟨h.noWaiters r,fun hx => ?_⟩
  rcases (lm.entryOf r).holders.eq_empty_or_nonempty with he | ⟨t,ht⟩
  · rw [he]
    exact Nat.zero_le 1
  · exact ((h.kept_of_holder ht).single hx).le

theorem same_setEntry (h : lm.lockTable.lookup r = some (lm.entryOf r)) :
    Same lm (setEntry r (lm.entryOf r) lm) := by
  refine ⟨fun q => ?_,rfl⟩
  rw [lookup_setEntry]
  split_ifs with hq
  · rw [hq,h]
  · rfl

theorem Same.entryOf (h : Same lm lm') : lm'.entryOf = lm.entryOf := by
  funext r
  rw [LockManager.entryOf,LockManager.entryOf,h.1]

theorem Mirrored.same (h : Mirrored lm) (hs : Same lm lm') : Mirrored lm' where
  mirror t r := by
    rw [locksOf,hs.2,hs.entryOf]
    exact h.mirror t r
  kept r entry hl := by
    rw [hs.1] at hl
    exact h.kept r entry hl

theorem Mirrored.replaced (h : Mirrored lm) {entry : LockEntry}
    (hl : ∀ q, lm'.lockTable.lookup q = if q = r then some entry else lm.lockTable.lookup q)
    (hk : Kept entry) (hh : ∀ u, u ∈ entry.holders ↔ u = t ∨ u ∈ (lm.entryOf r).holders)
    (hx : ∀ u q, q ∈ lm'.locksOf u ↔ u = t ∧ q = r ∨ q ∈ lm.locksOf u) : Mirrored lm' where
  mirror u q := by
    rw [hx,h.mirror,entryOf_lookup lm' q,hl]
    split_ifs with hq
    · subst hq
      rw [Option.getD_some,hh]
      simp
    · simp [hq,LockManager.entryOf]
  kept q e he := by
    rw [hl] at he
    split_ifs at he with hq
    · cases he
      exact hk
    · exact h.kept q e he

def Conflict (lm : LockManager) (t : TxnId) (r : ResourceId) (mode : LockMode) : Prop :=
  ∃ u ∈ (lm.entryOf r).holders, u ≠ t ∧ LockMode.compatible (lm.entryOf r).mode mode = false

structure Decided (lm : LockManager) (t : TxnId) (r : ResourceId) (mode : LockMode)
    (out : Except (Fault Error) Bool) (lm' : LockManager) : Prop where
  mirrored : Mirrored lm'
  refused : ∀ f, out = .error f → f = .err (.lockConflict t) ∧ Same lm lm'
  conflict : (∃ f, out = .error f) ↔ Conflict lm t r mode

theorem Decided.granted {b : Bool} (hm : Mirrored lm') (hc : ¬ Conflict lm t r mode) :
    Decided lm t r mode (.ok b) lm' :=
  ⟨hm,fun _ h => (by cases h),iff_of_false (fun h => by cases h.choose_spec) hc⟩

theorem Mirrored.refused (h : Mirrored lm) (hc : Conflict lm t r mode) :
    Decided lm t r mode (.error (.err (.lockConflict t))) (setEntry r (lm.entryOf r) lm) := by
  have hs : Same lm (setEntry r (lm.entryOf r) lm) := by
    obtain ⟨u,hu,-⟩ := hc
    exact same_setEntry (lookup_of_holder hu)
  exact ⟨h.same hs,fun f hf => ⟨by cases hf; rfl,hs⟩,iff_of_true ⟨_,rfl⟩ hc⟩

theorem Mirrored.acquire_decided (h : Mirrored lm) (t : TxnId) (r : ResourceId) (mode : LockMode) :
    Prog.Spec (acquire t r mode) lm (Decided lm t r mode) := by
  have hset (e : LockEntry) (q : ResourceId) : (setEntry r e (setEntry r (lm.entryOf r)
      lm)).lockTable.lookup q = if q = r then some e else lm.lockTable.lookup q := by
    rw [lookup_setEntry,lookup_setEntry]
    split_ifs <;> rfl
  rw [acquire]
  simp only [Prog.spec_get_bind,Prog.spec_modify_bind]
  split_ifs with hm hx hc hf
  · refine .granted (h.replaced (t := t) (hset _) ⟨⟨t,hm⟩,fun _ => hc,h.noWaiters r⟩
      (fun u => ?_) (fun u q => ?_)) ?_
    · exact (or_iff_right_of_imp fun hu => hu ▸ hm).symm
    · refine (or_iff_right_of_imp ?_).symm
      rintro ⟨rfl,rfl⟩
      exact (h.mirror u q).mpr hm
    · rintro ⟨u,hu,hne,-⟩
      exact hne (Finset.card_le_one.mp hc.le u hu t hm)
  · have hmore : 1 < (lm.entryOf r).holders.card :=
      lt_of_le_of_ne (Finset.card_pos.mpr ⟨t,hm⟩) (Ne.symm hc)
    obtain ⟨u,hu,hne⟩ := Finset.exists_mem_ne hmore t
    exact h.refused ⟨u,hu,hne,by rw [hx.1,hx.2]; rfl⟩
  · refine .granted (h.same (same_setEntry (lookup_of_holder hm))) ?_
    rintro ⟨u,hu,hne,hcomp⟩
    cases hmode : (lm.entryOf r).mode with
    | exclusive =>
      have hcard := (h.kept_of_holder hm).single hmode
      exact hne (Finset.card_le_one.mp hcard.le u hu t hm)
    | shared =>
      cases mode with
      | shared => simp [hmode,LockMode.compatible] at hcomp
      | exclusive => exact hx ⟨hmode,rfl⟩
  · refine .granted (h.replaced (t := t) (hset _) ⟨⟨t,?_⟩,fun _ => ?_,h.noWaiters r⟩
      (fun u => ?_) fun u q => mem_locksOf_addLock) ?_
    · exact Finset.mem_insert_self ..
    · simp [hf]
    · exact Finset.mem_insert
    · rintro ⟨u,hu,-⟩
      rw [hf] at hu
      exact absurd hu (Finset.notMem_empty u)
  · obtain ⟨u,hu⟩ := Finset.nonempty_iff_ne_empty.mpr hf
    have hne : u ≠ t := fun he => hm (he ▸ hu)
    cases hmode : (lm.entryOf r).mode with
    | exclusive => exact h.refused ⟨u,hu,hne,by rw [hmode]; rfl⟩
    | shared =>
      cases mode with
      | exclusive => exact h.refused ⟨u,hu,hne,by rw [hmode]; rfl⟩
      | shared =>
        refine .granted (h.replaced (t := t) (hset _) ⟨⟨t,?_⟩,fun hx => ?_,h.noWaiters r⟩
          (fun u => ?_) fun u q => mem_locksOf_addLock) ?_
        · exact Finset.mem_insert_self ..
        · cases hx
        · exact Finset.mem_insert
        · rintro ⟨u,-,-,hcomp⟩
          simp [hmode,LockMode.compatible] at hcomp

-- While the locks of t are given back one by one: the other map has forgotten t, and t is left only
-- in the entries still to come.
structure Releasing (t : TxnId) (pending : List ResourceId) (lm : LockManager) : Prop where
  mirror : ∀ u, u ≠ t → ∀ r, r ∈ lm.locksOf u ↔ u ∈ (lm.entryOf r).holders
  gone : lm.txnLocks.lookup t = none
  pending : ∀ r, t ∈ (lm.entryOf r).holders → r ∈ pending
  kept : ∀ r entry, lm.lockTable.lookup r = some entry → Kept entry

structure Spares (t : TxnId) (lm lm' : LockManager) : Prop where
  locks : ∀ u, u ≠ t → lm'.locksOf u = lm.locksOf u
  grants : ∀ u, u ≠ t → ∀ r m, lm'.Grants u r m ↔ lm.Grants u r m

theorem Spares.refl (t : TxnId) (lm : LockManager) : Spares t lm lm :=
  ⟨fun _ _ => rfl,fun _ _ _ _ => Iff.rfl⟩

theorem Spares.trans {lm'' : LockManager} (h : Spares t lm lm') (h' : Spares t lm' lm'') :
    Spares t lm lm'' :=
  ⟨fun u hu => (h'.locks u hu).trans (h.locks u hu),
    fun u hu r m => (h'.grants u hu r m).trans (h.grants u hu r m)⟩

theorem lookup_erase : ({ lm with lockTable := lm.lockTable.erase r } :
    LockManager).lockTable.lookup
    q = if q = r then none else lm.lockTable.lookup q := by
  split_ifs with h
  · rw [h,AList.lookup_erase]
  · rw [AList.lookup_erase_ne h]

theorem releaseOne_lookup (h : Releasing t (r :: rs) lm) :
    (releaseOne t lm r).txnLocks = lm.txnLocks ∧
      ∀ q, (releaseOne t lm r).lockTable.lookup q = if q = r then
        (lm.lockTable.lookup r).bind (fun entry => if entry.holders.erase t = ∅ then none
          else some { entry with holders := entry.holders.erase t })
      else lm.lockTable.lookup q := by
  rw [LockManager.releaseOne]
  cases he : lm.lockTable.lookup r with
  | none =>
    refine ⟨rfl,fun q => ?_⟩
    split_ifs with hq
    · rw [hq,he]
      rfl
    · rfl
  | some entry =>
    have hq := (h.kept r entry he).noWaiters
    have hgrant : grant { entry with holders := entry.holders.erase t } = _ := grant_of_empty hq
    simp only [hgrant,List.foldl_nil]
    split_ifs with hempty hgone
    · exact ⟨rfl,fun q => lookup_erase.trans (by rw [Option.bind_some,if_pos hempty])⟩
    · exact absurd ⟨hempty,hq⟩ hgone
    · exact ⟨rfl,fun q => (lookup_setEntry _).trans (by rw [Option.bind_some,if_neg hempty])⟩

theorem holders_releaseOne (h : Releasing t (r :: rs) lm) (q : ResourceId) :
    ((releaseOne t lm r).entryOf q).holders =
      if q = r then (lm.entryOf q).holders.erase t else (lm.entryOf q).holders := by
  rw [entryOf_lookup,entryOf_lookup lm,(releaseOne_lookup h).2]
  split_ifs with hq
  · rw [hq]
    cases lm.lockTable.lookup r with
    | none => rfl
    | some entry =>
      rw [Option.bind_some]
      split_ifs with he
      · exact he.symm
      · rfl
  · rfl

theorem mode_releaseOne (h : Releasing t (r :: rs) lm)
    (hu : u ∈ ((releaseOne t lm r).entryOf q).holders) :
    ((releaseOne t lm r).entryOf q).mode = (lm.entryOf q).mode := by
  rw [entryOf_lookup,(releaseOne_lookup h).2] at hu ⊢
  rw [entryOf_lookup lm]
  split_ifs at hu ⊢ with hq
  · rw [hq]
    cases hl : lm.lockTable.lookup r with
    | none => rfl
    | some entry =>
      rw [hl,Option.bind_some] at hu
      rw [Option.bind_some]
      split_ifs at hu ⊢
      · exact absurd hu (Finset.notMem_empty u)
      · rfl
  · rfl

theorem Releasing.spares_releaseOne (h : Releasing t (r :: rs) lm) :
    Spares t lm (LockManager.releaseOne t lm r) := by
  refine ⟨fun u _ => ?_,fun u hu q m => ?_⟩
  · rw [locksOf,(releaseOne_lookup h).1,locksOf]
  · have hmem : u ∈ ((LockManager.releaseOne t lm r).entryOf q).holders ↔
      u ∈ (lm.entryOf q).holders := by
      rw [holders_releaseOne h]
      split_ifs
      · exact Finset.mem_erase.trans (and_iff_right hu)
      · rfl
    rw [Grants,Grants,hmem]
    refine and_congr_right fun hq => ?_
    rw [mode_releaseOne h (hmem.mpr hq)]

theorem Releasing.releaseOne (h : Releasing t (r :: rs) lm) :
    Releasing t rs (releaseOne t lm r) where
  mirror u hu q := by
    rw [h.spares_releaseOne.locks u hu,h.mirror u hu,holders_releaseOne h]
    split_ifs
    · exact (Finset.mem_erase.trans (and_iff_right hu)).symm
    · rfl
  gone := by
    rw [(releaseOne_lookup h).1]
    exact h.gone
  pending q hq := by
    rw [holders_releaseOne h] at hq
    split_ifs at hq with hqr
    · exact absurd rfl (Finset.mem_erase.mp hq).1
    · exact (List.mem_cons.mp (h.pending q hq)).resolve_left hqr
  kept q entry he := by
    rw [(releaseOne_lookup h).2] at he
    split_ifs at he with hq
    · obtain ⟨e,hl,he⟩ := Option.bind_eq_some_iff.mp he
      split_ifs at he with hempty
      cases he
      have hk := h.kept r e hl
      refine ⟨Finset.nonempty_iff_ne_empty.mpr hempty,fun hx => ?_,hk.noWaiters⟩
      exact le_antisymm (Finset.card_erase_le.trans (hk.single hx).le)
        (Finset.card_pos.mpr (Finset.nonempty_iff_ne_empty.mpr hempty))
    · exact h.kept q entry he

theorem Releasing.foldl (h : Releasing t rs lm) :
    Releasing t [] (rs.foldl (LockManager.releaseOne t) lm) ∧
      Spares t lm (rs.foldl (LockManager.releaseOne t) lm) := by
  induction rs generalizing lm with
  | nil => exact ⟨h,.refl t lm⟩
  | cons r rs ih =>
    obtain ⟨h1,h2⟩ := ih h.releaseOne
    exact ⟨h1,h.spares_releaseOne.trans h2⟩

structure Released (t : TxnId) (lm lm' : LockManager) : Prop where
  mirrored : Mirrored lm'
  forgotten : lm'.txnLocks.lookup t = none
  free : ∀ r, t ∉ (lm'.entryOf r).holders
  spares : Spares t lm lm'

theorem Mirrored.releaseAll (h : Mirrored lm) (t : TxnId) : Released t lm (releaseAll t lm) := by
  have hmirror {lm' : LockManager} (hr : Releasing t [] lm') (hs : Spares t lm lm') :
      Released t lm lm' := by
    have hfree (r : ResourceId) : t ∉ (lm'.entryOf r).holders :=
      fun hm => List.not_mem_nil (hr.pending r hm)
    refine ⟨⟨fun u r => ?_,hr.kept⟩,hr.gone,hfree,hs⟩
    by_cases hu : u = t
    · rw [hu,locksOf,hr.gone]
      exact iff_of_false List.not_mem_nil (hfree r)
    · exact hr.mirror u hu r
  rw [LockManager.releaseAll]
  cases hl : lm.txnLocks.lookup t with
  | none =>
    refine hmirror ⟨fun u _ => h.mirror u,hl,fun r hm => ?_,h.kept⟩ (.refl t lm)
    have := (h.mirror t r).mpr hm
    rwa [locksOf,hl] at this
  | some rs =>
    have hlocks (u : TxnId) (hu : u ≠ t) :
        ({ lm with txnLocks := lm.txnLocks.erase t } : LockManager).locksOf u = lm.locksOf u := by
      rw [locksOf,locksOf]
      exact congrArg (Option.getD · []) (AList.lookup_erase_ne hu)
    have hstart : Releasing t rs { lm with txnLocks := lm.txnLocks.erase t } := by
      refine ⟨fun u hu r => ?_,AList.lookup_erase ..,fun r hm => ?_,h.kept⟩
      · rw [hlocks u hu]
        exact h.mirror u r
      · have := (h.mirror t r).mpr hm
        rwa [locksOf,hl] at this
    obtain ⟨h1,h2⟩ := hstart.foldl
    exact hmirror h1 (Spares.trans ⟨hlocks,fun _ _ _ _ => Iff.rfl⟩ h2)

end LockManager

inductive LockCall where
  | acquire (txnId : TxnId) (resource : ResourceId) (mode : LockMode)
  | releaseAll (txnId : TxnId)
  deriving DecidableEq

def LockCall.exec : LockCall → LockManager → LockManager
  | .acquire t r mode,lm => (LockManager.acquire t r mode lm).2
  | .releaseAll t,lm => lm.releaseAll t

namespace LockManager

variable {lm : LockManager}

def runCalls (calls : List LockCall) (lm : LockManager) : LockManager :=
  calls.foldl (fun lm c => c.exec lm) lm

theorem Mirrored.exec (h : Mirrored lm) (c : LockCall) : Mirrored (c.exec lm) := by
  cases c with
  | acquire t r mode => exact (h.acquire_decided t r mode).mirrored
  | releaseAll t => exact (h.releaseAll t).mirrored

theorem Mirrored.runCalls (h : Mirrored lm) (calls : List LockCall) :
    Mirrored (runCalls calls lm) := by
  induction calls generalizing lm with
  | nil => exact h
  | cons c calls ih => exact ih (h.exec c)

theorem Mirrored.grants_exec (h : Mirrored lm) {c : LockCall} {t : TxnId} {r : ResourceId}
    {m : LockMode} (hc : c ≠ .releaseAll t) (hg : lm.Grants t r m) : (c.exec lm).Grants t r m := by
  cases c with
  | acquire u q mode =>
    rcases h.sound.acquire_spec u q mode with ⟨b,-,ha⟩ | ⟨-,he⟩
    · exact ha.kept t r m hg
    · rw [LockCall.exec,Grants,he]
      exact hg
  | releaseAll u =>
    exact ((h.releaseAll u).spares.grants t (fun e => hc (by rw [e])) r m).mpr hg

theorem Mirrored.grants_runCalls (h : Mirrored lm) {calls : List LockCall} {t : TxnId}
    {r : ResourceId} {m : LockMode} (hc : .releaseAll t ∉ calls) (hg : lm.Grants t r m) :
    (LockManager.runCalls calls lm).Grants t r m := by
  induction calls generalizing lm with
  | nil => exact hg
  | cons c calls ih =>
    rw [List.mem_cons,not_or] at hc
    obtain ⟨hne,hmem⟩ := hc
    exact ih (h.exec c) hmem (h.grants_exec (Ne.symm hne) hg)

theorem lock_table_invariant (calls : List LockCall) :
    Mirrored (runCalls calls new) ∧
      (∀ t r mode, Prog.Spec (acquire t r mode) (runCalls calls new)
        (Decided (runCalls calls new) t r mode)) ∧
      (∀ t r m, (runCalls calls new).Grants t r m → ∀ later, .releaseAll t ∉ later →
        (runCalls later (runCalls calls new)).Grants t r m) ∧
      ∀ t, Released t (runCalls calls new) (releaseAll t (runCalls calls new)) := by
  have h := mirrored_new.runCalls calls
  exact ⟨h,h.acquire_decided,fun t r m hg later hl => h.grants_runCalls hl hg,h.releaseAll⟩

end LockManager

end StorageDb
