import Mathlib.Tactic
import Mathlib.Data.List.AList
import StorageDb.Wal.LogRecord

namespace StorageDb

abbrev ResourceId := UInt32

inductive LockMode where
  | shared
  | exclusive
  deriving DecidableEq, Repr

structure LockEntry where
  mode : LockMode
  holders : Finset TxnId
  waitQueue : List (TxnId × LockMode)
  deriving DecidableEq

structure LockManager where
  lockTable : AList (fun _ : ResourceId => LockEntry)
  txnLocks : AList (fun _ : TxnId => List ResourceId)

namespace LockManager

def new : LockManager := ⟨∅,∅⟩

def setEntry (resource : ResourceId) (entry : LockEntry) (lm : LockManager) : LockManager :=
  { lm with lockTable := lm.lockTable.insert resource entry }

def addLock (txnId : TxnId) (resource : ResourceId) (lm : LockManager) : LockManager :=
  { lm with
    txnLocks := lm.txnLocks.insert txnId (((lm.txnLocks.lookup txnId).getD []).insert resource) }

def entryOf (lm : LockManager) (resource : ResourceId) : LockEntry :=
  (lm.lockTable.lookup resource).getD ⟨.shared,∅,[]⟩

def acquire (txnId : TxnId) (resource : ResourceId) (mode : LockMode) :
    Prog Error LockManager Bool := do
  let lm ← Prog.get
  let entry := lm.entryOf resource
  -- entry(resource).or_insert_with
  Prog.modify (setEntry resource entry)
  if txnId ∈ entry.holders then
    if entry.mode = .shared ∧ mode = .exclusive then
      if entry.holders.card = 1 then do
        Prog.modify (setEntry resource { entry with mode := .exclusive })
        pure true
      else Prog.fail (.err (.lockConflict txnId))
    else pure false
  else if entry.holders = ∅ then do
    Prog.modify (setEntry resource
      { entry with mode := mode, holders := insert txnId entry.holders })
    Prog.modify (addLock txnId resource)
    pure true
  else
    match entry.mode, mode with
    | .shared, .shared => do
      Prog.modify (setEntry resource { entry with holders := insert txnId entry.holders })
      Prog.modify (addLock txnId resource)
      pure true
    | _, _ => Prog.fail (.err (.lockConflict txnId))

-- The waiters that get the lock of an entry without holders, and the entry afterwards.
def grant (entry : LockEntry) : List TxnId × LockEntry :=
  match entry.waitQueue with
  | [] => ([],entry)
  | (waiter,mode) :: rest =>
    if mode = .shared then
      let shared := (rest.takeWhile (fun w => w.2 = .shared)).map Prod.fst
      (waiter :: shared,⟨mode,insert waiter (entry.holders ∪ shared.toFinset),
        rest.dropWhile (fun w => w.2 = .shared)⟩)
    else ([waiter],⟨mode,insert waiter entry.holders,rest⟩)

def releaseOne (txnId : TxnId) (lm : LockManager) (resource : ResourceId) : LockManager :=
  match lm.lockTable.lookup resource with
  | none => lm
  | some entry =>
    let entry := { entry with holders := entry.holders.erase txnId }
    if entry.holders = ∅ then
      let (granted,entry) := grant entry
      let lm := granted.foldl (fun lm waiter => addLock waiter resource lm) lm
      if entry.holders = ∅ ∧ entry.waitQueue = [] then
        { lm with lockTable := lm.lockTable.erase resource }
      else setEntry resource entry lm
    else setEntry resource entry lm

def releaseAll (txnId : TxnId) (lm : LockManager) : LockManager :=
  match lm.txnLocks.lookup txnId with
  | none => lm
  | some resources =>
    resources.foldl (releaseOne txnId) { lm with txnLocks := lm.txnLocks.erase txnId }

def holdsLock (lm : LockManager) (txnId : TxnId) (resource : ResourceId) : Bool :=
  txnId ∈ (lm.entryOf resource).holders

def Sound (lm : LockManager) : Prop :=
  ∀ resource, (lm.entryOf resource).waitQueue = [] ∧
    ((lm.entryOf resource).mode = .exclusive → (lm.entryOf resource).holders.card ≤ 1)

def Grants (lm : LockManager) (txnId : TxnId) (resource : ResourceId) (mode : LockMode) : Prop :=
  txnId ∈ (lm.entryOf resource).holders ∧
    (mode = .exclusive → (lm.entryOf resource).mode = .exclusive)

variable {lm lm' : LockManager} {txnId other : TxnId} {resource r : ResourceId}
  {mode mode' : LockMode}

theorem entryOf_setEntry (entry : LockEntry) :
    (setEntry resource entry lm).entryOf r = if r = resource then entry else lm.entryOf r := by
  split_ifs with h
  · subst h
    rw [entryOf,setEntry,AList.lookup_insert]
    rfl
  · rw [entryOf,setEntry,AList.lookup_insert_ne h,entryOf]

@[simp] theorem entryOf_addLock : (addLock txnId resource lm).entryOf r = lm.entryOf r := rfl

theorem sound_new : Sound new := fun _ => ⟨rfl,fun h => by cases h⟩

structure Acquired (lm : LockManager) (txnId : TxnId) (resource : ResourceId) (mode : LockMode)
    (lm' : LockManager) : Prop where
  sound : Sound lm'
  kept : ∀ t r m, lm.Grants t r m → lm'.Grants t r m
  granted : lm'.Grants txnId resource mode
  apart : ∀ t m, t ≠ txnId → lm.Grants t resource m → m = .shared ∧ mode = .shared

section acquire

variable {entry : LockEntry} (h : Sound lm)
  (hl : ∀ r, lm'.entryOf r = if r = resource then entry else lm.entryOf r)
include h hl

theorem Sound.replaced (hq : entry.waitQueue = [])
    (hx : entry.mode = .exclusive → entry.holders.card ≤ 1) : Sound lm' := by
  intro r
  rw [hl]
  split_ifs
  · exact ⟨hq,hx⟩
  · exact h r

theorem Sound.upgraded (hm : txnId ∈ (lm.entryOf resource).holders)
    (hc : (lm.entryOf resource).holders.card = 1)
    (he : entry = { lm.entryOf resource with mode := .exclusive }) :
    Acquired lm txnId resource mode lm' where
  sound := h.replaced hl (by rw [he]; exact (h resource).1) (fun _ => by rw [he]; exact hc.le)
  kept t r m hg := by
    rw [Grants,hl]
    split_ifs with hr
    · subst hr he
      exact ⟨hg.1,fun _ => rfl⟩
    · exact hg
  granted := by
    rw [Grants,hl,if_pos rfl,he]
    exact ⟨hm,fun _ => rfl⟩
  apart t m ht hg := by
    obtain ⟨a,ha⟩ := Finset.card_eq_one.mp hc
    have h1 := hg.1
    rw [ha,Finset.mem_singleton] at hm h1
    exact absurd (h1.trans hm.symm) ht

theorem Sound.granted_free (hf : (lm.entryOf resource).holders = ∅)
    (he : entry = ⟨mode,insert txnId (lm.entryOf resource).holders,
      (lm.entryOf resource).waitQueue⟩) :
    Acquired lm txnId resource mode lm' := by
  have hnone (t : TxnId) (m : LockMode) : ¬ lm.Grants t resource m := by
    intro hg
    have h1 := hg.1
    rw [hf] at h1
    exact Finset.notMem_empty _ h1
  constructor
  case sound =>
    refine h.replaced hl (by rw [he]; exact (h resource).1) (fun _ => ?_)
    rw [he,hf]
    simp
  case kept =>
    intro t r m hg
    rw [Grants,hl]
    split_ifs with hr
    · subst hr
      exact absurd hg (hnone t m)
    · exact hg
  case granted =>
    rw [Grants,hl,if_pos rfl,he]
    exact ⟨Finset.mem_insert_self _ _,id⟩
  case apart => exact fun t m _ hg => absurd hg (hnone t m)

theorem Sound.granted_shared (hs : (lm.entryOf resource).mode = .shared)
    (he : entry = ⟨.shared,insert txnId (lm.entryOf resource).holders,
      (lm.entryOf resource).waitQueue⟩) : Acquired lm txnId resource .shared lm' := by
  have hshared (t : TxnId) (m : LockMode) (hg : lm.Grants t resource m) : m = .shared := by
    cases m with
    | shared => rfl
    | exclusive =>
      have h2 := hg.2 rfl
      rw [hs] at h2
      cases h2
  constructor
  case sound =>
    refine h.replaced hl (by rw [he]; exact (h resource).1) (fun hx => ?_)
    rw [he] at hx
    cases hx
  case kept =>
    intro t r m hg
    rw [Grants,hl]
    split_ifs with hr
    · subst hr he
      refine ⟨Finset.mem_insert_of_mem hg.1,fun hx => ?_⟩
      rw [hshared t m hg] at hx
      cases hx
    · exact hg
  case granted =>
    rw [Grants,hl,if_pos rfl,he]
    exact ⟨Finset.mem_insert_self _ _,fun hx => by cases hx⟩
  case apart => exact fun t m _ hg => ⟨hshared t m hg,rfl⟩

omit hl in
theorem Sound.already (he : lm'.entryOf = lm.entryOf) (hm : txnId ∈ (lm.entryOf resource).holders)
    (hx : ¬ ((lm.entryOf resource).mode = .shared ∧ mode = .exclusive)) :
    Acquired lm txnId resource mode lm' := by
  have hcard (t : TxnId) (ht : t ≠ txnId) (hmt : t ∈ (lm.entryOf resource).holders) :
      (lm.entryOf resource).mode = .shared := by
    cases hmode : (lm.entryOf resource).mode with
    | shared => rfl
    | exclusive => exact absurd (Finset.card_le_one.mp ((h resource).2 hmode) t hmt txnId hm) ht
  constructor
  case sound =>
    intro r
    rw [he]
    exact h r
  case kept =>
    intro t r m hg
    rw [Grants,he]
    exact hg
  case granted =>
    rw [Grants,he]
    refine ⟨hm,fun hmx => ?_⟩
    cases hmode : (lm.entryOf resource).mode with
    | shared => exact absurd ⟨hmode,hmx⟩ hx
    | exclusive => rfl
  case apart =>
    intro t m ht hg
    have hs := hcard t ht hg.1
    refine ⟨?_,?_⟩
    · cases m with
      | shared => rfl
      | exclusive => exact absurd (hs.symm.trans (hg.2 rfl)) (by simp)
    · cases mode with
      | shared => rfl
      | exclusive => exact absurd ⟨hs,rfl⟩ hx

end acquire

theorem Sound.acquire_spec (h : Sound lm) (txnId : TxnId) (resource : ResourceId)
    (mode : LockMode) : Prog.Spec (acquire txnId resource mode) lm (fun r lm' =>
      (∃ b, r = .ok b ∧ Acquired lm txnId resource mode lm') ∨
      r = .error (.err (.lockConflict txnId)) ∧ lm'.entryOf = lm.entryOf) := by
  have hsame : (setEntry resource (lm.entryOf resource) lm).entryOf = lm.entryOf := by
    funext r
    rw [entryOf_setEntry]
    split_ifs with hr
    · rw [hr]
    · rfl
  have hset (e : LockEntry) (r : ResourceId) : (setEntry resource e (setEntry resource
      (lm.entryOf resource) lm)).entryOf r = if r = resource then e else lm.entryOf r := by
    rw [entryOf_setEntry,hsame]
  rw [acquire]
  simp only [Prog.spec_get_bind,Prog.spec_modify_bind]
  split_ifs with hm hx hc hf
  · exact Or.inl ⟨true,rfl,h.upgraded (hset _) hm hc rfl⟩
  · exact Or.inr ⟨rfl,hsame⟩
  · exact Or.inl ⟨false,rfl,h.already hsame hm hx⟩
  · exact Or.inl ⟨true,rfl,h.granted_free (hset _) hf rfl⟩
  · cases hmode : (lm.entryOf resource).mode with
    | exclusive => exact Or.inr ⟨rfl,hsame⟩
    | shared =>
      cases mode with
      | exclusive => exact Or.inr ⟨rfl,hsame⟩
      | shared => exact Or.inl ⟨true,rfl,h.granted_shared (hset _) hmode rfl⟩

theorem grant_of_empty {entry : LockEntry} (h : entry.waitQueue = []) :
    grant entry = ([],entry) := by
  rw [grant,h]

theorem entryOf_erase : ({ lm with lockTable := lm.lockTable.erase resource } :
    LockManager).entryOf r =
    if r = resource then ⟨.shared,∅,[]⟩ else lm.entryOf r := by
  split_ifs with h
  · subst h
    rw [entryOf,AList.lookup_erase]
    rfl
  · rw [entryOf,AList.lookup_erase_ne h,entryOf]

theorem Sound.releaseOne (h : Sound lm) (txnId : TxnId) (resource : ResourceId) :
    Sound (releaseOne txnId lm resource) ∧
      ∀ t r m, t ≠ txnId → lm.Grants t r m → (releaseOne txnId lm resource).Grants t r m := by
  rw [LockManager.releaseOne]
  cases he : lm.lockTable.lookup resource with
  | none => exact ⟨h,fun _ _ _ _ hg => hg⟩
  | some entry =>
    have hentry : lm.entryOf resource = entry := by rw [entryOf,he]; rfl
    obtain ⟨hq,hx⟩ := h resource
    rw [hentry] at hq hx
    have hgrant : grant { entry with holders := entry.holders.erase txnId } = _ := grant_of_empty hq
    simp only [hgrant,List.foldl_nil]
    split_ifs with hempty hgone
    · refine ⟨h.replaced (fun _ => entryOf_erase) rfl (fun hm => by cases hm),fun t r m ht hg => ?_⟩
      rw [Grants,entryOf_erase]
      split_ifs with hr
      · have h1 := hg.1
        rw [hr,hentry] at h1
        have h2 := Finset.mem_erase.mpr ⟨ht,h1⟩
        rw [hempty] at h2
        exact absurd h2 (Finset.notMem_empty _)
      · exact hg
    · exact absurd ⟨hempty,hq⟩ hgone
    · refine ⟨h.replaced (fun _ => entryOf_setEntry _) hq
        (fun hm => Finset.card_erase_le.trans (hx hm)),fun t r m ht hg => ?_⟩
      rw [Grants,entryOf_setEntry]
      split_ifs with hr
      · rw [Grants,hr,hentry] at hg
        exact ⟨Finset.mem_erase.mpr ⟨ht,hg.1⟩,hg.2⟩
      · exact hg

theorem Sound.releaseAll (h : Sound lm) (txnId : TxnId) :
    Sound (releaseAll txnId lm) ∧
      ∀ t r m, t ≠ txnId → lm.Grants t r m → (releaseAll txnId lm).Grants t r m := by
  rw [LockManager.releaseAll]
  cases lm.txnLocks.lookup txnId with
  | none => exact ⟨h,fun _ _ _ _ hg => hg⟩
  | some resources =>
    have hfold (lm0 : LockManager) (h0 : Sound lm0) :
        Sound (resources.foldl (LockManager.releaseOne txnId) lm0) ∧ ∀ t r m, t ≠ txnId →
          lm0.Grants t r m → (resources.foldl (LockManager.releaseOne txnId) lm0).Grants t r m := by
      induction resources generalizing lm0 with
      | nil => exact ⟨h0,fun _ _ _ _ hg => hg⟩
      | cons r rs ih =>
        obtain ⟨h1,h2⟩ := h0.releaseOne txnId r
        obtain ⟨h3,h4⟩ := ih _ h1
        exact ⟨h3,fun t q m ht hg => h4 t q m ht (h2 t q m ht hg)⟩
    exact hfold _ h

end LockManager

end StorageDb
