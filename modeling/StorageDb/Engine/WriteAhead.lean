import Mathlib.Tactic
import StorageDb.Btree.AmplePool
import StorageDb.Btree.FailedInsert
import StorageDb.Engine.Reopening
import StorageDb.Engine.TxnEffects
import StorageDb.Wal.Bookkeeping

namespace StorageDb
open SortedAssoc Prog

namespace WalManager

variable {w : WalManager} {k : Nat} {lsn : Lsn}

-- The record exists, and everything up to it has been flushed.
def Covers (w : WalManager) (lsn : Lsn) : Prop :=
  (∃ r ∈ w.appended, r.lsn = lsn) ∧ lsn ≤ w.flushedLsn

theorem Logged.covers (h : Logged [] 0 k w)
    (hf : w.flushedLsn = 0 + UInt64.ofNat w.appended.length)
    (hr : ∃ r ∈ w.appended, r.lsn = lsn) : w.Covers lsn := by
  refine ⟨hr,?_⟩
  obtain ⟨r,hmem,rfl⟩ := hr
  obtain ⟨i,hi⟩ := List.mem_iff_getElem?.mp hmem
  have hlt : i < w.appended.length := (List.getElem?_eq_some_iff.mp hi).1
  have hsmall := h.small.2
  rw [h.lsns i r hi,hf,lsn_next,UInt64.le_iff_toNat_le,UInt64.zero_add,UInt64.zero_add,
    UInt64.toNat_ofNat',UInt64.toNat_ofNat',Nat.mod_eq_of_lt (by omega),Nat.mod_eq_of_lt (by omega)]
  exact hlt

theorem Logged.exec_grows (h : Logged [] 0 k w) {op : WalOp} (hop : op.PayloadFits) :
    Spec op.exec w (fun _ t => w.appended ⊆ t.appended) := by
  refine (h.exec_spec hop).mono fun r t ht => ?_
  cases r with
  | ok l =>
    rw [ht.2.2.entry]
    exact List.subset_append_left ..
  | error f =>
    rcases ht.grown with hg | hg <;> rw [hg]
    · exact List.Subset.refl _
    · exact List.subset_append_left ..

theorem logPageWrite_records (txnId : TxnId) (pageId : PageId) (before after : Bytes)
    (w : WalManager) : Spec (logPageWrite txnId pageId before after) w (fun r t =>
      ∀ l, r = .ok l → ∃ x ∈ t.appended, x.lsn = w.nextLsn) := by
  rw [logPageWrite,spec_get_bind]
  refine (append_spec _ w).mono ?_
  rintro r t (⟨-,rfl,-⟩ | ⟨rfl,-⟩) l hl
  · exact ⟨_,List.mem_append_right _ (List.mem_singleton_self _),rfl⟩
  · cases hl

end WalManager

namespace EngineCall

-- The log while the pages of the call are accessed: txn_put has logged, txn_delete has not yet, and
-- sync has flushed.
def logAt (w : WalManager) : EngineCall → WalManager
  | .txnPut t k v => (WalManager.logPageWrite t 0 k v w).2
  | .sync => (WalManager.flush w).2
  | _ => w

def Writes : EngineCall → Bool
  | .txnPut _ _ _ | .txnDelete _ _ => true
  | _ => false

end EngineCall

namespace StorageEngine
open BufferPoolManager BPlusTree

-- The pages that a txn_put or txn_delete has changed, and the LSN of its record.
structure Change where
  lsn : Lsn
  pages : PageId → Prop

def changes (c : EngineCall) (e e' : StorageEngine) : List Change :=
  if c.Writes then [⟨e.wal.nextLsn,fun pid => e'.pool.lookup pid ≠ e.pool.lookup pid⟩] else []

-- The pages written to the data file on the way from e to e'.
def newWrites (e e' : StorageEngine) : List (PageId × Bytes) :=
  e'.pool.disk.written.take (e'.pool.disk.written.length - e.pool.disk.written.length)

-- Each page is written after the record of every change in it: of the earlier ones, and of that of
-- the call itself if the page is not the one from before the call.
def AheadAt (past : List Change) (c : EngineCall) (e e' : StorageEngine) : Prop :=
  ∀ w ∈ newWrites e e', (∀ ch ∈ past, ch.pages w.1 → (c.logAt e.wal).Covers ch.lsn) ∧
    (c.Writes = true → (e.pool.lookup w.1).map Page.data ≠ some w.2 →
      (c.logAt e.wal).Covers e.wal.nextLsn)

def WriteAhead (fuel : Nat) : List Change → List EngineCall → StorageEngine → Prop
  | _,[],_ => True
  | past,c :: cs,e => AheadAt past c e (c.exec fuel e).2 ∧
      (Lives (c.exec fuel e).1 →
        WriteAhead fuel (past ++ changes c e (c.exec fuel e).2) cs (c.exec fuel e).2)

variable {α : Type} {fuel n : Nat} {e e' : StorageEngine} {t : RootedTree} {k v : Bytes}
  {past : List Change} {calls : List EngineCall}

theorem newWrites_nil (h : e'.pool.disk.written = e.pool.disk.written) : newWrites e e' = [] := by
  rw [newWrites,h,Nat.sub_self,List.take_zero]

theorem DataAt.still {m : Prog Error BufferPoolManager α} {n : Prog Error FlatStore α} {a : α}
    {s : FlatStore} (h : DataAt e t) (hr : Refines (Resting e.pool) m n)
    (hn : n e.pool.flat = (.ok a,s)) : Spec (onPool m) e (fun _ e' => Still e.pool e'.pool) := by
  obtain ⟨p,hrun,-,hst⟩ := hr.of_ok ⟨⟨h.quiet,rfl⟩,.refl _⟩ hn
  rw [Spec,onPool_ok hrun]
  exact hst

theorem still_aside {m : Prog Error StorageEngine α} (hm : Aside m) :
    Spec m e (fun _ e' => Still e.pool e'.pool) :=
  (hm e).mono fun _ _ he => he.1 ▸ Still.refl _

theorem DataAt.put_still (h : DataAt e t) (hs : t.InsertSafe k v) (hk : k.length ≤ maxKeySize)
    (hv : v.length ≤ maxValueSize) (hf : 12 ≤ fuel) :
    Spec (put fuel k v) e (fun _ e' => Still e.pool e'.pool) := by
  obtain ⟨tree',s',hrun,-⟩ := h.tree.insert_eq hs hk hv (h.depth_lt hf)
  rw [put,spec_get_bind]
  exact (h.still (congr_insert (resting_refines _) e.btree fuel k v) hrun).bind
    (fun _ _ h1 => h1) (fun _ _ h1 => h1)

theorem DataAt.delete_still (h : DataAt e t) (k : Bytes) (hf : 12 ≤ fuel) :
    Spec (delete fuel k) e (fun _ e' => Still e.pool e'.pool) := by
  obtain ⟨s',hrun,-⟩ := h.tree.delete_eq k (h.depth_lt hf)
  exact h.still (congr_delete (resting_refines _) e.btree fuel k) hrun

theorem DataAt.txnDelete_still (h : DataAt e t) (txnId : TxnId) (k : Bytes) (hf : 12 ≤ fuel) :
    Spec (txnDelete fuel txnId k) e (fun _ e' => Still e.pool e'.pool) := by
  refine (h.delete_still k hf).bind (fun old e1 h1 => ?_) (fun _ _ h1 => h1)
  cases old with
  | none => exact h1
  | some w =>
    have hpool : Spec (onWal (WalManager.logPageWrite txnId 0 k w)) e1
      (fun _ e2 => e2.pool = e1.pool) := rfl
    refine hpool.bind (fun _ e2 h2 => ?_) (fun _ e2 h2 => ?_)
    · rw [← h2] at h1
      exact h1
    · rw [h2]
      exact h1

theorem DataAt.exec_still (h : DataAt e t) {c : EngineCall}
    (hl : ∀ op, c.treeOp = some op → op.InLimits ∧ RootedTree.Safe op t) (hf : 12 ≤ fuel)
    (hleaves : t.leaves.length ≤ fuel) (hne : c ≠ .sync) :
    Spec (c.exec fuel) e (fun _ e' => Still e.pool e'.pool) := by
  have hread := fun p => (resting_refines p).toReadCongruence
  have hd := h.depth_lt hf
  have hmap {β γ : Type} {m : Prog Error StorageEngine β} (g : β → γ)
      (hm : Spec m e (fun _ e' => Still e.pool e'.pool)) :
      Spec (g <$> m) e (fun _ e' => Still e.pool e'.pool) :=
    hm.map (fun _ _ h => h) (fun _ _ h => h)
  cases c with
  | put k v =>
    obtain ⟨hin,hs⟩ := hl _ rfl
    exact hmap _ (h.put_still hs hin.1 hin.2 hf)
  | get k => exact hmap _ (h.still (congr_search (hread _) e.btree fuel k) (h.tree.search_eq k hd))
  | delete k => exact hmap _ (h.delete_still k hf)
  | scanAll =>
    exact hmap _ (h.still (congr_scanAll (hread _) e.btree fuel) (h.tree.scanAll_eq hd hleaves))
  | rangeScan start stop =>
    exact hmap _ (h.still (congr_rangeScan (hread _) e.btree fuel start stop)
      (h.tree.rangeScan_eq start stop hd hleaves))
  | begin => exact hmap _ (still_aside (aside_onTxns _))
  | txnPut txnId k v =>
    obtain ⟨hin,hs⟩ := hl _ rfl
    refine hmap _ (Spec.bind (Q := fun _ e1 => DataAt e1 t ∧ e1.pool = e.pool)
      ⟨h.aside (aside_onWal _),rfl⟩ (fun _ e1 h1 => ?_) (fun _ e1 h1 => h1.2 ▸ Still.refl _))
    rw [← h1.2]
    exact h1.1.put_still hs hin.1 hin.2 hf
  | txnGet txnId k =>
    exact hmap _ (h.still (congr_search (hread _) e.btree fuel k) (h.tree.search_eq k hd))
  | txnDelete txnId k => exact hmap _ (h.txnDelete_still txnId k hf)
  | commit txnId => exact hmap _ (still_aside (aside_onTxns _))
  | abort txnId => exact hmap _ (still_aside (aside_abort txnId))
  | checkpoint => exact hmap _ (still_aside aside_checkpoint)
  | sync => exact absurd rfl hne

-- The pages are flushed after the log, and only if the log has been flushed.
theorem DataAt.sync_exec (h : DataAt e t) : Spec (EngineCall.sync.exec fuel) e (fun _ e' =>
    e'.pool.disk.numPages = e.pool.disk.numPages ∧ e'.pool.capacity = e.pool.capacity ∧
      (e'.pool = e.pool ∨ (WalManager.flush e.wal).1 = .ok ())) := by
  refine Spec.map (Q := fun _ e' => e'.pool.disk.numPages = e.pool.disk.numPages ∧
    e'.pool.capacity = e.pool.capacity ∧
      (e'.pool = e.pool ∨ (WalManager.flush e.wal).1 = .ok ())) ?_ (fun _ _ h => h) (fun _ _ h => h)
  rcases hw : WalManager.flush e.wal with ⟨r,w⟩
  cases r with
  | error f =>
    have hrun : sync e = (.error f,{ e with wal := w }) := by
      refine bind_error ?_
      rw [onWal,zoom,hw]
    rw [Spec,hrun]
    exact ⟨rfl,rfl,Or.inl rfl⟩
  | ok u =>
    obtain ⟨p,hflush,-,hk,-⟩ := h.quiet.inv.flushAll_spec
    have hrun : sync e = (.ok (),{ e with wal := w, pool := p }) :=
      (bind_ok (onWal_ok hw)).trans (onPool_ok (e := { e with wal := w }) hflush)
    rw [Spec,hrun]
    exact ⟨hk.pages,hk.capacity,Or.inr rfl⟩

theorem txnPut_records (txnId : TxnId) (k v : Bytes) :
    Spec (txnPut fuel txnId k v) e (fun r e' => r ≠ .error .panic →
      ∃ x ∈ e'.wal.appended, x.lsn = e.wal.nextLsn) := by
  have hlog : Spec (onWal (WalManager.logPageWrite txnId 0 k v)) e (fun r e' =>
      (∀ l, r = .ok l → ∃ x ∈ e'.wal.appended, x.lsn = e.wal.nextLsn) ∧
        ((∃ lsn, r = .ok lsn) ∨ r = .error .panic)) :=
    ⟨WalManager.logPageWrite_records txnId 0 k v e.wal,
      WalManager.logPageWrite_cases txnId 0 k v e.wal⟩
  refine hlog.bind (fun l e1 h1 => ?_) (fun f _ h1 hne => ?_)
  · refine (storing_put fuel k v e1).mono fun _ e2 h2 _ => ?_
    rw [h2.1]
    exact h1.1 l rfl
  · rcases h1.2 with ⟨_,hr⟩ | hr
    · cases hr
    · exact absurd hr (fun hr => hne (by rw [Except.error.inj hr]))

theorem DataAt.delete_absent (h : DataAt e t) (k : Bytes) (hf : 12 ≤ fuel) :
    Spec (delete fuel k) e (fun r e' => e'.wal = e.wal ∧
      (r = .ok none → e'.pool.flat = e.pool.flat)) := by
  obtain ⟨s',hrun,-,hsame⟩ := h.tree.toTreeOn.delete_eq k (h.depth_lt hf)
  obtain ⟨p',hrun',hq,rfl⟩ := (congr_delete models_refines e.btree fuel k).of_ok ⟨h.quiet,rfl⟩ hrun
  rw [delete,spec_get_bind,Spec,onPool_ok hrun']
  exact ⟨rfl,fun hr => hsame (Except.ok.inj hr)⟩

theorem DataAt.txnDelete_records (h : DataAt e t) (txnId : TxnId) (k : Bytes) (hf : 12 ≤ fuel) :
    Spec (txnDelete fuel txnId k) e (fun r e' => (∃ a, r = .ok a) → ∀ pid,
      e'.pool.lookup pid ≠ e.pool.lookup pid → ∃ x ∈ e'.wal.appended, x.lsn = e.wal.nextLsn) := by
  refine (h.delete_absent k hf).bind (fun old e1 h1 => ?_) (fun _ _ _ hr => ?_)
  · cases old with
    | none =>
      intro _ pid hne
      exact absurd (congrArg (fun s => FlatStore.pages s pid) (h1.2 rfl)) hne
    | some w =>
      have hlog : Spec (onWal (WalManager.logPageWrite txnId 0 k w)) e1 (fun r e' =>
          ∀ l, r = .ok l → ∃ x ∈ e'.wal.appended, x.lsn = e.wal.nextLsn) := by
        rw [← h1.1]
        exact WalManager.logPageWrite_records txnId 0 k w e1.wal
      refine hlog.bind (fun l e2 h2 _ pid _ => h2 l rfl) (fun _ _ _ hr => ?_)
      obtain ⟨a,hr⟩ := hr
      cases hr
  · obtain ⟨a,hr⟩ := hr
    cases hr

theorem DataAt.exec_records (h : DataAt e t) {c : EngineCall} (hc : c.Writes = true)
    (hl : ∀ op, c.treeOp = some op → op.InLimits ∧ RootedTree.Safe op t) (hf : 12 ≤ fuel)
    (hleaves : t.leaves.length ≤ fuel) : Spec (c.exec fuel) e (fun r e' => Lives r → ∀ pid,
      e'.pool.lookup pid ≠ e.pool.lookup pid → ∃ x ∈ e'.wal.appended, x.lsn = e.wal.nextLsn) := by
  cases c with
  | txnPut txnId k v =>
    refine (txnPut_records txnId k v).map (fun _ _ h1 _ _ _ => h1 (by simp)) ?_
    exact fun f _ h1 hlive _ _ => h1 (fun he => hlive.1 (by rw [Except.error.inj he]))
  | txnDelete txnId k =>
    have hans := (h.exec_spec (.txnDelete txnId k) hl hf hleaves).1
    have hrec : Spec ((EngineCall.txnDelete txnId k).exec fuel) e (fun r e' => (∃ a, r = .ok a) →
        ∀ pid, e'.pool.lookup pid ≠ e.pool.lookup pid →
          ∃ x ∈ e'.wal.appended, x.lsn = e.wal.nextLsn) := by
      refine (h.txnDelete_records txnId k hf).map (fun _ _ h1 _ => h1 ⟨_,rfl⟩) ?_
      rintro f _ - ⟨a,hr⟩
      cases hr
    exact fun hlive => hrec ⟨_,hans.resolve_right hlive.1⟩
  | _ => cases hc

-- What the log knows of the changes so far.
structure Recorded (n : Nat) (past : List Change) (e : StorageEngine) : Prop where
  bare : TransactionManager.Bare n e.txnManager
  log : ∃ k, WalManager.Logged [] 0 k e.wal
  found : ∀ ch ∈ past, ∀ pid, ch.pages pid → ∃ r ∈ e.wal.appended, r.lsn = ch.lsn

theorem Recorded.exec_log (h : Recorded n past e) {c : EngineCall} (hc : c.Small)
    (hn : n ≤ 2 ^ 28) : Spec (c.exec fuel) e (fun r e' => Lives r →
      (∃ k, WalManager.Logged [] 0 k e'.wal) ∧ e.wal.appended ⊆ e'.wal.appended) := by
  obtain ⟨k,hk⟩ := h.log
  refine (c.exec_effect fuel e).mono fun r e' heff hlive => ?_
  obtain ⟨o,hm,hw,hf⟩ := heff.log
  cases o with
  | none =>
    have hw : e'.wal = e.wal := hw
    rw [hw]
    exact ⟨⟨k,hk⟩,List.Subset.refl _⟩
  | some op =>
    have hfits := (hc.rooted (h.bare.count.trans hn) hm).fits
    have hw : e'.wal = (op.exec e.wal).2 := hw
    rw [hw]
    refine ⟨⟨k,hk.exec_logged hfits rfl fun hp => hlive.1 (hf op rfl _ hp)⟩,?_⟩
    exact hk.exec_grows hfits

theorem Recorded.exec (h : Recorded n past e) (hd : DataAt e t) {c : EngineCall} (hc : c.Small)
    (hn : n ≤ 2 ^ 28) (hl : ∀ op, c.treeOp = some op → op.InLimits ∧ RootedTree.Safe op t)
    (hf : 12 ≤ fuel) (hleaves : t.leaves.length ≤ fuel) (hlive : Lives (c.exec fuel e).1) :
    Recorded (n + 1) (past ++ changes c e (c.exec fuel e).2) (c.exec fuel e).2 := by
  obtain ⟨hlog,hsub⟩ := (h.exec_log hc hn : Spec (c.exec fuel) e _) hlive
  refine ⟨h.bare.moves (exec_moves c fuel e),hlog,fun ch hch pid hpid => ?_⟩
  rcases List.mem_append.mp hch with hch | hch
  · obtain ⟨r,hr,hlsn⟩ := h.found ch hch pid hpid
    exact ⟨r,hsub hr,hlsn⟩
  · rw [changes] at hch
    split_ifs at hch with hw
    · obtain rfl := List.mem_singleton.mp hch
      exact (hd.exec_records hw hl hf hleaves : Spec (c.exec fuel) e _) hlive pid hpid
    · cases hch

theorem Recorded.flush_covers (h : Recorded n past e) (hok : (WalManager.flush e.wal).1 = .ok ())
    {ch : Change} (hch : ch ∈ past) {pid : PageId} (hpid : ch.pages pid) :
    (WalManager.flush e.wal).2.Covers ch.lsn := by
  obtain ⟨k,hk⟩ := h.log
  obtain ⟨happ,-,hlog,-,hmark⟩ := hk.flush_spec.of_eq (run_eq hok)
  refine hlog.covers hmark ?_
  rw [happ]
  exact h.found ch hch pid hpid

theorem DataAt.exec_pages (h : DataAt e t) {c : EngineCall}
    (hl : ∀ op, c.treeOp = some op → op.InLimits ∧ RootedTree.Safe op t) (hf : 12 ≤ fuel)
    (hleaves : t.leaves.length ≤ fuel) : Spec (c.exec fuel) e (fun _ e' =>
      e.pool.disk.numPages.toNat ≤ e'.pool.disk.numPages.toNat ∧
        (e'.pool.disk.numPages.toNat ≤ e.pool.capacity → e'.pool.capacity = e.pool.capacity)) := by
  by_cases hc : c = .sync
  · subst hc
    exact h.sync_exec.mono fun _ e' hs => ⟨hs.1.symm ▸ le_rfl,fun _ => hs.2.1⟩
  · exact (h.exec_still hl hf hleaves hc).mono fun _ e' hs => ⟨hs.pages,hs.capacity⟩

theorem DataAt.run_pages (h : DataAt e t)
    (hl : ∀ op ∈ calls.filterMap EngineCall.treeOp, op.InLimits)
    (hs : RootedTree.Along RootedTree.Safe (calls.filterMap EngineCall.treeOp) t)
    (hf : 12 ≤ fuel) (hleaves : t.leaves.length + calls.length ≤ fuel) :
    e.pool.disk.numPages.toNat ≤ (StorageEngine.run fuel calls e).2.pool.disk.numPages.toNat := by
  induction calls generalizing e t with
  | nil => exact le_rfl
  | cons c calls ih =>
    rw [List.length_cons] at hleaves
    obtain ⟨hfirst,hl',hs'⟩ := safe_cons hl hs
    have hle := ((h.exec_pages hfirst hf (by omega) : Spec (c.exec fuel) e _)).1
    by_cases hlive : Lives (c.exec fuel e).1
    · have hnext := ((h.exec_spec c hfirst hf (by omega) : Spec (c.exec fuel) e _)).2 hlive
      have hlen := leaves_treeAfter t c
      rw [run_cons rfl hlive]
      exact hle.trans (ih hnext hl' hs' (by omega))
    · rw [run_cons_dead rfl hlive]
      exact hle

theorem DataAt.aheadAt (h : DataAt e t) (hr : Recorded n past e) {c : EngineCall}
    (hl : ∀ op, c.treeOp = some op → op.InLimits ∧ RootedTree.Safe op t) (hf : 12 ≤ fuel)
    (hleaves : t.leaves.length ≤ fuel)
    (hroom : (c.exec fuel e).2.pool.disk.numPages.toNat ≤ e.pool.capacity) :
    AheadAt past c e (c.exec fuel e).2 := by
  by_cases hc : c = .sync
  · subst hc
    obtain ⟨-,-,hpool | hok⟩ := (h.sync_exec : Spec (EngineCall.sync.exec fuel) e _)
    · intro w hw
      rw [newWrites_nil (by rw [hpool])] at hw
      cases hw
    · exact fun w hw => ⟨fun ch hch hpid => hr.flush_covers hok hch hpid,fun hw => (by cases hw)⟩
  · have hst : Still _ _ := (h.exec_still hl hf hleaves hc : Spec (c.exec fuel) e _)
    intro w hw
    rw [newWrites_nil (hst.written hroom)] at hw
    cases hw

theorem DataAt.writeAhead (h : DataAt e t) (hr : Recorded n past e)
    (hl : ∀ op ∈ calls.filterMap EngineCall.treeOp, op.InLimits)
    (hs : RootedTree.Along RootedTree.Safe (calls.filterMap EngineCall.treeOp) t)
    (hsmall : ∀ c ∈ calls, c.Small) (hn : n + calls.length ≤ 2 ^ 28)
    (hf : 12 ≤ fuel) (hleaves : t.leaves.length + calls.length ≤ fuel)
    (hroom : (StorageEngine.run fuel calls e).2.pool.disk.numPages.toNat ≤ e.pool.capacity) :
    WriteAhead fuel past calls e := by
  induction calls generalizing e t n past with
  | nil => trivial
  | cons c calls ih =>
    rw [List.length_cons] at hleaves hn
    obtain ⟨hfirst,hl',hs'⟩ := safe_cons hl hs
    have hpages := (h.exec_pages hfirst hf (by omega) : Spec (c.exec fuel) e _)
    have hlen := leaves_treeAfter t c
    by_cases hlive : Lives (c.exec fuel e).1
    · have hnext := ((h.exec_spec c hfirst hf (by omega) : Spec (c.exec fuel) e _)).2 hlive
      rw [run_cons rfl hlive] at hroom
      have hle := (hnext.run_pages hl' hs' hf (by omega)).trans hroom
      refine ⟨h.aheadAt hr hfirst hf (by omega) hle,fun _ => ?_⟩
      have hr' := hr.exec h (hsmall c List.mem_cons_self) (by omega) hfirst hf (by omega) hlive
      refine ih hnext hr' hl' hs' (fun x hx => hsmall x (List.mem_cons_of_mem _ hx)) (by omega)
        (by omega) ?_
      rw [hpages.2 hle]
      exact hroom
    · rw [run_cons_dead rfl hlive] at hroom
      exact ⟨h.aheadAt hr hfirst hf (by omega) hroom,fun hx => absurd hx hlive⟩

def syncedWrites : List EngineCall :=
  [.begin,.txnPut 1 [1] [2],.get [1],.sync,.txnDelete 1 [1],.commit 1,.sync]

theorem WriteAhead.drop {later : List EngineCall} (h : WriteAhead fuel past (calls ++ later) e)
    (hlive : ∀ r ∈ (run fuel calls e).1, Lives r) :
    ∃ past', WriteAhead fuel past' later (run fuel calls e).2 := by
  induction calls generalizing e past with
  | nil => exact ⟨past,h⟩
  | cons x calls ih =>
    obtain ⟨hx,hrun⟩ := run_live_cons hlive
    rw [hrun] at hlive ⊢
    exact ih (h.2 hx) fun r hr => hlive r (List.mem_cons_of_mem _ hr)

theorem AheadAt.covers {c c' : EngineCall} {e₀ : StorageEngine} {w : PageId × Bytes}
    (h : AheadAt (past ++ changes c e₀ e) c' e e') (hc : c.Writes = true)
    (hw : w ∈ newWrites e e') (hpage : e.pool.lookup w.1 ≠ e₀.pool.lookup w.1) :
    (c'.logAt e.wal).Covers e₀.wal.nextLsn := by
  refine (h w hw).1 ⟨e₀.wal.nextLsn,fun pid => e.pool.lookup pid ≠ e₀.pool.lookup pid⟩
    (List.mem_append_right _ ?_) hpage
  rw [changes,if_pos hc]
  exact List.mem_singleton_self _

theorem mem_newWrites {h : List (PageId × Bytes)} {w : PageId × Bytes}
    (hold : e.pool.disk.history <:+ h) (hlt : e.pool.disk.history.length < h.length)
    (hnew : h <:+ e'.pool.disk.history) (hw : h.head? = some w) (hne : w.2.any (· ≠ 0) = true) :
    w ∈ newWrites e e' := by
  obtain ⟨new,rfl⟩ := hold
  obtain ⟨newer,hnewer⟩ := hnew
  have hmem : w ∈ new := by
    cases new with
    | nil => exact absurd hlt (lt_irrefl _)
    | cons x new =>
      cases hw
      exact List.mem_cons_self
  rw [newWrites,DiskManager.written,DiskManager.written,← hnewer,← List.append_assoc,
    List.filter_append,List.length_append,Nat.add_sub_cancel,List.take_left]
  exact List.mem_filter.mpr ⟨List.mem_append_right _ hmem,hne⟩

theorem txnPut_pool {txnId : TxnId} {lsn : Lsn} {w : WalManager}
    (hlog : WalManager.logPageWrite txnId 0 k v e.wal = (.ok lsn,w)) :
    ((EngineCall.txnPut txnId k v).exec fuel e).2.pool = (e.btree.insert fuel k v e.pool).2 := by
  have hput : (put fuel k v { e with wal := w }).2.pool = (e.btree.insert fuel k v e.pool).2 := by
    rw [put,get_bind_run]
    refine preserves_after
      (I := fun e' : StorageEngine => e'.pool = (e.btree.insert fuel k v e.pool).2) rfl fun x => ?_
    exact preserves_modify fun _ h => h
  have htxn : (txnPut fuel txnId k v e).2.pool = (e.btree.insert fuel k v e.pool).2 := by
    rw [txnPut,bind_ok (onWal_ok hlog)]
    exact hput
  exact preserves_after
    (I := fun e' : StorageEngine => e'.pool = (e.btree.insert fuel k v e.pool).2) htxn
    fun _ => preserves_pure _

-- What a put into a full leaf writes first: the page that makes room for the right half.
theorem txnPut_evicts {txnId : TxnId} {lsn : Lsn} {w : WalManager} {leafId : PageId} {i : Nat}
    {p p' : BufferPoolManager} {nd : BTreeNode} {es : List (Bytes × Bytes)} {x : PageId × Bytes}
    (hlog : WalManager.logPageWrite txnId 0 k v e.wal = (.ok lsn,w))
    (hfind : e.btree.findLeaf fuel k e.pool = (.ok leafId,p))
    (hread : readNode leafId p = (.ok nd,p')) (hslot : nd.leafFindSlot k = some (i,false))
    (hfull : nd.leafCanFit k v = some false) (hes : nd.leafEntries = some es)
    (hlt : e.pool.disk.history.length < (allocatePage p').2.disk.history.length)
    (hx : (allocatePage p').2.disk.history.head? = some x) (hne : x.2.any (· ≠ 0) = true) :
    x ∈ newWrites e ((EngineCall.txnPut txnId k v).exec fuel e).2 := by
  have hgrown := grown_congruence e.pool.disk.history
  have hp : GrownFrom e.pool.disk.history p := by
    have hdescend : GrownFrom e.pool.disk.history (e.btree.findLeaf fuel k e.pool).2 :=
      congr_descend hgrown.toReadCongruence _ fuel _ e.pool (List.suffix_refl _)
    rw [hfind] at hdescend
    exact hdescend
  have hp' : GrownFrom e.pool.disk.history p' := by
    have hnode : GrownFrom e.pool.disk.history (readNode leafId p).2 := hgrown.read leafId p hp
    rw [hread] at hnode
    exact hnode
  refine mem_newWrites (hgrown.alloc p' hp') hlt ?_ hx hne
  rw [txnPut_pool hlog,BPlusTree.insert,bind_ok hfind]
  exact insertAt_allocates (grown_congruence _) hread hslot hfull hes (List.suffix_refl _)

def oneFrame : StorageEngine := (open_ (mount emptyDir 1 [] [])).2

def longPut (i : UInt8) : EngineCall := .txnPut 1 (fullKey i) fullValue

def sixPuts : StorageEngine := (run 20 (.begin :: [1,2,3,4,5,6].map longPut) oneFrame).2

def sevenPuts : StorageEngine := ((longPut 7).exec 20 sixPuts).2

-- The pool as the eighth put reads its leaf.
def atLeaf : BufferPoolManager := (sevenPuts.btree.findLeaf 20 (fullKey 8) sevenPuts.pool).2

end StorageEngine

end StorageDb
