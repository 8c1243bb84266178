import Mathlib.Tactic
import StorageDb.Btree.Height
import StorageDb.Btree.TreeContract
import StorageDb.Engine.LogShape

namespace StorageDb
open SortedAssoc SepChain Prog

namespace EngineCall

def treeOp : EngineCall → Option TreeOp
  | .put k v => some (.insert k v)
  | .get k => some (.search k)
  | .delete k => some (.delete k)
  | .txnPut _ k v => some (.insert k v)
  | .txnGet _ k => some (.search k)
  | .txnDelete _ k => some (.delete k)
  | _ => none

def after (m : KvMap) (c : EngineCall) : KvMap := c.treeOp.elim m fun op => (KvMap.apply op m).2

-- The reply of each call on a store that holds m. A call that logs may also panic, when the log's
-- buffer or its offset overflows.
def Answers (m : KvMap) : EngineCall → Except (Fault Error) EngineReply → Prop
  | .put _ _, r => r = .ok .done
  | .get k, r => r = .ok (.value (m k))
  | .delete k, r => r = .ok (.value (m k))
  | .scanAll, r => ∃ es, r = .ok (.entries es) ∧ Sorted es ∧ ∀ k v, (k,v) ∈ es ↔ m k = some v
  | .rangeScan start stop, r => ∃ es, r = .ok (.entries es) ∧ Sorted es ∧
      ∀ k v, (k,v) ∈ es ↔ m k = some v ∧ start ≤ k ∧ k ≤ stop
  | .txnPut _ _ _, r => r = .ok .done ∨ r = .error .panic
  | .txnGet _ k, r => r = .ok (.value (m k))
  | .txnDelete _ k, r => r = .ok (.value (m k)) ∨ r = .error .panic
  | _, _ => True

end EngineCall

theorem WalManager.append_cases (record : LogRecord) (w : WalManager) :
    Spec (append record) w (fun r _ => (∃ lsn, r = .ok lsn) ∨ r = .error .panic) := by
  simp only [append,spec_get_bind,spec_modify_bind]
  split_ifs
  · exact Or.inl ⟨_,rfl⟩
  · exact Or.inr rfl
  · exact Or.inr rfl

theorem WalManager.logPageWrite_cases (txnId : TxnId) (pageId : PageId) (before after : Bytes)
    (w : WalManager) : Spec (logPageWrite txnId pageId before after) w
      (fun r _ => (∃ lsn, r = .ok lsn) ∨ r = .error .panic) := by
  rw [logPageWrite,spec_get_bind]
  exact append_cases _ w

namespace StorageEngine
open BufferPoolManager BPlusTree

variable {α : Type} {fuel : Nat} {e : StorageEngine} {t : RootedTree} {k v : Bytes}

structure DataAt (e : StorageEngine) (t : RootedTree) : Prop where
  quiet : Quiet e.pool
  tree : TreeAt e.pool.flat e.btree t
  compact : t.Compact 0

theorem DataAt.depth_lt (h : DataAt e t) (hf : 12 ≤ fuel) : t.depth < fuel :=
  (Nat.lt_succ_of_le (h.compact.depth_le h.tree.wf.next)).trans_le hf

def Aside (m : Prog Error StorageEngine α) : Prop :=
  ∀ e, Spec m e (fun _ e' => e'.pool = e.pool ∧ e'.btree = e.btree)

theorem aside_onWal (m : Prog Error WalManager α) : Aside (onWal m) := fun _ => ⟨rfl,rfl⟩

theorem aside_onTxns (m : Prog Error TxnSystem α) : Aside (onTxns m) := fun _ => ⟨rfl,rfl⟩

theorem aside_get_bind {f : StorageEngine → Prog Error StorageEngine α} (h : ∀ e, Aside (f e)) :
    Aside (Prog.get >>= f) := fun e => h e e

theorem Aside.map {β : Type} {m : Prog Error StorageEngine α} (h : Aside m) (g : α → β) :
    Aside (g <$> m) := fun e => (h e).map (fun _ _ h => h) (fun _ _ h => h)

theorem aside_abort (txnId : TxnId) : Aside (abortTransaction txnId) :=
  (aside_onTxns (TxnSystem.abort txnId)).map fun _ => ()

theorem aside_checkpoint : Aside checkpoint :=
  aside_get_bind fun e =>
    (aside_onWal (WalManager.logCheckpoint e.txnManager.activeTransactionIds)).map fun _ => ()

theorem DataAt.aside {m : Prog Error StorageEngine α} (h : DataAt e t) (hm : Aside m) :
    Spec m e (fun _ e' => DataAt e' t) := by
  refine (hm e).mono fun _ e' he => ⟨?_,?_,h.compact⟩
  · rw [he.1]
    exact h.quiet
  · rw [he.1,he.2]
    exact h.tree

theorem DataAt.reads {m : Prog Error BufferPoolManager α} {n : Prog Error FlatStore α} {a : α}
    (h : DataAt e t) (hr : Refines Models m n) (hn : n e.pool.flat = (.ok a,e.pool.flat)) :
    Spec (onPool m) e (fun r e' => r = .ok a ∧ DataAt e' t) := by
  obtain ⟨p',hrun,hq,hflat⟩ := hr.of_ok ⟨h.quiet,rfl⟩ hn
  rw [Spec,onPool_ok hrun]
  exact ⟨rfl,hq,hflat ▸ h.tree,h.compact⟩

theorem DataAt.put_spec (h : DataAt e t) (hs : t.InsertSafe k v) (hk : k.length ≤ maxKeySize)
    (hv : v.length ≤ maxValueSize) (hf : 12 ≤ fuel) :
    Spec (put fuel k v) e (fun r e' => r = .ok () ∧ DataAt e' (t.insert k v)) := by
  obtain ⟨tree',s',hrun,hat⟩ := h.tree.insert_eq hs hk hv (h.depth_lt hf)
  obtain ⟨p',hrun',hq,rfl⟩ := (congr_insert models_refines e.btree fuel k v).of_ok
    ⟨h.quiet,rfl⟩ hrun
  rw [put,spec_get_bind,spec_bind_ok (onPool_ok hrun')]
  exact ⟨rfl,hq,hat,h.compact.insert h.tree.wf hk⟩

theorem DataAt.get_spec (h : DataAt e t) (k : Bytes) (hf : 12 ≤ fuel) :
    Spec (get fuel k) e (fun r e' => r = .ok (t.toMap k) ∧ DataAt e' t) :=
  h.reads (congr_search models_refines.toReadCongruence e.btree fuel k)
    (h.tree.search_eq k (h.depth_lt hf))

theorem DataAt.delete_spec (h : DataAt e t) (k : Bytes) (hf : 12 ≤ fuel) :
    Spec (delete fuel k) e (fun r e' => r = .ok (t.toMap k) ∧ DataAt e' (t.delete k)) := by
  obtain ⟨s',hrun,hat⟩ := h.tree.delete_eq k (h.depth_lt hf)
  obtain ⟨p',hrun',hq,rfl⟩ := (congr_delete models_refines e.btree fuel k).of_ok ⟨h.quiet,rfl⟩ hrun
  rw [delete,spec_get_bind,Spec,onPool_ok hrun']
  exact ⟨rfl,hq,hat,h.compact.delete k⟩

theorem DataAt.scanAll_spec (h : DataAt e t) (hf : 12 ≤ fuel) (hl : t.leaves.length ≤ fuel) :
    Spec (scanAll fuel) e (fun r e' => r = .ok t.contents ∧ DataAt e' t) :=
  h.reads (congr_scanAll models_refines.toReadCongruence e.btree fuel)
    (h.tree.scanAll_eq (h.depth_lt hf) hl)

theorem DataAt.rangeScan_spec (h : DataAt e t) (start stop : Bytes) (hf : 12 ≤ fuel)
    (hl : t.leaves.length ≤ fuel) : Spec (rangeScan fuel start stop) e
      (fun r e' => r = .ok (between start stop t.contents) ∧ DataAt e' t) :=
  h.reads (congr_rangeScan models_refines.toReadCongruence e.btree fuel start stop)
    (h.tree.rangeScan_eq start stop (h.depth_lt hf) hl)

theorem DataAt.sync_spec (h : DataAt e t) : Spec sync e (fun _ e' => DataAt e' t) := by
  refine (h.aside (aside_onWal _)).bind (fun _ e1 h1 => ?_) (fun _ _ h1 => h1)
  obtain ⟨p',hrun,hinv,hk,-⟩ := h1.quiet.inv.flushAll_spec
  rw [Spec,onPool_ok hrun]
  refine ⟨⟨hinv,h1.quiet.keeps hk⟩,?_,h1.compact⟩
  change TreeAt p'.flat e1.btree t
  rw [flat_congr hk.lookup hk.pages]
  exact h1.tree

theorem DataAt.txnPut_spec (h : DataAt e t) (txnId : TxnId) (hs : t.InsertSafe k v)
    (hk : k.length ≤ maxKeySize) (hv : v.length ≤ maxValueSize) (hf : 12 ≤ fuel) :
    Spec (txnPut fuel txnId k v) e (fun r e' =>
      r = .ok () ∧ DataAt e' (t.insert k v) ∨ r = .error .panic) := by
  have hlog : Spec (onWal (WalManager.logPageWrite txnId 0 k v)) e
      (fun r e' => DataAt e' t ∧ ((∃ lsn, r = .ok lsn) ∨ r = .error .panic)) :=
    ⟨h.aside (aside_onWal _),WalManager.logPageWrite_cases txnId 0 k v e.wal⟩
  refine hlog.bind (fun _ e1 h1 => ?_) (fun f _ h1 => ?_)
  · exact (h1.1.put_spec hs hk hv hf).mono fun _ _ hr => Or.inl hr
  · rcases h1.2 with ⟨_,hr⟩ | hr
    · cases hr
    · cases hr
      exact Or.inr rfl

theorem DataAt.txnDelete_spec (h : DataAt e t) (txnId : TxnId) (k : Bytes) (hf : 12 ≤ fuel) :
    Spec (txnDelete fuel txnId k) e (fun r e' =>
      r = .ok (t.toMap k) ∧ DataAt e' (t.delete k) ∨ r = .error .panic) := by
  refine (h.delete_spec k hf).bind (fun old e1 h1 => ?_) (fun _ _ h1 => (by cases h1.1))
  obtain ⟨hold,h1⟩ := h1
  cases hold
  cases hm : t.toMap k with
  | none => exact Or.inl ⟨rfl,h1⟩
  | some w =>
    have hlog : Spec (onWal (WalManager.logPageWrite txnId 0 k w)) e1 (fun r e' =>
        DataAt e' (t.delete k) ∧ ((∃ lsn, r = .ok lsn) ∨ r = .error .panic)) :=
      ⟨h1.aside (aside_onWal _),WalManager.logPageWrite_cases txnId 0 k w e1.wal⟩
    refine hlog.bind (fun _ e2 h2 => Or.inl ⟨rfl,h2.1⟩) (fun f _ h2 => ?_)
    rcases h2.2 with ⟨_,hr⟩ | hr
    · cases hr
    · cases hr
      exact Or.inr rfl

theorem DataAt.mem_contents (h : DataAt e t) : (k,v) ∈ t.contents ↔ t.toMap k = some v :=
  (find_eq_some h.tree.sound.sorted).symm

theorem DataAt.mem_between (h : DataAt e t) {start stop : Bytes} :
    (k,v) ∈ between start stop t.contents ↔ t.toMap k = some v ∧ start ≤ k ∧ k ≤ stop := by
  rw [between,List.mem_filter,h.mem_contents,decide_eq_true_iff]

def treeAfter (t : RootedTree) (c : EngineCall) : RootedTree := c.treeOp.elim t fun op => t.apply op

theorem DataAt.toMap_after (h : DataAt e t) (c : EngineCall) :
    (treeAfter t c).toMap = c.after t.toMap := by
  have hop (op : TreeOp) : (t.apply op).toMap = (KvMap.apply op t.toMap).2 := by
    cases op with
    | insert k v => exact RootedTree.toMap_insert k v h.tree.sound
    | delete k => exact RootedTree.toMap_delete k h.tree.sound
    | search k => rfl
  rw [treeAfter,EngineCall.after]
  cases c.treeOp with
  | none => rfl
  | some op => exact hop op

theorem spec_reply {m : Prog Error StorageEngine α} {a : α} {t' : RootedTree}
    (hm : Spec m e (fun r e' => r = .ok a ∧ DataAt e' t')) (g : α → EngineReply) :
    Spec (g <$> m) e (fun r e' => r = .ok (g a) ∧ (Lives r → DataAt e' t')) := by
  refine hm.map (fun b e' hb => ?_) (fun f _ hb => (by cases hb.1))
  obtain ⟨hb,he⟩ := hb
  cases hb
  exact ⟨rfl,fun _ => he⟩

theorem spec_reply_or_panic {m : Prog Error StorageEngine α} {a : α} {t' : RootedTree}
    (hm : Spec m e (fun r e' => r = .ok a ∧ DataAt e' t' ∨ r = .error .panic))
    (g : α → EngineReply) :
    Spec (g <$> m) e (fun r e' =>
      (r = .ok (g a) ∨ r = .error .panic) ∧ (Lives r → DataAt e' t')) := by
  refine hm.map (fun b e' hb => ?_) (fun f _ hb => ?_)
  · rcases hb with ⟨hb,he⟩ | hb
    · cases hb
      exact ⟨Or.inl rfl,fun _ => he⟩
    · cases hb
  · rcases hb with ⟨hb,-⟩ | hb
    · cases hb
    · cases hb
      exact ⟨Or.inr rfl,fun hlive => absurd rfl hlive.1⟩

theorem DataAt.exec_spec (h : DataAt e t) (c : EngineCall)
    (hl : ∀ op, c.treeOp = some op → op.InLimits ∧ RootedTree.Safe op t) (hf : 12 ≤ fuel)
    (hleaves : t.leaves.length ≤ fuel) : Spec (c.exec fuel) e (fun r e' =>
      c.Answers t.toMap r ∧ (Lives r → DataAt e' (treeAfter t c))) := by
  have haside {m : Prog Error StorageEngine Unit} (hm : Aside m) :
    Spec ((fun _ => EngineReply.done) <$> m)
      e (fun r e' => True ∧ (Lives r → DataAt e' t)) :=
    (h.aside (hm.map _)).mono fun _ _ he => ⟨trivial,fun _ => he⟩
  cases c with
  | put k v =>
    obtain ⟨hin,hs⟩ := hl _ rfl
    exact spec_reply (h.put_spec hs hin.1 hin.2 hf) _
  | get k => exact spec_reply (h.get_spec k hf) _
  | delete k => exact spec_reply (h.delete_spec k hf) _
  | scanAll =>
    refine (spec_reply (h.scanAll_spec hf hleaves) .entries).mono fun r e' hr => ?_
    exact ⟨⟨_,hr.1,h.tree.sound.sorted,fun k v => h.mem_contents⟩,hr.2⟩
  | rangeScan start stop =>
    refine (spec_reply (h.rangeScan_spec start stop hf hleaves) .entries).mono fun r e' hr => ?_
    exact ⟨⟨_,hr.1,List.Pairwise.filter _ h.tree.sound.sorted,fun k v => h.mem_between⟩,hr.2⟩
  | begin => exact (h.aside ((aside_onTxns _).map _)).mono fun _ _ he => ⟨trivial,fun _ => he⟩
  | txnPut txnId k v =>
    obtain ⟨hin,hs⟩ := hl _ rfl
    exact spec_reply_or_panic (h.txnPut_spec txnId hs hin.1 hin.2 hf) _
  | txnGet txnId k => exact spec_reply (h.get_spec k hf) _
  | txnDelete txnId k => exact spec_reply_or_panic (h.txnDelete_spec txnId k hf) _
  | commit txnId => exact haside (aside_onTxns _)
  | abort txnId => exact haside (aside_abort txnId)
  | checkpoint => exact haside aside_checkpoint
  | sync =>
    refine (h.sync_spec.map (R := fun _ e' => DataAt e' t) (fun _ _ he => he)
      (fun _ _ he => he)).mono ?_
    exact fun _ _ he => ⟨trivial,fun _ => he⟩

-- Every reply of a session is that of the map which its puts and deletes have made, in the order
-- of the calls and whatever transactions they name.
def Serves (fuel : Nat) : List EngineCall → StorageEngine → KvMap → Prop
  | [],_,_ => True
  | c :: cs,e,m => c.Answers m (c.exec fuel e).1 ∧
      (Lives (c.exec fuel e).1 → Serves fuel cs (c.exec fuel e).2 (c.after m))

theorem leaves_treeAfter (t : RootedTree) (c : EngineCall) :
    (treeAfter t c).leaves.length ≤ t.leaves.length + 1 := by
  rw [treeAfter]
  cases c.treeOp with
  | none => exact Nat.le_succ _
  | some op =>
    have hle := RootedTree.leaves_apply op t
    have hone : [op].countP TreeOp.isInsert ≤ 1 := List.countP_le_length
    exact hle.trans (Nat.add_le_add_left hone _)

theorem safe_cons {c : EngineCall} {calls : List EngineCall}
    (hl : ∀ op ∈ (c :: calls).filterMap EngineCall.treeOp, op.InLimits)
    (hs : RootedTree.Along RootedTree.Safe ((c :: calls).filterMap EngineCall.treeOp) t) :
    (∀ op, c.treeOp = some op → op.InLimits ∧ RootedTree.Safe op t) ∧
      (∀ op ∈ calls.filterMap EngineCall.treeOp, op.InLimits) ∧
      RootedTree.Along RootedTree.Safe (calls.filterMap EngineCall.treeOp) (treeAfter t c) := by
  rw [treeAfter]
  cases hop : c.treeOp with
  | none =>
    rw [List.filterMap_cons_none hop] at hl hs
    exact ⟨fun op h => (by cases h),hl,hs⟩
  | some op =>
    rw [List.filterMap_cons_some hop] at hl hs
    refine ⟨fun x hx => ?_,fun x hx => hl x (List.mem_cons_of_mem _ hx),hs.2⟩
    cases hx
    exact ⟨hl op List.mem_cons_self,hs.1⟩

theorem DataAt.serves (h : DataAt e t) {calls : List EngineCall}
    (hl : ∀ op ∈ calls.filterMap EngineCall.treeOp, op.InLimits)
    (hs : RootedTree.Along RootedTree.Safe (calls.filterMap EngineCall.treeOp) t)
    (hf : 12 ≤ fuel) (hleaves : t.leaves.length + calls.length ≤ fuel) :
    Serves fuel calls e t.toMap := by
  induction calls generalizing e t with
  | nil => trivial
  | cons c calls ih =>
    rw [List.length_cons] at hleaves
    obtain ⟨hfirst,hl',hs'⟩ := safe_cons hl hs
    obtain ⟨hans,hnext⟩ := h.exec_spec c hfirst hf (by omega)
    refine ⟨hans,fun hlive => ?_⟩
    rw [← h.toMap_after c]
    refine ih (hnext hlive) hl' hs' ?_
    have hle := leaves_treeAfter t c
    omega

theorem openTree_fresh {capacity : Nat} (hp : e.pool = .new (.open_ [] []) capacity)
    (hc : 1 ≤ capacity) : Spec openTree e (fun r e' => r = .ok () ∧ e'.wal = e.wal ∧
      DataAt e' (RootedTree.single 0)) := by
  obtain ⟨hq,-⟩ := @quiet_new (.open_ [] []) ⟨rfl,rfl⟩ capacity hc
  have hn : (DiskManager.open_ [] []).numPages.toNat < invalidPageId.toNat := by decide
  obtain ⟨p1,hcreate,hq1,hflat⟩ := hq.create_eq hn
  have hzero : e.pool.disk.numPages = 0 := by
    rw [hp]
    rfl
  rw [← hp] at hcreate
  rw [openTree,spec_get_bind,if_pos hzero,spec_bind_ok (onPool_ok hcreate)]
  refine ⟨rfl,rfl,hq1,?_,RootedTree.compact_single 0⟩
  change TreeAt p1.flat ⟨e.pool.disk.numPages⟩ _
  rw [hflat,hzero]
  exact TreeAt.single rfl hn

-- A fresh directory: the log is empty, so recovery finds nothing to apply.
theorem open_data (capacity : Nat) (walFaults : List (Option Nat)) (hc : 1 ≤ capacity) :
    Spec open_ (mount emptyDir capacity [] walFaults) (fun r e =>
      r = .ok () → DataAt e (RootedTree.single 0)) := by
  rw [open_]
  refine Spec.zoom_bind (WalManager.open_spec [] walFaults) ?_ (fun _ _ _ h => (by cases h))
  intro _ w hw
  obtain ⟨rs,fs,-,-,rfl⟩ := hw rfl
  refine (openTree_fresh rfl hc).bind ?_ (fun _ _ h => (by cases h.1))
  rintro _ e ⟨-,hwal,hdata⟩
  have hfile : e.wal.file = [] := by
    rw [hwal]
    rfl
  rw [recover]
  refine Spec.zoom_bind (WalManager.recover_spec e.wal) ?_ (fun _ _ _ h => (by cases h))
  intro actions w' hact
  obtain ⟨rs',hread,hrec⟩ := hact actions rfl
  rw [hfile] at hread
  have hempty : FrameLog.readAll LogRecord.deserialize [] = .ok [] := rfl
  obtain rfl : rs' = [] := Except.ok.inj (hread.symm.trans hempty)
  obtain rfl : actions = ⟨[],[],∅,∅⟩ := (Except.ok.inj hrec).symm
  rw [if_pos ⟨rfl,rfl⟩]
  exact fun _ => ⟨hdata.quiet,hdata.tree,hdata.compact⟩

theorem engine_serves_map {capacity : Nat} {walFaults : List (Option Nat)} {calls : List EngineCall}
    (hc : 1 ≤ capacity) (hopen : open_ (mount emptyDir capacity [] walFaults) = (.ok (),e))
    (hl : ∀ op ∈ calls.filterMap EngineCall.treeOp, op.InLimits)
    (hs : RootedTree.Along RootedTree.Safe (calls.filterMap EngineCall.treeOp)
      (RootedTree.single 0))
    (hf : 12 + calls.length ≤ fuel) : Serves fuel calls e KvMap.empty := by
  have h := (open_data capacity walFaults hc).of_eq hopen rfl
  refine h.serves hl hs (by omega) ?_
  change 1 + _ ≤ fuel
  omega

-- The put of an aborted transaction stays, and its delete too.
def mixedCalls : List EngineCall :=
  [.put [1] [7],.begin,.txnPut 1 [2] [8],.txnDelete 1 [1],.abort 1,.get [2],.txnGet 5 [1],.scanAll]

theorem engine_serves_map_aborted : open_ (mount emptyDir 4 [] []) = (.ok (),freshEngine) ∧
    Serves 20 mixedCalls freshEngine KvMap.empty :=
  ⟨open_freshEngine,engine_serves_map (by decide) open_freshEngine (by decide) (by decide +kernel)
    (by decide)⟩

end StorageEngine

end StorageDb
