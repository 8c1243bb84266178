import Mathlib.Tactic
import StorageDb.Btree.FailedInsert
import StorageDb.Btree.FirstLeaf
import StorageDb.Engine.Reopening
import StorageDb.Engine.TxnEffects
import StorageDb.Engine.WriteAhead
import StorageDb.Wal.TornTail

namespace StorageDb
open SortedAssoc SepChain Prog

-- Calls outside transactions: nothing is logged.
def EngineCall.Plain : EngineCall → Bool
  | .put _ _ | .get _ | .delete _ | .scanAll | .rangeScan _ _ => true
  | _ => false

namespace StorageEngine
open BufferPoolManager BPlusTree

variable {fuel capacity capacity' : Nat} {e e₁ : StorageEngine} {t : RootedTree}
  {calls : List EngineCall} {walFaults : List (Option Nat)}

theorem plain_wal {c : EngineCall} (hc : c.Plain = true) :
    Spec (c.exec fuel) e (fun _ e' => e'.wal = e.wal) := by
  cases c with
  | put k v => exact ((storing_put fuel k v).map _ e).1
  | get k => exact ((storing_get fuel k).map _ e).1
  | delete k => exact ((storing_delete fuel k).map _ e).1
  | scanAll => exact ((storing_scanAll fuel).map _ e).1
  | rangeScan a b => exact ((storing_rangeScan fuel a b).map _ e).1
  | _ => cases hc

theorem plain_run_wal (hc : ∀ c ∈ calls, c.Plain = true) : (run fuel calls e).2.wal = e.wal := by
  induction calls generalizing e with
  | nil => rfl
  | cons c calls ih =>
    have hw : (c.exec fuel e).2.wal = e.wal := plain_wal (hc c List.mem_cons_self)
    by_cases hlive : Lives (c.exec fuel e).1
    · rw [run_cons rfl hlive]
      exact (ih fun x hx => hc x (List.mem_cons_of_mem _ hx)).trans hw
    · rw [run_cons_dead rfl hlive]
      exact hw

theorem answers_live {c : EngineCall} (hc : c.Plain = true) {m : KvMap}
    {r : Except (Fault Error) EngineReply} (h : c.Answers m r) : Lives r := by
  cases c with
  | put k v => exact h ▸ ⟨by simp,by simp⟩
  | get k => exact h ▸ ⟨by simp,by simp⟩
  | delete k => exact h ▸ ⟨by simp,by simp⟩
  | scanAll =>
    obtain ⟨es,rfl,-⟩ := h
    exact ⟨by simp,by simp⟩
  | rangeScan a b =>
    obtain ⟨es,rfl,-⟩ := h
    exact ⟨by simp,by simp⟩
  | _ => cases hc

theorem Serves.live {m : KvMap} (h : Serves fuel calls e m) (hc : ∀ c ∈ calls, c.Plain = true) :
    ∀ r ∈ (run fuel calls e).1, Lives r := by
  induction calls generalizing e m with
  | nil => exact fun r hr => (by cases hr)
  | cons c calls ih =>
    have hlive := answers_live (hc c List.mem_cons_self) h.1
    rw [run_cons rfl hlive]
    exact List.forall_mem_cons.mpr
      ⟨hlive,ih (h.2 hlive) fun x hx => hc x (List.mem_cons_of_mem _ hx)⟩

-- After a sync a new pool on the file holds the pages of the old one.
theorem DataAt.sync_flushes (h : DataAt e t) : Spec sync e (fun r e' => r = .ok () →
    DataAt e' t ∧ e'.btree = e.btree ∧
      ∀ capacity, 1 ≤ capacity → Quiet (new (.open_ e'.pool.disk.file []) capacity) ∧
        (new (.open_ e'.pool.disk.file []) capacity).flat = e'.pool.flat) := by
  refine Spec.zoom_bind (Q := fun _ _ => True) trivial ?_ (fun _ _ _ hr => (by cases hr))
  intro _ w _
  obtain ⟨p,hflush,hq,hflat,hnew⟩ := h.quiet.reopen
  rw [Spec,onPool_ok (e := { e with wal := w }) hflush]
  refine fun _ => ⟨⟨hq,?_,h.compact⟩,rfl,?_⟩
  · change TreeAt p.flat e.btree t
    rw [hflat]
    exact h.tree
  · change ∀ capacity, 1 ≤ capacity → _ ∧ _ = p.flat
    rw [hflat]
    exact hnew

theorem sync_log (hw : e.wal.Flowing) : Spec sync e (fun r e' => r = .ok () →
    e'.wal.file = e.wal.file ++ e.wal.writeBuffer) := by
  refine Spec.zoom_bind hw.flush (fun _ w hfile => ?_) (fun _ _ _ hr => (by cases hr))
  exact fun _ => (hfile rfl).1

theorem DataAt.sync_ok (h : DataAt e t) {w : WalManager}
    (hw : WalManager.flush e.wal = (.ok (),w)) : ∃ e₁, sync e = (.ok (),e₁) := by
  obtain ⟨p,hflush,-⟩ := h.quiet.reopen
  exact ⟨_,(bind_ok (onWal_ok hw)).trans (onPool_ok (e := { e with wal := w }) hflush)⟩

-- The engine that reads the pages of t from the page of its first leaf.
structure FirstAt (e : StorageEngine) (t : RootedTree) : Prop where
  quiet : Quiet e.pool
  tree : ∃ tree, TreeOn e.pool.flat tree t
  root : e.btree = .open_ t.first.id

theorem FirstAt.reads {α : Type} {m : BPlusTree → Prog Error BufferPoolManager α}
    {n : BPlusTree → Prog Error FlatStore α} {a : α} (h : FirstAt e t)
    (hr : ∀ tree, Refines Models (m tree) (n tree))
    (hn : n (.open_ t.first.id) e.pool.flat = (.ok a,e.pool.flat)) :
    ((Prog.get >>= fun e => onPool (m e.btree)) e).1 = .ok a := by
  obtain ⟨p',hrun,-⟩ := (hr _).of_ok ⟨h.quiet,rfl⟩ hn
  rw [← h.root] at hrun
  rw [get_bind_run,onPool_ok hrun]

theorem FirstAt.get_eq (h : FirstAt e t) (hf : 0 < fuel) (k : Bytes) :
    (get fuel k e).1 = .ok (find k t.first.entries) := by
  obtain ⟨tree,hat⟩ := h.tree
  exact h.reads (fun tree => congr_search models_refines.toReadCongruence tree fuel k)
    (hat.search_first k hf)

theorem FirstAt.scanAll_eq (h : FirstAt e t) (hf : t.leaves.length ≤ fuel) :
    (scanAll fuel e).1 = .ok t.contents := by
  obtain ⟨tree,hat⟩ := h.tree
  exact h.reads (fun tree => congr_scanAll models_refines.toReadCongruence tree fuel)
    (hat.scanAll_first hf)

theorem FirstAt.rangeScan_eq (h : FirstAt e t) (start stop : Bytes) (hf : t.leaves.length ≤ fuel) :
    (rangeScan fuel start stop e).1 = .ok (between start stop t.contents) := by
  obtain ⟨tree,hat⟩ := h.tree
  exact h.reads (fun tree => congr_rangeScan models_refines.toReadCongruence tree fuel start stop)
    (hat.rangeScan_first start stop hf)

-- The data file has pages, the log has no records: recovery finds nothing.
theorem open_unlogged {data : Bytes} (h0 : (DiskManager.open_ data []).numPages ≠ 0) :
    open_ (mount ⟨data,[]⟩ capacity [] []) = (.ok (),{ mount ⟨data,[]⟩ capacity [] [] with
      wal := .opened [] (.onFile [] []) }) := by
  have hrec : WalManager.recover (.opened [] (.onFile [] [])) =
    (.ok ⟨[],[],∅,∅⟩,.opened [] (.onFile [] [])) := rfl
  exact open_idle_eq h0 rfl hrec ⟨rfl,rfl⟩

def reopened (e : StorageEngine) (capacity : Nat) : StorageEngine :=
  { mount e.directory capacity [] [] with wal := .opened [] (.onFile [] []) }

theorem open_reopened (hlog : e.wal.file = [])
    (h0 : (DiskManager.open_ e.pool.disk.file []).numPages ≠ 0) :
    open_ (mount e.directory capacity [] []) = (.ok (),reopened e capacity) := by
  have hdir : e.directory = ⟨e.pool.disk.file,[]⟩ := congrArg (Directory.mk _) hlog
  rw [reopened,hdir]
  exact open_unlogged h0

theorem DataAt.numPages_ne (h : DataAt e t) {data : Bytes}
    (hflat : (new (.open_ data []) capacity).flat = e.pool.flat) :
    (DiskManager.open_ data []).numPages ≠ 0 := by
  have hlt := h.tree.sound.below _ (Shape.id_mem_ids t.shape)
  have hnext : (DiskManager.open_ data []).numPages.toNat = t.next :=
    (congrArg FlatStore.next hflat).trans h.tree.next
  intro hzero
  rw [hzero] at hnext
  exact absurd (hnext ▸ hlt) (Nat.not_lt_zero _)

-- What plain calls on a fresh directory and a sync leave, and what the reopening makes of it.
structure Synced (e : StorageEngine) (t : RootedTree) : Prop where
  data : DataAt e t
  first : t.first.id = 0
  log : e.wal.file = []
  file : ∀ capacity, 1 ≤ capacity → Quiet (new (.open_ e.pool.disk.file []) capacity) ∧
    (new (.open_ e.pool.disk.file []) capacity).flat = e.pool.flat

theorem Synced.reopen (h : Synced e t) (hc : 1 ≤ capacity) :
    open_ (mount e.directory capacity [] []) = (.ok (),reopened e capacity) ∧
      FirstAt (reopened e capacity) t := by
  obtain ⟨hq,hflat⟩ := h.file capacity hc
  refine ⟨open_reopened h.log (h.data.numPages_ne hflat),hq,⟨e.btree,?_⟩,
    congrArg BPlusTree.open_ h.first.symm⟩
  change TreeOn (new (.open_ e.pool.disk.file []) capacity).flat e.btree t
  rw [hflat]
  exact h.data.tree.toTreeOn

theorem plain_synced (hc : 1 ≤ capacity)
    (hopen : open_ (mount emptyDir capacity [] walFaults) = (.ok (),e))
    (hp : ∀ c ∈ calls, c.Plain = true)
    (hl : ∀ op ∈ calls.filterMap EngineCall.treeOp, op.InLimits)
    (hs : RootedTree.Along RootedTree.Safe (calls.filterMap EngineCall.treeOp)
      (RootedTree.single 0)) (hf : 12 + calls.length ≤ fuel) :
    DataAt (run fuel calls e).2 (calls.foldl treeAfter (RootedTree.single 0)) ∧
      (calls.foldl treeAfter (RootedTree.single 0)).toMap =
        calls.foldl EngineCall.after KvMap.empty ∧
      (calls.foldl treeAfter (RootedTree.single 0)).leaves.length ≤ 1 + calls.length ∧
      Spec sync (run fuel calls e).2 (fun r e' => r = .ok () →
        Synced e' (calls.foldl treeAfter (RootedTree.single 0)) ∧
          e'.btree = (run fuel calls e).2.btree) := by
  have hdata := (open_data capacity walFaults hc).of_eq hopen rfl
  have hone : (RootedTree.single 0).leaves.length = 1 := rfl
  have hserves : Serves fuel calls e _ := hdata.serves hl hs (by omega) (by omega)
  obtain ⟨h,hmap,hleaves⟩ := hdata.run hl hs (by omega) (by omega) (hserves.live hp)
  obtain ⟨rs,fs,hread,hw⟩ := (open_wal emptyDir capacity [] walFaults).of_eq hopen rfl
  obtain rfl : rs = [] := by cases hread; rfl
  have hw : (run fuel calls e).2.wal = .opened [] (.onFile [] fs) :=
    (plain_run_wal hp).trans (hw.elim id id)
  have hlog : Spec sync _ _ := sync_log (hw ▸ WalManager.flowing_opened [] [] fs)
  refine ⟨h,hmap,hleaves,fun hok => ?_⟩
  obtain ⟨hd,hroot,hfile⟩ := (h.sync_flushes : Spec sync _ _) hok
  refine ⟨⟨hd,?_,?_,hfile⟩,hroot⟩
  · rw [foldl_treeAfter]
    exact (RootedTree.wellFormed_single (by decide)).first_run hl hs
  · rw [hlog hok,hw]
    rfl

-- Page 0 holds every entry.
theorem Synced.page_iff (h : Synced e t) (hf : 12 ≤ fuel) (hleaves : t.leaves.length ≤ fuel) :
    (∃ pg es, e.pool.lookup 0 = some pg ∧ (BTreeNode.mk pg).leafEntries = some es ∧
      (scanAll fuel e).1 = .ok es) ↔ t.first.entries = t.contents := by
  have hscan := (h.data.scanAll_spec hf hleaves).1
  obtain ⟨nd,hleaf⟩ := h.data.tree.stored.firstLeaf
  have hpage : e.pool.lookup 0 = some nd.page := h.first ▸ hleaf.page
  refine ⟨?_,fun heq => ⟨_,_,hpage,hleaf.layout.leafEntries_eq,hscan.trans ?_⟩⟩
  · rintro ⟨pg,es,hpg,hes,hall⟩
    cases hpage.symm.trans hpg
    cases hleaf.layout.leafEntries_eq.symm.trans hes
    exact Except.ok.inj (hall.symm.trans hscan)
  · exact congrArg Except.ok heq.symm

theorem sync_freshEngine (hp : ∀ c ∈ calls, c.Plain = true)
    (hl : ∀ op ∈ calls.filterMap EngineCall.treeOp, op.InLimits)
    (hs : RootedTree.Along RootedTree.Safe (calls.filterMap EngineCall.treeOp)
      (RootedTree.single 0)) (hf : 12 + calls.length ≤ fuel) :
    ∃ e₁, sync (run fuel calls freshEngine).2 = (.ok (),e₁) ∧
      Synced e₁ (calls.foldl treeAfter (RootedTree.single 0)) := by
  obtain ⟨h,-,-,hspec⟩ := plain_synced (by decide) open_freshEngine hp hl hs hf
  have hflush : (WalManager.flush (run fuel calls freshEngine).2.wal).1 = .ok () := by
    rw [plain_run_wal hp]
    decide +kernel
  obtain ⟨e₁,hsync⟩ := h.sync_ok (Prog.run_eq hflush)
  exact ⟨e₁,hsync,(hspec.of_eq hsync rfl).1⟩

def fewCalls : List EngineCall := [.put [1] [7],.put [2] [8],.delete [1],.get [2]]

def eightPuts : List EngineCall := [1,2,3,4,5,6,7,8].map fun i => .put (fullKey i) fullValue

theorem Synced.reopen_data (h : Synced e t) (hroot : e.btree.rootPageId = 0)
    (hc : 1 ≤ capacity) : DataAt (reopened e capacity) t := by
  obtain ⟨hq,hflat⟩ := h.file capacity hc
  refine ⟨hq,?_,h.data.compact⟩
  change TreeAt (new (.open_ e.pool.disk.file []) capacity).flat ⟨0⟩ t
  rw [hflat,← hroot]
  exact h.data.tree

-- A call that allocates no page leaves the file as it is, if the pool has a frame for every page.
theorem DataAt.file_same (h : DataAt e t) {c : EngineCall}
    (hl : ∀ op, c.treeOp = some op → op.InLimits ∧ RootedTree.Safe op t) (hf : 12 ≤ fuel)
    (hleaves : t.leaves.length ≤ fuel) (hne : c ≠ .sync) (hnext : (treeAfter t c).next = t.next)
    (hroom : t.next ≤ e.pool.capacity) (hlive : Lives (c.exec fuel e).1) :
    (c.exec fuel e).2.directory.data = e.directory.data := by
  have hst : Still _ _ := (h.exec_still hl hf hleaves hne : Spec (c.exec fuel) e _)
  have h' := (h.exec_spec c hl hf hleaves : Spec (c.exec fuel) e _).2 hlive
  have hpages : (c.exec fuel e).2.pool.disk.numPages = e.pool.disk.numPages :=
    UInt32.toNat_inj.mp (h'.tree.next.trans (hnext.trans h.tree.next.symm))
  refine congrArg DiskManager.file (hst.same ?_ hpages)
  exact (h'.tree.next.trans hnext).trans_le hroom

end StorageEngine

namespace BPlusTree

variable {s : FlatStore} {pg : Page}

-- A page of zeros is no leaf, and its leftmost child is page 0.
def Loops (pg : Page) : Prop :=
  (BTreeNode.mk pg).isLeaf = false ∧ (BTreeNode.mk pg).numKeys = 0 ∧
    (BTreeNode.mk pg).getLeftmostChild = 0

instance (pg : Page) : Decidable (Loops pg) := inferInstanceAs (Decidable (_ ∧ _))

theorem Loops.descend_hangs (h : Loops pg) (hp : s.pages 0 = some pg)
    {choose : BTreeNode → Option PageId} (hch : choose ⟨pg⟩ = some 0) (fuel : Nat) :
    (descend choose fuel 0 : Prog Error FlatStore PageId) s = (.error .hang,s) := by
  induction fuel with
  | zero => rfl
  | succ fuel ih =>
    have hread : FlatStore.readNode 0 s = (.ok ⟨pg⟩,s) := FlatStore.readNode_eq hp
    refine (Prog.bind_ok hread).trans ?_
    rw [h.1,hch]
    exact ih

theorem Loops.findLeaf_hangs (h : Loops pg) (hp : s.pages 0 = some pg) (fuel : Nat) (k : Bytes) :
    (findLeaf (.open_ 0) fuel k : Prog Error FlatStore PageId) s = (.error .hang,s) := by
  refine h.descend_hangs hp ?_ fuel
  rw [BTreeNode.internalFindChild,if_pos h.2.1]
  exact congrArg some h.2.2

end BPlusTree

namespace StorageEngine
open BufferPoolManager BPlusTree

variable {fuel : Nat} {e : StorageEngine} {pg : Page}

theorem hang_of_flat {α : Type} {m : BPlusTree → Prog Error BufferPoolManager α}
    {n : BPlusTree → Prog Error FlatStore α} (hq : Quiet e.pool)
    (hr : ∀ tree, Refines Models (m tree) (n tree)) (hroot : e.btree = .open_ 0)
    (hn : n (.open_ 0) e.pool.flat = (.error .hang,e.pool.flat)) :
    ∃ e', (Prog.get >>= fun e => onPool (m e.btree)) e = (.error .hang,e') := by
  obtain ⟨h1,-⟩ := hr (.open_ 0) e.pool e.pool.flat ⟨hq,rfl⟩ (by rw [hn]; simp)
  rw [hn,← hroot] at h1
  exact ⟨_,Prod.ext h1 rfl⟩

theorem loops_exec_hangs (h : Loops pg) (hp : e.pool.lookup 0 = some pg) (hq : Quiet e.pool)
    (hroot : e.btree = .open_ 0) {c : EngineCall} (hc : c.Plain = true) (fuel : Nat) :
    (c.exec fuel e).1 = .error .hang := by
  have hread := models_refines.toReadCongruence
  have hfind := h.findLeaf_hangs (s := e.pool.flat) hp fuel
  cases c with
  | put k v =>
    obtain ⟨e',hrun⟩ := hang_of_flat hq (fun tree => congr_insert models_refines tree fuel k v)
      hroot (bind_error (hfind k))
    rw [get_bind_run] at hrun
    have hput : put fuel k v e = (.error .hang,e') := by
      rw [put,get_bind_run,bind_error hrun]
    exact congrArg Prod.fst (bind_error hput)
  | get k =>
    obtain ⟨e',hrun⟩ := hang_of_flat hq (fun tree => congr_search hread tree fuel k) hroot
      (bind_error (hfind k))
    exact congrArg Prod.fst (bind_error hrun)
  | delete k =>
    obtain ⟨e',hrun⟩ := hang_of_flat hq (fun tree => congr_delete models_refines tree fuel k) hroot
      (bind_error (hfind k))
    exact congrArg Prod.fst (bind_error hrun)
  | scanAll =>
    obtain ⟨e',hrun⟩ := hang_of_flat hq (fun tree => congr_scanAll hread tree fuel) hroot
      (bind_error (h.descend_hangs hp (congrArg some h.2.2) fuel))
    exact congrArg Prod.fst (bind_error hrun)
  | rangeScan start stop =>
    obtain ⟨e',hrun⟩ := hang_of_flat hq (fun tree => congr_rangeScan hread tree fuel start stop)
      hroot (bind_error (hfind start))
    exact congrArg Prod.fst (bind_error hrun)
  | _ => cases hc

end StorageEngine

end StorageDb
