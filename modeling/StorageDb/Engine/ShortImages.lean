import Mathlib.Tactic
import StorageDb.Engine.Persistence

namespace StorageDb
open Bytes Restart FrameLog SortedAssoc SlotPage Prog

namespace Page

variable {pg : Page} {images : List Bytes} {off : Nat}

-- The first four bytes of a page are its page id, which nothing reads.
theorem slice_overlayAll (h : ∀ im ∈ images, im.length ≤ 4) (ho : 4 ≤ off) (len : Nat) :
    slice (applyAll Page.overlay images pg).data off len = slice pg.data off len := by
  induction images generalizing pg with
  | nil => rfl
  | cons im images ih =>
    have him := h im List.mem_cons_self
    rw [applyAll_cons,ih fun x hx => h x (List.mem_cons_of_mem _ hx)]
    refine List.ext_getElem? fun i => ?_
    have hbyte : (pg.overlay im).data[off + i]? = pg.data[off + i]? := by
      rw [getElem?_overlay,if_neg (by omega)]
    rw [getElem?_slice,getElem?_slice,hbyte]

end Page

theorem LeafStored.moved {pages pages' : Pages} {l : LeafNode} {nd : BTreeNode} {pg : Page}
    (h : LeafStored pages l nd) (hp : pages' l.id = some pg) (hid : pg.id = nd.page.id)
    (hs : ∀ off len, 4 ≤ off → slice pg.data off len = slice nd.page.data off len) :
    LeafStored pages' l ⟨pg⟩ := by
  have hhead : BTreeNode.header ⟨pg⟩ = nd.header :=
    BTreeNode.header_of_slice hid (hs 16 10 (by omega))
  refine ⟨hp,hid.trans h.id,(congrArg Header.parent hhead).trans h.parent,
    (congrArg Header.right hhead).trans h.sibling,?_,?_,?_⟩
  · rw [← h.layout.kind,Page.getPageType,Page.getPageType,Page.field,Page.field,hs 4 1 le_rfl]
  · rw [← h.layout.count,BTreeNode.numKeys,BTreeNode.numKeys,Page.getNumSlots,Page.getNumSlots,
      Page.field,Page.field,hs 5 2 (by omega)]
  · obtain ⟨ps,hps,hl⟩ := h.layout.layout
    refine ⟨ps,hps,layout_congr ?_ (fun o l ho => hs o l ?_) hl⟩
    · rw [pg.size,nd.page.size]
    · exact le_trans (by decide) ho

namespace RootedTree
open Shape

variable {t : RootedTree}

theorem Sound.depth_eq_zero (h : t.Sound) (hroot : t.first.id = t.id) : t.depth = 0 := by
  obtain ⟨n,shape,next⟩ := t
  cases n with
  | zero => rfl
  | succ n =>
    have hnd : (shape.id :: (BranchNode.kids shape).flatMap (ids n)).Nodup := h.nodup
    have hmem : (firstLeaf n shape.leftmost).id ∈ ids n shape.leftmost := by
      obtain ⟨B,hB⟩ := leaves_firstLeaf shape.leftmost
      set l := firstLeaf n shape.leftmost
      refine leaves_subset_ids shape.leftmost (l.id,l.sibling,l.entries) ?_
      rw [hB]
      exact List.mem_append_left _ (List.mem_singleton_self _)
    refine absurd ?_ (List.nodup_cons.mp hnd).1
    refine List.mem_flatMap.mpr ⟨shape.leftmost,List.mem_cons_self,?_⟩
    have hroot : (firstLeaf n shape.leftmost).id = shape.id := hroot
    rw [← hroot]
    exact hmem

end RootedTree

-- A tree of one leaf, on a page that has changed in its first four bytes only.
theorem TreeAt.moved {s s' : FlatStore} {tree : BPlusTree} {t : RootedTree} {pg pg' : Page}
    (h : TreeAt s tree t) (hd : t.depth = 0) (hp : s.pages t.id = some pg)
    (hp' : s'.pages t.id = some pg') (hid : pg'.id = pg.id)
    (hs : ∀ off len, 4 ≤ off → slice pg'.data off len = slice pg.data off len)
    (hn : s'.next = s.next) : TreeAt s' tree t := by
  obtain ⟨n,leaf,next⟩ := t
  obtain rfl : n = 0 := hd
  obtain ⟨nd,hl⟩ := h.stored
  obtain rfl : nd.page = pg := Option.some.inj (hl.page.symm.trans hp)
  exact ⟨⟨h.root,⟨_,hl.moved hp' hid hs⟩,hn.trans h.next,h.sound⟩,h.keys⟩

namespace Trace
open EngineCall

variable {m : KvMap} {h : Trace}

theorem seen_eq_latest {p : TxnId → Bool} (hp : ∀ w ∈ h.filterMap wrote, p w.txnId = true) :
    seen m h p = latest m h := by
  funext k
  rw [latest,seen,seen]
  congr 2
  refine List.filter_congr fun w hw => ?_
  rw [hp w hw]

end Trace

namespace StorageEngine
open BufferPoolManager BPlusTree

variable {fuel capacity capacity' : Nat} {e e₁ : StorageEngine} {t : RootedTree} {m : KvMap}
  {calls : List EngineCall} {walFaults : List (Option Nat)}

theorem Serves.foldl_latest {h : Trace} (hs : Serves fuel calls e (Trace.latest m h))
    (hc : ∀ c ∈ calls, c.InTxn = true ∨ c = .sync)
    (hlive : ∀ r ∈ (run fuel calls e).1, Lives r) :
    calls.foldl EngineCall.after (Trace.latest m h) =
      Trace.latest m (h ++ traceOf fuel calls e) := by
  induction calls generalizing e h with
  | nil => rw [traceOf,List.zip_nil_left,List.append_nil]; rfl
  | cons c calls ih =>
    obtain ⟨hans,hnext⟩ := hs
    obtain ⟨hx,hrun⟩ := run_live_cons hlive
    have hafter : c.after (Trace.latest m h) = Trace.latest m (h ++ [(c,(c.exec fuel e).1)]) := by
      rcases hc c List.mem_cons_self with hin | rfl
      · exact Trace.after_latest hans hx hin
      · funext k
        rw [Trace.latest_append]
        rfl
    have htrace : traceOf fuel (c :: calls) e =
        (c,(c.exec fuel e).1) :: traceOf fuel calls (c.exec fuel e).2 := by
      rw [traceOf,hrun]
      rfl
    rw [hrun] at hlive
    rw [List.foldl_cons,hafter,htrace,List.append_cons h (c,_) (traceOf fuel calls _)]
    refine ih (hafter ▸ hnext hx) (fun x hx => hc x (List.mem_cons_of_mem _ hx)) ?_
    exact fun r hr => hlive r (List.mem_cons_of_mem _ hr)

theorem run_append_live {later : List EngineCall} (hlive : ∀ r ∈ (run fuel calls e).1, Lives r) :
    (run fuel (calls ++ later) e).2 = (run fuel later (run fuel calls e).2).2 := by
  induction calls generalizing e with
  | nil => rfl
  | cons c calls ih =>
    obtain ⟨hx,hrun⟩ := run_live_cons hlive
    rw [hrun] at hlive ⊢
    rw [List.cons_append,run_cons (Prod.mk.eta).symm hx]
    exact ih fun r hr => hlive r (List.mem_cons_of_mem _ hr)

theorem run_sync (h : sync e = (.ok (),e₁)) : (run fuel [.sync] e).2 = e₁ := by
  have hexec : EngineCall.sync.exec fuel e = (.ok .done,e₁) := bind_ok h
  rw [run_cons hexec (by decide)]
  rfl

-- Recovery on the pages of a one-leaf tree, from a log whose images touch the page id only.
theorem DataAt.recover_short (h : DataAt e t) {data log : Bytes} {rs : List LogRecord}
    (hq : Quiet (new (.open_ data []) capacity))
    (hflat : (new (.open_ data []) capacity).flat = e.pool.flat)
    (hfirst : t.first.id = 0) (hroot : e.btree.rootPageId = 0)
    (hread : readAll LogRecord.deserialize log = .ok rs)
    (hwal : WalManager.open_ (.onFile log []) = (.ok (),.opened rs (.onFile log [])))
    (hrs : ∀ r ∈ rs, r.Rooted) (hshort : ∀ im ∈ rootImages rs, im.length ≤ 4) :
    ∃ e₂, open_ (mount ⟨data,log⟩ capacity [] []) = (.ok (),e₂) ∧ DataAt e₂ t := by
  obtain ⟨actions,hact⟩ := recoveryActions_total fun r hr => (hrs r hr).images
  have hrec := WalManager.recover_calm (w := .opened rs (.onFile log [])) rfl hread hact
  obtain ⟨e₂,hrun,hr⟩ := recover_eq (e := { mount ⟨data,log⟩ capacity [] [] with
    wal := .opened rs (.onFile log []) }) hq rfl rfl hrec
  refine ⟨e₂,(open_found (h.numPages_ne hflat) hwal).trans hrun,hr.quiet,?_,h.compact⟩
  have hid : t.id = 0 := h.tree.root.trans hroot
  obtain ⟨nd,hleaf⟩ := h.tree.stored.firstLeaf
  have hpage : e.pool.flat.pages t.first.id = some nd.page := hleaf.page
  rw [hfirst,← hid] at hpage
  have hmoved : e₂.pool.lookup t.id =
      some (applyAll Page.overlay (rootImages rs) nd.page) := by
    have hold : (new (.open_ data []) capacity).flat.pages t.id = some nd.page := by
      rw [hflat]
      exact hpage
    rw [← hr.clean,hr.pageAt,hid,imagesFor_root hact,← hid]
    exact congrArg (Option.map _) hold
  have htree : e₂.btree = e.btree := by
    rw [hr.btree]
    exact congrArg BPlusTree.open_ hroot.symm
  rw [htree]
  refine h.tree.moved (h.tree.sound.depth_eq_zero (hfirst.trans hid.symm)) hpage hmoved
    (id_overlayAll _) (fun off len ho => Page.slice_overlayAll hshort ho len) ?_
  exact (congrArg UInt32.toNat hr.pages).trans (congrArg FlatStore.next hflat)

theorem rootImages_short {rs : List LogRecord} (h : ∀ r ∈ rs, ∀ w ∈ r.writeTo 0,
    w.before.length ≤ 4 ∧ w.after.length ≤ 4) : ∀ im ∈ rootImages rs, im.length ≤ 4 := by
  have hw : ∀ w ∈ writesTo 0 rs, w.before.length ≤ 4 ∧ w.after.length ≤ 4 := by
    intro w hw
    obtain ⟨r,hr,hrw⟩ := List.mem_filterMap.mp hw
    exact h r hr w hrw
  intro im him
  rw [rootImages,List.mem_append,List.mem_reverse] at him
  rcases him with him | him
  · obtain ⟨w,hmem,rfl⟩ := List.mem_map.mp him
    exact (hw w (List.mem_filter.mp hmem).1).2
  · obtain ⟨w,hmem,rfl⟩ := List.mem_map.mp him
    exact (hw w (List.mem_filter.mp hmem).1).1

def shortTxn : List EngineCall :=
  [.begin,.txnPut 1 [1] [2],.txnPut 1 [3] [4],.txnDelete 1 [1],.commit 1]

-- As a page this value is the header of a leaf without slots.
def headerValue : Bytes := [0,0,0,0,3,0,0]

def headerTxn : List EngineCall := [.begin,.txnPut 1 [1] headerValue,.commit 1]

end StorageEngine

end StorageDb
