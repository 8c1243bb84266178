import Mathlib.Tactic
import StorageDb.Btree.ParentPointers

namespace StorageDb
open SortedAssoc SepChain

namespace Shape

variable {n : Nat}

-- The tree without its entries: pages, separators, sibling and parent links.
def hollow : (n : Nat) → Shape n → Shape n
  | 0, (l : LeafNode) => { l with entries := [] }
  | n + 1, (b : BranchNode (Shape n)) =>
    { b with leftmost := hollow n b.leftmost, entries := labels (hollow n) b.entries }

theorem hollow_delete (k : Bytes) (t : Shape n) : hollow n (delete k n t) = hollow n t := by
  induction n with
  | zero => rfl
  | succ n ih =>
    obtain ⟨h1,h2⟩ := labels_graft (hollow n) k (fun c => (delete k n c,[])) t.leftmost t.entries
      (ih _)
    change (⟨t.id,t.parent,hollow n (graft k _ t.leftmost t.entries).1,
      labels (hollow n) (graft k _ t.leftmost t.entries).2⟩ : BranchNode (Shape n)) = _
    rw [h1,h2]
    simp only [labels,List.map_nil,List.nil_append,List.take_append_drop]
    rfl

end Shape

namespace RootedTree

variable {t : RootedTree}

def hollow (t : RootedTree) : RootedTree := { t with shape := Shape.hollow t.depth t.shape }

end RootedTree

namespace TreeOn
open BufferPoolManager BPlusTree

variable {p : BufferPoolManager} {tree : BPlusTree} {t : RootedTree} {fuel : Nat}

theorem search_pool (h : TreeOn p.flat tree t) (hq : Quiet p) (k : Bytes) (hf : t.depth < fuel) :
    (tree.search fuel k p).1 = .ok (find k t.contents) := by
  obtain ⟨p',hrun,-⟩ := (congr_search models_refines.toReadCongruence tree fuel k).of_ok ⟨hq,rfl⟩
    (h.search_eq k hf)
  rw [hrun]

theorem scanAll_pool (h : TreeOn p.flat tree t) (hq : Quiet p) (hd : t.depth < fuel)
    (hf : t.leaves.length ≤ fuel) : (tree.scanAll fuel p).1 = .ok t.contents := by
  obtain ⟨p',hrun,-⟩ := (congr_scanAll models_refines.toReadCongruence tree fuel).of_ok ⟨hq,rfl⟩
    (h.scanAll_eq hd hf)
  rw [hrun]

theorem rangeScan_pool (h : TreeOn p.flat tree t) (hq : Quiet p) (start stop : Bytes)
    (hd : t.depth < fuel) (hf : t.leaves.length ≤ fuel) :
    (tree.rangeScan fuel start stop p).1 = .ok (between start stop t.contents) := by
  obtain ⟨p',hrun,-⟩ := (congr_rangeScan models_refines.toReadCongruence tree fuel start stop).of_ok
    ⟨hq,rfl⟩
    (h.rangeScan_eq start stop hd hf)
  rw [hrun]

theorem delete_pool (h : TreeOn p.flat tree t) (hq : Quiet p) (k : Bytes) (hf : t.depth < fuel) :
    ∃ p', tree.delete fuel k p = (.ok (find k t.contents),p') ∧ Quiet p' ∧
      TreeOn p'.flat tree (t.delete k) ∧ (find k t.contents = none → p'.flat = p.flat) := by
  obtain ⟨s',hrun,h',hsame⟩ := h.delete_eq k hf
  obtain ⟨p',hrun',hq',rfl⟩ := (congr_delete models_refines tree fuel k).of_ok ⟨hq,rfl⟩ hrun
  exact ⟨p',hrun',hq',h',hsame⟩

theorem insert_pool {k v : Bytes} (h : TreeOn p.flat tree t) (hq : Quiet p) (ht : t.Takes k v)
    (hp : t.SplitsTell k v) (hf : t.depth < fuel) :
    ∃ tree' p', tree.insert fuel k v p = (.ok ((find k t.contents).isNone,tree'),p') ∧ Quiet p' ∧
      TreeOn p'.flat tree' (t.insert k v) := by
  obtain ⟨tree',s',hrun,h'⟩ := h.insert_eq ht hp hf
  obtain ⟨p',hrun',hq',rfl⟩ := (congr_insert models_refines tree fuel k v).of_ok ⟨hq,rfl⟩ hrun
  exact ⟨tree',p',hrun',hq',h'⟩

end TreeOn

namespace BPlusTree
open BufferPoolManager

variable {p : BufferPoolManager} {tree : BPlusTree} {t : RootedTree}

theorem reads_agree (hq : Quiet p) (h : TreeOn p.flat tree t) :
    ∃ es : List Entry, Sorted es ∧ ∃ m, ∀ fuel, m ≤ fuel →
      (tree.scanAll fuel p).1 = .ok es ∧
      (∀ k, ∃ r, (tree.search fuel k p).1 = .ok r ∧ ∀ v, r = some v ↔ (k,v) ∈ es) ∧
      ∀ start stop, (tree.rangeScan fuel start stop p).1 =
        .ok (es.filter (fun e => start ≤ e.1 ∧ e.1 ≤ stop)) := by
  refine ⟨t.contents,h.sound.sorted,t.depth + 1 + t.leaves.length,fun fuel hf => ?_⟩
  have hd : t.depth < fuel := by omega
  have hl : t.leaves.length ≤ fuel := by omega
  refine ⟨h.scanAll_pool hq hd hl,fun k => ⟨_,h.search_pool hq k hd,fun v => ?_⟩,
    fun start stop => h.rangeScan_pool hq start stop hd hl⟩
  exact find_eq_some h.sound.sorted

def mixedTree : RootedTree := mixedOps.foldl (fun t op => t.apply op) (RootedTree.single 0)

theorem mixedTree_stored : ∃ rs tree p', (create >>= run 16 mixedOps)
    (new (DiskManager.open_ [] []) 1) = (.ok (rs,tree),p') ∧ Quiet p' ∧
      TreeOn p'.flat tree mixedTree := by
  have hd : (DiskManager.open_ [] []).Healthy := ⟨rfl,rfl⟩
  have hlen : mixedOps.length ≤ 16 := by decide
  obtain ⟨tree,p',hrun,hq,hat⟩ := create_run_eq hd (le_refl 1) (by decide)
    (by decide +kernel) (by decide +kernel) hlen
  exact ⟨_,tree,p',hrun,hq,hat.toTreeOn⟩

theorem reads_agree_mixed : ∃ rs tree p', (create >>= run 16 mixedOps)
    (new (DiskManager.open_ [] []) 1) = (.ok (rs,tree),p') ∧
    ∃ es : List Entry, Sorted es ∧ ∃ m, ∀ fuel, m ≤ fuel →
      (tree.scanAll fuel p').1 = .ok es ∧
      (∀ k, ∃ r, (tree.search fuel k p').1 = .ok r ∧ ∀ v, r = some v ↔ (k,v) ∈ es) ∧
      ∀ start stop, (tree.rangeScan fuel start stop p').1 =
        .ok (es.filter (fun e => start ≤ e.1 ∧ e.1 ≤ stop)) := by
  obtain ⟨rs,tree,p',hrun,hq,h⟩ := mixedTree_stored
  exact ⟨rs,tree,p',hrun,reads_agree hq h⟩

theorem delete_keeps_tree (hq : Quiet p) (h : TreeOn p.flat tree t) (hp : t.Parented) (k : Bytes) :
    ∃ m, ∀ fuel, m ≤ fuel → ∃ r p', tree.delete fuel k p = (.ok r,p') ∧
      (tree.search fuel k p).1 = .ok r ∧ (r = none → p'.flat = p.flat) ∧ Quiet p' ∧
      ∃ t', TreeOn p'.flat tree t' ∧ t'.Parented ∧ t'.hollow = t.hollow ∧
        t'.contents = t.contents.filter (fun e => e.1 ≠ k) := by
  refine ⟨t.depth + 1,fun fuel hf => ?_⟩
  obtain ⟨p',hrun,hq',h',hsame⟩ := h.delete_pool hq k hf
  refine ⟨_,p',hrun,h.search_pool hq k hf,hsame,hq',t.delete k,h',hp.delete k,?_,?_⟩
  · rw [RootedTree.hollow,RootedTree.hollow]
    exact congrArg (fun x => (⟨t.depth,x,t.next⟩ : RootedTree)) (Shape.hollow_delete k t.shape)
  · rw [h.sound.contents_delete k]
    exact List.filter_congr fun e _ => by simp

theorem delete_keeps_tree_mixed : ∃ rs tree p, (create >>= run 16 mixedOps)
    (new (DiskManager.open_ [] []) 1) = (.ok (rs,tree),p) ∧
    ∃ m, ∀ fuel, m ≤ fuel → ∃ r p', tree.delete fuel (wideKey 245) p = (.ok r,p') ∧
      (tree.search fuel (wideKey 245) p).1 = .ok r ∧ (r = none → p'.flat = p.flat) ∧ Quiet p' ∧
      ∃ t', TreeOn p'.flat tree t' ∧ t'.Parented ∧ t'.hollow = mixedTree.hollow ∧
        t'.contents = mixedTree.contents.filter (fun e => e.1 ≠ wideKey 245) := by
  obtain ⟨rs,tree,p,hrun,hq,h⟩ := mixedTree_stored
  exact ⟨rs,tree,p,hrun,delete_keeps_tree hq h (by decide +kernel) (wideKey 245)⟩

end BPlusTree

end StorageDb
