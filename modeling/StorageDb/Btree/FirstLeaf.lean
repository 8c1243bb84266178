import Mathlib.Tactic
import StorageDb.Btree.Create
import StorageDb.Btree.TreeContract

namespace StorageDb
open SortedAssoc SepChain

namespace Shape

variable {n : Nat} {pages : Pages}

theorem Stored.firstLeaf {t : Shape n} (h : Stored pages n t) :
    ∃ nd, LeafStored pages (firstLeaf n t) nd := by
  induction n with
  | zero => exact h
  | succ n ih => exact ih (h.2 _ List.mem_cons_self)

end Shape

namespace RootedTree
open Shape

variable {t : RootedTree} {op : TreeOp}

def first (t : RootedTree) : LeafNode := firstLeaf t.depth t.shape

theorem leaves_first (t : RootedTree) :
    ∃ B, t.leaves = (t.first.id,t.first.sibling,t.first.entries) :: B := leaves_firstLeaf t.shape

theorem firstId_leaves (t : RootedTree) (q : PageId) : firstId t.leaves q = t.first.id := by
  obtain ⟨B,hB⟩ := t.leaves_first
  rw [hB]
  rfl

theorem contents_first (t : RootedTree) : ∃ rest, t.contents = t.first.entries ++ rest := by
  obtain ⟨B,hB⟩ := t.leaves_first
  refine ⟨B.flatMap (·.2.2),?_⟩
  rw [contents,contents_eq_leaves]
  exact congrArg (List.flatMap (·.2.2)) hB

theorem Sound.first_sorted (h : t.Sound) : Sorted t.first.entries := by
  obtain ⟨rest,hrest⟩ := t.contents_first
  have hs := h.sorted
  rw [hrest] at hs
  exact (sorted_append.mp hs).1

-- A split leaves the lower half where it was, so the first leaf keeps its page.
theorem Sound.first_apply (h : t.Sound) (op : TreeOp) : (t.apply op).first.id = t.first.id := by
  rw [← firstId_leaves _ invalidPageId,← firstId_leaves t invalidPageId]
  cases op with
  | insert k v => exact (leaves_insert k v h _).1
  | delete k => exact (delete_linked k t.shape _).1
  | search k => rfl

theorem WellFormed.first_run (h : t.WellFormed) {ops : List TreeOp}
    (hl : ∀ op ∈ ops, op.InLimits) (hs : Along Safe ops t) :
    (ops.foldl (fun t op => t.apply op) t).first.id = t.first.id := by
  induction ops generalizing t with
  | nil => rfl
  | cons op ops ih =>
    obtain ⟨-,h'⟩ := h.apply (hl op List.mem_cons_self) hs.1
    exact (ih h' (fun x hx => hl x (List.mem_cons_of_mem _ hx)) hs.2).trans
      (h.toSound.first_apply op)

theorem Sound.find_first_iff (h : t.Sound) :
    (∀ k, find k t.first.entries = find k t.contents) ↔ t.first.entries = t.contents := by
  refine ⟨fun hfind => ?_,fun heq k => by rw [heq]⟩
  obtain ⟨rest,hrest⟩ := t.contents_first
  have hs := h.sorted
  rw [hrest] at hs hfind ⊢
  cases rest with
  | nil => exact (List.append_nil _).symm
  | cons e rest =>
    have hfound := (hfind e.1).trans (find_of_mem hs (by simp))
    exact absurd ((sorted_append.mp hs).2.2 e (mem_of_find hfound) e List.mem_cons_self)
      (lt_irrefl _)

end RootedTree

-- The tree as read from the page of its first leaf.
namespace TreeOn
open Shape

variable {fuel : Nat} {s : FlatStore} {tree : BPlusTree} {t : RootedTree}

theorem descend_first (h : TreeOn s tree t) (choose : BTreeNode → Option PageId) (hf : 0 < fuel) :
    (BPlusTree.descend choose fuel t.first.id : Prog Error FlatStore PageId) s =
      (.ok t.first.id,s) := by
  obtain ⟨fuel,rfl⟩ : ∃ m, fuel = m + 1 := ⟨fuel - 1,by omega⟩
  obtain ⟨nd,hl⟩ := h.stored.firstLeaf
  refine (Prog.bind_ok (FlatStore.readNode_eq hl.page)).trans ?_
  rw [hl.layout.isLeaf_eq]
  rfl

theorem search_first (h : TreeOn s tree t) (k : Bytes) (hf : 0 < fuel) :
    ((BPlusTree.open_ t.first.id).search fuel k : Prog Error FlatStore _) s =
      (.ok (find k t.first.entries),s) := by
  obtain ⟨nd,hl⟩ := h.stored.firstLeaf
  exact BPlusTree.search_leaf (h.descend_first _ hf) hl h.sound.first_sorted

theorem scanAll_first (h : TreeOn s tree t) (hf : t.leaves.length ≤ fuel) :
    ((BPlusTree.open_ t.first.id).scanAll fuel : Prog Error FlatStore _) s =
      (.ok t.contents,s) := by
  obtain ⟨B,hB⟩ := t.leaves_first
  have hne : t.leaves ≠ [] := by simp [hB]
  have hrun := BPlusTree.scanLeaves_eq h.stored.views h.leaf_valid h.sound.linked hne hf
  rw [show firstId (leaves t.depth t.shape) _ = _ from t.firstId_leaves _] at hrun
  refine (Prog.bind_ok (h.descend_first _ ?_)).trans ?_
  · exact (List.length_pos_iff.mpr hne).trans_le hf
  · rw [RootedTree.contents,contents_eq_leaves]
    exact hrun

theorem rangeScan_first (h : TreeOn s tree t) (start stop : Bytes) (hf : t.leaves.length ≤ fuel) :
    ((BPlusTree.open_ t.first.id).rangeScan fuel start stop : Prog Error FlatStore _) s =
      (.ok (between start stop t.contents),s) := by
  obtain ⟨B,hB⟩ := t.leaves_first
  have hne : t.leaves ≠ [] := by simp [hB]
  have hsorted := h.sound.sorted
  rw [RootedTree.contents,contents_eq_leaves] at hsorted ⊢
  have hrun := BPlusTree.rangeLeaves_eq start stop h.stored.views h.leaf_valid h.sound.linked hne
    hsorted hf
  rw [show firstId (leaves t.depth t.shape) _ = _ from t.firstId_leaves _] at hrun
  refine (Prog.bind_ok (h.descend_first _ ?_)).trans hrun
  exact (List.length_pos_iff.mpr hne).trans_le hf

end TreeOn

end StorageDb
