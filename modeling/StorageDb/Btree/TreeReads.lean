import Mathlib.Tactic
import StorageDb.Btree.TreeWrites

namespace StorageDb
open SortedAssoc SepChain

def between (start stop : Bytes) (es : List Entry) : List Entry :=
  es.filter (fun e => start ≤ e.1 ∧ e.1 ≤ stop)

theorem between_append (start stop : Bytes) (xs ys : List Entry) :
    between start stop (xs ++ ys) = between start stop xs ++ between start stop ys :=
  List.filter_append ..

theorem between_of_lt {start stop : Bytes} {es : List Entry} (h : ∀ e ∈ es, e.1 < start) :
    between start stop es = [] := by
  refine List.filter_eq_nil_iff.mpr (fun e he => ?_)
  simp [(h e he).not_ge]

theorem between_of_gt {start stop : Bytes} {es : List Entry} (h : ∀ e ∈ es, stop < e.1) :
    between start stop es = [] := by
  refine List.filter_eq_nil_iff.mpr (fun e he => ?_)
  simp [(h e he).not_ge]

namespace Shape

structure ViewStored (pages : Pages) (l : LeafView) (nd : BTreeNode) : Prop where
  page : pages l.1 = some nd.page
  sibling : nd.getRightSibling = l.2.1
  layout : LeafPage nd l.2.2

def firstLeaf : (n : Nat) → Shape n → LeafNode
  | 0, (l : LeafNode) => l
  | n + 1, (b : BranchNode (Shape n)) => firstLeaf n b.leftmost

variable {n : Nat} {pages : Pages}

theorem Stored.views {t : Shape n} (h : Stored pages n t) :
    ∀ l ∈ leaves n t, ∃ nd, ViewStored pages l nd := by
  induction n with
  | zero =>
    intro l hl
    obtain rfl := List.mem_singleton.mp hl
    obtain ⟨nd,h⟩ := h
    exact ⟨nd,h.page,h.sibling,h.layout⟩
  | succ n ih =>
    intro l hl
    obtain ⟨c,hc,hl⟩ := List.mem_flatMap.mp hl
    exact ih (h.2 c hc) l hl

theorem leaves_subset_ids (t : Shape n) : ∀ l ∈ leaves n t, l.1 ∈ ids n t := by
  induction n with
  | zero =>
    intro l hl
    obtain rfl := List.mem_singleton.mp hl
    exact List.mem_singleton_self _
  | succ n ih =>
    intro l hl
    obtain ⟨c,hc,hl⟩ := List.mem_flatMap.mp hl
    exact List.mem_cons_of_mem _ (List.mem_flatMap.mpr ⟨c,hc,ih c l hl⟩)

theorem leaves_firstLeaf (t : Shape n) : ∃ B, leaves n t = leaves 0 (firstLeaf n t) ++ B := by
  induction n with
  | zero => exact ⟨[],(List.append_nil _).symm⟩
  | succ n ih =>
    obtain ⟨B,h⟩ := ih t.leftmost
    refine ⟨B ++ (t.entries.map Prod.snd).flatMap (leaves n),?_⟩
    change (children t.leftmost t.entries).flatMap (leaves n) = _
    rw [children,List.flatMap_cons,h,List.append_assoc]
    rfl

theorem leaves_leafFor {t : Shape n} {lo : WithBot Bytes} {hi : WithTop Bytes}
    (hb : Bounded n lo hi t) (k : Bytes) : ∃ A B,
      leaves n t = A ++ (leaves 0 (leafFor k n t) ++ B) ∧
      ∀ e ∈ A.flatMap (·.2.2), e.1 < k := by
  induction n generalizing lo hi with
  | zero => exact ⟨[],[],(List.append_nil _).symm,by simp⟩
  | succ n ih =>
    obtain ⟨a,c,hc⟩ := chain_children hb _ (route_mem k t.leftmost t.entries)
    obtain ⟨A,B,h1,h2⟩ := ih hc
    refine ⟨((children t.leftmost t.entries).take (reach k t.entries)).flatMap (leaves n) ++ A,
      B ++ ((children t.leftmost t.entries).drop (reach k t.entries + 1)).flatMap (leaves n),?_,?_⟩
    · change (BranchNode.kids t).flatMap (leaves n) = _
      rw [kids_flatMap (leaves n) k,h1]
      simp only [List.append_assoc]
      rfl
    · intro e he
      rw [List.flatMap_append,List.mem_append,List.flatMap_assoc] at he
      rcases he with he | he
      · obtain ⟨x,hx,he⟩ := List.mem_flatMap.mp he
        obtain ⟨a,b,hx,hbk⟩ := chain_before hb k x hx
        rw [← contents_eq_leaves] at he
        have hlt := ((bounded_contents hx).2 e he).2
        exact (WithTop.coe_lt_coe.mp hlt).trans_le hbk
      · exact h2 e he

end Shape

namespace BPlusTree
open Shape

variable {s : FlatStore} {fuel : Nat} {start stop : Bytes} {ls : List LeafView}

theorem scanLeaves_eq (hst : ∀ l ∈ ls, ∃ nd, ViewStored s.pages l nd)
    (hv : ∀ l ∈ ls, l.1 ≠ invalidPageId) (hl : LinkedTo ls invalidPageId) (hne : ls ≠ [])
    (hf : ls.length ≤ fuel) :
    (scanLeaves fuel (firstId ls invalidPageId) : Prog Error FlatStore _) s =
      (.ok (ls.flatMap (·.2.2)),s) := by
  induction ls generalizing fuel with
  | nil => exact absurd rfl hne
  | cons l ls ih =>
    obtain ⟨fuel,rfl⟩ : ∃ m, fuel = m + 1 := ⟨fuel - 1,by simp at hf; omega⟩
    obtain ⟨nd,h⟩ := hst l List.mem_cons_self
    refine (Prog.bind_ok (FlatStore.readNode_eq h.page)).trans ?_
    rw [h.layout.leafEntries_eq,h.sibling,hl.1]
    simp only [Prog.ofOption_some,pure_bind]
    cases ls with
    | nil => simp [firstId]
    | cons l' ls =>
      have hrec := ih (fun x hx => hst x (List.mem_cons_of_mem _ hx))
        (fun x hx => hv x (List.mem_cons_of_mem _ hx)) hl.2 (by simp) (by simpa using hf)
      have hne' : firstId (l' :: ls) invalidPageId ≠ invalidPageId := hv l' (by simp)
      rw [if_neg hne',Prog.bind_ok hrec]
      rfl

def rangeOf (start stop : Bytes) : List Entry → List Entry × Bool
  | [] => ([],false)
  | e :: es =>
    if stop < e.1 then ([],true)
    else if start ≤ e.1 then (e :: (rangeOf start stop es).1,(rangeOf start stop es).2)
    else rangeOf start stop es

theorem rangeLeaf_eq {nd : BTreeNode} {es : List Entry} (h : LeafPage nd es) :
    rangeLeaf nd start stop (List.range nd.numKeys) = some (rangeOf start stop es) := by
  have hgen : ∀ m i, i + m = es.length →
      rangeLeaf nd start stop (List.range' i m) = some (rangeOf start stop (es.drop i)) := by
    intro m
    induction m with
    | zero =>
      intro i hi
      rw [List.drop_of_length_le (by omega)]
      rfl
    | succ m ih =>
      intro i hi
      have hlt : i < es.length := by omega
      have he : es[i]? = some es[i] := List.getElem?_eq_getElem hlt
      rw [List.range'_succ,rangeLeaf,h.leafKey_eq he,h.leafValue_eq he,ih (i + 1) (by omega),
        List.drop_eq_getElem_cons hlt,rangeOf]
      simp only [Option.bind_eq_bind,Option.bind_some]
      split_ifs <;> rfl
  rw [h.count,List.range_eq_range']
  exact hgen es.length 0 (by omega)

theorem rangeOf_sorted (start stop : Bytes) {es : List Entry} (hs : Sorted es) :
    (rangeOf start stop es).1 = between start stop es ∧
      ((rangeOf start stop es).2 = true → ∃ e ∈ es, stop < e.1) := by
  induction es with
  | nil => exact ⟨rfl,by simp [rangeOf]⟩
  | cons e es ih =>
    obtain ⟨hlt,hs⟩ := sorted_cons.mp hs
    obtain ⟨h1,h2⟩ := ih hs
    rw [rangeOf]
    split_ifs with hstop hstart
    · refine ⟨(between_of_gt (fun x hx => ?_)).symm,fun _ => ⟨e,by simp,hstop⟩⟩
      rcases List.mem_cons.mp hx with rfl | hx
      · exact hstop
      · exact hstop.trans (hlt x hx)
    · refine ⟨?_,fun hd => ?_⟩
      · rw [between,List.filter_cons_of_pos (by simpa using ⟨hstart,not_lt.mp hstop⟩),h1]
        rfl
      · obtain ⟨x,hx,hgt⟩ := h2 hd
        exact ⟨x,List.mem_cons_of_mem _ hx,hgt⟩
    · refine ⟨?_,fun hd => ?_⟩
      · rw [between,List.filter_cons_of_neg (by simp [hstart]),h1]
        rfl
      · obtain ⟨x,hx,hgt⟩ := h2 hd
        exact ⟨x,List.mem_cons_of_mem _ hx,hgt⟩

theorem rangeLeaves_eq (start stop : Bytes) (hst : ∀ l ∈ ls, ∃ nd, ViewStored s.pages l nd)
    (hv : ∀ l ∈ ls, l.1 ≠ invalidPageId) (hl : LinkedTo ls invalidPageId) (hne : ls ≠ [])
    (hs : Sorted (ls.flatMap (·.2.2))) (hf : ls.length ≤ fuel) :
    (rangeLeaves start stop fuel (firstId ls invalidPageId) : Prog Error FlatStore _) s =
      (.ok (between start stop (ls.flatMap (·.2.2))),s) := by
  induction ls generalizing fuel with
  | nil => exact absurd rfl hne
  | cons l ls ih =>
    obtain ⟨fuel,rfl⟩ : ∃ m, fuel = m + 1 := ⟨fuel - 1,by simp at hf; omega⟩
    obtain ⟨nd,h⟩ := hst l List.mem_cons_self
    rw [List.flatMap_cons] at hs ⊢
    obtain ⟨hs1,hs2,hlt⟩ := sorted_append.mp hs
    obtain ⟨h1,h2⟩ := rangeOf_sorted start stop hs1
    refine (Prog.bind_ok (FlatStore.readNode_eq h.page)).trans ?_
    rw [rangeLeaf_eq h.layout,h.sibling,hl.1,between_append,← h1]
    rcases hr : rangeOf start stop l.2.2 with ⟨found,stopped⟩
    rw [hr] at h2
    simp only [Prog.ofOption_some,pure_bind]
    cases stopped with
    | true =>
      obtain ⟨e,he,hgt⟩ := h2 rfl
      rw [between_of_gt (fun x hx => hgt.trans (hlt e he x hx)),List.append_nil]
      rfl
    | false =>
      cases ls with
      | nil => simp [firstId,between]
      | cons l' ls =>
        have hrec := ih (fun x hx => hst x (List.mem_cons_of_mem _ hx))
          (fun x hx => hv x (List.mem_cons_of_mem _ hx)) hl.2 (by simp) hs2 (by simpa using hf)
        simp only [Bool.false_eq_true,if_false]
        have hne' : firstId (l' :: ls) invalidPageId ≠ invalidPageId := hv l' (by simp)
        rw [if_neg hne',Prog.bind_ok hrec]
        rfl

theorem search_leaf {tree : BPlusTree} {k : Bytes} {l : LeafNode} {nd : BTreeNode}
    (hfind : (tree.findLeaf fuel k : Prog Error FlatStore _) s = (.ok l.id,s))
    (hl : LeafStored s.pages l nd) (hs : Sorted l.entries) :
    (tree.search fuel k : Prog Error FlatStore _) s = (.ok (find k l.entries),s) := by
  refine (Prog.bind_ok hfind).trans ((Prog.bind_ok (FlatStore.readNode_eq hl.page)).trans ?_)
  rw [hl.layout.leafFindSlot_eq hs]
  cases hw : find k l.entries with
  | none => rfl
  | some w =>
    simp only [Prog.ofOption_some,pure_bind,Option.isSome_some,if_true,
      hl.layout.leafValue_eq (getElem?_rank_of_found hs hw)]
    rfl

end BPlusTree

namespace TreeOn
open Shape

variable {fuel : Nat} {s : FlatStore} {tree : BPlusTree} {t : RootedTree} {k v : Bytes}

theorem search_eq (h : TreeOn s tree t) (k : Bytes) (hf : t.depth < fuel) :
    (tree.search fuel k : Prog Error FlatStore _) s = (.ok (find k t.contents),s) := by
  obtain ⟨nd,hl⟩ := h.stored.leafFor k
  rw [h.sound.find_contents k]
  exact BPlusTree.search_leaf (h.findLeaf_eq k hf) hl (leafFor_bounded h.sound.bounded k)

theorem leaf_valid (h : TreeOn s tree t) : ∀ l ∈ t.leaves, l.1 ≠ invalidPageId := by
  rintro l hl he
  have hlt := h.sound.below _ (leaves_subset_ids t.shape l hl)
  rw [he] at hlt
  exact absurd h.sound.next (by omega)

theorem scanAll_eq (h : TreeOn s tree t) (hd : t.depth < fuel) (hf : t.leaves.length ≤ fuel) :
    (tree.scanAll fuel : Prog Error FlatStore _) s = (.ok t.contents,s) := by
  have hdesc : (BPlusTree.descend (fun node => some node.getLeftmostChild) fuel tree.rootPageId :
      Prog Error FlatStore PageId) s = (.ok (firstLeaf t.depth t.shape).id,s) := by
    rw [← h.root]
    refine BPlusTree.descend_eq (fun _ b => b.leftmost) (P := fun _ _ => True)
      (fun _ _ _ => trivial) (fun _ _ => List.mem_cons_self) (fun n b nd _ hb => ?_) firstLeaf
      (fun _ => rfl) (fun _ _ => rfl) h.stored trivial hd
    rw [hb.layout.leftmost]
  obtain ⟨B,hB⟩ := leaves_firstLeaf t.shape
  have hrun := BPlusTree.scanLeaves_eq h.stored.views h.leaf_valid h.sound.linked
    (by rw [hB]; simp [leaves]) hf
  refine (Prog.bind_ok hdesc).trans ?_
  rw [RootedTree.contents,contents_eq_leaves]
  rw [hB] at hrun ⊢
  exact hrun

theorem rangeScan_eq (h : TreeOn s tree t) (start stop : Bytes) (hd : t.depth < fuel)
    (hf : t.leaves.length ≤ fuel) : (tree.rangeScan fuel start stop : Prog Error FlatStore _) s =
      (.ok (between start stop t.contents),s) := by
  obtain ⟨A,B,hAB,hlt⟩ := leaves_leafFor h.sound.bounded start
  have hleaves : t.leaves = A ++ (leaves 0 (leafFor start t.depth t.shape) ++ B) := hAB
  have hsub : ∀ l ∈ leaves 0 (leafFor start t.depth t.shape) ++ B, l ∈ t.leaves := fun l hl => by
    rw [hleaves]
    exact List.mem_append_right _ hl
  have hlinked := h.sound.linked
  have hsorted := h.sound.sorted
  rw [hleaves] at hlinked hf
  rw [RootedTree.contents,contents_eq_leaves,hAB,List.flatMap_append] at hsorted
  have hsuf : (leaves 0 (leafFor start t.depth t.shape) ++ B).length ≤ fuel := by
    rw [List.length_append] at hf
    omega
  have hrun := BPlusTree.rangeLeaves_eq start stop
    (fun l hl => h.stored.views l (hsub l hl)) (fun l hl => h.leaf_valid l (hsub l hl))
    (linkedTo_append.mp hlinked).2 (by simp [leaves]) (sorted_append.mp hsorted).2.1
    hsuf
  refine (Prog.bind_ok (h.findLeaf_eq start hd)).trans ?_
  rw [RootedTree.contents,contents_eq_leaves,hAB,List.flatMap_append,between_append,
    between_of_lt hlt,List.nil_append]
  exact hrun

end TreeOn

end StorageDb
