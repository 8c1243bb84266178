import Mathlib.Tactic
import StorageDb.Btree.InsertBranch

namespace StorageDb
open SortedAssoc SepChain

namespace BPlusTree
open Shape

variable {n : Nat} {s : FlatStore} {k v : Bytes} {lo : WithBot Bytes} {hi : WithTop Bytes}
  {tree : BPlusTree}

theorem graftKids_ids {b : BranchNode (Shape n)} {g : Grown (Shape n)} {next : Nat}
    (hperm : (all ids n g).Perm (ids n (route k b.leftmost b.entries) ++ fresh next g.next)) :
    (b.id :: (b.graftKids k g).flatMap (ids n)).Perm (ids (n + 1) b ++ fresh next g.next) := by
  have hold : ids (n + 1) b = b.id :: (b.kids.take (reach k b.entries) ++
      route k b.leftmost b.entries :: b.kids.drop (reach k b.entries + 1)).flatMap (ids n) := by
    rw [BranchNode.kids,← children_split]
    rfl
  rw [hold,BranchNode.graftKids,BranchNode.grafted,children_graft]
  refine List.perm_iff_count.mpr (fun x => ?_)
  have hc := hperm.count_eq x
  rw [all] at hc
  simp only [List.flatMap_append,List.flatMap_cons,List.count_append,List.count_cons,
    List.cons_append,BranchNode.kids] at hc ⊢
  omega

section step

variable {b : BranchNode (Shape n)} {g : Grown (Shape n)} {s1 : FlatStore} {nd : BTreeNode}

theorem grew_keeps (hg : Grew s s1 (ids n (route k b.leftmost b.entries)) n g)
    (hnd : (ids (n + 1) b).Nodup) (hlt : ∀ q ∈ ids (n + 1) b, q.toNat < s.next) {x : Shape n}
    (hx : x ∈ b.kids.take (reach k b.entries) ∨ x ∈ b.kids.drop (reach k b.entries + 1))
    (hst : Stored s.pages n x) : Stored s1.pages n x := by
  refine hst.congr (fun q hq => hg.agrees q (fun hqc => ?_) (hlt q ?_))
  · have hkids := (FlatStore.kids_disjoint hnd).2
    rw [BranchNode.kids,children_split k b.leftmost b.entries] at hkids
    have hc := List.nodup_iff_count_le_one.mp hkids q
    have h1 := List.count_pos_iff.mpr hqc
    simp only [List.flatMap_append,List.flatMap_cons,List.count_append] at hc
    rcases hx with hx | hx
    · have h2 := List.count_pos_iff.mpr (List.mem_flatMap.mpr ⟨x,hx,hq⟩)
      rw [BranchNode.kids] at h2
      omega
    · have h2 := List.count_pos_iff.mpr (List.mem_flatMap.mpr ⟨x,hx,hq⟩)
      rw [BranchNode.kids] at h2
      omega
  · have hxk : x ∈ b.kids := hx.elim List.mem_of_mem_take List.mem_of_mem_drop
    exact List.mem_cons_of_mem _ (List.mem_flatMap.mpr ⟨x,hxk,hq⟩)

theorem grew_ready (hb : Bounded (n + 1) lo hi b) (hr : InRange lo hi k)
    (hh : Halves k v (n + 1) lo b) (hst : BranchStored s.pages (Shape.id n) b nd)
    (hc : ∀ c ∈ b.kids, Stored s.pages n c)
    (hnd : (ids (n + 1) b).Nodup) (hlt : ∀ q ∈ ids (n + 1) b, q.toNat < s.next)
    (he : Shape.insert k v n s.next (route k b.leftmost b.entries) = g)
    (hn : g.next ≤ invalidPageId.toNat)
    (hg : Grew s s1 (ids n (route k b.leftmost b.entries)) n g) :
    BranchNode.Ready s1 k b g nd := by
  subst he
  obtain ⟨c,hac,hroute⟩ := chain_route hb hr
  obtain ⟨hle,hperm⟩ := insert_ids k v s.next hroute
  obtain ⟨hnd',hlt'⟩ := nodup_fresh (graftKids_ids hperm) hle hn hnd hlt
  have hbid : b.id ∉ ids n (route k b.leftmost b.entries) := fun hm =>
    (FlatStore.kids_disjoint hnd).1 (List.mem_flatMap.mpr ⟨_,route_mem k b.leftmost b.entries,hm⟩)
  refine ⟨⟨?_,hst.id,hst.parent,hst.layout⟩,?_,hnd',?_,hg.next,(insert_node _ _).1,
    (chain_sorted hb).1,?_⟩
  · exact (hg.agrees b.id hbid (hlt b.id List.mem_cons_self)).trans hst.page
  · intro x hx
    rw [BranchNode.graftKids,BranchNode.grafted,children_graft,List.mem_append,
      List.mem_append] at hx
    rcases hx with hx | hx | hx
    · exact grew_keeps hg hnd hlt (Or.inl hx) (hc x (List.mem_of_mem_take hx))
    · rw [children,List.mem_cons] at hx
      rcases hx with rfl | hx
      · exact hg.node
      · obtain ⟨e,hm,rfl⟩ := List.mem_map.mp hx
        exact hg.extra e (Option.mem_toList.mp hm)
    · exact grew_keeps hg hnd hlt (Or.inr hx) (hc x (List.mem_of_mem_drop hx))
  · intro q hq
    rw [hg.next]
    exact hlt' q hq
  · exact (chain_sorted (chain_graft hb hr (fun _ hx hy => insert_bounded hy hx hh)
      (fun _ _ _ hx => hx))).1

end step

theorem insertAt_eq (tree : BPlusTree) {t : Shape n} (h : Stored s.pages n t)
    (hb : Bounded n lo hi t)
    (hr : InRange lo hi k) (hh : Halves k v n lo t)
    (hfit : InsertFits k v n s.next t) (hpar : SplitsKnowParent k v n s.next t)
    (hnd : (ids n t).Nodup) (hlt : ∀ q ∈ ids n t, q.toNat < s.next)
    (hn : (Shape.insert k v n s.next t).next ≤ invalidPageId.toNat) (m : Nat) :
    ∃ s', Grew s s' (ids n t) n (Shape.insert k v n s.next t) ∧
      (insertAt tree (m + n) (leafFor k n t).id k v : Prog Error FlatStore _) s =
        rest tree m n t (Shape.insert k v n s.next t)
          (find k (leafFor k n t).entries).isNone s' := by
  induction n generalizing lo hi m with
  | zero => exact insertAt_leaf h hb.1 hfit (hlt _ (id_mem_ids t)) hn m
  | succ n ih =>
    obtain ⟨⟨nd,hst⟩,hc⟩ := h
    obtain ⟨c,hac,hroute⟩ := chain_route hb hr
    have hmem := route_mem k t.leftmost t.entries
    have hsub : ∀ q ∈ ids n (route k t.leftmost t.entries), q ∈ ids (n + 1) t := fun q hq =>
      List.mem_cons_of_mem _ (List.mem_flatMap.mpr ⟨_,hmem,hq⟩)
    have hn1 : (Shape.insert k v n s.next (route k t.leftmost t.entries)).next ≤
        invalidPageId.toNat := by
      rcases insert_next (k := k) (v := v) s.next t with ⟨-,he⟩ | ⟨-,-,-,he⟩ <;> omega
    have hndr : (ids n (route k t.leftmost t.entries)).Nodup :=
      (List.nodup_flatMap.mp (FlatStore.kids_disjoint hnd).2).1 _ hmem
    obtain ⟨s1,hg,hrun⟩ := ih (hc _ hmem) hroute hac hh hfit.1 hpar.1 hndr
      (fun q hq => hlt q (hsub q hq)) hn1 (m + 1)
    have hready := grew_ready hb hr hh hst hc hnd hlt rfl hn1 hg
    obtain ⟨hle,hperm⟩ := insert_ids k v s.next hroute
    obtain ⟨s2,hg2,hrun2⟩ := hready.absorb_eq hfit.2 hn hpar.2 m
      (find k (leafFor k (n + 1) t).entries).isNone
    refine ⟨s2,⟨hg2.next,hg2.node,hg2.extra,fun q hq hql => ?_⟩,?_⟩
    · refine (hg2.agrees q (fun hm => ?_) ?_).trans (hg.agrees q (fun hm => hq (hsub q hm)) hql)
      · rcases List.mem_append.mp ((graftKids_ids hperm).mem_iff.mp hm) with hm | hm
        · exact hq hm
        · have := (mem_fresh hn1 hm).1
          omega
      · rw [hg.next]
        omega
    · rw [show m + (n + 1) = m + 1 + n by omega]
      exact hrun.trans hrun2

end BPlusTree

end StorageDb
