import Mathlib.Tactic
import StorageDb.Btree.Shape

namespace StorageDb
open SortedAssoc SepChain

namespace BranchNode

variable {C X : Type} {lab : C → PageId} {patch : PageId → C → C} {k : Bytes} {b : BranchNode C}
  {g : Grown C}

def kids (b : BranchNode C) : List C := children b.leftmost b.entries

-- The children after the routed one has become g, before any page splits.
def grafted (k : Bytes) (b : BranchNode C) (g : Grown C) : C × List (Bytes × C) :=
  graft k (fun _ => (g.node,g.extra.toList)) b.leftmost b.entries

def allKids (g : Grown (BranchNode C)) : List C :=
  g.node.kids ++ (g.extra.toList.flatMap (fun e => e.2.kids))

theorem splitAt_flatMap (m : C → List X) (hm : ∀ p c, m (patch p c) = m c) (b : BranchNode C)
    (hb : b.entries ≠ []) (next : Nat) :
    (allKids (b.splitAt patch next)).flatMap m = b.kids.flatMap m := by
  have hlt : b.entries.length / 2 < b.entries.length := by
    have := List.length_pos_iff.mpr hb
    omega
  have hmap (es : List (Bytes × C)) (p : PageId) :
      (es.map (fun x => (x.1,patch p x.2))).flatMap (fun e => m e.2) =
        es.flatMap (fun e => m e.2) := by
    rw [List.flatMap_map]
    simp only [hm]
  have hsplit : b.entries = b.entries.take (b.entries.length / 2) ++
      b.entries[b.entries.length / 2] :: b.entries.drop (b.entries.length / 2 + 1) := by
    rw [List.getElem_cons_drop,List.take_append_drop]
  have hkids : b.kids.flatMap m = m b.leftmost ++ b.entries.flatMap (fun e => m e.2) := by
    simp [kids,children,List.flatMap_map]
  rw [hkids]
  conv_rhs => rw [hsplit]
  simp only [allKids,splitAt,List.getElem?_eq_getElem hlt,Option.map_some,Option.toList_some,
    List.flatMap_cons,List.flatMap_nil,kids,children,List.flatMap_append,List.append_nil,
    List.flatMap_map,hm,List.append_assoc]

theorem grafted_ne_nil {s : Bytes} {r : C} (h : g.extra = some (s,r)) : (b.grafted k g).2 ≠ [] := by
  have hl := length_graft k (fun _ => (g.node,g.extra.toList)) b.leftmost b.entries
  rw [h] at hl
  intro he
  rw [grafted,h] at he
  rw [he] at hl
  simp at hl

theorem absorb_flatMap (m : C → List X) (hm : ∀ p c, m (patch p c) = m c) (b : BranchNode C)
    (g : Grown C) : (allKids (b.absorb lab patch k g)).flatMap m =
      (children (b.grafted k g).1 (b.grafted k g).2).flatMap m := by
  obtain ⟨node,extra,next⟩ := g
  cases extra with
  | none => simp [absorb,allKids,grafted,withChildren,kids]
  | some e =>
    obtain ⟨s,r⟩ := e
    simp only [absorb]
    split_ifs with hroom
    · simp only [allKids,grafted,withChildren,kids,Option.toList_none,List.flatMap_nil,
        List.append_nil,Option.toList_some,children_graft,List.flatMap_append]
      simp only [children,List.map_cons,List.map_nil,List.flatMap_cons,List.flatMap_nil,hm]
    · exact splitAt_flatMap m hm _ (grafted_ne_nil (g := ⟨node,some (s,r),next⟩) rfl) next

theorem absorb_chain {P : WithBot Bytes → WithTop Bytes → C → Prop} {lo : WithBot Bytes}
    {hi : WithTop Bytes} (hP : ∀ a c p x, P a c x → P a c (patch p x))
    (h : Chain P lo hi (b.grafted k g).1 (b.grafted k g).2)
    (hpatch : ∀ p, Chain P lo hi (b.grafted k { g with extra := g.extra.map (fun e =>
      (e.1,patch p e.2)) }).1 (b.grafted k { g with extra := g.extra.map (fun e =>
      (e.1,patch p e.2)) }).2) :
    Chain (fun a c (x : BranchNode C) => Chain P a c x.leftmost x.entries) lo hi
      (b.absorb lab patch k g).node (b.absorb lab patch k g).extra.toList := by
  obtain ⟨node,extra,next⟩ := g
  cases extra with
  | none => exact h
  | some e =>
    obtain ⟨s,r⟩ := e
    simp only [absorb]
    split_ifs with hroom
    · exact hpatch b.id
    · set b' := b.withChildren (graft k (fun _ => (node,[(s,r)])) b.leftmost b.entries) with hb'
      have hne : b'.entries ≠ [] := grafted_ne_nil (g := ⟨node,some (s,r),next⟩) rfl
      have hch : Chain P lo hi b'.leftmost b'.entries := h
      clear_value b'
      have hlt : b'.entries.length / 2 < b'.entries.length := by
        have := List.length_pos_iff.mpr hne
        omega
      have hsplit : b'.entries = b'.entries.take (b'.entries.length / 2) ++
          b'.entries[b'.entries.length / 2] :: b'.entries.drop (b'.entries.length / 2 + 1) := by
        rw [List.getElem_cons_drop,List.take_append_drop]
      rw [hsplit,← Prod.mk.eta (p := b'.entries[b'.entries.length / 2]),chain_append] at hch
      simp only [splitAt,List.getElem?_eq_getElem hlt,Option.map_some,Option.toList_some]
      refine ⟨hch.1,hch.2.1,hch.2.2.1,chain_map.mpr (chain_mono (fun a c x _ hx => ?_) hch.2.2.2)⟩
      exact hP a c _ x hx

theorem absorb_node (b : BranchNode C) (g : Grown C) :
    (b.absorb lab patch k g).node.id = b.id ∧ (b.absorb lab patch k g).node.parent = b.parent := by
  obtain ⟨node,extra,next⟩ := g
  cases extra with
  | none => exact ⟨rfl,rfl⟩
  | some e =>
    simp only [absorb]
    split_ifs <;> exact ⟨rfl,rfl⟩

theorem labels_sorted (lab : C → PageId) {es : List (Bytes × C)} (h : Sorted es) :
    Sorted (labels lab es) :=
  List.pairwise_map.mpr h

theorem labels_grafted (lab : C → PageId) (h : g.extra = none)
    (hl : lab g.node = lab (route k b.leftmost b.entries)) :
    lab (b.grafted k g).1 = lab b.leftmost ∧
      labels lab (b.grafted k g).2 = labels lab b.entries := by
  obtain ⟨h1,h2⟩ := labels_graft lab k (fun _ => (g.node,g.extra.toList)) b.leftmost b.entries hl
  refine ⟨h1,h2.trans ?_⟩
  rw [h]
  exact List.take_append_drop ..

-- The new separator lands at the same place by the search of internal_insert, by the search of
-- split_internal and by the position of the child that split.
theorem labels_grafted_split (lab : C → PageId) {s : Bytes} {r : C} (h : g.extra = some (s,r))
    (hl : lab g.node = lab (route k b.leftmost b.entries)) (hs : Sorted (b.grafted k g).2) :
    lab (b.grafted k g).1 = lab b.leftmost ∧
      labels lab (b.grafted k g).2 =
        (labels lab b.entries).insertIdx (reach s (labels lab b.entries)) (s,lab r) ∧
      rank s (labels lab b.entries) = reach s (labels lab b.entries) := by
  obtain ⟨h1,h2⟩ := labels_graft lab k (fun _ => (g.node,g.extra.toList)) b.leftmost b.entries hl
  have h3 : labels lab (b.grafted k g).2 = (labels lab b.entries).take (reach k b.entries) ++
      (s,lab r) :: (labels lab b.entries).drop (reach k b.entries) := by
    refine h2.trans ?_
    rw [h]
    rfl
  have hs' := labels_sorted lab hs
  rw [h3] at hs'
  have hpos := reach_of_sorted hs'
  rw [List.take_append_drop] at hpos
  have hle : reach k b.entries ≤ (labels lab b.entries).length :=
    (reach_le_length k b.entries).trans_eq (List.length_map ..).symm
  rw [List.length_take,Nat.min_eq_left hle] at hpos
  obtain ⟨-,hy,hlt⟩ := sorted_append.mp hs'
  have hrank : rank s ((labels lab b.entries).take (reach k b.entries) ++
      (labels lab b.entries).drop (reach k b.entries)) = _ :=
    rank_append_of_lt (fun x hx => hlt x hx (s,lab r) List.mem_cons_self)
      (fun y hy' => ((sorted_cons.mp hy).1 y hy').le)
  rw [List.take_append_drop,List.length_take,Nat.min_eq_left hle] at hrank
  refine ⟨h1,?_,hrank.trans hpos.symm⟩
  rw [h3,hpos,insertIdx_eq_take_cons_drop _ hle]

theorem absorb_next (b : BranchNode C) (g : Grown C) :
    ((b.absorb lab patch k g).extra = none ∧ (b.absorb lab patch k g).next = g.next) ∨
    ∃ e, (b.absorb lab patch k g).extra = some e ∧ e.2.id = UInt32.ofNat g.next ∧
      (b.absorb lab patch k g).next = g.next + 1 := by
  obtain ⟨node,extra,next⟩ := g
  cases extra with
  | none => exact Or.inl ⟨rfl,rfl⟩
  | some x =>
    obtain ⟨s,r⟩ := x
    simp only [absorb]
    split_ifs
    · exact Or.inl ⟨rfl,rfl⟩
    · have hne :
          (b.withChildren (graft k (fun _ => (node,[(s,r)])) b.leftmost b.entries)).entries ≠ []
        := grafted_ne_nil (g := ⟨node,some (s,r),next⟩) rfl
      have hlt := Nat.div_lt_self (List.length_pos_iff.mpr hne) Nat.one_lt_two
      simp only [splitAt,List.getElem?_eq_getElem hlt,Option.map_some]
      exact Or.inr ⟨_,rfl,rfl,trivial⟩

end BranchNode

namespace LeafNode

variable {k v : Bytes} {next : Nat}

theorem insert_node (l : LeafNode) :
    (l.insert k v next).node.id = l.id ∧ (l.insert k v next).node.parent = l.parent := by
  rw [insert]
  split_ifs <;> exact ⟨rfl,rfl⟩

theorem insert_cases (k v : Bytes) {l : LeafNode} (hs : Sorted l.entries) (next : Nat) :
    (((find k l.entries).isSome ∨ LeafRoom k v l.entries) ∧
      l.insert k v next = ⟨{ l with entries := upsert k v l.entries },none,next⟩) ∨
    (find k l.entries = none ∧ ¬ LeafRoom k v l.entries ∧ ∃ xs e ys,
      upsert k v l.entries = xs ++ e :: ys ∧ (l.entries ≠ [] → xs ≠ []) ∧
      xs.length = (upsert k v l.entries).length / 2 ∧
      l.insert k v next = ⟨{ l with entries := xs, sibling := UInt32.ofNat next },
        some (e.1,⟨UInt32.ofNat next,invalidPageId,l.sibling,e :: ys⟩),next + 1⟩) := by
  by_cases hc : (find k l.entries).isSome ∨ LeafRoom k v l.entries
  · exact Or.inl ⟨hc,if_pos hc⟩
  · refine Or.inr ?_
    obtain ⟨hf,hr⟩ := not_or.mp hc
    have hn : find k l.entries = none := by simpa using hf
    have hlen := length_upsert_of_absent (v := v) hs hn
    have hlt : (upsert k v l.entries).length / 2 < (upsert k v l.entries).length := by omega
    refine ⟨hn,hr,(upsert k v l.entries).take ((upsert k v l.entries).length / 2),
      (upsert k v l.entries)[(upsert k v l.entries).length / 2],
      (upsert k v l.entries).drop ((upsert k v l.entries).length / 2 + 1),?_,?_,?_,?_⟩
    · rw [List.getElem_cons_drop,List.take_append_drop]
    · intro hne
      have hpos := List.length_pos_iff.mpr hne
      rw [ne_eq,List.take_eq_nil_iff]
      rintro (h0 | h0)
      · omega
      · rw [h0] at hlen
        simp at hlen
    · rw [List.length_take]
      omega
    · rw [insert,if_neg hc,splitAt,List.drop_eq_getElem_cons hlt]
      rfl

end LeafNode

namespace Shape

variable {n next : Nat} {k v : Bytes} {lo : WithBot Bytes} {hi : WithTop Bytes}

@[simp] theorem id_setParent (p : PageId) (t : Shape n) : id n (setParent p n t) = id n t := by
  cases n <;> rfl

@[simp] theorem parent_setParent (p : PageId) (t : Shape n) : parent n (setParent p n t) = p := by
  cases n <;> rfl

@[simp] theorem leaves_setParent (p : PageId) (t : Shape n) :
    leaves n (setParent p n t) = leaves n t := by
  cases n <;> rfl

@[simp] theorem contents_setParent (p : PageId) (t : Shape n) :
    contents n (setParent p n t) = contents n t := by
  cases n <;> rfl

@[simp] theorem ids_setParent (p : PageId) (t : Shape n) : ids n (setParent p n t) = ids n t := by
  cases n <;> rfl

theorem bounded_setParent (p : PageId) (t : Shape n) :
    Bounded n lo hi (setParent p n t) ↔ Bounded n lo hi t := by
  cases n <;> rfl

theorem parentsOk_setParent (p : PageId) (t : Shape n) :
    ParentsOk n (setParent p n t) ↔ ParentsOk n t := by
  cases n <;> rfl

def all {X : Type} (m : (n : Nat) → Shape n → List X) (n : Nat) (g : Grown (Shape n)) : List X :=
  (children g.node g.extra.toList).flatMap (m n)

theorem insert_node (next : Nat) (t : Shape n) : id n (insert k v n next t).node = id n t ∧
    parent n (insert k v n next t).node = parent n t := by
  cases n with
  | zero => exact LeafNode.insert_node t
  | succ n => exact BranchNode.absorb_node _ _

theorem bounded_contents {t : Shape n} (h : Bounded n lo hi t) :
    Sorted (contents n t) ∧ ∀ e ∈ contents n t, InRange lo hi e.1 := by
  induction n generalizing lo hi with
  | zero => exact h
  | succ n ih =>
    exact ⟨contents_sorted (fun _ _ _ hx => (ih hx).1) (fun _ _ _ hx => (ih hx).2) h,
      contents_range (fun _ _ _ hx => (ih hx).2) h⟩

theorem contents_eq_leaves (t : Shape n) : contents n t = (leaves n t).flatMap (·.2.2) := by
  induction n with
  | zero => exact (List.append_nil _).symm
  | succ n ih =>
    change (children _ _).flatMap (contents n) = ((children _ _).flatMap (leaves n)).flatMap _
    rw [List.flatMap_assoc]
    exact congrArg (fun f => List.flatMap f _) (funext ih)

theorem all_kids {X : Type} {m : (n : Nat) → Shape n → List X}
    (hm : ∀ b : BranchNode (Shape n), m (n + 1) b = b.kids.flatMap (m n))
    (g : Grown (Shape (n + 1))) : all m (n + 1) g = (BranchNode.allKids g).flatMap (m n) := by
  simp only [all,BranchNode.allKids,children,List.flatMap_cons,List.flatMap_map,
    List.flatMap_append,List.flatMap_assoc]
  rw [hm]
  exact congrArg _ (congrArg (fun f => List.flatMap f _) (funext (fun e => hm e.2)))

theorem insert_kids {X : Type} (next : Nat) (m : Shape n → List X)
    (hm : ∀ p x, m (setParent p n x) = m x) (t : Shape (n + 1)) :
    (BranchNode.allKids (insert k v (n + 1) next t)).flatMap m =
      ((children t.leftmost t.entries).take (reach k t.entries)).flatMap m ++
        ((children (insert k v n next (route k t.leftmost t.entries)).node
          (insert k v n next (route k t.leftmost t.entries)).extra.toList).flatMap m ++
          ((children t.leftmost t.entries).drop (reach k t.entries + 1)).flatMap m) := by
  refine (BranchNode.absorb_flatMap m hm _ _).trans ?_
  rw [BranchNode.grafted,children_graft,List.flatMap_append,List.flatMap_append]

theorem insert_next (next : Nat) (t : Shape (n + 1)) :
    ((insert k v (n + 1) next t).extra = none ∧ (insert k v (n + 1) next t).next =
      (insert k v n next (route k t.leftmost t.entries)).next) ∨
    ∃ e, (insert k v (n + 1) next t).extra = some e ∧
      e.2.id = UInt32.ofNat (insert k v n next (route k t.leftmost t.entries)).next ∧
      (insert k v (n + 1) next t).next =
        (insert k v n next (route k t.leftmost t.entries)).next + 1 :=
  BranchNode.absorb_next _ _

theorem insert_leaves (k v : Bytes) (next : Nat) (t : Shape n) :
    ∃ A B, leaves n t = A ++ (leaves 0 (leafFor k n t) ++ B) ∧
      all leaves n (insert k v n next t) =
        A ++ (all leaves 0 ((leafFor k n t).insert k v next) ++ B) := by
  induction n with
  | zero => exact ⟨[],[],(List.append_nil _).symm,(List.append_nil _).symm⟩
  | succ n ih =>
    obtain ⟨A,B,h1,h2⟩ := ih (route k t.leftmost t.entries)
    refine ⟨((children t.leftmost t.entries).take (reach k t.entries)).flatMap (leaves n) ++ A,
      B ++ ((children t.leftmost t.entries).drop (reach k t.entries + 1)).flatMap (leaves n),?_,?_⟩
    · change (children t.leftmost t.entries).flatMap (leaves n) = _
      conv_lhs => rw [children_split k t.leftmost t.entries,List.flatMap_append,
        List.flatMap_cons,h1]
      simp only [List.append_assoc]
      rfl
    · have h3 : (children _ _).flatMap (leaves n) = _ := h2
      rw [all_kids (fun _ => rfl),insert_kids next (leaves n) (fun p x => leaves_setParent p x),h3]
      simp only [List.append_assoc]
      rfl

theorem halves_of_limits (hk : k.length ≤ maxKeySize) (hv : v.length ≤ maxValueSize)
    (lo : WithBot Bytes) (t : Shape n) : Halves k v n lo t := by
  intro _
  refine Or.inl ?_
  rw [LeafRoom,leafBytes_nil,pageSize_eq]
  simp only [maxKeySize,maxValueSize] at hk hv
  omega

theorem leaf_insert_bounded {l : LeafNode} (h : Bounded 0 lo hi l) (hr : InRange lo hi k)
    (hh : Halves k v 0 lo l) :
    Chain (Bounded 0) lo hi (l.insert k v next).node (l.insert k v next).extra.toList := by
  obtain ⟨hs,hb⟩ := h
  have hs' : Sorted (upsert k v l.entries) := sorted_upsert hs
  have hb' : ∀ e ∈ upsert k v l.entries, InRange lo hi e.1 := by
    intro e he
    rcases mem_upsert he with rfl | he
    · exact hr
    · exact hb e he
  rcases LeafNode.insert_cases k v hs next with ⟨-,he⟩ | ⟨-,hroom,xs,e,ys,hsplit,hne,-,he⟩
  · rw [he]
    exact ⟨hs',hb'⟩
  · have hsep : lo < e.1 := by
      by_cases hl : l.entries = []
      · rw [hl] at hroom
        have hlt : lo < k := (hh hl).resolve_left hroom
        rw [hl] at hsplit
        have hmem : e ∈ upsert k v ([] : List Entry) := hsplit ▸ by simp
        rcases mem_upsert hmem with rfl | hm
        · exact hlt
        · simp at hm
      · obtain ⟨x,hx⟩ := List.exists_mem_of_ne_nil xs (hne hl)
        rw [hsplit] at hs' hb'
        exact (hb' x (by simp [hx])).1.trans_lt
          (WithBot.coe_lt_coe.mpr ((sorted_append.mp hs').2.2 x hx e (by simp)))
    rw [he]
    rw [hsplit] at hs' hb'
    obtain ⟨h1,h2,h3⟩ := sorted_append.mp hs'
    obtain ⟨h4,-⟩ := sorted_cons.mp h2
    refine ⟨⟨h1,fun y hy => ⟨(hb' y (by simp [hy])).1,?_⟩⟩,hsep,
      (hb' e (by simp)).2,h2,fun y hy => ⟨?_,(hb' y (by simp [hy])).2⟩⟩
    · exact WithTop.coe_lt_coe.mpr (h3 y hy e (by simp))
    · rcases List.mem_cons.mp hy with rfl | hy
      · exact le_rfl
      · exact WithBot.coe_le_coe.mpr (h4 y hy).le

theorem insert_bounded {t : Shape n} (h : Bounded n lo hi t) (hr : InRange lo hi k)
    (hh : Halves k v n lo t) :
    Chain (Bounded n) lo hi (insert k v n next t).node (insert k v n next t).extra.toList := by
  induction n generalizing lo hi with
  | zero => exact leaf_insert_bounded h hr hh
  | succ n ih =>
    refine BranchNode.absorb_chain (fun _ _ p x hx => (bounded_setParent p x).mpr hx)
      (chain_graft h hr (fun c hac hx => ih hx hac hh) (fun _ _ _ hx => hx)) (fun p => ?_)
    refine chain_graft h hr (fun c hac hx => ?_) (fun _ _ _ hx => hx)
    have hc := ih hx hac hh
    rcases he : (insert k v n next (route k t.leftmost t.entries)).extra with _ | ⟨s,r⟩
    · rw [he] at hc
      exact hc
    · rw [he] at hc
      exact ⟨hc.1,hc.2.1,hc.2.2.1,(bounded_setParent p r).mpr hc.2.2.2⟩

theorem insert_contents {t : Shape n} (h : Bounded n lo hi t) (hr : InRange lo hi k) :
    all contents n (insert k v n next t) = upsert k v (contents n t) := by
  induction n generalizing lo hi with
  | zero =>
    have hl : all contents 0 (insert k v 0 next t) =
        (children (LeafNode.insert k v next t).node
          (LeafNode.insert k v next t).extra.toList).flatMap (fun l : LeafNode => l.entries) := rfl
    rw [hl]
    rcases LeafNode.insert_cases k v h.1 next with ⟨-,he⟩ | ⟨-,-,xs,e,ys,hsplit,-,-,he⟩
    · rw [he]
      exact List.append_nil _
    · rw [he]
      refine Eq.trans ?_ hsplit.symm
      simp [children]
  | succ n ih =>
    obtain ⟨A,B,hA,hf,hlt,hgt⟩ := contents_graft (g := contents n)
      (fun _ _ _ hx => (bounded_contents hx).2) h k
    obtain ⟨c,hac,hx⟩ := chain_route h hr
    rw [all_kids (fun _ => rfl)]
    refine (BranchNode.absorb_flatMap (contents n) (fun p x => contents_setParent p x) _ _).trans ?_
    refine (hf _).trans ?_
    have hrec : SepChain.contents (contents n) _ _ = _ := ih hx hac
    rw [hrec]
    refine Eq.trans ?_ (congrArg (upsert k v) hA.symm)
    exact (upsert_between hlt hgt).symm

theorem toNat_ofNat_next {m : Nat} (h : m < invalidPageId.toNat) : (UInt32.ofNat m).toNat = m :=
  UInt32.toNat_ofNat_of_lt' (h.trans (by decide))

def fresh (a b : Nat) : List PageId := (List.range' a (b - a)).map UInt32.ofNat

theorem fresh_succ {a b : Nat} (h : a ≤ b) : fresh a (b + 1) = fresh a b ++ [UInt32.ofNat b] := by
  rw [fresh,fresh,Nat.succ_sub h,List.range'_1_concat,List.map_append,Nat.add_sub_cancel' h]
  rfl

theorem all_ids (g : Grown (Shape (n + 1))) : (all ids (n + 1) g).Perm
    ([g.node.id] ++ (g.extra.toList.map (fun e => e.2.id) ++
      (BranchNode.allKids g).flatMap (ids n))) := by
  obtain ⟨node,extra,next⟩ := g
  cases extra with
  | none =>
    refine List.Perm.of_eq ?_
    simp [all,BranchNode.allKids,children,ids,BranchNode.kids,Shape.id]
  | some e =>
    refine List.perm_iff_count.mpr (fun x => ?_)
    have h1 : all ids (n + 1) ⟨node,some e,next⟩ = ([node.id] ++ node.kids.flatMap (ids n)) ++
        ([e.2.id] ++ e.2.kids.flatMap (ids n)) := by
      simp [all,children,ids,BranchNode.kids,Shape.id]
    have h2 : BranchNode.allKids (⟨node,some e,next⟩ : Grown (Shape (n + 1))) =
        node.kids ++ e.2.kids := by simp [BranchNode.allKids]
    rw [h1,h2]
    simp only [List.count_append,Option.toList_some,List.map_cons,List.map_nil,
      List.flatMap_append]
    omega

theorem insert_ids (k v : Bytes) (next : Nat) {t : Shape n} (h : Bounded n lo hi t) :
    next ≤ (insert k v n next t).next ∧
      (all ids n (insert k v n next t)).Perm
        (ids n t ++ fresh next (insert k v n next t).next) := by
  induction n generalizing lo hi with
  | zero =>
    have hl : insert k v 0 next t = LeafNode.insert k v next t := rfl
    rcases LeafNode.insert_cases k v h.1 next with ⟨-,he⟩ | ⟨-,-,xs,e,ys,-,-,-,he⟩
    · rw [hl,he]
      refine ⟨le_rfl,?_⟩
      simp [all,children,fresh,ids]
    · rw [hl,he]
      refine ⟨Nat.le_succ next,?_⟩
      simp [all,children,fresh,ids]
  | succ n ih =>
    obtain ⟨a,c,hx⟩ := chain_children h _ (route_mem k t.leftmost t.entries)
    obtain ⟨hle,hperm⟩ := ih hx
    have hkids := insert_kids (k := k) (v := v) next (ids n) (fun p x => ids_setParent p x) t
    have hids : ids (n + 1) t = [t.id] ++ (((children t.leftmost t.entries).take
        (reach k t.entries)).flatMap (ids n) ++ (ids n (route k t.leftmost t.entries) ++
          ((children t.leftmost t.entries).drop (reach k t.entries + 1)).flatMap (ids n))) := by
      change t.id :: (children t.leftmost t.entries).flatMap (ids n) = _
      conv_lhs => rw [children_split k t.leftmost t.entries,List.flatMap_append,List.flatMap_cons]
      rfl
    have hnode : (insert k v (n + 1) next t).node.id = t.id := (insert_node next t).1
    have hall := all_ids (insert k v (n + 1) next t)
    rw [hkids,hnode] at hall
    rcases insert_next (k := k) (v := v) next t with ⟨hex,hnext⟩ | ⟨e,hex,hid,hnext⟩
    · refine ⟨hnext ▸ hle,hall.trans ?_⟩
      rw [hids,hnext,hex]
      refine List.perm_iff_count.mpr (fun x => ?_)
      have := hperm.count_eq x
      simp only [List.count_append,all,Option.toList_none,List.map_nil,List.count_nil] at this ⊢
      omega
    · refine ⟨by omega,hall.trans ?_⟩
      rw [hids,hnext,hex,fresh_succ hle]
      refine List.perm_iff_count.mpr (fun x => ?_)
      have := hperm.count_eq x
      simp only [List.count_append,all,Option.toList_some,List.map_cons,List.map_nil,hid] at this ⊢
      omega

theorem mem_fresh {a b : Nat} (hb : b ≤ invalidPageId.toNat) {q : PageId} (h : q ∈ fresh a b) :
    a ≤ q.toNat ∧ q.toNat < b := by
  obtain ⟨i,hi,rfl⟩ := List.mem_map.mp h
  rw [List.mem_range'_1] at hi
  rw [toNat_ofNat_next (by omega)]
  omega

theorem fresh_nodup {a b : Nat} (hb : b ≤ invalidPageId.toNat) : (fresh a b).Nodup := by
  refine List.Nodup.map_on (fun i hi j hj he => ?_) List.nodup_range'
  rw [List.mem_range'_1] at hi hj
  have h := congrArg UInt32.toNat he
  rwa [toNat_ofNat_next (by omega),toNat_ofNat_next (by omega)] at h

theorem nodup_fresh {xs ys : List PageId} {a b : Nat} (hperm : ys.Perm (xs ++ fresh a b))
    (hab : a ≤ b) (hb : b ≤ invalidPageId.toNat) (hx : xs.Nodup) (hlt : ∀ q ∈ xs, q.toNat < a) :
    ys.Nodup ∧ ∀ q ∈ ys, q.toNat < b := by
  refine ⟨hperm.nodup_iff.mpr (List.nodup_append.mpr ⟨hx,fresh_nodup hb,?_⟩),fun q hq => ?_⟩
  · rintro q hq _ hf rfl
    have := hlt q hq
    have := (mem_fresh hb hf).1
    omega
  · rcases List.mem_append.mp (hperm.mem_iff.mp hq) with hq | hq
    · exact (hlt q hq).trans_le hab
    · exact (mem_fresh hb hq).2

end Shape

end StorageDb
