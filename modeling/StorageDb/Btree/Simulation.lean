import Mathlib.Tactic
import StorageDb.Btree.Stored

namespace StorageDb
open SortedAssoc SepChain Shape

namespace FlatStore

variable {n : Nat} {s s' : FlatStore} {t : Shape n}

def Agrees (s s' : FlatStore) (except : List PageId) : Prop :=
  ∀ q, q ∉ except → s'.pages q = s.pages q

theorem kids_disjoint {b : BranchNode (Shape n)} (h : (ids (n + 1) b).Nodup) :
    b.id ∉ b.kids.flatMap (ids n) ∧ (b.kids.flatMap (ids n)).Nodup := List.nodup_cons.mp h

theorem setParentOf_eq (h : Stored s.pages n t) (hnd : (ids n t).Nodup) (p : PageId) :
    ∃ s', (BPlusTree.setParentOf p (Shape.id n t) : Prog Error FlatStore Unit) s = (.ok (),s') ∧
      Stored s'.pages n (Shape.setParent p n t) ∧ s'.next = s.next ∧
      Agrees s s' [Shape.id n t] := by
  cases n with
  | zero =>
    obtain ⟨nd,h⟩ := h
    have hid : (nd.setParent p).page.id = t.id := h.id
    refine ⟨s.put (nd.setParent p).sealed.page,?_,⟨(nd.setParent p).sealed,?_⟩,rfl,fun q hq => ?_⟩
    · exact (Prog.bind_ok (readNode_eq h.page)).trans
        (writeNode_eq ((congrArg s.pages hid).trans h.page))
    · have hs := leafStored_put s (h.layout.of_setParent (by decide) p)
      rw [BTreeNode.header_setParent] at hs
      simp only [BTreeNode.header,h.id,h.sibling] at hs
      exact hs
    · exact s.pages_seal_ne (fun e => hq (by rw [e]; exact List.mem_singleton.mpr hid))
  | succ n =>
    obtain ⟨⟨nd,h⟩,hc⟩ := h
    have hid : (nd.setParent p).page.id = t.id := h.id
    have hne (q : PageId) (hq : q ≠ t.id) :
        (s.put (nd.setParent p).sealed.page).pages q = s.pages q :=
      s.pages_seal_ne (fun e => hq (e.trans hid))
    refine ⟨s.put (nd.setParent p).sealed.page,?_,⟨⟨(nd.setParent p).sealed,?_⟩,fun c hm => ?_⟩,rfl,
      fun q hq => hne q (by simpa using hq)⟩
    · exact (Prog.bind_ok (readNode_eq h.page)).trans
        (writeNode_eq ((congrArg s.pages hid).trans h.page))
    · have hs := branchStored_put s (h.layout.of_setParent p)
      rw [BTreeNode.header_setParent] at hs
      simp only [BTreeNode.header,h.id] at hs
      exact hs
    · refine (hc c hm).congr (fun q hq => hne q ?_)
      rintro rfl
      exact (kids_disjoint hnd).1 (List.mem_flatMap.mpr ⟨c,hm,hq⟩)

theorem setParents_eq {cs : List (Shape n)} (h : ∀ c ∈ cs, Stored s.pages n c)
    (hnd : (cs.flatMap (ids n)).Nodup) (p : PageId) :
    ∃ s', (BPlusTree.setParents p (cs.map (Shape.id n)) : Prog Error FlatStore Unit) s =
        (.ok (),s') ∧
      (∀ c ∈ cs, Stored s'.pages n (Shape.setParent p n c)) ∧ s'.next = s.next ∧
      Agrees s s' (cs.map (Shape.id n)) := by
  induction cs generalizing s with
  | nil => exact ⟨s,rfl,by simp,rfl,fun _ _ => rfl⟩
  | cons c cs ih =>
    rw [List.flatMap_cons,List.nodup_append] at hnd
    obtain ⟨hc,hcs,hdis⟩ := hnd
    obtain ⟨s1,h1,hst1,hn1,ha1⟩ := setParentOf_eq (h c List.mem_cons_self) hc p
    have hrest : ∀ d ∈ cs, Stored s1.pages n d := by
      intro d hd
      refine (h d (List.mem_cons_of_mem _ hd)).congr (fun q hq => ha1 q ?_)
      intro hm
      refine hdis _ (id_mem_ids c) q (List.mem_flatMap.mpr ⟨d,hd,hq⟩) ?_
      exact (List.mem_singleton.mp hm).symm
    obtain ⟨s2,h2,hst2,hn2,ha2⟩ := ih hrest hcs
    refine ⟨s2,?_,?_,hn2.trans hn1,?_⟩
    · rw [List.map_cons,BPlusTree.setParents,Prog.bind_ok h1]
      exact h2
    · intro d hd
      rcases List.mem_cons.mp hd with rfl | hd
      · refine hst1.congr (fun q hq => ha2 q ?_)
        rw [ids_setParent] at hq
        intro hm
        obtain ⟨x,hx,rfl⟩ := List.mem_map.mp hm
        exact hdis _ hq _ (List.mem_flatMap.mpr ⟨x,hx,id_mem_ids x⟩) rfl
      · exact hst2 d hd
    · intro q hq
      rw [List.map_cons,List.mem_cons,not_or] at hq
      exact (ha2 q hq.2).trans (ha1 q (by simpa using hq.1))

end FlatStore

namespace BPlusTree

variable {n : Nat} {s : FlatStore} {k : Bytes} {lo : WithBot Bytes} {hi : WithTop Bytes}

theorem descend_eq {choose : BTreeNode → Option PageId} (pick : (n : Nat) → Shape (n + 1) → Shape n)
    {P : (n : Nat) → Shape n → Prop} (hP : ∀ n (b : Shape (n + 1)), P (n + 1) b → P n (pick n b))
    (hpick : ∀ n (b : Shape (n + 1)), pick n b ∈ BranchNode.kids b)
    (hch : ∀ n (b : Shape (n + 1)) nd, P (n + 1) b → BranchStored s.pages (Shape.id n) b nd →
      choose nd = some (Shape.id n (pick n b)))
    (leaf : (n : Nat) → Shape n → LeafNode) (hl0 : ∀ l, leaf 0 l = l)
    (hl : ∀ n b, leaf (n + 1) b = leaf n (pick n b)) {t : Shape n} (h : Stored s.pages n t)
    (ht : P n t) {fuel : Nat} (hf : n < fuel) :
    (descend choose fuel (Shape.id n t) : Prog Error FlatStore PageId) s =
      (.ok (leaf n t).id,s) := by
  induction n generalizing fuel with
  | zero =>
    obtain ⟨fuel,rfl⟩ : ∃ m, fuel = m + 1 := ⟨fuel - 1,by omega⟩
    obtain ⟨nd,h⟩ := h
    refine (Prog.bind_ok (FlatStore.readNode_eq h.page)).trans ?_
    rw [h.layout.isLeaf_eq,hl0]
    rfl
  | succ n ih =>
    obtain ⟨fuel,rfl⟩ : ∃ m, fuel = m + 1 := ⟨fuel - 1,by omega⟩
    obtain ⟨⟨nd,hb⟩,hc⟩ := h
    refine (Prog.bind_ok (FlatStore.readNode_eq hb.page)).trans ?_
    rw [hb.layout.isLeaf_eq,hch n t nd ht hb,hl]
    exact ih (hc _ (hpick n t)) (hP n t ht) (by omega)

theorem findLeaf_eq {t : Shape n} (h : Stored s.pages n t) (hb : Bounded n lo hi t) (k : Bytes)
    {fuel : Nat} (hf : n < fuel) :
    (findLeaf ⟨Shape.id n t⟩ fuel k : Prog Error FlatStore PageId) s =
      (.ok (leafFor k n t).id,s) := by
  refine descend_eq (fun _ b => route k b.leftmost b.entries)
    (P := fun n b => ∃ lo hi, Bounded n lo hi b) ?_ ?_ ?_ (leafFor k) (fun _ => rfl)
    (fun _ _ => rfl) h ⟨lo,hi,hb⟩ hf
  · rintro n b ⟨lo,hi,hb⟩
    exact chain_children hb _ (route_mem k b.leftmost b.entries)
  · exact fun n b => route_mem k b.leftmost b.entries
  · rintro n b nd ⟨lo,hi,hb⟩ hs
    have hsorted : Sorted (labels (Shape.id n) b.entries) := by
      have := (chain_sorted hb).1
      exact List.pairwise_map.mpr this
    have hch := getElem?_children_reach k (Shape.id n b.leftmost) (labels (Shape.id n) b.entries)
    rw [hs.layout.internalFindChild_eq hsorted]
    refine (hs.layout.internalChild_eq hch).trans ?_
    rw [route_labels]

end BPlusTree

end StorageDb
