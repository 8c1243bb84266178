import Mathlib.Tactic
import StorageDb.Btree.ShapeInsert

namespace StorageDb
open SortedAssoc SepChain

namespace Shape

variable {n next : Nat} {k v : Bytes} {lo : WithBot Bytes} {hi : WithTop Bytes} {q : PageId}

def keys : (n : Nat) → Shape n → List Bytes
  | 0, (l : LeafNode) => l.entries.map Prod.fst
  | n + 1, (b : BranchNode (Shape n)) =>
    b.entries.map Prod.fst ++ (children b.leftmost b.entries).flatMap (keys n)

def firstId (ls : List LeafView) (q : PageId) : PageId :=
  match ls with
  | [] => q
  | l :: _ => l.1

-- Each leaf's sibling link names the leaf after it; the last one names q.
def LinkedTo : List LeafView → PageId → Prop
  | [], _ => True
  | l :: ls, q => l.2.1 = firstId ls q ∧ LinkedTo ls q

theorem firstId_append (xs ys : List LeafView) (q : PageId) :
    firstId (xs ++ ys) q = firstId xs (firstId ys q) := by
  cases xs <;> rfl

theorem linkedTo_append {xs ys : List LeafView} :
    LinkedTo (xs ++ ys) q ↔ LinkedTo xs (firstId ys q) ∧ LinkedTo ys q := by
  induction xs with
  | nil => simp [LinkedTo]
  | cons x xs ih => rw [List.cons_append,LinkedTo,LinkedTo,ih,firstId_append,and_assoc]

theorem linked_replace {A X Y B : List LeafView} (hf : ∀ q, firstId Y q = firstId X q)
    (hl : ∀ q, LinkedTo X q → LinkedTo Y q) (h : LinkedTo (A ++ (X ++ B)) q) :
    LinkedTo (A ++ (Y ++ B)) q := by
  rw [linkedTo_append,linkedTo_append,firstId_append] at h ⊢
  rw [hf]
  exact ⟨h.1,hl _ h.2.1,h.2.2⟩

theorem mem_labels_graft {C : Type} {f : C → C × List (Bytes × C)} {c : C} {es : List (Bytes × C)}
    {x : Bytes} (h : x ∈ (graft k f c es).2.map Prod.fst) :
    x ∈ (f (route k c es)).2.map Prod.fst ∨ x ∈ es.map Prod.fst := by
  have hl := (labels_graft (fun _ => ()) k f c es rfl).2
  have hmap (zs : List (Bytes × C)) : zs.map Prod.fst = (labels (fun _ => ()) zs).map Prod.fst := by
    simp [labels,Function.comp_def]
  rw [hmap,hl,List.map_append,List.map_append,List.mem_append,List.mem_append] at h
  rcases h with h | h | h
  · refine Or.inr ?_
    rw [hmap es]
    exact List.map_subset _ (List.take_subset _ _) h
  · refine Or.inl ?_
    rwa [hmap]
  · refine Or.inr ?_
    rw [hmap es]
    exact List.map_subset _ (List.drop_subset _ _) h

end Shape

namespace BranchNode

variable {C : Type} {lab : C → PageId} {patch : PageId → C → C} {k x : Bytes} {b : BranchNode C}
  {g : Grown C}

theorem absorb_keys (h : x ∈ (b.absorb lab patch k g).extra.toList.map Prod.fst ∨
      x ∈ (b.absorb lab patch k g).node.entries.map Prod.fst ∨
      ∃ e ∈ (b.absorb lab patch k g).extra.toList, x ∈ e.2.entries.map Prod.fst) :
    x ∈ g.extra.toList.map Prod.fst ∨ x ∈ b.entries.map Prod.fst := by
  obtain ⟨node,extra,next⟩ := g
  cases extra with
  | none =>
    simp only [absorb,Option.toList_none,List.map_nil,List.not_mem_nil,false_and,exists_false,
      false_or,or_false] at h
    exact Shape.mem_labels_graft h
  | some e =>
    obtain ⟨s,r⟩ := e
    simp only [absorb] at h
    split_ifs at h
    · simp only [Option.toList_none,List.map_nil,List.not_mem_nil,false_and,exists_false,
        false_or,or_false] at h
      exact Shape.mem_labels_graft h
    · set es := (graft k (fun _ => (node,[(s,r)])) b.leftmost b.entries).2 with hes
      have hx : x ∈ es.map Prod.fst := by
        simp only [splitAt,withChildren] at h
        rcases h with h | h | ⟨e,he,h⟩
        · obtain ⟨e,he,rfl⟩ := List.mem_map.mp h
          obtain ⟨y,hy,rfl⟩ := Option.map_eq_some_iff.mp (Option.mem_toList.mp he)
          exact List.mem_map_of_mem (List.mem_of_getElem? hy)
        · exact List.map_subset _ (List.take_subset _ _) h
        · obtain ⟨y,hy,rfl⟩ := Option.map_eq_some_iff.mp (Option.mem_toList.mp he)
          rw [List.map_map] at h
          exact List.map_subset _ (List.drop_subset _ _) h
      exact Shape.mem_labels_graft hx

end BranchNode

namespace Shape

variable {n next : Nat} {k v x : Bytes} {lo : WithBot Bytes} {hi : WithTop Bytes} {q : PageId}

theorem insert_keys (next : Nat) {t : Shape n} (hb : Bounded n lo hi t)
    (hx : x ∈ (insert k v n next t).extra.toList.map Prod.fst ∨
      x ∈ all keys n (insert k v n next t)) : x = k ∨ x ∈ keys n t := by
  induction n generalizing lo hi with
  | zero =>
    have hup : ∀ e ∈ upsert k v t.entries, e.1 = k ∨ e.1 ∈ keys 0 t := fun e he =>
      (mem_upsert he).imp (congrArg Prod.fst) List.mem_map_of_mem
    have hl : insert k v 0 next t = LeafNode.insert k v next t := rfl
    rw [hl] at hx
    rcases LeafNode.insert_cases k v hb.1 next with ⟨-,he⟩ | ⟨-,-,xs,e,ys,hsplit,-,-,he⟩
    · rw [he] at hx
      simp only [all,children,Option.toList_none,List.map_nil,List.not_mem_nil,false_or,
        List.flatMap_cons,List.flatMap_nil,List.append_nil] at hx
      obtain ⟨y,hy,rfl⟩ := List.mem_map.mp hx
      exact hup y hy
    · rw [he] at hx
      rw [hsplit] at hup
      have hmem : x ∈ (xs ++ e :: ys).map Prod.fst := by
        simp only [all,children,keys,Option.toList_some,List.map_cons,List.map_nil,
          List.flatMap_cons,List.flatMap_nil,List.append_nil,List.map_append,List.mem_append,
          List.mem_cons,List.not_mem_nil,or_false] at hx ⊢
        tauto
      obtain ⟨y,hy,rfl⟩ := List.mem_map.mp hmem
      exact hup y hy
  | succ n ih =>
    obtain ⟨a,c,hc⟩ := chain_children hb _ (route_mem k t.leftmost t.entries)
    have hkeys : ∀ y ∈ t.entries.map Prod.fst, y ∈ keys (n + 1) t := fun y hy =>
      List.mem_append_left _ hy
    have hkid : ∀ c ∈ children t.leftmost t.entries, ∀ y ∈ keys n c, y ∈ keys (n + 1) t :=
      fun c hc y hy => List.mem_append_right _ (List.mem_flatMap.mpr ⟨c,hc,hy⟩)
    have hroute := hkid _ (route_mem k t.leftmost t.entries)
    have hsep (h : x ∈ (insert k v (n + 1) next t).extra.toList.map Prod.fst ∨
        x ∈ (insert k v (n + 1) next t).node.entries.map Prod.fst ∨
        ∃ e ∈ (insert k v (n + 1) next t).extra.toList, x ∈ e.2.entries.map Prod.fst) :
        x = k ∨ x ∈ keys (n + 1) t := by
      rcases BranchNode.absorb_keys h with h | h
      · exact (ih hc (Or.inl h)).imp_right (hroute x)
      · exact Or.inr (hkeys x h)
    have hkids (h : x ∈ (BranchNode.allKids (insert k v (n + 1) next t)).flatMap (keys n)) :
        x = k ∨ x ∈ keys (n + 1) t := by
      have hm : ∀ p (y : Shape n), keys n (setParent p n y) = keys n y := by
        intro p y
        cases n <;> rfl
      rw [insert_kids next (keys n) hm,List.mem_append,List.mem_append] at h
      rcases h with h | h | h
      · obtain ⟨c,hc,hy⟩ := List.mem_flatMap.mp h
        exact Or.inr (hkid c (List.mem_of_mem_take hc) x hy)
      · exact (ih hc (Or.inr h)).imp_right (hroute x)
      · obtain ⟨c,hc,hy⟩ := List.mem_flatMap.mp h
        exact Or.inr (hkid c (List.mem_of_mem_drop hc) x hy)
    rcases hx with hx | hx
    · exact hsep (Or.inl hx)
    · rw [all,children,List.flatMap_cons,List.mem_append,List.flatMap_map] at hx
      rcases hx with hx | hx
      · rcases List.mem_append.mp hx with hx | hx
        · exact hsep (Or.inr (Or.inl hx))
        · refine hkids ?_
          rw [BranchNode.allKids,List.flatMap_append]
          exact List.mem_append_left _ hx
      · obtain ⟨e,he,hx⟩ := List.mem_flatMap.mp hx
        rcases List.mem_append.mp hx with hx | hx
        · exact hsep (Or.inr (Or.inr ⟨e,he,hx⟩))
        · refine hkids ?_
          rw [BranchNode.allKids,List.flatMap_append,List.flatMap_assoc]
          exact List.mem_append_right _ (List.mem_flatMap.mpr ⟨e,he,hx⟩)

theorem leaf_linked (k v : Bytes) (next : Nat) {l : LeafNode} (hs : Sorted l.entries) :
    (∀ q, firstId (all leaves 0 (l.insert k v next)) q = l.id) ∧
      ∀ q, l.sibling = q → LinkedTo (all leaves 0 (l.insert k v next)) q := by
  rcases LeafNode.insert_cases k v hs next with ⟨-,he⟩ | ⟨-,-,xs,e,ys,-,-,-,he⟩
  · rw [he]
    exact ⟨fun _ => rfl,fun q hq => ⟨hq,trivial⟩⟩
  · rw [he]
    exact ⟨fun _ => rfl,fun q hq => ⟨rfl,hq,trivial⟩⟩

theorem leafFor_bounded {t : Shape n} (h : Bounded n lo hi t) (k : Bytes) :
    Sorted (leafFor k n t).entries := by
  induction n generalizing lo hi with
  | zero => exact h.1
  | succ n ih =>
    obtain ⟨a,c,hc⟩ := chain_children h _ (route_mem k t.leftmost t.entries)
    exact ih hc

theorem insert_linked (k v : Bytes) {t : Shape n} (hb : Bounded n lo hi t) (q : PageId) :
    firstId (all leaves n (insert k v n next t)) q = firstId (leaves n t) q ∧
      (LinkedTo (leaves n t) q → LinkedTo (all leaves n (insert k v n next t)) q) := by
  obtain ⟨A,B,h1,h2⟩ := insert_leaves k v next t
  obtain ⟨hf,hl⟩ := leaf_linked k v next (leafFor_bounded hb k)
  rw [h1,h2]
  refine ⟨?_,linked_replace hf (fun q hq => hl q hq.1)⟩
  simp only [firstId_append,hf]
  rfl

theorem find_contents {t : Shape n} (hb : Bounded n lo hi t) (k : Bytes) :
    find k (contents n t) = find k (leafFor k n t).entries := by
  induction n generalizing lo hi with
  | zero => rfl
  | succ n ih =>
    obtain ⟨A,B,hA,-,hlt,hgt⟩ := contents_graft (g := contents n)
      (fun _ _ _ hx => (bounded_contents hx).2) hb k
    obtain ⟨a,c,hc⟩ := chain_children hb _ (route_mem k t.leftmost t.entries)
    change find k (SepChain.contents (contents n) t.leftmost t.entries) = _
    rw [hA,find_append_of_lt hlt,find_append_of_gt hgt]
    exact ih hc

section delete

theorem id_delete (k : Bytes) (t : Shape n) : id n (delete k n t) = id n t := by
  cases n <;> rfl

theorem parent_delete (k : Bytes) (t : Shape n) : parent n (delete k n t) = parent n t := by
  cases n <;> rfl

theorem delete_kids {X : Type} (m : Shape n → List X) (k : Bytes) (t : Shape (n + 1)) :
    (BranchNode.kids (delete k (n + 1) t)).flatMap m =
      ((children t.leftmost t.entries).take (reach k t.entries)).flatMap m ++
        (m (delete k n (route k t.leftmost t.entries)) ++
          ((children t.leftmost t.entries).drop (reach k t.entries + 1)).flatMap m) := by
  change (children (graft k _ t.leftmost t.entries).1
    (graft k _ t.leftmost t.entries).2).flatMap m = _
  rw [children_graft]
  simp [children]

theorem kids_flatMap {X : Type} (m : Shape n → List X) (k : Bytes) (t : Shape (n + 1)) :
    (BranchNode.kids t).flatMap m =
      ((children t.leftmost t.entries).take (reach k t.entries)).flatMap m ++
        (m (route k t.leftmost t.entries) ++
          ((children t.leftmost t.entries).drop (reach k t.entries + 1)).flatMap m) := by
  conv_lhs => rw [BranchNode.kids,children_split k t.leftmost t.entries,List.flatMap_append,
    List.flatMap_cons]

theorem ids_delete (k : Bytes) (t : Shape n) : ids n (delete k n t) = ids n t := by
  induction n with
  | zero => rfl
  | succ n ih =>
    change t.id :: (BranchNode.kids _).flatMap (ids n) = t.id :: (BranchNode.kids t).flatMap (ids n)
    rw [delete_kids,kids_flatMap (ids n) k,ih]

theorem delete_leaves (k : Bytes) (t : Shape n) :
    ∃ A B, leaves n t = A ++ (leaves 0 (leafFor k n t) ++ B) ∧
      leaves n (delete k n t) = A ++ (leaves 0 (delete k 0 (leafFor k n t)) ++ B) := by
  induction n with
  | zero => exact ⟨[],[],(List.append_nil _).symm,(List.append_nil _).symm⟩
  | succ n ih =>
    obtain ⟨A,B,h1,h2⟩ := ih (route k t.leftmost t.entries)
    refine ⟨((children t.leftmost t.entries).take (reach k t.entries)).flatMap (leaves n) ++ A,
      B ++ ((children t.leftmost t.entries).drop (reach k t.entries + 1)).flatMap (leaves n),?_,?_⟩
    · change (BranchNode.kids t).flatMap (leaves n) = _
      rw [kids_flatMap (leaves n) k,h1]
      simp only [List.append_assoc]
      rfl
    · change (BranchNode.kids _).flatMap (leaves n) = _
      rw [delete_kids,h2]
      simp only [List.append_assoc]
      rfl

theorem delete_linked (k : Bytes) (t : Shape n) (q : PageId) :
    firstId (leaves n (delete k n t)) q = firstId (leaves n t) q ∧
      (LinkedTo (leaves n t) q → LinkedTo (leaves n (delete k n t)) q) := by
  obtain ⟨A,B,h1,h2⟩ := delete_leaves k t
  rw [h1,h2]
  refine ⟨?_,linked_replace (fun _ => rfl) (fun _ h => h)⟩
  simp only [firstId_append]
  rfl

theorem delete_bounded {t : Shape n} (hb : Bounded n lo hi t) (hr : InRange lo hi k) :
    Bounded n lo hi (delete k n t) := by
  induction n generalizing lo hi with
  | zero => exact ⟨sorted_erase hb.1,fun e he => hb.2 e (List.mem_of_mem_filter he)⟩
  | succ n ih => exact chain_graft hb hr (fun _ hx hy => ih hy hx) (fun _ _ _ hx => hx)

theorem delete_contents {t : Shape n} (hb : Bounded n lo hi t) :
    contents n (delete k n t) = erase k (contents n t) := by
  induction n generalizing lo hi with
  | zero => rfl
  | succ n ih =>
    obtain ⟨A,B,hA,hf,hlt,hgt⟩ := contents_graft (g := contents n)
      (fun _ _ _ hx => (bounded_contents hx).2) hb k
    obtain ⟨a,c,hc⟩ := chain_children hb _ (route_mem k t.leftmost t.entries)
    refine (hf (fun c => (delete k n c,[]))).trans ?_
    refine Eq.trans ?_ (congrArg (erase k) hA.symm)
    rw [erase_append,erase_append,erase_of_not_mem (fun e he => (hlt e he).ne),
      erase_of_not_mem (fun e he => (hgt e he).ne'),← ih hc]
    simp [SepChain.contents,children]

theorem delete_keys {t : Shape n} (h : x ∈ keys n (delete k n t)) : x ∈ keys n t := by
  induction n with
  | zero => exact List.map_subset _ (List.filter_subset_self _) h
  | succ n ih =>
    rcases List.mem_append.mp h with h | h
    · rcases mem_labels_graft h with h | h
      · simp at h
      · exact List.mem_append_left _ h
    · refine List.mem_append_right _ ?_
      have h' : x ∈ (BranchNode.kids (delete k (n + 1) t)).flatMap (keys n) := h
      change x ∈ (BranchNode.kids t).flatMap (keys n)
      rw [delete_kids,List.mem_append,List.mem_append] at h'
      rw [kids_flatMap (keys n) k,List.mem_append,List.mem_append]
      exact h'.imp_right (Or.imp_left ih)

end delete

end Shape

structure RootedTree where
  depth : Nat
  shape : Shape depth
  next : Nat

namespace RootedTree
open Shape

variable {k v : Bytes} {t : RootedTree}

def id (t : RootedTree) : PageId := Shape.id t.depth t.shape

def contents (t : RootedTree) : List Entry := Shape.contents t.depth t.shape

def leafOf (k : Bytes) (t : RootedTree) : LeafNode := Shape.leafFor k t.depth t.shape

def leaves (t : RootedTree) : List LeafView := Shape.leaves t.depth t.shape

def grown (k v : Bytes) (t : RootedTree) : Grown (Shape t.depth) :=
  Shape.insert k v t.depth t.next t.shape

-- A root that splits gets a new root above it.
def raise {n : Nat} (g : Grown (Shape n)) : RootedTree :=
  match g.extra with
  | none => ⟨n,g.node,g.next⟩
  | some (sep,r) =>
    ⟨n + 1,⟨UInt32.ofNat g.next,invalidPageId,setParent (UInt32.ofNat g.next) n g.node,
      [(sep,setParent (UInt32.ofNat g.next) n r)]⟩,g.next + 1⟩

def insert (k v : Bytes) (t : RootedTree) : RootedTree := raise (t.grown k v)

def delete (k : Bytes) (t : RootedTree) : RootedTree := { t with shape := Shape.delete k _ t.shape }

structure Sound (t : RootedTree) : Prop where
  bounded : Bounded t.depth ⊥ ⊤ t.shape
  nodup : (ids t.depth t.shape).Nodup
  below : ∀ q ∈ ids t.depth t.shape, q.toNat < t.next
  linked : LinkedTo t.leaves invalidPageId
  next : t.next ≤ invalidPageId.toNat

-- The keys keep to MAX_KEY_SIZE, which the source declares and checks nowhere.
structure WellFormed (t : RootedTree) : Prop extends Sound t where
  keys : ∀ x ∈ keys t.depth t.shape, x.length ≤ maxKeySize

theorem Sound.sorted (h : t.Sound) : Sorted t.contents := (bounded_contents h.bounded).1

theorem Sound.find_contents (h : t.Sound) (k : Bytes) :
    find k t.contents = find k (leafFor k t.depth t.shape).entries :=
  Shape.find_contents h.bounded k

theorem Sound.delete (h : t.Sound) (k : Bytes) : (t.delete k).Sound where
  bounded := delete_bounded h.bounded (inRange_bot_top k)
  nodup := (ids_delete k t.shape).symm ▸ h.nodup
  below := (ids_delete k t.shape).symm ▸ h.below
  linked := (delete_linked k t.shape _).2 h.linked
  next := h.next

theorem Sound.contents_delete (h : t.Sound) (k : Bytes) :
    (t.delete k).contents = erase k t.contents := Shape.delete_contents h.bounded

theorem WellFormed.delete (h : t.WellFormed) (k : Bytes) : (t.delete k).WellFormed :=
  ⟨h.toSound.delete k,fun x hx => h.keys x (delete_keys hx)⟩

theorem flatMap_raise {X : Type} {n : Nat} (m : (n : Nat) → Shape n → List X)
    (hm : ∀ n p (x : Shape n), m n (setParent p n x) = m n x)
    (hkids : ∀ n (b : Shape (n + 1)), m (n + 1) b = (BranchNode.kids b).flatMap (m n))
    (g : Grown (Shape n)) : m (raise g).depth (raise g).shape = all m n g := by
  obtain ⟨node,extra,next⟩ := g
  rcases extra with _ | ⟨sep,r⟩
  · simp [raise,all,children]
  · simp [raise,all,children,hkids,hm,BranchNode.kids]

theorem leaves_raise {n : Nat} (g : Grown (Shape n)) : (raise g).leaves = all Shape.leaves n g :=
  flatMap_raise Shape.leaves (fun _ p x => leaves_setParent p x) (fun _ _ => rfl) g

theorem contents_raise {n : Nat} (g : Grown (Shape n)) :
    (raise g).contents = all Shape.contents n g :=
  flatMap_raise Shape.contents (fun _ p x => contents_setParent p x) (fun _ _ => rfl) g

theorem leaves_insert (k v : Bytes) (h : t.Sound) (q : PageId) :
    firstId (t.insert k v).leaves q = firstId t.leaves q ∧
      (LinkedTo t.leaves q → LinkedTo (t.insert k v).leaves q) := by
  rw [insert,leaves_raise]
  exact insert_linked k v h.bounded q

theorem raise_depth {n : Nat} (g : Grown (Shape n)) : (raise g).depth ≤ n + 1 := by
  obtain ⟨node,extra,next⟩ := g
  rcases extra with _ | ⟨sep,r⟩
  · exact Nat.le_succ n
  · exact le_rfl

theorem ids_raise {n : Nat} (g : Grown (Shape n)) : g.next ≤ (raise g).next ∧
    (ids (raise g).depth (raise g).shape).Perm (all ids n g ++ fresh g.next (raise g).next) := by
  obtain ⟨node,extra,next⟩ := g
  rcases extra with _ | ⟨sep,r⟩
  · refine ⟨le_rfl,?_⟩
    simp [raise,all,children,fresh]
  · refine ⟨Nat.le_succ next,?_⟩
    have h : ids (n + 1) (raise ⟨node,some (sep,r),next⟩).shape =
        UInt32.ofNat next :: all ids n ⟨node,some (sep,r),next⟩ := by
      simp [raise,all,children,ids]
    have hf : fresh next (next + 1) = [UInt32.ofNat next] := by simp [fresh]
    refine (List.Perm.of_eq h).trans ?_
    rw [show (raise ⟨node,some (sep,r),next⟩).next = next + 1 from rfl,hf]
    exact (List.perm_append_singleton _ _).symm

theorem bounded_raise {n : Nat} {g : Grown (Shape n)}
    (h : Chain (Bounded n) ⊥ ⊤ g.node g.extra.toList) :
    Bounded (raise g).depth ⊥ ⊤ (raise g).shape := by
  obtain ⟨node,extra,next⟩ := g
  rcases extra with _ | ⟨sep,r⟩
  · exact h
  · exact ⟨(bounded_setParent _ _).mpr h.1,h.2.1,h.2.2.1,(bounded_setParent _ _).mpr h.2.2.2⟩

theorem keys_raise {n : Nat} {g : Grown (Shape n)} {x : Bytes}
    (h : x ∈ keys (raise g).depth (raise g).shape) :
    x ∈ g.extra.toList.map Prod.fst ∨ x ∈ all keys n g := by
  have hm : ∀ p (y : Shape n), keys n (setParent p n y) = keys n y := by
    intro p y
    cases n <;> rfl
  obtain ⟨node,extra,next⟩ := g
  rcases extra with _ | ⟨sep,r⟩
  · exact Or.inr (by simpa [raise,all,children] using h)
  · simpa [raise,all,children,keys,hm] using h

theorem ids_insert (h : t.Sound) (hn : (t.insert k v).next ≤ invalidPageId.toNat) :
    (ids (t.insert k v).depth (t.insert k v).shape).Nodup ∧
      ∀ q ∈ ids (t.insert k v).depth (t.insert k v).shape, q.toNat < (t.insert k v).next := by
  obtain ⟨hle,hperm⟩ := insert_ids k v t.next h.bounded
  obtain ⟨hle',hperm'⟩ := ids_raise (t.grown k v)
  obtain ⟨hnd,hlt⟩ := nodup_fresh hperm hle (hle'.trans hn) h.nodup h.below
  exact nodup_fresh hperm' hle' hn hnd hlt

theorem Sound.insert (h : t.Sound) (hh : Halves k v t.depth ⊥ t.shape)
    (hn : (t.insert k v).next ≤ invalidPageId.toNat) : (t.insert k v).Sound where
  bounded := bounded_raise (insert_bounded h.bounded (inRange_bot_top k) hh)
  nodup := (ids_insert h hn).1
  below := (ids_insert h hn).2
  linked := (leaves_insert k v h _).2 h.linked
  next := hn

theorem Sound.contents_insert (h : t.Sound) (k v : Bytes) :
    (t.insert k v).contents = upsert k v t.contents :=
  (contents_raise _).trans (insert_contents h.bounded (inRange_bot_top k))

theorem WellFormed.insert (h : t.WellFormed) (hk : k.length ≤ maxKeySize)
    (hv : v.length ≤ maxValueSize) (hn : (t.insert k v).next ≤ invalidPageId.toNat) :
    (t.insert k v).WellFormed := by
  refine ⟨h.toSound.insert (halves_of_limits hk hv _ _) hn,fun x hx => ?_⟩
  rcases insert_keys t.next h.bounded (keys_raise hx) with rfl | hx
  · exact hk
  · exact h.keys x hx

end RootedTree

end StorageDb
