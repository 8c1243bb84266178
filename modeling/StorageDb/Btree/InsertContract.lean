import Mathlib.Tactic
import StorageDb.Btree.TreeContract

namespace StorageDb
open SortedAssoc SepChain

namespace BranchNode

variable {C : Type} {lab : C → PageId} {patch : PageId → C → C} {k : Bytes} {b : BranchNode C}
  {g : Grown C}

theorem chain_of_absorb {P : WithBot Bytes → WithTop Bytes → C → Prop} {lo : WithBot Bytes}
    {hi : WithTop Bytes} (hP : ∀ a c p x, P a c (patch p x) → P a c x)
    (h : Chain (fun a c (x : BranchNode C) => Chain P a c x.leftmost x.entries) lo hi
      (b.absorb lab patch k g).node (b.absorb lab patch k g).extra.toList) :
    ∃ c, Chain P (floor k lo b.entries) c g.node g.extra.toList := by
  obtain ⟨node,extra,next⟩ := g
  cases extra with
  | none => exact chain_of_graft h
  | some e =>
    obtain ⟨s,r⟩ := e
    simp only [absorb] at h
    split_ifs at h with hroom
    · obtain ⟨c,h1,h2,h3,h4⟩ := chain_of_graft h
      exact ⟨c,h1,h2,h3,hP _ _ _ _ h4⟩
    · set b' := b.withChildren (graft k (fun _ => (node,[(s,r)])) b.leftmost b.entries) with hb'
      have hne : b'.entries ≠ [] := grafted_ne_nil (g := ⟨node,some (s,r),next⟩) rfl
      have hlt := Nat.div_lt_self (List.length_pos_iff.mpr hne) Nat.one_lt_two
      simp only [splitAt,List.getElem?_eq_getElem hlt,Option.map_some,Option.toList_some] at h
      have hright := chain_mono (fun a c x _ hx => hP a c _ x hx) (chain_map.mp h.2.2.2)
      have hch := chain_append.mpr ⟨h.1,h.2.1,h.2.2.1,hright⟩
      rw [Prod.mk.eta,List.getElem_cons_drop,List.take_append_drop] at hch
      exact chain_of_graft (f := fun _ => (node,[(s,r)])) hch

end BranchNode

namespace Shape

variable {n next : Nat} {k v : Bytes} {lo : WithBot Bytes} {hi : WithTop Bytes}

def PagesFit : (n : Nat) → Shape n → Prop
  | 0, (l : LeafNode) => LeafFits l.entries
  | n + 1, (b : BranchNode (Shape n)) =>
    InternalFits (labels (id n) b.entries) ∧ ∀ c ∈ b.kids, PagesFit n c

theorem Stored.pagesFit {pages : Pages} {t : Shape n} (h : Stored pages n t) : PagesFit n t := by
  induction n with
  | zero =>
    obtain ⟨nd,h⟩ := h
    exact h.layout.fits
  | succ n ih =>
    obtain ⟨⟨nd,h⟩,hc⟩ := h
    exact ⟨h.layout.fits,fun c hm => ih (hc c hm)⟩

theorem pagesFit_setParent (p : PageId) (t : Shape n) :
    PagesFit n (setParent p n t) ↔ PagesFit n t := by
  cases n <;> rfl

theorem pagesFit_kids {b : BranchNode (Shape n)} {g : Grown (Shape n)}
    (h : ∀ c ∈ BranchNode.allKids (b.absorb (id n) (fun p => setParent p n) k g), PagesFit n c) :
    ∀ c ∈ children g.node g.extra.toList, PagesFit n c := by
  have hm : ∀ p (c : Shape n), [PagesFit n (setParent p n c)] = [PagesFit n c] := fun p c =>
    congrArg (fun P => [P]) (propext (pagesFit_setParent p c))
  have hall : (BranchNode.allKids (b.absorb (id n) (fun p => setParent p n) k g)).flatMap
      (fun c => [PagesFit n c]) = _ := BranchNode.absorb_flatMap _ hm b g
  intro c hc
  have hmem : PagesFit n c ∈
      (children (b.grafted k g).1 (b.grafted k g).2).flatMap (fun c => [PagesFit n c]) := by
    rw [BranchNode.grafted,children_graft]
    exact List.mem_flatMap.mpr ⟨c,by simp [hc],by simp⟩
  rw [← hall] at hmem
  obtain ⟨x,hx,he⟩ := List.mem_flatMap.mp hmem
  rw [List.mem_singleton.mp he]
  exact h x hx

theorem leafFits_of_pagesFit {l : LeafNode} (hs : Sorted l.entries)
    (h : ∀ x ∈ children (l.insert k v next).node (l.insert k v next).extra.toList,
      LeafFits x.entries) : l.Fits k v := by
  rcases LeafNode.insert_cases k v hs next with ⟨hc,he⟩ | ⟨hn,-,xs,e,ys,hsplit,-,hlen,he⟩
  · rw [he] at h
    have hf : LeafFits (upsert k v l.entries) := h _ List.mem_cons_self
    cases hfind : find k l.entries with
    | none => exact Or.inl ⟨by simpa [hfind] using hc,hfind⟩
    | some w => exact Or.inr (Or.inl ⟨by simp [hfind],hf⟩)
  · rw [he] at h
    have hx : LeafFits xs := h _ List.mem_cons_self
    have hy : LeafFits (e :: ys) :=
      h ⟨UInt32.ofNat next,invalidPageId,l.sibling,e :: ys⟩ (by simp [children])
    refine Or.inr (Or.inr ⟨hn,?_⟩)
    rw [← hlen,hsplit,List.take_left,List.drop_left]
    exact ⟨hx,hy⟩

theorem insertFits_of_pagesFit {t : Shape n} (hb : Bounded n lo hi t)
    (h : ∀ x ∈ children (insert k v n next t).node (insert k v n next t).extra.toList,
      PagesFit n x) : InsertFits k v n next t := by
  induction n generalizing lo hi with
  | zero => exact leafFits_of_pagesFit hb.1 h
  | succ n ih =>
    obtain ⟨a,c,hc⟩ := chain_children hb _ (route_mem k t.leftmost t.entries)
    have hkids : ∀ c ∈ BranchNode.allKids (insert k v (n + 1) next t), PagesFit n c := by
      intro c hm
      rcases List.mem_append.mp hm with hm | hm
      · exact (h _ List.mem_cons_self).2 c hm
      · obtain ⟨e,he,hm⟩ := List.mem_flatMap.mp hm
        exact (h e.2 (List.mem_cons_of_mem _ (List.mem_map_of_mem he))).2 c hm
    refine ⟨ih hc (pagesFit_kids hkids),?_⟩
    change ∀ x ∈ children (BranchNode.absorb _ _ k t _).node
      (BranchNode.absorb _ _ k t _).extra.toList, PagesFit (n + 1) x at h
    generalize insert k v n next (route k t.leftmost t.entries) = g at h ⊢
    obtain ⟨node,extra,m⟩ := g
    rcases extra with _ | ⟨s,r⟩
    · exact trivial
    · by_cases hroom : InternalRoom s (labels (id n) t.entries)
      · exact Or.inl hroom
      · refine Or.inr ?_
        simp only [BranchNode.absorb,if_neg hroom] at h
        set b' := t.withChildren (graft k (fun _ => (node,[(s,r)])) t.leftmost t.entries) with hb'
        have hne : b'.entries ≠ [] :=
          BranchNode.grafted_ne_nil (g := (⟨node,some (s,r),m⟩ : Grown (Shape n))) rfl
        have hlt := Nat.div_lt_self (List.length_pos_iff.mpr hne) Nat.one_lt_two
        simp only [BranchNode.splitAt,List.getElem?_eq_getElem hlt,Option.map_some,
          Option.toList_some,children,List.map_cons,List.map_nil,List.mem_cons,List.not_mem_nil,
          or_false,forall_eq_or_imp,forall_eq] at h
        obtain ⟨⟨hl,-⟩,hr,-⟩ := h
        have hmap : labels (id n) ((b'.entries.drop (b'.entries.length / 2 + 1)).map
            (fun x => (x.1,setParent (UInt32.ofNat m) n x.2))) =
            labels (id n) (b'.entries.drop (b'.entries.length / 2 + 1)) := by
          simp [labels,Function.comp_def]
        rw [hmap] at hr
        have hlen : (labels (id n) b'.entries).length = b'.entries.length := List.length_map ..
        change InternalFits ((labels (id n) b'.entries).take
            ((labels (id n) b'.entries).length / 2)) ∧
          InternalFits ((labels (id n) b'.entries).drop ((labels (id n) b'.entries).length / 2 + 1))
        rw [hlen]
        simp only [labels,← List.map_take,← List.map_drop] at hl hr ⊢
        exact ⟨hl,hr⟩

theorem halves_of_bounded {t : Shape n} (hs : Sorted (leafFor k n t).entries)
    (h : Chain (Bounded n) lo hi (insert k v n next t).node (insert k v n next t).extra.toList) :
    Halves k v n lo t := by
  induction n generalizing lo hi with
  | zero =>
    intro he
    have he : LeafNode.entries t = [] := he
    have h : Chain (Bounded 0) lo hi (LeafNode.insert k v next t).node
      (LeafNode.insert k v next t).extra.toList := h
    have hs : Sorted (LeafNode.entries t) := hs
    rcases LeafNode.insert_cases k v hs next with ⟨hc,-⟩ | ⟨-,-,xs,e,ys,hsplit,-,hlen,hi⟩
    · rw [he] at hc
      exact Or.inl (by simpa [find] using hc)
    · rw [he] at hsplit hlen
      rw [hi] at h
      have hsingle : upsert k v ([] : List Entry) = [(k,v)] := rfl
      rw [hsingle] at hsplit hlen
      obtain rfl : xs = [] := List.length_eq_zero_iff.mp (by simpa using hlen)
      obtain rfl : e = (k,v) := by simpa using (List.cons.inj hsplit).1.symm
      exact Or.inr h.2.1
  | succ n ih =>
    obtain ⟨a,hc⟩ := BranchNode.chain_of_absorb
      (fun a c p x hx => (bounded_setParent p x).mp hx) h
    exact ih hs hc

end Shape

namespace RootedTree
open Shape

variable {k v : Bytes} {t : RootedTree}

theorem pagesFit_of_raise {n : Nat} {g : Grown (Shape n)}
    (h : PagesFit (raise g).depth (raise g).shape) :
    (∀ x ∈ children g.node g.extra.toList, PagesFit n x) ∧
      ∀ e, g.extra = some e → InternalFits [(e.1,Shape.id n e.2)] := by
  obtain ⟨node,extra,next⟩ := g
  rcases extra with _ | ⟨sep,r⟩
  · exact ⟨fun x hx => List.mem_singleton.mp hx ▸ h,fun e he => by cases he⟩
  · obtain ⟨hroot,hkids⟩ := h
    have hroot : InternalFits [(sep,Shape.id n (setParent (UInt32.ofNat next) n r))] := hroot
    rw [id_setParent] at hroot
    constructor
    · intro x hx
      refine (pagesFit_setParent (UInt32.ofNat next) x).mp (hkids _ ?_)
      have hx : x = node ∨ x = r := by simpa [children] using hx
      rcases hx with rfl | rfl
      · exact List.mem_cons_self
      · exact List.mem_cons_of_mem _ List.mem_cons_self
    · rintro e ⟨rfl⟩
      exact hroot

theorem chain_of_raise {n : Nat} {g : Grown (Shape n)}
    (h : Bounded (raise g).depth ⊥ ⊤ (raise g).shape) :
    Chain (Bounded n) ⊥ ⊤ g.node g.extra.toList := by
  obtain ⟨node,extra,next⟩ := g
  rcases extra with _ | ⟨sep,r⟩
  · exact h
  · exact ⟨(bounded_setParent _ _).mp h.1,h.2.1,h.2.2.1,(bounded_setParent _ _).mp h.2.2.2⟩

theorem raise_none {n : Nat} {g : Grown (Shape n)} (h : g.extra = none) :
    raise g = ⟨n,g.node,g.next⟩ := by
  rw [raise,h]

end RootedTree

theorem TreeOn.takes_of_insert {s s' : FlatStore} {tree tree' : BPlusTree} {t : RootedTree}
    {k v : Bytes} (h : TreeOn s tree t) (h' : TreeOn s' tree' (t.insert k v)) : t.Takes k v := by
  obtain ⟨hkids,htop⟩ := RootedTree.pagesFit_of_raise h'.stored.pagesFit
  exact ⟨Shape.insertFits_of_pagesFit h.sound.bounded hkids,
    Shape.halves_of_bounded (Shape.leafFor_bounded h.sound.bounded k)
      (RootedTree.chain_of_raise h'.sound.bounded),htop,h'.sound.next⟩

-- No page header and no slot directory is overwritten: every page that a descent can reach has the
-- layout of its kind.
def LaidOut (pages : Pages) (root : PageId) : Prop :=
  ∀ q, Reachable pages root q → ∃ nd : BTreeNode, pages q = some nd.page ∧
    ((∃ es, LeafPage nd es) ∨ ∃ leftmost es, InternalPage nd leftmost es)

theorem TreeOn.laidOut {s : FlatStore} {tree : BPlusTree} {t : RootedTree} (h : TreeOn s tree t) :
    LaidOut s.pages tree.rootPageId := by
  intro q hq
  rw [← h.root] at hq
  obtain ⟨m,x,hs,rfl⟩ := h.stored.reachable hq
  cases m with
  | zero =>
    obtain ⟨nd,hl⟩ := h.stored.sub hs
    exact ⟨nd,hl.page,Or.inl ⟨_,hl.layout⟩⟩
  | succ m =>
    obtain ⟨⟨nd,hb⟩,-⟩ := h.stored.sub hs
    exact ⟨nd,hb.page,Or.inr ⟨_,_,hb.layout⟩⟩

-- An empty leaf and an entry that is longer than a page: the right half runs out of room.
theorem TreeOn.insert_oversized {fuel : Nat} {s : FlatStore} {tree : BPlusTree} {t : RootedTree}
    {k v : Bytes} (h : TreeOn s tree t) (hf : t.depth < fuel)
    (hl : (Shape.leafFor k t.depth t.shape).entries = [])
    (ho : pageSize < k.length + v.length) (hn : s.next < invalidPageId.toNat) :
    (tree.insert fuel k v s).1 = .error .panic := by
  obtain ⟨nd,hst⟩ := h.stored.leafFor k
  have hp := hst.layout
  rw [hl] at hp
  have hroom : decide (26 + leafBytes [] + 6 + (6 + k.length + v.length) ≤ pageSize) = false := by
    refine decide_eq_false ?_
    omega
  have hright : ((BTreeNode.newLeaf (UInt32.ofNat s.next)).setRightSibling
      nd.getRightSibling).leafFill [(k,v)] = none := by
    have hr : LeafPage _ [] := (LeafPage.of_newLeaf (UInt32.ofNat s.next)).of_setRightSibling
      (by decide) nd.getRightSibling
    rw [BTreeNode.leafFill,List.foldlM_cons,BTreeNode.leafInsert,BTreeNode.leafInsertAux,
      hr.leafFindSlot_eq sorted_nil]
    simp [find,hr.leafPlace_none _ (by simpa [SlotPage.Format.total] using ho)]
  have hrun : (tree.insert fuel k v : Prog Error FlatStore _) s = (.error .panic,s.grow) := by
    refine (Prog.bind_ok (h.findLeaf_eq k hf)).trans
      ((Prog.bind_ok (FlatStore.readNode_eq hst.page)).trans ?_)
    rw [hp.leafFindSlot_eq sorted_nil,hp.leafCanFit_eq,hroom]
    simp only [Prog.ofOption_some,pure_bind,find,Option.isSome_none,Bool.false_eq_true,if_false,
      BPlusTree.splitAndInsertLeaf,BPlusTree.splitLeaf,hp.leafEntries_eq,bind_assoc]
    refine (Prog.bind_ok (FlatStore.allocatePage_eq hn)).trans ?_
    have hins : ([] : List Entry).insertIdx (BPlusTree.insertPos k ([] : List Entry)) (k,v) =
      [(k,v)] := rfl
    rw [hins]
    simp only [List.length_singleton,Nat.reduceDiv,List.take_zero,List.drop_zero,hright]
    rfl
  rw [hrun]

namespace BPlusTree
open BufferPoolManager

variable {p : BufferPoolManager} {tree : BPlusTree} {t : RootedTree}

-- The clean outcomes of an insertion: the entry is there, or the caller gets an error and no answer
-- has changed. Either way the pages keep their layout.
def InsertClean (fuel : Nat) (tree : BPlusTree) (p : BufferPoolManager) (k v : Bytes) : Prop :=
  match tree.insert fuel k v p with
  | (.ok (_,tree'),p') => LaidOut p'.lookup tree'.rootPageId ∧
      ∀ x, (tree'.search fuel x p').1 = if x = k then .ok (some v) else (tree.search fuel x p).1
  | (.error (.err _),p') => LaidOut p'.lookup tree.rootPageId ∧
      ∀ x, (tree.search fuel x p').1 = (tree.search fuel x p).1
  | (.error .panic,_) => False
  | (.error .hang,_) => False

theorem insert_any_size (hq : Quiet p) (h : TreeOn p.flat tree t) (hp : t.Parented) {k v : Bytes}
    (ht : t.Takes k v) : ∃ m, ∀ fuel, m ≤ fuel → InsertClean fuel tree p k v := by
  refine ⟨t.depth + 2,fun fuel hf => ?_⟩
  have hd : (t.insert k v).depth ≤ t.depth + 1 := RootedTree.raise_depth _
  obtain ⟨tree',p',hrun,hq',h'⟩ := h.insert_pool hq ht (hp.splitsTell k v)
    (show t.depth < fuel by omega)
  rw [InsertClean,hrun]
  refine ⟨h'.laidOut,fun x => ?_⟩
  rw [h'.search_pool hq' x (by omega),h.search_pool hq x (by omega),h.sound.contents_insert k v,
    find_upsert]
  split_ifs <;> rfl

theorem create_stored : ∃ p, create (new (DiskManager.open_ [] []) 1) = (.ok ⟨0⟩,p) ∧ Quiet p ∧
    TreeOn p.flat ⟨0⟩ (RootedTree.single 0) := by
  have hd : (DiskManager.open_ [] []).Healthy := ⟨rfl,rfl⟩
  obtain ⟨p,hrun,hq,hflat⟩ := (quiet_new hd (le_refl 1)).1.create_eq (by decide)
  refine ⟨p,hrun,hq,?_⟩
  rw [hflat]
  exact TreeOn.single rfl (by decide)

-- A key and a value over the size limits split the leaf with the largest keys of mixedTree.
theorem insert_any_size_mixed : ∃ rs tree p, (create >>= run 16 mixedOps)
    (new (DiskManager.open_ [] []) 1) = (.ok (rs,tree),p) ∧
    ∃ m, ∀ fuel, m ≤ fuel → InsertClean fuel tree p (List.replicate 300 255)
      (List.replicate 3000 1) := by
  obtain ⟨rs,tree,p,hrun,hq,h⟩ := mixedTree_stored
  have ht : mixedTree.Takes (List.replicate 300 255) (List.replicate 3000 1) := by decide +kernel
  exact ⟨rs,tree,p,hrun,insert_any_size hq h (by decide +kernel) ht⟩

theorem insert_oversized_panics : ∃ p, create (new (DiskManager.open_ [] []) 1) = (.ok ⟨0⟩,p) ∧
    ∀ fuel, 0 < fuel →
      ((⟨0⟩ : BPlusTree).insert fuel (List.replicate 5000 0) [] p).1 = .error .panic := by
  obtain ⟨p,hrun,hq,h⟩ := create_stored
  refine ⟨p,hrun,fun fuel hf => (congr_insert models_refines ⟨0⟩ fuel _ _).of_panic ⟨hq,rfl⟩ ?_⟩
  refine h.insert_oversized hf rfl ?_ ?_
  · rw [List.length_replicate,pageSize_eq]
    decide
  · rw [h.next]
    decide

end BPlusTree

namespace Shape

variable {n next : Nat} {k v : Bytes}

theorem InsertFits.leaf {t : Shape n} (h : InsertFits k v n next t) : (leafFor k n t).Fits k v := by
  induction n with
  | zero => exact h
  | succ n ih => exact ih h.1

theorem insert_found {t : Shape n} (hw : (find k (leafFor k n t).entries).isSome) :
    (insert k v n next t).extra = none ∧ (insert k v n next t).next = next ∧
      SplitsKnowParent k v n next t ∧
      (LeafFits (upsert k v (leafFor k n t).entries) → InsertFits k v n next t) := by
  induction n with
  | zero =>
    have hins : insert k v 0 next t = _ := if_pos (Or.inl hw)
    rw [hins]
    exact ⟨rfl,rfl,trivial,fun hf => Or.inr (Or.inl ⟨hw,hf⟩)⟩
  | succ n ih =>
    obtain ⟨hex,hnext,hpar,hfit⟩ := ih hw
    have hab : (insert k v (n + 1) next t).extra = none ∧ (insert k v (n + 1) next t).next =
        (insert k v n next (route k t.leftmost t.entries)).next := by
      change (BranchNode.absorb _ _ k t _).extra = none ∧ (BranchNode.absorb _ _ k t _).next = _
      simp only [BranchNode.absorb,hex,and_self]
    refine ⟨hab.1,hab.2.trans hnext,⟨hpar,by simp [hex]⟩,fun hf => ⟨hfit hf,?_⟩⟩
    simp only [BranchNode.Fits,hex]

def branchFor (k : Bytes) : (n : Nat) → Shape (n + 1) → BranchNode LeafNode
  | 0, (b : BranchNode LeafNode) => b
  | n + 1, (b : BranchNode (Shape (n + 1))) => branchFor k n (route k b.leftmost b.entries)

-- The split key of the routed leaf fits above it: internal_can_fit holds for its parent, or the
-- leaf is the root and the new root holds it.
def SeparatorFits (k sep : Bytes) : (n : Nat) → Shape n → Prop
  | 0, _ => InternalFits [(sep,0)]
  | n + 1, t => InternalRoom sep (labels LeafNode.id (branchFor k n t).entries)

instance (k sep : Bytes) (n : Nat) (t : Shape n) : Decidable (SeparatorFits k sep n t) :=
  match n with
  | 0 => inferInstanceAs (Decidable (InternalFits _))
  | _ + 1 => inferInstanceAs (Decidable (InternalRoom _ _))

theorem insert_no_split {t : Shape (n + 1)} (hl : (leafFor k (n + 1) t).Fits k v)
    (hsep : ∀ e, ((leafFor k (n + 1) t).insert k v next).extra = some e →
      SeparatorFits k e.1 (n + 1) t) :
    (insert k v (n + 1) next t).extra = none ∧
      (insert k v (n + 1) next t).next = ((leafFor k (n + 1) t).insert k v next).next ∧
      InsertFits k v (n + 1) next t ∧ NoLeftOrphan k v (n + 1) next t := by
  induction n with
  | zero =>
    change (BranchNode.absorb _ _ k t (LeafNode.insert k v next _)).extra = none ∧
      (BranchNode.absorb _ _ k t (LeafNode.insert k v next _)).next = _ ∧
      (LeafNode.Fits k v _ ∧ BranchNode.Fits _ k t (LeafNode.insert k v next _)) ∧
      (True ∧ ∀ e ∈ (LeafNode.insert k v next _).extra, _)
    change ∀ e, (LeafNode.insert k v next (route k t.leftmost t.entries)).extra = some e →
      InternalRoom e.1 (labels (Shape.id 0) t.entries) at hsep
    have hl : LeafNode.Fits k v (route k t.leftmost t.entries) := hl
    change _ ∧ _ = (LeafNode.insert k v next (route k t.leftmost t.entries)).next ∧ _
    generalize LeafNode.insert k v next (route k t.leftmost t.entries) = g at hsep ⊢
    obtain ⟨node,extra,m⟩ := g
    rcases extra with _ | ⟨s,r⟩
    · exact ⟨rfl,rfl,⟨hl,trivial⟩,trivial,fun e he => (by cases he)⟩
    · have hroom := hsep _ rfl
      refine ⟨?_,?_,⟨hl,Or.inl hroom⟩,trivial,fun e he hne => absurd (hsep e he) hne⟩
      · simp only [BranchNode.absorb,if_pos hroom]
      · simp only [BranchNode.absorb,if_pos hroom]
  | succ n ih =>
    obtain ⟨hex,hnext,hfit,hleft⟩ := ih (t := route k t.leftmost t.entries) hl hsep
    have hab : (insert k v (n + 2) next t).extra = none ∧ (insert k v (n + 2) next t).next =
        (insert k v (n + 1) next (route k t.leftmost t.entries)).next := by
      change (BranchNode.absorb _ _ k t _).extra = none ∧ (BranchNode.absorb _ _ k t _).next = _
      simp only [BranchNode.absorb,hex,and_self]
    refine ⟨hab.1,hab.2.trans hnext,⟨hfit,?_⟩,hleft,fun e he => ?_⟩
    · simp only [BranchNode.Fits,hex]
    · rw [hex] at he
      cases he

end Shape

namespace RootedTree
open Shape

variable {k v : Bytes} {t : RootedTree}

def NoInternalSplit (k v : Bytes) (t : RootedTree) : Prop :=
  let es := upsert k v (leafFor k t.depth t.shape).entries
  LeafRoom k v (leafFor k t.depth t.shape).entries ∨
    LeafFits (es.take (es.length / 2)) ∧ LeafFits (es.drop (es.length / 2)) ∧
      ∀ e ∈ (es.drop (es.length / 2)).head?, SeparatorFits k e.1 t.depth t.shape

instance (k v : Bytes) (t : RootedTree) : Decidable (t.NoInternalSplit k v) :=
  inferInstanceAs (Decidable (_ ∨ _ ∧ _ ∧ _))

theorem NoInternalSplit.leaf (hc : t.NoInternalSplit k v) (h : t.Sound)
    (hn : find k (leafFor k t.depth t.shape).entries = none) (next : Nat) :
    (leafFor k t.depth t.shape).Fits k v ∧
      ((leafFor k t.depth t.shape).insert k v next).next ≤ next + 1 ∧
      ∀ e, ((leafFor k t.depth t.shape).insert k v next).extra = some e →
        SeparatorFits k e.1 t.depth t.shape := by
  rcases LeafNode.insert_cases k v (leafFor_bounded h.bounded k) next with
    ⟨hroom,he⟩ | ⟨-,hroom,xs,e,ys,hsplit,-,hlen,he⟩
  · rw [he]
    exact ⟨Or.inl ⟨by simpa [hn] using hroom,hn⟩,Nat.le_succ next,fun e he => (by cases he)⟩
  · obtain ⟨hx,hy,hsep⟩ := hc.resolve_left hroom
    refine ⟨Or.inr (Or.inr ⟨hn,hx,hy⟩),?_,?_⟩
    · rw [he]
    · rw [he]
      rintro x ⟨rfl⟩
      rw [← hlen,hsplit,List.drop_left] at hsep
      exact hsep e rfl

theorem NoInternalSplit.takes (hc : t.NoInternalSplit k v) (h : t.Sound)
    (hh : Halves k v t.depth ⊥ t.shape) (hn : find k (leafFor k t.depth t.shape).entries = none)
    (hids : t.next + 2 ≤ invalidPageId.toNat) :
    t.Takes k v ∧ NoLeftOrphan k v t.depth t.next t.shape := by
  obtain ⟨hl,hle,hsep⟩ := hc.leaf h hn t.next
  clear hc h hn
  obtain ⟨depth,shape,next⟩ := t
  cases depth with
  | zero =>
    refine ⟨⟨hl,hh,fun e he => hsep e he,?_⟩,trivial⟩
    change (raise (n := 0) (LeafNode.insert k v next shape)).next ≤ _
    have hle : (LeafNode.insert k v next shape).next ≤ next + 1 := hle
    generalize LeafNode.insert k v next shape = g at hle ⊢
    obtain ⟨node,extra,m⟩ := g
    rcases extra with _ | ⟨s,r⟩
    · exact hle.trans ((Nat.le_succ _).trans hids)
    · exact (Nat.succ_le_succ hle).trans hids
  | succ n =>
    obtain ⟨hex,hnext,hfit,hleft⟩ := insert_no_split hl hsep
    refine ⟨⟨hfit,hh,fun e he => (by cases hex.symm.trans he),?_⟩,hleft⟩
    change (raise (Shape.insert k v (n + 1) next shape)).next ≤ _
    have hle : (Shape.insert k v (n + 1) next shape).next ≤ next + 1 := hnext.trans_le hle
    generalize Shape.insert k v (n + 1) next shape = g at hle hex ⊢
    obtain ⟨node,extra,m⟩ := g
    have hex : extra = none := hex
    subst hex
    exact hle.trans ((Nat.le_succ _).trans hids)

end RootedTree

namespace BPlusTree
open BufferPoolManager Shape

variable {p : BufferPoolManager} {tree : BPlusTree} {t : RootedTree} {k v : Bytes}

theorem insert_without_internal_split (hq : Quiet p) (h : TreeOn p.flat tree t) (hp : t.Parented)
    (hk : k.length ≤ maxKeySize) (hv : v.length ≤ maxValueSize) (hn : ∀ e ∈ t.contents, e.1 ≠ k)
    (hc : t.NoInternalSplit k v) (hids : p.disk.numPages.toNat + 2 ≤ invalidPageId.toNat) :
    ∃ m, ∀ fuel, m ≤ fuel → ∃ tree' p' t', tree.insert fuel k v p = (.ok (true,tree'),p') ∧
      Quiet p' ∧ TreeOn p'.flat tree' t' ∧ t'.Parented ∧
        t'.contents.Perm ((k,v) :: t.contents) := by
  have hnone := find_eq_none.mpr hn
  have hleaf := (h.sound.find_contents k).symm.trans hnone
  have hnext : t.next + 2 ≤ invalidPageId.toNat := h.next ▸ hids
  obtain ⟨ht,hleft⟩ := hc.takes h.sound (halves_of_limits hk hv _ _) hleaf hnext
  have hpar := hp.insert ht.fits hleft
  refine ⟨t.depth + 1,fun fuel hf => ?_⟩
  obtain ⟨tree',p',hrun,hq',h'⟩ := h.insert_pool hq ht (hp.splitsTell k v) hf
  rw [hnone] at hrun
  refine ⟨tree',p',t.insert k v,hrun,hq',h',hpar,?_⟩
  rw [h.sound.contents_insert k v]
  exact perm_upsert_of_absent v h.sound.sorted hnone

theorem insert_without_internal_split_mixed : ∃ rs tree p, (create >>= run 16 mixedOps)
    (new (DiskManager.open_ [] []) 1) = (.ok (rs,tree),p) ∧
    ∃ m, ∀ fuel, m ≤ fuel → ∃ tree' p' t', tree.insert fuel [0] [7] p = (.ok (true,tree'),p') ∧
      Quiet p' ∧ TreeOn p'.flat tree' t' ∧ t'.Parented ∧
      t'.contents.Perm (([0],[7]) :: mixedTree.contents) := by
  obtain ⟨rs,tree,p,hrun,hq,h⟩ := mixedTree_stored
  have hids : p.disk.numPages.toNat + 2 ≤ invalidPageId.toNat := by
    have hn : p.disk.numPages.toNat = mixedTree.next := h.next
    rw [hn]
    decide +kernel
  exact ⟨rs,tree,p,hrun,insert_without_internal_split hq h (by decide +kernel) (by decide)
    (by decide) (by decide +kernel) (by decide +kernel) hids⟩

theorem update_fits_iff {w : Bytes} (hq : Quiet p) (h : TreeOn p.flat tree t)
    (hw : find k t.contents = some w) (v : Bytes) : ∃ m, ∀ fuel, m ≤ fuel →
      ((∃ p', tree.insert fuel k v p = (.ok (false,tree),p') ∧ TreeOn p'.flat tree (t.insert k v) ∧
          ∀ x, (tree.search fuel x p').1 = .ok (if x = k then some v else find x t.contents)) ↔
        LeafFits (upsert k v (leafFor k t.depth t.shape).entries)) := by
  have hleaf : find k (leafFor k t.depth t.shape).entries = some w :=
    (h.sound.find_contents k).symm.trans hw
  have hsome : (find k (leafFor k t.depth t.shape).entries).isSome := by rw [hleaf]; rfl
  obtain ⟨hex,hnext,hpar,hfit⟩ : (Shape.insert k v t.depth t.next t.shape).extra = none ∧ _ :=
    insert_found hsome
  refine ⟨t.depth + 1,fun fuel hf => ⟨?_,fun hfits => ?_⟩⟩
  · rintro ⟨p',-,h',-⟩
    have hl := (h.takes_of_insert h').fits.leaf
    simpa [LeafNode.Fits,hleaf] using hl
  · have hraise : t.insert k v = ⟨t.depth,(t.grown k v).node,t.next⟩ := by
      refine (RootedTree.raise_none (g := t.grown k v) hex).trans ?_
      exact congrArg (RootedTree.mk t.depth _) hnext
    have ht : t.Takes k v := by
      refine ⟨hfit hfits,fun he => ?_,fun e he => (by cases hex.symm.trans he),?_⟩
      · rw [he] at hleaf
        cases hleaf
      · rw [hraise]
        exact h.sound.next
    obtain ⟨tree',p',hrun,hq',h'⟩ := h.insert_pool hq ht ⟨hpar,fun hs => by
      rw [show (t.grown k v).extra = none from hex] at hs
      cases hs⟩ hf
    have htree : tree' = tree := by
      have hid := h'.root
      rw [hraise] at hid
      exact congrArg BPlusTree.mk (hid.symm.trans ((insert_node t.next t.shape).1.trans h.root))
    subst htree
    rw [hw] at hrun
    refine ⟨p',hrun,h',fun x => ?_⟩
    rw [h'.search_pool hq' x (by rw [hraise]; exact hf),h.sound.contents_insert k v,find_upsert]
    split_ifs <;> rfl

theorem update_fits_iff_mixed : ∃ rs tree p, (create >>= run 16 mixedOps)
    (new (DiskManager.open_ [] []) 1) = (.ok (rs,tree),p) ∧
    ∃ m, ∀ fuel, m ≤ fuel → ∃ p', tree.insert fuel (wideKey 245) wideValue p =
      (.ok (false,tree),p') ∧ (tree.search fuel (wideKey 245) p').1 = .ok (some wideValue) := by
  obtain ⟨rs,tree,p,hrun,hq,h⟩ := mixedTree_stored
  have hw : find (wideKey 245) mixedTree.contents = some [] := by decide +kernel
  obtain ⟨m,hm⟩ := update_fits_iff hq h hw wideValue
  refine ⟨rs,tree,p,hrun,m,fun fuel hf => ?_⟩
  obtain ⟨p',hins,-,hsearch⟩ := (hm fuel hf).mpr (by decide +kernel)
  exact ⟨p',hins,by rw [hsearch,if_pos rfl]⟩

-- The present key of 100 bytes gets a longer value within the limit.
theorem update_overflow : ∃ rs tree p, (create >>= run 10 fillOps)
    (new (DiskManager.open_ [] []) 1) = (.ok (rs,tree),p) ∧
    (tree.search 10 (List.replicate 100 9) p).1 = .ok (some []) ∧
    wideValue.length ≤ maxValueSize ∧
    (tree.insert 10 (List.replicate 100 9) wideValue p).1 = .error .panic := by
  obtain ⟨rs,tree,p,hrun,hq,h⟩ := fillOps_stored
  refine ⟨rs,tree,p,hrun,?_,by decide +kernel,fillOps_overflow hq h⟩
  have hfind : find (List.replicate 100 9) (fillOps.foldl (fun t op => t.apply op)
      (RootedTree.single 0)).contents = some [] := by decide +kernel
  rw [h.search_pool hq _ (by decide +kernel),hfind]

end BPlusTree

end StorageDb
