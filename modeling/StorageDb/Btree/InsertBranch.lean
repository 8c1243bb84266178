import Mathlib.Tactic
import StorageDb.Btree.InsertLeaf

namespace StorageDb
open SortedAssoc SepChain Shape BPlusTree

variable {n : Nat} {s s' : FlatStore} {k : Bytes} {b : BranchNode (Shape n)} {g : Grown (Shape n)}
  {nd : BTreeNode} {key : Bytes} {r : Shape n} {tree : BPlusTree}

namespace BranchNode

def graftKids (k : Bytes) (b : BranchNode (Shape n)) (g : Grown (Shape n)) : List (Shape n) :=
  children (b.grafted k g).1 (b.grafted k g).2

-- The subtree under the routed child of b has become g; the page of b is still the old one.
structure Ready (s : FlatStore) (k : Bytes) (b : BranchNode (Shape n)) (g : Grown (Shape n))
    (nd : BTreeNode) : Prop where
  stored : BranchStored s.pages (Shape.id n) b nd
  kids : ∀ x ∈ b.graftKids k g, Stored s.pages n x
  nodup : (b.id :: (b.graftKids k g).flatMap (ids n)).Nodup
  below : ∀ q ∈ b.id :: (b.graftKids k g).flatMap (ids n), q.toNat < s.next
  next : s.next = g.next
  label : Shape.id n g.node = Shape.id n (route k b.leftmost b.entries)
  before : Sorted b.entries
  after : Sorted (b.grafted k g).2

theorem Ready.absorb_none (h : Ready s k b g nd) (he : g.extra = none) :
    b.absorb (Shape.id n) (fun p => Shape.setParent p n) k g =
      ⟨b.withChildren (b.grafted k g),none,g.next⟩ ∧
      Stored s.pages (n + 1) (b.withChildren (b.grafted k g)) := by
  obtain ⟨h1,h2⟩ := labels_grafted (Shape.id n) he h.label
  refine ⟨?_,⟨⟨nd,h.stored.page,h.stored.id,h.stored.parent,?_⟩,h.kids⟩⟩
  · simp only [absorb,he,grafted]
    rfl
  · change InternalPage nd (Shape.id n (b.grafted k g).1) (labels (Shape.id n) (b.grafted k g).2)
    rw [h1,h2]
    exact h.stored.layout

theorem Ready.id_ne (h : Ready s k b g nd) {x : Shape n} (hx : x ∈ b.graftKids k g) :
    ∀ q ∈ ids n x, q ≠ b.id := by
  rintro q hq rfl
  exact (List.nodup_cons.mp h.nodup).1 (List.mem_flatMap.mpr ⟨x,hx,hq⟩)

theorem Ready.id_valid (h : Ready s k b g nd) (hn : s.next ≤ invalidPageId.toNat) :
    b.id ≠ invalidPageId := by
  intro he
  have := h.below b.id List.mem_cons_self
  rw [he] at this
  omega

theorem graftKids_split (he : g.extra = some (key,r)) :
    ∃ T D, b.graftKids k g = T ++ (g.node :: r :: D) ∧
    ∀ x, children (graft k (fun _ => (g.node,[(key,x)])) b.leftmost b.entries).1
      (graft k (fun _ => (g.node,[(key,x)])) b.leftmost b.entries).2 = T ++ (g.node :: x :: D) := by
  refine ⟨(children b.leftmost b.entries).take (reach k b.entries),
    (children b.leftmost b.entries).drop (reach k b.entries + 1),?_,fun x => ?_⟩
  · rw [graftKids,grafted,children_graft,he]
    rfl
  · rw [children_graft]
    rfl

theorem labels_patched (he : g.extra = some (key,r))
    (hl : Shape.id n g.node = Shape.id n (route k b.leftmost b.entries)) (x : Shape n)
    (hx : Shape.id n x = Shape.id n r) :
    Shape.id n (graft k (fun _ => (g.node,[(key,x)])) b.leftmost b.entries).1 =
        Shape.id n (b.grafted k g).1 ∧
      labels (Shape.id n) (graft k (fun _ => (g.node,[(key,x)])) b.leftmost b.entries).2 =
        labels (Shape.id n) (b.grafted k g).2 := by
  obtain ⟨h1,h2⟩ := labels_graft (Shape.id n) k (fun _ => (g.node,g.extra.toList)) b.leftmost
    b.entries hl
  obtain ⟨h3,h4⟩ := labels_graft (Shape.id n) k (fun _ => (g.node,[(key,x)])) b.leftmost
    b.entries hl
  refine ⟨h3.trans h1.symm,h4.trans (Eq.trans ?_ h2.symm)⟩
  simp only [he,Option.toList_some,labels,List.map_cons,List.map_nil,hx]

theorem Ready.kids_put (h : Ready s k b g nd) {nd' : BTreeNode} (hid : nd'.page.id = b.id) :
    ∀ x ∈ b.graftKids k g, Stored (s.put nd'.sealed.page).pages n x := by
  intro x hx
  refine (h.kids x hx).congr (fun q hq => s.pages_seal_ne ?_)
  rw [hid]
  exact h.id_ne hx q hq

theorem Ready.absorb_room (tree : BPlusTree) (h : Ready s k b g nd) (he : g.extra = some (key,r))
    (hr : InternalRoom key (labels (Shape.id n) b.entries)) (hn : s.next ≤ invalidPageId.toNat)
    (m : Nat) (l : PageId) :
    ∃ s', (insertIntoParent tree (m + 1) l key (Shape.id n r) b.id : Prog Error FlatStore _) s =
        (.ok tree,s') ∧ s'.next = s.next ∧
      Stored s'.pages (n + 1) (b.absorb (Shape.id n) (fun p => Shape.setParent p n) k g).node ∧
      ∀ q, q ∉ b.id :: (b.graftKids k g).flatMap (ids n) → s'.pages q = s.pages q := by
  obtain ⟨h1,h2,-⟩ := labels_grafted_split (Shape.id n) he h.label h.after
  obtain ⟨T,D,hkids,hpatched⟩ := graftKids_split (k := k) (b := b) he
  have hfit : InternalFits ((key,Shape.id n r) :: labels (Shape.id n) b.entries) := by
    rw [InternalRoom] at hr
    rw [InternalFits,internalBytes_cons]
    dsimp only
    omega
  obtain ⟨nd',hins,hp,hh⟩ := h.stored.layout.internalInsert_eq
    (labels_sorted (Shape.id n) h.before) hfit
  have hid : nd'.page.id = b.id := (congrArg Header.id hh).trans h.stored.id
  rw [← h2,← h1] at hp
  set s1 := s.put nd'.sealed.page with hs1
  have hw : (NodeStore.writeNode nd' : Prog Error FlatStore Unit) s = (.ok (),s1) :=
    FlatStore.writeNode_eq ((congrArg s.pages hid).trans h.stored.page)
  have hk1 := h.kids_put hid
  have hrmem : r ∈ b.graftKids k g := by rw [hkids]; simp
  have hnd := (List.nodup_cons.mp h.nodup).2
  rw [hkids,List.flatMap_append,List.flatMap_cons,List.flatMap_cons] at hnd
  have hrnd : (ids n r).Nodup := (List.nodup_append.mp (List.nodup_append.mp
    (List.nodup_append.mp hnd).2.1).2.1).1
  obtain ⟨s2,hset,hst2,hn2,ha2⟩ := FlatStore.setParentOf_eq (hk1 r hrmem) hrnd b.id
  have hidr : Shape.id n r ≠ b.id := h.id_ne hrmem _ (id_mem_ids r)
  -- a kid other than r keeps its pages
  have hother : ∀ x ∈ T ++ (g.node :: D), Stored s2.pages n x := by
    intro x hx
    have hxm : x ∈ b.graftKids k g := by
      rw [hkids]
      simp only [List.mem_append,List.mem_cons] at hx ⊢
      tauto
    refine (hk1 x hxm).congr (fun q hq => ha2 q ?_)
    rw [List.mem_singleton]
    rintro rfl
    have hc := List.nodup_iff_count_le_one.mp hnd (Shape.id n r)
    have h1 : 0 < (ids n r).count (Shape.id n r) := List.count_pos_iff.mpr (id_mem_ids r)
    have h2 : 0 < ((T ++ (g.node :: D)).flatMap (ids n)).count (Shape.id n r) :=
      List.count_pos_iff.mpr (List.mem_flatMap.mpr ⟨x,hx,hq⟩)
    simp only [List.flatMap_append,List.flatMap_cons,List.count_append] at hc h2
    omega
  refine ⟨s2,?_,hn2.trans rfl,?_,?_⟩
  · rw [insertIntoParent,if_neg (h.id_valid hn),Prog.bind_ok (FlatStore.readNode_eq h.stored.page),
      h.stored.layout.internalCanFit_eq]
    have hd : decide (30 + internalBytes (labels (Shape.id n) b.entries) + 8 + (8 + key.length) ≤
      pageSize) = true := decide_eq_true hr
    rw [hd,hins]
    simp only [Prog.ofOption_some,pure_bind,if_true]
    exact (Prog.bind_ok hw).trans ((Prog.bind_ok hset).trans rfl)
  · obtain ⟨h3,h4⟩ := labels_patched (k := k) (b := b) he h.label (Shape.setParent b.id n r)
      (id_setParent b.id r)
    have hst1 := s.branchStored_put hp
    have hnode : (b.absorb (Shape.id n) (fun p => Shape.setParent p n) k g).node =
        b.withChildren (graft k (fun _ => (g.node,[(key,Shape.setParent b.id n r)])) b.leftmost
          b.entries) := by simp only [absorb,he,if_pos hr]
    rw [hnode]
    refine ⟨⟨nd'.sealed,?_,hid,(hst1.parent.trans (congrArg Header.parent hh)).trans
      h.stored.parent,?_⟩,?_⟩
    · exact (ha2 b.id (by simpa using hidr.symm)).trans (hid ▸ hst1.page)
    · change InternalPage _ (Shape.id n (graft _ _ _ _).1) (labels (Shape.id n) (graft _ _ _ _).2)
      rw [h3,h4]
      exact hst1.layout
    · intro x hx
      have hx' : x ∈ T ++ (g.node :: Shape.setParent b.id n r :: D) := hpatched _ ▸ hx
      simp only [List.mem_append,List.mem_cons] at hx'
      rcases hx' with hx' | rfl | rfl | hx'
      · exact hother x (by simp [hx'])
      · exact hother _ (by simp)
      · exact hst2
      · exact hother x (by simp [hx'])
  · intro q hq
    rw [List.mem_cons,not_or] at hq
    have hqr : q ∉ [Shape.id n r] := by
      rw [List.mem_singleton]
      rintro rfl
      exact hq.2 (List.mem_flatMap.mpr ⟨r,hrmem,id_mem_ids r⟩)
    exact (ha2 q hqr).trans (s.pages_seal_ne (hid ▸ hq.1))

theorem absorb_split (he : g.extra = some (key,r))
    (hr : ¬ InternalRoom key (labels (Shape.id n) b.entries)) (hfit : b.Fits (Shape.id n) k g) :
    ∃ xs up mid ys, (b.grafted k g).2 = xs ++ (up,mid) :: ys ∧
      xs.length = (b.grafted k g).2.length / 2 ∧
      InternalFits (labels (Shape.id n) xs) ∧ InternalFits (labels (Shape.id n) ys) ∧
      b.absorb (Shape.id n) (fun p => Shape.setParent p n) k g =
        ⟨⟨b.id,b.parent,(b.grafted k g).1,xs⟩,some (up,⟨UInt32.ofNat g.next,invalidPageId,
          Shape.setParent (UInt32.ofNat g.next) n mid,
          ys.map (fun e => (e.1,Shape.setParent (UInt32.ofNat g.next) n e.2))⟩),g.next + 1⟩ := by
  have hgr : b.grafted k g = graft k (fun _ => (g.node,[(key,r)])) b.leftmost b.entries := by
    rw [grafted,he,Option.toList_some]
  have hlt := Nat.div_lt_self (List.length_pos_iff.mpr (grafted_ne_nil (b := b) (k := k) he))
    Nat.one_lt_two
  simp only [Fits,he,hr,false_or,← hgr] at hfit
  refine ⟨(b.grafted k g).2.take ((b.grafted k g).2.length / 2),
    ((b.grafted k g).2[(b.grafted k g).2.length / 2]).1,
    ((b.grafted k g).2[(b.grafted k g).2.length / 2]).2,
    (b.grafted k g).2.drop ((b.grafted k g).2.length / 2 + 1),?_,?_,?_,?_,?_⟩
  · rw [Prod.mk.eta,List.getElem_cons_drop,List.take_append_drop]
  · rw [List.length_take]
    omega
  · simpa [labels] using hfit.1
  · simpa [labels] using hfit.2
  · simp only [absorb,he,if_neg hr,← hgr,splitAt,withChildren,List.getElem?_eq_getElem hlt,
      Option.map_some]

theorem updateChildrenParent_eq {p : PageId} {c : Shape n} {es : List (Bytes × Shape n)}
    (hst : BranchStored s.pages (Shape.id n) ⟨p,invalidPageId,c,es⟩ nd)
    (hk : ∀ x ∈ children c es, Stored s.pages n x) (hnd : ((children c es).flatMap (ids n)).Nodup) :
    ∃ s', (updateChildrenParent p : Prog Error FlatStore Unit) s = (.ok (),s') ∧
      (∀ x ∈ children c es, Stored s'.pages n (Shape.setParent p n x)) ∧ s'.next = s.next ∧
      FlatStore.Agrees s s' ((children c es).map (Shape.id n)) := by
  obtain ⟨s',hset,hst',hn,ha⟩ := FlatStore.setParents_eq hk hnd p
  refine ⟨s',(Prog.bind_ok (FlatStore.readNode_eq hst.page)).trans ?_,hst',hn,ha⟩
  have hch : children (Shape.id n c) (labels (Shape.id n) es) =
      (children c es).map (Shape.id n) := by
    simp [children,labels,Function.comp_def]
  have hlen : nd.numChildren = (children (Shape.id n c) (labels (Shape.id n) es)).length := by
    rw [BTreeNode.numChildren,hst.layout.node.count]
    simp [children]
  rw [hlen,SlotPage.mapM_range (fun i x hx => hst.layout.internalChild_eq hx),hch]
  exact hset

theorem Ready.ne_next (h : Ready s k b g nd) (hn : s.next < invalidPageId.toNat) :
    ∀ q ∈ b.id :: (b.graftKids k g).flatMap (ids n), q ≠ UInt32.ofNat s.next := by
  rintro q hq rfl
  have hlt := h.below _ hq
  rw [toNat_ofNat_next hn] at hlt
  omega

section split

variable {xs ys : List (Bytes × Shape n)} {up : Bytes} {mid : Shape n}

theorem Ready.labels_split (h : Ready s k b g nd) (he : g.extra = some (key,r))
    (hsplit : (b.grafted k g).2 = xs ++ (up,mid) :: ys) :
    (labels (Shape.id n) b.entries).insertIdx (insertPos key (labels (Shape.id n) b.entries))
        (key,Shape.id n r) =
      labels (Shape.id n) xs ++ (up,Shape.id n mid) :: labels (Shape.id n) ys ∧
      Sorted (labels (Shape.id n) xs) ∧ Sorted (labels (Shape.id n) ys) := by
  obtain ⟨-,h2,hrank⟩ := labels_grafted_split (Shape.id n) he h.label h.after
  have hlab : labels (Shape.id n) (b.grafted k g).2 =
      labels (Shape.id n) xs ++ (up,Shape.id n mid) :: labels (Shape.id n) ys := by
    rw [hsplit]
    simp [labels]
  have hsorted := labels_sorted (Shape.id n) h.after
  rw [hlab] at hsorted
  obtain ⟨hsx,hsy,-⟩ := sorted_append.mp hsorted
  refine ⟨?_,hsx,(sorted_cons.mp hsy).2⟩
  rw [insertPos_eq_rank (labels_sorted (Shape.id n) h.before),hrank,← h2,hlab]

-- The two writes of split_internal; what remains is to tell the moved children their parent.
theorem Ready.writeHalves_eq (h : Ready s k b g nd) (he : g.extra = some (key,r))
    (hsplit : (b.grafted k g).2 = xs ++ (up,mid) :: ys)
    (hlen : xs.length = (b.grafted k g).2.length / 2)
    (hx : InternalFits (labels (Shape.id n) xs)) (hy : InternalFits (labels (Shape.id n) ys))
    (hn : s.next < invalidPageId.toNat) :
    ∃ s' left right, (splitInternal nd key (Shape.id n r) : Prog Error FlatStore _) s =
        (updateChildrenParent (UInt32.ofNat s.next) >>=
          fun _ => pure (up,UInt32.ofNat s.next) : Prog Error FlatStore _) s' ∧
      s'.next = s.next + 1 ∧
      BranchStored s'.pages (Shape.id n) ⟨b.id,b.parent,(b.grafted k g).1,xs⟩ left ∧
      BranchStored s'.pages (Shape.id n) ⟨UInt32.ofNat s.next,invalidPageId,mid,ys⟩ right ∧
      ∀ q, q ≠ b.id → q ≠ UInt32.ofNat s.next → s'.pages q = s.pages q := by
  obtain ⟨h1,-,-⟩ := labels_grafted_split (Shape.id n) he h.label h.after
  obtain ⟨hgrown,hsx,hsy⟩ := h.labels_split he hsplit
  set rid := UInt32.ofNat s.next with hrid
  have hbr : b.id ≠ rid := h.ne_next hn b.id List.mem_cons_self
  obtain ⟨right,hright,hrp,hrh⟩ := InternalPage.internalRebuild_eq
    ((BTreeNode.newInternal rid).setLevel nd.getLevel) (Shape.id n mid) hsy hy
  obtain ⟨left,hleft,hlp,hlh⟩ := InternalPage.internalRebuild_eq
    (((BTreeNode.newInternal nd.page.id).setLevel nd.getLevel).setParent nd.getParent)
    (Shape.id n (b.grafted k g).1) hsx hx
  rw [BTreeNode.header_setParent,BTreeNode.header_setLevel,BTreeNode.header_newInternal] at hlh
  rw [BTreeNode.header_setLevel,BTreeNode.header_newInternal] at hrh
  have hlid : left.header.id = b.id := (congrArg Header.id hlh).trans h.stored.id
  have hlpar : left.header.parent = b.parent := (congrArg Header.parent hlh).trans h.stored.parent
  have hrid' : right.header.id = rid := congrArg Header.id hrh
  have hrpar : right.header.parent = invalidPageId := congrArg Header.parent hrh
  set s1 := s.grow.put left.sealed.page with hs1
  have hw1 : (NodeStore.writeNode left : Prog Error FlatStore Unit) s.grow = (.ok (),s1) :=
    FlatStore.writeNode_eq ((congrArg s.grow.pages hlid).trans
      ((s.pages_grow_ne hbr).trans h.stored.page))
  have hp1 : s1.pages rid = some (Page.new rid) := by
    rw [hs1,FlatStore.pages_seal_ne _ (fun e => hbr (e.trans hlid).symm)]
    exact s.pages_grow_self
  have hw2 : (NodeStore.writeNode right : Prog Error FlatStore Unit) s1 =
      (.ok (),s1.put right.sealed.page) :=
    FlatStore.writeNode_eq ((congrArg s1.pages hrid').trans hp1)
  have hst1 := s.grow.branchStored_put hlp
  have hst2 := s1.branchStored_put hrp
  rw [hrpar,hrid'] at hst2
  refine ⟨s1.put right.sealed.page,left.sealed,right.sealed,?_,rfl,?_,hst2,fun q hqb hqr => ?_⟩
  · have hhalf : (labels (Shape.id n) xs ++ (up,Shape.id n mid) ::
        labels (Shape.id n) ys).length / 2 = (labels (Shape.id n) xs).length := by
      rw [hsplit] at hlen
      simpa [labels] using hlen.symm
    have hdrop : (labels (Shape.id n) xs ++ (up,Shape.id n mid) :: labels (Shape.id n) ys).drop
        ((labels (Shape.id n) xs).length + 1) = labels (Shape.id n) ys := by simp
    rw [splitInternal,h.stored.layout.internalEntries_eq]
    simp only [Prog.ofOption_some,pure_bind,hgrown,hhalf,List.take_left,List.getElem?_append_right,
      le_refl,Nat.sub_self,List.getElem?_cons_zero,hdrop,← h1]
    rw [Prog.bind_ok (FlatStore.allocatePage_eq hn),← hrid,hright,hleft]
    simp only [Prog.ofOption_some,pure_bind]
    exact (Prog.bind_ok hw1).trans (Prog.bind_ok hw2)
  · rw [hlpar,hlid] at hst1
    exact ⟨(s1.pages_seal_ne (fun e => hbr (e.trans hrid'))).trans hst1.page,hst1.id,hst1.parent,
      hst1.layout⟩
  · rw [s1.pages_seal_ne (fun e => hqr (e.trans hrid')),hs1,
      s.grow.pages_seal_ne (fun e => hqb (e.trans hlid)),s.pages_grow_ne hqr]

theorem Ready.splitInternal_eq (h : Ready s k b g nd) (he : g.extra = some (key,r))
    (hsplit : (b.grafted k g).2 = xs ++ (up,mid) :: ys)
    (hlen : xs.length = (b.grafted k g).2.length / 2)
    (hx : InternalFits (labels (Shape.id n) xs)) (hy : InternalFits (labels (Shape.id n) ys))
    (hn : s.next < invalidPageId.toNat) :
    ∃ s', (splitInternal nd key (Shape.id n r) : Prog Error FlatStore _) s =
        (.ok (up,UInt32.ofNat s.next),s') ∧ s'.next = s.next + 1 ∧
      Stored s'.pages (n + 1) ⟨b.id,b.parent,(b.grafted k g).1,xs⟩ ∧
      Stored s'.pages (n + 1) ⟨UInt32.ofNat s.next,invalidPageId,
        Shape.setParent (UInt32.ofNat s.next) n mid,
        ys.map (fun e => (e.1,Shape.setParent (UInt32.ofNat s.next) n e.2))⟩ ∧
      ∀ q, q ∉ b.id :: (b.graftKids k g).flatMap (ids n) → q ≠ UInt32.ofNat s.next →
        s'.pages q = s.pages q := by
  obtain ⟨s2,left,right,hrun,hn2,hst1,hst2,hsame⟩ := h.writeHalves_eq he hsplit hlen hx hy hn
  have hfreshq := h.ne_next hn
  set rid := UInt32.ofNat s.next with hrid
  have hkids : b.graftKids k g = children (b.grafted k g).1 xs ++ children mid ys := by
    rw [graftKids,hsplit]
    simp [children]
  have hk2 : ∀ x ∈ b.graftKids k g, Stored s2.pages n x := by
    intro x hx
    refine (h.kids x hx).congr (fun q hq => hsame q (h.id_ne hx q hq) (hfreshq q ?_))
    exact List.mem_cons_of_mem _ (List.mem_flatMap.mpr ⟨x,hx,hq⟩)
  have hnd := (List.nodup_cons.mp h.nodup).2
  rw [hkids,List.flatMap_append] at hnd
  obtain ⟨s3,hupd,hst3,hn3,ha3⟩ := updateChildrenParent_eq hst2
    (fun x hx => hk2 x (by rw [hkids]; exact List.mem_append_right _ hx))
    (List.nodup_append.mp hnd).2.1
  -- only pages of the right half's children change in the last step
  have hkeep : ∀ q, q ∉ (children mid ys).flatMap (ids n) → s3.pages q = s2.pages q := by
    intro q hq
    refine ha3 q (fun hm => hq ?_)
    obtain ⟨x,hx,rfl⟩ := List.mem_map.mp hm
    exact List.mem_flatMap.mpr ⟨x,hx,id_mem_ids x⟩
  have hmem (q : PageId) (hq : q ∈ (children mid ys).flatMap (ids n)) :
      q ∈ (b.graftKids k g).flatMap (ids n) := by
    rw [hkids,List.flatMap_append]
    exact List.mem_append_right _ hq
  have hb := hkeep b.id (fun hm => (List.nodup_cons.mp h.nodup).1 (hmem _ hm))
  have hr := hkeep rid (fun hm => hfreshq rid (List.mem_cons_of_mem _ (hmem _ hm)) rfl)
  refine ⟨s3,?_,hn3.trans hn2,⟨⟨left,hb.trans hst1.page,hst1.id,hst1.parent,hst1.layout⟩,?_⟩,
    ⟨⟨right,hr.trans hst2.page,hst2.id,hst2.parent,?_⟩,?_⟩,?_⟩
  · rw [hrun]
    exact (Prog.bind_ok hupd).trans rfl
  · intro x hx
    refine (hk2 x (by rw [hkids]; exact List.mem_append_left _ hx)).congr (fun q hq => hkeep q ?_)
    exact fun hm => (List.nodup_append.mp hnd).2.2 q (List.mem_flatMap.mpr ⟨x,hx,hq⟩) q hm rfl
  · have hmap : labels (Shape.id n) (ys.map (fun e => (e.1,Shape.setParent rid n e.2))) =
        labels (Shape.id n) ys := by simp [labels,Function.comp_def]
    change InternalPage _ (Shape.id n (Shape.setParent rid n mid)) (labels (Shape.id n) (ys.map _))
    rw [hmap,id_setParent]
    exact hst2.layout
  · intro x hx
    have hx' : x ∈ (children mid ys).map (Shape.setParent rid n) := by
      simpa [BranchNode.kids,children,Function.comp_def] using hx
    obtain ⟨y,hy,rfl⟩ := List.mem_map.mp hx'
    exact hst3 y hy
  · intro q hq hqr
    rw [List.mem_cons,not_or] at hq
    exact (hkeep q (fun hm => hq.2 (hmem q hm))).trans (hsame q hq.1 hqr)

end split

-- One level of insert_into_parent: what is left to do below b becomes what is left to do above it.
theorem Ready.absorb_eq (h : Ready s k b g nd) (hfit : b.Fits (Shape.id n) k g)
    (hn : (b.absorb (Shape.id n) (fun p => Shape.setParent p n) k g).next ≤ invalidPageId.toNat)
    {c : Shape n} (hpar : g.extra.isSome → Shape.parent n c = b.id) (m : Nat) (new : Bool) :
    ∃ s', Grew s s' (b.id :: (b.graftKids k g).flatMap (ids n)) (n + 1)
        (b.absorb (Shape.id n) (fun p => Shape.setParent p n) k g) ∧
      rest tree (m + 1) n c g new s = rest tree m (n + 1) b
        (b.absorb (Shape.id n) (fun p => Shape.setParent p n) k g) new s' := by
  rcases he : g.extra with _ | ⟨key,r⟩
  · obtain ⟨hab,hst⟩ := h.absorb_none he
    rw [hab]
    refine ⟨s,⟨h.next,hst,by simp,fun _ _ _ => rfl⟩,?_⟩
    rw [rest,he]
    rfl
  · have hp := hpar (by simp [he])
    have hrest : rest tree (m + 1) n c g new =
        insertIntoParent tree (m + 1) (Shape.id n c) key (Shape.id n r) b.id >>=
          fun tree => pure (new,tree) := by rw [rest,he,hp]
    rw [hrest]
    by_cases hr : InternalRoom key (labels (Shape.id n) b.entries)
    · have hab : (b.absorb (Shape.id n) (fun p => Shape.setParent p n) k g).extra = none ∧
          (b.absorb (Shape.id n) (fun p => Shape.setParent p n) k g).next = g.next := by
        simp only [absorb,he,if_pos hr,and_self]
      obtain ⟨s',hrun,hnext,hst,hag⟩ := h.absorb_room tree he hr
        (by rw [h.next,← hab.2]; exact hn) m (Shape.id n c)
      refine ⟨s',⟨hnext.trans (h.next.trans hab.2.symm),hst,by simp [hab.1],fun q hq _ => hag q hq⟩,
        ?_⟩
      rw [Prog.bind_ok hrun,rest,hab.1]
    · obtain ⟨xs,up,mid,ys,hsplit,hlen,hx,hy,hab⟩ := absorb_split he hr hfit
      rw [hab] at hn ⊢
      rw [← h.next] at hn ⊢
      have hn : s.next < invalidPageId.toNat := hn
      obtain ⟨s',hrun,hnext,hleft,hright,hag⟩ := h.splitInternal_eq he hsplit hlen hx hy hn
      refine ⟨s',⟨hnext,hleft,?_,fun q hq hlt => hag q hq ?_⟩,?_⟩
      · rintro e ⟨rfl⟩
        exact hright
      · rintro rfl
        rw [toNat_ofNat_next hn] at hlt
        omega
      · rw [insertIntoParent,if_neg (h.id_valid hn.le)]
        rw [bind_assoc,Prog.bind_ok (FlatStore.readNode_eq h.stored.page),
          h.stored.layout.internalCanFit_eq]
        have hd : decide (30 + internalBytes (labels (Shape.id n) b.entries) + 8 +
          (8 + key.length) ≤ pageSize) = false := decide_eq_false hr
        rw [hd]
        simp only [Prog.ofOption_some,pure_bind,Bool.false_eq_true,if_false,bind_assoc]
        rw [Prog.bind_ok hrun,h.stored.id,h.stored.parent]
        rfl

end BranchNode

end StorageDb
