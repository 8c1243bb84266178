import Mathlib.Tactic
import StorageDb.Btree.MapRefinement

namespace StorageDb
open SortedAssoc SepChain

namespace Shape

variable {n next : Nat} {k v : Bytes}

-- split_internal patches the children of the right half only, so a new child must not land in
-- the left half.
def NoLeftOrphan (k v : Bytes) : (n : Nat) → Nat → Shape n → Prop
  | 0, _, _ => True
  | n + 1, next, (b : BranchNode (Shape n)) =>
    NoLeftOrphan k v n next (route k b.leftmost b.entries) ∧
      ∀ e ∈ (insert k v n next (route k b.leftmost b.entries)).extra,
        ¬ InternalRoom e.1 (labels (id n) b.entries) →
          (b.entries.length + 1) / 2 ≤ reach k b.entries

def decideNoLeftOrphan (k v : Bytes) : (n next : Nat) → (t : Shape n) →
    Decidable (NoLeftOrphan k v n next t)
  | 0, _, _ => .isTrue trivial
  | n + 1, next, (b : BranchNode (Shape n)) =>
    have := decideNoLeftOrphan k v n next (route k b.leftmost b.entries)
    inferInstanceAs (Decidable (_ ∧ _))

instance (k v : Bytes) (n next : Nat) (t : Shape n) : Decidable (NoLeftOrphan k v n next t) :=
  decideNoLeftOrphan k v n next t

def decideParentsOk : (n : Nat) → (t : Shape n) → Decidable (ParentsOk n t)
  | 0, _ => .isTrue trivial
  | n + 1, (b : BranchNode (Shape n)) =>
    have := decideParentsOk n
    inferInstanceAs (Decidable (∀ c ∈ children b.leftmost b.entries, _ ∧ _))

instance (n : Nat) (t : Shape n) : Decidable (ParentsOk n t) := decideParentsOk n t

theorem ParentsOk.splitsKnow {t : Shape n} (h : ParentsOk n t) : SplitsKnowParent k v n next t := by
  induction n with
  | zero => exact trivial
  | succ n ih =>
    have hc := h _ (route_mem k t.leftmost t.entries)
    exact ⟨ih hc.2,fun _ => hc.1⟩

theorem ParentsOk.grafted {b : BranchNode (Shape n)} {g : Grown (Shape n)}
    (h : ParentsOk (n + 1) b) (hnode : parent n g.node = parent n (route k b.leftmost b.entries))
    (hok : ParentsOk n g.node) (m : Nat) (hm : m ≤ reach k b.entries + 1) :
    ∀ c ∈ (b.graftKids k g).take m, parent n c = b.id ∧ ParentsOk n c := by
  intro c hc
  have hlen : ((children b.leftmost b.entries).take (reach k b.entries)).length =
      reach k b.entries := by
    have := reach_le_length k b.entries
    simp only [List.length_take,children,List.length_cons,List.length_map]
    omega
  have hsub : c ∈ (children b.leftmost b.entries).take (reach k b.entries) ++ [g.node] := by
    rw [BranchNode.graftKids,BranchNode.grafted,children_graft] at hc
    have hc := List.take_subset_take_left _ hm hc
    rw [List.take_append,hlen,List.take_of_length_le (by omega)] at hc
    simpa [children] using hc
  rcases List.mem_append.mp hsub with hc | hc
  · exact h c (List.mem_of_mem_take hc)
  · rw [List.mem_singleton.mp hc]
    exact ⟨hnode.trans (h _ (route_mem k b.leftmost b.entries)).1,hok⟩

theorem mem_children_graft {c x : Shape n} {es ys : List (Bytes × Shape n)} {y : Shape n}
    (h : y ∈ children (graft k (fun _ => (x,ys)) c es).1 (graft k (fun _ => (x,ys)) c es).2) :
    y ∈ children c es ∨ y = x ∨ y ∈ ys.map Prod.snd := by
  rw [children_graft,List.mem_append,List.mem_append] at h
  rcases h with h | h | h
  · exact Or.inl (List.mem_of_mem_take h)
  · exact Or.inr (List.mem_cons.mp h)
  · exact Or.inl (List.mem_of_mem_drop h)

theorem ParentsOk.absorb {b : BranchNode (Shape n)} {g : Grown (Shape n)}
    (h : ParentsOk (n + 1) b) (hnode : parent n g.node = parent n (route k b.leftmost b.entries))
    (hok : ParentsOk n g.node) (hextra : ∀ e ∈ g.extra, ParentsOk n e.2)
    (hleft : ∀ e ∈ g.extra, ¬ InternalRoom e.1 (labels (id n) b.entries) →
      (b.entries.length + 1) / 2 ≤ reach k b.entries)
    (hfit : b.Fits (id n) k g) :
    ParentsOk (n + 1) (b.absorb (id n) (fun p => setParent p n) k g).node ∧
      ∀ e ∈ (b.absorb (id n) (fun p => setParent p n) k g).extra, ParentsOk (n + 1) e.2 := by
  have hold := (h _ (route_mem k b.leftmost b.entries)).1
  rcases he : g.extra with _ | ⟨key,r⟩
  · simp only [BranchNode.absorb,he]
    refine ⟨fun c hc => ?_,by simp⟩
    rcases mem_children_graft hc with hc | rfl | hc
    · exact h c hc
    · exact ⟨hnode.trans hold,hok⟩
    · simp at hc
  · have hr := hextra (key,r) he
    by_cases hroom : InternalRoom key (labels (id n) b.entries)
    · simp only [BranchNode.absorb,he,if_pos hroom]
      refine ⟨fun c hc => ?_,by simp⟩
      rcases mem_children_graft hc with hc | rfl | hc
      · exact h c hc
      · exact ⟨hnode.trans hold,hok⟩
      · obtain rfl : c = setParent b.id n r := by simpa using hc
        exact ⟨parent_setParent b.id r,(parentsOk_setParent b.id r).mpr hr⟩
    · obtain ⟨xs,up,mid,ys,hsplit,hlen,-,-,hab⟩ := BranchNode.absorb_split he hroom hfit
      have hkids : b.graftKids k g = children (b.grafted k g).1 xs ++ children mid ys := by
        rw [BranchNode.graftKids,hsplit]
        simp [children]
      have hgrown : (b.grafted k g).2.length = b.entries.length + 1 := by
        rw [BranchNode.grafted,length_graft,he]
        rfl
      have hpos := hleft (key,r) he hroom
      rw [hab]
      refine ⟨fun c hc => ?_,?_⟩
      · refine h.grafted hnode hok (xs.length + 1) (by omega) c ?_
        rw [hkids,List.take_append_of_le_length (by simp [children]),
          List.take_of_length_le (by simp [children])]
        exact hc
      · rintro e ⟨rfl⟩ c hc
        have hc : c ∈ (children mid ys).map (setParent (UInt32.ofNat g.next) n) := by
          simpa [children,Function.comp_def] using hc
        obtain ⟨y,hy,rfl⟩ := List.mem_map.mp hc
        refine ⟨parent_setParent _ y,(parentsOk_setParent _ y).mpr ?_⟩
        have hy : y ∈ b.graftKids k g := by
          rw [hkids]
          exact List.mem_append_right _ hy
        rw [BranchNode.graftKids,BranchNode.grafted,he] at hy
        rcases mem_children_graft hy with hy | rfl | hy
        · exact (h y hy).2
        · exact hok
        · obtain rfl : y = r := by simpa using hy
          exact hr

theorem ParentsOk.insert {t : Shape n} (h : ParentsOk n t) (hfit : InsertFits k v n next t)
    (hl : NoLeftOrphan k v n next t) :
    ParentsOk n (Shape.insert k v n next t).node ∧
      ∀ e ∈ (Shape.insert k v n next t).extra, ParentsOk n e.2 := by
  induction n with
  | zero => exact ⟨trivial,fun _ _ => trivial⟩
  | succ n ih =>
    obtain ⟨hnode,hextra⟩ := ih (h _ (route_mem k t.leftmost t.entries)).2 hfit.1 hl.1
    exact ParentsOk.absorb h (insert_node _ _).2 hnode hextra hl.2 hfit.2

theorem ParentsOk.delete {t : Shape n} (h : ParentsOk n t) (k : Bytes) :
    ParentsOk n (Shape.delete k n t) := by
  induction n with
  | zero => exact trivial
  | succ n ih =>
    intro c hc
    have hc : c ∈ children (graft k (fun x => (Shape.delete k n x,[])) t.leftmost t.entries).1
      (graft k (fun x => (Shape.delete k n x,[])) t.leftmost t.entries).2 := hc
    have hold := h _ (route_mem k t.leftmost t.entries)
    rw [children_graft,List.mem_append,List.mem_append] at hc
    rcases hc with hc | hc | hc
    · exact h c (List.mem_of_mem_take hc)
    · obtain rfl : c = Shape.delete k n (route k t.leftmost t.entries) := by
        simpa [children] using hc
      exact ⟨(parent_delete k _).trans hold.1,ih hold.2⟩
    · exact h c (List.mem_of_mem_drop hc)

end Shape

namespace RootedTree
open Shape

variable {t : RootedTree}

structure Parented (t : RootedTree) : Prop where
  kids : ParentsOk t.depth t.shape
  root : Shape.parent t.depth t.shape = invalidPageId

theorem parented_iff : t.Parented ↔
    ParentsOk t.depth t.shape ∧ Shape.parent t.depth t.shape = invalidPageId :=
  ⟨fun h => ⟨h.kids,h.root⟩,fun h => ⟨h.1,h.2⟩⟩

instance (t : RootedTree) : Decidable t.Parented := decidable_of_iff' _ parented_iff

def OrphanFree : TreeOp → RootedTree → Prop
  | .insert k v, t => t.Takes k v ∧ NoLeftOrphan k v t.depth t.next t.shape
  | .delete _, _ => True
  | .search _, _ => True

instance (op : TreeOp) (t : RootedTree) : Decidable (OrphanFree op t) :=
  match op with
  | .insert _ _ => inferInstanceAs (Decidable (_ ∧ _))
  | .delete _ => .isTrue trivial
  | .search _ => .isTrue trivial

theorem Parented.splitsTell (h : t.Parented) (k v : Bytes) : t.SplitsTell k v :=
  ⟨h.kids.splitsKnow,fun _ => h.root⟩

theorem Parented.insert {k v : Bytes} (h : t.Parented)
    (hfit : InsertFits k v t.depth t.next t.shape)
    (hleft : NoLeftOrphan k v t.depth t.next t.shape) : (t.insert k v).Parented := by
  obtain ⟨hnode,hextra⟩ := h.kids.insert hfit hleft
  have hpar := (insert_node (k := k) (v := v) t.next t.shape).2
  change ParentsOk _ (t.grown k v).node at hnode
  change ∀ e ∈ (t.grown k v).extra, _ at hextra
  change Shape.parent _ (t.grown k v).node = _ at hpar
  change (raise (t.grown k v)).Parented
  generalize t.grown k v = g at hnode hextra hpar ⊢
  obtain ⟨node,extra,next⟩ := g
  rcases extra with _ | ⟨sep,r⟩
  · exact ⟨hnode,hpar.trans h.root⟩
  · refine ⟨fun c hc => ?_,rfl⟩
    have hc : c ∈ [setParent (UInt32.ofNat next) _ node,setParent (UInt32.ofNat next) _ r] := hc
    simp only [List.mem_cons,List.not_mem_nil,or_false] at hc
    rcases hc with rfl | rfl
    · exact ⟨parent_setParent _ node,(parentsOk_setParent _ node).mpr hnode⟩
    · exact ⟨parent_setParent _ r,(parentsOk_setParent _ r).mpr (hextra _ rfl)⟩

theorem Parented.delete (h : t.Parented) (k : Bytes) : (t.delete k).Parented :=
  ⟨h.kids.delete k,(parent_delete k t.shape).trans h.root⟩

theorem Parented.apply (h : t.Parented) {op : TreeOp} (hs : OrphanFree op t) :
    Taken op t ∧ (t.apply op).Parented := by
  cases op with
  | insert k v => exact ⟨⟨hs.1,h.splitsTell k v⟩,h.insert hs.1.fits hs.2⟩
  | delete k => exact ⟨trivial,h.delete k⟩
  | search k => exact ⟨trivial,h⟩

theorem Parented.run (h : t.Parented) {ops : List TreeOp} (hs : Along OrphanFree ops t) :
    Along Taken ops t ∧ (ops.foldl (fun t op => t.apply op) t).Parented := by
  induction ops generalizing t with
  | nil => exact ⟨trivial,h⟩
  | cons op ops ih =>
    obtain ⟨htake,h'⟩ := h.apply hs.1
    obtain ⟨hrest,hfin⟩ := ih h' hs.2
    exact ⟨⟨htake,hrest⟩,hfin⟩

end RootedTree

inductive Reachable (pages : Pages) (root : PageId) : PageId → Prop
  | root : Reachable pages root root
  | child {p c : PageId} {nd : BTreeNode} {i : Nat} : Reachable pages root p →
      pages p = some nd.page → nd.isLeaf = false → i < nd.numChildren →
      nd.internalChild i = some c → Reachable pages root c

-- A page whose parent pointer is INVALID_PAGE_ID is the one that insert_into_parent takes for
-- the root.
structure ParentsHold (pages : Pages) (top : PageId) : Prop where
  child : ∀ (p c : PageId) (nd : BTreeNode) (i : Nat), Reachable pages top p →
    pages p = some nd.page → nd.isLeaf = false → i < nd.numChildren →
    nd.internalChild i = some c → ∃ nc : BTreeNode, pages c = some nc.page ∧ nc.getParent = p
  root : ∃ nd : BTreeNode, pages top = some nd.page ∧ nd.getParent = invalidPageId
  onlyRoot : ∀ (p : PageId) (nd : BTreeNode), Reachable pages top p → pages p = some nd.page →
    nd.getParent = invalidPageId → p = top

namespace Shape

variable {n m : Nat} {pages : Pages} {p c top : PageId} {nd : BTreeNode} {i : Nat}

inductive Sub (n : Nat) (t : Shape n) : (m : Nat) → Shape m → Prop
  | refl : Sub n t n t
  | kid (m : Nat) (b : Shape (m + 1)) (c : Shape m) : Sub n t (m + 1) b → c ∈ BranchNode.kids b →
      Sub n t m c

theorem Stored.sub {t : Shape n} {x : Shape m} (h : Stored pages n t) (hs : Sub n t m x) :
    Stored pages m x := by
  induction hs with
  | refl => exact h
  | kid m b c hb hc ih => exact ih.2 c hc

theorem ParentsOk.sub {t : Shape n} {x : Shape m} (h : ParentsOk n t) (hs : Sub n t m x) :
    ParentsOk m x := by
  induction hs with
  | refl => exact h
  | kid m b c hb hc ih => exact (ih c hc).2

theorem Sub.mem_ids {t : Shape n} {x : Shape m} (hs : Sub n t m x) :
    ∀ q ∈ ids m x, q ∈ ids n t := by
  induction hs with
  | refl => exact fun q hq => hq
  | kid m b c hb hc ih =>
    exact fun q hq => ih q (List.mem_cons_of_mem _ (List.mem_flatMap.mpr ⟨c,hc,hq⟩))

theorem Stored.page {t : Shape n} (h : Stored pages n t) (hp : pages (id n t) = some nd.page) :
    nd.getParent = parent n t ∧ nd.isLeaf = decide (n = 0) := by
  cases n with
  | zero =>
    obtain ⟨nd',h⟩ := h
    obtain rfl : nd = nd' := BTreeNode.ext (Option.some.inj (hp.symm.trans h.page))
    exact ⟨h.parent,h.layout.isLeaf_eq⟩
  | succ n =>
    obtain ⟨⟨nd',h⟩,-⟩ := h
    obtain rfl : nd = nd' := BTreeNode.ext (Option.some.inj (hp.symm.trans h.page))
    exact ⟨h.parent,h.layout.isLeaf_eq⟩

theorem Stored.child {b : Shape (n + 1)} (h : Stored pages (n + 1) b)
    (hp : pages (BranchNode.id b) = some nd.page) (x : PageId) :
    (∃ i < nd.numChildren, nd.internalChild i = some x) ↔ ∃ c ∈ BranchNode.kids b, id n c = x := by
  obtain ⟨⟨nd',h⟩,-⟩ := h
  obtain rfl : nd = nd' := BTreeNode.ext (Option.some.inj (hp.symm.trans h.page))
  have hch : children (id n b.leftmost) (labels (id n) b.entries) =
      (BranchNode.kids b).map (id n) := by
    simp [BranchNode.kids,children,labels,Function.comp_def]
  have hlen : nd.numChildren = ((BranchNode.kids b).map (id n)).length := by
    rw [BTreeNode.numChildren,h.layout.node.count]
    simp [BranchNode.kids,children,labels]
  have hget (i : Nat) (y : PageId) (hi : ((BranchNode.kids b).map (id n))[i]? = some y) :
      nd.internalChild i = some y := h.layout.internalChild_eq (hch ▸ hi)
  constructor
  · rintro ⟨i,hi,hx⟩
    rw [hlen] at hi
    have hy := hget i _ (List.getElem?_eq_getElem hi)
    rw [hy] at hx
    obtain rfl := Option.some.inj hx
    exact List.mem_map.mp (List.getElem_mem hi)
  · intro hx
    obtain ⟨i,hi,he⟩ := List.getElem_of_mem (List.mem_map.mpr hx)
    refine ⟨i,hlen ▸ hi,hget i x ?_⟩
    rw [List.getElem?_eq_getElem hi,he]

theorem Stored.reachable {t : Shape n} (h : Stored pages n t) (hr : Reachable pages (id n t) p) :
    ∃ m, ∃ x : Shape m, Sub n t m x ∧ id m x = p := by
  induction hr with
  | root => exact ⟨n,t,Sub.refl,rfl⟩
  | @child p c nd i hr hp hleaf hi hc ih =>
    obtain ⟨m,x,hs,rfl⟩ := ih
    have hx := h.sub hs
    cases m with
    | zero => simp [(hx.page hp).2] at hleaf
    | succ m =>
      obtain ⟨y,hy,rfl⟩ := (hx.child hp c).mp ⟨i,hi,hc⟩
      exact ⟨m,y,Sub.kid m x y hs hy,rfl⟩

theorem Stored.parentsHold {t : Shape n} (h : Stored pages n t) (hk : ParentsOk n t)
    (hroot : parent n t = invalidPageId) (hv : ∀ q ∈ ids n t, q ≠ invalidPageId) :
    ParentsHold pages (id n t) := by
  have hkid : ∀ (p c : PageId) (nd : BTreeNode) (i : Nat), Reachable pages (id n t) p →
      pages p = some nd.page → nd.isLeaf = false → i < nd.numChildren →
      nd.internalChild i = some c → ∃ m, ∃ b : Shape (m + 1), ∃ y, Sub n t (m + 1) b ∧
        y ∈ BranchNode.kids b ∧ id m y = c ∧ BranchNode.id b = p ∧ Stored pages m y ∧
        parent m y = p := by
    intro p c nd i hr hp hleaf hi hc
    obtain ⟨m,x,hs,rfl⟩ := h.reachable hr
    have hx := h.sub hs
    cases m with
    | zero => simp [(hx.page hp).2] at hleaf
    | succ m =>
      obtain ⟨y,hy,rfl⟩ := (hx.child hp c).mp ⟨i,hi,hc⟩
      exact ⟨m,x,y,hs,hy,rfl,rfl,hx.2 y hy,((hk.sub hs) y hy).1⟩
  refine ⟨?_,?_,?_⟩
  · intro p c nd i hr hp hleaf hi hc
    obtain ⟨m,b,y,-,-,rfl,-,hy,hpar⟩ := hkid p c nd i hr hp hleaf hi hc
    obtain ⟨nc,hnc⟩ := hy.isSome
    exact ⟨nc,hnc,(hy.page hnc).1.trans hpar⟩
  · obtain ⟨nd,hnd⟩ := h.isSome
    exact ⟨nd,hnd,(h.page hnd).1.trans hroot⟩
  · intro p nd hr hp hinv
    cases hr with
    | root => rfl
    | child hr' hp' hleaf hi hc =>
      obtain ⟨m,b,y,hs,-,rfl,rfl,hy,hpar⟩ := hkid _ _ _ _ hr' hp' hleaf hi hc
      rw [(hy.page hp).1,hpar] at hinv
      exact absurd hinv (hv _ (hs.mem_ids _ List.mem_cons_self))

theorem Stored.parentsOk {t : Shape n} (h : Stored pages n t) (hr : Reachable pages top (id n t))
    (hp : ParentsHold pages top) : ParentsOk n t := by
  induction n with
  | zero => exact trivial
  | succ n ih =>
    intro c hc
    obtain ⟨nd,hnd⟩ := h.isSome
    have hleaf : nd.isLeaf = false := by simp [(h.page hnd).2]
    obtain ⟨i,hi,hch⟩ := (h.child hnd (id n c)).mpr ⟨c,hc,rfl⟩
    obtain ⟨nc,hnc,hpar⟩ := hp.child _ _ nd i hr hnd hleaf hi hch
    have hst := h.2 c hc
    refine ⟨?_,ih hst (Reachable.child hr hnd hleaf hi hch)⟩
    rw [← (hst.page hnc).1,hpar]
    rfl

end Shape

theorem TreeOn.parentsHold_iff {s : FlatStore} {tree : BPlusTree} {t : RootedTree}
    (h : TreeOn s tree t) : ParentsHold s.pages tree.rootPageId ↔ t.Parented := by
  rw [← h.root]
  refine ⟨fun hp => ⟨h.stored.parentsOk Reachable.root hp,?_⟩,fun hp => ?_⟩
  · obtain ⟨nd,hnd,hinv⟩ := hp.root
    exact (h.stored.page hnd).1.symm.trans hinv
  · refine h.stored.parentsHold hp.kids hp.root ?_
    rintro q hq rfl
    exact absurd ((h.sound.below _ hq).trans_le h.sound.next) (lt_irrefl _)

namespace BPlusTree
open BufferPoolManager

theorem run_keeps_parents {disk : DiskManager} {capacity fuel : Nat} {ops : List TreeOp}
    (hd : disk.Healthy) (hc : 1 ≤ capacity) (hn : disk.numPages.toNat < invalidPageId.toNat)
    (hs : RootedTree.Along RootedTree.OrphanFree ops (RootedTree.single disk.numPages))
    (hf : ops.length ≤ fuel) :
    ∃ rs tree p', (create >>= run fuel ops) (new disk capacity) = (.ok (rs,tree),p') ∧
      ParentsHold p'.lookup tree.rootPageId := by
  have hstart : (RootedTree.single disk.numPages).Parented := ⟨trivial,rfl⟩
  obtain ⟨htake,hpar⟩ := hstart.run hs
  obtain ⟨tree,p',hrun,-,hat⟩ := create_run_on hd hc hn htake hf
  exact ⟨_,tree,p',hrun,hat.parentsHold_iff.mpr hpar⟩

theorem run_keeps_parents_descending : ∃ rs tree p',
    (create >>= run 67 (descendingOps 67)) (new (DiskManager.open_ [] []) 1) =
      (.ok (rs,tree),p') ∧ ParentsHold p'.lookup tree.rootPageId :=
  run_keeps_parents ⟨rfl,rfl⟩ (le_refl 1) (by decide) (by decide +kernel) (by decide)

-- One insert more splits the root; the new leaf stays in the left half, with the parent pointer
-- it was created with.
theorem descending_orphan : ∃ rs tree p',
    (create >>= run 68 (descendingOps 68)) (new (DiskManager.open_ [] []) 1) =
      (.ok (rs,tree),p') ∧ ¬ ParentsHold p'.lookup tree.rootPageId := by
  have hd : (DiskManager.open_ [] []).Healthy := ⟨rfl,rfl⟩
  have hlen : (descendingOps 68).length ≤ 68 := by decide
  obtain ⟨tree,p',hrun,-,hat⟩ := create_run_eq hd (le_refl 1) (by decide) (by decide +kernel)
    (by decide +kernel) hlen
  have horphan : ¬ ((descendingOps 68).foldl (fun t op => t.apply op)
      (RootedTree.single (DiskManager.open_ [] []).numPages)).Parented := by decide +kernel
  exact ⟨_,tree,p',hrun,fun hp => horphan (hat.parentsHold_iff.mp hp)⟩

end BPlusTree

end StorageDb
