import Mathlib.Tactic
import StorageDb.Btree.Capacity
import StorageDb.Btree.LeafSplit

namespace StorageDb
open SortedAssoc SepChain

namespace BTreeNode

variable {nd nd' : BTreeNode} {key : Bytes}

theorem id_writeInternalSlot {i a b : Nat} {c : PageId}
    (h : nd.writeInternalSlot i a b c = some nd') : nd'.page.id = nd.page.id := by
  obtain ⟨pg,hw,h⟩ := Option.bind_eq_some_iff.mp h
  cases h
  exact id_write hw

theorem id_shiftInternalSlots {pos m : Nat} (h : shiftInternalSlots pos m nd = some nd') :
    nd'.page.id = nd.page.id := by
  induction m generalizing nd with
  | zero =>
    cases h
    rfl
  | succ m ih =>
    obtain ⟨_,-,h⟩ := Option.bind_eq_some_iff.mp h
    obtain ⟨nd1,hw,h⟩ := Option.bind_eq_some_iff.mp h
    exact (ih h).trans (id_writeInternalSlot hw)

theorem id_internalInsert {child : PageId} (h : nd.internalInsert key child = some nd') :
    nd'.page.id = nd.page.id := by
  obtain ⟨pos,-,h⟩ := Option.bind_eq_some_iff.mp h
  obtain ⟨start,-,h⟩ := Option.bind_eq_some_iff.mp h
  dsimp only at h
  split_ifs at h
  obtain ⟨pg1,h1,h⟩ := Option.bind_eq_some_iff.mp h
  obtain ⟨nd2,h2,h⟩ := Option.bind_eq_some_iff.mp h
  obtain ⟨nd3,h3,h⟩ := Option.bind_eq_some_iff.mp h
  cases h
  exact (id_writeInternalSlot h3).trans ((id_shiftInternalSlots h2).trans (id_write h1))

theorem id_internalRebuild {c : PageId} {es : List Link} (h : nd.internalRebuild c es = some nd') :
    nd'.page.id = nd.page.id :=
  (id_foldlM (fun _ _ _ hr => id_internalInsert hr) h).trans rfl

end BTreeNode

namespace BufferPoolManager

theorem reflects_readNode (pid : PageId) :
    Prog.Reflects Models (NodeStore.readNode pid) (NodeStore.readNode pid) := by
  rintro p s p' nd ⟨hq,rfl⟩ hm
  cases hl : p.lookup pid with
  | none =>
    have he := hq.readNode_missing hl
    rw [show readNode pid p = _ from hm] at he
    cases he
  | some pg =>
    have hflat : (NodeStore.readNode pid : Prog Error FlatStore BTreeNode) p.flat =
        (.ok ⟨pg⟩,p.flat) := FlatStore.readNode_eq hl
    obtain ⟨p1,hm1,hR⟩ := (refines_readNode pid).of_ok ⟨hq,rfl⟩ hflat
    rw [hm] at hm1
    cases hm1
    exact ⟨_,hflat,hR⟩

theorem reflects_writeNode (nd : BTreeNode) :
    Prog.Reflects Models (NodeStore.writeNode nd) (NodeStore.writeNode nd) := by
  rintro p s p' u ⟨hq,rfl⟩ hm
  cases hl : p.lookup nd.page.id with
  | none =>
    have he := hq.writeNode_missing hl
    rw [show writeNode nd p = _ from hm] at he
    cases he
  | some pg =>
    have hflat : (NodeStore.writeNode nd : Prog Error FlatStore Unit) p.flat =
        (.ok (),p.flat.put nd.sealed.page) := FlatStore.writeNode_eq hl
    obtain ⟨p1,hm1,hR⟩ := (refines_writeNode nd).of_ok ⟨hq,rfl⟩ hflat
    rw [hm] at hm1
    cases hm1
    exact ⟨_,hflat,hR⟩

theorem reflects_updateChildrenParent (pid : PageId) : Prog.Reflects Models
    (BPlusTree.updateChildrenParent pid) (BPlusTree.updateChildrenParent pid) := by
  have h : Prog.Congruence fun (α : Type) (m : Prog Error BufferPoolManager α)
      (n : Prog Error FlatStore α) => Prog.Reflects Models m n := Prog.reflects_congruence
  have hset (xs : List PageId) : Prog.Reflects Models (BPlusTree.setParents pid xs)
      (BPlusTree.setParents pid xs) := by
    induction xs with
    | nil => exact h.pure ()
    | cons x xs ih =>
      exact h.bind (h.bind (reflects_readNode x) (fun _ => reflects_writeNode _)) (fun _ => ih)
  exact h.bind (reflects_readNode pid) (fun _ => h.bind (h.ofOption _) (fun _ => hset _))

end BufferPoolManager

namespace FlatStore
open BTreeNode

variable {s s' s'' : FlatStore} {pid : PageId}

def Named (s : FlatStore) : Prop := ∀ q pg, s.pages q = some pg → pg.id = q

structure KeepsRoutes (s s' : FlatStore) : Prop where
  named : s.Named → s'.Named
  present : ∀ q, (s.pages q).isSome → (s'.pages q).isSome
  routes : s.Named → ∀ q nd c es, s.pages q = some nd.page → InternalPage nd c es →
    ∃ nd' : BTreeNode, s'.pages q = some nd'.page ∧ InternalPage nd' c es

theorem KeepsRoutes.refl (s : FlatStore) : KeepsRoutes s s :=
  ⟨id,fun _ h => h,fun _ _ nd _ _ h1 h2 => ⟨nd,h1,h2⟩⟩

theorem KeepsRoutes.trans (h : KeepsRoutes s s') (h' : KeepsRoutes s' s'') : KeepsRoutes s s'' where
  named hn := h'.named (h.named hn)
  present q hq := h'.present q (h.present q hq)
  routes hn q nd c es hp hi := by
    obtain ⟨nd',hp',hi'⟩ := h.routes hn q nd c es hp hi
    exact h'.routes (h.named hn) q nd' c es hp' hi'

theorem Named.put (h : s.Named) (pg : Page) : (s.put pg).Named := by
  intro q x hx
  by_cases hq : q = pg.id
  · subst hq
    rw [pages_put_self] at hx
    cases hx
    rfl
  · exact h q x ((Function.update_of_ne hq ..).symm.trans hx)

theorem keepsRoutes_put {nd : BTreeNode} (hn : s.Named) (hp : s.pages pid = some nd.page)
    (p : PageId) : KeepsRoutes s (s.put (nd.setParent p).sealed.page) := by
  have hid : (nd.setParent p).page.id = pid := hn pid nd.page hp
  refine ⟨fun h => h.put _,fun q hq => ?_,fun _ q x c es hx hi => ?_⟩
  · by_cases he : q = (nd.setParent p).page.id
    · rw [he]
      exact Option.isSome_iff_exists.mpr ⟨_,s.pages_put_self (nd.setParent p).sealed.page⟩
    · rwa [s.pages_seal_ne he]
  · by_cases he : q = (nd.setParent p).page.id
    · have hq : q = pid := he.trans hid
      rw [hq,hp] at hx
      obtain rfl : nd = x := BTreeNode.ext (Option.some.inj hx)
      rw [he]
      exact ⟨_,s.pages_put_self (nd.setParent p).sealed.page,(hi.of_setParent p).of_updateChecksum⟩
    · exact ⟨x,by rwa [s.pages_seal_ne he],hi⟩

theorem setParentOf_routes (hn : s.Named) (p q : PageId) :
    KeepsRoutes s (BPlusTree.setParentOf p q s).2 ∧ ((s.pages q).isSome →
      (BPlusTree.setParentOf p q s).1 = .ok ()) := by
  cases hq : s.pages q with
  | none =>
    have hread : (NodeStore.readNode q : Prog Error FlatStore BTreeNode) s =
        (.error (.err .io),s) := by
      change FlatStore.readNode q s = _
      rw [FlatStore.readNode,hq]
    have hrun : BPlusTree.setParentOf p q s = (.error (.err .io),s) := Prog.bind_error hread
    rw [hrun]
    exact ⟨.refl s,fun h => by cases h⟩
  | some pg =>
    have hid : (BTreeNode.setParent ⟨pg⟩ p).page.id = q := hn q pg hq
    have hrun : BPlusTree.setParentOf p q s =
        (.ok (),s.put (BTreeNode.setParent ⟨pg⟩ p).sealed.page) :=
      (Prog.bind_ok (readNode_eq (show s.pages q = some (BTreeNode.mk pg).page from hq))).trans
        (writeNode_eq ((congrArg s.pages hid).trans hq))
    rw [hrun]
    exact ⟨keepsRoutes_put hn (show s.pages q = some (BTreeNode.mk pg).page from hq) p,fun _ => rfl⟩

theorem setParents_routes (hn : s.Named) (p : PageId) (xs : List PageId) :
    KeepsRoutes s (BPlusTree.setParents p xs s).2 ∧ ((∀ x ∈ xs, (s.pages x).isSome) →
      (BPlusTree.setParents p xs s).1 = .ok ()) := by
  induction xs generalizing s with
  | nil => exact ⟨.refl s,fun _ => rfl⟩
  | cons x xs ih =>
    obtain ⟨h1,h2⟩ := setParentOf_routes hn p x
    rcases hr : BPlusTree.setParentOf p x s with ⟨r,s1⟩
    rw [hr] at h1 h2
    cases r with
    | error e =>
      have hrun : BPlusTree.setParents p (x :: xs) s = (.error e,s1) := Prog.bind_error hr
      rw [hrun]
      refine ⟨h1,fun hx => ?_⟩
      cases h2 (hx x List.mem_cons_self)
    | ok u =>
      have hrun : BPlusTree.setParents p (x :: xs) s = BPlusTree.setParents p xs s1 :=
        Prog.bind_ok hr
      rw [hrun]
      obtain ⟨h3,h4⟩ := ih (h1.named hn)
      exact ⟨h1.trans h3,fun hx => h4 (fun y hy => h1.present y (hx y (List.mem_cons_of_mem _ hy)))⟩

theorem updateChildrenParent_routes (hn : s.Named) (p : PageId) :
    KeepsRoutes s (BPlusTree.updateChildrenParent p s).2 := by
  cases hp : s.pages p with
  | none =>
    have hread : (NodeStore.readNode p : Prog Error FlatStore BTreeNode) s =
        (.error (.err .io),s) := by
      change FlatStore.readNode p s = _
      rw [FlatStore.readNode,hp]
    have hrun : BPlusTree.updateChildrenParent p s = (.error (.err .io),s) := Prog.bind_error hread
    rw [hrun]
    exact .refl s
  | some pg =>
    rw [BPlusTree.updateChildrenParent,Prog.bind_ok
      (readNode_eq (show s.pages p = some (BTreeNode.mk pg).page from hp))]
    cases (List.range (BTreeNode.numChildren ⟨pg⟩)).mapM (BTreeNode.internalChild ⟨pg⟩) with
    | none => exact .refl s
    | some xs => exact (setParents_routes hn p xs).1

theorem updateChildrenParent_ok {nd : BTreeNode} {c : PageId} {es : List Link} (hn : s.Named)
    (hp : s.pages pid = some nd.page) (hi : InternalPage nd c es)
    (hx : ∀ x ∈ children c es, (s.pages x).isSome) :
    (BPlusTree.updateChildrenParent pid s).1 = .ok () := by
  have hlen : nd.numChildren = (children c es).length := by
    rw [numChildren,hi.node.count]
    simp [children]
  rw [BPlusTree.updateChildrenParent,Prog.bind_ok (readNode_eq hp),hlen,
    SlotPage.mapM_range (fun i x h => hi.internalChild_eq h)]
  exact (setParents_routes hn pid _).2 hx

end FlatStore

section internal
open BTreeNode

variable {s : FlatStore} {nd : BTreeNode} {c child : PageId} {es : List Link} {key : Bytes}

def leftLinks (key : Bytes) (child : PageId) (es : List Link) : List Link :=
  (upsert key child es).take ((upsert key child es).length / 2)

def rightLinks (key : Bytes) (child : PageId) (es : List Link) : List Link :=
  (upsert key child es).drop ((upsert key child es).length / 2 + 1)

theorem exists_pushed (key : Bytes) (child : PageId) {es : List Link} (hs : Sorted es)
    (hn : find key es = none) : ∃ e : Link,
      (upsert key child es)[(upsert key child es).length / 2]? = some e ∧
      leftLinks key child es ++ e :: rightLinks key child es = upsert key child es := by
  have hlen := length_upsert_of_absent (v := child) hs hn
  have hlt : (upsert key child es).length / 2 < (upsert key child es).length := by omega
  refine ⟨_,List.getElem?_eq_getElem hlt,?_⟩
  rw [leftLinks,rightLinks,List.getElem_cons_drop,List.take_append_drop]

theorem internalBytes_keys {xs ys : List Link} (h : xs.map Prod.fst = ys.map Prod.fst) :
    internalBytes xs = internalBytes ys := by
  have hsum (zs : List Link) :
      internalBytes zs = ((zs.map Prod.fst).map (fun k : Bytes => 8 + k.length)).sum := by
    rw [List.map_map]
    rfl
  rw [hsum,hsum,h]

theorem internalFits_left_or_right (hf : InternalFits es) (hs : Sorted es)
    (hn : find key es = none) (hk : key.length ≤ maxKeySize) :
    InternalFits (leftLinks key child es) ∨ InternalFits (rightLinks key child es) := by
  obtain ⟨e,-,happ⟩ := exists_pushed key child hs hn
  have hb : internalBytes (upsert key child es) = internalBytes ((key,child) :: es) :=
    ((perm_upsert_of_absent child hs hn).map _).sum_eq
  rw [← happ,internalBytes_append,internalBytes_cons,internalBytes_cons] at hb
  dsimp only at hb
  simp only [InternalFits,pageSize_eq,maxKeySize] at hf hk ⊢
  omega

def leftNode (nd : BTreeNode) (c : PageId) (key : Bytes) (child : PageId) (es : List Link) :
    Option BTreeNode :=
  (((newInternal nd.page.id).setLevel nd.getLevel).setParent nd.getParent).internalRebuild c
    (leftLinks key child es)

def rightNode (nd : BTreeNode) (rid mid : PageId) (key : Bytes) (child : PageId)
    (es : List Link) : Option BTreeNode :=
  ((newInternal rid).setLevel nd.getLevel).internalRebuild mid (rightLinks key child es)

theorem id_leftNode {l : BTreeNode} (h : leftNode nd c key child es = some l) :
    l.page.id = nd.page.id := by
  rw [leftNode] at h
  rw [id_internalRebuild h]
  rfl

theorem id_rightNode {r : BTreeNode} {rid mid : PageId}
    (h : rightNode nd rid mid key child es = some r) : r.page.id = rid := by
  rw [rightNode] at h
  rw [id_internalRebuild h]
  rfl

theorem leftNode_eq (nd : BTreeNode) (c : PageId) (hs : Sorted es)
    (hf : InternalFits (leftLinks key child es)) :
    ∃ l, leftNode nd c key child es = some l ∧ InternalPage l c (leftLinks key child es) := by
  obtain ⟨l,h1,h2,-⟩ := InternalPage.internalRebuild_eq
    (((newInternal nd.page.id).setLevel nd.getLevel).setParent nd.getParent) c
    (List.Pairwise.sublist (List.take_sublist _ _) (sorted_upsert hs)) hf
  exact ⟨l,h1,h2⟩

theorem rightNode_eq (nd : BTreeNode) (rid mid : PageId) (hs : Sorted es)
    (hf : InternalFits (rightLinks key child es)) :
    ∃ r, rightNode nd rid mid key child es = some r ∧
      InternalPage r mid (rightLinks key child es) := by
  obtain ⟨r,h1,h2,-⟩ := InternalPage.internalRebuild_eq ((newInternal rid).setLevel nd.getLevel) mid
    (List.Pairwise.sublist (List.drop_sublist _ _) (sorted_upsert hs)) hf
  exact ⟨r,h1,h2⟩

-- split_internal before update_children_parent.
def splitPages {σ : Type} [NodeStore σ] (oldNode : BTreeNode) (newKey : Bytes) (newChild : PageId) :
    Prog Error σ (Bytes × PageId) := do
  let (leftmost,entries) ← Prog.ofOption oldNode.internalEntries
  let entries := entries.insertIdx (BPlusTree.insertPos newKey entries) (newKey,newChild)
  let splitPoint := entries.length / 2
  let (pushUpKey,rightLeftmost) ← Prog.ofOption entries[splitPoint]?
  let rightId ← NodeStore.allocatePage
  let rightNode ← Prog.ofOption (((newInternal rightId).setLevel oldNode.getLevel).internalRebuild
    rightLeftmost (entries.drop (splitPoint + 1)))
  let newOldNode ← Prog.ofOption ((((newInternal oldNode.page.id).setLevel
    oldNode.getLevel).setParent oldNode.getParent).internalRebuild leftmost
      (entries.take splitPoint))
  NodeStore.writeNode newOldNode
  NodeStore.writeNode rightNode
  pure (pushUpKey,rightId)

theorem splitInternal_eq_pages {σ : Type} [NodeStore σ] (nd : BTreeNode) (key : Bytes)
    (child : PageId) : (BPlusTree.splitInternal nd key child : Prog Error σ _) =
      splitPages nd key child >>= fun r => BPlusTree.updateChildrenParent r.2 >>= fun _ =>
        pure r := by
  simp only [BPlusTree.splitInternal,splitPages,bind_assoc,pure_bind]

theorem congr_splitPages {σ τ : Type} [NodeStore σ] [NodeStore τ]
    {Q : ⦃α : Type⦄ → Prog Error σ α → Prog Error τ α → Prop} (h : StoreCongruence Q)
    (nd : BTreeNode) (key : Bytes) (child : PageId) :
    Q (splitPages nd key child) (splitPages nd key child) :=
  h.bind (h.ofOption _) (fun _ => h.bind (h.ofOption _) (fun _ => h.bind h.alloc (fun _ =>
    h.bind (h.ofOption _) (fun _ => h.bind (h.ofOption _) (fun _ => h.bind (h.write _) (fun _ =>
      h.bind (h.write _) (fun _ => h.pure _)))))))

theorem splitPages_flat (hi : InternalPage nd c es) (hs : Sorted es) (hn : find key es = none)
    (hpage : (s.pages nd.page.id).isSome) (hids : s.next < invalidPageId.toNat) {up : Bytes}
    {mid : PageId}
    (hup : (upsert key child es)[(upsert key child es).length / 2]? = some (up,mid)) :
    (∃ l r, leftNode nd c key child es = some l ∧
      rightNode nd (UInt32.ofNat s.next) mid key child es = some r ∧
      (splitPages nd key child : Prog Error FlatStore _) s =
        (.ok (up,UInt32.ofNat s.next),(s.grow.put l.sealed.page).put r.sealed.page)) ∨
    (leftNode nd c key child es = none ∨
      rightNode nd (UInt32.ofNat s.next) mid key child es = none) ∧
      ((splitPages nd key child : Prog Error FlatStore _) s).1 = .error .panic := by
  have hrun : (splitPages nd key child : Prog Error FlatStore _) s = (do
      let r ← Prog.ofOption (rightNode nd (UInt32.ofNat s.next) mid key child es)
      let l ← Prog.ofOption (leftNode nd c key child es)
      NodeStore.writeNode l
      NodeStore.writeNode r
      pure (up,UInt32.ofNat s.next) : Prog Error FlatStore _) s.grow := by
    rw [splitPages,hi.internalEntries_eq]
    simp only [Prog.ofOption_some,pure_bind,BPlusTree.insertPos_eq_rank hs,
      ← upsert_eq_insertIdx hs hn,
      hup]
    exact Prog.bind_ok (FlatStore.allocatePage_eq hids)
  rw [hrun]
  cases hright : rightNode nd (UInt32.ofNat s.next) mid key child es with
  | none => exact Or.inr ⟨Or.inr rfl,rfl⟩
  | some r =>
    cases hleft : leftNode nd c key child es with
    | none => exact Or.inr ⟨Or.inl rfl,rfl⟩
    | some l =>
      obtain ⟨pg,hpg⟩ : ∃ pg, s.grow.pages l.page.id = some pg := by
        rw [id_leftNode hleft]
        exact Option.isSome_iff_exists.mp (s.grow_present hpage)
      obtain ⟨pg',hpg'⟩ : ∃ pg, (s.grow.put l.sealed.page).pages r.page.id = some pg := by
        rw [id_rightNode hright]
        exact Option.isSome_iff_exists.mp (FlatStore.put_present _ _
          (Option.isSome_iff_exists.mpr ⟨_,s.pages_grow_self⟩))
      refine Or.inl ⟨l,r,rfl,rfl,?_⟩
      simp only [Prog.ofOption_some,pure_bind]
      exact (Prog.bind_ok (FlatStore.writeNode_eq hpg)).trans
        ((Prog.bind_ok (FlatStore.writeNode_eq hpg')).trans rfl)

theorem congr_updateChildrenParent {σ τ : Type} [NodeStore σ] [NodeStore τ]
    {Q : ⦃α : Type⦄ → Prog Error σ α → Prog Error τ α → Prop} (h : StoreCongruence Q)
    (pid : PageId) : Q (BPlusTree.updateChildrenParent pid) (BPlusTree.updateChildrenParent pid) :=
  h.bind (h.read pid) (fun _ => h.bind (h.ofOption _) (fun _ => BPlusTree.congr_setParents h _ _))

theorem InternalPage.entries_unique {c' : PageId} {xs ys : List Link} (h : InternalPage nd c xs)
    (h' : InternalPage nd c' ys) : c = c' ∧ xs = ys :=
  Prod.mk.injEq .. ▸ Option.some.inj (h.internalEntries_eq.symm.trans h'.internalEntries_eq)

theorem children_upsert (hs : Sorted es) (hn : find key es = none) :
    children c (upsert key child es) = (children c es).insertIdx (reach key es + 1) child := by
  rw [upsert_eq_insertIdx hs hn,← reach_eq_rank hs (find_eq_none.mp hn),children,children,
    List.map_insertIdx,List.insertIdx_succ_cons]

end internal

namespace BPlusTree
open BufferPoolManager BTreeNode

variable {p : BufferPoolManager} {nd : BTreeNode} {c child : PageId} {es : List Link} {key : Bytes}

def InternalSplitWhole (p : BufferPoolManager) (nd : BTreeNode) (key : Bytes) (child c : PageId)
    (es : List Link) : Prop :=
  ∃ up rid p' l r c1 xs c2 ys, splitInternal nd key child p = (.ok (up,rid),p') ∧
    p'.lookup nd.page.id = some l.page ∧ p'.lookup rid = some r.page ∧ InternalPage l c1 xs ∧
    InternalPage r c2 ys ∧
    xs.map Prod.fst ++ up :: ys.map Prod.fst = (upsert key child es).map Prod.fst ∧
    children c1 xs ++ children c2 ys = (children c es).insertIdx (reach key es + 1) child

section internal

variable (hq : Quiet p) (hi : InternalPage nd c es) (hs : Sorted es) (hn : find key es = none)
  (hpage : p.lookup nd.page.id = some nd.page)
  (hids : p.disk.numPages.toNat < invalidPageId.toNat)
include hq hi hs hn hpage hids

theorem splitPages_pool {up : Bytes} {mid : PageId}
    (hup : (upsert key child es)[(upsert key child es).length / 2]? = some (up,mid)) :
    (∃ l r p', leftNode nd c key child es = some l ∧
      rightNode nd p.disk.numPages mid key child es = some r ∧
      splitPages nd key child p = (.ok (up,p.disk.numPages),p') ∧ Quiet p' ∧
      p'.flat.pages nd.page.id = some l.sealed.page ∧
      p'.flat.pages p.disk.numPages = some r.sealed.page ∧
      ∀ q, (p.lookup q).isSome → (p'.flat.pages q).isSome) ∨
    (leftNode nd c key child es = none ∨ rightNode nd p.disk.numPages mid key child es = none) ∧
      (splitPages nd key child p).1 = .error .panic := by
  have hsome : (p.flat.pages nd.page.id).isSome := by
    change (p.lookup nd.page.id).isSome
    rw [hpage]
    rfl
  have hlt : nd.page.id.toNat < p.disk.numPages.toNat := hq.inv.lookup_isSome.mp hsome
  have hrid : UInt32.ofNat p.flat.next = p.disk.numPages := UInt32.ofNat_toNat
  have hflat := splitPages_flat hi hs hn hsome hids hup
  rw [hrid] at hflat
  rcases hflat with ⟨l,r,h1,h2,hrun⟩ | ⟨hwhy,hpanic⟩
  · obtain ⟨p',hrun',hq',hflat⟩ := (congr_splitPages models_refines nd key child).of_ok
      ⟨hq,rfl⟩ hrun
    have hne : nd.page.id ≠ r.page.id := by
      rw [id_rightNode h2]
      intro he
      rw [he] at hlt
      omega
    refine Or.inl ⟨l,r,p',h1,h2,hrun',hq',?_,?_,fun q hx => ?_⟩
    · rw [hflat,FlatStore.pages_seal_ne _ hne,← id_leftNode h1]
      exact FlatStore.pages_put_self _ l.sealed.page
    · rw [hflat,← id_rightNode h2]
      exact FlatStore.pages_put_self _ r.sealed.page
    · rw [hflat]
      exact FlatStore.put_present _ _ (FlatStore.put_present _ _ (FlatStore.grow_present _ hx))
  · exact Or.inr ⟨hwhy,(congr_splitPages models_refines nd key child).of_panic ⟨hq,rfl⟩ hpanic⟩

theorem internalSplitWhole_of_fits (hkids : ∀ x ∈ child :: children c es, (p.lookup x).isSome)
    (hleft : InternalFits (leftLinks key child es))
    (hright : InternalFits (rightLinks key child es)) :
    InternalSplitWhole p nd key child c es := by
  obtain ⟨⟨up,mid⟩,hup,happ⟩ := exists_pushed key child hs hn
  obtain ⟨l0,hl0,hlp⟩ := leftNode_eq nd c hs hleft
  obtain ⟨r0,hr0,hrp⟩ := rightNode_eq nd p.disk.numPages mid hs hright
  rcases splitPages_pool hq hi hs hn hpage hids hup with
    ⟨l,r,p2,h1,h2,hrun,hq2,hpl,hpr,hall⟩ | ⟨h | h,-⟩
  · rw [hl0] at h1
    rw [hr0] at h2
    cases h1
    cases h2
    have hnamed : p2.flat.Named := fun q pg h => hq2.inv.lookup_id h
    have hmem : ∀ x ∈ children mid (rightLinks key child es), (p2.flat.pages x).isSome := by
      intro x hx
      refine hall x (hkids x ?_)
      have hlink : ∃ e ∈ upsert key child es, e.2 = x := by
        rw [← happ]
        rcases List.mem_cons.mp hx with rfl | hx
        · exact ⟨(up,x),by simp,rfl⟩
        · obtain ⟨e,he,rfl⟩ := List.mem_map.mp hx
          exact ⟨e,by simp [he],rfl⟩
      obtain ⟨e,he,rfl⟩ := hlink
      rcases mem_upsert he with rfl | he
      · exact List.mem_cons_self
      · exact List.mem_cons_of_mem _ (List.mem_cons_of_mem _ (List.mem_map_of_mem he))
    have hok := FlatStore.updateChildrenParent_ok hnamed hpr hrp.of_updateChecksum hmem
    have hkeep := FlatStore.updateChildrenParent_routes hnamed p.disk.numPages
    obtain ⟨p3,hrun3,-,hflat3⟩ := (congr_updateChildrenParent models_refines p.disk.numPages).of_ok
      ⟨hq2,rfl⟩ (Prod.ext hok rfl)
    obtain ⟨l3,hl3,hlp3⟩ := hkeep.routes hnamed _ _ _ _ hpl hlp.of_updateChecksum
    obtain ⟨r3,hr3,hrp3⟩ := hkeep.routes hnamed _ _ _ _ hpr hrp.of_updateChecksum
    replace hl3 : p3.lookup nd.page.id = some l3.page :=
      (congrArg (fun s => FlatStore.pages s nd.page.id) hflat3).trans hl3
    replace hr3 : p3.lookup p.disk.numPages = some r3.page :=
      (congrArg (fun s => FlatStore.pages s p.disk.numPages) hflat3).trans hr3
    refine ⟨up,_,p3,l3,r3,c,_,mid,_,?_,hl3,hr3,hlp3,hrp3,?_,?_⟩
    · rw [splitInternal_eq_pages,Prog.bind_ok hrun,Prog.bind_ok hrun3]
      rfl
    · rw [← happ]
      simp
    · rw [← children_upsert hs hn,← happ]
      simp [children]
  · exact absurd (h.symm.trans hl0) (by simp)
  · exact absurd (h.symm.trans hr0) (by simp)

theorem InternalSplitWhole.fits (h : InternalSplitWhole p nd key child c es)
    (hk : key.length ≤ maxKeySize) :
    InternalFits (leftLinks key child es) ∧ InternalFits (rightLinks key child es) := by
  obtain ⟨up',rid,p3,l,r,c1,xs,c2,ys,hrun,hpl3,hpr3,hlp,hrp,hkeys,-⟩ := h
  obtain ⟨⟨up,mid⟩,hup,happ⟩ := exists_pushed key child hs hn
  rw [splitInternal_eq_pages] at hrun
  rcases splitPages_pool hq hi hs hn hpage hids hup with
    ⟨l0,r0,p2,h1,h2,hrun2,hq2,hpl,hpr,-⟩ | ⟨-,hpanic⟩
  · rw [Prog.bind_ok hrun2] at hrun
    rcases hu : (updateChildrenParent p.disk.numPages : Prog Error BufferPoolManager Unit) p2 with
      ⟨e,p4⟩
    cases e with
    | error e =>
      rw [Prog.bind_error hu] at hrun
      cases hrun
    | ok u =>
      rw [Prog.bind_ok hu] at hrun
      cases hrun
      obtain ⟨s3,hflat,-,rfl⟩ := reflects_updateChildrenParent _ p2 p2.flat p3 u ⟨hq2,rfl⟩ hu
      have hnamed : p2.flat.Named := fun q pg h => hq2.inv.lookup_id h
      have hkeep := FlatStore.updateChildrenParent_routes hnamed p.disk.numPages
      rw [hflat] at hkeep
      rw [← happ,List.map_append,List.map_cons] at hkeys
      have hfit (zs zs' : List Link) (hz : zs.map Prod.fst = zs'.map Prod.fst)
          (hf : InternalFits zs) : InternalFits zs' := by
        rwa [InternalFits,← internalBytes_keys hz]
      rcases (internalFits_left_or_right hi.fits hs hn hk :
          InternalFits (leftLinks key child _) ∨ _) with hl | hr
      · obtain ⟨l1,hl1,hlp1⟩ := leftNode_eq nd c hs hl
        cases h1.symm.trans hl1
        obtain ⟨l3,hl3,hlp3⟩ := hkeep.routes hnamed _ _ _ _ hpl hlp1.of_updateChecksum
        obtain rfl : l = l3 := BTreeNode.ext (Option.some.inj (hpl3.symm.trans hl3))
        obtain ⟨-,rfl⟩ := hlp.entries_unique hlp3
        refine ⟨hl,hfit _ _ ?_ hrp.fits⟩
        exact (List.cons.inj (List.append_cancel_left hkeys)).2
      · obtain ⟨r1,hr1,hrp1⟩ := rightNode_eq nd p.disk.numPages mid hs hr
        cases h2.symm.trans hr1
        obtain ⟨r3,hr3,hrp3⟩ := hkeep.routes hnamed _ _ _ _ hpr hrp1.of_updateChecksum
        obtain rfl : r = r3 := BTreeNode.ext (Option.some.inj (hpr3.symm.trans hr3))
        obtain ⟨-,rfl⟩ := hrp.entries_unique hrp3
        refine ⟨hfit _ _ ?_ hlp.fits,hr⟩
        rw [List.append_cons,List.append_cons (List.map Prod.fst (leftLinks key child es))] at hkeys
        exact (List.append_inj' (List.append_cancel_right hkeys) rfl).1
  · rcases hm : splitPages nd key child p with ⟨e,p2⟩
    rw [hm] at hpanic
    cases hpanic
    rw [Prog.bind_error hm] at hrun
    cases hrun

end internal

theorem split_internal_whole_iff (hq : Quiet p) (hi : InternalPage nd c es) (hs : Sorted es)
    (hk : key.length ≤ maxKeySize) (hn : ∀ e ∈ es, e.1 ≠ key)
    (hpage : p.lookup nd.page.id = some nd.page)
    (hkids : ∀ x ∈ child :: children c es, (p.lookup x).isSome)
    (hids : p.disk.numPages.toNat < invalidPageId.toNat) :
    InternalSplitWhole p nd key child c es ↔
      InternalFits (leftLinks key child es) ∧ InternalFits (rightLinks key child es) := by
  have hnone := find_eq_none.mpr hn
  exact ⟨fun h => h.fits hq hi hs hnone hpage hids hk,
    fun h => internalSplitWhole_of_fits hq hi hs hnone hpage hids hkids h.1 h.2⟩

def rootLinks (t : RootedTree) : Option (PageId × List Link) :=
  match t with
  | ⟨0,_,_⟩ => none
  | ⟨n + 1,b,_⟩ => some (Shape.id n b.leftmost,labels (Shape.id n) b.entries)

theorem rootLinks_page {s : FlatStore} {tree : BPlusTree} {t : RootedTree} (h : TreeOn s tree t)
    (hr : rootLinks t = some (c,es)) : ∃ nd, s.pages tree.rootPageId = some nd.page ∧
      nd.page.id = tree.rootPageId ∧ InternalPage nd c es := by
  obtain ⟨n,sh,next⟩ := t
  cases n with
  | zero => cases hr
  | succ n =>
    cases hr
    obtain ⟨⟨nd,hst⟩,-⟩ := h.stored
    exact ⟨nd,h.root ▸ hst.page,hst.id.trans h.root,hst.layout⟩

def longKey (i : Nat) : Bytes := UInt8.ofNat i :: List.replicate 251 0

def unevenOps : List TreeOp :=
  (List.range 128).map (fun i => .insert [UInt8.ofNat (100 + i)] wideValue) ++
    (List.range 63).map (fun i => .insert (longKey (i + 1)) wideValue)

def unevenLinks : List Link :=
  (List.range 15).map (fun i => (longKey (4 * i + 5),UInt32.ofNat (i + 18))) ++
    ([102],17) :: ([108],1) ::
    (List.range 14).map (fun i => ([UInt8.ofNat (8 * i + 116)],UInt32.ofNat (i + 3)))

theorem unevenOps_root : ∃ rs tree p nd, (create >>= run 191 unevenOps)
    (new (DiskManager.open_ [] []) 1) = (.ok (rs,tree),p) ∧ Quiet p ∧
      p.lookup tree.rootPageId = some nd.page ∧ p.lookup nd.page.id = some nd.page ∧
      InternalPage nd 0 unevenLinks ∧ p.disk.numPages.toNat = 33 := by
  have hd : (DiskManager.open_ [] []).Healthy := ⟨rfl,rfl⟩
  have hlen : unevenOps.length ≤ 191 := by simp [unevenOps]
  obtain ⟨tree,p,hrun,hq,h⟩ := create_run_eq hd (le_refl 1) (by decide) (by decide +kernel)
    (by decide +kernel) hlen
  have ht : rootLinks (unevenOps.foldl (fun t op => t.apply op)
        (RootedTree.single (DiskManager.open_ [] []).numPages)) = some (0,unevenLinks) ∧
      (unevenOps.foldl (fun t op => t.apply op)
        (RootedTree.single (DiskManager.open_ [] []).numPages)).next = 33 := by decide +kernel
  obtain ⟨nd,hpage,hid,hi⟩ := rootLinks_page h.toTreeOn ht.1
  exact ⟨_,tree,p,nd,hrun,hq,hpage,hid ▸ hpage,hi,h.next.trans ht.2⟩

theorem split_internal_whole_iff_uneven : ∃ rs tree p nd, (create >>= run 191 unevenOps)
    (new (DiskManager.open_ [] []) 1) = (.ok (rs,tree),p) ∧
      p.lookup tree.rootPageId = some nd.page ∧ nd.internalCanFit (wideKey 230) = some false ∧
      InternalSplitWhole p nd (wideKey 230) 32 0 unevenLinks := by
  obtain ⟨rs,tree,p,nd,hrun,hq,hroot,hpage,hi,hnum⟩ := unevenOps_root
  have hkids : ∀ x ∈ 32 :: children 0 unevenLinks, (p.lookup x).isSome := by
    have hlt : (32 :: children 0 unevenLinks).all (fun x => x.toNat < 33) = true := by
      decide +kernel
    intro x hx
    exact hq.inv.lookup_isSome.mpr (hnum ▸ of_decide_eq_true (List.all_eq_true.mp hlt x hx))
  refine ⟨rs,tree,p,nd,hrun,hroot,?_,(split_internal_whole_iff hq hi (by decide +kernel)
    (by decide +kernel) (by decide +kernel) hpage hkids (by rw [hnum]; decide)).mpr
    (by decide +kernel)⟩
  rw [hi.internalCanFit_eq]
  decide +kernel

-- The left half gets the new separator and the fifteen long ones, which need 4194 bytes.
theorem split_internal_overflow : ∃ rs tree p nd, (create >>= run 191 unevenOps)
    (new (DiskManager.open_ [] []) 1) = (.ok (rs,tree),p) ∧
      p.lookup tree.rootPageId = some nd.page ∧ InternalPage nd 0 unevenLinks ∧
      nd.internalCanFit (wideKey 0) = some false ∧
      ¬ InternalSplitWhole p nd (wideKey 0) 32 0 unevenLinks := by
  obtain ⟨rs,tree,p,nd,hrun,hq,hroot,hpage,hi,hnum⟩ := unevenOps_root
  refine ⟨rs,tree,p,nd,hrun,hroot,hi,?_,fun h => ?_⟩
  · rw [hi.internalCanFit_eq]
    decide +kernel
  · have hf := h.fits hq hi (by decide +kernel) (by decide +kernel) hpage (by rw [hnum]; decide)
      (by decide +kernel)
    exact absurd hf (by decide +kernel)

end BPlusTree

end StorageDb
