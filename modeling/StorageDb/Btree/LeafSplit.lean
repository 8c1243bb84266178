import Mathlib.Tactic
import StorageDb.Btree.InsertContract

namespace StorageDb
open SortedAssoc SepChain

namespace BTreeNode

variable {nd nd' : BTreeNode} {key value : Bytes}

theorem id_write {pg pg' : Page} {off : Nat} {src : Bytes} (h : pg.write off src = some pg') :
    pg'.id = pg.id := by
  rw [Page.write] at h
  split_ifs at h
  cases h
  rfl

theorem id_writeLeafSlot {i a b c : Nat} (h : nd.writeLeafSlot i a b c = some nd') :
    nd'.page.id = nd.page.id := by
  obtain ⟨pg,hw,h⟩ := Option.bind_eq_some_iff.mp h
  cases h
  exact id_write hw

theorem id_shiftLeafSlots {pos m : Nat} (h : shiftLeafSlots pos m nd = some nd') :
    nd'.page.id = nd.page.id := by
  induction m generalizing nd with
  | zero =>
    cases h
    rfl
  | succ m ih =>
    obtain ⟨_,-,h⟩ := Option.bind_eq_some_iff.mp h
    obtain ⟨nd1,hw,h⟩ := Option.bind_eq_some_iff.mp h
    exact (ih h).trans (id_writeLeafSlot hw)

theorem id_leafPlace {pos : Nat} (h : nd.leafPlace pos key value = some nd') :
    nd'.page.id = nd.page.id := by
  obtain ⟨start,-,h⟩ := Option.bind_eq_some_iff.mp h
  dsimp only at h
  split_ifs at h
  obtain ⟨pg1,h1,h⟩ := Option.bind_eq_some_iff.mp h
  obtain ⟨pg2,h2,h⟩ := Option.bind_eq_some_iff.mp h
  obtain ⟨nd3,h3,h⟩ := Option.bind_eq_some_iff.mp h
  obtain ⟨nd4,h4,h⟩ := Option.bind_eq_some_iff.mp h
  cases h
  exact (id_writeLeafSlot h4).trans ((id_shiftLeafSlots h3).trans
    ((id_write h2).trans (id_write h1)))

theorem id_foldlM {X : Type} {f : BTreeNode → X → Option BTreeNode} {xs : List X}
    (hf : ∀ nd x nd', f nd x = some nd' → nd'.page.id = nd.page.id)
    (h : xs.foldlM f nd = some nd') : nd'.page.id = nd.page.id := by
  induction xs generalizing nd with
  | nil =>
    cases h
    rfl
  | cons x xs ih =>
    rw [List.foldlM_cons] at h
    obtain ⟨nd1,h1,h⟩ := Option.bind_eq_some_iff.mp h
    exact (ih h).trans (hf _ _ _ h1)

theorem id_leafInsertAux {fuel : Nat} {new : Bool}
    (h : leafInsertAux fuel nd key value = some (new,nd')) : nd'.page.id = nd.page.id := by
  induction fuel generalizing nd key value new nd' with
  | zero =>
    rw [leafInsertAux] at h
    obtain ⟨⟨i,found⟩,-,h⟩ := Option.bind_eq_some_iff.mp h
    cases found with
    | true => cases h
    | false =>
      obtain ⟨nd1,h1,h⟩ := Option.bind_eq_some_iff.mp h
      cases h
      exact id_leafPlace h1
  | succ fuel ih =>
    rw [leafInsertAux] at h
    obtain ⟨⟨i,found⟩,-,h⟩ := Option.bind_eq_some_iff.mp h
    cases found with
    | true =>
      obtain ⟨es,-,h⟩ := Option.bind_eq_some_iff.mp h
      obtain ⟨nd1,h1,h⟩ := Option.bind_eq_some_iff.mp h
      cases h
      refine (id_foldlM (fun nd e nd' hr => ?_) h1).trans rfl
      obtain ⟨⟨b,nd2⟩,h2,hr⟩ := Option.bind_eq_some_iff.mp hr
      cases hr
      exact ih h2
    | false =>
      obtain ⟨nd1,h1,h⟩ := Option.bind_eq_some_iff.mp h
      cases h
      exact id_leafPlace h1

theorem id_leafFill {es : List Entry} (h : nd.leafFill es = some nd') :
    nd'.page.id = nd.page.id := by
  refine id_foldlM (fun nd e nd' hr => ?_) h
  obtain ⟨⟨b,nd2⟩,h2,hr⟩ := Option.bind_eq_some_iff.mp hr
  cases hr
  exact id_leafInsertAux h2

end BTreeNode

section leaf
open BTreeNode

variable {s : FlatStore} {nd : BTreeNode} {es : List Entry} {k v : Bytes}

def leftHalf (k v : Bytes) (es : List Entry) : List Entry :=
  (upsert k v es).take ((upsert k v es).length / 2)

def rightHalf (k v : Bytes) (es : List Entry) : List Entry :=
  (upsert k v es).drop ((upsert k v es).length / 2)

theorem halves_append : leftHalf k v es ++ rightHalf k v es = upsert k v es :=
  List.take_append_drop ..

theorem leafFits_left_or_right (hf : LeafFits es) (hs : Sorted es) (hn : find k es = none)
    (hk : k.length ≤ maxKeySize) (hv : v.length ≤ maxValueSize) :
    LeafFits (leftHalf k v es) ∨ LeafFits (rightHalf k v es) := by
  have hb := leafBytes_perm (perm_upsert_of_absent v hs hn)
  rw [← halves_append,leafBytes_append,leafBytes_cons] at hb
  dsimp only at hb
  simp only [LeafFits,pageSize_eq,maxKeySize,maxValueSize] at hf hk hv ⊢
  omega

def leftLeaf (nd : BTreeNode) (rid : PageId) (k v : Bytes) (es : List Entry) : Option BTreeNode :=
  (((newLeaf nd.page.id).setParent nd.getParent).setRightSibling rid).leafFill (leftHalf k v es)

def rightLeaf (nd : BTreeNode) (rid : PageId) (k v : Bytes) (es : List Entry) : Option BTreeNode :=
  ((newLeaf rid).setRightSibling nd.getRightSibling).leafFill (rightHalf k v es)

theorem id_leftLeaf {l : BTreeNode} {rid : PageId} (h : leftLeaf nd rid k v es = some l) :
    l.page.id = nd.page.id := by
  rw [leftLeaf] at h
  rw [id_leafFill h]
  rfl

theorem id_rightLeaf {r : BTreeNode} {rid : PageId} (h : rightLeaf nd rid k v es = some r) :
    r.page.id = rid := by
  rw [rightLeaf] at h
  rw [id_leafFill h]
  rfl

theorem leftLeaf_eq (nd : BTreeNode) (rid : PageId) (hs : Sorted es)
    (hf : LeafFits (leftHalf k v es)) :
    ∃ l, leftLeaf nd rid k v es = some l ∧ LeafPage l (leftHalf k v es) := by
  obtain ⟨l,h1,h2,-⟩ := LeafPage.leafFill_eq (((LeafPage.of_newLeaf nd.page.id).of_setParent
    (by decide) nd.getParent).of_setRightSibling (by decide) rid)
    (List.Pairwise.sublist (List.take_sublist _ _) (sorted_upsert hs)) hf
  exact ⟨l,h1,h2⟩

theorem rightLeaf_eq (nd : BTreeNode) (rid : PageId) (hs : Sorted es)
    (hf : LeafFits (rightHalf k v es)) :
    ∃ r, rightLeaf nd rid k v es = some r ∧ LeafPage r (rightHalf k v es) := by
  obtain ⟨r,h1,h2,-⟩ := LeafPage.leafFill_eq ((LeafPage.of_newLeaf rid).of_setRightSibling
    (by decide) nd.getRightSibling)
    (List.Pairwise.sublist (List.drop_sublist _ _) (sorted_upsert hs)) hf
  exact ⟨r,h1,h2⟩

theorem splitLeaf_flat (hl : LeafPage nd es) (hs : Sorted es) (hn : find k es = none)
    (hpage : (s.pages nd.page.id).isSome) (hids : s.next < invalidPageId.toNat) :
    (∃ l r key, leftLeaf nd (UInt32.ofNat s.next) k v es = some l ∧
      rightLeaf nd (UInt32.ofNat s.next) k v es = some r ∧ r.leafKey 0 = some key ∧
      (BPlusTree.splitLeaf nd k v : Prog Error FlatStore _) s =
        (.ok (key,UInt32.ofNat s.next),(s.grow.put l.sealed.page).put r.sealed.page)) ∨
    (leftLeaf nd (UInt32.ofNat s.next) k v es = none ∨
      rightLeaf nd (UInt32.ofNat s.next) k v es = none ∨
      ∃ r, rightLeaf nd (UInt32.ofNat s.next) k v es = some r ∧ r.leafKey 0 = none) ∧
      ((BPlusTree.splitLeaf nd k v : Prog Error FlatStore _) s).1 = .error .panic := by
  have hrun : (BPlusTree.splitLeaf nd k v : Prog Error FlatStore _) s = (do
      let l ← Prog.ofOption (leftLeaf nd (UInt32.ofNat s.next) k v es)
      let r ← Prog.ofOption (rightLeaf nd (UInt32.ofNat s.next) k v es)
      let key ← Prog.ofOption (r.leafKey 0)
      NodeStore.writeNode l
      NodeStore.writeNode r
      pure (key,UInt32.ofNat s.next) : Prog Error FlatStore _) s.grow := by
    rw [BPlusTree.splitLeaf,hl.leafEntries_eq]
    simp only [Prog.ofOption_some,pure_bind,BPlusTree.insertPos_eq_rank hs,
      ← upsert_eq_insertIdx hs hn]
    exact Prog.bind_ok (FlatStore.allocatePage_eq hids)
  rw [hrun]
  cases hleft : leftLeaf nd (UInt32.ofNat s.next) k v es with
  | none => exact Or.inr ⟨Or.inl rfl,rfl⟩
  | some l =>
    cases hright : rightLeaf nd (UInt32.ofNat s.next) k v es with
    | none => exact Or.inr ⟨Or.inr (Or.inl rfl),rfl⟩
    | some r =>
      cases hkey : r.leafKey 0 with
      | none =>
        refine Or.inr ⟨Or.inr (Or.inr ⟨r,rfl,hkey⟩),?_⟩
        simp only [Prog.ofOption_some,pure_bind,hkey]
        rfl
      | some key =>
        have hlid := id_leftLeaf hleft
        have hrid := id_rightLeaf hright
        obtain ⟨pg,hpg⟩ : ∃ pg, s.grow.pages l.page.id = some pg := by
          rw [hlid]
          exact Option.isSome_iff_exists.mp (s.grow_present hpage)
        obtain ⟨pg',hpg'⟩ : ∃ pg, (s.grow.put l.sealed.page).pages r.page.id = some pg := by
          rw [hrid]
          exact Option.isSome_iff_exists.mp (FlatStore.put_present _ _
            (Option.isSome_iff_exists.mpr ⟨_,s.pages_grow_self⟩))
        refine Or.inl ⟨l,r,key,rfl,rfl,hkey,?_⟩
        simp only [Prog.ofOption_some,pure_bind,hkey]
        exact (Prog.bind_ok (FlatStore.writeNode_eq hpg)).trans
          ((Prog.bind_ok (FlatStore.writeNode_eq hpg')).trans rfl)

theorem LeafPage.entries_unique {xs ys : List Entry} (h : LeafPage nd xs) (h' : LeafPage nd ys) :
    xs = ys := Option.some.inj (h.leafEntries_eq.symm.trans h'.leafEntries_eq)

end leaf

namespace BPlusTree
open BufferPoolManager BTreeNode

variable {p : BufferPoolManager} {nd : BTreeNode} {es : List Entry} {k v : Bytes}

def LeafSplitWhole (p : BufferPoolManager) (nd : BTreeNode) (k v : Bytes) (es : List Entry) :
    Prop :=
  ∃ key rid p' l r xs ys, splitLeaf nd k v p = (.ok (key,rid),p') ∧
    p'.lookup nd.page.id = some l.page ∧ p'.lookup rid = some r.page ∧ LeafPage l xs ∧
    LeafPage r ys ∧ xs ++ ys = upsert k v es

section leaf

variable (hq : Quiet p) (hl : LeafPage nd es) (hs : Sorted es) (hn : find k es = none)
  (hpage : p.lookup nd.page.id = some nd.page)
  (hids : p.disk.numPages.toNat < invalidPageId.toNat)
include hq hl hs hn hpage hids

theorem splitLeaf_pool :
    (∃ l r key p', leftLeaf nd p.disk.numPages k v es = some l ∧
      rightLeaf nd p.disk.numPages k v es = some r ∧ r.leafKey 0 = some key ∧
      splitLeaf nd k v p = (.ok (key,p.disk.numPages),p') ∧
      p'.lookup nd.page.id = some l.sealed.page ∧
      p'.lookup p.disk.numPages = some r.sealed.page) ∨
    (leftLeaf nd p.disk.numPages k v es = none ∨ rightLeaf nd p.disk.numPages k v es = none ∨
      ∃ r, rightLeaf nd p.disk.numPages k v es = some r ∧ r.leafKey 0 = none) ∧
      (splitLeaf nd k v p).1 = .error .panic := by
  have hsome : (p.flat.pages nd.page.id).isSome := by
    change (p.lookup nd.page.id).isSome
    rw [hpage]
    rfl
  have hlt : nd.page.id.toNat < p.disk.numPages.toNat := hq.inv.lookup_isSome.mp hsome
  have hrid : UInt32.ofNat p.flat.next = p.disk.numPages := UInt32.ofNat_toNat
  have hflat := splitLeaf_flat (v := v) hl hs hn hsome hids
  rw [hrid] at hflat
  rcases hflat with ⟨l,r,key,h1,h2,h3,hrun⟩ | ⟨hwhy,hpanic⟩
  · obtain ⟨p',hrun',-,hflat⟩ := (congr_splitLeaf models_refines nd k v).of_ok ⟨hq,rfl⟩ hrun
    have hlook : p'.lookup = _ := congrArg FlatStore.pages hflat
    have hne : nd.page.id ≠ r.page.id := by
      rw [id_rightLeaf h2]
      intro he
      rw [he] at hlt
      omega
    refine Or.inl ⟨l,r,key,p',h1,h2,h3,hrun',?_,?_⟩
    · rw [hlook,FlatStore.pages_seal_ne _ hne,← id_leftLeaf h1]
      exact FlatStore.pages_put_self _ l.sealed.page
    · rw [hlook,← id_rightLeaf h2]
      exact FlatStore.pages_put_self _ r.sealed.page
  · exact Or.inr ⟨hwhy,(congr_splitLeaf models_refines nd k v).of_panic ⟨hq,rfl⟩ hpanic⟩

theorem leafSplitWhole_of_fits (hleft : LeafFits (leftHalf k v es))
    (hright : LeafFits (rightHalf k v es)) : LeafSplitWhole p nd k v es := by
  obtain ⟨l0,hl0,hlp⟩ := leftLeaf_eq nd p.disk.numPages hs hleft
  obtain ⟨r0,hr0,hrp⟩ := rightLeaf_eq nd p.disk.numPages hs hright
  have hlen := length_upsert_of_absent (v := v) hs hn
  have hlt : (upsert k v es).length / 2 < (upsert k v es).length := by omega
  have hkey : r0.leafKey 0 = some ((upsert k v es)[(upsert k v es).length / 2]).1 := by
    refine hrp.leafKey_eq ?_
    rw [rightHalf,List.getElem?_drop,Nat.add_zero,List.getElem?_eq_getElem hlt]
  rcases splitLeaf_pool (v := v) hq hl hs hn hpage hids with
    ⟨l,r,key,p',h1,h2,-,hrun,hpl,hpr⟩ | ⟨h | h | ⟨r,h,h'⟩,-⟩
  · rw [hl0] at h1
    rw [hr0] at h2
    cases h1
    cases h2
    exact ⟨key,_,p',l0.sealed,r0.sealed,_,_,hrun,hpl,hpr,hlp.of_updateChecksum (by decide),
      hrp.of_updateChecksum (by decide),halves_append⟩
  · exact absurd (h.symm.trans hl0) (by simp)
  · exact absurd (h.symm.trans hr0) (by simp)
  · rw [hr0] at h
    cases h
    exact absurd (h'.symm.trans hkey) (by simp)

theorem LeafSplitWhole.fits (h : LeafSplitWhole p nd k v es) (hk : k.length ≤ maxKeySize)
    (hv : v.length ≤ maxValueSize) :
    LeafFits (leftHalf k v es) ∧ LeafFits (rightHalf k v es) := by
  obtain ⟨key,rid,p',l,r,xs,ys,hrun,hpl,hpr,hlp,hrp,happ⟩ := h
  rcases splitLeaf_pool (v := v) hq hl hs hn hpage hids with
    ⟨l0,r0,key',q,h1,h2,-,hrun',hql,hqr⟩ | ⟨-,hpanic⟩
  · rw [hrun] at hrun'
    cases hrun'
    obtain rfl : l = l0.sealed := BTreeNode.ext (Option.some.inj (hpl.symm.trans hql))
    obtain rfl : r = r0.sealed := BTreeNode.ext (Option.some.inj (hpr.symm.trans hqr))
    rw [← halves_append] at happ
    rcases leafFits_left_or_right hl.fits hs hn hk hv with hfit | hfit
    · obtain ⟨l1,hl1,hlp1⟩ := leftLeaf_eq nd p.disk.numPages hs hfit
      cases h1.symm.trans hl1
      obtain rfl := hlp.entries_unique (hlp1.of_updateChecksum (by decide))
      exact ⟨hfit,List.append_cancel_left happ ▸ hrp.fits⟩
    · obtain ⟨r1,hr1,hrp1⟩ := rightLeaf_eq nd p.disk.numPages hs hfit
      cases h2.symm.trans hr1
      obtain rfl := hrp.entries_unique (hrp1.of_updateChecksum (by decide))
      exact ⟨List.append_cancel_right happ ▸ hlp.fits,hfit⟩
  · rw [hrun] at hpanic
    cases hpanic

end leaf

theorem split_leaf_whole_iff (hq : Quiet p) (hl : LeafPage nd es) (hs : Sorted es)
    (hk : k.length ≤ maxKeySize) (hv : v.length ≤ maxValueSize) (hn : ∀ e ∈ es, e.1 ≠ k)
    (hpage : p.lookup nd.page.id = some nd.page)
    (hids : p.disk.numPages.toNat < invalidPageId.toNat) :
    LeafSplitWhole p nd k v es ↔ LeafFits (leftHalf k v es) ∧ LeafFits (rightHalf k v es) := by
  have hnone := find_eq_none.mpr hn
  exact ⟨fun h => h.fits hq hl hs hnone hpage hids hk hv,
    fun h => leafSplitWhole_of_fits hq hl hs hnone hpage hids h.1 h.2⟩

-- Eight short entries and seven full ones on one leaf.
def narrowEntries : List Entry := (List.range 8).map (fun i => ([UInt8.ofNat i],[])) ++
  (List.range 7).map (fun i => (wideKey (i + 10),wideValue))

def narrowOps : List TreeOp := narrowEntries.map (fun e => .insert e.1 e.2)

theorem narrowOps_leaf : ∃ rs tree p nd, (create >>= run 15 narrowOps)
    (new (DiskManager.open_ [] []) 1) = (.ok (rs,tree),p) ∧ Quiet p ∧
      p.lookup tree.rootPageId = some nd.page ∧ p.lookup nd.page.id = some nd.page ∧
      LeafPage nd narrowEntries ∧ p.disk.numPages.toNat < invalidPageId.toNat := by
  have hd : (DiskManager.open_ [] []).Healthy := ⟨rfl,rfl⟩
  have hlen : narrowOps.length ≤ 15 := by decide
  obtain ⟨tree,p,hrun,hq,h⟩ := create_run_eq hd (le_refl 1) (by decide) (by decide +kernel)
    (by decide +kernel) hlen
  have hleaf : (narrowOps.foldl (fun t op => t.apply op)
      (RootedTree.single (DiskManager.open_ [] []).numPages)).leafOf [0] =
      ⟨0,invalidPageId,invalidPageId,narrowEntries⟩ := by decide +kernel
  have hroot : (narrowOps.foldl (fun t op => t.apply op)
      (RootedTree.single (DiskManager.open_ [] []).numPages)).id = 0 := by decide +kernel
  have hnext : (narrowOps.foldl (fun t op => t.apply op)
      (RootedTree.single (DiskManager.open_ [] []).numPages)).next = 1 := by decide +kernel
  have hnum : p.disk.numPages.toNat = 1 := h.next.trans hnext
  obtain ⟨nd,hst⟩ := h.toTreeOn.leafOf [0]
  rw [hleaf] at hst
  have hpage := hst.page
  refine ⟨_,tree,p,nd,hrun,hq,?_,?_,hst.layout,?_⟩
  · rw [← h.root,hroot]
    exact hpage
  · rw [hst.id]
    exact hpage
  · rw [hnum]
    decide

theorem split_leaf_whole_iff_narrow : ∃ rs tree p nd, (create >>= run 15 narrowOps)
    (new (DiskManager.open_ [] []) 1) = (.ok (rs,tree),p) ∧
      p.lookup tree.rootPageId = some nd.page ∧
      LeafSplitWhole p nd (wideKey 5) wideValue narrowEntries := by
  obtain ⟨rs,tree,p,nd,hrun,hq,hroot,hpage,hl,hids⟩ := narrowOps_leaf
  refine ⟨rs,tree,p,nd,hrun,hroot,(split_leaf_whole_iff hq hl (by decide +kernel)
    (by decide +kernel) (by decide +kernel) (by decide +kernel) hpage hids).mpr
    (by decide +kernel)⟩

-- The right half gets eight full entries, which need 4170 bytes.
theorem split_leaf_overflow : ∃ rs tree p nd, (create >>= run 15 narrowOps)
    (new (DiskManager.open_ [] []) 1) = (.ok (rs,tree),p) ∧
      p.lookup tree.rootPageId = some nd.page ∧ LeafPage nd narrowEntries ∧
      nd.leafCanFit (wideKey 17) wideValue = some false ∧
      ¬ LeafSplitWhole p nd (wideKey 17) wideValue narrowEntries := by
  obtain ⟨rs,tree,p,nd,hrun,hq,hroot,hpage,hl,hids⟩ := narrowOps_leaf
  refine ⟨rs,tree,p,nd,hrun,hroot,hl,?_,fun h => ?_⟩
  · rw [hl.leafCanFit_eq]
    decide +kernel
  · have hf := h.fits hq hl (by decide +kernel) (by decide +kernel) hpage hids (by decide +kernel)
      (by decide +kernel)
    exact absurd hf (by decide +kernel)

end BPlusTree

end StorageDb
