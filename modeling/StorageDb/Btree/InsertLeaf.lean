import Mathlib.Tactic
import StorageDb.Btree.Simulation

namespace StorageDb
open SortedAssoc SepChain Shape

variable {n : Nat} {s s' : FlatStore} {t : Shape n} {k v : Bytes} {tree : BPlusTree}

-- An insertion has turned the nodes on the pages used into g; no other page that existed before
-- is touched.
structure Grew (s s' : FlatStore) (used : List PageId) (n : Nat) (g : Grown (Shape n)) : Prop where
  next : s'.next = g.next
  node : Stored s'.pages n g.node
  extra : ∀ e, g.extra = some e → Stored s'.pages n e.2
  agrees : ∀ q, q ∉ used → q.toNat < s.next → s'.pages q = s.pages q

-- What is left of insert once the pages below t are written: nothing, or the call of
-- insert_into_parent for the new sibling of t.
def BPlusTree.rest (tree : BPlusTree) (fuel n : Nat) (t : Shape n) (g : Grown (Shape n))
    (new : Bool) :
    Prog Error FlatStore (Bool × BPlusTree) :=
  match g.extra with
  | none => pure (new,tree)
  | some (key,r) => do
    let tree ← BPlusTree.insertIntoParent tree fuel (Shape.id n t) key (Shape.id n r)
      (Shape.parent n t)
    pure (new,tree)

namespace BPlusTree

variable {l : LeafNode} {nd nd' : BTreeNode}

theorem grew_leaf (h : LeafStored s.pages l nd) {es : List Entry} (hp : LeafPage nd' es)
    (hh : nd'.header = nd.header) :
    Grew s (s.put nd'.sealed.page) [l.id] 0 ⟨{ l with entries := es },none,s.next⟩ ∧
      (NodeStore.writeNode nd' : Prog Error FlatStore Unit) s =
        (.ok (),s.put nd'.sealed.page) := by
  have hid : nd'.page.id = l.id := (congrArg Header.id hh).trans h.id
  refine ⟨⟨rfl,⟨nd'.sealed,?_⟩,by simp,fun q hq _ => ?_⟩,?_⟩
  · have hs := s.leafStored_put hp
    rw [hh] at hs
    simp only [BTreeNode.header,h.id,h.parent,h.sibling] at hs
    exact hs
  · exact s.pages_seal_ne (fun e => hq (List.mem_singleton.mpr (e.trans hid)))
  · exact FlatStore.writeNode_eq ((congrArg s.pages hid).trans h.page)

theorem insertAt_found (h : LeafStored s.pages l nd) (hs : Sorted l.entries) {w : Bytes}
    (hw : find k l.entries = some w) (hf : LeafFits (upsert k v l.entries)) (fuel : Nat) :
    ∃ s', Grew s s' [l.id] 0 ⟨{ l with entries := upsert k v l.entries },none,s.next⟩ ∧
      (insertAt tree fuel l.id k v : Prog Error FlatStore _) s = (.ok (false,tree),s') := by
  obtain ⟨nd',hins,hp,hh⟩ := h.layout.leafInsert_found hs hw hf
  obtain ⟨hg,hwrite⟩ := grew_leaf h hp hh
  refine ⟨_,hg,(Prog.bind_ok (FlatStore.readNode_eq h.page)).trans ?_⟩
  rw [h.layout.leafFindSlot_eq hs,hw,hins]
  exact (Prog.bind_ok hwrite).trans rfl

theorem insertAt_room (h : LeafStored s.pages l nd) (hs : Sorted l.entries)
    (hn : find k l.entries = none) (hr : LeafRoom k v l.entries) (fuel : Nat) :
    ∃ s', Grew s s' [l.id] 0 ⟨{ l with entries := upsert k v l.entries },none,s.next⟩ ∧
      (insertAt tree fuel l.id k v : Prog Error FlatStore _) s = (.ok (true,tree),s') := by
  have hf : LeafFits ((k,v) :: l.entries) := by
    rw [LeafRoom] at hr
    rw [LeafFits,leafBytes_cons]
    dsimp only
    omega
  obtain ⟨nd',hins,hp,hh⟩ := h.layout.leafInsert_absent hs hn hf
  obtain ⟨hg,hwrite⟩ := grew_leaf h hp hh
  refine ⟨_,hg,(Prog.bind_ok (FlatStore.readNode_eq h.page)).trans ?_⟩
  rw [h.layout.leafFindSlot_eq hs,hn,h.layout.leafCanFit_eq,hins]
  simp only [Prog.ofOption_some,pure_bind,Option.isSome_none,Bool.false_eq_true,if_false,
    show 26 + leafBytes l.entries + 6 + (6 + k.length + v.length) ≤ pageSize from hr,decide_true,
    if_true]
  exact (Prog.bind_ok hwrite).trans rfl

theorem splitLeaf_eq (h : LeafStored s.pages l nd) (hs : Sorted l.entries)
    (hn : find k l.entries = none) {xs ys : List Entry} {e : Entry}
    (hsplit : upsert k v l.entries = xs ++ e :: ys)
    (hlen : xs.length = (upsert k v l.entries).length / 2) (hx : LeafFits xs)
    (hy : LeafFits (e :: ys)) (hnext : s.next < invalidPageId.toNat) (hlt : l.id.toNat < s.next) :
    ∃ s', Grew s s' [l.id] 0 ⟨{ l with entries := xs, sibling := UInt32.ofNat s.next },
        some (e.1,⟨UInt32.ofNat s.next,invalidPageId,l.sibling,e :: ys⟩),s.next + 1⟩ ∧
      (splitLeaf nd k v : Prog Error FlatStore _) s = (.ok (e.1,UInt32.ofNat s.next),s') := by
  set rid := UInt32.ofNat s.next with hrid
  have hridn : rid.toNat = s.next := toNat_ofNat_next hnext
  have hne : l.id ≠ rid := by
    intro he
    rw [he,hridn] at hlt
    omega
  have hsorted : Sorted (xs ++ e :: ys) := hsplit ▸ sorted_upsert hs
  obtain ⟨hsx,hsy,-⟩ := sorted_append.mp hsorted
  obtain ⟨left,hleft,hlp,hlh⟩ := LeafPage.leafFill_eq
    (((LeafPage.of_newLeaf nd.page.id).of_setParent (by decide) nd.getParent).of_setRightSibling
      (by decide) rid) hsx hx
  obtain ⟨right,hright,hrp,hrh⟩ := LeafPage.leafFill_eq
    ((LeafPage.of_newLeaf rid).of_setRightSibling (by decide) nd.getRightSibling) hsy hy
  have hlh' : left.header = ⟨l.id,rid,l.parent,0⟩ := by
    rw [hlh,BTreeNode.header_setRightSibling,BTreeNode.header_setParent,BTreeNode.header_newLeaf,
      h.id,h.parent]
  have hrh' : right.header = ⟨rid,l.sibling,invalidPageId,0⟩ := by
    rw [hrh,BTreeNode.header_setRightSibling,BTreeNode.header_newLeaf,h.sibling]
  have hlid : left.page.id = l.id := congrArg Header.id hlh'
  have hrid' : right.page.id = rid := congrArg Header.id hrh'
  set s1 := s.grow.put left.sealed.page with hs1
  have hw1 : (NodeStore.writeNode left : Prog Error FlatStore Unit) s.grow = (.ok (),s1) :=
    FlatStore.writeNode_eq (by rw [hlid,s.pages_grow_ne hne]; exact h.page)
  have hp1 : s1.pages rid = some (Page.new rid) := by
    rw [hs1,FlatStore.pages_seal_ne _ (fun e => hne (e.trans hlid).symm)]
    exact s.pages_grow_self
  have hw2 : (NodeStore.writeNode right : Prog Error FlatStore Unit) s1 =
      (.ok (),s1.put right.sealed.page) := FlatStore.writeNode_eq (by rw [hrid']; exact hp1)
  have hst1 := s.grow.leafStored_put hlp
  have hst2 := s1.leafStored_put hrp
  rw [hlh'] at hst1
  rw [hrh'] at hst2
  refine ⟨s1.put right.sealed.page,⟨rfl,⟨left.sealed,?_⟩,?_,?_⟩,?_⟩
  · refine ⟨?_,hst1.id,hst1.parent,hst1.sibling,hst1.layout⟩
    exact (s1.pages_seal_ne (fun e => hne (e.trans hrid'))).trans hst1.page
  · intro x hx
    cases hx
    exact ⟨right.sealed,hst2⟩
  · intro q hq hqlt
    have hqr : q ≠ rid := by
      rintro rfl
      omega
    rw [s1.pages_seal_ne (fun e => hqr (e.trans hrid')),
      s.grow.pages_seal_ne (fun e => hq (List.mem_singleton.mpr (e.trans hlid))),
        s.pages_grow_ne hqr]
  · have htake : (upsert k v l.entries).take ((upsert k v l.entries).length / 2) = xs := by
      rw [← hlen,hsplit,List.take_left]
    have hdrop : (upsert k v l.entries).drop ((upsert k v l.entries).length / 2) = e :: ys := by
      rw [← hlen,hsplit,List.drop_left]
    rw [splitLeaf,h.layout.leafEntries_eq]
    simp only [Prog.ofOption_some,pure_bind,insertPos_eq_rank hs,← upsert_eq_insertIdx hs hn,htake,
      hdrop]
    rw [Prog.bind_ok (FlatStore.allocatePage_eq hnext),hleft,hright]
    simp only [Prog.ofOption_some,pure_bind,hrp.leafKey_eq (i := 0) (e := e) rfl]
    exact (Prog.bind_ok hw1).trans ((Prog.bind_ok hw2).trans rfl)

theorem insertAt_leaf (h : Stored s.pages 0 l) (hs : Sorted l.entries) (hfit : l.Fits k v)
    (hlt : l.id.toNat < s.next)
    (hnext : (l.insert k v s.next).next ≤ invalidPageId.toNat) (fuel : Nat) :
    ∃ s', Grew s s' [l.id] 0 (l.insert k v s.next) ∧
      (insertAt tree fuel l.id k v : Prog Error FlatStore _) s =
        rest tree fuel 0 l (l.insert k v s.next) (find k l.entries).isNone s' := by
  obtain ⟨nd,h⟩ := h
  rcases LeafNode.insert_cases k v hs s.next with ⟨hc,he⟩ | ⟨hn,hr,xs,e,ys,hsplit,-,hlen,he⟩
  · rw [he]
    cases hw : find k l.entries with
    | some w =>
      have hf : LeafFits (upsert k v l.entries) := by
        simpa [LeafNode.Fits,hw] using hfit
      exact insertAt_found h hs hw hf fuel
    | none => exact insertAt_room h hs hw (by simpa [hw] using hc) fuel
  · rw [he] at hnext ⊢
    have hf : LeafFits xs ∧ LeafFits (e :: ys) := by
      simp only [LeafNode.Fits,hn,hr,← hlen,false_and,Option.isSome_none,Bool.false_eq_true,
        true_and,false_or] at hfit
      rwa [hsplit,List.take_left,List.drop_left] at hfit
    obtain ⟨s',hg,hsp⟩ := splitLeaf_eq h hs hn hsplit hlen hf.1 hf.2 hnext hlt
    refine ⟨s',hg,(Prog.bind_ok (FlatStore.readNode_eq h.page)).trans ?_⟩
    rw [h.layout.leafFindSlot_eq hs,hn,h.layout.leafCanFit_eq]
    have hd :
        decide (26 + leafBytes l.entries + 6 + (6 + k.length + v.length) ≤ pageSize) = false :=
      decide_eq_false hr
    rw [hd]
    simp only [Prog.ofOption_some,pure_bind,Option.isSome_none,Option.isNone_none,
      Bool.false_eq_true,if_false,splitAndInsertLeaf,bind_assoc,rest]
    rw [Prog.bind_ok hsp,h.id,h.parent]
    rfl

end BPlusTree

end StorageDb
