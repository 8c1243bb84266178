import Mathlib.Tactic
import StorageDb.Btree.LeafOps
import StorageDb.Btree.InternalOps
import StorageDb.Btree.ShapeInsert
import StorageDb.Btree.FlatStore

namespace StorageDb
open SortedAssoc SepChain

abbrev Pages := PageId → Option Page

structure LeafStored (pages : Pages) (l : LeafNode) (nd : BTreeNode) : Prop where
  page : pages l.id = some nd.page
  id : nd.page.id = l.id
  parent : nd.getParent = l.parent
  sibling : nd.getRightSibling = l.sibling
  layout : LeafPage nd l.entries

structure BranchStored {C : Type} (pages : Pages) (lab : C → PageId) (b : BranchNode C)
    (nd : BTreeNode) : Prop where
  page : pages b.id = some nd.page
  id : nd.page.id = b.id
  parent : nd.getParent = b.parent
  layout : InternalPage nd (lab b.leftmost) (labels lab b.entries)

namespace Shape

def Stored (pages : Pages) : (n : Nat) → Shape n → Prop
  | 0, (l : LeafNode) => ∃ nd, LeafStored pages l nd
  | n + 1, (b : BranchNode (Shape n)) =>
    (∃ nd, BranchStored pages (id n) b nd) ∧ ∀ c ∈ b.kids, Stored pages n c

variable {n : Nat} {pages pages' : Pages} {t : Shape n}

theorem id_mem_ids (t : Shape n) : id n t ∈ ids n t := by
  cases n <;> exact List.mem_cons_self

theorem Stored.congr (h : Stored pages n t) (hp : ∀ q ∈ ids n t, pages' q = pages q) :
    Stored pages' n t := by
  induction n with
  | zero =>
    obtain ⟨nd,h⟩ := h
    exact ⟨nd,(hp _ (id_mem_ids t)).trans h.page,h.id,h.parent,h.sibling,h.layout⟩
  | succ n ih =>
    obtain ⟨⟨nd,hb⟩,hc⟩ := h
    refine ⟨⟨nd,(hp _ (id_mem_ids t)).trans hb.page,hb.id,hb.parent,hb.layout⟩,fun c hm => ?_⟩
    refine ih (hc c hm) (fun q hq => hp q ?_)
    exact List.mem_cons_of_mem _ (List.mem_flatMap.mpr ⟨c,hm,hq⟩)

theorem Stored.isSome (h : Stored pages n t) : ∃ nd : BTreeNode, pages (id n t) = some nd.page := by
  cases n with
  | zero =>
    obtain ⟨nd,h⟩ := h
    exact ⟨nd,h.page⟩
  | succ n =>
    obtain ⟨⟨nd,h⟩,-⟩ := h
    exact ⟨nd,h.page⟩

end Shape

namespace BTreeNode

theorem header_sealed (nd : BTreeNode) : nd.sealed.header = nd.header := by
  have hs : Bytes.slice nd.sealed.page.data 16 10 = Bytes.slice nd.page.data 16 10 :=
    Page.slice_setField_disjoint _ (by decide) (by omega)
  exact header_of_slice rfl hs

end BTreeNode

namespace FlatStore

variable {s : FlatStore} {pid : PageId} {pg : Page} {nd : BTreeNode}

theorem readNode_eq (h : s.pages pid = some nd.page) :
    (NodeStore.readNode pid : Prog Error FlatStore BTreeNode) s = (.ok nd,s) := by
  change FlatStore.readNode pid s = _
  rw [FlatStore.readNode,h]

theorem writeNode_eq (h : s.pages nd.page.id = some pg) :
    (NodeStore.writeNode nd : Prog Error FlatStore Unit) s = (.ok (),s.put nd.sealed.page) := by
  change FlatStore.writeNode nd s = _
  rw [FlatStore.writeNode,h]

theorem allocatePage_eq (h : s.next < invalidPageId.toNat) :
    (NodeStore.allocatePage : Prog Error FlatStore PageId) s =
      (.ok (UInt32.ofNat s.next),s.grow) := if_pos h

@[simp] theorem next_put (pg : Page) (s : FlatStore) : (s.put pg).next = s.next := rfl

@[simp] theorem next_grow (s : FlatStore) : s.grow.next = s.next + 1 := rfl

theorem pages_put_self (s : FlatStore) (pg : Page) : (s.put pg).pages pg.id = some pg :=
  Function.update_self ..

theorem pages_seal_ne (s : FlatStore) (h : pid ≠ nd.page.id) :
    (s.put nd.sealed.page).pages pid = s.pages pid := Function.update_of_ne h ..

theorem pages_grow_self (s : FlatStore) : s.grow.pages (UInt32.ofNat s.next) =
    some (Page.new (UInt32.ofNat s.next)) := Function.update_self ..

theorem pages_grow_ne (s : FlatStore) (h : pid ≠ UInt32.ofNat s.next) :
    s.grow.pages pid = s.pages pid := Function.update_of_ne h ..

theorem grow_present (s : FlatStore) (h : (s.pages pid).isSome) : (s.grow.pages pid).isSome := by
  by_cases he : pid = UInt32.ofNat s.next
  · rw [he,s.pages_grow_self]
    rfl
  · rwa [s.pages_grow_ne he]

theorem put_present (s : FlatStore) (pg : Page) (h : (s.pages pid).isSome) :
    ((s.put pg).pages pid).isSome := by
  by_cases he : pid = pg.id
  · rw [he,s.pages_put_self]
    rfl
  · exact (congrArg Option.isSome (Function.update_of_ne he ..)).trans h

theorem leafStored_put (s : FlatStore) {es : List Entry} (h : LeafPage nd es) :
    LeafStored (s.put nd.sealed.page).pages ⟨nd.header.id,nd.header.parent,nd.header.right,es⟩
      nd.sealed where
  page := s.pages_put_self nd.sealed.page
  id := rfl
  parent := congrArg Header.parent nd.header_sealed
  sibling := congrArg Header.right nd.header_sealed
  layout := h.of_updateChecksum (by decide)

theorem branchStored_put (s : FlatStore) {C : Type} {lab : C → PageId} {c : C}
    {es : List (Bytes × C)} (h : InternalPage nd (lab c) (labels lab es)) :
    BranchStored (s.put nd.sealed.page).pages lab ⟨nd.header.id,nd.header.parent,c,es⟩
      nd.sealed where
  page := s.pages_put_self nd.sealed.page
  id := rfl
  parent := congrArg Header.parent nd.header_sealed
  layout := h.of_updateChecksum

end FlatStore

end StorageDb
