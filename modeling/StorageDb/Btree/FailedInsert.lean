import Mathlib.Tactic
import StorageDb.Buffer.DiskFaults
import StorageDb.Btree.Capacity
import StorageDb.Btree.Create
import StorageDb.Btree.LeafSplit

namespace StorageDb
open SortedAssoc Prog

namespace BufferPoolManager

variable {p p' : BufferPoolManager} {held : List Nat} {lost : Nat} {pid : PageId} {nd : BTreeNode}

theorem Same.of_flat (h : p'.flat = p.flat) : Same p p' :=
  ⟨congrArg FlatStore.pages h,UInt32.toNat_inj.mp (congrArg FlatStore.next h)⟩

theorem Same.flat (h : Same p p') : p'.flat = p.flat := flat_congr h.lookup h.pages

theorem Idle.withFaults_nil (h : Idle held lost p) : p.withFaults [] = p := by
  have hd : p.disk.withFaults [] = p.disk := by
    rw [DiskManager.withFaults,← h.inv.disk.calm]
  rw [withFaults,hd]
  rfl

theorem Struck.after {p1 p2 : BufferPoolManager} (h : Struck lost p1 p2) (hs : Same p p1) :
    Struck lost p p2 := by
  obtain ⟨held,hi,hs'⟩ := h
  exact ⟨held,hi,hs.trans hs'⟩

theorem Idle.readNode_weathers (h : Idle held lost p) (hlt : held.length < lost) (pid : PageId) :
    Weathers withFaults (Struck lost p) (NodeStore.readNode pid) p :=
  (h.fetchPage_weathers hlt pid).bind fun _ _ _ => (unpinPage_weathers pid false).bind fun _ _ _ =>
    weathers_pure _

theorem Idle.writeNode_weathers (h : Idle held lost p) (hlt : held.length < lost) (nd : BTreeNode) :
    Weathers withFaults (Struck lost p) (NodeStore.writeNode nd) p :=
  (h.fetchPageMut_weathers hlt nd.page.id).bind fun _ _ _ => (modifyPage_weathers _ _).bind
    fun _ _ _ => unpinPage_weathers nd.page.id true

theorem Idle.readNode_after (h : Idle [] lost p) (hm : NodeStore.readNode pid p = (.ok nd,p')) :
    Idle [] lost p' ∧ Same p p' := by
  cases hl : p.lookup pid with
  | none =>
    have he := h.quiet.readNode_missing hl
    rw [show readNode pid p = _ from hm] at he
    cases he
  | some pg =>
    obtain ⟨p1,hread,h1,hflat⟩ := h.readNode_eq hl
    cases hm.symm.trans hread
    exact ⟨h1,.of_flat hflat⟩

theorem Idle.descend_weathers (h : Idle [] lost p) (hlt : 0 < lost)
    (choose : BTreeNode → Option PageId) (fuel : Nat) (pid : PageId) :
    Weathers withFaults (Struck lost p) (BPlusTree.descend choose fuel pid) p := by
  induction fuel generalizing p pid with
  | zero => exact weathers_fail _
  | succ fuel ih =>
    refine (h.readNode_weathers hlt pid).bind (fun nd p1 hm => ?_)
    obtain ⟨h1,hs⟩ := h.readNode_after hm
    cases nd.isLeaf with
    | true => exact weathers_pure _
    | false =>
      exact weathers_ofOption_bind fun child _ => (ih h1 child).mono fun _ ht => ht.after hs

def Serves (held : List Nat) (lost : Nat) (p : BufferPoolManager) (s : FlatStore) : Prop :=
  Idle held lost p ∧ p.flat = s

theorem serves_refines : ReadCongruence fun (α : Type) (m : Prog Error BufferPoolManager α)
    (n : Prog Error FlatStore α) => Refines (Serves held lost) m n := by
  refine ⟨refines_congruence,fun pid => ?_⟩
  rintro p s ⟨h,rfl⟩ hne
  have hflat : (NodeStore.readNode pid : Prog Error FlatStore BTreeNode) =
    FlatStore.readNode pid := rfl
  rw [hflat] at hne ⊢
  cases hl : p.lookup pid with
  | none =>
    rw [FlatStore.readNode,show p.flat.pages pid = none from hl] at hne
    exact absurd rfl (hne .io)
  | some pg =>
    obtain ⟨p',hr,h',hf⟩ := h.readNode_eq hl
    rw [FlatStore.readNode,show p.flat.pages pid = some pg from hl]
    change (readNode pid p).1 = _ ∧ Serves held lost (readNode pid p).2 _
    rw [hr]
    exact ⟨rfl,h',hf⟩

end BufferPoolManager

def RootedTree.StaysOnLeaf (k v : Bytes) (t : RootedTree) : Prop :=
  (find k (t.leafOf k).entries).isSome ∨ LeafRoom k v (t.leafOf k).entries

instance (k v : Bytes) (t : RootedTree) : Decidable (t.StaysOnLeaf k v) :=
  inferInstanceAs (Decidable (_ ∨ _))

namespace BPlusTree
open BufferPoolManager

variable {p : BufferPoolManager} {tree : BPlusTree} {t : RootedTree} {k v : Bytes} {fuel : Nat}

def FailedInsertKeeps (p : BufferPoolManager) (tree : BPlusTree) (fuel : Nat) (k v : Bytes) :
    Prop :=
  ∀ fs e p', tree.insert fuel k v (p.withFaults fs) = (.error (.err e),p') →
    ∀ key w, (tree.search fuel key p).1 = .ok (some w) →
      (tree.search fuel key (p'.withFaults [])).1 = .ok (some w)

theorem search_struck {lost : Nat} (h : TreeOn p.flat tree t) {p' : BufferPoolManager}
    (hs : Struck lost p p') (key : Bytes) (hf : t.depth < fuel) :
    (tree.search fuel key p').1 = .ok (find key t.contents) := by
  obtain ⟨held,hi,hsame⟩ := hs
  obtain ⟨p2,hrun,-⟩ := (congr_search serves_refines tree fuel key).of_ok
    ⟨hi,hsame.flat⟩ (h.search_eq key hf)
  rw [hrun]

theorem insert_weathers (hi : Idle [] 1 p) (h : TreeOn p.flat tree t) (hst : t.StaysOnLeaf k v)
    (hf : t.depth < fuel) : Weathers withFaults (Struck 1 p) (tree.insert fuel k v) p := by
  refine (hi.descend_weathers one_pos _ fuel _).bind (fun leafId p1 hm => ?_)
  obtain ⟨p1',hfind,hi1,hflat1⟩ := (congr_descend serves_refines _ fuel _).of_ok ⟨hi,rfl⟩
    (h.findLeaf_eq k hf)
  cases hm.symm.trans hfind
  obtain ⟨nd,hl⟩ := h.leafOf k
  have hpage : p1.lookup (t.leafOf k).id = some nd.page :=
    (congrArg (fun s => FlatStore.pages s _) hflat1).trans hl.page
  have hafter {p2 p3 : BufferPoolManager} (hs : p2.flat = p.flat) (ht : Struck 1 p2 p3) :
      Struck 1 p p3 := ht.after (.of_flat hs)
  refine ((hi1.readNode_weathers one_pos _).mono fun _ => hafter hflat1).bind (fun nd' p2 hm2 => ?_)
  obtain ⟨p2',hread,hi2,hflat2⟩ := hi1.readNode_eq hpage
  cases hm2.symm.trans hread
  have hwrite (nd' : BTreeNode) (new : Bool) : Weathers withFaults (Struck 1 p)
      (NodeStore.writeNode nd' >>= fun _ => pure (new,tree)) p2 :=
    ((hi2.writeNode_weathers one_pos nd').mono fun _ => hafter (hflat2.trans hflat1)).bind
      fun _ _ _ => weathers_pure _
  have hsorted := Shape.leafFor_bounded h.sound.bounded k
  refine weathers_ofOption_bind (fun r hslot => ?_)
  obtain ⟨idx,found⟩ := r
  cases found with
  | true => exact weathers_ofOption_bind fun r _ => hwrite r.2 false
  | false =>
    refine weathers_ofOption_bind (fun fits hfits => ?_)
    cases fits with
    | true => exact weathers_ofOption_bind fun r _ => hwrite r.2 true
    | false =>
      rw [hl.layout.leafFindSlot_eq hsorted] at hslot
      rw [hl.layout.leafCanFit_eq] at hfits
      rcases hst with hsome | hroom
      · obtain ⟨w,hw⟩ := Option.isSome_iff_exists.mp hsome
        rw [show find k (t.leafOf k).entries = some w from hw] at hslot
        cases hslot
      · rw [Option.some.injEq,decide_eq_false_iff_not] at hfits
        exact absurd hroom hfits

theorem insert_no_error (hq : Quiet p) (h : TreeOn p.flat tree t) (hst : t.StaysOnLeaf k v)
    (hf : t.depth < fuel) (e : Error) : (tree.insert fuel k v p).1 ≠ .error (.err e) := by
  obtain ⟨nd,hl⟩ := h.leafOf k
  have hsorted := Shape.leafFor_bounded h.sound.bounded k
  have hflat : ∀ e, ((tree.insert fuel k v : Prog Error FlatStore _) p.flat).1 ≠
      .error (.err e) := by
    intro e
    rw [insert,Prog.bind_ok (h.findLeaf_eq k hf)]
    change ((insertAt tree fuel (t.leafOf k).id k v : Prog Error FlatStore _) p.flat).1 ≠ _
    cases hw : find k (t.leafOf k).entries with
    | none =>
      obtain ⟨s',-,hrun⟩ : ∃ s', _ ∧ (insertAt tree fuel _ k v : Prog Error FlatStore _) _ =
          (.ok _,s') := insertAt_room hl hsorted hw
        (by simpa [RootedTree.StaysOnLeaf,hw] using hst) fuel
      rw [hrun]
      simp
    | some w =>
      rw [insertAt,Prog.bind_ok (FlatStore.readNode_eq hl.page),hl.layout.leafFindSlot_eq hsorted,
        show find k (t.leafOf k).entries = some w from hw]
      cases hins : nd.leafInsert k v with
      | none => exact fun he => by cases he
      | some r =>
        have hid : r.2.page.id = (t.leafOf k).id := (BTreeNode.id_leafInsertAux hins).trans hl.id
        have hwrite : (NodeStore.writeNode r.2 : Prog Error FlatStore Unit) p.flat =
            (.ok (),p.flat.put r.2.sealed.page) :=
          FlatStore.writeNode_eq ((congrArg p.flat.pages hid).trans hl.page)
        simp only [Prog.ofOption_some,pure_bind,Option.isSome_some,if_true]
        rw [Prog.bind_ok hwrite]
        exact fun he => by cases he
  obtain ⟨hrun,-⟩ := (congr_insert models_refines tree fuel k v) p p.flat ⟨hq,rfl⟩ hflat
  rw [hrun]
  exact hflat e

theorem created_tree {capacity : Nat} {ops : List TreeOp} (hc : 1 ≤ capacity)
    (hl : ∀ op ∈ ops, op.InLimits)
    (hs : RootedTree.Along RootedTree.Safe ops (RootedTree.single 0)) (hf : ops.length ≤ 12)
    (hroot : (ops.foldl (fun t op => t.apply op) (RootedTree.single 0)).id = 0) :
    Quiet ((create >>= run 12 ops) (new (.open_ [] []) capacity)).2 ∧
      TreeAt ((create >>= run 12 ops) (new (.open_ [] []) capacity)).2.flat (.open_ 0)
        (ops.foldl (fun t op => t.apply op) (RootedTree.single 0)) := by
  obtain ⟨tree,p,hrun,hq,hat⟩ := @create_run_eq (.open_ [] []) capacity 12 ops ⟨rfl,rfl⟩ hc
    (by decide) hl hs hf
  obtain rfl : tree = .open_ 0 := congrArg BPlusTree.mk (hat.root.symm.trans hroot)
  rw [hrun]
  exact ⟨hq,hat⟩

-- Seven entries of the largest size fill a leaf.
def fullKey (i : UInt8) : Bytes := i :: List.replicate 255 0

def fullValue : Bytes := List.replicate 256 0

def sevenInserts : List TreeOp := [1,2,3,4,5,6,7].map fun i => .insert (fullKey i) fullValue

def fullLeaf : BufferPoolManager := ((create >>= run 12 sevenInserts) (new (.open_ [] []) 4)).2

end BPlusTree

end StorageDb
