import Mathlib.Tactic
import StorageDb.Btree.FlatStore

namespace StorageDb
open Prog NodeStore

structure ReadCongruence {σ τ : Type} [NodeStore σ] [NodeStore τ]
    (Q : ⦃α : Type⦄ → Prog Error σ α → Prog Error τ α → Prop) : Prop extends Congruence Q where
  read : ∀ pid, Q (readNode pid) (readNode pid)

structure StoreCongruence {σ τ : Type} [NodeStore σ] [NodeStore τ]
    (Q : ⦃α : Type⦄ → Prog Error σ α → Prog Error τ α → Prop) : Prop extends ReadCongruence Q where
  write : ∀ nd, Q (writeNode nd) (writeNode nd)
  alloc : Q allocatePage allocatePage

namespace BPlusTree

variable {σ τ : Type} [NodeStore σ] [NodeStore τ]
  {Q : ⦃α : Type⦄ → Prog Error σ α → Prog Error τ α → Prop}

section read

variable (h : ReadCongruence Q)
include h

theorem congr_descend (choose : BTreeNode → Option PageId) (fuel : Nat) (pid : PageId) :
    Q (descend choose fuel pid) (descend choose fuel pid) := by
  induction fuel generalizing pid with
  | zero => exact h.hang
  | succ fuel ih =>
    refine h.bind (h.read pid) (fun nd => ?_)
    cases nd.isLeaf with
    | true => exact h.pure pid
    | false => exact h.bind (h.ofOption _) ih

theorem congr_search (tree : BPlusTree) (fuel : Nat) (key : Bytes) :
    Q (tree.search fuel key) (tree.search fuel key) := by
  refine h.bind (congr_descend h _ fuel _) (fun leafId => h.bind (h.read leafId) (fun nd =>
    h.bind (h.ofOption _) (fun r => ?_)))
  obtain ⟨idx,found⟩ := r
  cases found with
  | true => exact h.bind (h.ofOption _) (fun v => h.pure _)
  | false => exact h.pure none

theorem congr_scanLeaves (fuel : Nat) (pid : PageId) :
    Q (scanLeaves fuel pid) (scanLeaves fuel pid) := by
  induction fuel generalizing pid with
  | zero => exact h.hang
  | succ fuel ih =>
    rw [scanLeaves,scanLeaves]
    refine h.bind (h.read pid) (fun nd => h.bind (h.ofOption _) (fun es => ?_))
    split_ifs
    · exact h.pure es
    · exact h.bind (ih _) (fun _ => h.pure _)

theorem congr_scanAll (tree : BPlusTree) (fuel : Nat) :
    Q (tree.scanAll fuel) (tree.scanAll fuel) :=
  h.bind (congr_descend h _ fuel _) (fun _ => congr_scanLeaves h fuel _)

theorem congr_rangeLeaves (start stop : Bytes) (fuel : Nat) (pid : PageId) :
    Q (rangeLeaves start stop fuel pid) (rangeLeaves start stop fuel pid) := by
  induction fuel generalizing pid with
  | zero => exact h.hang
  | succ fuel ih =>
    rw [rangeLeaves,rangeLeaves]
    refine h.bind (h.read pid) (fun nd => h.bind (h.ofOption _) (fun r => ?_))
    obtain ⟨found,done⟩ := r
    dsimp only
    split_ifs
    · exact h.pure found
    · exact h.pure found
    · exact h.bind (ih _) (fun _ => h.pure _)

theorem congr_rangeScan (tree : BPlusTree) (fuel : Nat) (start stop : Bytes) :
    Q (tree.rangeScan fuel start stop) (tree.rangeScan fuel start stop) :=
  h.bind (congr_descend h _ fuel _) (fun _ => congr_rangeLeaves h start stop fuel _)

end read

variable (h : StoreCongruence Q)
include h

theorem congr_setParentOf (parentId childId : PageId) :
    Q (setParentOf parentId childId) (setParentOf parentId childId) :=
  h.bind (h.read childId) (fun _ => h.write _)

theorem congr_setParents (parentId : PageId) (children : List PageId) :
    Q (setParents parentId children) (setParents parentId children) := by
  induction children with
  | nil => exact h.pure ()
  | cons c cs ih => exact h.bind (congr_setParentOf h parentId c) (fun _ => ih)

theorem congr_newRoot (l : PageId) (key : Bytes) (r : PageId) :
    Q (newRoot l key r) (newRoot l key r) :=
  h.bind h.alloc (fun _ => h.bind (h.ofOption _) (fun _ => h.bind (h.write _) (fun _ =>
    h.bind (congr_setParentOf h _ _) (fun _ => h.bind (congr_setParentOf h _ _) (fun _ =>
      h.pure _)))))

theorem congr_splitInternal (nd : BTreeNode) (key : Bytes) (child : PageId) :
    Q (splitInternal nd key child) (splitInternal nd key child) :=
  h.bind (h.ofOption _) (fun _ => h.bind (h.ofOption _) (fun _ => h.bind h.alloc (fun _ =>
    h.bind (h.ofOption _) (fun _ => h.bind (h.ofOption _) (fun _ => h.bind (h.write _) (fun _ =>
      h.bind (h.write _) (fun _ => h.bind (h.bind (h.read _) (fun _ => h.bind (h.ofOption _)
        (fun _ => congr_setParents h _ _))) (fun _ => h.pure _))))))))

theorem congr_insertIntoParent (tree : BPlusTree) (fuel : Nat) (l : PageId) (key : Bytes)
    (r parentId : PageId) : Q (insertIntoParent tree fuel l key r parentId)
      (insertIntoParent tree fuel l key r parentId) := by
  induction fuel generalizing l key r parentId with
  | zero => exact h.hang
  | succ fuel ih =>
    rw [insertIntoParent,insertIntoParent]
    split_ifs
    · exact congr_newRoot h l key r
    · refine h.bind (h.read parentId) (fun nd => h.bind (h.ofOption _) (fun fits => ?_))
      cases fits with
      | true => exact h.bind (h.ofOption _) (fun _ => h.bind (h.write _) (fun _ =>
          h.bind (congr_setParentOf h _ _) (fun _ => h.pure tree)))
      | false => exact h.bind (congr_splitInternal h nd key r) (fun _ => ih _ _ _ _)

theorem congr_splitLeaf (nd : BTreeNode) (key value : Bytes) :
    Q (splitLeaf nd key value) (splitLeaf nd key value) :=
  h.bind (h.ofOption _) (fun _ => h.bind h.alloc (fun _ => h.bind (h.ofOption _) (fun _ =>
    h.bind (h.ofOption _) (fun _ => h.bind (h.ofOption _) (fun _ => h.bind (h.write _) (fun _ =>
      h.bind (h.write _) (fun _ => h.pure _)))))))

theorem congr_insert (tree : BPlusTree) (fuel : Nat) (key value : Bytes) :
    Q (tree.insert fuel key value) (tree.insert fuel key value) := by
  refine h.bind (congr_descend h.toReadCongruence _ fuel _)
    (fun leafId => h.bind (h.read leafId) (fun nd =>
    h.bind (h.ofOption _) (fun r => ?_)))
  obtain ⟨idx,found⟩ := r
  cases found with
  | true => exact h.bind (h.ofOption _) (fun _ => h.bind (h.write _) (fun _ => h.pure _))
  | false =>
    refine h.bind (h.ofOption _) (fun fits => ?_)
    cases fits with
    | true => exact h.bind (h.ofOption _) (fun _ => h.bind (h.write _) (fun _ => h.pure _))
    | false =>
      exact h.bind (h.bind (congr_splitLeaf h nd key value) (fun _ =>
        congr_insertIntoParent h tree fuel _ _ _ _)) (fun _ => h.pure _)

theorem congr_delete (tree : BPlusTree) (fuel : Nat) (key : Bytes) :
    Q (tree.delete fuel key) (tree.delete fuel key) := by
  refine h.bind (congr_descend h.toReadCongruence _ fuel _)
    (fun leafId => h.bind (h.read leafId) (fun nd =>
    h.bind (h.ofOption _) (fun r => ?_)))
  obtain ⟨result,nd'⟩ := r
  cases result with
  | none => exact h.pure _
  | some v => exact h.bind (h.write _) (fun _ => h.pure _)

end BPlusTree

theorem BufferPoolManager.models_refines : StoreCongruence fun (α : Type)
    (m : Prog Error BufferPoolManager α) n => Refines Models m n :=
  ⟨⟨refines_congruence,refines_readNode⟩,refines_writeNode,refines_allocatePage⟩

end StorageDb
