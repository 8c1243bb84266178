import Mathlib.Tactic
import StorageDb.Btree.Refinement
import StorageDb.Btree.TreeReads

namespace StorageDb
open SortedAssoc SepChain

inductive TreeOp where
  | insert (key value : Bytes)
  | delete (key : Bytes)
  | search (key : Bytes)
  deriving DecidableEq

inductive TreeResult where
  | inserted (new : Bool)
  | deleted (old : Option Bytes)
  | found (value : Option Bytes)
  deriving DecidableEq

abbrev KvMap := Bytes → Option Bytes

namespace KvMap

def empty : KvMap := fun _ => none

def apply : TreeOp → KvMap → TreeResult × KvMap
  | .insert k v, m => (.inserted (m k).isNone,Function.update m k (some v))
  | .delete k, m => (.deleted (m k),Function.update m k none)
  | .search k, m => (.found (m k),m)

def run : List TreeOp → KvMap → List TreeResult × KvMap
  | [], m => ([],m)
  | op :: ops, m =>
    let r := apply op m
    let rest := run ops r.2
    (r.1 :: rest.1,rest.2)

end KvMap

def TreeOp.InLimits : TreeOp → Prop
  | .insert k v => k.length ≤ maxKeySize ∧ v.length ≤ maxValueSize
  | .delete _ => True
  | .search _ => True

instance (op : TreeOp) : Decidable op.InLimits :=
  match op with
  | .insert _ _ => inferInstanceAs (Decidable (_ ∧ _))
  | .delete _ => .isTrue trivial
  | .search _ => .isTrue trivial

namespace BPlusTree

variable {σ τ : Type} [NodeStore σ] [NodeStore τ]

def apply (fuel : Nat) (tree : BPlusTree) : TreeOp → Prog Error σ (TreeResult × BPlusTree)
  | .insert k v => do
    let (new,tree) ← tree.insert fuel k v
    pure (.inserted new,tree)
  | .delete k => do
    let old ← tree.delete fuel k
    pure (.deleted old,tree)
  | .search k => do
    let value ← tree.search fuel k
    pure (.found value,tree)

def run (fuel : Nat) : List TreeOp → BPlusTree → Prog Error σ (List TreeResult × BPlusTree)
  | [], tree => pure ([],tree)
  | op :: ops, tree => do
    let (r,tree) ← tree.apply fuel op
    let (rs,tree) ← run fuel ops tree
    pure (r :: rs,tree)

section congr

variable {Q : ⦃α : Type⦄ → Prog Error σ α → Prog Error τ α → Prop} (h : StoreCongruence Q)
include h

theorem congr_apply (fuel : Nat) (tree : BPlusTree) (op : TreeOp) :
    Q (tree.apply fuel op) (tree.apply fuel op) := by
  cases op with
  | insert k v => exact h.bind (congr_insert h tree fuel k v) (fun _ => h.pure _)
  | delete k => exact h.bind (congr_delete h tree fuel k) (fun _ => h.pure _)
  | search k => exact h.bind (congr_search h.toReadCongruence tree fuel k) (fun _ => h.pure _)

theorem congr_run (fuel : Nat) (ops : List TreeOp) (tree : BPlusTree) :
    Q (run fuel ops tree) (run fuel ops tree) := by
  induction ops generalizing tree with
  | nil => exact h.pure _
  | cons op ops ih =>
    exact h.bind (congr_apply h fuel tree op) (fun r => h.bind (ih r.2) (fun _ => h.pure _))

end congr

end BPlusTree

namespace RootedTree

def apply : TreeOp → RootedTree → RootedTree
  | .insert k v, t => t.insert k v
  | .delete k, t => t.delete k
  | .search _, t => t

-- The tree that create leaves on page pid of a store with pid pages.
def single (pid : PageId) : RootedTree :=
  ⟨0,⟨pid,invalidPageId,invalidPageId,[]⟩,pid.toNat + 1⟩

def Along (C : TreeOp → RootedTree → Prop) : List TreeOp → RootedTree → Prop
  | [], _ => True
  | op :: ops, t => C op t ∧ Along C ops (t.apply op)

def Safe : TreeOp → RootedTree → Prop
  | .insert k v, t => t.InsertSafe k v
  | .delete _, _ => True
  | .search _, _ => True

instance (op : TreeOp) (t : RootedTree) : Decidable (Safe op t) :=
  match op with
  | .insert k v => inferInstanceAs (Decidable (t.InsertSafe k v))
  | .delete _ => .isTrue trivial
  | .search _ => .isTrue trivial

def decideAlong (C : TreeOp → RootedTree → Prop) [∀ op t, Decidable (C op t)] :
    (ops : List TreeOp) → (t : RootedTree) → Decidable (Along C ops t)
  | [], _ => .isTrue trivial
  | op :: ops, t =>
    have := decideAlong C ops (t.apply op)
    inferInstanceAs (Decidable (_ ∧ _))

instance (C : TreeOp → RootedTree → Prop) [∀ op t, Decidable (C op t)] (ops : List TreeOp)
    (t : RootedTree) : Decidable (Along C ops t) := decideAlong C ops t

def Taken : TreeOp → RootedTree → Prop
  | .insert k v, t => t.Takes k v ∧ t.SplitsTell k v
  | .delete _, _ => True
  | .search _, _ => True

def toMap (t : RootedTree) : KvMap := fun k => find k t.contents

variable {t : RootedTree} {op : TreeOp}

theorem toMap_insert (k v : Bytes) (h : t.Sound) :
    (t.insert k v).toMap = Function.update t.toMap k (some v) := by
  funext x
  rw [toMap,h.contents_insert k v,find_upsert]
  by_cases hx : x = k <;> simp [hx,toMap]

theorem toMap_delete (k : Bytes) (h : t.Sound) :
    (t.delete k).toMap = Function.update t.toMap k none := by
  funext x
  rw [toMap,h.contents_delete k,find_erase]
  by_cases hx : x = k <;> simp [hx,toMap]

theorem depth_apply (op : TreeOp) (t : RootedTree) : (t.apply op).depth ≤ t.depth + 1 := by
  cases op with
  | insert k v => exact raise_depth _
  | delete k => exact Nat.le_succ _
  | search k => exact Nat.le_succ _

theorem WellFormed.apply (h : t.WellFormed) (hl : op.InLimits) (hs : Safe op t) :
    Taken op t ∧ (t.apply op).WellFormed := by
  cases op with
  | insert k v => exact ⟨⟨h.takes hs hl.1 hl.2,hs.toSplitsTell⟩,h.insert hl.1 hl.2 hs.next⟩
  | delete k => exact ⟨trivial,h.delete k⟩
  | search k => exact ⟨trivial,h⟩

theorem WellFormed.run (h : t.WellFormed) {ops : List TreeOp} (hl : ∀ op ∈ ops, op.InLimits)
    (hs : Along Safe ops t) :
    Along Taken ops t ∧ (ops.foldl (fun t op => t.apply op) t).WellFormed := by
  induction ops generalizing t with
  | nil => exact ⟨trivial,h⟩
  | cons op ops ih =>
    obtain ⟨htake,h'⟩ := h.apply (hl op List.mem_cons_self) hs.1
    obtain ⟨hrest,hfin⟩ := ih h' (fun x hx => hl x (List.mem_cons_of_mem _ hx)) hs.2
    exact ⟨⟨htake,hrest⟩,hfin⟩

end RootedTree

namespace TreeOn

variable {fuel : Nat} {s : FlatStore} {tree : BPlusTree} {t : RootedTree}

theorem apply_eq (h : TreeOn s tree t) {op : TreeOp} (hs : RootedTree.Taken op t)
    (hf : t.depth < fuel) :
    ∃ tree' s', (tree.apply fuel op : Prog Error FlatStore _) s =
        (.ok ((KvMap.apply op t.toMap).1,tree'),s') ∧ TreeOn s' tree' (t.apply op) ∧
      (t.apply op).toMap = (KvMap.apply op t.toMap).2 := by
  cases op with
  | insert k v =>
    obtain ⟨tree',s',hrun,h'⟩ := h.insert_eq hs.1 hs.2 hf
    exact ⟨tree',s',(Prog.bind_ok hrun).trans rfl,h',RootedTree.toMap_insert k v h.sound⟩
  | delete k =>
    obtain ⟨s',hrun,h',-⟩ := h.delete_eq k hf
    exact ⟨tree,s',(Prog.bind_ok hrun).trans rfl,h',RootedTree.toMap_delete k h.sound⟩
  | search k => exact ⟨tree,s,(Prog.bind_ok (h.search_eq k hf)).trans rfl,h,rfl⟩

theorem run_eq (h : TreeOn s tree t) {ops : List TreeOp}
    (hs : RootedTree.Along RootedTree.Taken ops t) (hf : t.depth + ops.length ≤ fuel) :
    ∃ tree' s', (BPlusTree.run fuel ops tree : Prog Error FlatStore _) s =
        (.ok ((KvMap.run ops t.toMap).1,tree'),s') ∧
      TreeOn s' tree' (ops.foldl (fun t op => t.apply op) t) := by
  induction ops generalizing s tree t with
  | nil => exact ⟨tree,s,rfl,h⟩
  | cons op ops ih =>
    rw [List.length_cons] at hf
    have hlt : t.depth < fuel := by omega
    obtain ⟨tree1,s1,hrun1,h1,hmap⟩ := h.apply_eq hs.1 hlt
    have hd := RootedTree.depth_apply op t
    obtain ⟨tree2,s2,hrun2,h2⟩ := ih h1 hs.2 (by omega)
    refine ⟨tree2,s2,(Prog.bind_ok hrun1).trans ((Prog.bind_ok hrun2).trans ?_),h2⟩
    rw [hmap]
    rfl

end TreeOn

namespace TreeAt

variable {fuel : Nat} {s : FlatStore} {tree : BPlusTree} {t : RootedTree}

theorem apply_eq (h : TreeAt s tree t) {op : TreeOp} (hl : op.InLimits) (hs : RootedTree.Safe op t)
    (hf : t.depth < fuel) :
    ∃ tree' s', (tree.apply fuel op : Prog Error FlatStore _) s =
        (.ok ((KvMap.apply op t.toMap).1,tree'),s') ∧ TreeAt s' tree' (t.apply op) ∧
      (t.apply op).toMap = (KvMap.apply op t.toMap).2 := by
  obtain ⟨htake,hw⟩ := h.wf.apply hl hs
  obtain ⟨tree',s',hrun,h',hmap⟩ := h.toTreeOn.apply_eq htake hf
  exact ⟨tree',s',hrun,⟨h',hw.keys⟩,hmap⟩

end TreeAt

end StorageDb
