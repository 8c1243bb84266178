import Mathlib.Tactic
import StorageDb.Btree.Node

namespace StorageDb
open Bytes

structure Header where
  id : PageId
  right : PageId
  parent : PageId
  level : Nat
  deriving DecidableEq

namespace BTreeNode

def header (nd : BTreeNode) : Header :=
  ⟨nd.page.id,nd.getRightSibling,nd.getParent,nd.getLevel⟩

theorem header_of_slice {nd nd' : BTreeNode} (hi : nd'.page.id = nd.page.id)
    (hs : slice nd'.page.data 16 10 = slice nd.page.data 16 10) : nd'.header = nd.header := by
  have h (off len : Nat) (hb : off + len ≤ 10) :
      slice nd'.page.data (16 + off) len = slice nd.page.data (16 + off) len := by
    rw [← slice_slice hb,hs,slice_slice hb]
  simp only [header,getRightSibling,getParent,getLevel,Page.field,hi]
  rw [h 0 4 (by omega),h 4 4 (by omega),h 8 2 (by omega)]

theorem ofNat_toNat_mod (p : PageId) : UInt32.ofNat (p.toNat % 256 ^ 4) = p := by
  have := p.toNat_lt
  rw [Nat.mod_eq_of_lt (by omega),UInt32.ofNat_toNat]

@[simp] theorem getParent_setParent (nd : BTreeNode) (p : PageId) :
    (nd.setParent p).getParent = p := by
  rw [getParent,setParent,Page.field_setField_same,ofNat_toNat_mod]

@[simp] theorem getRightSibling_setParent (nd : BTreeNode) (p : PageId) :
    (nd.setParent p).getRightSibling = nd.getRightSibling := by
  rw [getRightSibling,setParent,Page.field_setField_disjoint _ _ (by omega)]
  rfl

@[simp] theorem getLevel_setParent (nd : BTreeNode) (p : PageId) :
    (nd.setParent p).getLevel = nd.getLevel := by
  rw [getLevel,setParent,Page.field_setField_disjoint _ _ (by omega)]
  rfl

@[simp] theorem getRightSibling_setRightSibling (nd : BTreeNode) (p : PageId) :
    (nd.setRightSibling p).getRightSibling = p := by
  rw [getRightSibling,setRightSibling,Page.field_setField_same,ofNat_toNat_mod]

@[simp] theorem getParent_setRightSibling (nd : BTreeNode) (p : PageId) :
    (nd.setRightSibling p).getParent = nd.getParent := by
  rw [getParent,setRightSibling,Page.field_setField_disjoint _ _ (by omega)]
  rfl

@[simp] theorem getLevel_setRightSibling (nd : BTreeNode) (p : PageId) :
    (nd.setRightSibling p).getLevel = nd.getLevel := by
  rw [getLevel,setRightSibling,Page.field_setField_disjoint _ _ (by omega)]
  rfl

@[simp] theorem getLevel_setLevel (nd : BTreeNode) (l : Nat) :
    (nd.setLevel l).getLevel = l % 256 ^ 2 := by
  rw [getLevel,setLevel,Page.field_setField_same]

@[simp] theorem getParent_setLevel (nd : BTreeNode) (l : Nat) :
    (nd.setLevel l).getParent = nd.getParent := by
  rw [getParent,setLevel,Page.field_setField_disjoint _ _ (by omega)]
  rfl

@[simp] theorem getRightSibling_setLevel (nd : BTreeNode) (l : Nat) :
    (nd.setLevel l).getRightSibling = nd.getRightSibling := by
  rw [getRightSibling,setLevel,Page.field_setField_disjoint _ _ (by omega)]
  rfl

@[simp] theorem id_setParent (nd : BTreeNode) (p : PageId) :
    (nd.setParent p).page.id = nd.page.id :=
  rfl

@[simp] theorem id_setRightSibling (nd : BTreeNode) (p : PageId) :
    (nd.setRightSibling p).page.id = nd.page.id := rfl

@[simp] theorem id_setLevel (nd : BTreeNode) (l : Nat) : (nd.setLevel l).page.id = nd.page.id := rfl

@[simp] theorem id_blank (pid : PageId) (t : PageType) : (blank pid t).page.id = pid := rfl

theorem header_setParent (nd : BTreeNode) (p : PageId) :
    (nd.setParent p).header = { nd.header with parent := p } := by
  simp only [header,getRightSibling_setParent,getParent_setParent,getLevel_setParent,id_setParent]

theorem header_setRightSibling (nd : BTreeNode) (p : PageId) :
    (nd.setRightSibling p).header = { nd.header with right := p } := by
  simp only [header,getRightSibling_setRightSibling,getParent_setRightSibling,
    getLevel_setRightSibling,id_setRightSibling]

theorem header_setLevel (nd : BTreeNode) (l : Nat) :
    (nd.setLevel l).header = { nd.header with level := l % 256 ^ 2 } := by
  simp only [header,getRightSibling_setLevel,getParent_setLevel,getLevel_setLevel,id_setLevel]

theorem level_lt (nd : BTreeNode) : nd.getLevel % 256 ^ 2 = nd.getLevel :=
  Nat.mod_eq_of_lt (nd.page.field_lt (by decide))

@[simp] theorem header_reset (nd : BTreeNode) (t : PageType) : (nd.reset t).header = nd.header := by
  simp only [header,reset,getRightSibling_setLevel,getRightSibling_setParent,
    getRightSibling_setRightSibling,getParent_setLevel,getParent_setParent,getLevel_setLevel,
    level_lt,id_setLevel,id_setParent,id_setRightSibling,id_blank]

@[simp] theorem header_newLeaf (pid : PageId) :
    (newLeaf pid).header = ⟨pid,invalidPageId,invalidPageId,0⟩ := by
  simp only [header,newLeaf,getRightSibling_setLevel,getRightSibling_setParent,
    getRightSibling_setRightSibling,getParent_setLevel,getParent_setParent,getLevel_setLevel,
    id_setLevel,id_setParent,id_setRightSibling,id_blank]
  rfl

@[simp] theorem header_newInternal (pid : PageId) :
    (newInternal pid).header = ⟨pid,invalidPageId,invalidPageId,1⟩ := by
  simp only [header,newInternal,getRightSibling_setLevel,getRightSibling_setParent,
    getRightSibling_setRightSibling,getParent_setLevel,getParent_setParent,getLevel_setLevel,
    id_setLevel,id_setParent,id_setRightSibling,id_blank]
  rfl

end BTreeNode

end StorageDb
