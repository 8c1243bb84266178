import Mathlib.Tactic
import StorageDb.Lib.SlotPage
import StorageDb.Btree.Header

namespace StorageDb
open Bytes SlotPage

variable {R : Type}

structure SlotNode (F : Format R) (t : PageType) (nd : BTreeNode) (rs : List R) : Prop where
  kind : nd.page.getPageType = t
  count : nd.numKeys = rs.length
  layout : ∃ ps : List (Nat × R), ps.map Prod.snd = rs ∧ Layout F nd.page.data ps

namespace SlotNode
open BTreeNode

variable {F : Format R} {t : PageType} {nd : BTreeNode} {rs : List R}

theorem room (h : SlotNode F t nd rs) : F.slotOff rs.length + F.total rs ≤ pageSize := by
  obtain ⟨ps,rfl,hl⟩ := h.layout
  have hr := hl.room
  rw [Page.length_data] at hr
  rw [List.length_map]
  exact hr

theorem exists_slot {ps : List (Nat × R)} (hp : ps.map Prod.snd = rs) {i : Nat} {r : R}
    (hi : rs[i]? = some r) : ∃ o, ps[i]? = some (o,r) := by
  rw [← hp,List.getElem?_map] at hi
  obtain ⟨⟨o,r'⟩,h,rfl⟩ := Option.map_eq_some_iff.mp hi
  exact ⟨o,h⟩

theorem of_setField (h : SlotNode F t nd rs) {off len v : Nat} (hb : off + len ≤ pageSize)
    (hlo : 7 ≤ off) (hhi : off + len ≤ F.start) :
    SlotNode F t ⟨nd.page.setField off len v hb⟩ rs where
  kind := by
    rw [Page.getPageType,Page.field_setField_disjoint _ _ (by omega)]
    exact h.kind
  count := by
    rw [numKeys,Page.getNumSlots,Page.field_setField_disjoint _ _ (by omega)]
    exact h.count
  layout := by
    obtain ⟨ps,hp,hl⟩ := h.layout
    refine ⟨ps,hp,layout_congr (by simp) (fun o l ho => ?_) hl⟩
    exact Page.slice_setField_disjoint _ hb (by omega)

section setters

variable (hF : 26 ≤ F.start)
include hF

theorem of_setParent (h : SlotNode F t nd rs) (p : PageId) : SlotNode F t (nd.setParent p) rs :=
  h.of_setField _ (by omega) (by omega)

theorem of_setRightSibling (h : SlotNode F t nd rs) (p : PageId) :
    SlotNode F t (nd.setRightSibling p) rs := h.of_setField _ (by omega) (by omega)

theorem of_setLevel (h : SlotNode F t nd rs) (l : Nat) : SlotNode F t (nd.setLevel l) rs :=
  h.of_setField _ (by omega) (by omega)

theorem of_updateChecksum (h : SlotNode F t nd rs) : SlotNode F t ⟨nd.page.updateChecksum⟩ rs :=
  h.of_setField (by decide) (by omega) (by omega)

end setters

theorem of_blank (hF : F.start ≤ pageSize) (pid : PageId) (t : PageType) :
    SlotNode F t (blank pid t) [] where
  kind := by
    simp only [blank,Page.getPageType,Page.setFreeOffset,Page.setNumSlots]
    rw [Page.field_setField_disjoint _ _ (by omega),Page.field_setField_disjoint _ _ (by omega),
      Page.setPageType,Page.field_setField_same]
    cases t <;> rfl
  count := by
    simp only [numKeys,blank,Page.getNumSlots,Page.setFreeOffset]
    rw [Page.field_setField_disjoint _ _ (by omega),Page.setNumSlots,Page.field_setField_same]
    rfl
  layout := ⟨[],rfl,layout_nil (by rw [Page.length_data]; exact hF)⟩

theorem of_reset (hF : 26 ≤ F.start) (hF' : F.start ≤ pageSize) (nd : BTreeNode) (t : PageType) :
    SlotNode F t (nd.reset t) [] :=
  (((of_blank hF' _ t).of_setRightSibling hF _).of_setParent hF _).of_setLevel hF _

section insert

variable {ps : List (Nat × R)} {nd' : BTreeNode} {pos : Nat} {r : R}

-- The write sequence of an insertion has left the bytes of insertBytes; the slot count is next.
theorem inserted (hF : 26 ≤ F.start) (hl : Layout F nd.page.data ps)
    (hk : nd.page.getPageType = t) (hpos : pos ≤ ps.length)
    (hr : F.slotOff (ps.length + 1) + F.total (ps.map Prod.snd) + (F.blob r).length ≤ pageSize)
    (hn : ps.length + 1 < 256 ^ 2)
    (hd : nd'.page.data = insertBytes F nd.page.data ps.length pos
      (frontier pageSize ps - (F.blob r).length) r) :
    SlotNode F t ⟨nd'.page.setNumSlots (ps.length + 1)⟩ ((ps.map Prod.snd).insertIdx pos r) ∧
    slice (nd'.page.setNumSlots (ps.length + 1)).data 16 (F.start - 16) =
      slice nd.page.data 16 (F.start - 16) := by
  have hlen : nd.page.data.length = pageSize := nd.page.size
  rw [← hlen] at hr hd
  have hlay := layout_insert hl hpos hr
  have hslice := fun off len => slice_insertBytes hl hpos hr off len
  rw [← hd] at hlay hslice
  refine ⟨⟨?_,?_,?_⟩,?_⟩
  · rw [Page.getPageType,Page.setNumSlots,Page.field_setField_disjoint _ _ (by omega),Page.field,
      hslice 4 1 (Or.inl (by omega))]
    exact hk
  · rw [numKeys,Page.getNumSlots,Page.setNumSlots,Page.field_setField_same,
      List.length_insertIdx_of_le_length (by rw [List.length_map]; exact hpos),List.length_map,
      Nat.mod_eq_of_lt hn]
  · refine ⟨_,List.map_insertIdx ..,layout_congr ?_ (fun off len hoff => ?_) hlay⟩
    · rw [Page.length_data,Page.length_data]
    · exact Page.slice_setField_disjoint _ (by decide) (by omega)
  · rw [← hslice 16 _ (Or.inl (by omega))]
    exact Page.slice_setField_disjoint _ (by decide) (by omega)

end insert

end SlotNode

end StorageDb
