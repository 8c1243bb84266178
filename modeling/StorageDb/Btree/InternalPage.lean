import Mathlib.Tactic
import StorageDb.Lib.SepChain
import StorageDb.Btree.SlotNode

namespace StorageDb
open Bytes Bisect SlotPage SortedAssoc SepChain

abbrev Link := Bytes × PageId

def internalFormat : Format Link where
  start := 30
  size := 8
  enc o e := leBytes 2 o ++ (leBytes 2 e.1.length ++ leBytes 4 e.2.toNat)
  blob e := e.1
  enc_length := by simp

def internalBytes (es : List Link) : Nat := (es.map (fun e => 8 + e.1.length)).sum

def InternalFits (es : List Link) : Prop := 30 + internalBytes es ≤ pageSize

instance (es : List Link) : Decidable (InternalFits es) := inferInstanceAs (Decidable (_ ≤ _))

@[simp] theorem internalBytes_nil : internalBytes [] = 0 := rfl

@[simp] theorem internalBytes_cons (e : Link) (es : List Link) :
    internalBytes (e :: es) = 8 + e.1.length + internalBytes es := by simp [internalBytes]

@[simp] theorem internalBytes_append (xs ys : List Link) :
    internalBytes (xs ++ ys) = internalBytes xs + internalBytes ys := by simp [internalBytes]

theorem internalBytes_eq (es : List Link) :
    internalBytes es = 8 * es.length + internalFormat.total es := by
  induction es with
  | nil => rfl
  | cons e es ih =>
    rw [internalBytes_cons,ih,Format.total_cons,List.length_cons]
    change _ = _ + (e.1.length + _)
    omega

structure InternalPage (nd : BTreeNode) (c : PageId) (es : List Link) : Prop where
  node : SlotNode internalFormat .internal nd es
  leftmost : nd.getLeftmostChild = c

namespace InternalPage
open BTreeNode

variable {nd : BTreeNode} {c : PageId} {es : List Link} {ps : List (Nat × Link)}

theorem fits (h : InternalPage nd c es) : InternalFits es := by
  have hr := h.node.room
  rw [Format.slotOff_eq] at hr
  change 30 + 8 * es.length + _ ≤ pageSize at hr
  rw [InternalFits,internalBytes_eq]
  omega

theorem isLeaf_eq (h : InternalPage nd c es) : nd.isLeaf = false := by
  simp [isLeaf,h.node.kind]

theorem readInternalSlot_eq (hl : Layout internalFormat nd.page.data ps) {i o : Nat} {e : Link}
    (hi : ps[i]? = some (o,e)) : nd.readInternalSlot i = some (o,e.1.length,e.2) := by
  have hn : i < ps.length := (List.getElem?_eq_some_iff.mp hi).1
  have hs := hl.slot i _ hi
  have hh : o + e.1.length ≤ 4096 := nd.page.length_data ▸ hl.high _ (List.mem_of_getElem? hi)
  have hr := hl.room
  have hlt := internalFormat.slotOff_lt hn
  rw [Page.length_data] at hr
  have hread : nd.page.read (internalSlotOffset i) internalSlotSize =
      some (internalFormat.enc o e) := by
    rw [Page.read_eq_some _ (by rw [pageSize_eq]; exact hlt.trans (by omega)),← hs]
    rfl
  simp only [readInternalSlot,hread,Option.bind_eq_bind,Option.bind_some,internalFormat]
  have h0 : slice (leBytes 2 o ++ (leBytes 2 e.1.length ++ leBytes 4 e.2.toNat)) 0 2 =
      leBytes 2 o := rfl
  have h2 : slice (leBytes 2 o ++ (leBytes 2 e.1.length ++ leBytes 4 e.2.toNat)) 2 2 =
      leBytes 2 e.1.length := rfl
  have h4 : slice (leBytes 2 o ++ (leBytes 2 e.1.length ++ leBytes 4 e.2.toNat)) 4 4 =
      leBytes 4 e.2.toNat := rfl
  rw [h0,h2,h4,leNat_leBytes,leNat_leBytes,leNat_leBytes,Nat.mod_eq_of_lt (by omega),
    Nat.mod_eq_of_lt (by omega),ofNat_toNat_mod]

theorem internalKey_eq (h : InternalPage nd c es) {i : Nat} {e : Link} (hi : es[i]? = some e) :
    nd.internalKey i = some e.1 := by
  obtain ⟨ps,hp,hl⟩ := h.node.layout
  obtain ⟨o,ho⟩ := SlotNode.exists_slot hp hi
  have hm := List.mem_of_getElem? ho
  have hh : o + e.1.length ≤ pageSize := nd.page.size ▸ hl.high _ hm
  simp only [internalKey,readInternalSlot_eq hl ho,Option.bind_eq_bind,Option.bind_some]
  rw [Page.read_eq_some _ hh]
  exact congrArg some (hl.data _ hm)

theorem internalChild_eq (h : InternalPage nd c es) {i : Nat} {p : PageId}
    (hi : (children c es)[i]? = some p) : nd.internalChild i = some p := by
  cases i with
  | zero =>
    obtain rfl : c = p := by simpa [children] using hi
    rw [internalChild,if_pos rfl,h.leftmost]
  | succ i =>
    obtain ⟨ps,hp,hl⟩ := h.node.layout
    obtain ⟨e,he,rfl⟩ : ∃ e, es[i]? = some e ∧ e.2 = p := by
      simpa [children,List.getElem?_map,Option.map_eq_some_iff] using hi
    obtain ⟨o,ho⟩ := SlotNode.exists_slot hp he
    simp only [internalChild,Nat.add_one_ne_zero,if_false,Nat.add_sub_cancel,
      readInternalSlot_eq hl ho,Option.bind_eq_bind,Option.bind_some]

theorem internalSearch_eq (h : InternalPage nd c es) (hs : Sorted es) (key : Bytes) :
    nd.internalSearch key = some (reach key es) := by
  have hprobe (i : Nat) (hi : i < es.length) :
      (nd.internalKey i).map (fun k => if key < k then Ordering.gt else .lt) =
        some (if key < es[i].1 then .gt else .lt) := by
    rw [h.internalKey_eq (List.getElem?_eq_getElem hi)]
    rfl
  rw [internalSearch,h.node.count,bisect_insertion le_rfl (a := reach key es) ?_ ?_
    (reach_le_length key es)]
  · rfl
  · intro i hi
    have hb := hi.trans_le (reach_le_length key es)
    rw [hprobe i hb,if_neg (not_lt.mpr (le_of_lt_reach hi (List.getElem?_eq_getElem hb)))]
  · intro i hi hb
    rw [hprobe i hb,if_pos (lt_of_reach_le hs hi (List.getElem?_eq_getElem hb))]

theorem internalFindChild_eq (h : InternalPage nd c es) (hs : Sorted es) (key : Bytes) :
    nd.internalFindChild key = some (reach key es) := by
  rw [internalFindChild]
  split_ifs with hn
  · rw [h.node.count] at hn
    obtain rfl : es = [] := List.length_eq_zero_iff.mp hn
    rfl
  · exact h.internalSearch_eq hs key

theorem internalDataFrontier_layout (hc : nd.numKeys = ps.length)
    (hl : Layout internalFormat nd.page.data ps) :
    nd.internalDataFrontier = some (frontier pageSize ps) := by
  rw [internalDataFrontier]
  by_cases hn : nd.numKeys = 0
  · obtain rfl : ps = [] := List.length_eq_zero_iff.mp (hc ▸ hn)
    rw [if_pos hn]
    rfl
  · rw [if_neg hn]
    have hread (i : Nat) (hi : i < ps.length) : nd.readInternalSlot i =
        some ((ps[i]).1,(ps[i]).2.1.length,(ps[i]).2.2) :=
      readInternalSlot_eq hl (List.getElem?_eq_getElem hi)
    have hstep : ∀ i ∈ List.range nd.numKeys, ∀ low,
        ((nd.readInternalSlot i).bind fun x => some (if x.1 < low then x.1 else low)) =
          some (if (ps[i]?.getD (0,([],0))).1 < low then (ps[i]?.getD (0,([],0))).1 else low) := by
      intro i hi low
      have hb : i < ps.length := hc ▸ List.mem_range.mp hi
      rw [hread i hb,List.getElem?_eq_getElem hb]
      rfl
    obtain ⟨m,hm,hle,hall,hor⟩ := foldlM_min _ hstep pageSize
    refine Eq.trans hm ?_
    have h0 : 0 < ps.length := by omega
    have hhigh (p) (hp : p ∈ ps) : p.1 + p.2.1.length ≤ pageSize := nd.page.size ▸ hl.high p hp
    have hmem : ∀ p ∈ ps, m ≤ p.1 := by
      intro p hp
      obtain ⟨i,hi,rfl⟩ := List.getElem_of_mem hp
      have := hall i (List.mem_range.mpr (hc ▸ hi))
      rwa [List.getElem?_eq_getElem hi] at this
    -- when the minimum is the page end itself, every separator is empty and sits there
    refine congrArg some (frontier_eq_of_least ?_ hmem hle).symm
    rcases hor with rfl | ⟨i,hi,rfl⟩
    · have h1 := hmem _ (List.getElem_mem h0)
      have h2 := hhigh _ (List.getElem_mem h0)
      exact ⟨_,List.getElem_mem h0,by omega⟩
    · have hb : i < ps.length := hc ▸ List.mem_range.mp hi
      exact ⟨_,List.getElem_mem hb,by rw [List.getElem?_eq_getElem hb]; rfl⟩

theorem internalCanFit_eq (h : InternalPage nd c es) (key : Bytes) : nd.internalCanFit key =
    some (decide (30 + internalBytes es + 8 + (8 + key.length) ≤ pageSize)) := by
  have hf := h.fits
  obtain ⟨ps,hp,hl⟩ := h.node.layout
  have hfr := internalDataFrontier_layout (by rw [h.node.count,← hp,List.length_map]) hl
  have ht : frontier pageSize ps + internalFormat.total es = pageSize :=
    hp ▸ nd.page.size ▸ hl.tight
  rw [InternalFits,internalBytes_eq] at hf
  simp only [internalCanFit,internalAvailableSpace,hfr,Option.bind_eq_bind,Option.bind_some,
    h.node.count]
  refine congrArg some (decide_eq_decide.mpr ?_)
  rw [internalBytes_eq]
  rw [pageSize_eq] at ht hf
  split_ifs with hc <;> simp only [pageSize_eq,internalSlotsStart,internalLeftmostChildOffset,
    internalSlotSize,headerSize_eq,btreeHeaderSize] at hc ⊢ <;> omega

end InternalPage

end StorageDb
