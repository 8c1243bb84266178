import Mathlib.Tactic
import StorageDb.Lib.SortedAssoc
import StorageDb.Btree.SlotNode

namespace StorageDb
open Bytes Bisect SlotPage SortedAssoc

abbrev Entry := Bytes × Bytes

def leafFormat : Format Entry where
  start := 26
  size := 6
  enc o e := leBytes 2 o ++ (leBytes 2 e.1.length ++ leBytes 2 e.2.length)
  blob e := e.1 ++ e.2
  enc_length := by simp

def leafBytes (es : List Entry) : Nat := (es.map (fun e => 6 + e.1.length + e.2.length)).sum

def LeafFits (es : List Entry) : Prop := 26 + leafBytes es ≤ pageSize

instance (es : List Entry) : Decidable (LeafFits es) := inferInstanceAs (Decidable (_ ≤ _))

@[simp] theorem leafBytes_nil : leafBytes [] = 0 := rfl

@[simp] theorem leafBytes_cons (e : Entry) (es : List Entry) :
    leafBytes (e :: es) = 6 + e.1.length + e.2.length + leafBytes es := by simp [leafBytes]

@[simp] theorem leafBytes_append (xs ys : List Entry) :
    leafBytes (xs ++ ys) = leafBytes xs + leafBytes ys := by simp [leafBytes]

theorem leafBytes_perm {xs ys : List Entry} (h : xs.Perm ys) : leafBytes xs = leafBytes ys :=
  (h.map _).sum_eq

theorem leafBytes_eq (es : List Entry) : leafBytes es = 6 * es.length + leafFormat.total es := by
  induction es with
  | nil => rfl
  | cons e es ih =>
    rw [leafBytes_cons,ih,Format.total_cons,List.length_cons]
    simp only [leafFormat,List.length_append]
    omega

theorem leafBytes_erase_le (k : Bytes) (es : List Entry) :
    leafBytes (erase k es) ≤ leafBytes es := by
  induction es with
  | nil => simp [erase]
  | cons e es ih =>
    rw [erase,List.filter_cons]
    split_ifs
    · rw [leafBytes_cons,leafBytes_cons]
      exact Nat.add_le_add_left ih _
    · rw [leafBytes_cons]
      exact ih.trans (Nat.le_add_left _ _)

abbrev LeafPage (nd : BTreeNode) (es : List Entry) : Prop := SlotNode leafFormat .leaf nd es

namespace LeafPage
open BTreeNode

variable {nd : BTreeNode} {es : List Entry} {ps : List (Nat × Entry)}

theorem fits (h : LeafPage nd es) : LeafFits es := by
  have hr := h.room
  rw [Format.slotOff_eq] at hr
  change 26 + 6 * es.length + _ ≤ pageSize at hr
  rw [LeafFits,leafBytes_eq]
  omega

theorem isLeaf_eq (h : LeafPage nd es) : nd.isLeaf = true := by
  simp [isLeaf,h.kind]

theorem readLeafSlot_eq (hl : Layout leafFormat nd.page.data ps) {i o : Nat} {e : Entry}
    (hi : ps[i]? = some (o,e)) : nd.readLeafSlot i = some (o,e.1.length,e.2.length) := by
  have hn : i < ps.length := (List.getElem?_eq_some_iff.mp hi).1
  have hs := hl.slot i _ hi
  have hh := hl.high _ (List.mem_of_getElem? hi)
  have hr := hl.room
  have hlt := leafFormat.slotOff_lt hn
  simp only [leafFormat,List.length_append,Page.length_data] at hh
  rw [Page.length_data] at hr
  have hread : nd.page.read (leafSlotOffset i) leafSlotSize = some (leafFormat.enc o e) := by
    rw [Page.read_eq_some _ (by rw [pageSize_eq]; exact hlt.trans (by omega)),← hs]
    rfl
  simp only [readLeafSlot,hread,Option.bind_eq_bind,Option.bind_some,leafFormat]
  have h0 : slice (leBytes 2 o ++ (leBytes 2 e.1.length ++ leBytes 2 e.2.length)) 0 2 =
      leBytes 2 o := rfl
  have h2 : slice (leBytes 2 o ++ (leBytes 2 e.1.length ++ leBytes 2 e.2.length)) 2 2 =
      leBytes 2 e.1.length := rfl
  have h4 : slice (leBytes 2 o ++ (leBytes 2 e.1.length ++ leBytes 2 e.2.length)) 4 2 =
      leBytes 2 e.2.length := rfl
  rw [h0,h2,h4,leNat_leBytes,leNat_leBytes,leNat_leBytes,Nat.mod_eq_of_lt (by omega),
    Nat.mod_eq_of_lt (by omega),Nat.mod_eq_of_lt (by omega)]

theorem data_split (hl : Layout leafFormat nd.page.data ps) {o : Nat} {e : Entry}
    (hm : (o,e) ∈ ps) : slice nd.page.data o e.1.length = e.1 ∧
      slice nd.page.data (o + e.1.length) e.2.length = e.2 := by
  have hd := hl.data _ hm
  have hh := hl.high _ hm
  simp only [leafFormat,List.length_append] at hd hh
  rw [slice_append] at hd
  exact List.append_inj hd (length_slice (by omega))

theorem leafKey_eq (h : LeafPage nd es) {i : Nat} {e : Entry} (hi : es[i]? = some e) :
    nd.leafKey i = some e.1 := by
  obtain ⟨ps,hp,hl⟩ := h.layout
  obtain ⟨o,ho⟩ := SlotNode.exists_slot hp hi
  have hm := List.mem_of_getElem? ho
  have hh := hl.high _ hm
  simp only [leafFormat,List.length_append,Page.length_data] at hh
  simp only [leafKey,readLeafSlot_eq hl ho,Option.bind_eq_bind,Option.bind_some]
  rw [Page.read_eq_some _ (by rw [pageSize_eq]; omega),(data_split hl hm).1]

theorem leafValue_eq (h : LeafPage nd es) {i : Nat} {e : Entry} (hi : es[i]? = some e) :
    nd.leafValue i = some e.2 := by
  obtain ⟨ps,hp,hl⟩ := h.layout
  obtain ⟨o,ho⟩ := SlotNode.exists_slot hp hi
  have hm := List.mem_of_getElem? ho
  have hh := hl.high _ hm
  simp only [leafFormat,List.length_append,Page.length_data] at hh
  simp only [leafValue,readLeafSlot_eq hl ho,Option.bind_eq_bind,Option.bind_some]
  rw [Page.read_eq_some _ (by rw [pageSize_eq]; omega),(data_split hl hm).2]

theorem leafFindSlot_eq (h : LeafPage nd es) (hs : Sorted es) (key : Bytes) :
    nd.leafFindSlot key = some (rank key es,(find key es).isSome) := by
  rw [leafFindSlot,h.count]
  by_cases hn : es.length = 0
  · obtain rfl : es = [] := List.length_eq_zero_iff.mp hn
    rfl
  · rw [if_neg hn]
    have hprobe (i : Nat) (e : Entry) (hi : es[i]? = some e) :
        (nd.leafKey i).map (fun k => keyCmp k key) = some (keyCmp e.1 key) := by
      rw [h.leafKey_eq hi]
      rfl
    have hlt (i : Nat) (hi : i < rank key es) :
        (nd.leafKey i).map (fun k => keyCmp k key) = some .lt := by
      have hb := hi.trans_le (rank_le_length key es)
      have he := List.getElem?_eq_getElem hb
      rw [hprobe i _ he,keyCmp_lt (lt_of_getElem?_lt_rank hi he)]
    have hgt (i : Nat) (hi : i < es.length) (hk : key < es[i].1) :
        (nd.leafKey i).map (fun k => keyCmp k key) = some .gt := by
      rw [hprobe i _ (List.getElem?_eq_getElem hi),keyCmp_gt hk]
    cases hf : find key es with
    | none =>
      refine bisect_insertion le_rfl hlt (fun i h1 h2 => hgt i h2 ?_) (rank_le_length key es)
      refine drop_rank_gt hs hf _ (List.mem_of_getElem? (i := i - rank key es) ?_)
      rw [List.getElem?_drop,show rank key es + (i - rank key es) = i by omega]
      exact List.getElem?_eq_getElem h2
    | some v =>
      refine bisect_hit le_rfl hlt ?_ (fun i h1 h2 => hgt i h2 ?_) (rank_lt_of_found hs hf)
      · rw [hprobe _ _ (getElem?_rank_of_found hs hf)]
        exact congrArg some (keyCmp_self key)
      · refine gt_of_found hs hf _ (List.mem_of_getElem? (i := i - (rank key es + 1)) ?_)
        rw [List.getElem?_drop,show rank key es + 1 + (i - (rank key es + 1)) = i by omega]
        exact List.getElem?_eq_getElem h2

theorem leafDataFrontier_layout (hc : nd.numKeys = ps.length)
    (hl : Layout leafFormat nd.page.data ps) :
    nd.leafDataFrontier = some (frontier pageSize ps) := by
  rw [leafDataFrontier]
  dsimp only
  by_cases hn : nd.numKeys = 0
  · obtain rfl : ps = [] := List.length_eq_zero_iff.mp (hc ▸ hn)
    rw [if_pos hn]
    rfl
  · rw [if_neg hn]
    have hread (i : Nat) (hi : i < ps.length) : nd.readLeafSlot i =
        some ((ps[i]).1,(ps[i]).2.1.length,(ps[i]).2.2.length) :=
      readLeafSlot_eq hl (List.getElem?_eq_getElem hi)
    have h0 : 0 < ps.length := by omega
    have hlast : nd.numKeys - 1 < ps.length := by omega
    simp only [hread _ hlast,hread 0 h0,Option.bind_eq_bind,Option.bind_some]
    have hstep : ∀ i ∈ List.range' 1 (nd.numKeys - 2), ∀ low,
        ((nd.readLeafSlot i).bind fun x => some (if x.1 < low then x.1 else low)) =
          some (if (ps[i]?.getD (0,([],[]))).1 < low then (ps[i]?.getD (0,([],[]))).1
            else low) := by
      intro i hi low
      have hb : i < ps.length := by
        have := List.mem_range'_1.mp hi
        omega
      rw [hread i hb,List.getElem?_eq_getElem hb]
      rfl
    obtain ⟨m,hm,hle,hall,hor⟩ := foldlM_min _ hstep
      (if (ps[0]).1 < (ps[nd.numKeys - 1]).1 then (ps[0]).1 else (ps[nd.numKeys - 1]).1)
    rw [hm]
    have hfirst : m ≤ (ps[0]).1 := by split_ifs at hle <;> omega
    have hend : m ≤ (ps[nd.numKeys - 1]).1 := by split_ifs at hle <;> omega
    refine congrArg some (frontier_eq_of_least ?_ ?_ ?_).symm
    · rcases hor with rfl | ⟨i,hi,rfl⟩
      · split_ifs
        · exact ⟨_,List.getElem_mem h0,rfl⟩
        · exact ⟨_,List.getElem_mem hlast,rfl⟩
      · have hb : i < ps.length := by
          have := List.mem_range'_1.mp hi
          omega
        exact ⟨_,List.getElem_mem hb,by rw [List.getElem?_eq_getElem hb]; rfl⟩
    · intro p hp
      obtain ⟨i,hi,rfl⟩ := List.getElem_of_mem hp
      by_cases hz : i = 0
      · subst hz
        exact hfirst
      · by_cases he : i = nd.numKeys - 1
        · subst he
          exact hend
        · have := hall i (List.mem_range'_1.mpr (by omega))
          rwa [List.getElem?_eq_getElem hi] at this
    · have := hl.high _ (List.getElem_mem h0)
      rw [Page.length_data] at this
      rw [pageSize_eq]
      omega

theorem leafDataFrontier_eq (h : LeafPage nd es) :
    nd.leafDataFrontier = some (pageSize - leafFormat.total es) := by
  obtain ⟨ps,rfl,hl⟩ := h.layout
  have hf := hl.frontier_eq
  rw [Page.length_data] at hf
  rw [leafDataFrontier_layout (by rw [h.count,List.length_map]) hl,pageSize_eq,hf]

theorem leafCanFit_eq (h : LeafPage nd es) (key value : Bytes) : nd.leafCanFit key value =
    some (decide (26 + leafBytes es + 6 + (6 + key.length + value.length) ≤ pageSize)) := by
  have hf := h.fits
  rw [LeafFits,leafBytes_eq,pageSize_eq] at hf
  simp only [leafCanFit,leafAvailableSpace,h.leafDataFrontier_eq,Option.bind_eq_bind,
    Option.bind_some,h.count]
  refine congrArg some (decide_eq_decide.mpr ?_)
  rw [leafBytes_eq]
  split_ifs with hc <;>
    simp only [pageSize_eq,leafSlotsStart,leafSlotSize,headerSize_eq,btreeHeaderSize] at hc ⊢ <;>
    omega

end LeafPage

end StorageDb
