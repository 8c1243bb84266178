import Mathlib.Tactic
import StorageDb.Btree.LeafPage

namespace StorageDb
open Bytes SlotPage SortedAssoc

namespace LeafPage
open BTreeNode

variable {nd : BTreeNode} {es : List Entry}

theorem of_reset (nd : BTreeNode) : LeafPage (nd.reset .leaf) [] :=
  SlotNode.of_reset (by decide) (by decide) nd .leaf

theorem of_newLeaf (pid : PageId) : LeafPage (newLeaf pid) [] :=
  (((SlotNode.of_blank (by decide) _ .leaf).of_setRightSibling (by decide) _).of_setParent
    (by decide) _).of_setLevel (by decide) _

theorem recode_slot {s : Bytes} (hs : s.length = 6) :
    leBytes 2 (leNat (slice s 0 2)) ++ (leBytes 2 (leNat (slice s 2 2)) ++
      leBytes 2 (leNat (slice s 4 2))) = s := by
  match s, hs with
  | [a,b,c,d,e,f], _ =>
    exact congrArg₂ _ (leBytes_leNat [a,b]) (congrArg₂ _ (leBytes_leNat [c,d])
      (leBytes_leNat [e,f]))

theorem writeLeafSlot_eq (nd : BTreeNode) {i a b c : Nat}
    (h : leafFormat.slotOff i + 6 ≤ pageSize) :
    ∃ nd', nd.writeLeafSlot i a b c = some nd' ∧ nd'.page.id = nd.page.id ∧
      nd'.page.data = leafFormat.putSlot nd.page.data i
        (leBytes 2 a ++ (leBytes 2 b ++ leBytes 2 c)) := by
  have hb : leafSlotOffset i + (leBytes 2 a ++ (leBytes 2 b ++ leBytes 2 c)).length ≤ pageSize := h
  refine ⟨⟨nd.page.patch _ _ hb⟩,?_,rfl,rfl⟩
  simp only [writeLeafSlot,Page.write_eq_some _ hb,Option.bind_eq_bind,Option.bind_some]

theorem shiftLeafSlots_eq (nd : BTreeNode) {pos m : Nat}
    (h : leafFormat.slotOff (pos + m + 1) ≤ pageSize) :
    ∃ nd', shiftLeafSlots pos m nd = some nd' ∧ nd'.page.id = nd.page.id ∧
      nd'.page.data = leafFormat.shift pos m nd.page.data := by
  induction m generalizing nd with
  | zero => exact ⟨nd,rfl,rfl,rfl⟩
  | succ m ih =>
    rw [← Nat.add_assoc] at h
    have h1 := leafFormat.slotOff_succ (pos + m + 1)
    have h2 := leafFormat.slotOff_succ (pos + m)
    change _ = _ + 6 at h1
    change _ = _ + 6 at h2
    have hr : leafFormat.slotOff (pos + m) + 6 ≤ pageSize := by omega
    have hs : (slice nd.page.data (leafSlotOffset (pos + m)) leafSlotSize).length = 6 :=
      length_slice (by rw [Page.length_data]; exact hr)
    have hread : nd.page.read (leafSlotOffset (pos + m)) leafSlotSize =
        some (slice nd.page.data (leafSlotOffset (pos + m)) leafSlotSize) := Page.read_eq_some _ hr
    obtain ⟨nd1,hw,hi1,hd1⟩ := writeLeafSlot_eq nd (i := pos + m + 1)
      (a := leNat (slice (slice nd.page.data (leafSlotOffset (pos + m)) leafSlotSize) 0 2))
      (b := leNat (slice (slice nd.page.data (leafSlotOffset (pos + m)) leafSlotSize) 2 2))
      (c := leNat (slice (slice nd.page.data (leafSlotOffset (pos + m)) leafSlotSize) 4 2))
      (by omega)
    rw [recode_slot hs] at hd1
    obtain ⟨nd2,h2,hi2,hd2⟩ := ih nd1 (by omega)
    refine ⟨nd2,?_,hi2.trans hi1,?_⟩
    · simp only [shiftLeafSlots,readLeafSlot,hread,Option.bind_eq_bind,Option.bind_some,hw,h2]
    · rw [hd2,hd1]
      rfl

theorem leafPlace_eq (h : LeafPage nd es) {pos : Nat} (hpos : pos ≤ es.length) {key value : Bytes}
    (hf : LeafFits ((key,value) :: es)) : ∃ nd', nd.leafPlace pos key value = some nd' ∧
      LeafPage nd' (es.insertIdx pos (key,value)) ∧ nd'.header = nd.header := by
  obtain ⟨ps,rfl,hl⟩ := h.layout
  have hc : nd.numKeys = ps.length := by rw [h.count,List.length_map]
  have hfr := leafDataFrontier_layout hc hl
  have hblob : (leafFormat.blob (key,value)).length = key.length + value.length :=
    List.length_append
  rw [LeafFits,leafBytes_cons,leafBytes_eq,List.length_map] at hf
  rw [List.length_map] at hpos
  dsimp only at hf
  have hr : leafFormat.slotOff (ps.length + 1) + leafFormat.total (ps.map Prod.snd) +
      (leafFormat.blob (key,value)).length ≤ pageSize := by
    rw [Format.slotOff_eq,hblob]
    change 26 + 6 * (ps.length + 1) + _ + _ ≤ _
    omega
  have hn : ps.length + 1 < 256 ^ 2 := by
    rw [pageSize_eq] at hf
    omega
  have ht : frontier pageSize ps + _ = pageSize := nd.page.size ▸ hl.tight
  set o := frontier pageSize ps - (leafFormat.blob (key,value)).length with ho
  have hkv : ¬ frontier pageSize ps < (leafFormat.blob (key,value)).length := by omega
  have hw1 : o + key.length ≤ pageSize := by omega
  have hw2 : o + key.length + value.length ≤ pageSize := by omega
  have hend := leafFormat.slotOff_lt (show pos < ps.length + 1 by omega)
  obtain ⟨nd1,hs1,hi1,hd1⟩ := shiftLeafSlots_eq
    ⟨(nd.page.patch o key hw1).patch (o + key.length) value hw2⟩
    (show leafFormat.slotOff (pos + (ps.length - pos) + 1) ≤ pageSize by
      rw [show pos + (ps.length - pos) + 1 = ps.length + 1 by omega]
      omega)
  rw [Page.data_patch,Page.data_patch,splice_adjacent (by rw [nd.page.size]; exact hw2)] at hd1
  obtain ⟨nd2,hs2,hi2,hd2⟩ := writeLeafSlot_eq nd1 (i := pos) (a := o) (b := key.length)
    (c := value.length) (hend.trans (by omega))
  rw [hd1] at hd2
  obtain ⟨hnode,hslice⟩ := SlotNode.inserted (by decide) hl h.kind hpos hr hn hd2
  refine ⟨_,?_,hnode,header_of_slice (hi2.trans hi1) hslice⟩
  simp only [leafPlace,hfr,Option.bind_eq_bind,Option.bind_some,if_neg hkv,hc,← hblob,← ho,
    Page.write_eq_some _ hw1,Page.write_eq_some _ hw2,hs1,hs2]

theorem leafPlace_none (h : LeafPage nd es) (pos : Nat) {key value : Bytes}
    (ho : pageSize < leafFormat.total es + (key.length + value.length)) :
    nd.leafPlace pos key value = none := by
  have hf := h.fits
  rw [LeafFits,leafBytes_eq] at hf
  simp only [leafPlace,h.leafDataFrontier_eq,Option.bind_eq_bind,Option.bind_some]
  exact if_pos (by omega)

theorem leafInsertAux_absent (h : LeafPage nd es) (hs : Sorted es) {key value : Bytes}
    (hn : find key es = none) (hf : LeafFits ((key,value) :: es)) (fuel : Nat) :
    ∃ nd', leafInsertAux fuel nd key value = some (true,nd') ∧
      LeafPage nd' (upsert key value es) ∧ nd'.header = nd.header := by
  obtain ⟨nd',hp,hl,hh⟩ := h.leafPlace_eq (rank_le_length key es) hf
  rw [← upsert_eq_insertIdx hs hn] at hl
  refine ⟨nd',?_,hl,hh⟩
  rw [leafInsertAux,h.leafFindSlot_eq hs,hn]
  simp [hp]

theorem leafFill_from (fuel : BTreeNode → Nat) {ys : List Entry} (h : LeafPage nd es)
    (hs : Sorted (es ++ ys)) (hf : LeafFits (es ++ ys)) :
    ∃ nd', ys.foldlM (fun nd e => do
        let r ← leafInsertAux (fuel nd) nd e.1 e.2
        some r.2) nd = some nd' ∧ LeafPage nd' (es ++ ys) ∧ nd'.header = nd.header := by
  induction ys generalizing nd es with
  | nil => exact ⟨nd,rfl,by rwa [List.append_nil],rfl⟩
  | cons e ys ih =>
    obtain ⟨hse,-,hlt⟩ := sorted_append.mp hs
    have hlast : ∀ x ∈ es, x.1 < e.1 := fun x hx => hlt x hx e List.mem_cons_self
    have hnone : find e.1 es = none := find_eq_none.mpr (fun x hx => (hlast x hx).ne)
    have hfit : LeafFits (e :: es) := by
      rw [LeafFits,leafBytes_append,leafBytes_cons] at hf
      rw [LeafFits,leafBytes_cons]
      omega
    obtain ⟨nd1,h1,hl1,hh1⟩ := h.leafInsertAux_absent hse hnone hfit (fuel nd)
    rw [upsert_last hlast] at hl1
    obtain ⟨nd2,h2,hl2,hh2⟩ := ih hl1 (by simpa using hs) (by simpa using hf)
    refine ⟨nd2,?_,by simpa using hl2,hh2.trans hh1⟩
    rw [List.foldlM_cons,h1]
    exact h2

theorem leafFill_eq {ys : List Entry} (h : LeafPage nd []) (hs : Sorted ys) (hf : LeafFits ys) :
    ∃ nd', nd.leafFill ys = some nd' ∧ LeafPage nd' ys ∧ nd'.header = nd.header :=
  leafFill_from (fun nd => nd.numKeys + 1) h hs hf

theorem leafEntry_eq (h : LeafPage nd es) {i : Nat} {e : Entry} (hi : es[i]? = some e) :
    (do
      let k ← nd.leafKey i
      let v ← nd.leafValue i
      some (k,v)) = some e := by
  rw [h.leafKey_eq hi,h.leafValue_eq hi]
  rfl

theorem leafEntries_eq (h : LeafPage nd es) : nd.leafEntries = some es := by
  rw [leafEntries,h.count]
  exact mapM_range (fun i e hi => h.leafEntry_eq hi)

theorem leafEntriesWithout_eq (h : LeafPage nd es) (hs : Sorted es) {key v : Bytes}
    (hf : find key es = some v) : nd.leafEntriesWithout (rank key es) = some (erase key es) := by
  rw [leafEntriesWithout,h.count,erase_of_found hs hf]
  exact mapM_range_ne (fun i e hi => h.leafEntry_eq hi) (rank_lt_of_found hs hf)

theorem leafEntriesWith_eq (h : LeafPage nd es) (hs : Sorted es) {key v : Bytes}
    (hf : find key es = some v) (value : Bytes) :
    nd.leafEntriesWith (rank key es) value = some (upsert key value es) := by
  have hn : nd.numKeys = (upsert key value es).length := by
    rw [h.count,upsert_eq_set hs hf,List.length_set]
  rw [leafEntriesWith,hn]
  refine mapM_range (fun i e hi => ?_)
  rw [upsert_eq_set hs hf,List.getElem?_set] at hi
  split_ifs at hi with h1 h2
  · subst h1
    cases hi
    rw [h.leafKey_eq (getElem?_rank_of_found hs hf)]
    simp
  · rw [h.leafKey_eq hi,h.leafValue_eq hi]
    simp [Ne.symm h1]

theorem leafInsert_absent (h : LeafPage nd es) (hs : Sorted es) {key value : Bytes}
    (hn : find key es = none) (hf : LeafFits ((key,value) :: es)) :
    ∃ nd', nd.leafInsert key value = some (true,nd') ∧ LeafPage nd' (upsert key value es) ∧
      nd'.header = nd.header := h.leafInsertAux_absent hs hn hf _

theorem leafInsert_found (h : LeafPage nd es) (hs : Sorted es) {key value v : Bytes}
    (hv : find key es = some v) (hf : LeafFits (upsert key value es)) :
    ∃ nd', nd.leafInsert key value = some (false,nd') ∧ LeafPage nd' (upsert key value es) ∧
      nd'.header = nd.header := by
  obtain ⟨nd',hfill,hl,hh⟩ := leafFill_from (fun _ => nd.numKeys) (of_reset nd)
    (sorted_upsert (k := key) (v := value) hs) hf
  refine ⟨nd',?_,hl,hh.trans (header_reset nd .leaf)⟩
  rw [leafInsert,leafInsertAux,h.leafFindSlot_eq hs,hv]
  simp only [Option.bind_eq_bind,Option.bind_some,Option.isSome_some,if_true,
    h.leafEntriesWith_eq hs hv] at hfill ⊢
  rw [hfill]
  rfl

-- leaf_update does not ask leaf_can_fit: the rebuild runs out of room at its last entry.
theorem leafInsert_overflow (h : LeafPage nd es) (hs : Sorted es) {key value v : Bytes}
    (hv : find key es = some v) {xs : List Entry} {e : Entry}
    (hup : upsert key value es = xs ++ [e]) (hx : LeafFits xs)
    (ho : pageSize < leafFormat.total xs + (e.1.length + e.2.length)) :
    nd.leafInsert key value = none := by
  have hsorted : Sorted (xs ++ [e]) := hup ▸ sorted_upsert hs
  obtain ⟨hsx,-,hlt⟩ := sorted_append.mp hsorted
  obtain ⟨nd',hfill,hl,-⟩ := leafFill_from (fun _ => nd.numKeys) (of_reset nd) hsx hx
  have hnone : find e.1 xs = none :=
    find_eq_none.mpr (fun x hx => (hlt x hx e (List.mem_singleton_self e)).ne)
  have hlast : leafInsertAux nd.numKeys nd' e.1 e.2 = none := by
    rw [leafInsertAux,hl.leafFindSlot_eq hsx,List.nil_append,hnone]
    simp [hl.leafPlace_none _ ho]
  rw [leafInsert,leafInsertAux,h.leafFindSlot_eq hs,hv]
  simp only [Option.bind_eq_bind,Option.bind_some,Option.isSome_some,if_true,
    h.leafEntriesWith_eq hs hv,hup,List.foldlM_append] at hfill ⊢
  rw [hfill]
  simp [hlast]

theorem leafDelete_absent (h : LeafPage nd es) (hs : Sorted es) {key : Bytes}
    (hn : find key es = none) : nd.leafDelete key = some (none,nd) := by
  rw [leafDelete,h.leafFindSlot_eq hs,hn]
  rfl

theorem leafDelete_found (h : LeafPage nd es) (hs : Sorted es) {key v : Bytes}
    (hv : find key es = some v) : ∃ nd', nd.leafDelete key = some (some v,nd') ∧
      LeafPage nd' (erase key es) ∧ nd'.header = nd.header := by
  have hf : LeafFits (erase key es) :=
    (Nat.add_le_add_left (leafBytes_erase_le key es) _).trans h.fits
  obtain ⟨nd',hfill,hl,hh⟩ := leafFill_eq (of_reset nd) (sorted_erase hs) hf
  refine ⟨nd',?_,hl,hh.trans (header_reset nd .leaf)⟩
  rw [leafDelete,h.leafFindSlot_eq hs,hv]
  simp only [Option.bind_eq_bind,Option.bind_some,Option.isSome_some,if_true,
    h.leafValue_eq (getElem?_rank_of_found hs hv),h.leafEntriesWithout_eq hs hv,hfill]

end LeafPage

end StorageDb
