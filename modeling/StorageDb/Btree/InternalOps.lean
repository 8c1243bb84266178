import Mathlib.Tactic
import StorageDb.Btree.InternalPage

namespace StorageDb
open Bytes SlotPage SortedAssoc SepChain

namespace InternalPage
open BTreeNode

variable {nd : BTreeNode} {c : PageId} {es : List Link}

theorem of_setLeftmostChild {es : List Link} (h : SlotNode internalFormat .internal nd es)
    (c : PageId) : InternalPage (nd.setLeftmostChild c) c es where
  node := h.of_setField _ (by omega) (by decide)
  leftmost := by rw [getLeftmostChild,setLeftmostChild,Page.field_setField_same,ofNat_toNat_mod]

theorem header_setLeftmostChild (nd : BTreeNode) (c : PageId) :
    (nd.setLeftmostChild c).header = nd.header := by
  have hs : slice (nd.setLeftmostChild c).page.data 16 10 = slice nd.page.data 16 10 := by
    rw [setLeftmostChild,Page.slice_setField_disjoint _ _ (by omega)]
  exact header_of_slice rfl hs

theorem of_setField (h : InternalPage nd c es) {off len v : Nat} (hb : off + len ≤ pageSize)
    (hlo : 7 ≤ off) (hhi : off + len ≤ 26) :
    InternalPage ⟨nd.page.setField off len v hb⟩ c es where
  node := h.node.of_setField hb hlo (hhi.trans (by decide))
  leftmost := by
    rw [getLeftmostChild,Page.field_setField_disjoint _ _ (by omega)]
    exact h.leftmost

theorem of_setParent (h : InternalPage nd c es) (p : PageId) : InternalPage (nd.setParent p) c es :=
  h.of_setField _ (by omega) (by omega)

theorem of_updateChecksum (h : InternalPage nd c es) :
    InternalPage ⟨nd.page.updateChecksum⟩ c es :=
  h.of_setField (by decide) (by omega) (by omega)

theorem of_newInternal (pid c : PageId) :
    InternalPage ((newInternal pid).setLeftmostChild c) c [] :=
  of_setLeftmostChild ((((SlotNode.of_blank (by decide) _ .internal).of_setRightSibling
    (by decide) _).of_setParent (by decide) _).of_setLevel (by decide) _) c

theorem recode_slot {s : Bytes} (hs : s.length = 8) :
    leBytes 2 (leNat (slice s 0 2)) ++ (leBytes 2 (leNat (slice s 2 2)) ++
      leBytes 4 (UInt32.ofNat (leNat (slice s 4 4))).toNat) = s := by
  match s, hs with
  | [a,b,c,d,e,f,g,h], _ =>
    have hlt : leNat [e,f,g,h] < 2 ^ 32 := (leNat_lt [e,f,g,h]).trans_eq (by norm_num)
    have h4 : leBytes 4 (UInt32.ofNat (leNat [e,f,g,h])).toNat = [e,f,g,h] := by
      rw [UInt32.toNat_ofNat_of_lt' hlt]
      exact leBytes_leNat [e,f,g,h]
    exact congrArg₂ _ (leBytes_leNat [a,b]) (congrArg₂ _ (leBytes_leNat [c,d]) h4)

theorem writeInternalSlot_eq (nd : BTreeNode) {i a b : Nat} {p : PageId}
    (h : internalFormat.slotOff i + 8 ≤ pageSize) :
    ∃ nd', nd.writeInternalSlot i a b p = some nd' ∧ nd'.page.id = nd.page.id ∧
      nd'.page.data = internalFormat.putSlot nd.page.data i
        (leBytes 2 a ++ (leBytes 2 b ++ leBytes 4 p.toNat)) := by
  have hb : internalSlotOffset i + (leBytes 2 a ++ (leBytes 2 b ++ leBytes 4 p.toNat)).length ≤
      pageSize := h
  refine ⟨⟨nd.page.patch _ _ hb⟩,?_,rfl,rfl⟩
  simp only [writeInternalSlot,Page.write_eq_some _ hb,Option.bind_eq_bind,Option.bind_some]

theorem shiftInternalSlots_eq (nd : BTreeNode) {pos m : Nat}
    (h : internalFormat.slotOff (pos + m + 1) ≤ pageSize) :
    ∃ nd', shiftInternalSlots pos m nd = some nd' ∧ nd'.page.id = nd.page.id ∧
      nd'.page.data = internalFormat.shift pos m nd.page.data := by
  induction m generalizing nd with
  | zero => exact ⟨nd,rfl,rfl,rfl⟩
  | succ m ih =>
    rw [← Nat.add_assoc] at h
    have h1 : _ = _ + 8 := internalFormat.slotOff_succ (pos + m + 1)
    have h2 : _ = _ + 8 := internalFormat.slotOff_succ (pos + m)
    have hr : internalFormat.slotOff (pos + m) + 8 ≤ pageSize := by omega
    set s := slice nd.page.data (internalSlotOffset (pos + m)) internalSlotSize with hdef
    have hs : s.length = 8 := length_slice (by rw [Page.length_data]; exact hr)
    have hread : nd.page.read (internalSlotOffset (pos + m)) internalSlotSize = some s :=
      Page.read_eq_some _ hr
    obtain ⟨nd1,hw,hi1,hd1⟩ := writeInternalSlot_eq nd (i := pos + m + 1)
      (a := leNat (slice s 0 2)) (b := leNat (slice s 2 2))
      (p := UInt32.ofNat (leNat (slice s 4 4))) (by omega)
    rw [recode_slot hs] at hd1
    obtain ⟨nd2,h2,hi2,hd2⟩ := ih nd1 (by omega)
    refine ⟨nd2,?_,hi2.trans hi1,?_⟩
    · simp only [shiftInternalSlots,readInternalSlot,hread,Option.bind_eq_bind,Option.bind_some,
        hw,h2]
    · rw [hd2,hd1]
      rfl

theorem internalInsert_eq (h : InternalPage nd c es) (hs : Sorted es) {key : Bytes} {p : PageId}
    (hf : InternalFits ((key,p) :: es)) : ∃ nd', nd.internalInsert key p = some nd' ∧
      InternalPage nd' c (es.insertIdx (reach key es) (key,p)) ∧ nd'.header = nd.header := by
  have hsearch := h.internalSearch_eq hs key
  have hpos := reach_le_length key es
  set pos := reach key es with hposdef
  clear_value pos
  clear hs
  obtain ⟨ps,rfl,hl⟩ := h.node.layout
  have hc : nd.numKeys = ps.length := by rw [h.node.count,List.length_map]
  have hfr := internalDataFrontier_layout hc hl
  rw [InternalFits,internalBytes_cons,internalBytes_eq,List.length_map] at hf
  rw [List.length_map] at hpos
  dsimp only at hf
  have hr : internalFormat.slotOff (ps.length + 1) + internalFormat.total (ps.map Prod.snd) +
      (internalFormat.blob (key,p)).length ≤ pageSize := by
    rw [Format.slotOff_eq]
    change 30 + 8 * (ps.length + 1) + _ + key.length ≤ _
    omega
  have hn : ps.length + 1 < 256 ^ 2 := by
    rw [pageSize_eq] at hf
    omega
  have ht : frontier pageSize ps + _ = pageSize := nd.page.size ▸ hl.tight
  have hblob : (internalFormat.blob (key,p)).length = key.length := rfl
  set o := frontier pageSize ps - key.length with ho
  have hkv : ¬ frontier pageSize ps < key.length := by omega
  have hw : o + key.length ≤ pageSize := by omega
  have hend := internalFormat.slotOff_lt (show pos < ps.length + 1 by omega)
  obtain ⟨nd1,hs1,hi1,hd1⟩ := shiftInternalSlots_eq ⟨nd.page.patch o key hw⟩
    (show internalFormat.slotOff (pos + (ps.length - pos) + 1) ≤ pageSize by
      rw [show pos + (ps.length - pos) + 1 = ps.length + 1 by omega]
      omega)
  obtain ⟨nd2,hs2,hi2,hd2⟩ := writeInternalSlot_eq nd1 (i := pos) (a := o)
    (b := key.length) (p := p) (hend.trans (by omega))
  rw [hd1] at hd2
  obtain ⟨hnode,hslice⟩ := SlotNode.inserted (by decide) hl h.node.kind hpos hr hn hd2
  refine ⟨_,?_,⟨hnode,?_⟩,header_of_slice (hi2.trans hi1) ?_⟩
  · simp only [internalInsert,hsearch,hfr,Option.bind_eq_bind,Option.bind_some,if_neg hkv,hc,← ho,
      Page.write_eq_some _ hw,hs1,hs2]
  · rw [← h.leftmost,getLeftmostChild,getLeftmostChild,Page.field,Page.field]
    have := congrArg (fun b => slice b 10 4) hslice
    rw [slice_slice (by decide),slice_slice (by decide)] at this
    rw [this]
  · have := congrArg (fun b => slice b 0 10) hslice
    rwa [slice_slice (by decide),slice_slice (by decide)] at this

theorem internalEntries_eq (h : InternalPage nd c es) : nd.internalEntries = some (c,es) := by
  have hm : (List.range nd.numKeys).mapM (fun i => (nd.readInternalSlot i).bind fun slot =>
      (nd.internalKey i).bind fun k => some (k,slot.2.2)) = some es := by
    rw [h.node.count]
    refine mapM_range (fun i e hi => ?_)
    obtain ⟨ps,hp,hl⟩ := h.node.layout
    obtain ⟨o,ho⟩ := SlotNode.exists_slot hp hi
    rw [readInternalSlot_eq hl ho,h.internalKey_eq hi]
    rfl
  rw [internalEntries]
  change ((List.range nd.numKeys).mapM (fun i => (nd.readInternalSlot i).bind fun slot =>
    (nd.internalKey i).bind fun k => some (k,slot.2.2))).bind _ = _
  rw [hm,h.leftmost]
  rfl

theorem reach_last {xs : List Link} {key : Bytes} (h : ∀ x ∈ xs, x.1 < key) :
    reach key xs = xs.length := by
  induction xs with
  | nil => rfl
  | cons x xs ih =>
    rw [reach,if_neg (h x List.mem_cons_self).not_gt,
      ih (fun y hy => h y (List.mem_cons_of_mem _ hy)),List.length_cons]

theorem internalFill_eq {ys : List Link} (h : InternalPage nd c es) (hs : Sorted (es ++ ys))
    (hf : InternalFits (es ++ ys)) : ∃ nd', nd.internalFill ys = some nd' ∧
      InternalPage nd' c (es ++ ys) ∧ nd'.header = nd.header := by
  induction ys generalizing nd es with
  | nil => exact ⟨nd,rfl,by rwa [List.append_nil],rfl⟩
  | cons e ys ih =>
    obtain ⟨hse,-,hlt⟩ := sorted_append.mp hs
    have hfit : InternalFits (e :: es) := by
      rw [InternalFits,internalBytes_append,internalBytes_cons] at hf
      rw [InternalFits,internalBytes_cons]
      omega
    obtain ⟨nd1,h1,hl1,hh1⟩ := h.internalInsert_eq hse (p := e.2) hfit
    rw [reach_last (fun x hx => hlt x hx e List.mem_cons_self),List.insertIdx_length_self] at hl1
    obtain ⟨nd2,h2,hl2,hh2⟩ := ih hl1 (by simpa using hs) (by simpa using hf)
    refine ⟨nd2,?_,by simpa using hl2,hh2.trans hh1⟩
    rw [internalFill,List.foldlM_cons,h1]
    exact h2

theorem internalRebuild_eq (nd : BTreeNode) (c : PageId) {es : List Link} (hs : Sorted es)
    (hf : InternalFits es) : ∃ nd', nd.internalRebuild c es = some nd' ∧ InternalPage nd' c es ∧
      nd'.header = nd.header := by
  have h0 := of_setLeftmostChild (SlotNode.of_reset (by decide) (by decide) nd .internal) c
  obtain ⟨nd',h1,h2,h3⟩ := h0.internalFill_eq hs hf
  exact ⟨nd',h1,h2,h3.trans ((header_setLeftmostChild _ c).trans (header_reset nd .internal))⟩

end InternalPage

end StorageDb
