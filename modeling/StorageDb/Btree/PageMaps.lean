import Mathlib.Tactic
import StorageDb.Btree.LeafOps
import StorageDb.Btree.InternalOps

namespace StorageDb
open SlotPage SortedAssoc SepChain BTreeNode

-- Leaf pages built from new_leaf by leaf_insert of absent keys that leaf_can_fit accepts and by
-- leaf_delete.
inductive LeafReach (pid : PageId) : BTreeNode → Prop where
  | new : LeafReach pid (newLeaf pid)
  | insert {nd nd' : BTreeNode} {key value : Bytes} {i : Nat} {b : Bool} : LeafReach pid nd →
      nd.leafFindSlot key = some (i,false) → nd.leafCanFit key value = some true →
      nd.leafInsert key value = some (b,nd') → LeafReach pid nd'
  | delete {nd nd' : BTreeNode} {key : Bytes} {old : Option Bytes} : LeafReach pid nd →
      nd.leafDelete key = some (old,nd') → LeafReach pid nd'

structure DataApart (nd : BTreeNode) : Prop where
  inside : ∀ i < nd.numKeys, ∃ off keyLen valLen, nd.readLeafSlot i = some (off,keyLen,valLen) ∧
    leafSlotOffset nd.numKeys ≤ off ∧ off + keyLen + valLen ≤ pageSize
  apart : ∀ (i j : Nat) (a b : Nat × Nat × Nat), i < j → j < nd.numKeys →
    nd.readLeafSlot i = some a → nd.readLeafSlot j = some b →
    a.1 + a.2.1 + a.2.2 ≤ b.1 ∨ b.1 + b.2.1 + b.2.2 ≤ a.1

structure LeafMap (nd : BTreeNode) (es : List Entry) : Prop where
  entries : nd.leafEntries = some es
  sorted : Sorted es
  data : DataApart nd
  frontier : nd.leafDataFrontier =
    some (pageSize - (es.map (fun e => e.1.length + e.2.length)).sum)
  findSlot : ∀ key, nd.leafFindSlot key =
    some (es.countP (fun e => e.1 < key),es.any (fun e => e.1 = key))
  insert : ∀ key value, (∀ e ∈ es, e.1 ≠ key) → nd.leafCanFit key value = some true →
    ∃ nd', nd.leafInsert key value = some (true,nd') ∧ nd'.header = nd.header ∧
      nd'.leafEntries = some (es.filter (fun e => e.1 < key) ++
        (key,value) :: es.filter (fun e => key < e.1))
  delete : ∀ key, ∃ nd', nd.leafDelete key = some (find key es,nd') ∧ nd'.header = nd.header ∧
    nd'.leafEntries = some (es.filter (fun e => e.1 ≠ key))

namespace LeafPage

variable {nd : BTreeNode} {es : List Entry}

theorem dataApart (h : LeafPage nd es) : DataApart nd := by
  obtain ⟨ps,hp,hl⟩ := h.layout
  have hc : nd.numKeys = ps.length := by rw [h.count,← hp,List.length_map]
  have hread (i : Nat) (hi : i < ps.length) : nd.readLeafSlot i =
      some ((ps[i]).1,(ps[i]).2.1.length,(ps[i]).2.2.length) :=
    readLeafSlot_eq hl (List.getElem?_eq_getElem hi)
  have hblob (e : Entry) : (leafFormat.blob e).length = e.1.length + e.2.length :=
    List.length_append
  constructor
  · intro i hi
    rw [hc] at hi
    have hlow := frontier_le_of_mem (n := nd.page.data.length) (List.getElem_mem hi)
    have hhigh := hl.high _ (List.getElem_mem hi)
    have ht := hl.tight
    have hr := hl.room
    rw [hblob,Page.length_data] at hhigh
    rw [Page.length_data] at hlow ht hr
    refine ⟨_,_,_,hread i hi,?_,?_⟩
    · rw [hc]
      change leafFormat.slotOff ps.length ≤ _
      omega
    · rw [pageSize_eq]
      omega
  · intro i j a b hij hj ha hb
    rw [hc] at hj
    rw [hread i (hij.trans hj)] at ha
    rw [hread j hj] at hb
    cases ha
    cases hb
    have := List.pairwise_iff_getElem.mp hl.apart i j (hij.trans hj) hj hij
    simp only [hblob] at this
    dsimp only
    omega

theorem leafMap (h : LeafPage nd es) (hs : Sorted es) : LeafMap nd es := by
  have htotal : leafFormat.total es = (es.map (fun e => e.1.length + e.2.length)).sum := by
    rw [Format.total]
    exact congrArg List.sum (List.map_congr_left fun e _ => List.length_append)
  refine ⟨h.leafEntries_eq,hs,h.dataApart,?_,fun key => ?_,fun key value hn hc => ?_,fun key => ?_⟩
  · rw [h.leafDataFrontier_eq,htotal]
  · have hany : (find key es).isSome = es.any (fun e => e.1 = key) := by
      rw [Bool.eq_iff_iff,List.any_eq_true,Option.isSome_iff_ne_none,ne_eq,find_eq_none]
      simp
    have hcount : rank key es = es.countP (fun e => e.1 < key) :=
      (rank_eq_countP hs).trans (List.countP_congr fun e _ => by simp)
    rw [h.leafFindSlot_eq hs,hcount,hany]
  · have hnone := find_eq_none.mpr hn
    rw [h.leafCanFit_eq] at hc
    have hc := of_decide_eq_true (Option.some.inj hc)
    have hf : LeafFits ((key,value) :: es) := by
      rw [LeafFits,leafBytes_cons]
      dsimp only
      omega
    obtain ⟨nd',hins,hp,hh⟩ := h.leafInsert_absent hs hnone hf
    refine ⟨nd',hins,hh,?_⟩
    rw [hp.leafEntries_eq,upsert_of_absent hs hnone,take_rank_eq_filter hs,
      drop_rank_eq_filter hs hnone]
    congr!
  · have herase : erase key es = es.filter (fun e => e.1 ≠ key) :=
      List.filter_congr fun e _ => by simp
    rw [← herase]
    cases hf : find key es with
    | none =>
      refine ⟨nd,h.leafDelete_absent hs hf,rfl,?_⟩
      rw [h.leafEntries_eq,erase_of_not_mem (find_eq_none.mp hf)]
    | some v =>
      obtain ⟨nd',hdel,hp,hh⟩ := h.leafDelete_found hs hf
      exact ⟨nd',hdel,hh,hp.leafEntries_eq⟩

end LeafPage

section leafReach

variable {pid : PageId} {nd nd' : BTreeNode} {es : List Entry}

theorem LeafReach.insert_next (key value : Bytes) (h : LeafReach pid nd) (hp : LeafPage nd es)
    (hs : Sorted es) (hn : find key es = none)
    (hr : 26 + leafBytes es + 6 + (6 + key.length + value.length) ≤ pageSize) :
    ∃ nd', nd.leafInsert key value = some (true,nd') ∧ LeafReach pid nd' ∧
      LeafPage nd' (upsert key value es) ∧ nd'.header = nd.header := by
  have hf : LeafFits ((key,value) :: es) := by
    rw [LeafFits,leafBytes_cons]
    dsimp only
    omega
  obtain ⟨nd',hins,hp',hh⟩ := hp.leafInsert_absent hs hn hf
  refine ⟨nd',hins,.insert h (i := rank key es) ?_ ?_ hins,hp',hh⟩
  · rw [hp.leafFindSlot_eq hs,hn]
    rfl
  · rw [hp.leafCanFit_eq,decide_eq_true hr]

theorem LeafReach.delete_next (h : LeafReach pid nd) (hp : LeafPage nd es) (hs : Sorted es)
    (key : Bytes) : ∃ nd', nd.leafDelete key = some (find key es,nd') ∧ LeafReach pid nd' ∧
      LeafPage nd' (erase key es) ∧ nd'.header = nd.header := by
  cases hf : find key es with
  | none =>
    have hdel := hp.leafDelete_absent hs hf
    refine ⟨nd,hdel,.delete h hdel,?_,rfl⟩
    rwa [erase_of_not_mem (find_eq_none.mp hf)]
  | some v =>
    obtain ⟨nd',hdel,hp',hh⟩ := hp.leafDelete_found hs hf
    exact ⟨nd',hdel,.delete h hdel,hp',hh⟩

theorem LeafReach.page (h : LeafReach pid nd) :
    ∃ es, LeafPage nd es ∧ Sorted es ∧ nd.header = ⟨pid,invalidPageId,invalidPageId,0⟩ := by
  induction h with
  | new => exact ⟨[],LeafPage.of_newLeaf pid,sorted_nil,header_newLeaf pid⟩
  | insert h hslot hfit hins ih =>
    rename_i key value i b
    obtain ⟨es,hp,hs,hh⟩ := ih
    rw [hp.leafFindSlot_eq hs] at hslot
    have hnone : find key es = none := by
      have := congrArg Prod.snd (Option.some.inj hslot)
      simpa using this
    rw [hp.leafCanFit_eq] at hfit
    obtain ⟨nd1,hins1,-,hp1,hh1⟩ :=
      h.insert_next key value hp hs hnone (of_decide_eq_true (Option.some.inj hfit))
    rw [hins1] at hins
    cases hins
    exact ⟨_,hp1,sorted_upsert hs,hh1.trans hh⟩
  | delete h hdel ih =>
    rename_i key _
    obtain ⟨es,hp,hs,hh⟩ := ih
    obtain ⟨nd1,hdel1,-,hp1,hh1⟩ := h.delete_next hp hs key
    rw [hdel1] at hdel
    cases hdel
    exact ⟨_,hp1,sorted_erase hs,hh1.trans hh⟩

end leafReach

theorem leaf_page_sorted_map {pid : PageId} {nd : BTreeNode} (h : LeafReach pid nd) :
    (∃ es, LeafMap nd es) ∧ nd.header = ⟨pid,invalidPageId,invalidPageId,0⟩ := by
  obtain ⟨es,hp,hs,hh⟩ := h.page
  exact ⟨⟨es,hp.leafMap hs⟩,hh⟩

theorem leaf_page_sorted_map_mixed : ∃ n₁ n₂ n₃ n₄,
    (newLeaf 0).leafInsert [5] [50] = some (true,n₁) ∧
      n₁.leafInsert [1] [10,11] = some (true,n₂) ∧ n₂.leafInsert [3] [] = some (true,n₃) ∧
      n₃.leafDelete [5] = some (some [50],n₄) ∧
      n₄.leafEntries = some [([1],[10,11]),([3],[])] ∧ (∃ es, LeafMap n₄ es) ∧
      n₄.header = ⟨0,invalidPageId,invalidPageId,0⟩ := by
  have hp := LeafPage.of_newLeaf 0
  obtain ⟨n₁,h₁,hr₁,hp₁,-⟩ :=
    LeafReach.new.insert_next [5] [50] hp sorted_nil rfl (by decide)
  have hs₁ : Sorted (upsert [5] [50] ([] : List Entry)) := sorted_upsert sorted_nil
  obtain ⟨n₂,h₂,hr₂,hp₂,-⟩ :=
    hr₁.insert_next [1] [10,11] hp₁ hs₁ (by decide) (by decide)
  obtain ⟨n₃,h₃,hr₃,hp₃,-⟩ :=
    hr₂.insert_next [3] [] hp₂ (sorted_upsert hs₁) (by decide) (by decide)
  have hs₃ := sorted_upsert (k := [3]) (v := []) (sorted_upsert (k := [1]) (v := [10,11]) hs₁)
  obtain ⟨n₄,h₄,hr₄,hp₄,-⟩ := hr₃.delete_next hp₃ hs₃ [5]
  exact ⟨n₁,n₂,n₃,n₄,h₁,h₂,h₃,h₄,hp₄.leafEntries_eq,leaf_page_sorted_map hr₄⟩

-- Internal pages built from new_internal by internal_insert of distinct keys that internal_can_fit
-- accepts; ins lists the pairs inserted so far.
inductive InternalReach (pid c : PageId) : List Link → BTreeNode → Prop where
  | new : InternalReach pid c [] ((newInternal pid).setLeftmostChild c)
  | insert {ins : List Link} {nd nd' : BTreeNode} {key : Bytes} {child : PageId} :
      InternalReach pid c ins nd → (∀ e ∈ ins, e.1 ≠ key) → nd.internalCanFit key = some true →
      nd.internalInsert key child = some nd' → InternalReach pid c ((key,child) :: ins) nd'

structure RoutingPage (nd : BTreeNode) (c : PageId) (ins : List Link) : Prop where
  entries : ∃ es, nd.internalEntries = some (c,es) ∧ Sorted es ∧ es.Perm ins
  findChild : ∀ key, nd.internalFindChild key = some (ins.countP (fun e => e.1 ≤ key))
  insert : ∀ key child, (∀ e ∈ ins, e.1 ≠ key) → nd.internalCanFit key = some true →
    (nd.internalInsert key child).isSome

namespace InternalPage

variable {nd : BTreeNode} {c : PageId} {es : List Link}

theorem internalInsert_fresh (h : InternalPage nd c es) (hs : Sorted es) {key : Bytes}
    (child : PageId) (hn : ∀ e ∈ es, e.1 ≠ key) (hc : nd.internalCanFit key = some true) :
    ∃ nd', nd.internalInsert key child = some nd' ∧ InternalPage nd' c (upsert key child es) ∧
      (upsert key child es).Perm ((key,child) :: es) := by
  rw [h.internalCanFit_eq] at hc
  have hc := of_decide_eq_true (Option.some.inj hc)
  have hf : InternalFits ((key,child) :: es) := by
    rw [InternalFits,internalBytes_cons]
    dsimp only
    omega
  obtain ⟨nd',hins,hp,-⟩ := h.internalInsert_eq hs hf
  rw [reach_eq_rank hs hn,← upsert_eq_insertIdx hs (find_eq_none.mpr hn)] at hp
  exact ⟨nd',hins,hp,perm_upsert_of_absent child hs (find_eq_none.mpr hn)⟩

theorem routingPage {ins : List Link} (h : InternalPage nd c es) (hs : Sorted es)
    (hp : es.Perm ins) : RoutingPage nd c ins := by
  refine ⟨⟨es,h.internalEntries_eq,hs,hp⟩,fun key => ?_,fun key child hn hc => ?_⟩
  · rw [h.internalFindChild_eq hs,reach_eq_countP hs,hp.countP_eq]
  · obtain ⟨nd',hins,-,-⟩ := h.internalInsert_fresh hs child (fun e he => hn e (hp.subset he)) hc
    rw [hins]
    rfl

end InternalPage

theorem InternalReach.page {pid c : PageId} {ins : List Link} {nd : BTreeNode}
    (h : InternalReach pid c ins nd) : ∃ es, InternalPage nd c es ∧ Sorted es ∧ es.Perm ins := by
  induction h with
  | new => exact ⟨[],InternalPage.of_newInternal pid c,sorted_nil,List.Perm.nil⟩
  | insert _ hn hc hins ih =>
    rename_i child _
    obtain ⟨es,hp,hs,hperm⟩ := ih
    obtain ⟨nd1,hins1,hp1,hperm1⟩ :=
      hp.internalInsert_fresh hs child (fun e he => hn e (hperm.subset he)) hc
    rw [hins1] at hins
    cases hins
    exact ⟨_,hp1,sorted_upsert hs,hperm1.trans (hperm.cons _)⟩

theorem internal_page_routing_list :
    (∀ {pid c : PageId} {ins : List Link} {nd : BTreeNode}, InternalReach pid c ins nd →
      RoutingPage nd c ins) ∧
    ∀ (nd : BTreeNode) (c : PageId) (es : List Link), Sorted es → InternalFits es →
      ∃ nd', nd.internalRebuild c es = some nd' ∧ nd'.internalEntries = some (c,es) ∧
        nd'.header = nd.header := by
  constructor
  · intro pid c ins nd h
    obtain ⟨es,hp,hs,hperm⟩ := h.page
    exact hp.routingPage hs hperm
  · intro nd c es hs hf
    obtain ⟨nd',hreb,hp,hh⟩ := InternalPage.internalRebuild_eq nd c hs hf
    exact ⟨nd',hreb,hp.internalEntries_eq,hh⟩

theorem internal_page_routing_list_mixed :
    (∃ n₁ n₂ n₃, ((newInternal 0).setLeftmostChild 1).internalInsert [5] 2 = some n₁ ∧
      n₁.internalInsert [1] 3 = some n₂ ∧ n₂.internalInsert [3,4] 4 = some n₃ ∧
      RoutingPage n₃ 1 [([3,4],4),([1],3),([5],2)]) ∧
    ∃ nd', (newInternal 0).internalRebuild 1 [([1],3),([3,4],4),([5],2)] = some nd' ∧
      nd'.internalEntries = some (1,[([1],3),([3,4],4),([5],2)]) ∧
      nd'.header = (newInternal 0).header := by
  have hp := InternalPage.of_newInternal 0 1
  have hc : ((newInternal 0).setLeftmostChild 1).internalCanFit [5] = some true := by
    rw [hp.internalCanFit_eq]
    decide
  obtain ⟨n₁,h₁,hp₁,-⟩ := hp.internalInsert_fresh sorted_nil 2 nofun hc
  have hs₁ : Sorted (upsert [5] 2 ([] : List Link)) := sorted_upsert sorted_nil
  have hc₁ : n₁.internalCanFit [1] = some true := by
    rw [hp₁.internalCanFit_eq]
    decide
  obtain ⟨n₂,h₂,hp₂,-⟩ := hp₁.internalInsert_fresh hs₁ 3 (by decide) hc₁
  have hc₂ : n₂.internalCanFit [3,4] = some true := by
    rw [hp₂.internalCanFit_eq]
    decide
  obtain ⟨n₃,h₃,-,-⟩ := hp₂.internalInsert_fresh (sorted_upsert hs₁) 4 (by decide) hc₂
  have hr₂ := (InternalReach.new.insert nofun hc h₁).insert (by decide) hc₁ h₂
  exact ⟨⟨n₁,n₂,n₃,h₁,h₂,h₃,internal_page_routing_list.1 (hr₂.insert (by decide) hc₂ h₃)⟩,
    internal_page_routing_list.2 _ 1 _ (by decide) (by decide)⟩

end StorageDb
