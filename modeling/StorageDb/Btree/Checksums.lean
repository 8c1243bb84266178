import Mathlib.Tactic
import StorageDb.Disk.Crc32
import StorageDb.Btree.Height

namespace StorageDb
open Prog

namespace Page
open Bytes

theorem drop_setField (p : Page) {off len v n : Nat} (h : off + len ≤ pageSize)
    (hn : off + len ≤ n) :
    (p.setField off len v h).data.drop n = p.data.drop n := by
  have hle : off + (leBytes len v).length ≤ p.data.length := by
    rw [length_leBytes,p.size]
    exact h
  apply List.ext_getElem?
  intro i
  rw [List.getElem?_drop,List.getElem?_drop,setField,data_patch,getElem?_splice hle,length_leBytes]
  split_ifs with h1 h2
  · rfl
  · omega
  · rfl

theorem verifyChecksum_updateChecksum (p : Page) : p.updateChecksum.verifyChecksum = true := by
  have hcompute : p.updateChecksum.computeChecksum = p.computeChecksum := by
    rw [computeChecksum,updateChecksum,setChecksum,drop_setField p _ (by decide)]
    rfl
  have hget : p.updateChecksum.getChecksum = p.computeChecksum := by
    rw [getChecksum,updateChecksum,setChecksum,field_setField_same]
    have hlt := p.computeChecksum.toNat_lt
    rw [Nat.mod_eq_of_lt (by omega),UInt32.ofNat_toNat]
  rw [verifyChecksum,hget,hcompute,beq_self_eq_true]

theorem getPageType_new (id : PageId) : (new id).getPageType = .invalid := by
  rw [getPageType,new,setFreeOffset,field_setField_disjoint _ _ (by omega),setNumSlots,
    field_setField_disjoint _ _ (by omega),setPageType,field_setField_same]
  rfl

end Page

namespace FlatStore

variable {base : Nat} {s : FlatStore}

def SealedFrom (base : Nat) (s : FlatStore) : Prop :=
  ∀ q pg, base ≤ q.toNat → s.pages q = some pg → pg.verifyChecksum = true ∨ pg = Page.new q

theorem SealedFrom.put (h : SealedFrom base s) (nd : BTreeNode) :
    SealedFrom base (s.put nd.sealed.page) := by
  intro q pg hq hp
  change Function.update s.pages nd.sealed.page.id (some nd.sealed.page) q = some pg at hp
  rw [Function.update_apply] at hp
  split_ifs at hp
  · cases hp
    exact Or.inl nd.page.verifyChecksum_updateChecksum
  · exact h q pg hq hp

theorem SealedFrom.grow (h : SealedFrom base s) : SealedFrom base s.grow := by
  intro q pg hq hp
  change Function.update s.pages (UInt32.ofNat s.next) _ q = some pg at hp
  rw [Function.update_apply] at hp
  split_ifs at hp with hnew
  · cases hp
    exact Or.inr (congrArg Page.new hnew.symm)
  · exact h q pg hq hp

theorem sealed_congruence (base : Nat) : StoreCongruence
    fun (α : Type) (m _ : Prog Error FlatStore α) =>
    Preserves (SealedFrom base) m := by
  refine ⟨⟨preserves_congruence,fun pid s h => ?_⟩,fun nd s h => ?_,fun s h => ?_⟩
  · change SealedFrom base (readNode pid s).2
    rw [readNode]
    cases s.pages pid <;> exact h
  · change SealedFrom base (writeNode nd s).2
    rw [writeNode]
    cases s.pages nd.page.id with
    | none => exact h
    | some pg => exact h.put nd
  · change SealedFrom base (allocatePage s).2
    rw [allocatePage]
    split_ifs
    · exact h.grow
    · exact h

end FlatStore

namespace Shape

variable {n : Nat} {pages : Pages}

theorem Stored.typed {t : Shape n} (h : Stored pages n t) :
    ∀ q ∈ ids n t, ∃ pg, pages q = some pg ∧ pg.getPageType ≠ .invalid := by
  induction n with
  | zero =>
    obtain ⟨nd,hl⟩ := h
    intro q hq
    obtain rfl := List.mem_singleton.mp hq
    refine ⟨nd.page,hl.page,?_⟩
    rw [hl.layout.kind]
    exact fun e => by cases e
  | succ n ih =>
    obtain ⟨⟨nd,hb⟩,hkids⟩ := h
    intro q hq
    rcases List.mem_cons.mp hq with rfl | hq
    · refine ⟨nd.page,hb.page,?_⟩
      rw [hb.layout.node.kind]
      exact fun e => by cases e
    · obtain ⟨c,hc,hq⟩ := List.mem_flatMap.mp hq
      exact ih (hkids c hc) q hq

end Shape

theorem Shape.fresh_of_between {a b : Nat} {q : PageId} (ha : a ≤ q.toNat) (hb : q.toNat < b) :
    q ∈ Shape.fresh a b := by
  refine List.mem_map.mpr ⟨q.toNat,?_,UInt32.ofNat_toNat⟩
  rw [List.mem_range'_1]
  omega

theorem TreeAt.verifies {s : FlatStore} {tree : BPlusTree} {t : RootedTree} {base : Nat}
    (h : TreeAt s tree t) (hc : t.Compact base) (hs : s.SealedFrom base) {q : PageId}
    (ha : base ≤ q.toNat) (hb : q.toNat < s.next) :
    ∃ pg, s.pages q = some pg ∧ pg.verifyChecksum = true := by
  rw [h.next] at hb
  have hmem : q ∈ Shape.ids t.depth t.shape := hc.pages.mem_iff.mpr (Shape.fresh_of_between ha hb)
  obtain ⟨pg,hp,htype⟩ := h.stored.typed q hmem
  refine ⟨pg,hp,(hs q pg ha hp).resolve_right ?_⟩
  rintro rfl
  exact htype (Page.getPageType_new q)

namespace BPlusTree
open BufferPoolManager

theorem flushed_pages_verify {disk : DiskManager} {capacity : Nat} {ops : List TreeOp}
    (hd : disk.Healthy) (hc : 1 ≤ capacity) (hn : disk.numPages.toNat < invalidPageId.toNat)
    (hl : ∀ op ∈ ops, op.InLimits)
    (hs : RootedTree.Along RootedTree.Safe ops (RootedTree.single disk.numPages)) :
    ∃ rs tree p1 p2, (create >>= run 12 ops) (new disk capacity) = (.ok (rs,tree),p1) ∧
      flushAll p1 = (.ok (),p2) ∧
      ∀ q : PageId, disk.numPages.toNat ≤ q.toNat → q.toNat < p2.disk.numPages.toNat →
        ∃ pg, p2.disk.pageAt q = some pg ∧ pg.verifyChecksum = true ∧
          ∀ off (pg' : Page), LocalChange (16 + off) pg.data pg'.data →
            pg'.verifyChecksum = false := by
  obtain ⟨hq,hlook⟩ := quiet_new hd hc
  obtain ⟨p0,hcreate,hq0,hflat⟩ := hq.create_eq hn
  have hat : TreeAt p0.flat ⟨disk.numPages⟩ (RootedTree.single disk.numPages) := by
    rw [hflat]
    exact TreeAt.single rfl hn
  have hsealed : p0.flat.SealedFrom disk.numPages.toNat := by
    rw [hflat]
    refine FlatStore.SealedFrom.put (FlatStore.SealedFrom.grow fun q pg hge hp => ?_) _
    have hsome : (disk.pageAt q).isSome = true := by
      rw [← hlook]
      exact Option.isSome_iff_exists.mpr ⟨pg,hp⟩
    exact absurd (hd.pageAt_isSome.mp hsome) hge.not_gt
  obtain ⟨tree,s',t,hrun,hat',hcomp,-⟩ := hat.run_compact (RootedTree.compact_single _) hl hs
  have hsealed' : s'.SealedFrom disk.numPages.toNat := by
    have h := congr_run (FlatStore.sealed_congruence disk.numPages.toNat) 12 ops
      ⟨disk.numPages⟩ _ hsealed
    rwa [hrun] at h
  obtain ⟨p1,hrun',hq1,rfl⟩ := (congr_run models_refines 12 ops _).of_ok ⟨hq0,rfl⟩ hrun
  obtain ⟨p2,hflush,-,hk,hpages⟩ := hq1.inv.flushAll_spec
  refine ⟨_,tree,p1,p2,(bind_ok hcreate).trans hrun',hflush,fun q ha hb => ?_⟩
  rw [hk.pages] at hb
  obtain ⟨pg,hp,hv⟩ := hat'.verifies hcomp hsealed' ha hb
  exact ⟨pg,(congrFun hpages q).trans hp,hv,fun off pg' hch => hch.verifyChecksum hv⟩

theorem flushed_pages_verify_mixed : ∃ rs tree p1 p2,
    (create >>= run 12 mixedOps) (new (DiskManager.open_ [] []) 1) = (.ok (rs,tree),p1) ∧
      flushAll p1 = (.ok (),p2) ∧
      ∀ q : PageId, 0 ≤ q.toNat → q.toNat < p2.disk.numPages.toNat →
        ∃ pg, p2.disk.pageAt q = some pg ∧ pg.verifyChecksum = true ∧
          ∀ off (pg' : Page), LocalChange (16 + off) pg.data pg'.data →
            pg'.verifyChecksum = false :=
  flushed_pages_verify ⟨rfl,rfl⟩ le_rfl (by decide) (by decide +kernel) (by decide +kernel)

end BPlusTree

end StorageDb
