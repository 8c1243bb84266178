import Mathlib.Tactic
import StorageDb.Btree.FlatStore
import StorageDb.Btree.Refinement

namespace StorageDb
open Prog

namespace DiskManager

variable {d : DiskManager}

-- The pages written so far, newest first, without the zeros that allocate_page extends the file by.
def written (d : DiskManager) : List (PageId × Bytes) :=
  d.history.filter fun w => w.2.any (· ≠ 0)

theorem written_extend (d : DiskManager) : d.extend.written = d.written := by
  refine List.filter_cons_of_neg (Bool.not_eq_true _ ▸ List.any_eq_false.mpr fun x hx => ?_)
  rw [List.eq_of_mem_replicate hx]
  decide

theorem readPage_disk (h : d.faults = []) (pid : PageId) : (readPage pid d).2 = d := by
  rw [readPage,bind_ok (tick_calm h),get_bind_run]
  simp only [Option.isSome_none,Bool.false_eq_true,if_false]
  split_ifs <;> rfl

section grown

variable {h : List (PageId × Bytes)}

-- Nothing that was written is forgotten.
def Grown (h : List (PageId × Bytes)) (d : DiskManager) : Prop := h <:+ d.history

theorem tick_grown : Preserves (Grown h) tick := fun _ hd => hd

theorem readPage_grown (pid : PageId) : Preserves (Grown h) (readPage pid) := by
  refine tick_grown.bind fun fault => preserves_get.bind fun d => ?_
  dsimp only
  split_ifs
  · exact preserves_fail _
  · exact preserves_pure _
  · exact preserves_fail _

theorem writeAt_grown (offset : Nat) (src : Bytes) : Preserves (Grown h) (writeAt offset src) := by
  refine tick_grown.bind fun fault => ?_
  cases fault with
  | none => exact preserves_modify fun _ hd => hd
  | some n => exact Preserves.bind (preserves_modify fun _ hd => hd) fun _ => preserves_fail _

theorem record_grown (w : PageId × Bytes) :
    Preserves (Grown h) (Prog.modify fun d => { d with history := w :: d.history } :
      Prog Error DiskManager Unit) :=
  preserves_modify fun _ hd => hd.trans (List.suffix_cons ..)

theorem writePage_grown (pg : Page) : Preserves (Grown h) (writePage pg) :=
  (writeAt_grown _ _).bind fun _ => record_grown _

theorem allocatePage_grown : Preserves (Grown h) allocatePage :=
  preserves_get.bind fun _ => Preserves.bind (preserves_modify fun _ hd => hd) fun _ =>
    (writeAt_grown _ _).bind fun _ => (record_grown _).bind fun _ => preserves_pure _

end grown

end DiskManager

namespace BufferPoolManager

variable {p p₀ : BufferPoolManager} {pid : PageId} {pg : Page} {i : Nat}

section disk

variable {d : DiskManager} {c : Nat} {I : DiskManager → Nat → Prop}

-- A property that the frames have no part in.
def Disked (I : DiskManager → Nat → Prop) (p : BufferPoolManager) : Prop := I p.disk p.capacity

abbrev DiskIs (d : DiskManager) (c : Nat) : BufferPoolManager → Prop :=
  Disked fun d' c' => d' = d ∧ c' = c

theorem frameAt_disked (i : Nat) : Preserves (Disked I) (frameAt i) := by
  refine preserves_get.bind fun p => ?_
  cases p.frames[i]?.join with
  | none => exact preserves_fail _
  | some f => exact preserves_pure f

theorem pin_disked (i : Nat) (f : BufferFrame) : Preserves (Disked I) (pin i f) := by
  rw [pin]
  split_ifs
  · exact preserves_modify fun _ h => h
  · exact preserves_fail _

theorem install_disked (pid : PageId) (i : Nat) (f : BufferFrame) :
    Preserves (Disked I) (install pid i f) := by
  refine preserves_get.bind fun p => ?_
  split_ifs
  · exact preserves_modify fun _ h => h
  · exact preserves_fail _

theorem modifyPage_disked (i : Nat) (g : Page → Page) : Preserves (Disked I) (modifyPage i g) :=
  (frameAt_disked i).bind fun _ => preserves_modify fun _ h => h

theorem unpinPage_disked (pid : PageId) (dirty : Bool) :
    Preserves (Disked I) (unpinPage pid dirty) := by
  refine preserves_get.bind fun p => ?_
  cases p.pageTable pid with
  | none => exact preserves_fail _
  | some i => exact (frameAt_disked i).bind fun _ => preserves_modify fun _ h => h

theorem readPage_diskIs (h : d.faults = []) (pid : PageId) :
    Preserves (DiskIs d c) (onDisk (DiskManager.readPage pid)) := by
  rintro p ⟨rfl,hc⟩
  exact ⟨DiskManager.readPage_disk h pid,hc⟩

-- A free frame spares the clock.
theorem getFreeFrame_free {rest : List Nat} (h : p.freeList = i :: rest) :
    getFreeFrame p = (.ok i,{ p with freeList := rest }) := by
  rw [getFreeFrame,get_bind_run,h]
  rfl

theorem load_diskIs {β : Type} {f : Nat → Page → Prog Error BufferPoolManager β}
    (hd : p.disk.faults = []) (hfree : p.freeList ≠ [])
    (hf : ∀ i pg, Preserves (DiskIs p.disk p.capacity) (f i pg)) :
    DiskIs p.disk p.capacity ((getFreeFrame >>= fun i =>
      onDisk (DiskManager.readPage pid) >>= fun pg => f i pg) p).2 := by
  obtain ⟨i,rest,hcons⟩ := List.exists_cons_of_ne_nil hfree
  rw [bind_ok (getFreeFrame_free hcons)]
  exact ((readPage_diskIs hd pid).bind fun pg => hf i pg) _ ⟨rfl,rfl⟩

theorem fetchPage_diskIs (hd : p.disk.faults = [])
    (hroom : p.pageTable pid = none → p.freeList ≠ []) :
    DiskIs p.disk p.capacity (fetchPage pid p).2 := by
  rw [fetchPage,get_bind_run]
  cases ht : p.pageTable pid with
  | some i =>
    exact ((frameAt_disked i).bind fun f => (pin_disked i _).bind fun _ => preserves_pure _) p
      ⟨rfl,rfl⟩
  | none =>
    exact load_diskIs hd (hroom ht) fun i pg => (install_disked pid i _).bind fun _ =>
      preserves_pure _

theorem repin_disked (pid : PageId) : Preserves (Disked I) (do
    let p ← Prog.get
    let i ← Prog.ofOption (p.pageTable pid)
    let f ← frameAt i
    pin i { f with dirty := true, refBit := true }
    pure i) :=
  preserves_get.bind fun _ => (preserves_congruence.ofOption _).bind fun i =>
    (frameAt_disked i).bind fun _ => (pin_disked i _).bind fun _ => preserves_pure i

theorem fetchPageMut_diskIs (hd : p.disk.faults = [])
    (hroom : p.pageTable pid = none → p.freeList ≠ []) :
    DiskIs p.disk p.capacity (fetchPageMut pid p).2 := by
  have hpin := repin_disked (I := fun d' c' => d' = p.disk ∧ c' = p.capacity) pid
  rw [fetchPageMut,get_bind_run]
  split_ifs with ht
  · exact load_diskIs hd (hroom (Option.isNone_iff_eq_none.mp ht)) fun i pg =>
      (install_disked pid i _).bind fun _ => hpin
  · exact hpin p ⟨rfl,rfl⟩

end disk

section grown

variable {h : List (PageId × Bytes)}

abbrev GrownFrom (h : List (PageId × Bytes)) : BufferPoolManager → Prop :=
  Disked fun d _ => d.Grown h

theorem onDisk_grown {α : Type} {m : Prog Error DiskManager α}
    (hm : Preserves (DiskManager.Grown h) m) : Preserves (GrownFrom h) (onDisk m) :=
  fun p hp => hm p.disk hp

theorem evict_grown (f : BufferFrame) : Preserves (GrownFrom h) (evict f) := by
  have hdrop : Preserves (GrownFrom h) (do
      let p ← Prog.get
      Prog.modify (fun p => advance (setFrame p.clockHand none (mapPage f.page.id none p)))
      pure p.clockHand : Prog Error BufferPoolManager Nat) :=
    preserves_get.bind fun _ => Preserves.bind (preserves_modify fun _ hp => hp) fun _ =>
      preserves_pure _
  rw [evict]
  dsimp only
  split_ifs
  · exact (onDisk_grown (DiskManager.writePage_grown _)).bind fun _ => hdrop
  · exact hdrop

theorem clockStep_grown (spare : Bool) : Preserves (GrownFrom h) (clockStep spare) := by
  have hmove : Preserves (GrownFrom h) (do
      Prog.modify advance
      pure none : Prog Error BufferPoolManager (Option Nat)) :=
    Preserves.bind (preserves_modify fun _ hp => hp) fun _ => preserves_pure _
  refine preserves_get.bind fun p => (preserves_congruence.ofOption _).bind fun slot => ?_
  cases slot with
  | none => exact hmove
  | some f =>
    dsimp only
    split_ifs
    · exact Preserves.bind (preserves_modify fun _ hp => hp) fun _ => hmove
    · exact (evict_grown f).bind fun _ => preserves_pure _
    · exact hmove

theorem lastPass_grown (n : Nat) : Preserves (GrownFrom h) (lastPass n) := by
  induction n with
  | zero => exact preserves_fail _
  | succ n ih =>
    refine (clockStep_grown false).bind fun victim => ?_
    cases victim with
    | none => exact ih
    | some i => exact preserves_pure i

theorem clockLoop_grown (start fuel : Nat) : Preserves (GrownFrom h) (clockLoop start fuel) := by
  induction fuel with
  | zero => exact preserves_fail _
  | succ fuel ih =>
    refine (clockStep_grown true).bind fun victim => ?_
    cases victim with
    | none =>
      refine preserves_get.bind fun p => ?_
      split_ifs
      · exact lastPass_grown _
      · exact ih
    | some i => exact preserves_pure i

theorem getFreeFrame_grown : Preserves (GrownFrom h) getFreeFrame := by
  refine preserves_get.bind fun p => ?_
  cases p.freeList with
  | nil => exact clockLoop_grown _ _
  | cons i rest => exact Preserves.bind (preserves_modify fun _ hp => hp) fun _ => preserves_pure i

theorem load_grown {β : Type} {f : Nat → Page → Prog Error BufferPoolManager β} (pid : PageId)
    (hf : ∀ i pg, Preserves (GrownFrom h) (f i pg)) : Preserves (GrownFrom h) (do
      let i ← getFreeFrame
      let pg ← onDisk (DiskManager.readPage pid)
      f i pg) :=
  getFreeFrame_grown.bind fun i =>
    (onDisk_grown (DiskManager.readPage_grown pid)).bind fun pg => hf i pg

theorem fetchPage_grown (pid : PageId) : Preserves (GrownFrom h) (fetchPage pid) := by
  refine preserves_get.bind fun p => ?_
  cases p.pageTable pid with
  | some i => exact (frameAt_disked i).bind fun f => (pin_disked i _).bind fun _ => preserves_pure _
  | none =>
    exact load_grown pid fun i pg => (install_disked pid i _).bind fun _ => preserves_pure pg

theorem fetchPageMut_grown (pid : PageId) : Preserves (GrownFrom h) (fetchPageMut pid) := by
  have hpin := repin_disked (I := fun d _ => d.Grown h) pid
  refine preserves_get.bind fun p => ?_
  dsimp only
  split_ifs
  · exact load_grown pid fun i pg => (install_disked pid i _).bind fun _ => hpin
  · exact hpin

theorem grown_congruence (h : List (PageId × Bytes)) : StoreCongruence
    fun (α : Type) (m _ : Prog Error BufferPoolManager α) => Preserves (GrownFrom h) m := by
  refine ⟨⟨preserves_congruence,fun pid => ?_⟩,fun nd => ?_,?_⟩
  · exact (fetchPage_grown pid).bind fun _ => (unpinPage_disked pid false).bind fun _ =>
      preserves_pure _
  · exact (fetchPageMut_grown _).bind fun i => (modifyPage_disked i _).bind fun _ =>
      unpinPage_disked _ true
  · refine Preserves.bind ?_ fun pid => (unpinPage_disked pid false).bind fun _ => preserves_pure _
    exact (onDisk_grown DiskManager.allocatePage_grown).bind fun pid => getFreeFrame_grown.bind
      fun i => (install_disked pid i _).bind fun _ => preserves_pure pid

end grown

-- Without a free frame every frame holds a page of its own.
theorem PoolInv.capacity_le (h : PoolInv p []) (hfree : p.freeList = []) {S : Finset Nat}
    (hS : ∀ i f, p.Holds i f → f.page.id.toNat ∈ S) : p.capacity ≤ S.card := by
  have hfull : ∀ i : Fin p.capacity, ∃ f, p.Holds i f := by
    intro i
    have hi : i.1 < p.frames.length := h.size.symm ▸ i.2
    have hne : p.frames[i.1]? ≠ some none := fun he => by
      have hmem := (h.empty i.1).mp he
      rw [hfree] at hmem
      cases hmem
    cases hx : p.frames[i.1] with
    | none => exact absurd (by rw [List.getElem?_eq_getElem hi,hx]) hne
    | some f => exact ⟨f,by rw [Holds,List.getElem?_eq_getElem hi,hx]⟩
  choose f hf using hfull
  have hinj : Function.Injective fun i => (f i).page.id.toNat := by
    intro i j hij
    have hi := (h.table _ _).mpr ⟨f i,hf i,rfl⟩
    have hj := (h.table _ _).mpr ⟨f j,hf j,rfl⟩
    rw [UInt32.toNat_inj.mp hij,hj] at hi
    exact Fin.ext (Option.some.inj hi).symm
  calc p.capacity = (Finset.univ : Finset (Fin p.capacity)).card := (Finset.card_fin _).symm
    _ ≤ S.card := Finset.card_le_card_of_injOn _ (fun i _ => hS i (f i) (hf i)) hinj.injOn

-- The pool has a frame for every page.
def Ample (p : BufferPoolManager) : Prop := p.disk.numPages.toNat ≤ p.capacity

theorem Quiet.room (h : Quiet p) (ha : Ample p) (hl : p.lookup pid = some pg) :
    p.pageTable pid = none → p.freeList ≠ [] := by
  intro ht hfree
  have hat : p.disk.pageAt pid = some pg := by
    rw [lookup_of_absent ht] at hl
    exact hl
  have hlt := (h.inv.disk.pageAt_isSome (p := pid)).mp (by rw [hat]; rfl)
  have hle := h.inv.capacity_le hfree (S := (Finset.range p.disk.numPages.toNat).erase pid.toNat) ?_
  · rw [Finset.card_erase_of_mem (Finset.mem_range.mpr hlt),Finset.card_range] at hle
    rw [Ample] at ha
    omega
  · intro i f hf
    refine Finset.mem_erase.mpr ⟨fun he => ?_,Finset.mem_range.mpr (h.inv.known i f hf)⟩
    have hi := (h.inv.table pid i).mpr ⟨f,hf,UInt32.toNat_inj.mp he⟩
    rw [ht] at hi
    cases hi

theorem Quiet.readNode_disk (h : Quiet p) (ha : Ample p) (hl : p.lookup pid = some pg) :
    DiskIs p.disk p.capacity (readNode pid p).2 :=
  preserves_after (fetchPage_diskIs h.inv.disk.calm (h.room ha hl)) fun _ =>
    (unpinPage_disked pid false).bind fun _ => preserves_pure _

theorem Quiet.writeNode_disk {nd : BTreeNode} (h : Quiet p) (ha : Ample p)
    (hl : p.lookup nd.page.id = some pg) : DiskIs p.disk p.capacity (writeNode nd p).2 :=
  preserves_after (fetchPageMut_diskIs h.inv.disk.calm (h.room ha hl)) fun i =>
    (modifyPage_disked i _).bind fun _ => unpinPage_disked _ true

theorem Quiet.allocatePage_disk (h : Quiet p) (ha : p.disk.numPages.toNat < p.capacity) :
    DiskIs p.disk.extend p.capacity (allocatePage p).2 := by
  have hfree : p.freeList ≠ [] := fun hfree => by
    have hle := h.inv.capacity_le hfree (S := Finset.range p.disk.numPages.toNat)
      fun i f hf => Finset.mem_range.mpr (h.inv.known i f hf)
    rw [Finset.card_range] at hle
    omega
  obtain ⟨i,rest,hcons⟩ := List.exists_cons_of_ne_nil hfree
  have halloc : onDisk DiskManager.allocatePage p =
      (.ok p.disk.numPages,{ p with disk := p.disk.extend }) :=
    onDisk_ok (DiskManager.allocatePage_eq h.inv.disk.calm)
  have hrun := getFreeFrame_free (p := { p with disk := p.disk.extend }) hcons
  have hnew : DiskIs p.disk.extend p.capacity (newPage p).2 := by
    rw [newPage,bind_ok halloc,bind_ok hrun]
    exact ((install_disked _ i _).bind fun _ => preserves_pure _) _ ⟨rfl,rfl⟩
  exact preserves_after hnew fun pid => (unpinPage_disked pid false).bind fun _ => preserves_pure _

-- What happens to the disk from p₀ on, as long as the frames suffice: pages are added to it, and
-- no page is written.
structure Still (p₀ p : BufferPoolManager) : Prop where
  pages : p₀.disk.numPages.toNat ≤ p.disk.numPages.toNat
  capacity : p.disk.numPages.toNat ≤ p₀.capacity → p.capacity = p₀.capacity
  written : p.disk.numPages.toNat ≤ p₀.capacity → p.disk.written = p₀.disk.written
  same : p.disk.numPages.toNat ≤ p₀.capacity → p.disk.numPages = p₀.disk.numPages →
    p.disk = p₀.disk

theorem Still.refl (p : BufferPoolManager) : Still p p :=
  ⟨le_rfl,fun _ => rfl,fun _ => rfl,fun _ _ => rfl⟩

theorem Still.ample (h : Still p₀ p) (hn : p.disk.numPages.toNat ≤ p₀.capacity) : Ample p :=
  hn.trans_eq (h.capacity hn).symm

theorem Still.keep {p' : BufferPoolManager} (h : Still p₀ p)
    (hn : p'.disk.numPages = p.disk.numPages) (hd : Ample p → DiskIs p.disk p.capacity p') :
    Still p₀ p' := by
  have his (hle : p'.disk.numPages.toNat ≤ p₀.capacity) := hd (h.ample (hn ▸ hle))
  refine ⟨hn ▸ h.pages,fun hle => ?_,fun hle => ?_,fun hle heq => ?_⟩
  · exact (his hle).2.trans (h.capacity (hn ▸ hle))
  · rw [(his hle).1]
    exact h.written (hn ▸ hle)
  · rw [(his hle).1]
    exact h.same (hn ▸ hle) (hn ▸ heq)

theorem Still.grow {p' : BufferPoolManager} (h : Still p₀ p)
    (hn : p'.disk.numPages.toNat = p.disk.numPages.toNat + 1)
    (hd : p.disk.numPages.toNat < p.capacity → DiskIs p.disk.extend p.capacity p') :
    Still p₀ p' := by
  have hle (hle : p'.disk.numPages.toNat ≤ p₀.capacity) :
      p.disk.numPages.toNat ≤ p₀.capacity := by omega
  have his (hle' : p'.disk.numPages.toNat ≤ p₀.capacity) := hd (by
    rw [h.capacity (hle hle')]
    omega)
  have hpages := h.pages
  refine ⟨by omega,fun hc => (his hc).2.trans (h.capacity (hle hc)),fun hc => ?_,fun _ heq => ?_⟩
  · rw [(his hc).1,DiskManager.written_extend]
    exact h.written (hle hc)
  · have := congrArg UInt32.toNat heq
    omega

def Resting (p₀ p : BufferPoolManager) (s : FlatStore) : Prop := Models p s ∧ Still p₀ p

theorem numPages_of_flat {p' : BufferPoolManager} (h : p'.flat.next = p.flat.next) :
    p'.disk.numPages = p.disk.numPages := UInt32.toNat_inj.mp h

theorem resting_readNode (p₀ : BufferPoolManager) (pid : PageId) :
    Refines (Resting p₀) (NodeStore.readNode pid) (NodeStore.readNode pid) := by
  rintro p s ⟨⟨hq,rfl⟩,hst⟩ hne
  obtain ⟨hr,hm⟩ := refines_readNode pid p p.flat ⟨hq,rfl⟩ hne
  have hflat : (NodeStore.readNode pid : Prog Error FlatStore BTreeNode) p.flat =
    FlatStore.readNode pid p.flat := rfl
  cases hl : p.lookup pid with
  | none =>
    rw [hflat,FlatStore.readNode,show p.flat.pages pid = none from hl] at hne
    exact absurd rfl (hne .io)
  | some pg =>
    rw [hflat,FlatStore.readNode,show p.flat.pages pid = some pg from hl] at hr hm ⊢
    exact ⟨hr,hm,hst.keep (numPages_of_flat (congrArg FlatStore.next hm.2))
      fun ha => hq.readNode_disk ha hl⟩

theorem resting_writeNode (p₀ : BufferPoolManager) (nd : BTreeNode) :
    Refines (Resting p₀) (NodeStore.writeNode nd) (NodeStore.writeNode nd) := by
  rintro p s ⟨⟨hq,rfl⟩,hst⟩ hne
  obtain ⟨hr,hm⟩ := refines_writeNode nd p p.flat ⟨hq,rfl⟩ hne
  have hflat : (NodeStore.writeNode nd : Prog Error FlatStore Unit) p.flat =
    FlatStore.writeNode nd p.flat := rfl
  cases hl : p.lookup nd.page.id with
  | none =>
    rw [hflat,FlatStore.writeNode,show p.flat.pages nd.page.id = none from hl] at hne
    exact absurd rfl (hne .io)
  | some pg =>
    rw [hflat,FlatStore.writeNode,show p.flat.pages nd.page.id = some pg from hl] at hr hm ⊢
    have hnext : (NodeStore.writeNode nd p).2.flat.next = p.flat.next := by
      rw [hm.2]
      rfl
    exact ⟨hr,hm,hst.keep (numPages_of_flat hnext) fun ha => hq.writeNode_disk ha hl⟩

theorem resting_allocatePage (p₀ : BufferPoolManager) :
    Refines (Resting p₀) NodeStore.allocatePage NodeStore.allocatePage := by
  rintro p s ⟨⟨hq,rfl⟩,hst⟩ hne
  obtain ⟨hr,hm⟩ := refines_allocatePage p p.flat ⟨hq,rfl⟩ hne
  have hflat : (NodeStore.allocatePage : Prog Error FlatStore PageId) p.flat =
    FlatStore.allocatePage p.flat := rfl
  by_cases hn : p.flat.next < invalidPageId.toNat
  · rw [hflat,FlatStore.allocatePage,if_pos hn] at hr hm ⊢
    exact ⟨hr,hm,hst.grow (congrArg FlatStore.next hm.2) fun ha => hq.allocatePage_disk ha⟩
  · rw [hflat,FlatStore.allocatePage,if_neg hn] at hne
    exact absurd rfl (hne .io)

theorem resting_refines (p₀ : BufferPoolManager) :
    StoreCongruence fun (α : Type) (m : Prog Error BufferPoolManager α)
      (n : Prog Error FlatStore α) => Refines (Resting p₀) m n :=
  ⟨⟨refines_congruence,resting_readNode p₀⟩,resting_writeNode p₀,resting_allocatePage p₀⟩

end BufferPoolManager

namespace BPlusTree
open NodeStore

variable {I : BufferPoolManager → Prop} {p p₁ : BufferPoolManager} {nd : BTreeNode}
  {es : List (Bytes × Bytes)} {tree : BPlusTree} {leafId : PageId} {k v : Bytes} {fuel i : Nat}

-- A full leaf is split, which begins with the page of the right half.
theorem insertAt_allocates (hI : StoreCongruence
      fun (α : Type) (m _ : Prog Error BufferPoolManager α) => Preserves I m)
    (hread : readNode leafId p = (.ok nd,p₁)) (hslot : nd.leafFindSlot k = some (i,false))
    (hfull : nd.leafCanFit k v = some false) (hes : nd.leafEntries = some es)
    (h : I (BufferPoolManager.allocatePage p₁).2) : I (tree.insertAt fuel leafId k v p).2 := by
  have hsplit : I (splitLeaf nd k v p₁).2 := by
    rw [splitLeaf,hes]
    change I ((allocatePage >>= _) p₁).2
    refine preserves_after h fun _ => (preserves_congruence.ofOption _).bind fun _ =>
      (preserves_congruence.ofOption _).bind fun _ => (preserves_congruence.ofOption _).bind
        fun _ => ?_
    exact (hI.write _).bind fun _ => (hI.write _).bind fun _ => preserves_pure _
  rw [insertAt,bind_ok hread,hslot]
  change I ((ofOption (nd.leafCanFit k v) >>= _) p₁).2
  rw [hfull]
  change I ((tree.splitAndInsertLeaf fuel nd k v >>= _) p₁).2
  refine preserves_after (preserves_after hsplit fun _ => ?_) fun _ => preserves_pure _
  exact congr_insertIntoParent hI tree fuel _ _ _ _

end BPlusTree

end StorageDb
