import Mathlib.Tactic
import StorageDb.Btree.MapRefinement

namespace StorageDb
open Prog

namespace BufferPoolManager
open DiskManager

variable {p : BufferPoolManager} {pid : PageId}

theorem readPage_past (h : p.disk.Healthy) (hl : p.disk.pageAt pid = none) :
    onDisk (readPage pid) p = (.error (.err .io),p) := by
  have hb : ¬ pid.toNat * pageSize + pageSize ≤ p.disk.file.length := by
    intro hb
    rw [pageAt,dif_pos hb] at hl
    cases hl
  have hr : readPage pid p.disk = (.error (.err .io),p.disk) := by
    rw [readPage,Prog.bind_ok (tick_calm h.calm)]
    simp only [Prog.get_bind_run,Option.isSome_none,Bool.false_eq_true,if_false,dif_neg hb]
    rfl
  rw [onDisk,Prog.zoom,hr]

-- A page past the end of the file is in no frame; the frame found for it is lost.
theorem Quiet.missing (h : Quiet p) (hl : p.lookup pid = none) : p.pageTable pid = none ∧
    ∃ i p1, getFreeFrame p = (.ok i,p1) ∧ onDisk (readPage pid) p1 = (.error (.err .io),p1) := by
  have ht : p.pageTable pid = none := by
    cases ht : p.pageTable pid with
    | none => rfl
    | some i =>
      obtain ⟨f,hf,-⟩ := h.inv.holds ht
      rw [lookup_of_holds ht hf] at hl
      cases hl
  obtain ⟨i,p1,hfree,hinv,hk⟩ := h.inv.getFreeFrame_ok h.free
  have ht1 : p1.pageTable pid = none := hk.absent hinv (fun j g hg he => by
    rw [← he,h.inv.slot hg] at ht
    cases ht)
  refine ⟨ht,i,p1,hfree,readPage_past hinv.disk ?_⟩
  rw [← lookup_of_absent ht1,hk.lookup,hl]

theorem Quiet.readNode_missing (h : Quiet p) (hl : p.lookup pid = none) :
    (readNode pid p).1 = .error (.err .io) := by
  obtain ⟨ht,i,p1,hfree,hread⟩ := h.missing hl
  have hfetch : fetchPage pid p = (.error (.err .io),p1) := by
    rw [fetchPage]
    simp only [Prog.get_bind_run,ht]
    rw [Prog.bind_ok hfree,Prog.bind_error hread]
  rw [readNode,Prog.bind_error hfetch]

theorem Quiet.writeNode_missing {nd : BTreeNode} (h : Quiet p) (hl : p.lookup nd.page.id = none) :
    (writeNode nd p).1 = .error (.err .io) := by
  obtain ⟨ht,i,p1,hfree,hread⟩ := h.missing hl
  have hfetch : fetchPageMut nd.page.id p = (.error (.err .io),p1) := by
    rw [fetchPageMut]
    simp only [Prog.get_bind_run,ht,Option.isNone_none,if_true]
    rw [Prog.bind_ok hfree,Prog.bind_error hread]
  rw [writeNode,Prog.bind_error hfetch]

-- Page ids have run out.
def Full (s : FlatStore) : Prop := invalidPageId.toNat ≤ s.next

theorem models_tracks : StoreCongruence fun (α : Type) (m : Prog Error BufferPoolManager α) n =>
    Tracks Full Models m n := by
  refine ⟨⟨tracks_congruence,fun pid => ?_⟩,fun nd => ?_,?_⟩
  · refine ⟨fun s hs => ?_,?_⟩
    · change Full (FlatStore.readNode pid s).2
      rw [FlatStore.readNode]
      cases s.pages pid <;> exact hs
    rintro p s ⟨hq,rfl⟩
    refine Or.inr ?_
    cases hl : p.lookup pid with
    | none =>
      have hflat : (NodeStore.readNode pid : Prog Error FlatStore BTreeNode) p.flat =
          (.error (.err .io),p.flat) := by
        change FlatStore.readNode pid p.flat = _
        rw [FlatStore.readNode,show p.flat.pages pid = none from hl]
      rw [hflat]
      exact ⟨hq.readNode_missing hl,fun _ h => by cases h⟩
    | some pg =>
      have hflat : (NodeStore.readNode pid : Prog Error FlatStore BTreeNode) p.flat =
          (.ok ⟨pg⟩,p.flat) := by
        change FlatStore.readNode pid p.flat = _
        rw [FlatStore.readNode,show p.flat.pages pid = some pg from hl]
      obtain ⟨p',hm,hR⟩ := (refines_readNode pid).of_ok ⟨hq,rfl⟩ hflat
      rw [hm,hflat]
      exact ⟨rfl,fun _ _ => hR⟩
  · refine ⟨fun s hs => ?_,?_⟩
    · change Full (FlatStore.writeNode nd s).2
      rw [FlatStore.writeNode]
      cases s.pages nd.page.id <;> exact hs
    rintro p s ⟨hq,rfl⟩
    refine Or.inr ?_
    cases hl : p.lookup nd.page.id with
    | none =>
      have hflat : (NodeStore.writeNode nd : Prog Error FlatStore Unit) p.flat =
          (.error (.err .io),p.flat) := by
        change FlatStore.writeNode nd p.flat = _
        rw [FlatStore.writeNode,show p.flat.pages nd.page.id = none from hl]
      rw [hflat]
      exact ⟨hq.writeNode_missing hl,fun _ h => by cases h⟩
    | some pg =>
      have hflat : (NodeStore.writeNode nd : Prog Error FlatStore Unit) p.flat =
          (.ok (),p.flat.put nd.sealed.page) := by
        change FlatStore.writeNode nd p.flat = _
        rw [FlatStore.writeNode,show p.flat.pages nd.page.id = some pg from hl]
      obtain ⟨p',hm,hR⟩ := (refines_writeNode nd).of_ok ⟨hq,rfl⟩ hflat
      rw [hm,hflat]
      exact ⟨rfl,fun _ _ => hR⟩
  · refine ⟨fun s hs => ?_,?_⟩
    · change Full (FlatStore.allocatePage s).2
      rw [FlatStore.allocatePage,if_neg (Nat.not_lt.mpr hs)]
      exact hs
    rintro p s ⟨hq,rfl⟩
    by_cases hn : p.disk.numPages.toNat < invalidPageId.toNat
    · have hflat : (NodeStore.allocatePage : Prog Error FlatStore PageId) p.flat =
          (.ok (UInt32.ofNat p.flat.next),p.flat.grow) := by
        change FlatStore.allocatePage p.flat = _
        rw [FlatStore.allocatePage,if_pos (show p.flat.next < _ from hn)]
      obtain ⟨p',hm,hR⟩ := refines_allocatePage.of_ok ⟨hq,rfl⟩ hflat
      rw [hm,hflat]
      exact Or.inr ⟨rfl,fun _ _ => hR⟩
    · refine Or.inl ?_
      change Full (FlatStore.allocatePage p.flat).2
      rw [FlatStore.allocatePage,if_neg (show ¬ p.flat.next < _ from hn)]
      exact Nat.le_of_not_lt hn

end BufferPoolManager

inductive TreeCall where
  | op (op : TreeOp)
  | scanAll
  | rangeScan (start stop : Bytes)

inductive TreeReply where
  | created
  | result (r : TreeResult)
  | entries (es : List (Bytes × Bytes))
  deriving DecidableEq

namespace BPlusTree
open BufferPoolManager

section trace

variable {σ τ : Type} [NodeStore σ] [NodeStore τ]

def call (fuel : Nat) (tree : BPlusTree) : TreeCall → Prog Error σ (TreeReply × BPlusTree)
  | .op op => do
    let (r,tree) ← tree.apply fuel op
    pure (.result r,tree)
  | .scanAll => do
    let es ← tree.scanAll fuel
    pure (.entries es,tree)
  | .rangeScan start stop => do
    let es ← tree.rangeScan fuel start stop
    pure (.entries es,tree)

abbrev Trace (σ : Type) := List (Except (Fault Error) (TreeReply × BPlusTree) × σ)

-- Every outcome with the store it leaves; the run ends with the first call that fails.
def trace (fuel : Nat) : List TreeCall → BPlusTree → σ → Trace σ
  | [], _, _ => []
  | c :: calls, tree, s =>
    match tree.call fuel c s with
    | (.ok (r,tree'),s') => (.ok (r,tree'),s') :: trace fuel calls tree' s'
    | (.error e,s') => [(.error e,s')]

def Trace.outcomes (t : Trace σ) : List (Except (Fault Error) (TreeReply × BPlusTree)) :=
  t.map Prod.fst

theorem congr_call {Q : ⦃α : Type⦄ → Prog Error σ α → Prog Error τ α → Prop}
    (h : StoreCongruence Q) (fuel : Nat) (tree : BPlusTree) (c : TreeCall) :
    Q (tree.call fuel c) (tree.call fuel c) := by
  cases c with
  | op op => exact h.bind (congr_apply h fuel tree op) (fun _ => h.pure _)
  | scanAll => exact h.bind (congr_scanAll h.toReadCongruence tree fuel) (fun _ => h.pure _)
  | rangeScan start stop =>
    exact h.bind (congr_rangeScan h.toReadCongruence tree fuel start stop) (fun _ => h.pure _)

end trace

def session (fuel : Nat) (calls : List TreeCall) (p : BufferPoolManager) :
    Trace BufferPoolManager :=
  match create p with
  | (.ok tree,p') => (.ok (.created,tree),p') :: trace fuel calls tree p'
  | (.error e,p') => [(.error e,p')]

-- How many pages a call can allocate: one for each node that splits and one for a new root.
section pages

theorem flat_reads : ReadCongruence fun (α : Type) (m _ : Prog Error FlatStore α) =>
    Adds FlatStore.next 0 m := by
  refine ⟨adds_congruence,fun pid s => ?_⟩
  change (FlatStore.readNode pid s).2.next ≤ _
  rw [FlatStore.readNode]
  cases s.pages pid <;> exact le_rfl

theorem adds_writeNode (nd : BTreeNode) :
    Adds FlatStore.next 0 (NodeStore.writeNode nd : Prog Error FlatStore Unit) := by
  intro s
  change (FlatStore.writeNode nd s).2.next ≤ _
  rw [FlatStore.writeNode]
  cases s.pages nd.page.id <;> exact le_rfl

theorem adds_allocatePage :
    Adds FlatStore.next 1 (NodeStore.allocatePage : Prog Error FlatStore PageId) := by
  intro s
  change (FlatStore.allocatePage s).2.next ≤ _
  rw [FlatStore.allocatePage]
  split_ifs
  · exact le_rfl
  · exact Nat.le_succ _

theorem adds_ofOption {α : Type} (o : Option α) :
    Adds FlatStore.next 0 (Prog.ofOption o : Prog Error FlatStore α) := flat_reads.ofOption o

theorem adds_setParentOf (parentId childId : PageId) :
    Adds FlatStore.next 0 (setParentOf parentId childId : Prog Error FlatStore Unit) :=
  (flat_reads.read childId).calm fun _ => adds_writeNode _

theorem adds_setParents (parentId : PageId) (children : List PageId) :
    Adds FlatStore.next 0 (setParents parentId children : Prog Error FlatStore Unit) := by
  induction children with
  | nil => exact fun _ => le_rfl
  | cons c cs ih => exact (adds_setParentOf parentId c).calm fun _ => ih

theorem adds_newRoot (l : PageId) (key : Bytes) (r : PageId) :
    Adds FlatStore.next 1 (newRoot l key r : Prog Error FlatStore BPlusTree) :=
  adds_allocatePage.bind fun _ => (adds_ofOption _).calm fun _ => (adds_writeNode _).calm fun _ =>
    (adds_setParentOf _ _).calm fun _ => (adds_setParentOf _ _).calm fun _ => flat_reads.pure _

theorem adds_splitInternal (nd : BTreeNode) (key : Bytes) (child : PageId) :
    Adds FlatStore.next 1 (splitInternal nd key child : Prog Error FlatStore (Bytes × PageId)) :=
  (adds_ofOption _).calm fun _ => (adds_ofOption _).calm fun _ => adds_allocatePage.bind fun _ =>
    (adds_ofOption _).calm fun _ => (adds_ofOption _).calm fun _ => (adds_writeNode _).calm fun _ =>
      (adds_writeNode _).calm fun _ => Adds.calm ((flat_reads.read _).calm fun _ =>
        (adds_ofOption _).calm fun _ => adds_setParents _ _) fun _ => flat_reads.pure _

theorem adds_insertIntoParent (tree : BPlusTree) (fuel : Nat) (l : PageId) (key : Bytes)
    (r parentId : PageId) : Adds FlatStore.next fuel
      (insertIntoParent tree fuel l key r parentId : Prog Error FlatStore BPlusTree) := by
  induction fuel generalizing l key r parentId with
  | zero => exact fun _ => le_rfl
  | succ fuel ih =>
    rw [insertIntoParent]
    split_ifs
    · exact (adds_newRoot l key r).mono (Nat.le_add_left 1 fuel)
    · refine (flat_reads.read parentId).calm fun nd => (adds_ofOption _).calm fun fits => ?_
      cases fits with
      | true =>
        exact ((adds_ofOption _).calm fun _ => (adds_writeNode _).calm fun _ =>
          (adds_setParentOf _ _).calm fun _ => flat_reads.pure tree).mono (Nat.zero_le _)
      | false =>
        exact ((adds_splitInternal nd key r).bind fun _ => ih _ _ _ _).mono (Nat.add_comm 1 fuel).le

theorem adds_splitLeaf (nd : BTreeNode) (key value : Bytes) :
    Adds FlatStore.next 1 (splitLeaf nd key value : Prog Error FlatStore (Bytes × PageId)) :=
  (adds_ofOption _).calm fun _ => adds_allocatePage.bind fun _ => (adds_ofOption _).calm fun _ =>
    (adds_ofOption _).calm fun _ => (adds_ofOption _).calm fun _ => (adds_writeNode _).calm fun _ =>
      (adds_writeNode _).calm fun _ => flat_reads.pure _

theorem adds_insert (tree : BPlusTree) (fuel : Nat) (key value : Bytes) :
    Adds FlatStore.next (fuel + 1)
      (tree.insert fuel key value : Prog Error FlatStore (Bool × BPlusTree)) := by
  refine (congr_descend flat_reads _ fuel _).calm fun leafId => (flat_reads.read leafId).calm
    fun nd => (adds_ofOption _).calm fun r => ?_
  obtain ⟨idx,found⟩ := r
  cases found with
  | true =>
    exact ((adds_ofOption _).calm fun _ => (adds_writeNode _).calm fun _ => flat_reads.pure _).mono
      (Nat.zero_le _)
  | false =>
    refine (adds_ofOption _).calm fun fits => ?_
    cases fits with
    | true =>
      exact ((adds_ofOption _).calm fun _ => (adds_writeNode _).calm fun _ =>
        flat_reads.pure _).mono (Nat.zero_le _)
    | false =>
      refine (((adds_splitLeaf nd key value).bind fun _ =>
        adds_insertIntoParent tree fuel _ _ _ _).bind
        fun _ => flat_reads.pure _).mono ?_
      omega

theorem adds_delete (tree : BPlusTree) (fuel : Nat) (key : Bytes) :
    Adds FlatStore.next 0 (tree.delete fuel key : Prog Error FlatStore (Option Bytes)) := by
  refine (congr_descend flat_reads _ fuel _).calm fun leafId => (flat_reads.read leafId).calm
    fun nd => (adds_ofOption _).calm fun r => ?_
  obtain ⟨result,node⟩ := r
  dsimp only
  split_ifs
  · exact (adds_writeNode _).calm fun _ => flat_reads.pure _
  · exact flat_reads.pure _

theorem adds_call (fuel : Nat) (tree : BPlusTree) (c : TreeCall) : Adds FlatStore.next (fuel + 1)
    (tree.call fuel c : Prog Error FlatStore (TreeReply × BPlusTree)) := by
  cases c with
  | op op =>
    refine Adds.bind (k := 0) ?_ fun _ => flat_reads.pure _
    cases op with
    | insert k v => exact (adds_insert tree fuel k v).bind fun _ => flat_reads.pure _
    | delete k =>
      exact ((adds_delete tree fuel k).calm fun _ => flat_reads.pure _).mono (Nat.zero_le _)
    | search k =>
      exact ((congr_search flat_reads tree fuel k).calm fun _ => flat_reads.pure _).mono
        (Nat.zero_le _)
  | scanAll =>
    exact ((congr_scanAll flat_reads tree fuel).calm fun _ => flat_reads.pure _).mono
      (Nat.zero_le _)
  | rangeScan start stop =>
    exact ((congr_rangeScan flat_reads tree fuel start stop).calm fun _ => flat_reads.pure _).mono
      (Nat.zero_le _)

end pages

theorem trace_tracks {fuel : Nat} {calls : List TreeCall} (tree : BPlusTree)
    {p : BufferPoolManager} {s : FlatStore} (h : Models p s)
    (hroom : s.next + calls.length * (fuel + 1) < invalidPageId.toNat) :
    (trace fuel calls tree p).outcomes = (trace fuel calls tree s).outcomes ∧
      ∀ x ∈ trace fuel calls tree p, ∀ a, x.1 = .ok a → Quiet x.2 := by
  induction calls generalizing tree p s with
  | nil => exact ⟨rfl,fun x hm => absurd hm List.not_mem_nil⟩
  | cons c calls ih =>
    rw [List.length_cons,Nat.succ_mul] at hroom
    have hadd := adds_call fuel tree c s
    have ht := (congr_call models_tracks fuel tree c).2 p s h
    rcases hm : (tree.call fuel c : Prog Error BufferPoolManager _) p with ⟨r,p'⟩
    rcases hn : (tree.call fuel c : Prog Error FlatStore _) s with ⟨r',s'⟩
    rw [hm,hn] at ht
    rw [hn] at hadd
    dsimp only at hadd
    obtain ⟨rfl,hR⟩ : r = r' ∧ _ := ht.resolve_left (Nat.not_le.mpr (by dsimp only; omega))
    cases r with
    | error e =>
      have hp : trace fuel (c :: calls) tree p = [(.error e,p')] := by rw [trace,hm]
      rw [hp]
      refine ⟨by rw [trace,hn]; rfl,fun x hxm a ha => ?_⟩
      rw [List.mem_singleton.mp hxm] at ha
      cases ha
    | ok a =>
      have hp : trace fuel (c :: calls) tree p = (.ok a,p') :: trace fuel calls a.2 p' := by
        rw [trace,hm]
      have hs : trace fuel (c :: calls) tree s = (.ok a,s') :: trace fuel calls a.2 s' := by
        rw [trace,hn]
      have hmodels := hR a rfl
      obtain ⟨h1,h2⟩ := ih a.2 (s := s') hmodels (by omega)
      rw [hp,hs]
      refine ⟨congrArg (_ :: ·) h1,fun x hxm b hb => ?_⟩
      rcases List.mem_cons.mp hxm with rfl | hxm
      · exact hmodels.1
      · exact h2 x hxm b hb

theorem flat_onlyErrors : StoreCongruence fun (α : Type) (m _ : Prog Error FlatStore α) =>
    OnlyErrors (· = .io) m := by
  refine ⟨⟨onlyErrors_congruence,fun pid s e he => ?_⟩,fun nd s e he => ?_,fun s e he => ?_⟩
  · change (FlatStore.readNode pid s).1 = _ at he
    rw [FlatStore.readNode] at he
    split at he <;> cases he
    rfl
  · change (FlatStore.writeNode nd s).1 = _ at he
    rw [FlatStore.writeNode] at he
    split at he <;> cases he
    rfl
  · change (FlatStore.allocatePage s).1 = _ at he
    rw [FlatStore.allocatePage] at he
    split_ifs at he
    cases he
    rfl

theorem trace_onlyErrors {fuel : Nat} {calls : List TreeCall} {tree : BPlusTree} {s : FlatStore}
    {e : Error} (h : .error (.err e) ∈ (trace fuel calls tree s).outcomes) : e = .io := by
  induction calls generalizing tree s with
  | nil => cases h
  | cons c calls ih =>
    rcases hn : (tree.call fuel c : Prog Error FlatStore _) s with ⟨r,s'⟩
    rw [trace,hn] at h
    cases r with
    | error e' =>
      have he : Except.error (Fault.err e) = Except.error e' := List.mem_singleton.mp h
      exact congr_call flat_onlyErrors fuel tree c s e (by rw [hn]; exact he.symm)
    | ok a =>
      rcases List.mem_cons.mp h with he | h
      · cases he
      · exact ih h

theorem session_tracks {disk : DiskManager} (hd : disk.Healthy) {capacity : Nat}
    (hc : 1 ≤ capacity) {fuel : Nat} {calls : List TreeCall}
    (hroom : disk.numPages.toNat + 1 + calls.length * (fuel + 1) < invalidPageId.toNat) :
    (session fuel calls (new disk capacity)).outcomes = .ok (.created,⟨disk.numPages⟩) ::
      (trace fuel calls ⟨disk.numPages⟩ ((FlatStore.mk disk.pageAt disk.numPages.toNat).grow.put
        (BTreeNode.newLeaf disk.numPages).sealed.page)).outcomes ∧
    ∀ x ∈ session fuel calls (new disk capacity), ∀ a, x.1 = .ok a → Quiet x.2 := by
  obtain ⟨hq,hl⟩ := quiet_new hd hc
  have hflat : (new disk capacity).flat = ⟨disk.pageAt,disk.numPages.toNat⟩ := by rw [flat,hl]; rfl
  obtain ⟨p1,hcreate,hq1,hflat1⟩ := hq.create_eq (show disk.numPages.toNat < _ by omega)
  rw [hflat] at hflat1
  have hs : session fuel calls (new disk capacity) =
      (.ok (.created,⟨disk.numPages⟩),p1) :: trace fuel calls ⟨disk.numPages⟩ p1 := by
    rw [session,hcreate]
    rfl
  rw [hs]
  obtain ⟨h1,h2⟩ := trace_tracks ⟨disk.numPages⟩ ⟨hq1,hflat1⟩ hroom
  refine ⟨congrArg (_ :: ·) h1,fun x hxm a ha => ?_⟩
  rcases List.mem_cons.mp hxm with rfl | hxm
  · exact hq1
  · exact h2 x hxm a ha

theorem session_capacity_independent {disk : DiskManager} (hd : disk.Healthy) {c c' : Nat}
    (hc : 1 ≤ c) (hc' : 1 ≤ c') {fuel : Nat} {calls : List TreeCall}
    (hroom : disk.numPages.toNat + 1 + calls.length * (fuel + 1) < invalidPageId.toNat) :
    (session fuel calls (new disk c)).outcomes = (session fuel calls (new disk c')).outcomes ∧
      ∀ x ∈ session fuel calls (new disk c), (∀ e, x.1 = .error (.err e) → e = .io) ∧
        ∀ a, x.1 = .ok a → ∀ i f, x.2.Holds i f → f.pinCount = 0 := by
  obtain ⟨h1,h2⟩ := session_tracks hd hc hroom
  obtain ⟨h1',-⟩ := session_tracks hd hc' hroom
  refine ⟨h1.trans h1'.symm,fun x hm => ⟨fun e he => ?_,fun a ha => (h2 x hm a ha).unpinned⟩⟩
  have hmem : x.1 ∈ (session fuel calls (new disk c)).outcomes := List.mem_map_of_mem hm
  rw [h1,he] at hmem
  rcases List.mem_cons.mp hmem with h | h
  · cases h
  · exact trace_onlyErrors h

-- One frame for a tree of four pages: every split evicts the pages it goes on with.
def mixedCalls : List TreeCall := mixedOps.map .op ++ [.scanAll,.rangeScan [] (wideKey 245)]

theorem session_capacity_independent_mixed :
    (session 4 mixedCalls (new (DiskManager.open_ [] []) 1)).outcomes =
      (session 4 mixedCalls (new (DiskManager.open_ [] []) 64)).outcomes ∧
    ∀ x ∈ session 4 mixedCalls (new (DiskManager.open_ [] []) 1),
      ∀ a, x.1 = .ok a → ∀ i f, x.2.Holds i f → f.pinCount = 0 := by
  have hd : (DiskManager.open_ [] []).Healthy := ⟨rfl,rfl⟩
  have hroom : (DiskManager.open_ [] []).numPages.toNat + 1 + mixedCalls.length * (4 + 1) <
      invalidPageId.toNat := by decide
  have h := session_capacity_independent hd (le_refl 1) (show 1 ≤ 64 by decide) hroom
  exact ⟨h.1,fun x hx => (h.2 x hx).2⟩

end BPlusTree

end StorageDb
