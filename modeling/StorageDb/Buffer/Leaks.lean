import Mathlib.Tactic
import StorageDb.Buffer.FaultyCalls

namespace StorageDb
open Prog

structure BufferPoolStats where
  capacity : Nat
  occupied : Nat
  pinned : Nat
  dirty : Nat
  free : Nat
  deriving DecidableEq

namespace BufferPoolManager
open DiskManager

variable {p p' : BufferPoolManager} {held : List Nat} {i n : Nat} {f : BufferFrame} {pid : PageId}

def stats (p : BufferPoolManager) : BufferPoolStats where
  capacity := p.capacity
  occupied := p.frames.countP Option.isSome
  pinned := p.frames.countP fun slot => slot.any fun f => 0 < f.pinCount
  dirty := p.frames.countP fun slot => slot.any BufferFrame.dirty
  free := p.freeList.length

theorem countP_eq_positions {α : Type} (q : α → Bool) (l : List α) :
    l.countP q = ((List.range l.length).filter fun i => l[i]?.any q).length := by
  induction l using List.reverseRecOn with
  | nil => rfl
  | append_singleton l a ih =>
    have hkeep : (List.range l.length).filter (fun i => (l ++ [a])[i]?.any q) =
        (List.range l.length).filter fun i => l[i]?.any q := by
      refine List.filter_congr fun i hi => ?_
      rw [List.getElem?_append_left (List.mem_range.mp hi)]
    rw [List.countP_append,ih,List.length_append,List.length_singleton,List.range_succ,
      List.filter_append,List.length_append,hkeep]
    cases hq : q a <;> simp [hq]

-- An empty frame is free or lost.
theorem Sturdy.count_empty (h : Sturdy p held) :
    p.frames.countP Option.isNone = held.length + p.freeList.length := by
  rw [countP_eq_positions,← List.length_append]
  refine List.Perm.length_eq ((List.perm_ext_iff_of_nodup (List.nodup_range.filter _)
    h.inv.nodup).mpr fun i => ?_)
  rw [List.mem_filter,List.mem_range]
  refine Iff.trans ⟨fun hi => ?_,fun hi => ?_⟩ (h.inv.empty i)
  · obtain ⟨-,hany⟩ := hi
    rw [Option.any_eq_true] at hany
    obtain ⟨x,hx,hnone⟩ := hany
    rw [Option.isNone_iff_eq_none.mp hnone] at hx
    exact hx
  · have hi : p.frames[i]? = some none := hi
    exact ⟨(List.getElem?_eq_some_iff.mp hi).1,by rw [hi]; rfl⟩

theorem Sturdy.stats_eq (h : Sturdy p held) :
    p.stats.free + p.stats.occupied + held.length = p.stats.capacity := by
  have hsize : p.frames.length = p.capacity := h.inv.size
  have hall : p.frames.length = p.frames.countP Option.isSome + _ :=
    List.length_eq_countP_add_countP Option.isSome
  have hnone : p.frames.countP (fun x => ¬ x.isSome = true) = p.frames.countP Option.isNone :=
    List.countP_congr fun x _ => by cases x <;> simp
  have hempty := h.count_empty
  change p.freeList.length + p.frames.countP Option.isSome + held.length = p.capacity
  rw [hnone] at hall
  omega

-- The frame that a fetch has found is lost when the read of the page then fails.
def lostBy (p : BufferPoolManager) (pid : PageId) (ok : Bool) : Nat :=
  if (p.pageTable pid).isNone && (getFreeFrame p).1.isOk && !ok then 1 else 0

def Loses (held : List Nat) (n : Nat) (p' : BufferPoolManager) : Prop :=
  ∃ held', Sturdy p' held' ∧ held'.length = held.length + n

theorem Sturdy.loses (h : Sturdy p held) : Loses held 0 p := ⟨held,h,rfl⟩

theorem lostBy_some (ht : p.pageTable pid = some i) (ok : Bool) : lostBy p pid ok = 0 := by
  rw [lostBy,ht]
  rfl

theorem lostBy_ok (p : BufferPoolManager) (pid : PageId) : lostBy p pid true = 0 := by
  rw [lostBy,Bool.not_true,Bool.and_false]
  rfl

theorem Sturdy.load_loses {α : Type} {k : Page → Prog Error BufferPoolManager α} (h : Sturdy p held)
    (ht : p.pageTable pid = none)
    (hk : ∀ pg p' i, Sturdy p' held → p'.pageTable pid = some i → p'.Holds i ⟨pg,n,false,true⟩ →
      Spec (k pg) p' (fun r p'' => r.isOk = true ∧ Sturdy p'' held)) :
    Spec (do
      let i ← getFreeFrame
      let page ← onDisk (readPage pid)
      install pid i ⟨page,n,false,true⟩
      k page) p (fun r p' => Loses held (lostBy p pid r.isOk) p') := by
  refine h.load_spec ht (fun pg p' i _ h' _ hslot hheld _ => ?_) (fun x p' hg h' _ => ?_)
    (fun x i p₁ p' hg h' _ => ?_)
  · refine (hk pg p' i h' hslot hheld).mono fun r p'' hr => ?_
    rw [hr.1,lostBy_ok]
    exact hr.2.loses
  · rw [lostBy,hg,Bool.and_assoc,Bool.and_comm]
    exact h'.loses
  · rw [lostBy,ht,hg]
    exact ⟨_,h',rfl⟩

theorem Sturdy.fetchPage_loses (h : Sturdy p held) (pid : PageId) :
    Spec (fetchPage pid) p (fun r p' => Loses held (lostBy p pid r.isOk) p') := by
  rw [fetchPage]
  simp only [spec_get_bind]
  cases ht : p.pageTable pid with
  | some i =>
    obtain ⟨f,hf,-⟩ := h.holds ht
    dsimp only
    simp only [lostBy_some ht]
    rw [spec_bind_ok (h.frameAt_eq hf)]
    exact (h.pin_spec (g := { f with refBit := true }) hf rfl id).bind (fun _ _ h1 => h1.1.loses)
      (fun _ _ h1 => h1.1.loses)
  | none => exact h.load_loses ht fun pg p' i h' _ _ => ⟨rfl,h'⟩

theorem Sturdy.pinned_sturdy (h : Sturdy p held) (ht : p.pageTable pid = some i)
    (hf : p.Holds i f) :
    Spec (do
      let p ← Prog.get
      let i ← Prog.ofOption (p.pageTable pid)
      let f ← frameAt i
      pin i { f with dirty := true, refBit := true }
      pure i) p (fun r p' => Sturdy p' held ∧ (f.pinCount + 1 < 2 ^ 32 → r.isOk = true)) := by
  simp only [spec_get_bind,ht,ofOption_some,pure_bind]
  rw [spec_bind_ok (h.frameAt_eq hf)]
  refine (h.pin_spec (g := { f with dirty := true, refBit := true }) hf rfl (by simp)).bind ?_ ?_
  · exact fun _ _ h1 => ⟨h1.1,fun _ => rfl⟩
  · exact fun e _ h1 => ⟨h1.1,fun hlt => absurd hlt (Nat.not_lt.mpr (h1.2.2 e rfl).2)⟩

theorem Sturdy.fetchPageMut_loses (h : Sturdy p held) (pid : PageId) :
    Spec (fetchPageMut pid) p (fun r p' => Loses held (lostBy p pid r.isOk) p') := by
  rw [fetchPageMut]
  simp only [spec_get_bind]
  cases ht : p.pageTable pid with
  | some i =>
    obtain ⟨f,hf,-⟩ := h.holds ht
    simp only [Option.isNone_some,Bool.false_eq_true,if_false,lostBy_some ht]
    exact (h.pinned_sturdy ht hf).mono fun _ _ h1 => h1.1.loses
  | none =>
    simp only [Option.isNone_none,if_true]
    refine h.load_loses ht fun pg p' i h' hslot hheld => ?_
    exact (h'.pinned_sturdy hslot hheld).mono fun _ _ h1 =>
      ⟨h1.2 (Nat.one_lt_two_pow (by decide)),h1.1⟩

end BufferPoolManager

open BufferPoolManager

def PoolCall.lost (p : BufferPoolManager) (c : PoolCall) (r : Except (Fault Error) PoolReply) :
    Nat := c.fetches.elim 0 fun pid => lostBy p pid r.isOk

theorem PoolCall.exec_loses {p : BufferPoolManager} {held : List Nat} {c : PoolCall}
    (h : Sturdy p held) (hc : c.IdsLeft p) :
    Spec c.exec p (fun r p' => Loses held (c.lost p r) p') := by
  cases c with
  | newPage =>
    exact (h.newPage_spec (hc rfl)).bind (fun _ _ h1 => h1.1.loses) (fun _ _ h1 => h1.1.loses)
  | fetchPage pid => exact (h.fetchPage_loses pid).bind (fun _ _ h1 => h1) (fun _ _ h1 => h1)
  | fetchPageMut pid data size =>
    have hfetch : Spec (BufferPoolManager.fetchPageMut pid) p (fun r p' =>
        Loses held (lostBy p pid r.isOk) p' ∧ FetchedMut p pid r p') :=
      ⟨h.fetchPageMut_loses pid,Intact.fetchPageMut_spec ⟨held,h⟩ pid⟩
    refine hfetch.bind (fun i p1 h1 => ?_) (fun _ _ h1 => h1.1)
    obtain ⟨⟨held',h1,hlen⟩,hf⟩ := h1
    obtain ⟨f,hheld,-,-,hd,-⟩ := hf.ok i rfl
    rw [spec_bind_ok (h1.frameAt_eq hheld),modifyPage,bind_assoc,
      spec_bind_ok (h1.frameAt_eq hheld)]
    exact ⟨held',(h1.reframed (g := { f with page := ⟨f.page.id,data,size⟩ }) hheld rfl
      (fun e => by rw [hd] at e; cases e)).1,hlen⟩
  | unpinPage pid dirty =>
    exact (h.unpinPage_spec pid dirty).bind (fun _ _ h1 => h1.1.loses) (fun _ _ h1 => h1.1.loses)
  | flushPage pid =>
    exact (h.flushPage_spec pid).bind (fun _ _ h1 => h1.1.loses) (fun _ _ h1 => h1.1.loses)
  | flushAll => exact h.flushAll_spec.bind (fun _ _ h1 => h1.1.loses) (fun _ _ h1 => h1.1.loses)

namespace PoolSession

variable {s : PoolSession}

def leaked (s : PoolSession) : List PoolCall → Nat
  | [] => 0
  | c :: calls => c.lost s.pool (c.exec s.pool).1 + (s.step c).leaked calls

theorem run_loses {held : List Nat} (h : Sturdy s.pool held) {calls : List PoolCall}
    (hc : s.IdsLeft calls) : Loses held (s.leaked calls) (s.run calls).pool := by
  induction calls generalizing s held with
  | nil => exact h.loses
  | cons c calls ih =>
    obtain ⟨held1,h1,hlen1⟩ : Loses held _ (s.step c).pool := PoolCall.exec_loses h hc.1
    obtain ⟨held2,h2,hlen2⟩ := ih h1 hc.2
    refine ⟨held2,h2,?_⟩
    rw [hlen2,hlen1,leaked,Nat.add_assoc]

theorem pool_leaks_exactly {file : Bytes} {faults : List (Option Nat)} {capacity : Nat}
    (hf : file.length / pageSize < 2 ^ 32) (hc : 1 ≤ capacity) {calls : List PoolCall}
    (hids : (load file faults capacity).IdsLeft calls) :
    let p := ((load file faults capacity).run calls).pool
    let n := (load file faults capacity).leaked calls
    p.stats.free + p.stats.occupied + n = p.stats.capacity ∧
      (∀ i f, p.Holds i f → i ∉ p.freeList) ∧
      ((∀ i < p.stats.capacity, i ∈ p.freeList ∨ ∃ f, p.Holds i f) ↔ n = 0) ∧
      (p.disk.numPages.toNat + 1 < 2 ^ 32 → ∀ e p', newPage p = (.error e,p') →
        p'.disk.numPages = p.disk.numPages + 1) := by
  intro p n
  have h0 : Sturdy (load file faults capacity).pool [] :=
    ⟨DiskManager.tame_open file faults hf,
      (quiet_new (DiskManager.tame_open file faults hf).settled hc).1.inv⟩
  obtain ⟨held,h,hlen⟩ : Loses [] n p := run_loses h0 hids
  rw [List.length_nil,Nat.zero_add] at hlen
  refine ⟨hlen ▸ h.stats_eq,fun i f hi hfree => ?_,⟨fun hall => ?_,fun hn i hi => ?_⟩,
    fun hlt e p' hnew => ((h.newPage_spec hlt).of_eq hnew).2.1⟩
  · have hempty : p.frames[i]? = some none := (h.inv.empty i).mpr (List.mem_append_right _ hfree)
    rw [Holds,hempty] at hi
    cases hi
  · -- a lost frame is neither free nor occupied
    rw [← hlen,List.length_eq_zero_iff,List.eq_nil_iff_forall_not_mem]
    intro i hi
    have hempty : p.frames[i]? = some none := (h.inv.empty i).mpr (List.mem_append_left _ hi)
    have hlt : i < p.frames.length := (List.getElem?_eq_some_iff.mp hempty).1
    rcases hall i (hlt.trans_eq h.sized.size) with hfree | ⟨f,hheld⟩
    · exact (List.nodup_append.mp h.inv.nodup).2.2 i hi i hfree rfl
    · rw [Holds,hempty] at hheld
      cases hheld
  · obtain rfl : held = [] := List.length_eq_zero_iff.mp (hlen.trans hn)
    have hlt : i < p.frames.length := hi.trans_eq h.sized.size.symm
    have hget := List.getElem?_eq_getElem hlt
    cases hs : p.frames[i] with
    | none => exact Or.inl ((h.inv.empty i).mp (hget.trans (congrArg some hs)))
    | some f => exact Or.inr ⟨f,hget.trans (congrArg some hs)⟩

-- Two frames: one is lost by the fetch of a page past the end of the file, the other one is taken.
theorem pool_leaks_exactly_fetch :
    let calls : List PoolCall := [.fetchPage 5,.newPage,.fetchPage 0,.unpinPage 0 false]
    (load [] [] 2).leaked calls = 1 ∧ ((load [] [] 2).run calls).pool.stats.free +
      ((load [] [] 2).run calls).pool.stats.occupied + 1 =
        ((load [] [] 2).run calls).pool.stats.capacity := by
  intro calls
  have hids : (load [] [] 2).IdsLeft calls := by
    refine ⟨fun e => ?_,fun _ => ?_,fun e => ?_,fun e => ?_,trivial⟩
    · cases e
    · decide +kernel
    · cases e
    · cases e
  have hlost : (load [] [] 2).leaked calls = 1 := by decide +kernel
  have h := (pool_leaks_exactly (by decide) (by decide) hids).1
  rw [hlost] at h
  exact ⟨hlost,h⟩

theorem failed_calls_leak :
    (fetchPage 5 (load [] [] 1).pool).1 = .error (.err .io) ∧
    ((load [] [] 1).run [.fetchPage 5]).pool.stats = ⟨1,0,0,0,0⟩ ∧
    ((load [] [] 1).run [.newPage]).pool.disk.numPages = 1 ∧
    (newPage ((load [] [] 1).run [.newPage]).pool).1 = .error (.err .bufferPoolFull) ∧
    (newPage ((load [] [] 1).run [.newPage]).pool).2.disk.numPages = 2 := by
  decide +kernel

end PoolSession

end StorageDb
