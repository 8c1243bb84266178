import Mathlib.Tactic
import StorageDb.Buffer.PoolInvariant

-- Bytes behind the last page that the disk manager counts change nothing but the file.
namespace StorageDb
open Bytes Prog

namespace DiskManager

def addTail (tail : Bytes) (d : DiskManager) : DiskManager := { d with file := d.file ++ tail }

variable {d : DiskManager} {tail : Bytes} {pg : Page} {p : PageId}

theorem pageAt_addTail (hp : d.pageAt p = some pg) : (d.addTail tail).pageAt p = some pg := by
  rw [pageAt] at hp ⊢
  split_ifs at hp with h
  have hlen : p.toNat * pageSize + pageSize ≤ (d.addTail tail).file.length :=
    h.trans (by rw [addTail,List.length_append]; omega)
  rw [dif_pos hlen,← hp]
  refine congrArg some (Page.ext rfl ?_)
  exact slice_append_left h

theorem store_addTail (h : Healthy d) (hp : pg.id.toNat < d.numPages.toNat) :
    (d.addTail tail).store pg = (d.store pg).addTail tail := by
  have hin : pg.id.toNat * pageSize + pg.data.length ≤ d.file.length := by
    rw [h.whole,pg.size,pageSize_eq]
    omega
  have hin' : pg.id.toNat * pageSize + pg.data.length ≤ (d.file ++ tail).length :=
    hin.trans (by rw [List.length_append]; omega)
  rw [store,store,addTail,addTail]
  dsimp only
  rw [overwrite_inside hin,overwrite_inside hin',splice_append_left hin]

end DiskManager

namespace BufferPoolManager
open DiskManager

variable {p : BufferPoolManager} {tail : Bytes} {n : UInt32} {i : Nat} {f : BufferFrame}
  {pid : PageId}

def addTail (tail : Bytes) (p : BufferPoolManager) : BufferPoolManager :=
  { p with disk := p.disk.addTail tail }

structure Snug (n : UInt32) (p : BufferPoolManager) : Prop where
  disk : p.disk.Healthy
  pages : p.disk.numPages = n
  known : ∀ i f, p.Holds i f → f.page.id < n

abbrev Tailed {α : Type} (tail : Bytes) (n : UInt32) (m : Prog Error BufferPoolManager α)
    (p : BufferPoolManager) : Prop := Carries (addTail tail) (fun _ => Snug n) m p

theorem Tailed.then {α β : Type} {m : Prog Error BufferPoolManager α}
    {f : α → Prog Error BufferPoolManager β} (h : Tailed tail n m p)
    (hf : ∀ a p', Snug n p' → Tailed tail n (f a) p') : Tailed tail n (m >>= f) p :=
  h.bind hf (fun _ _ h => h)

theorem Snug.setFrame {x : Option BufferFrame} (h : Snug n p)
    (hx : ∀ f, x = some f → f.page.id < n) :
    Snug n (setFrame i x p) := by
  refine ⟨h.disk,h.pages,fun j g hg => ?_⟩
  have hg : (p.frames.set i x)[j]? = some (some g) := hg
  rw [List.getElem?_set] at hg
  split_ifs at hg
  · exact hx g (Option.some.inj hg)
  · exact h.known j g hg

theorem Snug.frameAt (h : Snug n p) (i : Nat) : Carries (addTail tail)
    (fun r p' => p' = p ∧ ∀ f, r = .ok f → f.page.id < n) (frameAt i) p := by
  refine carries_get_bind rfl ?_
  cases hi : p.frames[i]? with
  | none => exact carries_fail ⟨rfl,fun f hf => (by cases hf)⟩
  | some x =>
    cases x with
    | none => exact carries_fail ⟨rfl,fun f hf => (by cases hf)⟩
    | some f =>
      refine carries_pure ⟨rfl,fun g hg => ?_⟩
      cases hg
      exact h.known i f hi

theorem Snug.reframe {g : BufferFrame} (h : Snug n p) (hg : g.page.id < n) :
    Tailed tail n (Prog.modify (BufferPoolManager.setFrame i (some g))) p :=
  carries_modify rfl (h.setFrame fun f hf => by cases hf; exact hg)

theorem Snug.writePage (h : Snug n p) {pg : Page} (hp : pg.id < n) :
    Tailed tail n (onDisk (DiskManager.writePage pg)) p := by
  have hlt : pg.id.toNat < p.disk.numPages.toNat := by
    rw [h.pages]
    exact UInt32.lt_iff_toNat_lt.mp hp
  have h1 := writePage_eq h.disk.calm pg
  have h2 := writePage_eq (d := p.disk.addTail tail) h.disk.calm pg
  rw [store_addTail h.disk hlt] at h2
  refine ⟨?_,?_⟩
  · rw [onDisk,zoom,zoom,addTail]
    dsimp only
    rw [h1,h2]
    rfl
  · rw [onDisk,spec_zoom,Spec,h1]
    exact ⟨h.disk.store hlt,h.pages,h.known⟩

theorem Snug.readPage (h : Snug n p) (hp : pid < n) : Carries (addTail tail)
    (fun r p' => Snug n p' ∧ ∀ pg, r = .ok pg → pg.id < n)
    (onDisk (DiskManager.readPage pid)) p := by
  have hlt : pid.toNat < p.disk.numPages.toNat := by
    rw [h.pages]
    exact UInt32.lt_iff_toNat_lt.mp hp
  obtain ⟨pg,hpg⟩ := Option.isSome_iff_exists.mp (h.disk.pageAt_isSome.mpr hlt)
  have h1 := readPage_eq h.disk.calm hpg
  have h2 := readPage_eq (d := p.disk.addTail tail) h.disk.calm (pageAt_addTail hpg)
  refine ⟨?_,?_⟩
  · rw [onDisk,zoom,zoom,addTail]
    dsimp only
    rw [h1,h2]
    rfl
  · rw [onDisk,spec_zoom,Spec,h1]
    refine ⟨h,fun pg' he => ?_⟩
    cases he
    rwa [pageAt_id hpg]

theorem Snug.evict (h : Snug n p) (hf : f.page.id < n) :
    Tailed tail n (evict f) p := by
  have finish (p : BufferPoolManager) (h : Snug n p) : Tailed tail n (do
      let p ← Prog.get
      Prog.modify (fun p => advance (BufferPoolManager.setFrame p.clockHand none
        (mapPage f.page.id none p)))
      pure p.clockHand) p := by
    refine carries_get_bind rfl ?_
    refine Tailed.then (carries_modify rfl ?_) (fun _ _ h => carries_pure h)
    have h1 : Snug n (mapPage f.page.id none p) := ⟨h.disk,h.pages,h.known⟩
    have h2 := h1.setFrame (i := p.clockHand) (x := none) (fun f hf => (by cases hf))
    exact ⟨h2.disk,h2.pages,h2.known⟩
  rw [BufferPoolManager.evict]
  split_ifs
  · exact (h.writePage hf).then (fun _ p' h' => finish p' h')
  · exact finish p h

theorem Snug.clockStep (h : Snug n p) (spare : Bool) :
    Tailed tail n (clockStep spare) p := by
  have step (p : BufferPoolManager) (h : Snug n p) : Tailed tail n (do
      Prog.modify advance
      (pure none : Prog Error BufferPoolManager (Option Nat))) p :=
    Tailed.then (carries_modify rfl ⟨h.disk,h.pages,h.known⟩)
      (fun _ _ h => carries_pure h)
  refine carries_get_bind rfl ?_
  cases hs : p.frames[p.clockHand]? with
  | none => exact carries_fail h
  | some x =>
    cases x with
    | none => exact step p h
    | some f =>
      have hf := h.known _ f hs
      change Carries _ _ (if f.pinCount = 0 then _ else _) p
      split_ifs
      · exact (h.reframe (g := { f with refBit := false }) hf).then (fun _ p' h' => step p' h')
      · exact (h.evict hf).then (fun _ _ h => carries_pure h)
      · exact step p h

theorem Snug.lastPass (h : Snug n p) (k : Nat) :
    Tailed tail n (lastPass k) p := by
  induction k generalizing p with
  | zero => exact carries_fail h
  | succ k ih =>
    refine (h.clockStep false).then (fun victim p' h' => ?_)
    cases victim with
    | none => exact ih h'
    | some i => exact carries_pure h'

theorem Snug.clockLoop (h : Snug n p) (start fuel : Nat) :
    Tailed tail n (clockLoop start fuel) p := by
  induction fuel generalizing p with
  | zero => exact carries_fail h
  | succ fuel ih =>
    refine (h.clockStep true).then (fun victim p' h' => ?_)
    cases victim with
    | none =>
      refine carries_get_bind rfl ?_
      split_ifs
      · exact h'.lastPass _
      · exact ih h'
    | some i => exact carries_pure h'

theorem Snug.getFreeFrame (h : Snug n p) :
    Tailed tail n getFreeFrame p := by
  refine carries_get_bind rfl ?_
  cases p.freeList with
  | nil => exact h.clockLoop _ _
  | cons i rest =>
    exact Tailed.then (carries_modify rfl ⟨h.disk,h.pages,h.known⟩)
      (fun _ _ h => carries_pure h)

theorem Snug.install (h : Snug n p) (hf : f.page.id < n) :
    Tailed tail n (install pid i f) p := by
  refine carries_get_bind rfl ?_
  split_ifs
  · have h1 := h.setFrame (i := i) (x := some f) (fun g hg => by cases hg; exact hf)
    exact carries_modify rfl ⟨h1.disk,h1.pages,h1.known⟩
  · exact carries_fail h

theorem Snug.pin (h : Snug n p) (hf : f.page.id < n) :
    Tailed tail n (pin i f) p := by
  rw [BufferPoolManager.pin]
  split_ifs
  · exact h.reframe hf
  · exact carries_fail h

theorem Snug.fetchPageMut (h : Snug n p) (hp : pid < n) :
    Tailed tail n (fetchPageMut pid) p := by
  have finish (p : BufferPoolManager) (h : Snug n p) : Tailed tail n (do
      let p ← Prog.get
      let i ← Prog.ofOption (p.pageTable pid)
      let f ← BufferPoolManager.frameAt i
      BufferPoolManager.pin i { f with dirty := true, refBit := true }
      pure i) p := by
    refine carries_get_bind rfl ?_
    cases p.pageTable pid with
    | none => exact carries_fail h
    | some i =>
      refine (h.frameAt i).bind ?_ (fun _ _ h' => h'.1 ▸ h)
      rintro f p' ⟨rfl,hf⟩
      exact (h.pin (f := { f with dirty := true, refBit := true }) (hf f rfl)).then
        (fun _ _ h => carries_pure h)
  refine carries_get_bind rfl ?_
  split_ifs
  · refine h.getFreeFrame.then (fun i p' h' => ?_)
    refine (h'.readPage hp).bind (fun pg p'' h'' => ?_) (fun _ _ h => h.1)
    exact (h''.1.install (h''.2 pg rfl)).then (fun _ p' h' => finish p' h')
  · exact finish p h

theorem Snug.modifyPage (h : Snug n p) {g : Page → Page} (hg : ∀ pg, (g pg).id = pg.id) :
    Tailed tail n (modifyPage i g) p := by
  refine (h.frameAt i).bind ?_ (fun _ _ h' => h'.1 ▸ h)
  rintro f p' ⟨rfl,hf⟩
  exact h.reframe (by rw [hg]; exact hf f rfl)

theorem Snug.unpinPage (h : Snug n p) (dirty : Bool) :
    Tailed tail n (unpinPage pid dirty) p := by
  refine carries_get_bind rfl ?_
  cases p.pageTable pid with
  | none => exact carries_fail h
  | some i =>
    refine (h.frameAt i).bind ?_ (fun _ _ h' => h'.1 ▸ h)
    rintro f p' ⟨rfl,hf⟩
    exact h.reframe (hf f rfl)

theorem Snug.flushFrames (h : Snug n p) (is : List Nat) :
    Tailed tail n (flushFrames is) p := by
  induction is generalizing p with
  | nil => exact carries_pure h
  | cons i is ih =>
    refine carries_get_bind rfl ?_
    cases hs : p.frames[i]? with
    | none => exact carries_fail h
    | some x =>
      cases x with
      | none => exact ih h
      | some f =>
        have hf := h.known i f hs
        have finish (p : BufferPoolManager) (h : Snug n p) :
            Tailed tail n (do
              Prog.modify (BufferPoolManager.setFrame i (some { f with dirty := false }))
              BufferPoolManager.flushFrames is) p :=
          (h.reframe (g := { f with dirty := false }) hf).then (fun _ _ h => ih h)
        change Carries _ _ (if f.dirty then _ else _) p
        split_ifs
        · exact (h.writePage hf).then (fun _ p' h' => finish p' h')
        · exact finish p h

theorem Snug.flushAll (h : Snug n p) : Tailed tail n flushAll p := by
  refine carries_get_bind rfl ?_
  refine (h.flushFrames _).then (fun _ p' h' => ?_)
  have h1 := sync_eq h'.disk.calm
  have h2 := sync_eq (d := p'.disk.addTail tail) h'.disk.calm
  refine ⟨?_,?_⟩
  · rw [onDisk,zoom,zoom,addTail]
    dsimp only
    rw [h1,h2]
    rfl
  · rw [onDisk,spec_zoom,Spec,h1]
    exact h'

end BufferPoolManager

end StorageDb
