import Mathlib.Tactic
import StorageDb.Buffer.FaultyPool

namespace StorageDb
open Prog

namespace BufferPoolManager
open DiskManager

variable {p p' : BufferPoolManager} {held : List Nat} {i : Nat} {f g : BufferFrame} {pid : PageId}
  {d : DiskManager}

-- Frames may have been lost to failed calls.
def Intact (p : BufferPoolManager) : Prop := ∃ held, Sturdy p held

-- A disk that has every page it had, and perhaps more.
theorem Sturdy.keeps_pages (h : Sturdy p held) (htame : d.Tame)
    (hpages : ∀ q pg, p.disk.pageAt q = some pg → d.pageAt q = some pg) :
    Sturdy (withDisk d p) held ∧ Steady p (withDisk d p) := by
  constructor
  · refine h.redisk htame (fun i f hf => ?_) (fun i f hf hc => hpages _ _ (h.clean hf hc))
    obtain ⟨pg,hpg⟩ := Option.isSome_iff_exists.mp (h.filed hf)
    rw [hpages _ _ hpg]
    rfl
  · refine ⟨fun q pg hq => ?_,rfl,fun _ _ hq _ => hq⟩
    cases hj : p.pageTable q with
    | none =>
      rw [lookup_of_absent hj] at hq
      rw [lookup_of_absent (p := withDisk d p) hj]
      exact hpages q pg hq
    | some j =>
      obtain ⟨f,hf,-⟩ := h.holds hj
      rw [lookup_of_holds hj hf] at hq
      rw [← hq]
      exact lookup_of_holds (p := withDisk d p) hj hf

theorem Sturdy.redisked (h : Sturdy p held) (hfile : d.file = p.disk.file)
    (hn : d.numPages = p.disk.numPages) :
    Sturdy (withDisk d p) held ∧ Steady p (withDisk d p) := by
  refine h.keeps_pages ⟨by rw [hfile,hn]; exact h.disk.tail⟩ fun q pg hq => ?_
  rw [pageAt_of_file hfile]
  exact hq

theorem Sturdy.load_spec {α : Type} {n : Nat} {k : Page → Prog Error BufferPoolManager α}
    {Q : Except (Fault Error) α → BufferPoolManager → Prop} (h : Sturdy p held)
    (ht : p.pageTable pid = none)
    (hk : ∀ pg p' i, p.lookup pid = some pg → Sturdy p' held →
      Moves p p' p.lookup (Function.update p.pins pid n) → p'.pageTable pid = some i →
      p'.Holds i ⟨pg,n,false,true⟩ → p'.disk.numPages = p.disk.numPages → Spec (k pg) p' Q)
    (hfull : ∀ x p', getFreeFrame p = (.error (.err x),p') → Sturdy p' held → Steady p p' →
      Q (.error (.err x)) p')
    (hread : ∀ x i p₁ p', getFreeFrame p = (.ok i,p₁) → Sturdy p' (i :: held) → Steady p p' →
      Q (.error (.err x)) p') :
    Spec (do
      let i ← getFreeFrame
      let page ← onDisk (readPage pid)
      install pid i ⟨page,n,false,true⟩
      k page) p Q := by
  rcases hg : getFreeFrame p with ⟨r,p1⟩
  have hfound := h.getFreeFrame_found.of_eq hg
  cases r with
  | error e =>
    obtain ⟨h1,x,rfl⟩ := hfound.error e rfl
    rw [Spec,bind_error hg]
    exact hfull x p1 hg h1 (hfound.keeps.steady h h1 hfound.stays)
  | ok i =>
    have h1 := hfound.ok i rfl
    have hsteady := hfound.keeps.steady h h1 hfound.stays
    have ht1 := hfound.keeps.stays_absent h h1 ht
    rcases hr : readPage pid p1.disk with ⟨r,d⟩
    obtain ⟨hfile,hn,hok,herr⟩ := (readPage_spec p1.disk pid).of_eq hr
    obtain ⟨h2,hsteady'⟩ := h1.redisked hfile hn
    have hon : onDisk (readPage pid) p1 = (r,withDisk d p1) := by
      rw [onDisk,Prog.zoom,hr]
      rfl
    rw [spec_bind_ok hg]
    cases r with
    | error e =>
      obtain rfl := herr e rfl
      rw [Spec,bind_error hon]
      exact hread _ i p1 _ hg h2 (hsteady.after hsteady')
    | ok pg =>
      have hat : p1.disk.pageAt pid = some pg := hok pg rfl
      have hlook : p.lookup pid = some pg := by
        rw [← hfound.keeps.lookup,lookup_of_absent ht1,hat]
      obtain rfl : pg.id = pid := pageAt_id hat
      have hat' : d.pageAt pg.id = some pg := by rw [pageAt_of_file hfile,hat]
      obtain ⟨p2,hinst,h3,hm,hheld,hslot,hdisk⟩ := h2.install_eq (f := ⟨pg,n,false,true⟩) ht1
        (by rw [show (withDisk d p1).disk.pageAt pg.id = some pg from hat']; rfl) (fun _ => hat')
      rw [spec_bind_ok hon,spec_bind_ok hinst]
      refine hk pg p2 i hlook h3 ?_ hslot hheld
        ((congrArg DiskManager.numPages hdisk).trans (hn.trans hfound.keeps.pages))
      have hm' := (hsteady.after hsteady').trans hm
      rw [hsteady'.pins,hsteady.pins] at hm'
      refine ⟨fun q x hq => hm'.lookup q x ?_,hm'.pins,hm'.stays⟩
      rw [Function.update_apply]
      split_ifs with hqp
      · rw [hqp,hlook] at hq
        exact hq
      · exact (hsteady.after hsteady').lookup q x hq

theorem Sturdy.frameAt_eq (_ : Sturdy p held) (hf : p.Holds i f) : frameAt i p = (.ok f,p) := by
  have hh : p.frames[i]? = some (some f) := hf
  simp [frameAt,hh]

theorem Sturdy.pin_spec (h : Sturdy p held) (hf : p.Holds i f) (hpg : g.page = f.page)
    (hc : g.dirty = false → f.dirty = false) :
    Spec (pin i g) p (fun r p' => Sturdy p' held ∧
      (∀ u, r = .ok u → p'.Holds i { g with pinCount := g.pinCount + 1 } ∧
        p'.disk = p.disk ∧
        Moves p p' p.lookup (Function.update p.pins f.page.id (g.pinCount + 1))) ∧
      ∀ e, r = .error e → p' = p ∧ 2 ^ 32 ≤ g.pinCount + 1) := by
  rw [pin]
  split_ifs with hlt
  · obtain ⟨h1,h2⟩ := h.repinned (g := { g with pinCount := g.pinCount + 1 }) hf hpg hc
    refine ⟨h1,fun _ _ => ⟨?_,rfl,h2⟩,fun _ e => by cases e⟩
    exact (getElem?_setFrame hf.lt _ i).trans (if_pos rfl)
  · exact ⟨h,fun _ e => (by cases e),fun _ _ => ⟨rfl,Nat.le_of_not_lt hlt⟩⟩

structure Fetched (p : BufferPoolManager) (pid : PageId) (r : Except (Fault Error) Page)
    (p' : BufferPoolManager) : Prop where
  intact : Intact p'
  ok : ∀ pg, r = .ok pg → p.lookup pid = some pg ∧ p'.disk.numPages = p.disk.numPages ∧
    Moves p p' p.lookup (Function.update p.pins pid (p.pins pid + 1))
  error : ∀ e, r = .error e → Steady p p' ∧
    (p.pins pid + 1 < 2 ^ 32 → p.pageTable pid = none ∧ ∃ x, e = .err x)

theorem Intact.fetchPage_spec (h : Intact p) (pid : PageId) :
    Spec (fetchPage pid) p (Fetched p pid) := by
  obtain ⟨held,h⟩ := h
  rw [fetchPage]
  simp only [spec_get_bind]
  cases ht : p.pageTable pid with
  | some i =>
    obtain ⟨f,hf,rfl⟩ := h.holds ht
    dsimp only
    rw [spec_bind_ok (h.frameAt_eq hf)]
    refine (h.pin_spec (g := { f with refBit := true }) hf rfl id).bind ?_ ?_
    · rintro u p' ⟨h1,hok,-⟩
      refine ⟨⟨_,h1⟩,fun pg e => ?_,fun _ e => by cases e⟩
      cases e
      rw [pins_of_holds ht hf]
      obtain ⟨-,hdisk,hm⟩ := hok u rfl
      exact ⟨lookup_of_holds ht hf,congrArg DiskManager.numPages hdisk,hm⟩
    · rintro e p' ⟨h1,-,herr⟩
      obtain ⟨rfl,hbig⟩ := herr e rfl
      refine ⟨⟨_,h1⟩,fun _ e => (by cases e),fun _ _ => ⟨.refl _,fun hlt => ?_⟩⟩
      rw [pins_of_holds ht hf] at hlt
      exact absurd hlt (Nat.not_lt.mpr hbig)
  | none =>
    have herr {x : Error} {p' : BufferPoolManager} (hi : Intact p') (hs : Steady p p') :
        Fetched p pid (.error (.err x)) p' :=
      ⟨hi,fun _ e => (by cases e),fun _ e => by cases e; exact ⟨hs,fun _ => ⟨ht,x,rfl⟩⟩⟩
    refine h.load_spec ht (fun pg p' i hl hi hm _ _ hn => ?_) (fun _ _ _ hi => herr ⟨_,hi⟩)
      (fun _ _ _ _ _ hi => herr ⟨_,hi⟩)
    refine ⟨⟨_,hi⟩,fun pg' e => ?_,fun _ e => by cases e⟩
    cases e
    rw [pins_of_absent ht]
    exact ⟨hl,hn,hm⟩

structure FetchedMut (p : BufferPoolManager) (pid : PageId) (r : Except (Fault Error) Nat)
    (p' : BufferPoolManager) : Prop where
  intact : Intact p'
  ok : ∀ i, r = .ok i → ∃ f, p'.Holds i f ∧ p.lookup pid = some f.page ∧ f.page.id = pid ∧
    f.dirty = true ∧ p'.disk.numPages = p.disk.numPages ∧
    Moves p p' p.lookup (Function.update p.pins pid (p.pins pid + 1))
  error : ∀ e, r = .error e → Steady p p' ∧
    (p.pins pid + 1 < 2 ^ 32 → p.pageTable pid = none ∧ ∃ x, e = .err x)

theorem Sturdy.pinned_spec (h : Sturdy p held) (ht : p.pageTable pid = some i) (hf : p.Holds i f) :
    Spec (do
      let p ← Prog.get
      let i ← Prog.ofOption (p.pageTable pid)
      let f ← frameAt i
      pin i { f with dirty := true, refBit := true }
      pure i) p (FetchedMut p pid) := by
  simp only [spec_get_bind,ht,ofOption_some,pure_bind]
  rw [spec_bind_ok (h.frameAt_eq hf)]
  have hid : f.page.id = pid := by
    obtain ⟨g,hg,rfl⟩ := h.holds ht
    rw [hf.unique hg]
  refine (h.pin_spec (g := { f with dirty := true, refBit := true }) hf rfl (by simp)).bind ?_ ?_
  · rintro u p' ⟨h1,hok,-⟩
    refine ⟨⟨_,h1⟩,fun j e => ?_,fun _ e => by cases e⟩
    cases e
    obtain ⟨hheld,hdisk,hm⟩ := hok u rfl
    rw [hid] at hm
    have hlook : p.lookup pid = some f.page := lookup_of_holds ht hf
    rw [pins_of_holds ht hf]
    exact ⟨_,hheld,hlook,hid,rfl,congrArg DiskManager.numPages hdisk,hm⟩
  · rintro e p' ⟨h1,-,herr⟩
    obtain ⟨rfl,hbig⟩ := herr e rfl
    refine ⟨⟨_,h1⟩,fun _ e => (by cases e),fun _ _ => ⟨.refl _,fun hlt => ?_⟩⟩
    rw [pins_of_holds ht hf] at hlt
    exact absurd hlt (Nat.not_lt.mpr hbig)

theorem Intact.fetchPageMut_spec (h : Intact p) (pid : PageId) :
    Spec (fetchPageMut pid) p (FetchedMut p pid) := by
  obtain ⟨held,h⟩ := h
  rw [fetchPageMut]
  simp only [spec_get_bind]
  cases ht : p.pageTable pid with
  | some i =>
    obtain ⟨f,hf,-⟩ := h.holds ht
    simp only [Option.isNone_some,Bool.false_eq_true,if_false]
    exact h.pinned_spec ht hf
  | none =>
    simp only [Option.isNone_none,if_true]
    have herr {x : Error} {p' : BufferPoolManager} (hi : Intact p') (hs : Steady p p') :
        FetchedMut p pid (.error (.err x)) p' :=
      ⟨hi,fun _ e => (by cases e),fun _ e => by cases e; exact ⟨hs,fun _ => ⟨ht,x,rfl⟩⟩⟩
    refine h.load_spec ht (fun pg p1 i hl h1 hm hslot hheld hn => ?_) (fun _ _ _ hi => herr ⟨_,hi⟩)
      (fun _ _ _ _ _ hi => herr ⟨_,hi⟩)
    have hsteady : Steady p p1 := by
      rw [← pins_of_absent ht,Function.update_eq_self] at hm
      exact hm
    refine Spec.mono (h1.pinned_spec hslot hheld) fun r p' hf =>
      ⟨hf.intact,fun j e => ?_,fun e he => ?_⟩
    · obtain ⟨f,hf,hlook,hid,hd,hn',hm'⟩ := hf.ok j e
      have hpage : some f.page = some pg := hlook.symm.trans (hsteady.lookup pid pg hl)
      rw [hsteady.pins] at hm'
      have hm'' := hsteady.trans hm'
      exact ⟨f,hf,hl.trans hpage.symm,hid,hd,hn'.trans hn,
        fun q x hq => hm''.lookup q x (hsteady.lookup q x hq),hm''.pins,hm''.stays⟩
    · obtain ⟨hs,hkind⟩ := hf.error e he
      rw [hsteady.pins] at hkind
      exact ⟨hsteady.after hs,fun hlt => ⟨ht,(hkind hlt).2⟩⟩

theorem Sturdy.unpinPage_spec (h : Sturdy p held) (pid : PageId) (dirty : Bool) :
    Spec (unpinPage pid dirty) p (fun r p' => Sturdy p' held ∧
      (∀ u, r = .ok u → p'.disk.numPages = p.disk.numPages ∧
        Moves p p' p.lookup (Function.update p.pins pid (p.pins pid - 1))) ∧
      ∀ e, r = .error e → p' = p ∧ p.pageTable pid = none) := by
  rw [unpinPage]
  simp only [spec_get_bind]
  cases ht : p.pageTable pid with
  | none => exact ⟨h,fun _ e => (by cases e),fun _ _ => ⟨rfl,rfl⟩⟩
  | some i =>
    obtain ⟨f,hf,rfl⟩ := h.holds ht
    obtain ⟨h1,hm⟩ := h.repinned
      (g := { f with pinCount := f.pinCount - 1, dirty := f.dirty || dirty }) hf rfl
      (fun e => (Bool.or_eq_false_iff.mp e).1)
    dsimp only
    rw [spec_bind_ok (h.frameAt_eq hf),pins_of_holds ht hf]
    exact ⟨h1,fun _ _ => ⟨rfl,hm⟩,fun _ e => by cases e⟩

theorem Intact.unpinPage_spec (h : Intact p) (pid : PageId) (dirty : Bool) :
    Spec (unpinPage pid dirty) p (fun r p' => Intact p' ∧
      (∀ u, r = .ok u → p'.disk.numPages = p.disk.numPages ∧
        Moves p p' p.lookup (Function.update p.pins pid (p.pins pid - 1))) ∧
      ∀ e, r = .error e → p' = p ∧ p.pageTable pid = none) := by
  obtain ⟨held,h⟩ := h
  exact (h.unpinPage_spec pid dirty).mono fun _ _ hr => ⟨⟨held,hr.1⟩,hr.2⟩

theorem Sturdy.absent_numPages (h : Sturdy p held) : p.pageTable p.disk.numPages = none := by
  cases ht : p.pageTable p.disk.numPages with
  | none => rfl
  | some i =>
    obtain ⟨f,hf,hid⟩ := h.holds ht
    have hin := pageAt_isSome.mp (h.filed hf)
    have htail := h.disk.tail
    rw [hid] at hin
    rw [pageSize_eq] at *
    omega

theorem Sturdy.newPage_spec (h : Sturdy p held) (hn : p.disk.numPages.toNat + 1 < 2 ^ 32) :
    Spec newPage p (fun r p' => Sturdy p' held ∧ p'.disk.numPages = p.disk.numPages + 1 ∧
      (∀ id, r = .ok id → id = p.disk.numPages ∧
        Moves p p' (Function.update p.lookup id (some (Page.new id)))
          (Function.update p.pins id 1)) ∧
      ∀ e, r = .error e → Steady p p' ∧ ∃ x, e = .err x) := by
  have ht := h.absent_numPages
  rcases ha : DiskManager.allocatePage p.disk with ⟨r,d⟩
  obtain ⟨htame,hpages,hok,hnum,herr⟩ := (h.disk.allocatePage_spec hn).of_eq ha
  obtain ⟨h1,hsteady⟩ := h.keeps_pages htame hpages
  have hon : onDisk DiskManager.allocatePage p = (r,withDisk d p) := by
    rw [onDisk,Prog.zoom,ha]
    rfl
  rw [newPage]
  cases r with
  | error e =>
    rw [Spec,bind_error hon]
    exact ⟨h1,hnum,fun _ e => (by cases e),fun _ he => by cases he; exact ⟨hsteady,_,herr e rfl⟩⟩
  | ok id =>
    obtain ⟨rfl,hsome⟩ := hok id rfl
    rw [spec_bind_ok hon]
    refine h1.getFreeFrame_found.bind ?_ ?_
    · intro i p2 hfound
      have h2 := hfound.ok i rfl
      have hsteady' := hsteady.after (hfound.keeps.steady h1 h2 hfound.stays)
      have ht2 : p2.pageTable p.disk.numPages = none := hfound.keeps.stays_absent h1 h2 ht
      have hsome2 : (p2.disk.pageAt p.disk.numPages).isSome = true := by
        rw [← lookup_of_absent ht2,hfound.keeps.lookup,lookup_of_absent (p := withDisk d p) ht]
        exact hsome
      obtain ⟨p3,hinst,h3,hm,-,-,hdisk⟩ := h2.install_eq
        (f := ⟨Page.new p.disk.numPages,1,true,true⟩) ht2
        hsome2 (fun e => by cases e)
      have hid : (Page.new p.disk.numPages).id = p.disk.numPages := rfl
      simp only [hid] at hinst hm
      rw [spec_bind_ok hinst]
      refine ⟨h3,(congrArg DiskManager.numPages hdisk).trans (hfound.keeps.pages.trans hnum),
        fun id e => ?_,fun _ e => by cases e⟩
      cases e
      have hm' := hsteady'.trans hm
      rw [hsteady'.pins] at hm'
      refine ⟨rfl,fun q pg hq => hm'.lookup q pg ?_,hm'.pins,hm'.stays⟩
      rw [Function.update_apply] at hq ⊢
      split_ifs at hq with hid
      · rw [if_pos hid]
        exact hq
      · rw [if_neg hid]
        exact hsteady'.lookup q pg hq
    · intro e p2 hfound
      obtain ⟨h2,x,rfl⟩ := hfound.error e rfl
      refine ⟨h2,hfound.keeps.pages.trans hnum,fun _ e => (by cases e),fun _ he => ?_⟩
      cases he
      exact ⟨hsteady.after (hfound.keeps.steady h1 h2 hfound.stays),x,rfl⟩

theorem Intact.newPage_spec (h : Intact p) (hn : p.disk.numPages.toNat + 1 < 2 ^ 32) :
    Spec newPage p (fun r p' => Intact p' ∧
      (∀ id, r = .ok id → id = p.disk.numPages ∧ p'.disk.numPages = p.disk.numPages + 1 ∧
        Moves p p' (Function.update p.lookup id (some (Page.new id)))
          (Function.update p.pins id 1)) ∧
      ∀ e, r = .error e → Steady p p' ∧ ∃ x, e = .err x) := by
  obtain ⟨held,h⟩ := h
  refine (h.newPage_spec hn).mono fun _ _ hr => ⟨⟨held,hr.1⟩,fun id e => ?_,hr.2.2.2⟩
  obtain ⟨hid,hm⟩ := hr.2.2.1 id e
  exact ⟨hid,hr.2.1,hm⟩

theorem Sturdy.cleaned (h : Sturdy p held) (hf : p.Holds i f)
    (hat : p.disk.pageAt f.page.id = some f.page) :
    Sturdy (setFrame i (some { f with dirty := false }) p) held ∧
      Steady p (setFrame i (some { f with dirty := false }) p) := by
  obtain ⟨hs,hm⟩ := h.reframed (g := { f with dirty := false }) hf rfl (fun _ => hat)
  rw [← lookup_of_holds (h.slot hf) hf,Function.update_eq_self] at hm
  have hpins : Function.update p.pins f.page.id f.pinCount = p.pins := by
    rw [← pins_of_holds (h.slot hf) hf,Function.update_eq_self]
  have hm' : Moves p _ p.lookup (Function.update p.pins f.page.id f.pinCount) := hm
  rw [hpins] at hm'
  exact ⟨hs,hm'⟩

theorem Sturdy.onDisk_writeBack (h : Sturdy p held) (hf : p.Holds i f) :
    Spec (onDisk (writeBack f)) p (fun r p' => Sturdy p' held ∧ Steady p p' ∧ p'.frames = p.frames ∧
      p'.capacity = p.capacity ∧ (∀ u, r = .ok u → p'.disk.pageAt f.page.id = some f.page)) := by
  rw [onDisk,spec_zoom]
  refine (h.writeBack_spec hf).mono fun r d hw => ?_
  obtain ⟨hs,-,hlook,hok,-⟩ := hw
  exact ⟨hs,⟨fun q pg hq => (congrFun hlook q).trans hq,rfl,fun _ _ hq _ => hq⟩,rfl,rfl,
    fun _ e => hok e⟩

theorem Sturdy.flushPage_spec (h : Sturdy p held) (pid : PageId) :
    Spec (flushPage pid) p (fun r p' => Sturdy p' held ∧ Steady p p' ∧
      ∀ u, r = .ok u → ∀ pg, p.lookup pid = some pg → p'.disk.pageAt pid = some pg) := by
  rw [flushPage]
  simp only [spec_get_bind]
  cases ht : p.pageTable pid with
  | none => exact ⟨h,.refl p,fun _ _ pg hpg => by rwa [lookup_of_absent ht] at hpg⟩
  | some i =>
    obtain ⟨f,hf,rfl⟩ := h.holds ht
    dsimp only
    rw [spec_bind_ok (h.frameAt_eq hf),lookup_of_holds ht hf]
    split_ifs with hd
    · have hwrite : onDisk (DiskManager.writePage f.page) = onDisk (writeBack f) := by
        rw [writeBack,if_pos hd]
      rw [hwrite]
      refine (h.onDisk_writeBack hf).bind ?_ ?_
      · rintro u p' ⟨h1,hsteady,hframes,-,hok⟩
        have hf' : p'.Holds i f := by rwa [Holds,hframes]
        obtain ⟨h2,hsteady'⟩ := h1.cleaned hf' (hok u rfl)
        refine ⟨h2,hsteady.after hsteady',fun _ _ pg e => ?_⟩
        cases e
        exact hok u rfl
      · rintro e p' ⟨h1,hsteady,-⟩
        exact ⟨h1,hsteady,fun _ e => by cases e⟩
    · refine ⟨h,.refl p,fun _ _ pg e => ?_⟩
      cases e
      exact h.clean hf (Bool.eq_false_iff.mpr hd)

theorem Intact.flushPage_spec (h : Intact p) (pid : PageId) :
    Spec (flushPage pid) p (fun r p' => Intact p' ∧ Steady p p' ∧
      ∀ u, r = .ok u → ∀ pg, p.lookup pid = some pg → p'.disk.pageAt pid = some pg) := by
  obtain ⟨held,h⟩ := h
  exact (h.flushPage_spec pid).mono fun _ _ hr => ⟨⟨held,hr.1⟩,hr.2⟩

theorem writeBack_bind {α : Type} (f : BufferFrame) (rest : Prog Error BufferPoolManager α) :
    (if f.dirty = true then onDisk (DiskManager.writePage f.page) >>= fun _ => rest else rest) =
      onDisk (writeBack f) >>= fun _ => rest := by
  rw [writeBack]
  cases f.dirty <;> rfl

theorem Sturdy.flushFrames_spec (h : Sturdy p held) {is : List Nat}
    (his : ∀ i ∈ is, i < p.capacity) :
    Spec (flushFrames is) p (fun r p' => Sturdy p' held ∧ Steady p p' ∧ p'.capacity = p.capacity ∧
      ∀ u, r = .ok u → ∀ j g, p'.Holds j g → g.dirty = true → j ∉ is ∧ p.Holds j g) := by
  induction is generalizing p with
  | nil => exact ⟨h,.refl p,rfl,fun _ _ j g hg _ => ⟨List.not_mem_nil,hg⟩⟩
  | cons i is ih =>
    have hlt : i < p.frames.length := h.sized.size ▸ his i List.mem_cons_self
    have hget := List.getElem?_eq_getElem hlt
    rw [flushFrames]
    simp only [spec_get_bind,hget,ofOption_some,pure_bind]
    cases hs : p.frames[i] with
    | none =>
      rw [hs] at hget
      refine Spec.mono (ih h fun j hj => his j (List.mem_cons_of_mem _ hj)) fun r p' hr => ?_
      obtain ⟨h1,hsteady,hcap,hok⟩ := hr
      refine ⟨h1,hsteady,hcap,fun u e j g hg hd => ?_⟩
      obtain ⟨hnot,hg'⟩ := hok u e j g hg hd
      refine ⟨fun hmem => ?_,hg'⟩
      rcases List.mem_cons.mp hmem with rfl | hmem
      · rw [Holds,hget] at hg'
        cases hg'
      · exact hnot hmem
    | some f =>
      rw [hs] at hget
      have hf : p.Holds i f := hget
      dsimp only
      rw [writeBack_bind]
      refine (h.onDisk_writeBack hf).bind ?_ ?_
      · rintro u p1 ⟨h1,hsteady,hframes,hcap,hok⟩
        have hf1 : p1.Holds i f := by rwa [Holds,hframes]
        obtain ⟨h2,hsteady'⟩ := h1.cleaned hf1 (hok u rfl)
        rw [spec_modify_bind]
        refine Spec.mono (ih h2 fun j hj => ?_) fun r p' hr => ?_
        · change j < p1.capacity
          rw [hcap]
          exact his j (List.mem_cons_of_mem _ hj)
        obtain ⟨h3,hsteady'',hcap',hok'⟩ := hr
        refine ⟨h3,(hsteady.after hsteady').after hsteady'',hcap'.trans hcap,
          fun u e j g hg hd => ?_⟩
        obtain ⟨hnot,hg'⟩ := hok' u e j g hg hd
        rw [Holds,getElem?_setFrame hf1.lt,hframes] at hg'
        split_ifs at hg' with hji
        · cases hg'
          cases hd
        · exact ⟨fun hm => (List.mem_cons.mp hm).elim hji hnot,hg'⟩
      · rintro e p1 ⟨h1,hsteady,-,hcap,-⟩
        exact ⟨h1,hsteady,hcap,fun _ e => by cases e⟩

theorem Sturdy.flushAll_spec (h : Sturdy p held) :
    Spec flushAll p (fun r p' => Sturdy p' held ∧ Steady p p' ∧
      ∀ u, r = .ok u → ∀ q pg, p.lookup q = some pg → p'.disk.pageAt q = some pg) := by
  rw [flushAll]
  simp only [spec_get_bind]
  refine (h.flushFrames_spec fun i hi => List.mem_range.mp hi).bind ?_ ?_
  · rintro u p1 ⟨h1,hsteady,hcap,hok⟩
    have hclean (q : PageId) (pg : Page) (hq : p.lookup q = some pg) :
        p1.disk.pageAt q = some pg := by
      have hq1 := hsteady.lookup q pg hq
      cases ht : p1.pageTable q with
      | none => rwa [lookup_of_absent ht] at hq1
      | some i =>
        obtain ⟨f,hf,rfl⟩ := h1.holds ht
        rw [lookup_of_holds ht hf] at hq1
        cases hq1
        refine h1.clean hf (Bool.eq_false_iff.mpr fun hd => ?_)
        have hlt := hf.lt
        rw [h1.sized.size,hcap] at hlt
        exact (hok u rfl i f hf hd).1 (List.mem_range.mpr hlt)
    rcases hs : DiskManager.sync p1.disk with ⟨r,d⟩
    have hfile : d.file = p1.disk.file ∧ d.numPages = p1.disk.numPages := by
      have hsync : Spec DiskManager.sync p1.disk (fun _ d =>
          d.file = p1.disk.file ∧ d.numPages = p1.disk.numPages) := by
        rw [DiskManager.sync]
        refine (show Spec DiskManager.tick p1.disk (fun _ d =>
          d.file = p1.disk.file ∧ d.numPages = p1.disk.numPages) from ⟨rfl,rfl⟩).bind ?_ ?_
        · intro fault d hd
          split_ifs <;> exact hd
        · exact fun _ _ hd => hd
      exact hsync.of_eq hs
    obtain ⟨h2,hsteady'⟩ := h1.redisked hfile.1 hfile.2
    have hon : onDisk DiskManager.sync p1 = (r,withDisk d p1) := by
      rw [onDisk,Prog.zoom,hs]
      rfl
    rw [Spec,hon]
    refine ⟨h2,hsteady.after hsteady',fun _ _ q pg hq => ?_⟩
    change d.pageAt q = some pg
    rw [pageAt_of_file hfile.1]
    exact hclean q pg hq
  · rintro e p1 ⟨h1,hsteady,-⟩
    exact ⟨h1,hsteady,fun _ e => by cases e⟩

theorem Intact.flushAll_spec (h : Intact p) :
    Spec flushAll p (fun r p' => Intact p' ∧ Steady p p' ∧
      ∀ u, r = .ok u → ∀ q pg, p.lookup q = some pg → p'.disk.pageAt q = some pg) := by
  obtain ⟨held,h⟩ := h
  exact h.flushAll_spec.mono fun _ _ hr => ⟨⟨held,hr.1⟩,hr.2⟩

theorem intact_new (hd : d.Tame) {capacity : Nat} (hc : 1 ≤ capacity) :
    Intact (new d capacity) ∧ (new d capacity).lookup = d.pageAt ∧
      (new d capacity).pins = fun _ => 0 := by
  refine ⟨⟨[],hd,(quiet_new hd.settled hc).1.inv⟩,?_,?_⟩
  · funext q
    exact lookup_of_absent rfl
  · funext q
    exact pins_of_absent rfl

end BufferPoolManager

open BufferPoolManager

def PoolCall.pinned (pins : PageId → Nat) : PoolCall → Except (Fault Error) PoolReply → PageId → Nat
  | newPage,.ok (.allocated pageId) => Function.update pins pageId 1
  | fetchPage pageId,.ok _ => Function.update pins pageId (pins pageId + 1)
  | fetchPageMut pageId _ _,.ok _ => Function.update pins pageId (pins pageId + 1)
  | unpinPage pageId _,.ok _ => Function.update pins pageId (pins pageId - 1)
  | _,_ => pins

def PoolCall.IdsLeft (c : PoolCall) (p : BufferPoolManager) : Prop :=
  c = .newPage → p.disk.numPages.toNat + 1 < 2 ^ 32

namespace PoolCall

variable {p p' : BufferPoolManager} {c : PoolCall}

structure Done (c : PoolCall) (p : BufferPoolManager) (r : Except (Fault Error) PoolReply)
    (p' : BufferPoolManager) : Prop where
  intact : Intact p'
  moves : ∀ pages : FlatPages, (∀ q pg, pages q = some pg → p.lookup q = some pg) →
    Moves p p' (c.flat pages r) (c.pinned p.pins r)
  served : ∀ pid pg, c.fetches = some pid → r = .ok (.fetched pg) → p.lookup pid = some pg

theorem done_of_error {e : Fault Error} (h : Intact p') (hs : Steady p p') :
    c.Done p (.error e) p' := by
  refine ⟨h,fun pages hp => ?_,fun _ _ _ e => by cases e⟩
  have hflat : c.flat pages (.error e) = pages := by cases c <;> rfl
  have hpins : c.pinned p.pins (.error e) = p.pins := by cases c <;> rfl
  rw [hflat,hpins]
  exact ⟨fun q pg hq => hs.lookup q pg (hp q pg hq),hs.pins,hs.stays⟩

theorem fetchPageMut_done (h : Intact p) (pid : PageId) (data : Bytes)
    (size : data.length = pageSize) :
    Spec (fetchPageMut pid data size).exec p ((fetchPageMut pid data size).Done p) := by
  refine (h.fetchPageMut_spec pid).bind ?_ (fun e p' hf =>
    done_of_error hf.intact (hf.error e rfl).1)
  intro i p1 hf
  obtain ⟨held,h1⟩ := hf.intact
  obtain ⟨f,hheld,hlook,hid,hd,-,hm⟩ := hf.ok i rfl
  obtain ⟨h2,hm'⟩ := h1.reframed (g := { f with page := ⟨f.page.id,data,size⟩ }) hheld rfl
    (fun e => by rw [hd] at e; cases e)
  have hrun : (do
      let f ← frameAt i
      modifyPage i (fun page => ⟨page.id,data,size⟩)
      pure (PoolReply.fetched f.page) : Prog Error BufferPoolManager PoolReply) p1 =
        (.ok (.fetched f.page),setFrame i (some { f with page := ⟨f.page.id,data,size⟩ }) p1) := by
    rw [bind_ok (h1.frameAt_eq hheld),modifyPage,bind_assoc,bind_ok (h1.frameAt_eq hheld)]
    rfl
  rw [Spec,hrun]
  refine ⟨⟨_,h2⟩,fun pages hp => ?_,fun q pg hq e => ?_⟩
  · have hpin : p1.pins f.page.id = f.pinCount := pins_of_holds (h1.slot hheld) hheld
    refine ⟨fun q pg hq => hm'.lookup q pg ?_,?_,fun q j ht hpos => ?_⟩
    · change Function.update pages pid (some ⟨pid,data,size⟩) q = some pg at hq
      rw [hid]
      rw [Function.update_apply] at hq ⊢
      split_ifs at hq ⊢
      · exact hq
      · exact hm.lookup q pg (hp q pg hq)
    · refine hm'.pins.trans ?_
      change Function.update p1.pins f.page.id f.pinCount = _
      rw [← hpin,Function.update_eq_self]
      exact hm.pins
    · exact hm.stays q j ht hpos
  · cases hq
    cases e
    exact hlook

theorem exec_done (h : Intact p) (hc : c.IdsLeft p) : Spec c.exec p (c.Done p) := by
  cases c with
  | newPage =>
    refine (h.newPage_spec (hc rfl)).bind ?_ ?_
    · rintro id p' ⟨h1,hok,-⟩
      obtain ⟨-,-,hm⟩ := hok id rfl
      refine ⟨h1,fun pages hp => ⟨fun q pg hq => hm.lookup q pg ?_,hm.pins,hm.stays⟩,
        fun _ _ e => by cases e⟩
      change Function.update pages id (some (Page.new id)) q = some pg at hq
      rw [Function.update_apply] at hq ⊢
      split_ifs at hq ⊢
      · exact hq
      · exact hp q pg hq
    · rintro e p' ⟨h1,-,herr⟩
      exact done_of_error h1 (herr e rfl).1
  | fetchPage pid =>
    refine (h.fetchPage_spec pid).bind ?_ (fun e p' hf =>
      done_of_error hf.intact (hf.error e rfl).1)
    intro pg p' hf
    obtain ⟨hlook,-,hm⟩ := hf.ok pg rfl
    refine ⟨hf.intact,fun pages hp => ⟨fun q x hq => hm.lookup q x (hp q x hq),hm.pins,hm.stays⟩,
      fun q x hq e => ?_⟩
    cases hq
    cases e
    exact hlook
  | fetchPageMut pid data size => exact fetchPageMut_done h pid data size
  | unpinPage pid dirty =>
    refine (h.unpinPage_spec pid dirty).bind ?_ ?_
    · rintro u p' ⟨h1,hok,-⟩
      obtain ⟨-,hm⟩ := hok u rfl
      exact ⟨h1,fun pages hp => ⟨fun q x hq => hm.lookup q x (hp q x hq),hm.pins,hm.stays⟩,
        fun _ _ e => by cases e⟩
    · rintro e p' ⟨h1,-,herr⟩
      obtain ⟨rfl,-⟩ := herr e rfl
      exact done_of_error h1 (.refl _)
  | flushPage pid =>
    refine (h.flushPage_spec pid).bind ?_ ?_
    · rintro u p' ⟨h1,hs,-⟩
      exact ⟨h1,fun pages hp => ⟨fun q x hq => hs.lookup q x (hp q x hq),hs.pins,hs.stays⟩,
        fun _ _ e => by cases e⟩
    · rintro e p' ⟨h1,hs,-⟩
      exact done_of_error h1 hs
  | flushAll =>
    refine h.flushAll_spec.bind ?_ ?_
    · rintro u p' ⟨h1,hs,-⟩
      exact ⟨h1,fun pages hp => ⟨fun q x hq => hs.lookup q x (hp q x hq),hs.pins,hs.stays⟩,
        fun _ _ e => by cases e⟩
    · rintro e p' ⟨h1,hs,-⟩
      exact done_of_error h1 hs

end PoolCall

namespace PoolSession

variable {s : PoolSession}

-- A pool over a file that is already there, with any schedule of disk faults to come.
def load (file : Bytes) (faults : List (Option Nat)) (capacity : Nat) : PoolSession :=
  ⟨.new (DiskManager.open_ file faults) capacity,(DiskManager.open_ file faults).pageAt⟩

def IdsLeft (s : PoolSession) : List PoolCall → Prop
  | [] => True
  | c :: calls => c.IdsLeft s.pool ∧ (s.step c).IdsLeft calls

def pinned (s : PoolSession) (pins : PageId → Nat) : List PoolCall → PageId → Nat
  | [] => pins
  | c :: calls => (s.step c).pinned (c.pinned pins (c.exec s.pool).1) calls

structure Served (s : PoolSession) : Prop where
  intact : Intact s.pool
  pages : ∀ pid pg, s.pages pid = some pg → s.pool.lookup pid = some pg

theorem Served.step (h : s.Served) {c : PoolCall} (hc : c.IdsLeft s.pool) :
    (s.step c).Served ∧ (s.step c).pool.pins = c.pinned s.pool.pins (c.exec s.pool).1 := by
  have hd : c.Done s.pool (c.exec s.pool).1 (c.exec s.pool).2 := PoolCall.exec_done h.intact hc
  have hm := hd.moves s.pages h.pages
  exact ⟨⟨hd.intact,hm.lookup⟩,hm.pins⟩

theorem Served.run (h : s.Served) {calls : List PoolCall} (hc : s.IdsLeft calls) :
    (s.run calls).Served ∧ (s.run calls).pool.pins = s.pinned s.pool.pins calls := by
  induction calls generalizing s with
  | nil => exact ⟨h,rfl⟩
  | cons c calls ih =>
    obtain ⟨h1,hp⟩ := h.step hc.1
    obtain ⟨h2,hp2⟩ := ih h1 hc.2
    rw [hp] at hp2
    exact ⟨h2,hp2⟩

theorem served_load {file : Bytes} {faults : List (Option Nat)} {capacity : Nat}
    (hf : file.length / pageSize < 2 ^ 32) (hc : 1 ≤ capacity) :
    (load file faults capacity).Served ∧ (load file faults capacity).pool.pins = fun _ => 0 := by
  obtain ⟨h1,h2,h3⟩ := intact_new (DiskManager.tame_open file faults hf) hc
  exact ⟨⟨h1,fun pid pg hp => (congrFun h2 pid).trans hp⟩,h3⟩

theorem faulty_pool_serves {file : Bytes} {faults : List (Option Nat)} {capacity : Nat}
    (hf : file.length / pageSize < 2 ^ 32) (hc : 1 ≤ capacity) {calls : List PoolCall}
    (hids : (load file faults capacity).IdsLeft calls) :
    let s := (load file faults capacity).run calls
    (∀ (c : PoolCall) pid pg pg', c.fetches = some pid → s.pages pid = some pg →
      (c.exec s.pool).1 = .ok (.fetched pg') → pg' = pg) ∧
    (∀ pid pg p', flushPage pid s.pool = (.ok (),p') → s.pages pid = some pg →
      p'.disk.pageAt pid = some pg) ∧
    ∀ p', flushAll s.pool = (.ok (),p') → ∀ pid pg, s.pages pid = some pg →
      p'.disk.pageAt pid = some pg := by
  intro s
  have h : s.Served := ((served_load hf hc).1.run hids).1
  refine ⟨fun c pid pg pg' hfetch hp hex => ?_,fun pid pg p' hrun hp => ?_,
    fun p' hrun pid pg hp => ?_⟩
  · have hleft : c.IdsLeft s.pool := by
      rintro rfl
      cases hfetch
    have hlook := (PoolCall.exec_done h.intact hleft).served pid pg' hfetch hex
    rw [h.pages pid pg hp] at hlook
    exact (Option.some.inj hlook).symm
  · exact ((h.intact.flushPage_spec pid).of_eq hrun).2.2 () rfl pg (h.pages pid pg hp)
  · exact (h.intact.flushAll_spec.of_eq hrun).2.2 () rfl pid pg (h.pages pid pg hp)

-- One frame: the eviction of page 0 fails after 100 bytes, and page 0 is served as it was stored.
theorem faulty_pool_serves_torn :
    let calls : List PoolCall :=
      [.newPage,.fetchPageMut 0 (List.replicate pageSize 7) (List.length_replicate ..),
        .unpinPage 0 false,.unpinPage 0 false,.newPage]
    let s := (load [] [none,none,some 100] 1).run calls
    (load [] [none,none,some 100] 1).IdsLeft calls ∧
      s.pool.disk.file.take 100 = List.replicate 100 7 ∧
      s.pool.disk.file[100]? = some 0 ∧
      ∃ pg pg', (PoolCall.exec (.fetchPage 0) s.pool).1 = .ok (.fetched pg') ∧ s.pages 0 = some pg ∧
        pg' = pg := by
  intro calls s
  have hids : (load [] [none,none,some 100] 1).IdsLeft calls := by
    refine ⟨fun _ => ?_,fun e => ?_,fun e => ?_,fun e => ?_,fun _ => ?_,trivial⟩
    · decide +kernel
    · cases e
    · cases e
    · cases e
    · decide +kernel
  obtain ⟨pg',hpg'⟩ := Prog.run_isOk (m := BufferPoolManager.fetchPage 0) (s := s.pool)
    (by decide +kernel)
  have hfetch : (PoolCall.exec (.fetchPage 0) s.pool).1 = .ok (.fetched pg') := by
    rw [PoolCall.exec,Prog.bind_ok hpg']
    rfl
  obtain ⟨pg,hpg⟩ := Option.isSome_iff_exists.mp (show (s.pages 0).isSome = true by decide +kernel)
  exact ⟨hids,by decide +kernel,by decide +kernel,pg,pg',hfetch,hpg,
    (faulty_pool_serves (by decide) (by decide) hids).1 _ 0 pg pg' rfl hpg hfetch⟩

theorem faulty_pool_pins {file : Bytes} {faults : List (Option Nat)} {capacity : Nat}
    (hf : file.length / pageSize < 2 ^ 32) (hc : 1 ≤ capacity) {calls : List PoolCall}
    (hids : (load file faults capacity).IdsLeft calls) :
    let s := (load file faults capacity).run calls
    s.pool.pins = (load file faults capacity).pinned (fun _ => 0) calls ∧
      ∀ (c : PoolCall) pid i, c.IdsLeft s.pool → s.pool.pageTable pid = some i →
        0 < s.pool.pins pid →
        (s.step c).pool.pageTable pid = some i ∧
          ∃ f, (s.step c).pool.Holds i f ∧ f.page.id = pid := by
  intro s
  obtain ⟨h0,hzero⟩ := @served_load file faults capacity hf hc
  obtain ⟨h,hpins⟩ := h0.run hids
  rw [hzero] at hpins
  refine ⟨hpins,fun c pid i hleft ht hpos => ?_⟩
  have hd : c.Done s.pool (c.exec s.pool).1 (c.exec s.pool).2 := PoolCall.exec_done h.intact hleft
  have hstay : (s.step c).pool.pageTable pid = some i :=
    (hd.moves s.pages h.pages).stays pid i ht hpos
  obtain ⟨held,hsturdy⟩ := hd.intact
  exact ⟨hstay,hsturdy.holds hstay⟩

theorem faulty_pool_pins_torn :
    let calls : List PoolCall := [.newPage,.unpinPage 0 false,.newPage,.fetchPage 0,.newPage]
    let s := (load [] [none,none,some 100] 1).run calls
    s.pool.pins 0 = 1 ∧ s.pool.pageTable 0 = some 0 ∧
      s.pool.pins = (load [] [none,none,some 100] 1).pinned (fun _ => 0) calls := by
  intro calls s
  have hids : (load [] [none,none,some 100] 1).IdsLeft calls := by
    refine ⟨fun _ => ?_,fun e => ?_,fun _ => ?_,fun e => ?_,fun _ => ?_,trivial⟩
    · decide +kernel
    · cases e
    · decide +kernel
    · cases e
    · decide +kernel
  exact ⟨by decide +kernel,by decide +kernel,(faulty_pool_pins (by decide) (by decide) hids).1⟩

end PoolSession

end StorageDb
