import Mathlib.Tactic
import StorageDb.Buffer.ClockExact
import StorageDb.Buffer.PoolRun
import StorageDb.Buffer.FaultyDisk

namespace StorageDb
open Bytes Prog

namespace BufferPoolManager
open DiskManager

variable {p p' : BufferPoolManager} {held : List Nat} {i : Nat} {f g : BufferFrame} {pid : PageId}
  {pg : Page} {d : DiskManager}

def settled (p : BufferPoolManager) : BufferPoolManager := withDisk p.disk.settled p

structure Sturdy (p : BufferPoolManager) (held : List Nat) : Prop where
  disk : p.disk.Tame
  inv : PoolInv p.settled held

theorem lookup_withDisk (h : d.pageAt = p.disk.pageAt) : (withDisk d p).lookup = p.lookup := by
  funext q
  cases ht : p.pageTable q with
  | none =>
    rw [lookup_of_absent ht,lookup_of_absent (p := withDisk d p) ht]
    exact congrFun h q
  | some i =>
    have ht' : (withDisk d p).pageTable q = some i := ht
    rw [lookup,lookup,ht,ht']
    rfl

theorem Sturdy.lookup (h : Sturdy p held) : p.settled.lookup = p.lookup :=
  lookup_withDisk h.disk.pageAt_settled

theorem PoolInv.redisk (h : PoolInv p held) (hd : d.Healthy)
    (hsome : ∀ i f, p.Holds i f → (d.pageAt f.page.id).isSome = true)
    (hclean : ∀ i f, p.Holds i f → f.dirty = false → d.pageAt f.page.id = some f.page) :
    PoolInv (withDisk d p) held :=
  ⟨hd,h.size,h.hand,h.table,h.empty,h.nodup,fun i f hf => hd.pageAt_isSome.mp (hsome i f hf),hclean⟩

theorem Sturdy.redisk (h : Sturdy p held) (hd : d.Tame)
    (hsome : ∀ i f, p.Holds i f → (d.pageAt f.page.id).isSome = true)
    (hclean : ∀ i f, p.Holds i f → f.dirty = false → d.pageAt f.page.id = some f.page) :
    Sturdy (withDisk d p) held := by
  rw [← hd.pageAt_settled] at hsome hclean
  exact ⟨hd,h.inv.redisk hd.settled hsome hclean⟩

theorem Sturdy.filed (h : Sturdy p held) (hf : p.Holds i f) :
    (p.disk.pageAt f.page.id).isSome = true := by
  rw [← h.disk.pageAt_settled]
  exact h.inv.disk.pageAt_isSome.mpr (h.inv.known i f hf)

theorem Sturdy.clean (h : Sturdy p held) (hf : p.Holds i f) (hc : f.dirty = false) :
    p.disk.pageAt f.page.id = some f.page := by
  rw [← h.disk.pageAt_settled]
  exact h.inv.clean i f hf hc

theorem Sturdy.writeBack_spec (h : Sturdy p held) (hf : p.Holds i f) :
    Spec (writeBack f) p.disk (fun r d => Sturdy (withDisk d p) held ∧
      d.numPages = p.disk.numPages ∧
      (withDisk d p).lookup = p.lookup ∧ (r = .ok () → d.pageAt f.page.id = some f.page) ∧
      ∀ e, r = .error e → e = .err .io) := by
  rw [writeBack]
  cases hd : f.dirty with
  | false => exact ⟨h,rfl,rfl,fun _ => h.clean hf hd,fun _ e => by cases e⟩
  | true =>
    refine (h.disk.writePage_spec (h.filed hf)).mono fun r d hw => ?_
    have hother (j : Nat) (g : BufferFrame) (hg : p.Holds j g) (hne : g.page.id = f.page.id) :
        g = f := by
      have hj := (h.inv.slot hg).symm.trans (hne ▸ h.inv.slot hf)
      cases hj
      exact hg.unique hf
    refine ⟨h.redisk hw.tame (fun j g hg => ?_) (fun j g hg hc => ?_),hw.pages,?_,hw.ok,hw.error⟩
    · by_cases he : g.page.id = f.page.id
      · rw [he]
        exact hw.still
      · rw [hw.others _ he]
        exact h.filed hg
    · rw [hw.others]
      · exact h.clean hg hc
      · intro he
        rw [hother j g hg he,hd] at hc
        cases hc
    · funext q
      cases ht : p.pageTable q with
      | none =>
        rw [lookup_of_absent ht,lookup_of_absent (p := withDisk d p) ht]
        refine hw.others q ?_
        rintro rfl
        exact absurd (h.inv.slot hf) (by simp [settled,withDisk,ht])
      | some j =>
        obtain ⟨g,hg,-⟩ := h.inv.holds ht
        rw [lookup_of_holds ht hg]
        exact lookup_of_holds (p := withDisk d p) ht hg

section clock

variable {q : BufferPoolManager}

theorem Cleared.holds_of (hc : Cleared p q) (hf : p.Holds i f) :
    ∃ g, q.Holds i g ∧ (g = f ∨ g = unreferenced f) := by
  rcases hc.frames i with hi | ⟨g,hg,-,hg'⟩
  · exact ⟨f,hi.trans hf,Or.inl rfl⟩
  · obtain rfl := hg.unique hf
    exact ⟨_,hg',Or.inr rfl⟩

theorem Cleared.page_eq (hc : Cleared p q) (hf : q.Holds i f) :
    ∃ g, p.Holds i g ∧ f.page = g.page ∧ f.pinCount = g.pinCount ∧ f.dirty = g.dirty := by
  obtain ⟨g,hg,rfl | rfl⟩ := hc.holds hf
  · exact ⟨f,hg,rfl,rfl,rfl⟩
  · exact ⟨g,hg,rfl,rfl,rfl⟩

theorem Cleared.keeps (hc : Cleared p q) : Keeps p q := by
  refine ⟨?_,congrArg DiskManager.numPages hc.disk,hc.capacity,fun i f hf => ?_⟩
  · funext x
    rw [lookup,lookup,hc.table,hc.disk]
    cases p.pageTable x with
    | none => rfl
    | some j =>
      rcases hc.frames j with hj | ⟨f,hf,-,hg⟩
      · simp only [hj]
      · simp only [show p.frames[j]? = some (some f) from hf,
          show q.frames[j]? = some (some (unreferenced f)) from hg]
        rfl
  · obtain ⟨g,hg,hpage,hpin,-⟩ := hc.page_eq hf
    exact ⟨g,hg,hpage,hpin⟩

theorem Cleared.empty_iff (hc : Cleared p q) :
    q.frames[i]? = some none ↔ p.frames[i]? = some none := by
  rcases hc.frames i with hi | ⟨f,hf,-,hg⟩
  · rw [hi]
  · rw [show p.frames[i]? = some (some f) from hf,
      show q.frames[i]? = some (some (unreferenced f)) from hg]
    exact iff_of_false (by simp) (by simp)

theorem PoolInv.cleared (h : PoolInv p held) (hc : Cleared p q) (hh : q.clockHand < p.capacity) :
    PoolInv q held := by
  constructor
  case disk => exact hc.disk ▸ h.disk
  case size => rw [hc.length,hc.capacity,h.size]
  case hand => rwa [hc.capacity]
  case table =>
    intro x j
    rw [hc.table,h.table]
    constructor
    · rintro ⟨f,hf,rfl⟩
      obtain ⟨g,hg,rfl | rfl⟩ := hc.holds_of hf
      · exact ⟨_,hg,rfl⟩
      · exact ⟨_,hg,rfl⟩
    · rintro ⟨f,hf,rfl⟩
      obtain ⟨g,hg,hpage,-⟩ := hc.page_eq hf
      exact ⟨g,hg,by rw [hpage]⟩
  case empty =>
    intro j
    rw [hc.empty_iff,hc.free]
    exact h.empty j
  case nodup => exact hc.free ▸ h.nodup
  case known =>
    intro j f hf
    obtain ⟨g,hg,hpage,-⟩ := hc.page_eq hf
    rw [hpage,hc.disk]
    exact h.known j g hg
  case clean =>
    intro j f hf hd
    obtain ⟨g,hg,hpage,-,hdirty⟩ := hc.page_eq hf
    rw [hpage,hc.disk]
    exact h.clean j g hg (hdirty ▸ hd)

theorem Sturdy.cleared (h : Sturdy p held) (hc : Cleared p q) (hh : q.clockHand < p.capacity) :
    Sturdy q held := by
  have hset : Cleared p.settled q.settled :=
    ⟨hc.frames,hc.length,hc.table,hc.free,hc.capacity,congrArg DiskManager.settled hc.disk⟩
  exact ⟨hc.disk ▸ h.disk,h.inv.cleared hset hh⟩

theorem Sturdy.dropped (h : Sturdy p held) (hf : p.Holds i f)
    (hat : p.disk.pageAt f.page.id = some f.page) :
    Sturdy (dropFrame i f.page.id p) (i :: held) ∧ Keeps p (dropFrame i f.page.id p) := by
  rw [← h.disk.pageAt_settled] at hat
  obtain ⟨hinv,hkeeps⟩ := h.inv.dropped (f := f) hf hat
  have hs : Sturdy (dropFrame i f.page.id p) (i :: held) := ⟨h.disk,hinv.advanced⟩
  refine ⟨hs,?_,rfl,rfl,hkeeps.frames⟩
  rw [← hs.lookup,← h.lookup]
  exact hkeeps.lookup

end clock

def pins (p : BufferPoolManager) (pageId : PageId) : Nat :=
  ((p.pageTable pageId).bind fun i => p.frames[i]?.join).elim 0 BufferFrame.pinCount

theorem pins_of_absent (ht : p.pageTable pid = none) : p.pins pid = 0 := by
  rw [pins,ht]
  rfl

theorem pins_of_holds (ht : p.pageTable pid = some i) (hf : p.Holds i f) :
    p.pins pid = f.pinCount := by
  have hj : p.frames[i]?.join = some f := Option.join_eq_some_iff.mpr hf
  rw [pins,ht,Option.bind_some,hj]
  rfl

structure Moves (p p' : BufferPoolManager) (pages : FlatPages) (pins : PageId → Nat) : Prop where
  lookup : ∀ q pg, pages q = some pg → p'.lookup q = some pg
  pins : p'.pins = pins
  stays : ∀ q i, p.pageTable q = some i → 0 < p.pins q → p'.pageTable q = some i

abbrev Steady (p p' : BufferPoolManager) : Prop := Moves p p' p.lookup p.pins

theorem Steady.refl (p : BufferPoolManager) : Steady p p := ⟨fun _ _ h => h,rfl,fun _ _ h _ => h⟩

theorem Steady.trans {p'' : BufferPoolManager} {pages : FlatPages} {pinned : PageId → Nat}
    (h : Steady p p') (h' : Moves p' p'' pages pinned) : Moves p p'' pages pinned :=
  ⟨h'.lookup,h'.pins,fun q i ht hp => h'.stays q i (h.stays q i ht hp) (h.pins ▸ hp)⟩

theorem Steady.after {p'' : BufferPoolManager} (h : Steady p p') (h' : Steady p' p'') :
    Steady p p'' :=
  ⟨fun q pg hq => h'.lookup q pg (h.lookup q pg hq),h'.pins.trans h.pins,
    fun q i ht hp => h'.stays q i (h.stays q i ht hp) (h.pins ▸ hp)⟩

theorem Sturdy.slot (h : Sturdy p held) (hf : p.Holds i f) : p.pageTable f.page.id = some i :=
  h.inv.slot hf

theorem Sturdy.holds (h : Sturdy p held) (ht : p.pageTable pid = some i) :
    ∃ f, p.Holds i f ∧ f.page.id = pid := h.inv.holds ht

theorem Keeps.steady {held' : List Nat} (hk : Keeps p p') (h : Sturdy p held) (h' : Sturdy p' held')
    (hstay : ∀ i f, p.Holds i f → 0 < f.pinCount → ∃ g, p'.Holds i g ∧ g.page = f.page) :
    Steady p p' := by
  have hslot (q : PageId) (i : Nat) (ht : p.pageTable q = some i) (hpin : 0 < p.pins q) :
      p'.pageTable q = some i := by
    obtain ⟨f,hf,rfl⟩ := h.holds ht
    rw [pins_of_holds ht hf] at hpin
    obtain ⟨g,hg,hpage⟩ := hstay i f hf hpin
    rw [← hpage]
    exact h'.slot hg
  refine ⟨fun q pg hq => by rwa [hk.lookup],funext fun q => ?_,hslot⟩
  cases ht' : p'.pageTable q with
  | some i =>
    obtain ⟨g,hg,rfl⟩ := h'.holds ht'
    obtain ⟨f,hf,hpage,hpin⟩ := hk.frames i g hg
    rw [pins_of_holds ht' hg,hpin,hpage,pins_of_holds (h.slot hf) hf]
  | none =>
    rw [pins_of_absent ht']
    cases ht : p.pageTable q with
    | none => rw [pins_of_absent ht]
    | some i =>
      refine (Nat.eq_zero_of_not_pos fun hpin => ?_).symm
      rw [hslot q i ht hpin] at ht'
      cases ht'

theorem Keeps.stays_absent {held' : List Nat} (hk : Keeps p p') (h : Sturdy p held)
    (h' : Sturdy p' held') (ht : p.pageTable pid = none) : p'.pageTable pid = none := by
  cases ht' : p'.pageTable pid with
  | none => rfl
  | some i =>
    obtain ⟨g,hg,rfl⟩ := h'.holds ht'
    obtain ⟨f,hf,hpage,-⟩ := hk.frames i g hg
    rw [hpage,h.slot hf] at ht
    cases ht

structure Found (held : List Nat) (p : BufferPoolManager) (r : Except (Fault Error) Nat)
    (p' : BufferPoolManager) : Prop where
  keeps : Keeps p p'
  stays : ∀ i f, p.Holds i f → 0 < f.pinCount → ∃ g, p'.Holds i g ∧ g.page = f.page
  ok : ∀ i, r = .ok i → Sturdy p' (i :: held)
  error : ∀ e, r = .error e → Sturdy p' held ∧ ∃ x, e = .err x

theorem Sturdy.sized (h : Sturdy p held) : Sized p := ⟨h.inv.size,h.inv.hand⟩

theorem Sturdy.evicts (h : Sturdy p held) (hf : p.Holds i f) (h0 : f.pinCount = 0)
    {q : BufferPoolManager} {r : Except (Fault Error) Nat} (he : Evicts p i f r q p') :
    Found held p r p' := by
  have hlt : i < p.capacity := h.sized.size ▸ hf.lt
  rcases hw : writeBack f p.disk with ⟨r1,d⟩
  obtain ⟨hs,hpages,hlook,hok,herr⟩ := (h.writeBack_spec hf).of_eq hw
  have hc : Cleared (withDisk d p) (withDisk d q) :=
    ⟨he.cleared.frames,he.cleared.length,he.cleared.table,he.cleared.free,he.cleared.capacity,rfl⟩
  have hsq : Sturdy (withDisk d q) held := hs.cleared hc (he.hand ▸ hlt)
  have hk : Keeps p (withDisk d q) :=
    Keeps.trans ⟨hlook,hpages,rfl,fun _ g hg => ⟨g,hg,rfl,rfl⟩⟩ hc.keeps
  have hpage (j : Nat) (x : BufferFrame) (hx : p.Holds j x) :
      ∃ y, q.Holds j y ∧ y.page = x.page := by
    obtain ⟨y,hy,rfl | rfl⟩ := he.cleared.holds_of hx
    · exact ⟨_,hy,rfl⟩
    · exact ⟨_,hy,rfl⟩
  cases r1 with
  | error e =>
    obtain ⟨rfl,rfl⟩ := he.error e d hw
    exact ⟨hk,fun j x hx _ => hpage j x hx,fun _ e => (by cases e),
      fun _ he => by cases he; exact ⟨hsq,_,herr e rfl⟩⟩
  | ok u =>
    obtain ⟨rfl,rfl⟩ := he.ok d hw
    obtain ⟨g,hg,hgf⟩ := hpage i f hf
    obtain ⟨hs',hk'⟩ := hsq.dropped (show (withDisk d q).Holds i g from hg)
      (by rw [hgf]; exact hok rfl)
    rw [hgf] at hs' hk'
    refine ⟨hk.trans hk',fun j x hx hpin => ?_,fun j e => by cases e; exact hs',
      fun _ e => by cases e⟩
    have hj : j ≠ i := by
      rintro rfl
      rw [hx.unique hf,h0] at hpin
      exact absurd hpin (lt_irrefl 0)
    obtain ⟨y,hy,hyx⟩ := hpage j x hx
    refine ⟨y,?_,hyx⟩
    have hset : (dropFrame i f.page.id (withDisk d q)).frames[j]? =
        if j = i then some none else q.frames[j]? :=
      getElem?_setFrame (p := mapPage f.page.id none (withDisk d q)) hg.lt none j
    exact hset.trans ((if_neg hj).trans hy)

theorem Sturdy.getFreeFrame_found (h : Sturdy p held) : Spec getFreeFrame p (Found held p) := by
  cases hfree : p.freeList with
  | cons i rest =>
    have hrun : getFreeFrame p = (.ok i,{ p with freeList := rest }) := by
      rw [getFreeFrame,Prog.get_bind_run,hfree]
      rfl
    rw [Spec,hrun]
    refine ⟨⟨rfl,rfl,rfl,fun _ f hf => ⟨f,hf,rfl,rfl⟩⟩,fun _ f hf _ => ⟨f,hf,rfl⟩,fun j e => ?_,
      fun _ e => by cases e⟩
    cases e
    have hperm : (held ++ p.freeList).Perm (i :: held ++ rest) := by
      rw [hfree]
      exact List.perm_middle
    refine ⟨h.disk,h.inv.disk,h.inv.size,h.inv.hand,h.inv.table,fun j => ?_,?_,h.inv.known,
      h.inv.clean⟩
    · exact (h.inv.empty j).trans hperm.mem_iff
    · exact hperm.nodup_iff.mp h.inv.nodup
  | nil =>
    refine (h.sized.getFreeFrame_searched hfree).mono fun r p' hs => ?_
    cases hv : p.victim with
    | none =>
      rw [hv] at hs
      obtain ⟨rfl,rfl⟩ := hs
      exact ⟨.refl _,fun _ f hf _ => ⟨f,hf,rfl⟩,fun _ e => (by cases e),
        fun _ e => by cases e; exact ⟨h,_,rfl⟩⟩
    | some i =>
      rw [hv] at hs
      obtain ⟨f,q,hf,h0,he⟩ := hs
      exact h.evicts hf h0 he

theorem Sturdy.reframed (h : Sturdy p held) (hf : p.Holds i f) (hid : g.page.id = f.page.id)
    (hc : g.dirty = false → p.disk.pageAt g.page.id = some g.page) :
    Sturdy (setFrame i (some g) p) held ∧
      Moves p (setFrame i (some g) p) (Function.update p.lookup f.page.id (some g.page))
        (Function.update p.pins f.page.id g.pinCount) := by
  rw [← h.disk.pageAt_settled] at hc
  have hs : Sturdy (setFrame i (some g) p) held := ⟨h.disk,h.inv.reframed hf hid hc⟩
  have hget (j : Nat) := getElem?_setFrame (p := p) hf.lt (some g) j
  refine ⟨hs,fun q pg hq => ?_,funext fun q => ?_,fun q j ht _ => ht⟩
  · rw [← hs.lookup]
    change (setFrame i (some g) p.settled).lookup q = some pg
    rw [h.inv.lookup_setFrame hf,h.lookup,hq]
  · by_cases hq : q = f.page.id
    · subst hq
      rw [Function.update_self]
      exact pins_of_holds (h.slot hf) ((hget i).trans (if_pos rfl))
    · rw [Function.update_of_ne hq]
      cases ht : p.pageTable q with
      | none =>
        rw [pins_of_absent ht]
        exact pins_of_absent (p := setFrame i (some g) p) ht
      | some j =>
        obtain ⟨x,hx,rfl⟩ := h.holds ht
        have hj : j ≠ i := by
          rintro rfl
          exact hq (by rw [hx.unique hf])
        rw [pins_of_holds ht hx]
        exact pins_of_holds (p := setFrame i (some g) p) ht ((hget j).trans ((if_neg hj).trans hx))

theorem Sturdy.repinned (h : Sturdy p held) (hf : p.Holds i f) (hpg : g.page = f.page)
    (hc : g.dirty = false → f.dirty = false) :
    Sturdy (setFrame i (some g) p) held ∧
      Moves p (setFrame i (some g) p) p.lookup (Function.update p.pins f.page.id g.pinCount) := by
  obtain ⟨hs,hm⟩ := h.reframed (g := g) hf (by rw [hpg])
    (fun e => by rw [hpg]; exact h.clean hf (hc e))
  rw [hpg,← lookup_of_holds (h.slot hf) hf,Function.update_eq_self] at hm
  exact ⟨hs,hm⟩

theorem Sturdy.install_eq (h : Sturdy p (i :: held)) (ht : p.pageTable f.page.id = none)
    (hk : (p.disk.pageAt f.page.id).isSome = true)
    (hc : f.dirty = false → p.disk.pageAt f.page.id = some f.page) :
    ∃ p', install f.page.id i f p = (.ok (),p') ∧ Sturdy p' held ∧
      Moves p p' (Function.update p.lookup f.page.id (some f.page))
        (Function.update p.pins f.page.id f.pinCount) ∧
      p'.Holds i f ∧ p'.pageTable f.page.id = some i ∧ p'.disk = p.disk := by
  rw [← h.disk.pageAt_settled] at hk hc
  obtain ⟨hinv,hlook⟩ := h.inv.installed ht (h.inv.disk.pageAt_isSome.mp hk) hc
  have hempty : p.frames[i]? = some none := (h.inv.empty i).mpr List.mem_cons_self
  have hlt : i < p.frames.length := (List.getElem?_eq_some_iff.mp hempty).1
  have hget (j : Nat) := getElem?_setFrame (p := p) hlt (some f) j
  set p' := mapPage f.page.id (some i) (setFrame i (some f) p) with hp'
  have hs : Sturdy p' held := ⟨h.disk,hinv⟩
  have hslot : p'.pageTable f.page.id = some i := Function.update_self ..
  have hother (q : PageId) (hq : q ≠ f.page.id) : p'.pageTable q = p.pageTable q :=
    Function.update_of_ne hq ..
  have hheld : p'.Holds i f := (hget i).trans (if_pos rfl)
  refine ⟨p',?_,hs,⟨fun q pg hq => ?_,funext fun q => ?_,fun q j hj _ => ?_⟩,hheld,hslot,rfl⟩
  · simp only [install,Prog.get_bind_run,if_pos hlt]
    rfl
  · rw [← hs.lookup]
    change (mapPage f.page.id (some i) (setFrame i (some f) p.settled)).lookup q = some pg
    rw [hlook,h.lookup,hq]
  · by_cases hq : q = f.page.id
    · subst hq
      rw [Function.update_self,pins_of_holds hslot hheld]
    · rw [Function.update_of_ne hq]
      cases hj : p.pageTable q with
      | none => rw [pins_of_absent hj,pins_of_absent ((hother q hq).trans hj)]
      | some j =>
        obtain ⟨x,hx,-⟩ := h.holds hj
        have hne : j ≠ i := by
          rintro rfl
          rw [Holds,hempty] at hx
          cases hx
        rw [pins_of_holds hj hx]
        exact pins_of_holds ((hother q hq).trans hj) ((hget j).trans ((if_neg hne).trans hx))
  · refine (hother q ?_).trans hj
    rintro rfl
    rw [ht] at hj
    cases hj

end BufferPoolManager

end StorageDb
