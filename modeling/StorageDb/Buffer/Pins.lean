import Mathlib.Tactic
import StorageDb.Buffer.PoolSpec

namespace StorageDb

namespace BufferPoolManager
open DiskManager

structure Quiet (p : BufferPoolManager) : Prop where
  inv : PoolInv p []
  unpinned : ∀ i f, p.Holds i f → f.pinCount = 0

-- The held frames are empty and in no list, at most lost of them. The pool has more frames.
structure Roomy (held : List Nat) (lost : Nat) (p : BufferPoolManager) : Prop where
  inv : PoolInv p held
  few : held.length ≤ lost
  room : lost < p.capacity

structure Idle (held : List Nat) (lost : Nat) (p : BufferPoolManager) : Prop
    extends Roomy held lost p where
  unpinned : ∀ i f, p.Holds i f → f.pinCount = 0

structure OnePin (held : List Nat) (lost : Nat) (p : BufferPoolManager) (i : Nat)
    (f : BufferFrame) : Prop extends Roomy held lost p where
  holds : p.Holds i f
  others : ∀ j g, p.Holds j g → j ≠ i → g.pinCount = 0

variable {p p' : BufferPoolManager} {held : List Nat} {lost i : Nat} {f : BufferFrame}
  {pid : PageId}
  {pg : Page}

theorem Quiet.idle_of_lt (h : Quiet p) (hl : lost < p.capacity) : Idle [] lost p :=
  ⟨⟨h.inv,Nat.zero_le _,hl⟩,h.unpinned⟩

theorem Quiet.idle (h : Quiet p) : Idle [] 0 p := h.idle_of_lt (Nat.zero_lt_of_lt h.inv.hand)

theorem Idle.quiet (h : Idle [] lost p) : Quiet p := ⟨h.inv,h.unpinned⟩

theorem quiet_new {disk : DiskManager} (hd : disk.Healthy) {capacity : Nat} (hc : 1 ≤ capacity) :
    Quiet (new disk capacity) ∧ (new disk capacity).lookup = disk.pageAt := by
  have hnone (i : Nat) (f : BufferFrame) : ¬ (new disk capacity).Holds i f := by
    intro h
    have h : (List.replicate capacity (none : Option BufferFrame))[i]? = some (some f) := h
    rw [List.getElem?_replicate] at h
    split_ifs at h
    simp at h
  refine ⟨⟨⟨hd,List.length_replicate,hc,?_,?_,?_,?_,?_⟩,?_⟩,rfl⟩
  · intro pid i
    refine ⟨fun h => by simp [new] at h,?_⟩
    rintro ⟨f,hf,-⟩
    exact absurd hf (hnone i f)
  · intro i
    simp [new,List.getElem?_replicate]
  · simp [new,List.nodup_range]
  · exact fun i f hf => absurd hf (hnone i f)
  · exact fun i f hf => absurd hf (hnone i f)
  · exact fun i f hf => absurd hf (hnone i f)

theorem Idle.free (h : Idle held lost p) : p.freeList = [] → Unpinned p := by
  intro hfl
  -- a frame that is not held is not empty
  obtain ⟨j,hj,hn⟩ : ∃ j ∈ List.range p.capacity, j ∉ held := by
    by_contra hc
    push Not at hc
    have hsub := (List.nodup_range (n := p.capacity)).subperm hc
    have hle := hsub.length_le
    have hfew := h.few
    have hroom := h.room
    rw [List.length_range] at hle
    omega
  have hlt : j < p.frames.length := h.inv.size ▸ List.mem_range.mp hj
  have hget := List.getElem?_eq_getElem hlt
  cases hs : p.frames[j] with
  | none =>
    rw [hs] at hget
    have hm := (h.inv.empty j).mp hget
    rw [hfl,List.append_nil] at hm
    exact absurd hm hn
  | some f =>
    rw [hs] at hget
    exact ⟨j,f,hget,h.unpinned j f hget⟩

theorem Quiet.free (h : Quiet p) : p.freeList = [] → Unpinned p := h.idle.free

theorem Idle.keeps (h : Idle held lost p) (hk : Keeps p p') :
    ∀ i f, p'.Holds i f → f.pinCount = 0 := by
  intro i f hf
  obtain ⟨g,hg,-,hn⟩ := hk.frames i f hf
  rw [hn]
  exact h.unpinned i g hg

theorem Quiet.keeps (h : Quiet p) (hk : Keeps p p') : ∀ i f, p'.Holds i f → f.pinCount = 0 :=
  h.idle.keeps hk

theorem Idle.onePin (h : Idle held lost p) (hf : p.Holds i f) : OnePin held lost p i f :=
  ⟨h.toRoomy,hf,fun j g hg _ => h.unpinned j g hg⟩

theorem OnePin.idle (h : OnePin held lost p i f) (h0 : f.pinCount = 0) : Idle held lost p := by
  refine ⟨h.toRoomy,fun j g hg => ?_⟩
  by_cases hj : j = i
  · subst hj
    rwa [hg.unique h.holds]
  · exact h.others j g hg hj

theorem OnePin.quiet (h : OnePin [] lost p i f) (h0 : f.pinCount = 0) : Quiet p := (h.idle h0).quiet

theorem OnePin.reframe {g : BufferFrame} (h : OnePin held lost p i f) (hid : g.page.id = f.page.id)
    (hc : g.dirty = false → p.disk.pageAt g.page.id = some g.page) :
    OnePin held lost (setFrame i (some g) p) i g ∧ Puts p (setFrame i (some g) p) g.page := by
  have hget (j : Nat) := getElem?_setFrame (p := p) h.holds.lt (some g) j
  refine ⟨⟨⟨h.inv.reframed h.holds hid hc,h.few,h.room⟩,by rw [Holds,hget,if_pos rfl],?_⟩,?_,rfl⟩
  · intro j x hx hj
    rw [Holds,hget,if_neg hj] at hx
    exact h.others j x hx hj
  · rw [h.inv.lookup_setFrame h.holds,hid]

theorem OnePin.lookup_eq (h : OnePin held lost p i f) : p.lookup f.page.id = some f.page :=
  lookup_of_holds (h.inv.slot h.holds) h.holds

theorem OnePin.frameAt_eq (h : OnePin held lost p i f) : frameAt i p = (.ok f,p) :=
  h.inv.frameAt_eq h.holds

theorem OnePin.unpinPage_eq (h : OnePin held lost p i f) (d : Bool) :
    ∃ p', unpinPage f.page.id d p = (.ok (),p') ∧
      OnePin held lost p' i { f with pinCount := f.pinCount - 1, dirty := f.dirty || d } ∧
      p'.lookup = p.lookup ∧ p'.disk.numPages = p.disk.numPages := by
  have hc : (f.dirty || d) = false → p.disk.pageAt f.page.id = some f.page := by
    intro hd
    exact h.inv.clean i f h.holds (Bool.or_eq_false_iff.mp hd).1
  obtain ⟨h1,h2⟩ := h.reframe
    (g := { f with pinCount := f.pinCount - 1, dirty := f.dirty || d }) rfl hc
  refine ⟨_,?_,h1,h2.same h.lookup_eq,h2.pages⟩
  rw [unpinPage]
  simp only [Prog.get_bind_run,h.inv.slot h.holds]
  rw [Prog.bind_ok h.frameAt_eq]
  rfl

theorem OnePin.modifyPage_eq (h : OnePin held lost p i f) (hd : f.dirty = true) {g : Page → Page}
    (hg : (g f.page).id = f.page.id) : ∃ p', modifyPage i g p = (.ok (),p') ∧
      OnePin held lost p' i { f with page := g f.page } ∧ Puts p p' (g f.page) := by
  obtain ⟨h1,h2⟩ := h.reframe (g := { f with page := g f.page }) hg (by simp [hd])
  refine ⟨_,?_,h1,h2⟩
  rw [modifyPage,Prog.bind_ok h.frameAt_eq]
  rfl

theorem OnePin.pin_eq (h : OnePin held lost p i f) (hn : f.pinCount + 1 < 2 ^ 32) (d : Bool)
    (hd : d = false → f.dirty = false) :
    ∃ p', pin i { f with dirty := d, refBit := true } p = (.ok (),p') ∧
      OnePin held lost p' i ⟨f.page,f.pinCount + 1,d,true⟩ ∧ p'.lookup = p.lookup ∧
      p'.disk.numPages = p.disk.numPages := by
  obtain ⟨h1,h2⟩ := h.reframe (g := ⟨f.page,f.pinCount + 1,d,true⟩) rfl
    (fun e => h.inv.clean i f h.holds (hd e))
  refine ⟨_,?_,h1,h2.same h.lookup_eq,h2.pages⟩
  rw [pin,if_pos hn]
  rfl

theorem Idle.load (h : Idle held lost p) (ht : p.pageTable pid = none) (hl : p.lookup pid = some pg)
    (n : Nat) : ∃ i p1 p2, getFreeFrame p = (.ok i,p1) ∧
      onDisk (readPage pid) p1 = (.ok pg,p1) ∧
      install pid i ⟨pg,n,false,true⟩ p1 = (.ok (),p2) ∧ OnePin held lost p2 i ⟨pg,n,false,true⟩ ∧
      p2.lookup = p.lookup ∧ p2.disk.numPages = p.disk.numPages ∧ p2.pageTable pid = some i := by
  obtain ⟨i,p1,hfree,hinv,hk⟩ := h.inv.getFreeFrame_ok h.free
  obtain ⟨p2,hread,hinst,h2,hsame,hf,ht2,hrest,hcap⟩ := h.inv.load_eq hinv hk ht hl n
  exact ⟨i,p1,p2,hfree,hread,hinst,
    ⟨⟨h2,h.few,hcap ▸ h.room⟩,hf,fun j g hg hj => h.keeps hk j g (hrest j g hg hj)⟩,
    hsame.lookup,hsame.pages,ht2⟩

theorem Idle.fetchPage_eq (h : Idle held lost p) (hl : p.lookup pid = some pg) :
    ∃ i f p', fetchPage pid p = (.ok pg,p') ∧ OnePin held lost p' i f ∧ f.page = pg ∧
      f.pinCount = 1 ∧
      p'.lookup = p.lookup ∧ p'.disk.numPages = p.disk.numPages := by
  cases ht : p.pageTable pid with
  | some i =>
    obtain ⟨f,hf,hid⟩ := h.inv.holds ht
    have h1 := h.onePin hf
    have h0 := h.unpinned i f hf
    obtain ⟨p',hpin,h2,hlook,hpages⟩ := h1.pin_eq (by rw [h0]; decide) f.dirty id
    rw [lookup_of_holds ht hf] at hl
    cases hl
    refine ⟨i,_,p',?_,h2,rfl,by simp [h0],hlook,hpages⟩
    rw [fetchPage]
    simp only [Prog.get_bind_run,ht]
    rw [Prog.bind_ok h1.frameAt_eq,Prog.bind_ok hpin]
    rfl
  | none =>
    obtain ⟨i,p1,p2,hfree,hread,hinst,h2,hlook,hpages,-⟩ := h.load ht hl 1
    refine ⟨i,_,p2,?_,h2,rfl,rfl,hlook,hpages⟩
    rw [fetchPage]
    simp only [Prog.get_bind_run,ht]
    rw [Prog.bind_ok hfree,Prog.bind_ok hread,Prog.bind_ok hinst]
    rfl

theorem OnePin.fetchPageMut_eq (h : OnePin held lost p i f) (hn : f.pinCount + 1 < 2 ^ 32) :
    ∃ p', fetchPageMut f.page.id p = (.ok i,p') ∧
      OnePin held lost p' i ⟨f.page,f.pinCount + 1,true,true⟩ ∧ p'.lookup = p.lookup ∧
      p'.disk.numPages = p.disk.numPages := by
  obtain ⟨p',hpin,h1,hlook,hpages⟩ := h.pin_eq hn true (by simp)
  refine ⟨p',?_,h1,hlook,hpages⟩
  rw [fetchPageMut]
  simp only [Prog.get_bind_run,h.inv.slot h.holds,Option.isNone_some,Bool.false_eq_true,if_false,
    Prog.pure_bind_run,Prog.ofOption_some]
  rw [Prog.bind_ok h.frameAt_eq,Prog.bind_ok hpin]
  rfl

theorem Idle.fetchPageMut_eq (h : Idle held lost p) (hl : p.lookup pid = some pg) :
    ∃ i p', fetchPageMut pid p = (.ok i,p') ∧ OnePin held lost p' i ⟨pg,1,true,true⟩ ∧
      p'.lookup = p.lookup ∧ p'.disk.numPages = p.disk.numPages := by
  have hid := h.inv.lookup_id hl
  cases ht : p.pageTable pid with
  | some i =>
    obtain ⟨f,hf,rfl⟩ := h.inv.holds ht
    have h0 := h.unpinned i f hf
    obtain ⟨p',hfetch,h1,hlook,hpages⟩ := (h.onePin hf).fetchPageMut_eq (by rw [h0]; decide)
    rw [lookup_of_holds ht hf] at hl
    cases hl
    rw [h0] at h1
    exact ⟨i,p',hfetch,h1,hlook,hpages⟩
  | none =>
    obtain ⟨i,p1,p2,hfree,hread,hinst,h2,hlook,hpages,ht2⟩ := h.load ht hl 0
    obtain ⟨p3,hpin,h3,hlook3,hpages3⟩ := h2.pin_eq (by norm_num) true (by simp)
    refine ⟨i,p3,?_,h3,hlook3.trans hlook,hpages3.trans hpages⟩
    rw [fetchPageMut]
    simp only [Prog.get_bind_run,ht,Option.isNone_none,if_true]
    rw [Prog.bind_ok hfree,Prog.bind_ok hread,Prog.bind_ok hinst]
    simp only [Prog.get_bind_run,ht2,Prog.ofOption_some,Prog.pure_bind_run]
    rw [Prog.bind_ok h2.frameAt_eq,Prog.bind_ok hpin]
    rfl

theorem Quiet.extended (h : Quiet p) (hn : p.disk.numPages.toNat + 1 < 2 ^ 32) :
    Quiet (withDisk p.disk.extend p) ∧
      ∀ q, q ≠ p.disk.numPages → (withDisk p.disk.extend p).lookup q = p.lookup q := by
  have hinv := h.inv.extended hn
  have hnum := numPages_extend (d := p.disk) hn
  refine ⟨⟨hinv,h.unpinned⟩,fun q hq => ?_⟩
  by_cases hlt : q.toNat < p.disk.numPages.toNat
  · exact h.inv.lookup_extend hlt
  · have hne : q.toNat ≠ p.disk.numPages.toNat := fun e => hq (UInt32.toNat_inj.mp e)
    have h1 : ¬ (p.lookup q).isSome = true := by rwa [h.inv.lookup_isSome]
    have h2 : ¬ ((withDisk p.disk.extend p).lookup q).isSome = true := by
      rw [hinv.lookup_isSome]
      change ¬ _ < p.disk.extend.numPages.toNat
      omega
    rw [Bool.not_eq_true,Option.isSome_eq_false_iff,Option.isNone_iff_eq_none] at h1 h2
    exact h2.trans h1.symm

theorem Quiet.newPage_eq (h : Quiet p) (hn : p.disk.numPages.toNat + 1 < 2 ^ 32) :
    ∃ i p', newPage p = (.ok p.disk.numPages,p') ∧
      OnePin [] 0 p' i ⟨Page.new p.disk.numPages,1,true,true⟩ ∧
      p'.lookup = Function.update p.lookup p.disk.numPages (some (Page.new p.disk.numPages)) ∧
      p'.disk.numPages.toNat = p.disk.numPages.toNat + 1 := by
  obtain ⟨h0,hlook0⟩ := h.extended hn
  have hnum := numPages_extend (d := p.disk) hn
  have halloc := onDisk_ok (p := p) (allocatePage_eq h.inv.disk.calm)
  obtain ⟨i,p1,hfree,hinv,hk⟩ := h0.inv.getFreeFrame_ok h0.free
  have hpages : p1.disk.numPages = p.disk.extend.numPages := hk.pages
  have ht1 : p1.pageTable p.disk.numPages = none := hk.absent hinv (fun j g hg he => by
    have := h.inv.known j g hg
    rw [he] at this
    omega)
  obtain ⟨p2,hinst,h2,hput,hf,-,hrest,-⟩ :=
    hinv.install_eq (f := ⟨Page.new p.disk.numPages,1,true,true⟩) ht1
      (by rw [hpages,hnum]; exact Nat.lt_succ_self _) (by simp)
  have hid : (Page.new p.disk.numPages).id = p.disk.numPages := rfl
  rw [hid] at hinst
  refine ⟨i,p2,?_,⟨⟨h2,le_refl 0,Nat.zero_lt_of_lt h2.hand⟩,hf,
    fun j g hg hj => h0.keeps hk j g (hrest j g hg hj)⟩,?_,by rw [hput.pages,hpages,hnum]⟩
  · rw [newPage,Prog.bind_ok halloc,Prog.bind_ok hfree,Prog.bind_ok hinst]
    rfl
  · rw [hput.lookup,hk.lookup]
    funext q
    rw [hid,Function.update_apply,Function.update_apply]
    split_ifs with hq
    · rfl
    · exact hlook0 q hq

end BufferPoolManager

end StorageDb
