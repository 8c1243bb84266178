import Mathlib.Tactic
import StorageDb.Buffer.Clock

namespace StorageDb

namespace BufferPoolManager
open DiskManager

structure Same (p p' : BufferPoolManager) : Prop where
  lookup : p'.lookup = p.lookup
  pages : p'.disk.numPages = p.disk.numPages

structure Puts (p p' : BufferPoolManager) (pg : Page) : Prop where
  lookup : p'.lookup = Function.update p.lookup pg.id (some pg)
  pages : p'.disk.numPages = p.disk.numPages

variable {p p' : BufferPoolManager} {held : List Nat} {i : Nat} {f g : BufferFrame} {pid : PageId}
  {pg : Page}

theorem Same.refl (p : BufferPoolManager) : Same p p := ⟨rfl,rfl⟩

theorem Same.trans {p'' : BufferPoolManager} (h : Same p p') (h' : Same p' p'') : Same p p'' :=
  ⟨h'.lookup.trans h.lookup,h'.pages.trans h.pages⟩

theorem Puts.same (h : Puts p p' pg) (hl : p.lookup pg.id = some pg) : p'.lookup = p.lookup := by
  rw [h.lookup,← hl,Function.update_eq_self]

theorem Keeps.absent (hinv : PoolInv p' held) (hk : Keeps p p')
    (ha : ∀ j g, p.Holds j g → g.page.id ≠ pid) : p'.pageTable pid = none := by
  cases hj : p'.pageTable pid with
  | none => rfl
  | some j =>
    obtain ⟨g,hg,hgid⟩ := hinv.holds hj
    obtain ⟨g',hg',hpage,-⟩ := hk.frames j g hg
    exact absurd (by rw [← hpage,hgid]) (ha j g' hg')

theorem Keeps.same (h : Keeps p p') : Same p p' := ⟨h.lookup,h.pages⟩

theorem PoolInv.frameAt_eq (_ : PoolInv p held) (hf : p.Holds i f) :
    frameAt i p = (.ok f,p) := by
  have hh : p.frames[i]? = some (some f) := hf
  simp [frameAt,hh]

theorem PoolInv.reframe_put (h : PoolInv p []) (hf : p.Holds i f) (hid : g.page.id = f.page.id)
    (hc : g.dirty = false → p.disk.pageAt g.page.id = some g.page) :
    PoolInv (setFrame i (some g) p) [] ∧ Puts p (setFrame i (some g) p) g.page ∧
      (setFrame i (some g) p).Holds i g := by
  refine ⟨h.reframed hf hid hc,⟨?_,rfl⟩,?_⟩
  · rw [h.lookup_setFrame hf,hid]
  · rw [Holds,getElem?_setFrame hf.lt,if_pos rfl]

theorem PoolInv.reframe_same (h : PoolInv p []) (hf : p.Holds i f) (hpg : g.page = f.page)
    (hc : g.dirty = false → f.dirty = false) :
    PoolInv (setFrame i (some g) p) [] ∧ Same p (setFrame i (some g) p) ∧
      (setFrame i (some g) p).Holds i g := by
  obtain ⟨h1,h2,h3⟩ := h.reframe_put (g := g) hf (by rw [hpg])
    (fun e => by rw [hpg]; exact h.clean i f hf (hc e))
  exact ⟨h1,⟨h2.same (by rw [hpg]; exact lookup_of_holds (h.slot hf) hf),h2.pages⟩,h3⟩

theorem PoolInv.pin_spec (h : PoolInv p []) (hf : p.Holds i f) (hpg : g.page = f.page)
    (hc : g.dirty = false → f.dirty = false) :
    Prog.Spec (pin i g) p (fun r p' => PoolInv p' [] ∧ Same p p' ∧
      (r = .ok () → p'.Holds i { g with pinCount := g.pinCount + 1 })) := by
  rw [pin]
  split_ifs
  · obtain ⟨h1,h2,h3⟩ := h.reframe_same (g := { g with pinCount := g.pinCount + 1 }) hf hpg hc
    exact ⟨h1,h2,fun _ => h3⟩
  · exact ⟨h,.refl p,fun e => by cases e⟩

theorem PoolInv.install_eq (h : PoolInv p (i :: held)) (ht : p.pageTable f.page.id = none)
    (hk : f.page.id.toNat < p.disk.numPages.toNat)
    (hc : f.dirty = false → p.disk.pageAt f.page.id = some f.page) :
    ∃ p', install f.page.id i f p = (.ok (),p') ∧ PoolInv p' held ∧ Puts p p' f.page ∧
      p'.Holds i f ∧ p'.pageTable f.page.id = some i ∧
      (∀ j g, p'.Holds j g → j ≠ i → p.Holds j g) ∧ p'.capacity = p.capacity := by
  obtain ⟨hinv,hlook⟩ := h.installed ht hk hc
  have hempty : p.frames[i]? = some none := (h.empty i).mpr (by simp)
  have hlt : i < p.frames.length := (List.getElem?_eq_some_iff.mp hempty).1
  have hget (j : Nat) := getElem?_setFrame (p := p) hlt (some f) j
  refine ⟨_,?_,hinv,⟨hlook,rfl⟩,(hget i).trans (if_pos rfl),Function.update_self ..,?_,rfl⟩
  · simp only [install,Prog.get_bind_run,if_pos hlt]
    rfl
  · intro j g hg hj
    exact ((hget j).trans (if_neg hj)).symm.trans hg

theorem PoolInv.load_eq (h : PoolInv p held) (hi : PoolInv p' (i :: held)) (hk : Keeps p p')
    (ht : p.pageTable pid = none) (hl : p.lookup pid = some pg) (n : Nat) :
    ∃ p2, onDisk (readPage pid) p' = (.ok pg,p') ∧
      install pid i ⟨pg,n,false,true⟩ p' = (.ok (),p2) ∧ PoolInv p2 held ∧ Same p p2 ∧
      p2.Holds i ⟨pg,n,false,true⟩ ∧ p2.pageTable pid = some i ∧
      (∀ j g, p2.Holds j g → j ≠ i → p'.Holds j g) ∧ p2.capacity = p.capacity := by
  obtain rfl : pg.id = pid := h.lookup_id hl
  have hl1 : p'.lookup pg.id = some pg := by rw [hk.lookup,hl]
  have ht1 : p'.pageTable pg.id = none := hk.absent hi (fun j g hg he => by
    rw [← he,h.slot hg] at ht
    simp at ht)
  have hat : p'.disk.pageAt pg.id = some pg := by rw [← lookup_of_absent ht1,hl1]
  have hlt : pg.id.toNat < p'.disk.numPages.toNat := by
    rw [← hi.disk.pageAt_isSome,hat]
    rfl
  obtain ⟨p2,hinst,h2,hput,hf,ht2,hrest,hcap⟩ := hi.install_eq (f := ⟨pg,n,false,true⟩) ht1 hlt
    (fun _ => hat)
  exact ⟨p2,onDisk_ok (readPage_eq hi.disk.calm hat),hinst,h2,
    ⟨(hput.same hl1).trans hk.lookup,hput.pages.trans hk.pages⟩,hf,ht2,hrest,
    hcap.trans hk.capacity⟩

theorem PoolInv.fetchPage_spec (h : PoolInv p []) (hl : p.lookup pid = some pg) :
    Prog.Spec (fetchPage pid) p (fun r p' => PoolInv p' [] ∧ Same p p' ∧
      ∀ pg', r = .ok pg' → pg' = pg) := by
  rw [fetchPage]
  simp only [Prog.spec_get_bind]
  cases ht : p.pageTable pid with
  | some i =>
    obtain ⟨f,hf,hid⟩ := h.holds ht
    rw [lookup_of_holds ht hf] at hl
    cases hl
    dsimp only
    rw [Prog.spec_bind_ok (h.frameAt_eq hf)]
    refine (h.pin_spec (g := { f with refBit := true }) hf rfl id).bind ?_ ?_
    · rintro - t ⟨h1,h2,-⟩
      exact ⟨h1,h2,fun _ e => by cases e; rfl⟩
    · rintro e t ⟨h1,h2,-⟩
      exact ⟨h1,h2,fun _ e => by cases e⟩
  | none =>
    refine h.getFreeFrame_spec.bind ?_ ?_
    · intro i p1 hfr
      obtain ⟨p2,hread,hinst,h2,hsame,-⟩ := h.load_eq (hfr.ok i rfl) hfr.keeps ht hl 1
      rw [Prog.spec_bind_ok hread,Prog.spec_bind_ok hinst]
      exact ⟨h2,hsame,fun _ e => by cases e; rfl⟩
    · intro e p1 hfr
      exact ⟨(hfr.error e rfl).2.1,hfr.keeps.same,fun _ e => by cases e⟩

theorem PoolInv.pinned_spec (h : PoolInv p []) (ht : p.pageTable pid = some i) (hf : p.Holds i f) :
    Prog.Spec (do
      let p ← Prog.get
      let i ← Prog.ofOption (p.pageTable pid)
      let f ← frameAt i
      pin i { f with dirty := true, refBit := true }
      pure i) p (fun r p' => PoolInv p' [] ∧ Same p p' ∧
        ∀ j, r = .ok j → ∃ g, p'.Holds j g ∧ g.page = f.page ∧ g.dirty = true) := by
  simp only [Prog.spec_get_bind,ht,Prog.ofOption_some,pure_bind]
  rw [Prog.spec_bind_ok (h.frameAt_eq hf)]
  refine (h.pin_spec (g := { f with dirty := true, refBit := true }) hf rfl (by simp)).bind ?_ ?_
  · rintro a t ⟨h1,h2,h3⟩
    refine ⟨h1,h2,fun j e => ?_⟩
    cases e
    exact ⟨_,h3 rfl,rfl,rfl⟩
  · rintro e t ⟨h1,h2,-⟩
    exact ⟨h1,h2,fun _ e => by cases e⟩

theorem PoolInv.fetchPageMut_spec (h : PoolInv p []) (hl : p.lookup pid = some pg) :
    Prog.Spec (fetchPageMut pid) p (fun r p' => PoolInv p' [] ∧ Same p p' ∧
      ∀ j, r = .ok j → ∃ g, p'.Holds j g ∧ g.page = pg ∧ g.dirty = true) := by
  rw [fetchPageMut]
  simp only [Prog.spec_get_bind]
  cases ht : p.pageTable pid with
  | some i =>
    obtain ⟨f,hf,hid⟩ := h.holds ht
    rw [lookup_of_holds ht hf] at hl
    cases hl
    simp only [Option.isNone_some,Bool.false_eq_true,if_false]
    exact h.pinned_spec ht hf
  | none =>
    simp only [Option.isNone_none,if_true]
    refine h.getFreeFrame_spec.bind ?_ ?_
    · intro i p1 hfr
      obtain ⟨p2,hread,hinst,h2,hsame,hf,ht2,-⟩ := h.load_eq (hfr.ok i rfl) hfr.keeps ht hl 0
      rw [Prog.spec_bind_ok hread,Prog.spec_bind_ok hinst]
      exact Prog.Spec.mono (h2.pinned_spec ht2 hf)
        (fun r t h => ⟨h.1,hsame.trans h.2.1,h.2.2⟩)
    · intro e p1 hfr
      exact ⟨(hfr.error e rfl).2.1,hfr.keeps.same,fun _ e => by cases e⟩

theorem PoolInv.unpinPage_spec (h : PoolInv p []) (pid : PageId) (d : Bool) :
    Prog.Spec (unpinPage pid d) p (fun _ p' => PoolInv p' [] ∧ Same p p') := by
  rw [unpinPage]
  simp only [Prog.spec_get_bind]
  cases ht : p.pageTable pid with
  | none => exact ⟨h,.refl p⟩
  | some i =>
    obtain ⟨f,hf,-⟩ := h.holds ht
    obtain ⟨h1,h2,-⟩ := h.reframe_same
      (g := { f with pinCount := f.pinCount - 1, dirty := f.dirty || d }) hf rfl
      (fun e => (Bool.or_eq_false_iff.mp e).1)
    dsimp only
    rw [Prog.spec_bind_ok (h.frameAt_eq hf)]
    exact ⟨h1,h2⟩

theorem PoolInv.extended (h : PoolInv p []) (hn : p.disk.numPages.toNat + 1 < 2 ^ 32) :
    PoolInv (withDisk p.disk.extend p) [] := by
  have hnum := numPages_extend (d := p.disk) hn
  refine ⟨h.disk.extend hn,h.size,h.hand,h.table,h.empty,h.nodup,?_,?_⟩
  · intro i f hf
    have := h.known i f hf
    change _ < p.disk.extend.numPages.toNat
    omega
  · intro i f hf hc
    exact (pageAt_extend h.disk (h.known i f hf)).trans (h.clean i f hf hc)

theorem PoolInv.lookup_extend (h : PoolInv p []) (hq : pid.toNat < p.disk.numPages.toNat) :
    (withDisk p.disk.extend p).lookup pid = p.lookup pid := by
  cases ht : p.pageTable pid with
  | some i =>
    obtain ⟨f,hf,-⟩ := h.holds ht
    rw [lookup_of_holds ht hf]
    exact lookup_of_holds (p := withDisk _ _) ht hf
  | none =>
    rw [lookup_of_absent ht,lookup_of_absent (p := withDisk p.disk.extend p) ht]
    exact pageAt_extend h.disk hq

theorem PoolInv.newPage_spec (h : PoolInv p []) (hn : p.disk.numPages.toNat + 1 < 2 ^ 32) :
    Prog.Spec newPage p (fun r p' => PoolInv p' [] ∧
      (∀ q : PageId, q.toNat < p.disk.numPages.toNat → p'.lookup q = p.lookup q) ∧
      ∀ id, r = .ok id → id = p.disk.numPages ∧ p'.lookup id = some (Page.new id)) := by
  have h0 := h.extended hn
  have hnum := numPages_extend (d := p.disk) hn
  have halloc := onDisk_ok (p := p) (allocatePage_eq h.disk.calm)
  rw [newPage,Prog.spec_bind_ok halloc]
  refine h0.getFreeFrame_spec.bind ?_ ?_
  · intro i p1 hfr
    have hi := hfr.ok i rfl
    have hpages : p1.disk.numPages = p.disk.extend.numPages := hfr.keeps.pages
    have ht1 : p1.pageTable p.disk.numPages = none := hfr.keeps.absent hi (fun j g hg he => by
      have := h.known j g hg
      rw [he] at this
      omega)
    obtain ⟨p2,hinst,hinv,hput,-⟩ := hi.install_eq (f := ⟨Page.new p.disk.numPages,1,true,true⟩) ht1
      (by rw [hpages,hnum]; exact Nat.lt_succ_self _) (by simp)
    have hid : (Page.new p.disk.numPages).id = p.disk.numPages := rfl
    rw [hid] at hinst
    rw [Prog.spec_bind_ok hinst,Prog.spec_pure]
    refine ⟨hinv,fun q hq => ?_,fun id e => ?_⟩
    · have hne : q ≠ p.disk.numPages := by
        rintro rfl
        omega
      rw [hput.lookup,hid,Function.update_of_ne hne,hfr.keeps.lookup,h.lookup_extend hq]
    · cases e
      refine ⟨rfl,?_⟩
      rw [hput.lookup,hid,Function.update_self]
  · intro e p1 hfr
    refine ⟨(hfr.error e rfl).2.1,fun q hq => ?_,fun _ e => by cases e⟩
    rw [hfr.keeps.lookup,h.lookup_extend hq]

def cleaned (i : Nat) (f : BufferFrame) (p : BufferPoolManager) : BufferPoolManager :=
  setFrame i (some { f with dirty := false })
    (if f.dirty then withDisk (p.disk.store f.page) p else p)

theorem PoolInv.cleaned (h : PoolInv p []) (hf : p.Holds i f) :
    PoolInv (cleaned i f p) [] ∧ Keeps p (cleaned i f p) := by
  have hframes : (BufferPoolManager.cleaned i f p).frames =
      p.frames.set i (some { f with dirty := false }) := by
    rw [BufferPoolManager.cleaned]
    split_ifs <;> rfl
  have hback (j : Nat) (x : BufferFrame) (hx : (BufferPoolManager.cleaned i f p).Holds j x) :
      ∃ y, p.Holds j y ∧ x.page = y.page ∧ x.pinCount = y.pinCount := by
    have hx' : (setFrame i (some { f with dirty := false }) p).frames[j]? = some (some x) :=
      (congrArg (·[j]?) hframes).symm.trans hx
    rw [getElem?_setFrame hf.lt] at hx'
    split_ifs at hx' with hj
    · cases hx'
      exact ⟨f,hj ▸ hf,rfl,rfl⟩
    · exact ⟨x,hx',rfl,rfl⟩
  cases hd : f.dirty with
  | false =>
    obtain ⟨h1,h2,-⟩ := h.reframe_same (g := { f with dirty := false }) hf rfl (fun _ => hd)
    have he : BufferPoolManager.cleaned i f p = setFrame i (some { f with dirty := false }) p := by
      rw [BufferPoolManager.cleaned,hd]
      rfl
    rw [he] at hback ⊢
    exact ⟨h1,h2.lookup,h2.pages,rfl,hback⟩
  | true =>
    have hs := h.stored hf
    have hc : (p.disk.store f.page).pageAt f.page.id = some f.page := by
      rw [h.disk.pageAt_store (h.known _ f hf),if_pos rfl]
    obtain ⟨h1,h2,-⟩ := hs.reframe_put (i := i) (g := { f with dirty := false }) hf rfl
      (fun _ => hc)
    have he : BufferPoolManager.cleaned i f p =
        setFrame i (some { f with dirty := false }) (withDisk (p.disk.store f.page) p) := by
      rw [BufferPoolManager.cleaned,hd]
      rfl
    rw [he] at hback ⊢
    refine ⟨h1,?_,h2.pages,rfl,hback⟩
    have hl : (withDisk (p.disk.store f.page) p).lookup f.page.id = some f.page :=
      lookup_of_holds (hs.slot (i := i) hf) hf
    exact (h2.same hl).trans (h.lookup_store hf)

theorem holds_cleaned {j : Nat} (hf : p.Holds i f)
    (hg : (BufferPoolManager.cleaned i f p).Holds j g) :
    if j = i then g.dirty = false else p.Holds j g := by
  have hframes : (BufferPoolManager.cleaned i f p).frames[j]? =
      (setFrame i (some { f with dirty := false }) p).frames[j]? := by
    rw [BufferPoolManager.cleaned]
    split_ifs <;> rfl
  rw [Holds,hframes,getElem?_setFrame hf.lt] at hg
  split_ifs at hg ⊢
  · cases hg
    rfl
  · exact hg

theorem PoolInv.flushPage_spec (h : PoolInv p []) (pid : PageId) :
    ∃ p', flushPage pid p = (.ok (),p') ∧ PoolInv p' [] ∧ Keeps p p' := by
  rw [flushPage]
  simp only [Prog.get_bind_run]
  cases ht : p.pageTable pid with
  | none => exact ⟨p,rfl,h,.refl p⟩
  | some i =>
    obtain ⟨f,hf,-⟩ := h.holds ht
    dsimp only
    rw [Prog.bind_ok (h.frameAt_eq hf)]
    split_ifs with hd
    · obtain ⟨h1,h2⟩ := h.cleaned hf
      rw [Prog.bind_ok (onDisk_ok (writePage_eq h.disk.calm f.page))]
      refine ⟨_,rfl,?_⟩
      rw [BufferPoolManager.cleaned,if_pos hd] at h1 h2
      exact ⟨h1,h2⟩
    · exact ⟨p,rfl,h,.refl p⟩

theorem PoolInv.flushFrames_spec (h : PoolInv p []) {is : List Nat}
    (his : ∀ i ∈ is, i < p.capacity) : ∃ p', flushFrames is p = (.ok (),p') ∧ PoolInv p' [] ∧
      Keeps p p' ∧ ∀ j g, p'.Holds j g → g.dirty = true → j ∉ is ∧ p.Holds j g := by
  induction is generalizing p with
  | nil => exact ⟨p,rfl,h,.refl p,fun j g hg _ => ⟨by simp,hg⟩⟩
  | cons i is ih =>
    have hlt : i < p.frames.length := h.size ▸ his i (by simp)
    have hget := List.getElem?_eq_getElem hlt
    have hrest (q : BufferPoolManager) (hq : q.capacity = p.capacity) : ∀ j ∈ is, j < q.capacity :=
      fun j hj => hq ▸ his j (by simp [hj])
    rw [flushFrames]
    simp only [Prog.get_bind_run,hget,Prog.ofOption_some,Prog.pure_bind_run]
    cases hs : p.frames[i] with
    | none =>
      obtain ⟨p',he,h1,h2,h3⟩ := ih h (hrest p rfl)
      refine ⟨p',he,h1,h2,fun j g hg hd => ?_⟩
      obtain ⟨hj,hg'⟩ := h3 j g hg hd
      refine ⟨fun hm => ?_,hg'⟩
      rcases List.mem_cons.mp hm with rfl | hm
      · rw [Holds,hget,hs] at hg'
        simp at hg'
      · exact hj hm
    | some f =>
      rw [hs] at hget
      have hf : p.Holds i f := hget
      obtain ⟨h1,h2⟩ := h.cleaned hf
      obtain ⟨p',he,h3,h4,h5⟩ := ih h1 (hrest _ h2.capacity)
      refine ⟨p',?_,h3,h2.trans h4,fun j g hg hd => ?_⟩
      · rw [← he,BufferPoolManager.cleaned]
        dsimp only
        split_ifs
        · rw [Prog.bind_ok (onDisk_ok (writePage_eq h.disk.calm f.page))]
          rfl
        · rfl
      · obtain ⟨hj,hg'⟩ := h5 j g hg hd
        have hc := holds_cleaned hf hg'
        split_ifs at hc with hji
        · rw [hc] at hd
          cases hd
        · exact ⟨by simp [hji,hj],hc⟩

theorem PoolInv.flushAll_spec (h : PoolInv p []) : ∃ p', flushAll p = (.ok (),p') ∧
    PoolInv p' [] ∧ Keeps p p' ∧ p'.disk.pageAt = p.lookup := by
  obtain ⟨p',he,h1,h2,h3⟩ := h.flushFrames_spec
    (show ∀ i ∈ List.range p.capacity, i < p.capacity by simp)
  refine ⟨p',?_,h1,h2,?_⟩
  · rw [flushAll]
    simp only [Prog.get_bind_run]
    rw [Prog.bind_ok he]
    exact onDisk_ok (sync_eq h1.disk.calm)
  · funext q
    rw [← h2.lookup]
    cases ht : p'.pageTable q with
    | none => rw [lookup_of_absent ht]
    | some i =>
      obtain ⟨f,hf,rfl⟩ := h1.holds ht
      rw [lookup_of_holds ht hf]
      refine h1.clean i f hf ?_
      rw [← Bool.not_eq_true]
      intro hd
      obtain ⟨hi,-⟩ := h3 i f hf hd
      have hlt := hf.lt
      rw [h1.size,h2.capacity] at hlt
      exact hi (List.mem_range.mpr hlt)

end BufferPoolManager

end StorageDb
