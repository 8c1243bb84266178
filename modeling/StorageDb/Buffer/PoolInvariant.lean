import Mathlib.Tactic
import StorageDb.Buffer.Pool

namespace StorageDb

namespace BufferPoolManager
open DiskManager

def Holds (p : BufferPoolManager) (i : Nat) (f : BufferFrame) : Prop :=
  p.frames[i]? = some (some f)

def lookup (p : BufferPoolManager) (pageId : PageId) : Option Page :=
  match p.pageTable pageId with
  | some i => (p.frames[i]?.join).map BufferFrame.page
  | none => p.disk.pageAt pageId

-- held lists the empty frames taken from the free list and not yet filled.
structure PoolInv (p : BufferPoolManager) (held : List Nat) : Prop where
  disk : p.disk.Healthy
  size : p.frames.length = p.capacity
  hand : p.clockHand < p.capacity
  table : ∀ pid i, p.pageTable pid = some i ↔ ∃ f, p.Holds i f ∧ f.page.id = pid
  empty : ∀ i, p.frames[i]? = some none ↔ i ∈ held ++ p.freeList
  nodup : (held ++ p.freeList).Nodup
  known : ∀ i f, p.Holds i f → f.page.id.toNat < p.disk.numPages.toNat
  clean : ∀ i f, p.Holds i f → f.dirty = false → p.disk.pageAt f.page.id = some f.page

-- Same pages and pins; p' may have lost frames and reference bits.
structure Keeps (p p' : BufferPoolManager) : Prop where
  lookup : p'.lookup = p.lookup
  pages : p'.disk.numPages = p.disk.numPages
  capacity : p'.capacity = p.capacity
  frames : ∀ i f', p'.Holds i f' → ∃ f, p.Holds i f ∧ f'.page = f.page ∧ f'.pinCount = f.pinCount

variable {p p' p'' : BufferPoolManager} {held : List Nat} {i : Nat} {f f' : BufferFrame}
  {pid : PageId}

theorem Keeps.refl (p : BufferPoolManager) : Keeps p p :=
  ⟨rfl,rfl,rfl,fun _ f hf => ⟨f,hf,rfl,rfl⟩⟩

theorem Keeps.trans (h : Keeps p p') (h' : Keeps p' p'') : Keeps p p'' where
  lookup := h'.lookup.trans h.lookup
  pages := h'.pages.trans h.pages
  capacity := h'.capacity.trans h.capacity
  frames i f hf := by
    obtain ⟨f',hf',hp',hn'⟩ := h'.frames i f hf
    obtain ⟨f'',hf'',hp'',hn''⟩ := h.frames i f' hf'
    exact ⟨f'',hf'',hp'.trans hp'',hn'.trans hn''⟩

theorem Holds.lt (h : p.Holds i f) : i < p.frames.length := (List.getElem?_eq_some_iff.mp h).1

theorem Holds.unique (h : p.Holds i f) (h' : p.Holds i f') : f = f' :=
  Option.some.inj (Option.some.inj (h.symm.trans h'))

theorem getElem?_setFrame (h : i < p.frames.length) (x : Option BufferFrame) (j : Nat) :
    (setFrame i x p).frames[j]? = if j = i then some x else p.frames[j]? := by
  change (p.frames.set i x)[j]? = _
  rw [List.getElem?_set]
  by_cases hj : j = i
  · subst hj
    rw [if_pos rfl,if_pos h,if_pos rfl]
  · rw [if_neg (Ne.symm hj),if_neg hj]

theorem PoolInv.slot (h : PoolInv p held) (hf : p.Holds i f) : p.pageTable f.page.id = some i :=
  (h.table _ _).mpr ⟨f,hf,rfl⟩

theorem PoolInv.holds (h : PoolInv p held) (ht : p.pageTable pid = some i) :
    ∃ f, p.Holds i f ∧ f.page.id = pid := (h.table _ _).mp ht

theorem lookup_of_holds (hi : p.pageTable pid = some i) (hf : p.Holds i f) :
    p.lookup pid = some f.page := by
  have hf' : p.frames[i]? = some (some f) := hf
  rw [lookup,hi]
  simp only [hf',Option.join_some,Option.map_some]

theorem lookup_of_absent (h : p.pageTable pid = none) : p.lookup pid = p.disk.pageAt pid := by
  rw [lookup,h]

theorem PoolInv.lookup_id (h : PoolInv p held) {pg : Page} (hl : p.lookup pid = some pg) :
    pg.id = pid := by
  cases ht : p.pageTable pid with
  | none =>
    rw [lookup_of_absent ht] at hl
    exact pageAt_id hl
  | some i =>
    obtain ⟨f,hf,hid⟩ := h.holds ht
    rw [lookup_of_holds ht hf] at hl
    cases hl
    exact hid

theorem PoolInv.lookup_isSome (h : PoolInv p held) :
    (p.lookup pid).isSome = true ↔ pid.toNat < p.disk.numPages.toNat := by
  cases ht : p.pageTable pid with
  | none => rw [lookup_of_absent ht,h.disk.pageAt_isSome]
  | some i =>
    obtain ⟨f,hf,rfl⟩ := h.holds ht
    rw [lookup_of_holds ht hf]
    exact iff_of_true rfl (h.known i f hf)

section setFrame

variable {g : BufferFrame} (h : PoolInv p held) (hf : p.Holds i f) (hid : g.page.id = f.page.id)
include h hf hid

theorem PoolInv.reframed (hc : g.dirty = false → p.disk.pageAt g.page.id = some g.page) :
    PoolInv (setFrame i (some g) p) held := by
  have hget (j : Nat) : (setFrame i (some g) p).frames[j]? =
      if j = i then some (some g) else p.frames[j]? := getElem?_setFrame hf.lt _ j
  have hholds (j : Nat) (x : BufferFrame) : (setFrame i (some g) p).Holds j x ↔
      if j = i then x = g else p.Holds j x := by
    rw [Holds,hget]
    split_ifs
    · simp [eq_comm]
    · rfl
  constructor
  case disk => exact h.disk
  case size => exact (List.length_set ..).trans h.size
  case hand => exact h.hand
  case table =>
    intro pid j
    refine (h.table pid j).trans ?_
    by_cases hj : j = i
    · subst hj
      constructor
      · rintro ⟨x,hx,rfl⟩
        exact ⟨g,(hholds _ _).mpr (by rw [if_pos rfl]),by rw [hid,hf.unique hx]⟩
      · rintro ⟨x,hx,rfl⟩
        rw [hholds,if_pos rfl] at hx
        exact ⟨f,hf,by rw [hx,hid]⟩
    · simp only [hholds,if_neg hj]
  case empty =>
    intro j
    rw [hget]
    split_ifs with hj
    · subst hj
      have he := h.empty j
      rw [show p.frames[j]? = some (some f) from hf] at he
      exact ⟨fun e => absurd e (by simp),fun e => absurd (he.mpr e) (by simp)⟩
    · exact h.empty j
  case nodup => exact h.nodup
  case known =>
    intro j x hx
    rw [hholds] at hx
    split_ifs at hx
    · rw [hx,hid]
      exact h.known i f hf
    · exact h.known j x hx
  case clean =>
    intro j x hx
    rw [hholds] at hx
    split_ifs at hx
    · rw [hx]
      exact hc
    · exact h.clean j x hx

omit hid in
theorem PoolInv.lookup_setFrame : (setFrame i (some g) p).lookup =
    Function.update p.lookup f.page.id (some g.page) := by
  funext q
  have hget (j : Nat) : (setFrame i (some g) p).frames[j]? =
      if j = i then some (some g) else p.frames[j]? := getElem?_setFrame hf.lt _ j
  by_cases hq : q = f.page.id
  · subst hq
    rw [Function.update_self]
    exact lookup_of_holds (i := i) (h.slot hf) (by rw [Holds,hget,if_pos rfl])
  · rw [Function.update_of_ne hq]
    cases ht : p.pageTable q with
    | none =>
      rw [lookup_of_absent ht,lookup_of_absent (p := setFrame _ _ _) ht]
      rfl
    | some j =>
      obtain ⟨x,hx,rfl⟩ := h.holds ht
      have hj : j ≠ i := by
        rintro rfl
        exact hq (by rw [hx.unique hf])
      rw [lookup_of_holds ht hx]
      exact lookup_of_holds (i := j) ht (by rw [Holds,hget,if_neg hj]; exact hx)

end setFrame

theorem PoolInv.advanced (h : PoolInv p held) : PoolInv (advance p) held :=
  ⟨h.disk,h.size,Nat.mod_lt _ (Nat.zero_lt_of_lt h.hand),h.table,h.empty,h.nodup,h.known,h.clean⟩

theorem keeps_advance (p : BufferPoolManager) : Keeps p (advance p) :=
  ⟨rfl,rfl,rfl,fun _ f hf => ⟨f,hf,rfl,rfl⟩⟩

def withDisk (d : DiskManager) (p : BufferPoolManager) : BufferPoolManager := { p with disk := d }

theorem onDisk_ok {α : Type} {m : Prog Error DiskManager α} {a : α} {d : DiskManager}
    (h : m p.disk = (.ok a,d)) : onDisk m p = (.ok a,withDisk d p) := by
  rw [onDisk,Prog.zoom,h]
  rfl

section store

variable (h : PoolInv p held) (hf : p.Holds i f)
include h hf

theorem PoolInv.stored : PoolInv (withDisk (p.disk.store f.page) p) held where
  disk := h.disk.store (h.known i f hf)
  size := h.size
  hand := h.hand
  table := h.table
  empty := h.empty
  nodup := h.nodup
  known := h.known
  clean j g hg hd := by
    have hg' : p.Holds j g := hg
    change (p.disk.store f.page).pageAt g.page.id = some g.page
    rw [h.disk.pageAt_store (h.known i f hf)]
    split_ifs with he
    · have hj := (h.slot hg').symm.trans (he ▸ h.slot hf)
      cases hj
      rw [hf.unique hg']
    · exact h.clean j g hg' hd

theorem PoolInv.lookup_store : (withDisk (p.disk.store f.page) p).lookup = p.lookup := by
  funext q
  cases ht : p.pageTable q with
  | none =>
    have hq : q ≠ f.page.id := by
      rintro rfl
      exact absurd (h.slot hf) (by simp [ht])
    rw [lookup_of_absent ht,lookup_of_absent (p := withDisk (p.disk.store f.page) p) ht]
    exact (h.disk.pageAt_store (h.known i f hf) q).trans (if_neg hq)
  | some j =>
    obtain ⟨g,hg,-⟩ := h.holds ht
    rw [lookup_of_holds ht hg]
    exact lookup_of_holds (p := withDisk _ _) ht hg

theorem PoolInv.dropped (hc : p.disk.pageAt f.page.id = some f.page) :
    PoolInv (setFrame i none (mapPage f.page.id none p)) (i :: held) ∧
      Keeps p (setFrame i none (mapPage f.page.id none p)) := by
  set p1 := setFrame i none (mapPage f.page.id none p) with hp1
  have hget (j : Nat) : p1.frames[j]? = if j = i then some none else p.frames[j]? :=
    getElem?_setFrame (p := mapPage f.page.id none p) hf.lt none j
  have hholds (j : Nat) (g : BufferFrame) : p1.Holds j g ↔ j ≠ i ∧ p.Holds j g := by
    rw [Holds,hget]
    split_ifs with hj
    · simp [hj]
    · exact (and_iff_right hj).symm
  have htab (q : PageId) : p1.pageTable q = if q = f.page.id then none else p.pageTable q :=
    Function.update_apply ..
  refine ⟨⟨h.disk,(List.length_set ..).trans h.size,h.hand,?_,?_,?_,?_,?_⟩,⟨?_,rfl,rfl,?_⟩⟩
  · intro q j
    rw [htab]
    split_ifs with hq
    · simp only [false_iff,hholds,not_exists]
      rintro g ⟨⟨hj,hg⟩,hgq⟩
      exact hj (Option.some.inj ((h.slot hg).symm.trans (hgq ▸ hq ▸ h.slot hf)))
    · refine (h.table q j).trans (exists_congr fun g => ?_)
      rw [hholds,and_assoc]
      refine (and_iff_right_of_imp ?_).symm
      rintro ⟨hg,hgq⟩ rfl
      exact hq (by rw [← hgq,hg.unique hf])
  · intro j
    rw [hget]
    change _ ↔ j ∈ i :: (held ++ p.freeList)
    rw [List.mem_cons]
    split_ifs with hj
    · exact iff_of_true rfl (Or.inl hj)
    · rw [h.empty j]
      exact (or_iff_right hj).symm
  · refine List.nodup_cons.mpr ⟨fun hm => ?_,h.nodup⟩
    have := (h.empty i).mpr hm
    rw [show p.frames[i]? = some (some f) from hf] at this
    simp at this
  · exact fun j g hg => h.known j g ((hholds j g).mp hg).2
  · exact fun j g hg => h.clean j g ((hholds j g).mp hg).2
  · funext q
    by_cases hq : q = f.page.id
    · have ht := htab q
      rw [if_pos hq] at ht
      rw [lookup_of_absent ht,hq,lookup_of_holds (h.slot hf) hf]
      exact hc
    · have ht := htab q
      rw [if_neg hq] at ht
      cases hj : p.pageTable q with
      | none =>
        rw [lookup_of_absent hj,lookup_of_absent (ht.trans hj)]
        rfl
      | some j =>
        obtain ⟨g,hg,hgq⟩ := h.holds hj
        have hne : j ≠ i := by
          rintro rfl
          exact hq (by rw [← hgq,hg.unique hf])
        rw [lookup_of_holds hj hg,lookup_of_holds (ht.trans hj) ((hholds j g).mpr ⟨hne,hg⟩)]
  · intro j g hg
    exact ⟨g,((hholds j g).mp hg).2,rfl,rfl⟩

end store

theorem PoolInv.installed (h : PoolInv p (i :: held)) (ht : p.pageTable f.page.id = none)
    (hk : f.page.id.toNat < p.disk.numPages.toNat)
    (hc : f.dirty = false → p.disk.pageAt f.page.id = some f.page) :
    PoolInv (mapPage f.page.id (some i) (setFrame i (some f) p)) held ∧
      (mapPage f.page.id (some i) (setFrame i (some f) p)).lookup =
        Function.update p.lookup f.page.id (some f.page) := by
  set p1 := mapPage f.page.id (some i) (setFrame i (some f) p) with hp1
  have hi : p.frames[i]? = some none := (h.empty i).mpr (by simp)
  have hlt : i < p.frames.length := (List.getElem?_eq_some_iff.mp hi).1
  have hget (j : Nat) : p1.frames[j]? = if j = i then some (some f) else p.frames[j]? :=
    getElem?_setFrame hlt (some f) j
  have hfree (j : Nat) (g : BufferFrame) (hg : p.Holds j g) : j ≠ i := by
    rintro rfl
    rw [Holds,hi] at hg
    simp at hg
  have hholds (j : Nat) (g : BufferFrame) : p1.Holds j g ↔
      if j = i then g = f else p.Holds j g := by
    rw [Holds,hget]
    split_ifs
    · simp [eq_comm]
    · rfl
  have htab (q : PageId) : p1.pageTable q = if q = f.page.id then some i else p.pageTable q :=
    Function.update_apply ..
  have hnd : i ∉ held ++ p.freeList := (List.nodup_cons.mp h.nodup).1
  refine ⟨⟨h.disk,(List.length_set ..).trans h.size,h.hand,?_,?_,?_,?_,?_⟩,?_⟩
  · intro q j
    rw [htab]
    simp only [hholds]
    split_ifs with hq hj hj
    · subst hq hj
      exact iff_of_true rfl ⟨f,rfl,rfl⟩
    · subst hq
      refine iff_of_false (fun e => hj (Option.some.inj e).symm) ?_
      rintro ⟨g,hg,hgq⟩
      exact absurd (h.slot hg) (by rw [hgq,ht]; simp)
    · subst hj
      refine iff_of_false (fun e => ?_) ?_
      · obtain ⟨g,hg,-⟩ := h.holds e
        exact hfree j g hg rfl
      · rintro ⟨g,rfl,hgq⟩
        exact hq hgq.symm
    · exact h.table q j
  · intro j
    rw [hget]
    have he := h.empty j
    rw [List.cons_append,List.mem_cons] at he
    split_ifs with hj
    · subst hj
      exact iff_of_false (by simp) hnd
    · exact he.trans (or_iff_right hj)
  · exact (List.nodup_cons.mp h.nodup).2
  · intro j g hg
    rw [hholds] at hg
    split_ifs at hg
    · rw [hg]
      exact hk
    · exact h.known j g hg
  · intro j g hg
    rw [hholds] at hg
    split_ifs at hg
    · rw [hg]
      exact hc
    · exact h.clean j g hg
  · funext q
    by_cases hq : q = f.page.id
    · have e := htab q
      rw [if_pos hq] at e
      rw [lookup_of_holds e ((hholds i f).mpr (by rw [if_pos rfl])),hq,Function.update_self]
    · have e := htab q
      rw [if_neg hq] at e
      rw [Function.update_of_ne hq]
      cases hj : p.pageTable q with
      | none =>
        rw [lookup_of_absent hj,lookup_of_absent (e.trans hj)]
        rfl
      | some j =>
        obtain ⟨g,hg,-⟩ := h.holds hj
        have hg' : p1.Holds j g := (hholds j g).mpr (by rw [if_neg (hfree j g hg)]; exact hg)
        rw [lookup_of_holds hj hg,lookup_of_holds (e.trans hj) hg']

theorem PoolInv.evict_spec (h : PoolInv p held) (hf : p.Holds p.clockHand f) :
    ∃ p', evict f p = (.ok p.clockHand,p') ∧ PoolInv p' (p.clockHand :: held) ∧ Keeps p p' := by
  cases hd : f.dirty with
  | false =>
    obtain ⟨hi,hk⟩ := h.dropped hf (h.clean _ f hf hd)
    refine ⟨_,?_,hi.advanced,hk.trans (keeps_advance _)⟩
    simp [evict,hd]
    rfl
  | true =>
    have hs := h.stored hf
    have hc : (p.disk.store f.page).pageAt f.page.id = some f.page := by
      rw [h.disk.pageAt_store (h.known _ f hf),if_pos rfl]
    have hw := onDisk_ok (p := p) (writePage_eq h.disk.calm f.page)
    obtain ⟨hi,hk⟩ := hs.dropped (i := p.clockHand) hf hc
    have hk0 : Keeps p (withDisk (p.disk.store f.page) p) :=
      ⟨h.lookup_store hf,rfl,rfl,fun _ g hg => ⟨g,hg,rfl,rfl⟩⟩
    refine ⟨_,?_,hi.advanced,(hk0.trans hk).trans (keeps_advance _)⟩
    rw [evict,hd,if_pos rfl,Prog.bind_ok hw]
    rfl

end BufferPoolManager

end StorageDb
