import Mathlib.Tactic
import StorageDb.Lib.Weather
import StorageDb.Buffer.Pins

namespace StorageDb
open Prog Bytes

namespace DiskManager

variable {d : DiskManager} {pg : Page} {pid : PageId}

def withFaults (fs : List (Option Nat)) (d : DiskManager) : DiskManager := { d with faults := fs }

def partly (pg : Page) (n : Nat) (d : DiskManager) : DiskManager :=
  { d with file := overwrite d.file (pg.id.toNat * pageSize) (pg.data.take n) }

theorem writePage_weathers (h : d.faults = []) (pg : Page) :
    WeathersFor withFaults (fun d' => ∃ n, d' = d.partly pg n) 1 (writePage pg) d := by
  obtain ⟨file,num,faults,history⟩ := d
  cases h
  refine ⟨fun fs hfs => ?_,fun fs hfs => ?_⟩
  · rcases take_one_none hfs with rfl | ⟨fs,rfl⟩ <;> rfl
  · obtain ⟨n,fs,rfl⟩ := take_one_some hfs
    exact ⟨.io,fs,_,rfl,n,rfl⟩

theorem readPage_weathers (h : d.faults = []) (pid : PageId) :
    WeathersFor withFaults (fun d' => d' = d) 1 (readPage pid) d := by
  obtain ⟨file,num,faults,history⟩ := d
  cases h
  have hrun (fs gs : List (Option Nat)) (ht : tick ⟨file,num,fs,history⟩ =
      (.ok none,⟨file,num,gs,history⟩)) : readPage pid ⟨file,num,fs,history⟩ =
        if hb : pid.toNat * pageSize + pageSize ≤ file.length then
          (.ok (Page.fromBytes pid (slice file (pid.toNat * pageSize) pageSize) (length_slice hb)),
            ⟨file,num,gs,history⟩)
        else (.error (.err .io),⟨file,num,gs,history⟩) := by
    rw [readPage,bind_ok ht]
    simp only [Prog.get_bind_run,Option.isSome_none,Bool.false_eq_true,if_false]
    split_ifs <;> rfl
  refine ⟨fun fs hfs => ?_,fun fs hfs => ?_⟩
  · rcases take_one_none hfs with rfl | ⟨fs,rfl⟩
    · rw [withFaults,hrun [] [] rfl]
      split_ifs <;> rfl
    · rw [withFaults,hrun (none :: fs) fs rfl,hrun [] [] rfl]
      split_ifs <;> rfl
  · obtain ⟨n,fs,rfl⟩ := take_one_some hfs
    exact ⟨.io,fs,⟨file,num,[],history⟩,rfl,rfl⟩

theorem Healthy.partly (h : Healthy d) (hp : pg.id.toNat < d.numPages.toNat) (n : Nat) :
    Healthy (d.partly pg n) ∧ ∀ q, q ≠ pg.id → (d.partly pg n).pageAt q = d.pageAt q := by
  have htake : (pg.data.take n).length ≤ pageSize := by
    rw [List.length_take,pg.size]
    omega
  have hb : pg.id.toNat * pageSize + (pg.data.take n).length ≤ d.file.length := by
    rw [h.whole,pageSize_eq] at *
    omega
  have hfile : (d.partly pg n).file = splice d.file (pg.id.toNat * pageSize) (pg.data.take n) :=
    overwrite_inside hb
  have hlen : (d.partly pg n).file.length = d.file.length := by rw [hfile,length_splice hb]
  refine ⟨⟨h.calm,hlen.trans h.whole⟩,fun q hq => ?_⟩
  have hne : q.toNat ≠ pg.id.toNat := fun e => hq (UInt32.toNat_inj.mp e)
  have hs : slice (d.partly pg n).file (q.toNat * pageSize) pageSize =
      slice d.file (q.toNat * pageSize) pageSize := by
    rw [hfile]
    refine slice_splice_disjoint hb ?_
    rw [pageSize_eq] at *
    omega
  simp only [pageAt,hlen,hs]

end DiskManager

namespace BufferPoolManager
open DiskManager

variable {p p' : BufferPoolManager} {held : List Nat} {lost i : Nat} {f : BufferFrame}
  {pid : PageId}
  {pg : Page}

def withFaults (fs : List (Option Nat)) (p : BufferPoolManager) : BufferPoolManager :=
  withDisk (p.disk.withFaults fs) p

theorem onDisk_weathers {α : Type} {m : Prog Error DiskManager α} {Q : DiskManager → Prop} {n : Nat}
    (h : WeathersFor DiskManager.withFaults Q n m p.disk) :
    WeathersFor withFaults (fun p' => ∃ d, Q d ∧ p' = withDisk d p) n (onDisk m) p := by
  refine ⟨fun fs hfs => ?_,fun fs hfs => ?_⟩
  · have hrun := h.calm fs hfs
    change ((m (p.disk.withFaults fs)).1,
      withDisk (m (p.disk.withFaults fs)).2 (withFaults fs p)) = _
    rw [hrun]
    rfl
  · obtain ⟨e,fs',d,hrun,hQ⟩ := h.struck fs hfs
    refine ⟨e,fs',withDisk d p,?_,d,hQ,rfl⟩
    change ((m (p.disk.withFaults fs)).1,
      withDisk (m (p.disk.withFaults fs)).2 (withFaults fs p)) = _
    rw [hrun]
    rfl

def Spares (held : List Nat) (p p' : BufferPoolManager) : Prop := PoolInv p' held ∧ Keeps p p'

theorem Spares.after {p1 p2 : BufferPoolManager} (h : Spares held p1 p2) (hk : Keeps p p1) :
    Spares held p p2 := ⟨h.1,hk.trans h.2⟩

-- A dirty frame stays in the pool when its write fails, so what the file holds there is not read.
theorem PoolInv.partly (h : PoolInv p held) (hf : p.Holds i f) (hd : f.dirty = true) (n : Nat) :
    Spares held p (withDisk (p.disk.partly f.page n) p) := by
  obtain ⟨hdisk,hpage⟩ := h.disk.partly (h.known i f hf) n
  refine ⟨⟨hdisk,h.size,h.hand,h.table,h.empty,h.nodup,h.known,fun j g hg hc => ?_⟩,⟨?_,rfl,rfl,?_⟩⟩
  · refine (hpage _ fun he => ?_).trans (h.clean j g hg hc)
    have hj := (h.slot hg).symm.trans (he ▸ h.slot hf)
    cases hj
    rw [hf.unique hg,hc] at hd
    cases hd
  · funext q
    cases ht : p.pageTable q with
    | none =>
      rw [lookup_of_absent ht,lookup_of_absent (p := withDisk (p.disk.partly f.page n) p) ht]
      refine hpage q ?_
      rintro rfl
      exact absurd (h.slot hf) (by simp [ht])
    | some j =>
      obtain ⟨g,hg,-⟩ := h.holds ht
      rw [lookup_of_holds ht hg]
      exact lookup_of_holds (p := withDisk _ p) ht hg
  · exact fun _ g hg => ⟨g,hg,rfl,rfl⟩

theorem PoolInv.evict_weathers (h : PoolInv p held) (hf : p.Holds p.clockHand f) :
    Weathers withFaults (Spares held p) (evict f) p := by
  have hrest (q : BufferPoolManager) : Weathers withFaults (Spares held p) (do
      let p ← Prog.get
      Prog.modify (fun p => advance (setFrame p.clockHand none (mapPage f.page.id none p)))
      pure p.clockHand : Prog Error BufferPoolManager Nat) q :=
    weathers_get_bind (fun _ => rfl) (weathers_modify_bind (fun _ => rfl) (weathers_pure _))
  rw [evict]
  cases hd : f.dirty with
  | false => exact hrest p
  | true =>
    refine Weathers.bind ?_ (fun _ q _ => hrest q)
    refine (onDisk_weathers (writePage_weathers h.disk.calm f.page)).weathers.mono ?_
    rintro t ⟨d,⟨n,rfl⟩,rfl⟩
    exact h.partly hf hd n

theorem PoolInv.clockStep_weathers (h : PoolInv p held) (spare : Bool) :
    Weathers withFaults (Spares held p) (clockStep spare) p := by
  have hmove (q : BufferPoolManager) : Weathers withFaults (Spares held p) (do
      Prog.modify advance
      pure none : Prog Error BufferPoolManager (Option Nat)) q :=
    weathers_modify_bind (fun _ => rfl) (weathers_pure _)
  refine weathers_get_bind (fun _ => rfl) ((weathers_ofOption _).bind fun slot q hslot => ?_)
  cases hs : p.frames[p.clockHand]? with
  | none =>
    rw [hs] at hslot
    cases hslot
  | some x =>
    rw [hs] at hslot
    cases hslot
    cases slot with
    | none => exact hmove p
    | some f =>
      dsimp only
      split_ifs
      · exact weathers_modify_bind (fun _ => rfl) (hmove _)
      · exact (h.evict_weathers hs).bind fun _ _ _ => weathers_pure _
      · exact hmove p

theorem PoolInv.lastPass_weathers (h : PoolInv p held) (n : Nat) :
    Weathers withFaults (Spares held p) (lastPass n) p := by
  induction n generalizing p with
  | zero => exact weathers_fail _
  | succ n ih =>
    refine (h.clockStep_weathers false).bind (fun victim q hm => ?_)
    rcases h.clockStep_spec false with ⟨p',he,-⟩ | ⟨p',he,hi,hk,-⟩
    · cases hm.symm.trans he
      exact weathers_pure _
    · cases hm.symm.trans he
      exact (ih hi).mono fun _ hs => hs.after hk

theorem PoolInv.clockLoop_weathers (h : PoolInv p held) (start fuel : Nat) :
    Weathers withFaults (Spares held p) (clockLoop start fuel) p := by
  induction fuel generalizing p with
  | zero => exact weathers_fail _
  | succ fuel ih =>
    refine (h.clockStep_weathers true).bind (fun victim q hm => ?_)
    rcases h.clockStep_spec true with ⟨p',he,-⟩ | ⟨p',he,hi,hk,-⟩
    · cases hm.symm.trans he
      exact weathers_pure _
    · cases hm.symm.trans he
      refine weathers_get_bind (fun _ => rfl) ?_
      split_ifs
      · exact (hi.lastPass_weathers _).mono fun _ hs => hs.after hk
      · exact (ih hi).mono fun _ hs => hs.after hk

theorem PoolInv.getFreeFrame_weathers (h : PoolInv p held) :
    Weathers withFaults (Spares held p) getFreeFrame p := by
  refine weathers_get_bind (fun _ => rfl) ?_
  cases p.freeList with
  | nil => exact h.clockLoop_weathers _ _
  | cons i rest => exact weathers_modify_bind (fun _ => rfl) (weathers_pure _)

section frames

variable {Q : BufferPoolManager → Prop}

theorem frameAt_weathers (i : Nat) : Weathers withFaults Q (frameAt i) p :=
  weathers_get_bind (fun _ => rfl) (weathers_ofOption _)

theorem pin_weathers (i : Nat) (f : BufferFrame) : Weathers withFaults Q (pin i f) p := by
  rw [pin]
  split_ifs
  · exact weathers_modify fun _ => rfl
  · exact weathers_fail _

theorem install_weathers (pid : PageId) (i : Nat) (f : BufferFrame) :
    Weathers withFaults Q (install pid i f) p := by
  refine weathers_get_bind (fun _ => rfl) ?_
  split_ifs
  · exact weathers_modify fun _ => rfl
  · exact weathers_fail _

theorem modifyPage_weathers (i : Nat) (g : Page → Page) :
    Weathers withFaults Q (modifyPage i g) p :=
  (frameAt_weathers i).bind fun _ _ _ => weathers_modify fun _ => rfl

theorem unpinPage_weathers (pid : PageId) (d : Bool) :
    Weathers withFaults Q (unpinPage pid d) p := by
  refine weathers_get_bind (fun _ => rfl) ?_
  cases p.pageTable pid with
  | none => exact weathers_fail _
  | some i => exact (frameAt_weathers i).bind fun _ _ _ => weathers_modify fun _ => rfl

end frames

-- The pool after a disk fault: the pages are those of p, at most lost frames are gone.
def Struck (lost : Nat) (p p' : BufferPoolManager) : Prop :=
  ∃ held, Idle held lost p' ∧ Same p p'

theorem Idle.struck (h : Idle held lost p) (hs : Spares held p p') : Struck lost p p' :=
  ⟨held,⟨⟨hs.1,h.few,hs.2.capacity ▸ h.room⟩,h.keeps hs.2⟩,hs.2.same⟩

theorem Idle.load_weathers (h : Idle held lost p) (hlt : held.length < lost) (pid : PageId)
    {α : Type} {k : Nat → Page → Prog Error BufferPoolManager α}
    (hk : ∀ i pg q, Weathers withFaults (Struck lost p) (k i pg) q) :
    Weathers withFaults (Struck lost p) (do
      let i ← getFreeFrame
      let page ← onDisk (DiskManager.readPage pid)
      k i page) p := by
  refine (h.inv.getFreeFrame_weathers.mono fun _ => h.struck).bind (fun i p1 hm => ?_)
  have hfr := h.inv.getFreeFrame_spec.of_eq hm
  have hinv := hfr.ok i rfl
  refine Weathers.bind ?_ (fun pg q _ => hk i pg q)
  refine (onDisk_weathers (readPage_weathers hinv.disk.calm pid)).weathers.mono ?_
  rintro t ⟨d,rfl,rfl⟩
  -- the frame found for the page is lost
  exact ⟨i :: held,⟨⟨hinv,hlt,hfr.keeps.capacity ▸ h.room⟩,h.keeps hfr.keeps⟩,hfr.keeps.same⟩

theorem Idle.fetchPage_weathers (h : Idle held lost p) (hlt : held.length < lost) (pid : PageId) :
    Weathers withFaults (Struck lost p) (fetchPage pid) p := by
  refine weathers_get_bind (fun _ => rfl) ?_
  cases p.pageTable pid with
  | some i =>
    exact (frameAt_weathers i).bind fun f _ _ => (pin_weathers i _).bind fun _ _ _ =>
      weathers_pure _
  | none =>
    exact h.load_weathers hlt pid fun i pg q => (install_weathers pid i _).bind fun _ _ _ =>
      weathers_pure _

theorem Idle.fetchPageMut_weathers (h : Idle held lost p) (hlt : held.length < lost)
    (pid : PageId) :
    Weathers withFaults (Struck lost p) (fetchPageMut pid) p := by
  have hrest (q : BufferPoolManager) : Weathers withFaults (Struck lost p) (do
      let p ← Prog.get
      let i ← Prog.ofOption (p.pageTable pid)
      let f ← frameAt i
      pin i { f with dirty := true, refBit := true }
      pure i) q :=
    weathers_get_bind (fun _ => rfl) ((weathers_ofOption _).bind fun i _ _ =>
      (frameAt_weathers i).bind fun f _ _ => (pin_weathers i _).bind fun _ _ _ => weathers_pure _)
  refine weathers_get_bind (fun _ => rfl) ?_
  dsimp only
  split_ifs
  · exact h.load_weathers hlt pid fun i pg q => (install_weathers pid i _).bind fun _ q _ => hrest q
  · exact hrest p

end BufferPoolManager

end StorageDb
