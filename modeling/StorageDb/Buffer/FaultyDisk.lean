import Mathlib.Tactic
import StorageDb.Disk.DiskManager

namespace StorageDb
open Bytes Prog

namespace DiskManager

variable {d : DiskManager} {pg : Page} {pid q : PageId}

-- The file ends on the last page counted or before the end of the next one.
structure Tame (d : DiskManager) : Prop where
  tail : d.file.length < (d.numPages.toNat + 1) * pageSize

-- The whole pages of the file on a disk without faults.
def settled (d : DiskManager) : DiskManager where
  file := d.file.take (d.file.length / pageSize * pageSize)
  numPages := UInt32.ofNat (d.file.length / pageSize)
  faults := []
  history := d.history

theorem Tame.pages_lt (h : d.Tame) : d.file.length / pageSize < 2 ^ 32 := by
  have hlt := h.tail
  have hnum := d.numPages.toNat_lt
  rw [pageSize_eq] at *
  omega

theorem Tame.toNat_settled (h : d.Tame) : d.settled.numPages.toNat = d.file.length / pageSize :=
  UInt32.toNat_ofNat_of_lt' h.pages_lt

theorem Tame.settled (h : d.Tame) : d.settled.Healthy where
  calm := rfl
  whole := by
    rw [h.toNat_settled,DiskManager.settled,List.length_take,pageSize_eq]
    omega

theorem Tame.pageAt_settled (h : d.Tame) : d.settled.pageAt = d.pageAt := by
  funext q
  have hlen : d.settled.file.length = d.file.length / pageSize * pageSize := by
    rw [h.settled.whole,h.toNat_settled]
  have hfile : d.file = d.settled.file ++ d.file.drop (d.file.length / pageSize * pageSize) :=
    (List.take_append_drop ..).symm
  by_cases hq : q.toNat * pageSize + pageSize ≤ d.settled.file.length
  · have hq' : q.toNat * pageSize + pageSize ≤ d.file.length := by
      rw [hlen,pageSize_eq] at hq
      rw [pageSize_eq]
      omega
    rw [pageAt,pageAt,dif_pos hq,dif_pos hq']
    refine congrArg some (Page.ext rfl ?_)
    change slice d.settled.file _ _ = slice d.file _ _
    rw [hfile,slice_append_left hq]
  · have hq' : ¬ q.toNat * pageSize + pageSize ≤ d.file.length := by
      rw [hlen,pageSize_eq] at hq
      rw [pageSize_eq]
      omega
    rw [pageAt,pageAt,dif_neg hq,dif_neg hq']

theorem pageAt_isSome :
    (d.pageAt q).isSome = true ↔ q.toNat * pageSize + pageSize ≤ d.file.length := by
  rw [pageAt]
  split_ifs with hq
  · exact iff_of_true rfl hq
  · exact iff_of_false Bool.false_ne_true hq

theorem pageAt_of_file {d' : DiskManager} (h : d'.file = d.file) : d'.pageAt = d.pageAt := by
  funext q
  simp only [pageAt,h]

theorem tame_open (file : Bytes) (faults : List (Option Nat))
    (h : file.length / pageSize < 2 ^ 32) :
    (open_ file faults).Tame := by
  have hnum : (open_ file faults).numPages.toNat = file.length / pageSize :=
    UInt32.toNat_ofNat_of_lt' h
  refine ⟨?_⟩
  rw [hnum]
  change file.length < _
  rw [pageSize_eq]
  omega

theorem pageAt_overwrite {d' : DiskManager} {src : Bytes} (hp : (d.pageAt pid).isSome = true)
    (hsrc : src.length ≤ pageSize) (hf : d'.file = overwrite d.file (pid.toNat * pageSize) src) :
    d'.file.length = d.file.length ∧ (∀ q, q ≠ pid → d'.pageAt q = d.pageAt q) := by
  rw [pageAt_isSome] at hp
  have hb : pid.toNat * pageSize + src.length ≤ d.file.length := by omega
  have hfile : d'.file = splice d.file (pid.toNat * pageSize) src := hf.trans (overwrite_inside hb)
  have hlen : d'.file.length = d.file.length := by rw [hfile,length_splice hb]
  refine ⟨hlen,fun q hq => ?_⟩
  have hne : q.toNat ≠ pid.toNat := fun e => hq (UInt32.toNat_inj.mp e)
  have hs : slice d'.file (q.toNat * pageSize) pageSize =
      slice d.file (q.toNat * pageSize) pageSize := by
    rw [hfile]
    refine slice_splice_disjoint hb ?_
    rw [pageSize_eq] at *
    omega
  simp only [pageAt,hlen,hs]

theorem writeAt_spec (d : DiskManager) (off : Nat) (src : Bytes) :
    Spec (writeAt off src) d (fun r d' => d'.numPages = d.numPages ∧
      (∃ n, d'.file = overwrite d.file off (src.take n)) ∧
      (r = .ok () → d'.file = overwrite d.file off src) ∧ ∀ e, r = .error e → e = .err .io) := by
  have htick : tick d = (.ok (d.faults.headD none),{ d with faults := d.faults.tail }) := rfl
  rw [writeAt,spec_bind_ok htick]
  cases d.faults.headD none with
  | none =>
    exact ⟨rfl,⟨src.length,by rw [List.take_length]; rfl⟩,fun _ => rfl,fun _ e => by cases e⟩
  | some n => exact ⟨rfl,⟨n,rfl⟩,fun e => (by cases e),fun _ e => by cases e; rfl⟩

structure Wrote (d : DiskManager) (pg : Page) (r : Except (Fault Error) Unit) (d' : DiskManager) :
    Prop where
  tame : d'.Tame
  pages : d'.numPages = d.numPages
  others : ∀ q, q ≠ pg.id → d'.pageAt q = d.pageAt q
  still : (d'.pageAt pg.id).isSome = true
  ok : r = .ok () → d'.pageAt pg.id = some pg
  error : ∀ e, r = .error e → e = .err .io

theorem pageAt_of_splice {d' : DiskManager} (hp : (d.pageAt pg.id).isSome = true)
    (hf : d'.file = overwrite d.file (pg.id.toNat * pageSize) pg.data) :
    d'.pageAt pg.id = some pg := by
  have hin := pageAt_isSome.mp hp
  have hp : pg.id.toNat * pageSize + pg.data.length ≤ d.file.length := by rwa [pg.size]
  have hfile : d'.file = splice d.file (pg.id.toNat * pageSize) pg.data :=
    hf.trans (overwrite_inside hp)
  have hlen : d'.file.length = d.file.length := by rw [hfile,length_splice hp]
  rw [pageAt,dif_pos (by rwa [hlen])]
  refine congrArg some (Page.ext rfl ?_)
  change slice d'.file (pg.id.toNat * pageSize) pageSize = pg.data
  have hslice := slice_splice_same hp
  rwa [pg.size,← hfile] at hslice

theorem Tame.writePage_spec (h : d.Tame) (hp : (d.pageAt pg.id).isSome = true) :
    Spec (writePage pg) d (Wrote d pg) := by
  have hwrote {r : Except (Fault Error) Unit} {d' : DiskManager} (hn : d'.numPages = d.numPages)
      (hcut : ∃ n, d'.file = overwrite d.file (pg.id.toNat * pageSize) (pg.data.take n))
      (hok : r = .ok () → d'.file = overwrite d.file (pg.id.toNat * pageSize) pg.data)
      (herr : ∀ e, r = .error e → e = .err .io) : Wrote d pg r d' := by
    obtain ⟨n,hfile⟩ := hcut
    have hsrc : (pg.data.take n).length ≤ pageSize := by
      rw [List.length_take,pg.size]
      exact Nat.min_le_right ..
    obtain ⟨hlen,hothers⟩ := pageAt_overwrite hp hsrc hfile
    refine ⟨⟨by rw [hlen,hn]; exact h.tail⟩,hn,hothers,?_,fun e => pageAt_of_splice hp (hok e),herr⟩
    rw [pageAt_isSome] at hp ⊢
    rwa [hlen]
  rw [writePage]
  refine (writeAt_spec d _ pg.data).bind ?_ ?_
  · rintro u d' ⟨hn,hcut,hok,-⟩
    exact hwrote hn hcut (fun _ => hok rfl) fun _ e => by cases e
  · rintro e d' ⟨hn,hcut,-,herr⟩
    exact hwrote hn hcut (fun e => by cases e) fun _ he => by cases he; exact herr e rfl

theorem readPage_spec (d : DiskManager) (pid : PageId) : Spec (readPage pid) d (fun r d' =>
    d'.file = d.file ∧ d'.numPages = d.numPages ∧ (∀ pg, r = .ok pg → d.pageAt pid = some pg) ∧
      ∀ e, r = .error e → e = .err .io) := by
  have htick : tick d = (.ok (d.faults.headD none),{ d with faults := d.faults.tail }) := rfl
  rw [readPage,spec_bind_ok htick]
  simp only [spec_get_bind]
  split_ifs with hfault hin
  · exact ⟨rfl,rfl,fun _ e => (by cases e),fun _ e => by cases e; rfl⟩
  · refine ⟨rfl,rfl,fun pg e => ?_,fun _ e => by cases e⟩
    cases e
    exact dif_pos hin
  · exact ⟨rfl,rfl,fun _ e => (by cases e),fun _ e => by cases e; rfl⟩

theorem pageAt_append {tail : Bytes} {d' : DiskManager} (hf : d'.file = d.file ++ tail)
    (hp : d.pageAt q = some pg) : d'.pageAt q = some pg := by
  have hq : q.toNat * pageSize + pageSize ≤ d.file.length := pageAt_isSome.mp (by rw [hp]; rfl)
  have hq' : q.toNat * pageSize + pageSize ≤ d'.file.length := by
    rw [hf,List.length_append]
    omega
  rw [← hp,pageAt,pageAt,dif_pos hq,dif_pos hq']
  refine congrArg some (Page.ext rfl ?_)
  change slice d'.file _ _ = slice d.file _ _
  rw [hf,slice_append_left hq]

theorem Tame.allocatePage_spec (h : d.Tame) (hn : d.numPages.toNat + 1 < 2 ^ 32) :
    Spec allocatePage d (fun r d' => d'.Tame ∧
      (∀ q pg, d.pageAt q = some pg → d'.pageAt q = some pg) ∧
      (∀ id, r = .ok id → id = d.numPages ∧ (d'.pageAt id).isSome = true) ∧
      d'.numPages = d.numPages + 1 ∧ ∀ e, r = .error e → e = .err .io) := by
  have hnum : (d.numPages + 1).toNat = d.numPages.toNat + 1 := by
    rw [UInt32.toNat_add,UInt32.toNat_one,Nat.mod_eq_of_lt hn]
  have htail := h.tail
  set room := (d.numPages.toNat + 1) * pageSize - d.file.length with hroom
  have hgrown : overwrite d.file ((d.numPages.toNat + 1) * pageSize - 1) [0] =
      d.file ++ List.replicate room 0 := by
    rw [← overwrite_zero_past (show 0 < room by omega)]
    congr 1
    omega
  -- a call that fails may have extended the file or not
  have hkept {d' : DiskManager} (hn' : d'.numPages = d.numPages + 1)
      (hcut : ∃ n, d'.file = overwrite d.file ((d.numPages.toNat + 1) * pageSize - 1)
        ([0].take n)) :
      d'.Tame ∧ ∀ q pg, d.pageAt q = some pg → d'.pageAt q = some pg := by
    obtain ⟨m,hm,hfile⟩ : ∃ m, m ≤ room ∧ d'.file = d.file ++ List.replicate m 0 := by
      obtain ⟨n,hfile⟩ := hcut
      cases n with
      | zero => exact ⟨0,Nat.zero_le _,hfile.trans (by simp [overwrite])⟩
      | succ n => exact ⟨room,le_rfl,hfile.trans (by rw [List.take_succ_cons,List.take_nil,hgrown])⟩
    refine ⟨⟨?_⟩,fun q pg hp => pageAt_append hfile hp⟩
    rw [hfile,hn',hnum,List.length_append,List.length_replicate]
    rw [pageSize_eq] at *
    omega
  rw [allocatePage]
  simp only [spec_get_bind,spec_modify_bind]
  refine (writeAt_spec _ _ [0]).bind ?_ ?_
  · rintro u d' ⟨hn',hcut,hok,-⟩
    obtain ⟨htame,hpages⟩ := hkept hn' hcut
    refine ⟨⟨htame.tail⟩,hpages,fun id e => ?_,hn',fun _ e => by cases e⟩
    cases e
    refine ⟨rfl,pageAt_isSome.mpr ?_⟩
    change _ ≤ d'.file.length
    rw [hok rfl]
    change _ ≤ (overwrite d.file ((d.numPages.toNat + 1) * pageSize - 1) [0]).length
    rw [hgrown,List.length_append,List.length_replicate,pageSize_eq] at *
    omega
  · rintro e d' ⟨hn',hcut,-,herr⟩
    obtain ⟨htame,hpages⟩ := hkept hn' hcut
    exact ⟨htame,hpages,fun _ e => (by cases e),hn',fun _ he => by cases he; exact herr e rfl⟩

end DiskManager

end StorageDb
