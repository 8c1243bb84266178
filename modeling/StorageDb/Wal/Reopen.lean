import Mathlib.Tactic
import StorageDb.Wal.Bookkeeping

namespace StorageDb
open Bytes FrameLog

theorem le_maxLsn {records : List LogRecord} {r : LogRecord} (h : r ∈ records) :
    r.lsn ≤ maxLsn records := by
  have hfold : ∀ (rs : List LogRecord) (m : Lsn),
      m ≤ rs.foldl (fun m r => if m < r.lsn then r.lsn else m) m ∧
        ∀ x ∈ rs, x.lsn ≤ rs.foldl (fun m r => if m < r.lsn then r.lsn else m) m := by
    intro rs
    induction rs with
    | nil => exact fun m => ⟨UInt64.le_refl m,by simp⟩
    | cons y rs ih =>
      intro m
      obtain ⟨h1,h2⟩ := ih (if m < y.lsn then y.lsn else m)
      have hm : m ≤ (if m < y.lsn then y.lsn else m) ∧
          y.lsn ≤ (if m < y.lsn then y.lsn else m) := by
        split_ifs with hlt
        · exact ⟨UInt64.le_of_lt hlt,UInt64.le_refl _⟩
        · exact ⟨UInt64.le_refl _,UInt64.not_lt.mp hlt⟩
      refine ⟨UInt64.le_trans hm.1 h1,fun x hx => ?_⟩
      rcases List.mem_cons.mp hx with rfl | hx
      · exact UInt64.le_trans hm.2 h1
      · exact h2 x hx
  exact (hfold records 0).2 r h

theorem maxLsn_mem (records : List LogRecord) :
    maxLsn records = 0 ∨ ∃ r ∈ records, r.lsn = maxLsn records := by
  have hfold : ∀ (rs : List LogRecord) (m : Lsn),
      rs.foldl (fun m r => if m < r.lsn then r.lsn else m) m = m ∨
        ∃ r ∈ rs, r.lsn = rs.foldl (fun m r => if m < r.lsn then r.lsn else m) m := by
    intro rs
    induction rs with
    | nil => exact fun m => Or.inl rfl
    | cons y rs ih =>
      intro m
      rcases ih (if m < y.lsn then y.lsn else m) with h | ⟨r,hr,h⟩
      · rw [List.foldl_cons,h]
        split_ifs
        · exact Or.inr ⟨y,List.mem_cons_self,rfl⟩
        · exact Or.inl rfl
      · exact Or.inr ⟨r,List.mem_cons_of_mem _ hr,h⟩
  exact hfold records 0

theorem maxLsn_bounded {records : List LogRecord} :
    (maxLsn records).toNat + 1 < 2 ^ 64 ↔ ∀ r ∈ records, r.lsn.toNat + 1 < 2 ^ 64 := by
  constructor
  · intro h r hr
    have hle : r.lsn.toNat ≤ (maxLsn records).toNat := le_maxLsn hr
    omega
  · intro h
    rcases maxLsn_mem records with h0 | ⟨r,hr,he⟩
    · rw [h0]
      decide
    · rw [← he]
      exact h r hr

theorem maxLsn_le {records : List LogRecord} {n : Nat} (h : ∀ r ∈ records, r.lsn.toNat ≤ n) :
    (maxLsn records).toNat ≤ n := by
  rcases maxLsn_mem records with h0 | ⟨r,hr,he⟩
  · rw [h0]
    exact Nat.zero_le n
  · rw [← he]
    exact h r hr

namespace WalManager

theorem readAllRecords_spec (w : WalManager) : Prog.Spec readAllRecords w (fun r t =>
    ∃ fs, t = { w with faults := fs } ∧
      ∀ rs, r = .ok rs → readAll LogRecord.deserialize w.file = .ok rs) := by
  refine (sysCall_spec w).bind ?_ ?_
  · rintro - t ⟨fs,rfl,-⟩
    refine (sysCall_spec _).bind ?_ ?_
    · rintro - t ⟨fs',rfl,-⟩
      rw [Prog.spec_get_bind]
      dsimp only
      rcases hr : readAll LogRecord.deserialize w.file with f | rs
      · exact ⟨fs',rfl,fun rs' h => (by cases h)⟩
      · exact ⟨fs',rfl,fun rs' h => by cases h; rfl⟩
    · rintro e t ⟨fs',rfl,-⟩
      exact ⟨fs',rfl,fun rs h => (by cases h)⟩
  · rintro e t ⟨fs,rfl,-⟩
    exact ⟨fs,rfl,fun rs h => (by cases h)⟩

theorem recover_spec (w : WalManager) : Prog.Spec recover w (fun r _ =>
    ∀ actions, r = .ok actions → ∃ rs, readAll LogRecord.deserialize w.file = .ok rs ∧
      recoveryActions rs = .ok actions) := by
  refine (readAllRecords_spec w).bind ?_ (fun _ _ _ _ h => (by cases h))
  rintro rs t ⟨fs,-,hrs⟩ actions h
  refine ⟨rs,hrs rs rfl,?_⟩
  rcases hr : recoveryActions rs with f | a
  · simp only [hr] at h
    cases h
  · simp only [hr] at h
    cases h
    rfl

theorem sysCall_unlogged : Prog.Preserves (fun w => w.appended = []) sysCall := by
  intro w h
  obtain ⟨fs,hw,-⟩ := sysCall_spec w
  rw [hw]
  exact h

theorem readAllRecords_unlogged : Prog.Preserves (fun w => w.appended = []) readAllRecords := by
  intro w h
  obtain ⟨fs,hw,-⟩ := readAllRecords_spec w
  rw [hw]
  exact h

theorem recover_unlogged : Prog.Preserves (fun w => w.appended = []) recover := by
  refine readAllRecords_unlogged.bind fun rs => ?_
  cases recoveryActions rs with
  | ok actions => exact Prog.preserves_pure actions
  | error f => exact Prog.preserves_fail f

theorem open_unlogged : Prog.Preserves (fun w => w.appended = []) open_ := by
  have hstart (rs : List LogRecord) : Prog.Preserves (fun w => w.appended = [])
      (startAfter rs) := by
    rw [startAfter]
    split_ifs
    · exact Prog.preserves_modify fun _ h => h
    · exact Prog.preserves_fail _
  refine sysCall_unlogged.bind fun _ => sysCall_unlogged.bind fun _ =>
    Prog.preserves_get.bind fun w => ?_
  split_ifs
  · exact readAllRecords_unlogged.bind fun rs => hstart rs
  · exact hstart []

theorem truncate_unlogged : Prog.Preserves (fun w => w.appended = []) truncate :=
  Prog.Preserves.bind (Prog.preserves_modify fun _ h => h) fun _ => sysCall_unlogged.bind fun _ =>
    Prog.Preserves.bind (Prog.preserves_modify fun _ _ => rfl) fun _ =>
      sysCall_unlogged.bind fun _ =>
      Prog.preserves_modify fun _ h => h

theorem sysCall_calm {w : WalManager} (h : w.faults = []) : sysCall w = (.ok (),w) := by
  cases w
  cases h
  rfl

theorem readAllRecords_calm {w : WalManager} (h : w.faults = []) :
    readAllRecords w = (readAll LogRecord.deserialize w.file,w) := by
  rw [readAllRecords,Prog.bind_ok (sysCall_calm h),Prog.bind_ok (sysCall_calm h),Prog.get_bind_run]
  cases readAll LogRecord.deserialize w.file <;> rfl

theorem recover_calm {w : WalManager} (h : w.faults = []) {rs : List LogRecord}
    {actions : RecoveryActions} (hr : readAll LogRecord.deserialize w.file = .ok rs)
    (ha : recoveryActions rs = .ok actions) : recover w = (.ok actions,w) := by
  have hread : readAllRecords w = (.ok rs,w) := by rw [readAllRecords_calm h,hr]
  rw [recover,Prog.bind_ok hread,ha]
  rfl

def truncated (w : WalManager) : WalManager :=
  { w with
    writeBuffer := []
    file := []
    appended := []
    synced := 0
    offset := 0
    txnLastLsn := fun _ => none }

theorem truncate_calm {w : WalManager} (h : w.faults = []) : truncate w = (.ok (),w.truncated) := by
  cases w
  cases h
  rfl

theorem open_spec (file : Bytes) (faults : List (Option Nat)) :
    Prog.Spec open_ (onFile file faults) (fun r t => r = .ok () → ∃ rs fs,
      readAll LogRecord.deserialize file = .ok rs ∧ (maxLsn rs).toNat + 1 < 2 ^ 64 ∧
        t = opened rs (onFile file fs)) := by
  have finish : ∀ rs fs, readAll LogRecord.deserialize file = .ok rs →
      Prog.Spec (startAfter rs) (onFile file fs) (fun r t => r = .ok () → ∃ rs fs,
        readAll LogRecord.deserialize file = .ok rs ∧ (maxLsn rs).toNat + 1 < 2 ^ 64 ∧
          t = opened rs (onFile file fs)) := by
    intro rs fs hrs
    rw [startAfter]
    split_ifs with hb
    · exact fun _ => ⟨rs,fs,hrs,hb,rfl⟩
    · exact fun h => (by cases h)
  refine (sysCall_spec _).bind ?_ (fun e t _ h => (by cases h))
  rintro - t ⟨fs,rfl,-⟩
  refine (sysCall_spec _).bind ?_ (fun e t _ h => (by cases h))
  rintro - t ⟨fs',rfl,-⟩
  rw [Prog.spec_get_bind]
  split_ifs with hl
  · refine (readAllRecords_spec _).bind ?_ (fun e t _ h => (by cases h))
    rintro rs t ⟨fs'',rfl,hrs⟩
    exact finish rs fs'' (hrs rs rfl)
  · have hnil : file = [] := List.length_eq_zero_iff.mp (Nat.eq_zero_of_not_pos hl)
    exact finish [] fs' (by rw [hnil]; rfl)

theorem open_reads {file : Bytes} {rs : List LogRecord}
    (hr : readAll LogRecord.deserialize file = .ok rs) :
    open_ (onFile file []) = startAfter rs (onFile file []) := by
  rw [open_,Prog.bind_ok (sysCall_calm rfl),Prog.bind_ok (sysCall_calm rfl),Prog.get_bind_run]
  split_ifs with hl
  · have hread : readAllRecords (onFile file []) = (.ok rs,onFile file []) := by
      rw [readAllRecords_calm rfl]
      exact Prod.ext hr rfl
    rw [Prog.bind_ok hread]
  · have hnil : file = [] := List.length_eq_zero_iff.mp (Nat.eq_zero_of_not_pos hl)
    subst hnil
    cases hr
    rfl

theorem open_calm {file : Bytes} {rs : List LogRecord}
    (hr : readAll LogRecord.deserialize file = .ok rs) (hb : (maxLsn rs).toNat + 1 < 2 ^ 64) :
    open_ (onFile file []) = (.ok (),opened rs (onFile file [])) := by
  rw [open_reads hr,startAfter,if_pos hb]
  rfl

theorem Logged.opened (file : Bytes) (rs : List LogRecord) (fs : List (Option Nat)) :
    Logged file (maxLsn rs) 0 (opened rs (onFile file fs)) where
  fits r hr := by cases hr
  file := by
    change file = (file ++ []).take file.length
    rw [List.append_nil,List.take_length]
  kept := le_rfl
  synced := le_rfl
  lsns i r hi := by cases hi
  bound := by
    change 0 < 2 ^ 64
    decide
  acked_le := le_rfl
  flushed := le_rfl
  offset := rfl
  pending := le_rfl
  buffer := by
    change [] = (file ++ []).drop (file.length - 0)
    rw [List.drop_of_length_le]
    simp
  covered := le_rfl
  next := (UInt64.add_zero _).symm

theorem Logged.truncated (w : WalManager) (fs : List (Option Nat)) :
    Logged [] (w.nextLsn - 1) 0 { w.truncated with faults := fs } where
  fits r hr := by cases hr
  file := rfl
  kept := le_rfl
  synced := le_rfl
  lsns i r hi := by cases hi
  bound := by
    change 0 < 2 ^ 64
    decide
  acked_le := le_rfl
  flushed := le_rfl
  offset := rfl
  pending := le_rfl
  buffer := rfl
  covered := le_rfl
  next := by
    change w.nextLsn = w.nextLsn - 1 + 1 + 0
    rw [UInt64.add_zero,UInt64.sub_add_cancel]

theorem truncate_spec (w : WalManager) : Prog.Spec truncate w (fun r t =>
    r = .ok () → ∃ fs, t = { w.truncated with faults := fs }) := by
  rw [truncate,Prog.spec_modify_bind]
  refine (sysCall_spec _).bind ?_ (fun _ _ _ h => (by cases h))
  rintro - t ⟨fs,rfl,-⟩
  rw [Prog.spec_modify_bind]
  refine (sysCall_spec _).bind ?_ (fun _ _ _ h => (by cases h))
  rintro - t ⟨fs',rfl,-⟩
  exact fun _ => ⟨fs',rfl⟩

theorem recover_keeps (w : WalManager) : Prog.Spec recover w (fun _ t =>
    ∃ fs, t = { w with faults := fs }) := by
  refine (readAllRecords_spec w).bind ?_ ?_
  · rintro rs t ⟨fs,rfl,-⟩
    cases recoveryActions rs <;> exact ⟨fs,rfl⟩
  · rintro f t ⟨fs,rfl,-⟩
    exact ⟨fs,rfl⟩

theorem Durable.lsn_toNat {acked : Nat} {w : WalManager} (h : Durable [] 0 acked w) {i : Nat}
    {r : LogRecord} (hi : w.appended[i]? = some r) : r.lsn.toNat = i + 1 := by
  have hlt : i < w.appended.length := (List.getElem?_eq_some_iff.mp hi).1
  have hs := length_stream w
  have hb := h.bound
  rw [h.lsns i r hi,lsn_next,UInt64.zero_add,UInt64.toNat_ofNat',Nat.mod_eq_of_lt (by omega)]

theorem Durable.mem_take {acked m n : Nat} {l : Lsn} {w : WalManager} (h : Durable [] 0 acked w)
    (hl : l = 0 + UInt64.ofNat acked) (hs : w.synced ≤ n)
    (hm : ∀ k, k ≤ w.appended.length →
      ((w.appended.take k).flatMap LogRecord.serialize).length ≤ n → k ≤ m)
    {r : LogRecord} (hr : r ∈ w.appended) (hle : r.lsn ≤ l) : r ∈ w.appended.take m := by
  obtain ⟨i,hi⟩ := List.mem_iff_getElem?.mp hr
  have hlen := h.flushed
  rw [List.length_nil] at hlen
  have hal := h.acked_le
  have hkm : acked ≤ m := hm acked hal (by omega)
  have hst := length_stream w
  have hb := h.bound
  have hlsn : r.lsn.toNat ≤ l.toNat := hle
  rw [h.lsn_toNat hi,hl,UInt64.zero_add,UInt64.toNat_ofNat',Nat.mod_eq_of_lt (by omega)] at hlsn
  refine List.mem_iff_getElem?.mpr ⟨i,?_⟩
  rw [List.getElem?_take,if_pos (by omega)]
  exact hi

theorem reopen_reads_prefix {faults : List (Option Nat)} {w₀ : WalManager} {ops : List WalOp}
    (hopen : open_ (onFile [] faults) = (.ok (),w₀)) (hops : ∀ op ∈ ops, op.PayloadFits) (n : Nat)
    (hs : (run ops w₀).2.synced ≤ n) (hn : n ≤ (run ops w₀).2.file.length) :
    ∃ w' m, open_ (onFile ((run ops w₀).2.file.take n) []) = (.ok (),w') ∧
      readAllRecords w' = (.ok ((freshRecords ops (run ops w₀).1).take m),w') ∧
      (∀ i r, (freshRecords ops (run ops w₀).1)[i]? = some r → r.lsn.toNat = i + 1) ∧
      (∀ (i : Nat) (op : WalOp) (l : Lsn), ops[i]? = some op →
        (run ops w₀).1[i]? = some (.ok (some l)) →
        ∃ r ∈ freshRecords ops (run ops w₀).1, r.lsn = l ∧ op.Logs r) ∧
      (∀ r ∈ freshRecords ops (run ops w₀).1, r.lsn ≤ (run ops w₀).2.flushedLsn →
        r ∈ (freshRecords ops (run ops w₀).1).take m) ∧
      ∀ (i : Nat) (t : TxnId) (l : Lsn), ops[i]? = some (.commit t) →
        (run ops w₀).1[i]? = some (.ok (some l)) →
        (∃ r ∈ (freshRecords ops (run ops w₀).1).take m,
          r.recordType = .commit ∧ r.txnId = t ∧ r.lsn = l) ∧
        ∀ r ∈ freshRecords ops (run ops w₀).1, r.lsn ≤ l →
          r ∈ (freshRecords ops (run ops w₀).1).take m := by
  obtain ⟨rs,fs,hrs,-,rfl⟩ := (open_spec [] faults).of_eq hopen rfl
  have hnil : rs = [] := by cases hrs; rfl
  subst hnil
  have hl := Logged.opened [] [] fs
  obtain ⟨⟨k,hmark,hd⟩,-,hcommit⟩ := hl.run_durable hops (UInt64.add_zero _).symm
  have hrec := hl.run_records hops
  change _ = freshRecords ops _ at hrec
  have hret := fun i op l => @Logged.run_returns _ _ hl _ hops i op l
  rw [← hrec]
  change Durable [] 0 k _ at hd
  generalize hw : run ops (WalManager.opened [] (onFile [] fs)) = out at *
  obtain ⟨m,-,hread,hm⟩ := LogRecord.framing.readAll_take hd.fits n
  have hfile : out.2.file.take n = out.2.stream.take n := by
    rw [hd.file,List.nil_append,List.take_take,Nat.min_eq_left hn]
  have hmax : (maxLsn (out.2.appended.take m)).toNat + 1 < 2 ^ 64 := by
    have hst := length_stream out.2
    have hb := hd.bound
    have hle : (maxLsn (out.2.appended.take m)).toNat ≤ out.2.appended.length := by
      refine maxLsn_le (fun r hr => ?_)
      obtain ⟨i,hi⟩ := List.mem_iff_getElem?.mp (List.mem_of_mem_take hr)
      rw [hd.lsn_toNat hi]
      exact (List.getElem?_eq_some_iff.mp hi).1
    omega
  have hopen' := open_calm (show readAll LogRecord.deserialize (out.2.file.take n) = _ by
    rw [hfile]; exact hread) hmax
  refine ⟨_,m,hopen',?_,fun i r hi => hd.lsn_toNat hi,hret,?_,?_⟩
  · rw [readAllRecords_calm rfl]
    refine Prod.ext ?_ rfl
    change readAll LogRecord.deserialize (out.2.file.take n) = _
    rw [hfile]
    exact hread
  · intro r hr hle
    exact hd.mem_take hmark hs hm hr hle
  · intro i t l hi ho
    obtain ⟨c,hl,hc⟩ := hcommit i t l hi ho
    have hkept (r : LogRecord) (hr : r ∈ out.2.appended) (hle : r.lsn ≤ l) :
        r ∈ out.2.appended.take m := Durable.mem_take hc hl hs hm hr hle
    obtain ⟨r,hr,hlsn,next,last,hentry⟩ := hret i (.commit t) l hi ho
    refine ⟨⟨r,hkept r hr (hlsn ▸ UInt64.le_refl _),?_⟩,hkept⟩
    cases hentry
    exact ⟨rfl,rfl,hlsn⟩

def tornFaults : List (Option Nat) := [none,none,none,none,none,none,some 10]

def tornOps : List WalOp := [.begin 1,.commit 1,.begin 2,.flush]

def tornLog : WalManager := opened [] (onFile [] (tornFaults.drop 2))

-- The last flush fails after ten bytes and the crash keeps five of them.
theorem reopen_reads_prefix_torn : ∃ w' m,
    open_ (onFile ((run tornOps tornLog).2.file.take 87) []) = (.ok (),w') ∧
      readAllRecords w' = (.ok ((freshRecords tornOps (run tornOps tornLog).1).take m),w') ∧
      ∃ r ∈ (freshRecords tornOps (run tornOps tornLog).1).take m,
        r.recordType = .commit ∧ r.txnId = 1 ∧ r.lsn = 2 := by
  obtain ⟨w',m,h1,h2,-,-,-,h3⟩ := reopen_reads_prefix
    (show open_ (onFile [] tornFaults) = (.ok (),tornLog) from rfl)
    (show ∀ op ∈ tornOps, op.PayloadFits by decide) 87 (by decide +kernel) (by decide +kernel)
  exact ⟨w',m,h1,h2,(h3 1 1 2 rfl (by decide +kernel)).1⟩

end WalManager

end StorageDb
