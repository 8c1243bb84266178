import Mathlib.Tactic
import StorageDb.Wal.RecordGrammar
import StorageDb.Wal.Analysis
import StorageDb.Wal.Reopen

namespace StorageDb
open Bytes FrameLog

def Returns {α : Type} (r : Except (Fault Error) α) : Prop := r ≠ .error .panic ∧ r ≠ .error .hang

namespace LogRecord

variable {buf : Bytes}

def lsnField (buf : Bytes) : Nat := leNat (slice buf 8 8)
def beforeLen (buf : Bytes) : Nat := leNat (slice buf recordHeaderSize 4)

def Refused (buf : Bytes) : Prop := Whole buf → 8 ≤ totalLen buf ∧ ¬ Matching buf

def ImagesInside (buf : Bytes) : Prop :=
  typeByte buf = 4 → 4 ≤ dataLen buf → 4 + beforeLen buf ≤ dataLen buf

instance (buf : Bytes) : Decidable (Refused buf) := by unfold Refused; infer_instance
instance (buf : Bytes) : Decidable (ImagesInside buf) := by unfold ImagesInside; infer_instance

inductive Readable : Bytes → Prop where
  | refused {buf : Bytes} (h : Refused buf) : Readable buf
  | record {buf : Bytes} (h : Accepted buf) (images : ImagesInside buf)
      (lsn : lsnField buf + 1 < 2 ^ 64) (rest : Readable (buf.drop (totalLen buf))) : Readable buf

theorem refused_iff : Refused buf ↔ ∃ e, deserialize buf = .error (.err e) := by
  by_cases hw : Whole buf
  · rw [deserialize_whole hw,Refused,forall_prop_of_true hw]
    split_ifs with h8 hm hd
    · exact iff_of_false (fun h => absurd h.1 (Nat.not_le.mpr h8)) (by simp)
    · exact iff_of_false (fun h => h.2 hm) (by simp)
    · exact iff_of_false (fun h => h.2 hm) (by simp)
    · exact iff_of_true ⟨Nat.le_of_not_lt h8,hm⟩ ⟨_,rfl⟩
  · obtain ⟨msg,hmsg⟩ := deserialize_short hw
    exact iff_of_true (fun h => absurd h hw) ⟨_,hmsg⟩

theorem images_decoded (h : Accepted buf) :
    Returns (decoded buf).pageWriteImages ↔ ImagesInside buf := by
  have htype : (decoded buf).recordType = .pageWrite ↔ typeByte buf = 4 := by
    change LogRecordType.ofByte (typeByte buf) = _ ↔ _
    constructor
    · intro ht
      have hb : (LogRecordType.ofByte (typeByte buf)).toByte = 4 := by rw [ht]; rfl
      rwa [LogRecordType.toByte_ofByte.mpr] at hb
      by_contra hgt
      revert ht
      rw [LogRecordType.ofByte]
      · exact fun ht => by cases ht
      all_goals
        intro he
        omega
    · intro ht
      rw [ht]
      rfl
  have hlen : (decoded buf).data.length = dataLen buf := length_slice h.inside
  rw [pageWriteImages,ImagesInside,hlen]
  by_cases ht : (decoded buf).recordType = .pageWrite
  · by_cases h4 : 4 ≤ dataLen buf
    · have hbefore : leNat (slice (decoded buf).data 0 4) = beforeLen buf := by
        change leNat (slice (slice buf recordHeaderSize (dataLen buf)) 0 4) = _
        rw [slice_slice (by omega)]
        rfl
      rw [if_neg (by simp [ht,h4])]
      simp only [hbefore,htype.mp ht,h4,forall_true_left]
      split_ifs with hin
      · exact iff_of_true ⟨by simp,by simp⟩ hin
      · exact iff_of_false (fun hr => hr.1 rfl) hin
    · rw [if_pos (Or.inr (by omega))]
      exact iff_of_true ⟨by simp,by simp⟩ (fun _ h => absurd h h4)
  · rw [if_pos (Or.inl ht)]
    exact iff_of_true ⟨by simp,by simp⟩ (fun h => absurd (htype.mpr h) ht)

theorem lsn_decoded (h : Accepted buf) : (decoded buf).lsn.toNat = lsnField buf := by
  have hw := h.whole.1
  rw [recordHeaderSize] at hw
  exact UInt64.toNat_ofNat_of_lt' (leNat_slice_lt (by omega))

theorem images_ok {r : LogRecord} (h : Returns r.pageWriteImages) :
    ∃ im, r.pageWriteImages = .ok im := by
  simp only [pageWriteImages] at h ⊢
  split_ifs at h ⊢
  · exact ⟨_,rfl⟩
  · exact ⟨_,rfl⟩
  · exact absurd rfl h.1

theorem Readable.decoder (h : Readable buf) : Returns (deserialize buf) := by
  cases h with
  | refused h =>
    obtain ⟨e,he⟩ := refused_iff.mp h
    rw [he]
    exact ⟨by simp,by simp⟩
  | record h =>
    rw [deserialize_ok_iff.mpr ⟨h,rfl,rfl⟩]
    exact ⟨by simp,by simp⟩

theorem Readable.reads (h : Readable buf) : ∃ rs, Reads deserialize buf rs ∧
    ∀ r ∈ rs, Returns r.pageWriteImages ∧ r.lsn.toNat + 1 < 2 ^ 64 := by
  induction h with
  | refused h =>
    obtain ⟨e,he⟩ := refused_iff.mp h
    exact ⟨[],.torn he,by simp⟩
  | record h images lsn _ ih =>
    obtain ⟨rs,hreads,hrs⟩ := ih
    refine ⟨decoded _ :: rs,.frame (deserialize_ok_iff.mpr ⟨h,rfl,rfl⟩) hreads,?_⟩
    refine List.forall_mem_cons.mpr ⟨⟨(images_decoded h).mpr images,?_⟩,hrs⟩
    rwa [lsn_decoded h]

theorem Readable.of_reads {rs : List LogRecord} (h : Reads deserialize buf rs)
    (hrs : ∀ r ∈ rs, Returns r.pageWriteImages ∧ r.lsn.toNat + 1 < 2 ^ 64) : Readable buf := by
  induction h with
  | done => exact .refused (refused_iff.mpr ⟨_,rfl⟩)
  | torn h => exact .refused (refused_iff.mpr ⟨_,h⟩)
  | frame h _ ih =>
    obtain ⟨ha,rfl,rfl⟩ := deserialize_ok_iff.mp h
    obtain ⟨⟨him,hlsn⟩,hrest⟩ := List.forall_mem_cons.mp hrs
    rw [lsn_decoded ha] at hlsn
    exact .record ha ((images_decoded ha).mp him) hlsn (ih hrest)

end LogRecord

namespace WalManager

structure ReaderReturns (file : Bytes) : Prop where
  decoder : Returns (LogRecord.deserialize file)
  open_ : ∀ faults, Returns (open_ (onFile file faults)).1
  reader : ∀ w : WalManager, w.file = file → Returns (readAllRecords w).1
  recover : ∀ w : WalManager, w.file = file → Returns (recover w).1
  images : ∀ rs, readAll LogRecord.deserialize file = .ok rs → ∀ r ∈ rs, Returns r.pageWriteImages

section returns

variable {α : Type} {file : Bytes} {rs : List LogRecord} {w : WalManager}

theorem sysCall_returns {f : Unit → Prog Error WalManager α}
    (h : ∀ fs, Returns (f () { w with faults := fs }).1) : Returns ((sysCall >>= f) w).1 := by
  refine (sysCall_spec w).bind (R := fun r _ => Returns r) ?_ ?_
  · rintro - t ⟨fs,rfl,-⟩
    exact h fs
  · rintro e t ⟨fs,rfl,he | he⟩
    · cases he
    · cases he
      exact ⟨by simp,by simp⟩

theorem readAllRecords_returns {f : List LogRecord → Prog Error WalManager α}
    (hr : readAll LogRecord.deserialize w.file = .ok rs)
    (h : ∀ fs, Returns (f rs { w with faults := fs }).1) :
    Returns ((readAllRecords >>= f) w).1 := by
  rw [readAllRecords,bind_assoc]
  refine sysCall_returns fun fs => ?_
  rw [bind_assoc]
  refine sysCall_returns fun fs' => ?_
  rw [bind_assoc,Prog.get_bind_run]
  dsimp only
  rw [hr]
  exact h fs'

theorem open_returns (hr : readAll LogRecord.deserialize file = .ok rs)
    (hb : (maxLsn rs).toNat + 1 < 2 ^ 64) (faults : List (Option Nat)) :
    Returns (open_ (onFile file faults)).1 := by
  have finish (t : WalManager) : Returns (startAfter rs t).1 := by
    rw [startAfter,if_pos hb]
    exact ⟨by simp,by simp⟩
  rw [open_]
  refine sysCall_returns fun fs => sysCall_returns fun fs' => ?_
  rw [Prog.get_bind_run]
  split_ifs with hl
  · exact readAllRecords_returns hr fun fs'' => finish _
  · have hnil : file = [] := List.length_eq_zero_iff.mp (Nat.eq_zero_of_not_pos hl)
    subst hnil
    cases hr
    exact finish _

theorem recover_returns (hr : readAll LogRecord.deserialize w.file = .ok rs)
    {actions : RecoveryActions} (ha : recoveryActions rs = .ok actions) :
    Returns (recover w).1 := by
  refine readAllRecords_returns hr fun fs => ?_
  rw [ha]
  exact ⟨by simp,by simp⟩

end returns

theorem reader_returns_iff (file : Bytes) : ReaderReturns file ↔ LogRecord.Readable file := by
  have hsane := LogRecord.framing.toSane
  constructor
  · intro h
    have hread := h.reader (onFile file []) rfl
    rw [readAllRecords_calm rfl] at hread
    obtain ⟨rs,hr⟩ : ∃ rs, readAll LogRecord.deserialize file = .ok rs :=
      exists_readAll hsane hread.1
    refine .of_reads ((readAll_eq_ok hsane).mp hr) fun r hm => ⟨h.images rs hr r hm,?_⟩
    refine maxLsn_bounded.mp ?_ r hm
    by_contra hb
    have hopen := (h.open_ []).1
    rw [open_reads hr,startAfter,if_neg hb] at hopen
    exact hopen rfl
  · intro h
    obtain ⟨rs,hreads,hrs⟩ := h.reads
    have hr := (readAll_eq_ok hsane).mpr hreads
    have hb : (maxLsn rs).toNat + 1 < 2 ^ 64 := maxLsn_bounded.mpr fun r hm => (hrs r hm).2
    obtain ⟨actions,ha⟩ := recoveryActions_total fun r hm _ => LogRecord.images_ok (hrs r hm).1
    refine ⟨h.decoder,open_returns hr hb,fun w hw => ?_,fun w hw => ?_,fun rs' hr' r hm => ?_⟩
    · have := readAllRecords_returns (f := pure) (hw ▸ hr) fun fs => ⟨by simp,by simp⟩
      rwa [bind_pure] at this
    · exact recover_returns (hw ▸ hr) ha
    · rw [hr] at hr'
      cases hr'
      exact (hrs r hm).1

theorem reader_returns_torn : ReaderReturns ((LogRecord.begin 1 1).serialize ++ [1,2,3]) :=
  (reader_returns_iff _).mpr (.record (by decide +kernel) (by decide +kernel) (by decide +kernel)
    (.refused (by decide +kernel)))

-- A file system that grew the file before the record was written leaves zeros behind.
theorem zero_tail_panics : LogRecord.deserialize (List.replicate 41 0) = .error .panic ∧
    (open_ (onFile ((LogRecord.begin 1 1).serialize ++ List.replicate 41 0) [])).1 =
      .error .panic := by
  have hzero : LogRecord.deserialize (List.replicate 41 0) = .error .panic :=
    LogRecord.deserialize_panic_iff.mpr (by decide +kernel)
  refine ⟨hzero,?_⟩
  decide +kernel

end WalManager

end StorageDb
