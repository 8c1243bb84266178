import Mathlib.Tactic
import StorageDb.Wal.WalManager

namespace StorageDb
open Bytes FrameLog

namespace WalManager

variable {base : Bytes} {lsn : Lsn} {acked : Nat} {w w' : WalManager}

def stream (w : WalManager) : Bytes := w.appended.flatMap LogRecord.serialize

-- base is the file the session was opened on and lsn its last LSN. The first acked records of
-- the session have been flushed. A panic keeps this part of the invariant.
structure Durable (base : Bytes) (lsn : Lsn) (acked : Nat) (w : WalManager) : Prop where
  fits : ∀ r ∈ w.appended, r.Fits
  file : w.file = (base ++ w.stream).take w.file.length
  kept : base.length ≤ w.file.length
  synced : w.synced ≤ w.file.length
  lsns : ∀ i r, w.appended[i]? = some r → r.lsn = lsn + 1 + UInt64.ofNat i
  bound : w.stream.length < 2 ^ 64
  acked_le : acked ≤ w.appended.length
  flushed : base.length + ((w.appended.take acked).flatMap LogRecord.serialize).length ≤ w.synced

structure Logged (base : Bytes) (lsn : Lsn) (acked : Nat) (w : WalManager) : Prop
    extends Durable base lsn acked w where
  offset : w.offset = base.length + w.stream.length
  pending : w.writeBuffer.length ≤ w.stream.length
  buffer : w.writeBuffer = (base ++ w.stream).drop (w.offset - w.writeBuffer.length)
  covered : w.offset - w.writeBuffer.length ≤ w.file.length
  next : w.nextLsn = lsn + 1 + UInt64.ofNat w.appended.length

theorem Durable.congr (h : Durable base lsn acked w) (hf : w'.file = w.file)
    (ha : w'.appended = w.appended) (hs : w'.synced = w.synced) : Durable base lsn acked w' := by
  have hst : w'.stream = w.stream := congrArg (List.flatMap LogRecord.serialize) ha
  exact {
    fits := by rw [ha]; exact h.fits
    file := by rw [hf,hst]; exact h.file
    kept := by rw [hf]; exact h.kept
    synced := by rw [hf,hs]; exact h.synced
    lsns := by rw [ha]; exact h.lsns
    bound := by rw [hst]; exact h.bound
    acked_le := by rw [ha]; exact h.acked_le
    flushed := by rw [ha,hs]; exact h.flushed }

theorem Durable.weaken {acked' : Nat} (h : Durable base lsn acked w) (ha : acked' ≤ acked) :
    Durable base lsn acked' w := by
  have htake : (w.appended.take acked').flatMap LogRecord.serialize <+:
      (w.appended.take acked).flatMap LogRecord.serialize := by
    obtain ⟨rest,hrest⟩ : w.appended.take acked' <+: w.appended.take acked :=
      List.take_prefix_take_left ha
    rw [← hrest,List.flatMap_append]
    exact List.prefix_append _ _
  have hlen := htake.length_le
  have hf := h.flushed
  exact { h with acked_le := ha.trans h.acked_le, flushed := by omega }

theorem tick_spec (w : WalManager) : Prog.Spec tick w (fun r t =>
    ∃ fs, t = { w with faults := fs } ∧ ∃ fault, r = .ok fault) := ⟨_,rfl,_,rfl⟩

theorem sysCall_spec (w : WalManager) : Prog.Spec sysCall w (fun r t =>
    ∃ fs, t = { w with faults := fs } ∧ (r = .ok () ∨ r = .error (.err .io))) := by
  refine (tick_spec w).bind ?_ ?_
  · rintro fault t ⟨fs,rfl,-⟩
    split_ifs
    · exact ⟨fs,rfl,Or.inr rfl⟩
    · exact ⟨fs,rfl,Or.inl rfl⟩
  · rintro e t ⟨fs,-,fault,he⟩
    cases he

theorem writeAll_spec (off : Nat) (src : Bytes) (w : WalManager) :
    Prog.Spec (writeAll off src) w (fun r t =>
      ∃ n fs, t = { w with file := overwrite w.file off (src.take n), faults := fs } ∧
        (r = .ok () ∧ src.length ≤ n ∨ r = .error (.err .io))) := by
  refine (sysCall_spec w).bind ?_ ?_
  · rintro - t ⟨fs,rfl,-⟩
    refine (tick_spec _).bind ?_ ?_
    · rintro fault t ⟨fs,rfl,-⟩
      cases fault with
      | none => exact ⟨src.length,fs,by rw [List.take_length]; rfl,Or.inl ⟨rfl,le_rfl⟩⟩
      | some n => exact ⟨n,fs,rfl,Or.inr rfl⟩
    · rintro e t ⟨fs,-,fault,he⟩
      cases he
  · rintro e t ⟨fs,rfl,he⟩
    refine ⟨0,fs,by simp [overwrite],?_⟩
    rcases he with he | he
    · cases he
    · exact Or.inr he

def logged (record : LogRecord) (w : WalManager) : WalManager :=
  { w.track record with
    writeBuffer := w.writeBuffer ++ (w.stamp record).serialize
    offset := w.offset + (w.stamp record).serialize.length
    appended := w.appended ++ [w.stamp record] }

theorem append_spec (record : LogRecord) (w : WalManager) :
    Prog.Spec (append record) w (fun r t =>
      (r = .ok w.nextLsn ∧ t = w.logged record ∧
        w.offset + (w.stamp record).serialize.length < 2 ^ 64) ∨
      (r = .error .panic ∧ t.file = w.file ∧ t.appended = w.appended ∧ t.synced = w.synced ∧
        t.flushedLsn = w.flushedLsn)) := by
  simp only [append,Prog.spec_get_bind,Prog.spec_modify_bind]
  split_ifs with hb ho
  · exact Or.inl ⟨rfl,rfl,ho⟩
  · exact Or.inr ⟨rfl,rfl,rfl,rfl,rfl⟩
  · exact Or.inr ⟨rfl,rfl,rfl,rfl,rfl⟩

def book (w : WalManager) : List LogRecord × Lsn × (TxnId → Option Lsn) × Nat :=
  (w.appended,w.nextLsn,w.txnLastLsn,w.offset)

theorem flush_book (w : WalManager) : Prog.Spec flush w (fun _ t => t.book = w.book) := by
  have hdrain : Prog.Spec drain w (fun _ t => t.book = w.book) := by
    rw [drain,Prog.spec_get_bind]
    split_ifs
    · rfl
    · rfl
    · refine (writeAll_spec _ _ w).bind ?_ ?_
      · rintro - t ⟨n,fs,rfl,-⟩
        rfl
      · rintro f t ⟨n,fs,rfl,-⟩
        rfl
  refine hdrain.bind (fun _ t ht => ?_) (fun _ _ h => h)
  refine (sysCall_spec t).bind ?_ ?_
  · rintro - t' ⟨fs,rfl,-⟩
    rw [Prog.spec_get_bind]
    split_ifs
    · exact ht
    · exact ht
  · rintro f t' ⟨fs,rfl,-⟩
    exact ht

theorem flush_appended (w : WalManager) :
    Prog.Spec flush w (fun _ t => t.appended = w.appended) :=
  (flush_book w).mono fun _ _ h => congrArg Prod.fst h

theorem stream_logged (record : LogRecord) (w : WalManager) :
    (w.logged record).stream = w.stream ++ (w.stamp record).serialize := by
  simp [stream,logged,List.flatMap_append]

theorem length_stream (w : WalManager) : 41 * w.appended.length ≤ w.stream.length := by
  rw [stream]
  induction w.appended with
  | nil => exact le_rfl
  | cons r rs ih =>
    rw [List.flatMap_cons,List.length_append,LogRecord.length_serialize,List.length_cons]
    omega

theorem stamp_data (record : LogRecord) (w : WalManager) :
    (w.stamp record).data = record.data := rfl

theorem Durable.length_le (h : Durable base lsn acked w) :
    w.file.length ≤ base.length + w.stream.length := by
  have := congrArg List.length h.file
  rw [List.length_take,List.length_append] at this
  omega

theorem Logged.logged (h : Logged base lsn acked w) {record : LogRecord} (hr : record.Fits)
    (hb : w.offset + (w.stamp record).serialize.length < 2 ^ 64) :
    Logged base lsn acked (w.logged record) := by
  have hlen := h.length_le
  have hoff := h.offset
  have hpen := h.pending
  have hst := stream_logged record w
  constructor
  · constructor
    · intro r hr'
      rcases List.mem_append.mp hr' with hr' | hr'
      · exact h.fits r hr'
      · rw [List.mem_singleton.mp hr',LogRecord.Fits,stamp_data]
        exact hr
    · change w.file = (base ++ (w.logged record).stream).take w.file.length
      rw [hst,← List.append_assoc,List.take_append_of_le_length (by rw [List.length_append]; omega)]
      exact h.file
    · exact h.kept
    · exact h.synced
    · intro i r hi
      change (w.appended ++ [w.stamp record])[i]? = some r at hi
      rw [List.getElem?_append] at hi
      split_ifs at hi with hlt
      · exact h.lsns i r hi
      · rw [List.getElem?_singleton] at hi
        split_ifs at hi with h0
        cases hi
        rw [show i = w.appended.length by omega]
        exact h.next
    · rw [hst,List.length_append]
      omega
    · change acked ≤ (w.appended ++ [w.stamp record]).length
      have := h.acked_le
      rw [List.length_append]
      omega
    · change base.length + (((w.appended ++ [w.stamp record]).take acked).flatMap _).length ≤ _
      rw [List.take_append_of_le_length h.acked_le]
      exact h.flushed
  · rw [hst,List.length_append,← Nat.add_assoc,← hoff]
    rfl
  · change (w.writeBuffer ++ (w.stamp record).serialize).length ≤ _
    rw [hst,List.length_append,List.length_append]
    omega
  · change w.writeBuffer ++ (w.stamp record).serialize = (base ++ (w.logged record).stream).drop
      (w.offset + (w.stamp record).serialize.length -
        (w.writeBuffer ++ (w.stamp record).serialize).length)
    rw [hst,List.length_append,Nat.add_sub_add_right,← List.append_assoc,
      List.drop_append_of_le_length (by rw [List.length_append]; omega),← h.buffer]
  · change w.offset + (w.stamp record).serialize.length -
      (w.writeBuffer ++ (w.stamp record).serialize).length ≤ w.file.length
    rw [List.length_append,Nat.add_sub_add_right]
    exact h.covered
  · change w.nextLsn + 1 = lsn + 1 + UInt64.ofNat (w.appended ++ [w.stamp record]).length
    rw [h.next,List.length_append,UInt64.ofNat_add,← UInt64.add_assoc]
    rfl

theorem Logged.append_spec (h : Logged base lsn acked w) {record : LogRecord} (hr : record.Fits) :
    Prog.Spec (append record) w (fun r t =>
      (r = .ok w.nextLsn ∧ t = w.logged record ∧ Logged base lsn acked t) ∨
      (r = .error .panic ∧ t.appended = w.appended ∧ t.flushedLsn = w.flushedLsn ∧
        Durable base lsn acked t)) := by
  refine (WalManager.append_spec record w).mono ?_
  rintro r t (⟨rfl,rfl,hb⟩ | ⟨rfl,hf,ha,hs,hl⟩)
  · exact Or.inl ⟨rfl,rfl,h.logged hr hb⟩
  · exact Or.inr ⟨rfl,ha,hl,h.congr hf ha hs⟩

theorem Logged.written (h : Logged base lsn acked w) (n : Nat) :
    overwrite w.file (w.offset - w.writeBuffer.length) (w.writeBuffer.take n) =
      (base ++ w.stream).take
        (max w.file.length (min (w.offset - w.writeBuffer.length + n) w.offset)) := by
  have hlen := h.length_le
  have hfull : (base ++ w.stream).length = w.offset := by rw [h.offset,List.length_append]
  have hb := h.buffer
  have hw := overwrite_take n (show w.file.length ≤ (base ++ w.stream).length by
    rw [List.length_append]; exact hlen) h.covered
  rw [← h.file,← hb,hfull] at hw
  exact hw

theorem Logged.refile (h : Logged base lsn acked w) (fs : List (Option Nat)) {n : Nat}
    (hn : w.file.length ≤ n) (hle : n ≤ w.offset) :
    Logged base lsn acked { w with file := (base ++ w.stream).take n, faults := fs } := by
  have hfull : (base ++ w.stream).length = w.offset := by rw [h.offset,List.length_append]
  have hl : ((base ++ w.stream).take n).length = n := by rw [List.length_take]; omega
  have hkept := h.kept
  have hsyn := h.synced
  have hcov := h.covered
  exact {
    fits := h.fits
    file := by rw [hl]; rfl
    kept := by rw [hl]; omega
    synced := by rw [hl]; exact hsyn.trans hn
    lsns := h.lsns
    bound := h.bound
    acked_le := h.acked_le
    flushed := h.flushed
    offset := h.offset
    pending := h.pending
    buffer := h.buffer
    covered := by rw [hl]; exact hcov.trans hn
    next := h.next }

theorem Logged.drained (h : Logged base lsn acked w) (hf : w.file = base ++ w.stream) :
    Logged base lsn acked { w with writeBuffer := [] } where
  fits := h.fits
  file := h.file
  kept := h.kept
  synced := h.synced
  lsns := h.lsns
  bound := h.bound
  acked_le := h.acked_le
  flushed := h.flushed
  offset := h.offset
  pending := Nat.zero_le _
  buffer := by
    change [] = (base ++ w.stream).drop (w.offset - 0)
    rw [List.drop_of_length_le]
    rw [h.offset,List.length_append,Nat.sub_zero]
  covered := by
    change w.offset - 0 ≤ w.file.length
    rw [hf,h.offset,List.length_append,Nat.sub_zero]
  next := h.next

theorem Logged.synced_all (h : Logged base lsn acked w) (hf : w.file = base ++ w.stream) :
    Logged base lsn w.appended.length
      { w with flushedLsn := w.nextLsn - 1, synced := w.file.length } := by
  refine { h with synced := le_rfl, acked_le := le_rfl, flushed := ?_ }
  change base.length + ((w.appended.take w.appended.length).flatMap _).length ≤ w.file.length
  rw [List.take_length,hf,List.length_append]
  rfl

theorem Logged.prev (h : Logged base lsn acked w) :
    w.nextLsn - 1 = lsn + UInt64.ofNat w.appended.length := by
  rw [h.next,UInt64.add_assoc,UInt64.add_comm 1,← UInt64.add_assoc,UInt64.add_sub_cancel]

theorem Logged.full (h : Logged base lsn acked w) (hb : w.writeBuffer = []) :
    w.file = base ++ w.stream := by
  have hcov := h.covered
  rw [hb,List.length_nil,Nat.sub_zero,h.offset] at hcov
  rw [h.file,List.take_of_length_le (by rw [List.length_append]; exact hcov)]

structure Failed (base : Bytes) (lsn : Lsn) (acked : Nat) (added : List LogRecord)
    (w : WalManager) (f : Fault Error) (t : WalManager) : Prop where
  grown : t.appended = w.appended ∨ t.appended = w.appended ++ added
  mark : t.flushedLsn = w.flushedLsn
  durable : Durable base lsn acked t
  logged : f ≠ .panic → Logged base lsn acked t

theorem Logged.failed (h : Logged base lsn acked w') (ha : w'.appended = w.appended)
    (hm : w'.flushedLsn = w.flushedLsn) (f : Fault Error) : Failed base lsn acked [] w f w' where
  grown := Or.inl ha
  mark := hm
  durable := h.toDurable
  logged _ := h

theorem Failed.trans {t : WalManager} {f : Fault Error} {added : List LogRecord}
    (h : Failed base lsn acked [] w' f t) (hw : w'.appended = w.appended ++ added)
    (hm : w'.flushedLsn = w.flushedLsn) : Failed base lsn acked added w f t where
  grown := by
    have hg := h.grown
    rw [List.append_nil,or_self,hw] at hg
    exact Or.inr hg
  mark := h.mark.trans hm
  durable := h.durable
  logged := h.logged

theorem Logged.drain_spec (h : Logged base lsn acked w) :
    Prog.Spec drain w (fun r t =>
      t.appended = w.appended ∧ t.txnLastLsn = w.txnLastLsn ∧ t.flushedLsn = w.flushedLsn ∧
        Logged base lsn acked t ∧ (r = .ok () ∧ t.writeBuffer = [] ∨ r = .error (.err .io))) := by
  have hoff := h.offset
  have hpen := h.pending
  have hlen := h.length_le
  rw [drain,Prog.spec_get_bind]
  split_ifs with hb hlt
  · exact ⟨rfl,rfl,rfl,h,Or.inl ⟨rfl,hb⟩⟩
  · omega
  · refine (writeAll_spec _ _ w).bind ?_ ?_
    · rintro a t ⟨n,fs,rfl,hr⟩
      have hn : w.writeBuffer.length ≤ n := by
        rcases hr with hr | hr
        · exact hr.2
        · cases hr
      have hm : max w.file.length (min (w.offset - w.writeBuffer.length + n) w.offset) =
          w.offset := by
        omega
      have hl := h.refile fs (show w.file.length ≤ w.offset by omega) le_rfl
      rw [Prog.spec_modify,h.written n,hm]
      refine ⟨rfl,rfl,rfl,hl.drained ?_,Or.inl ⟨rfl,rfl⟩⟩
      change (base ++ w.stream).take w.offset = base ++ w.stream
      rw [List.take_of_length_le]
      rw [List.length_append,hoff]
    · rintro e t ⟨n,fs,rfl,hr⟩
      rw [h.written n]
      have hl := h.refile fs (le_max_left _ (min (w.offset - w.writeBuffer.length + n) w.offset))
        (by omega)
      refine ⟨rfl,rfl,rfl,hl,?_⟩
      rcases hr with hr | hr
      · cases hr.1
      · exact Or.inr hr

theorem Logged.flush_spec (h : Logged base lsn acked w) :
    Prog.Spec flush w (fun r t => match r with
      | .ok _ => t.appended = w.appended ∧ t.txnLastLsn = w.txnLastLsn ∧
        Logged base lsn t.appended.length t ∧ t.writeBuffer = [] ∧
        t.flushedLsn = lsn + UInt64.ofNat t.appended.length
      | .error f => Failed base lsn acked [] w f t) := by
  refine h.drain_spec.bind ?_ ?_
  · rintro a t ⟨ha,hx,hm,hl,hr⟩
    have hb : t.writeBuffer = [] := by
      rcases hr with hr | hr
      · exact hr.2
      · cases hr
    refine (sysCall_spec t).bind ?_ ?_
    · rintro - t' ⟨fs,rfl,-⟩
      have hl' : Logged base lsn acked { t with faults := fs } := { hl with }
      rw [Prog.spec_get_bind]
      split_ifs
      · exact ⟨Or.inl ha,hm,hl'.toDurable,fun hne => absurd rfl hne⟩
      · exact ⟨ha,hx,hl'.synced_all (hl'.full hb),hb,hl'.prev⟩
    · rintro e t' ⟨fs,rfl,-⟩
      have hl' : Logged base lsn acked { t with faults := fs } := { hl with }
      exact hl'.failed ha hm e
  · rintro e t ⟨ha,hx,hm,hl,-⟩
    exact hl.failed ha hm e

theorem Logged.weaken {acked' : Nat} (h : Logged base lsn acked w) (ha : acked' ≤ acked) :
    Logged base lsn acked' w := { h with toDurable := h.toDurable.weaken ha }

theorem Logged.forget (h : Logged base lsn acked w) (t : TxnId) :
    Logged base lsn acked (w.forget t) := { h with }

structure Stepped (base : Bytes) (lsn : Lsn) (op : WalOp) (w t : WalManager) : Prop where
  entry : t.appended = w.appended ++ (op.entry w.nextLsn w.txnLastLsn).toList
  tracked : t.txnLastLsn = op.tracked w.nextLsn w.txnLastLsn
  sync : op.syncs = true → Logged base lsn t.appended.length t ∧ t.writeBuffer = [] ∧
    t.flushedLsn = lsn + UInt64.ofNat t.appended.length
  calm : op.syncs = false → t.file = w.file ∧ t.flushedLsn = w.flushedLsn

theorem length_checkpoint (ts : List TxnId) :
    (LogRecord.checkpoint 0 ts).data.length = 4 + 8 * ts.length := by
  have hf : (ts.flatMap (fun t => leBytes 8 t.toNat)).length = 8 * ts.length := by
    induction ts with
    | nil => rfl
    | cons t ts ih =>
      rw [List.flatMap_cons,List.length_append,ih,length_leBytes,List.length_cons]
      omega
  rw [LogRecord.checkpoint,List.length_append,hf,length_leBytes]

theorem request_fits {op : WalOp} (hop : op.PayloadFits) {last : TxnId → Option Lsn}
    {record : LogRecord} (h : op.request last = some record) : record.Fits := by
  rw [WalOp.PayloadFits] at hop
  rw [LogRecord.Fits]
  cases op with
  | pageWrite t p b a =>
    cases h
    simp only [LogRecord.pageWrite,List.length_append,length_leBytes]
    exact hop
  | checkpoint ts =>
    cases h
    rw [length_checkpoint]
    exact hop
  | flush => cases h
  | _ =>
    cases h
    exact hop

def Requested (base : Bytes) (lsn : Lsn) (acked : Nat) (op : WalOp) (w : WalManager)
    (r : Except (Fault Error) Lsn) (t : WalManager) : Prop :=
  match r with
  | .ok l => some l = (op.entry w.nextLsn w.txnLastLsn).map LogRecord.lsn ∧
    Logged base lsn acked t ∧ t.appended = w.appended ++ (op.entry w.nextLsn w.txnLastLsn).toList
  | .error f => Failed base lsn acked (op.entry w.nextLsn w.txnLastLsn).toList w f t

def Executed (base : Bytes) (lsn : Lsn) (acked : Nat) (op : WalOp) (w : WalManager)
    (r : Except (Fault Error) (Option Lsn)) (t : WalManager) : Prop :=
  match r with
  | .ok l => l = (op.entry w.nextLsn w.txnLastLsn).map LogRecord.lsn ∧
    Logged base lsn acked t ∧ Stepped base lsn op w t
  | .error f => Failed base lsn acked (op.entry w.nextLsn w.txnLastLsn).toList w f t

section exec

variable {record : LogRecord} (op : WalOp) (h : Logged base lsn acked w) (hop : op.PayloadFits)
include h hop

theorem Logged.request_spec (hq : op.request w.txnLastLsn = some record) :
    Prog.Spec (append record) w (fun r t => Requested base lsn acked op w r t ∧
      ∀ l, r = .ok l → t.file = w.file ∧ t.flushedLsn = w.flushedLsn ∧
        t.txnLastLsn = trackLsn w.nextLsn w.txnLastLsn record.txnId) := by
  refine (h.append_spec (request_fits hop hq)).mono ?_
  rintro r t (⟨rfl,rfl,hl⟩ | ⟨rfl,ha,hm,hd⟩)
  · refine ⟨⟨?_,hl,?_⟩,fun _ _ => ⟨rfl,rfl,rfl⟩⟩
    · rw [WalOp.entry,hq]
      rfl
    · rw [WalOp.entry,hq]
      rfl
  · exact ⟨⟨Or.inl ha,hm,hd,fun hne => absurd rfl hne⟩,fun _ hr => (by cases hr)⟩

theorem Logged.request_flush_spec (hq : op.request w.txnLastLsn = some record)
    {f : WalManager → WalManager} (hf : ∀ t k, Logged base lsn k t → Logged base lsn k (f t) ∧
      (f t).appended = t.appended ∧ (f t).writeBuffer = t.writeBuffer ∧
      (f t).flushedLsn = t.flushedLsn) :
    Prog.Spec (append record >>= fun l => flush >>= fun _ => Prog.modify f >>= fun _ => pure l) w
      (fun r t => Requested base lsn acked op w r t ∧ ∀ l, r = .ok l →
        Logged base lsn t.appended.length t ∧ t.writeBuffer = [] ∧
        t.flushedLsn = lsn + UInt64.ofNat t.appended.length ∧
        ∃ t', t = f t' ∧ t'.txnLastLsn = trackLsn w.nextLsn w.txnLastLsn record.txnId) := by
  refine (h.request_spec op hop hq).bind ?_ ?_
  · rintro l t ⟨⟨hl,ht,ha⟩,hmark⟩
    obtain ⟨-,hm,hx⟩ := hmark l rfl
    refine ht.flush_spec.bind ?_ ?_
    · rintro - t' ⟨ha',hx',hl',hb,hm'⟩
      obtain ⟨hk,hka,hkb,hkm⟩ := hf t' _ hl'
      rw [Prog.spec_modify_bind,Prog.spec_pure]
      refine ⟨⟨hl,hk.weaken ?_,?_⟩,fun _ _ => ⟨?_,?_,?_,t',rfl,?_⟩⟩
      · rw [ha']
        exact ht.acked_le
      · rw [hka,ha',ha]
      · rw [hka]
        exact hk
      · rw [hkb,hb]
      · rw [hkm,hka,hm']
      · rw [hx',hx]
    · rintro e t' hfail
      exact ⟨hfail.trans ha hm,fun _ hr => (by cases hr)⟩
  · rintro e t ⟨hfail,-⟩
    exact ⟨hfail,fun _ hr => (by cases hr)⟩

end exec

theorem Stepped.of_append {op : WalOp} {t : WalManager} (hs : op.syncs = false)
    (ha : t.appended = w.appended ++ (op.entry w.nextLsn w.txnLastLsn).toList)
    (hx : t.txnLastLsn = op.tracked w.nextLsn w.txnLastLsn)
    (hf : t.file = w.file ∧ t.flushedLsn = w.flushedLsn) : Stepped base lsn op w t where
  entry := ha
  tracked := hx
  sync h := by rw [hs] at h; cases h
  calm _ := hf

theorem Stepped.of_sync {op : WalOp} {t : WalManager} (hs : op.syncs = true)
    (ha : t.appended = w.appended ++ (op.entry w.nextLsn w.txnLastLsn).toList)
    (hx : t.txnLastLsn = op.tracked w.nextLsn w.txnLastLsn)
    (hl : Logged base lsn t.appended.length t ∧ t.writeBuffer = [] ∧
      t.flushedLsn = lsn + UInt64.ofNat t.appended.length) : Stepped base lsn op w t where
  entry := ha
  tracked := hx
  sync _ := hl
  calm h := by rw [hs] at h; cases h

theorem Logged.exec_spec (h : Logged base lsn acked w) {op : WalOp} (hop : op.PayloadFits) :
    Prog.Spec op.exec w (Executed base lsn acked op w) := by
  cases op with
  | begin t =>
    refine (h.request_spec _ hop rfl).map ?_ (fun f t' hp => hp.1)
    rintro l t' ⟨⟨hl,ht,ha⟩,hmark⟩
    obtain ⟨hf,hm,hx⟩ := hmark l rfl
    exact ⟨hl,ht,.of_append rfl ha hx ⟨hf,hm⟩⟩
  | pageWrite t p b a =>
    have hs : Prog.Spec (logPageWrite t p b a) w
        (fun r t' => Executed base lsn acked (.pageWrite t p b a) w (r.map some) t') := by
      rw [logPageWrite,Prog.spec_get_bind]
      refine (h.request_spec _ hop rfl).mono ?_
      rintro (f | l) t' ⟨hp,hmark⟩
      · exact hp
      · obtain ⟨hf,hm,hx⟩ := hmark l rfl
        exact ⟨hp.1,hp.2.1,.of_append rfl hp.2.2 hx ⟨hf,hm⟩⟩
    exact hs.map (fun l t' hp => hp) (fun f t' hp => hp)
  | abort t =>
    have hs : Prog.Spec (logAbort t) w
        (fun r t' => Executed base lsn acked (.abort t) w (r.map some) t') := by
      rw [logAbort,Prog.spec_get_bind]
      refine (h.request_spec (.abort t) hop rfl).bind ?_ (fun f t' hp => hp.1)
      rintro l t' ⟨⟨hl,ht,ha⟩,hmark⟩
      obtain ⟨hf,hm,hx⟩ := hmark l rfl
      refine ⟨hl,ht.forget t,.of_append rfl ha ?_ ⟨hf,hm⟩⟩
      change Function.update t'.txnLastLsn t none = _
      rw [hx]
      rfl
    exact hs.map (fun l t' hp => hp) (fun f t' hp => hp)
  | commit t =>
    have hs : Prog.Spec (logCommit t) w
        (fun r t' => Executed base lsn acked (.commit t) w (r.map some) t') := by
      rw [logCommit,Prog.spec_get_bind]
      refine (h.request_flush_spec (.commit t) hop rfl
        (fun t' k ht => ⟨ht.forget t,rfl,rfl,rfl⟩)).mono ?_
      rintro (f | l) t' ⟨hp,hmark⟩
      · exact hp
      · obtain ⟨hall,hb,hm,t'',rfl,hx⟩ := hmark l rfl
        refine ⟨hp.1,hp.2.1,.of_sync rfl hp.2.2 ?_ ⟨hall,hb,hm⟩⟩
        change Function.update t''.txnLastLsn t none = _
        rw [hx]
        rfl
    exact hs.map (fun l t' hp => hp) (fun f t' hp => hp)
  | checkpoint ts =>
    have hs : Prog.Spec (logCheckpoint ts) w
        (fun r t' => Executed base lsn acked (.checkpoint ts) w (r.map some) t') := by
      refine (h.request_flush_spec (.checkpoint ts) (f := id) hop rfl
        (fun t' k ht => ⟨ht,rfl,rfl,rfl⟩)).mono ?_
      rintro (f | l) t' ⟨hp,hmark⟩
      · exact hp
      · obtain ⟨hall,hb,hm,t'',rfl,hx⟩ := hmark l rfl
        exact ⟨hp.1,hp.2.1,.of_sync rfl hp.2.2 hx ⟨hall,hb,hm⟩⟩
    exact hs.map (fun l t' hp => hp) (fun f t' hp => hp)
  | flush =>
    refine Prog.Spec.map h.flush_spec ?_ (fun f t' hf => hf)
    rintro - t' ⟨ha,hx,hl,hb,hm⟩
    refine ⟨rfl,hl.weaken ?_,.of_sync rfl ?_ hx ⟨hl,hb,hm⟩⟩
    · rw [ha]
      exact h.acked_le
    · rw [ha]
      exact (List.append_nil _).symm

def Adds (op : WalOp) (w : WalManager) {α : Type} (r : Except (Fault Error) α) (t : WalManager) :
    Prop :=
  t.appended = w.appended ++ (op.entry w.nextLsn w.txnLastLsn).toList ∨
    r = .error .panic ∧ t.appended = w.appended

theorem append_adds (op : WalOp) {record : LogRecord} (hq : op.request w.txnLastLsn = some record) :
    Prog.Spec (append record) w (Adds op w) := by
  have hentry : op.entry w.nextLsn w.txnLastLsn = some (w.stamp record) := by
    rw [WalOp.entry,hq]
    rfl
  refine (append_spec record w).mono ?_
  rintro r t (⟨-,rfl,-⟩ | ⟨rfl,-,ha,-⟩)
  · exact Or.inl (by rw [hentry]; rfl)
  · exact Or.inr ⟨rfl,ha⟩

theorem append_flush_adds {α : Type} (op : WalOp) {record : LogRecord}
    (hq : op.request w.txnLastLsn = some record) {g : Lsn → Prog Error WalManager α}
    (hg : ∀ l t, Prog.Spec (g l) t (fun _ t' => t'.appended = t.appended)) :
    Prog.Spec (append record >>= fun l => flush >>= fun _ => g l) w (Adds op w) := by
  refine (append_adds op hq).bind ?_ ?_
  · rintro l t (ht | ⟨hr,-⟩)
    · have hflush : Prog.Spec (flush >>= fun _ => g l) t (fun _ t' => t'.appended = t.appended) :=
        (flush_appended t).bind (fun _ t' h' => (hg l t').mono fun _ _ h => h.trans h')
          (fun _ _ h => h)
      exact hflush.mono fun _ t' h => Or.inl (h.trans ht)
    · cases hr
  · rintro f t (ht | ⟨hr,ht⟩)
    · exact Or.inl ht
    · cases hr
      exact Or.inr ⟨rfl,ht⟩

theorem Adds.ok {α β : Type} {op : WalOp} {a : α} {t : WalManager}
    (h : Adds op w (.ok a : Except (Fault Error) α) t) (b : β) :
    Adds op w (.ok b : Except (Fault Error) β) t := by
  rcases h with h | ⟨hr,-⟩
  · exact Or.inl h
  · cases hr

theorem Adds.error {α β : Type} {op : WalOp} {f : Fault Error} {t : WalManager}
    (h : Adds op w (.error f : Except (Fault Error) α) t) :
    Adds op w (.error f : Except (Fault Error) β) t := by
  rcases h with h | ⟨hr,h⟩
  · exact Or.inl h
  · cases hr
    exact Or.inr ⟨rfl,h⟩

theorem map_adds {α β : Type} {op : WalOp} {m : Prog Error WalManager α} (g : α → β)
    (h : Prog.Spec m w (Adds op w)) : Prog.Spec (g <$> m) w (Adds op w) :=
  h.map (fun _ _ h => h.ok _) (fun _ _ h => h.error)

theorem logAbort_adds (t : TxnId) : Prog.Spec (logAbort t) w (Adds (.abort t) w) := by
  rw [logAbort,Prog.spec_get_bind]
  refine (append_adds (.abort t) rfl).bind (fun l t' h => ?_) (fun _ _ h => h.error)
  rw [Prog.spec_modify_bind]
  exact h.ok _

theorem logAbort_panics {t : TxnId} {f : Fault Error} (h : ((WalOp.abort t).exec w).1 = .error f) :
    f = .panic := by
  have hs : Prog.Spec (WalOp.abort t).exec w (fun r _ => ∀ f, r = .error f → f = .panic) := by
    refine Prog.Spec.map (Q := fun r _ => ∀ f, r = .error f → f = .panic) ?_
      (fun _ _ _ _ h => (by cases h)) (fun f _ h g hg => by cases hg; exact h f rfl)
    rw [logAbort,Prog.spec_get_bind]
    refine (append_spec _ w).bind (fun _ _ _ _ h => (by cases h)) ?_
    rintro g t' (⟨hr,-⟩ | ⟨hr,-⟩) g' hg'
    · cases hr
    · cases hr
      cases hg'
      rfl
  exact hs f h

theorem logCommit_adds (t : TxnId) : Prog.Spec (logCommit t) w (Adds (.commit t) w) := by
  rw [logCommit,Prog.spec_get_bind]
  exact append_flush_adds (.commit t) rfl (fun _ _ => rfl)

theorem exec_adds (op : WalOp) (w : WalManager) : Prog.Spec op.exec w (Adds op w) := by
  cases op with
  | begin t => exact map_adds _ (append_adds _ rfl)
  | pageWrite t p b a =>
    refine map_adds _ ?_
    rw [logPageWrite,Prog.spec_get_bind]
    exact append_adds _ rfl
  | commit t => exact map_adds _ (logCommit_adds t)
  | abort t => exact map_adds _ (logAbort_adds t)
  | checkpoint ts =>
    exact map_adds _ (append_flush_adds (.checkpoint ts) rfl (fun _ _ => rfl))
  | flush =>
    have hs : Prog.Spec flush w (Adds .flush w) := by
      refine (flush_appended w).mono fun _ t' h => Or.inl ?_
      rw [h]
      exact (List.append_nil _).symm
    exact map_adds _ hs

theorem lsn_next {n : Nat} : lsn + 1 + UInt64.ofNat n = lsn + UInt64.ofNat (n + 1) := by
  rw [UInt64.ofNat_add,UInt64.add_assoc,UInt64.add_comm 1]
  rfl

theorem run_cons {op : WalOp} {ops : List WalOp} {r : Except (Fault Error) (Option Lsn)}
    (h : op.exec w = (r,w')) (hr : r ≠ .error .panic) :
    run (op :: ops) w = (r :: (run ops w').1,(run ops w').2) := by
  rw [run,h]
  rcases r with f | l
  · cases f with
    | panic => exact absurd rfl hr
    | err e => rfl
    | hang => rfl
  · rfl

def Marked (base : Bytes) (lsn : Lsn) (w : WalManager) : Prop :=
  ∃ k, w.flushedLsn = lsn + UInt64.ofNat k ∧ Durable base lsn k w

theorem Logged.run_durable {ops : List WalOp} (h : Logged base lsn acked w)
    (hops : ∀ op ∈ ops, op.PayloadFits) (hm : w.flushedLsn = lsn + UInt64.ofNat acked) :
    Marked base lsn (run ops w).2 ∧ (∀ k, Logged base lsn k w → Durable base lsn k (run ops w).2) ∧
      ∀ (i : Nat) (t : TxnId) (l : Lsn), ops[i]? = some (.commit t) →
        (run ops w).1[i]? = some (.ok (some l)) →
        ∃ c, l = lsn + UInt64.ofNat c ∧ Durable base lsn c (run ops w).2 := by
  induction ops generalizing w acked with
  | nil => exact ⟨⟨acked,hm,h.toDurable⟩,fun k hk => hk.toDurable,fun i t l hi => by simp at hi⟩
  | cons op ops ih =>
    have hrest : ∀ o ∈ ops, o.PayloadFits := fun o ho => hops o (List.mem_cons_of_mem _ ho)
    have hspec : ∀ k, Logged base lsn k w → Prog.Spec op.exec w (Executed base lsn k op w) :=
      fun k hk => hk.exec_spec (hops op List.mem_cons_self)
    rcases hx : op.exec w with ⟨r,t⟩
    have hp := (hspec _ h).of_eq hx
    by_cases hr : r = .error .panic
    · subst hr
      have hrun : run (op :: ops) w = ([.error .panic],t) := by rw [run,hx]
      rw [hrun]
      refine ⟨⟨acked,hp.mark.trans hm,hp.durable⟩,fun k hk => ((hspec k hk).of_eq hx).durable,
        fun i u l hi ho => ?_⟩
      cases i <;> simp at ho
    · have ht : ∀ k, Logged base lsn k w → Logged base lsn k t := by
        intro k hk
        have hpk := (hspec k hk).of_eq hx
        rcases r with f | l
        · exact hpk.logged (fun hf => hr (by rw [hf]))
        · exact hpk.2.1
      have hnext : ∃ k, Logged base lsn k t ∧ t.flushedLsn = lsn + UInt64.ofNat k := by
        rcases r with f | l
        · exact ⟨acked,ht _ h,hp.mark.trans hm⟩
        · by_cases hs : op.syncs = true
          · exact ⟨_,(hp.2.2.sync hs).1,(hp.2.2.sync hs).2.2⟩
          · rw [Bool.not_eq_true] at hs
            exact ⟨acked,ht _ h,(hp.2.2.calm hs).2.trans hm⟩
      obtain ⟨k,hk,hkm⟩ := hnext
      obtain ⟨h1,h2,h3⟩ := ih hk hrest hkm
      rw [run_cons hx hr]
      refine ⟨h1,fun j hj => h2 j (ht j hj),fun i u l hi ho => ?_⟩
      cases i with
      | succ i => exact h3 i u l (by simpa using hi) (by simpa using ho)
      | zero =>
        have hop : op = .commit u := by simpa using hi
        have hrl : r = .ok (some l) := by simpa using ho
        subst hop hrl
        obtain ⟨hl,-,hstep⟩ := hp
        refine ⟨t.appended.length,?_,h2 _ (hstep.sync rfl).1⟩
        rw [hstep.entry,List.length_append]
        cases hl
        exact h.next.trans lsn_next

end WalManager

end StorageDb
