import Mathlib.Tactic
import StorageDb.Disk.Crc32
import StorageDb.Wal.LogRecord

namespace StorageDb
open Bytes

theorem LogRecordType.toByte_ofByte {b : Nat} : (LogRecordType.ofByte b).toByte = b ↔ b ≤ 6 := by
  constructor
  · intro h
    rw [← h]
    cases LogRecordType.ofByte b <;> decide
  · intro h
    interval_cases b <;> rfl

namespace LogRecord

variable {buf : Bytes} {r : LogRecord} {n : Nat}

theorem record_round_trip (h : r.data.length < 2 ^ 32 - 41) :
    (∀ rest, deserialize (r.serialize ++ rest) = .ok (r,r.serialize.length)) ∧
      r.serialize.length = r.serializedSize ∧
      (∀ lsn txnId prevLsn pageId before after,
        r = pageWrite lsn txnId prevLsn pageId before after → ∀ rest r' n,
          deserialize (r.serialize ++ rest) = .ok (r',n) →
            r'.pageWriteImages = .ok (some (before,after))) ∧
      ∀ p, p <+: r.serialize → p ≠ r.serialize → ∃ e, deserialize p = .error (.err e) := by
  have hf : r.Fits := by
    rw [Fits,recordHeaderSize]
    omega
  refine ⟨fun rest => deserialize_serialize rest hf,length_serialize r,?_,?_⟩
  · rintro lsn txnId prevLsn pageId before after rfl rest r' n hr'
    rw [deserialize_serialize rest hf] at hr'
    cases hr'
    refine pageWriteImages_pageWrite ?_
    simp only [pageWrite,List.length_append] at h
    omega
  · rintro p ⟨q,hq⟩ hne
    obtain ⟨msg,hmsg⟩ := deserialize_torn hf hq (fun e => hne (by rw [← hq,e,List.append_nil]))
    exact ⟨_,hmsg⟩

theorem record_round_trip_images : (pageWrite 3 1 2 7 [5] [6,7]).data.length < 2 ^ 32 - 41 ∧
    ∀ rest, deserialize ((pageWrite 3 1 2 7 [5] [6,7]).serialize ++ rest) =
      .ok (pageWrite 3 1 2 7 [5] [6,7],48) := by
  have h : (pageWrite 3 1 2 7 [5] [6,7]).data.length < 2 ^ 32 - 41 := by decide
  exact ⟨h,(record_round_trip h).1⟩

def totalLen (buf : Bytes) : Nat := leNat (slice buf 0 4)
def storedChecksum (buf : Bytes) : UInt32 := UInt32.ofNat (leNat (slice buf 4 4))
def computedChecksum (buf : Bytes) : UInt32 := crc32 (slice buf 8 (totalLen buf - 8))
def typeByte (buf : Bytes) : Nat := leNat (slice buf 32 1)
def dataLen (buf : Bytes) : Nat := leNat (slice buf 37 4)

def Whole (buf : Bytes) : Prop := recordHeaderSize ≤ buf.length ∧ totalLen buf ≤ buf.length

def Matching (buf : Bytes) : Prop := storedChecksum buf = computedChecksum buf

structure Accepted (buf : Bytes) : Prop where
  whole : Whole buf
  covered : 8 ≤ totalLen buf
  matching : Matching buf
  inside : recordHeaderSize + dataLen buf ≤ buf.length

instance (buf : Bytes) : Decidable (Whole buf) := by unfold Whole; infer_instance
instance (buf : Bytes) : Decidable (Matching buf) := by unfold Matching; infer_instance

instance (buf : Bytes) : Decidable (Accepted buf) :=
  decidable_of_iff (Whole buf ∧ 8 ≤ totalLen buf ∧ Matching buf ∧
      recordHeaderSize + dataLen buf ≤ buf.length)
    ⟨fun h => ⟨h.1,h.2.1,h.2.2.1,h.2.2.2⟩,fun h => ⟨h.whole,h.covered,h.matching,h.inside⟩⟩

def decoded (buf : Bytes) : LogRecord where
  lsn := UInt64.ofNat (leNat (slice buf 8 8))
  txnId := UInt64.ofNat (leNat (slice buf 16 8))
  prevLsn := UInt64.ofNat (leNat (slice buf 24 8))
  recordType := .ofByte (typeByte buf)
  pageId := UInt32.ofNat (leNat (slice buf 33 4))
  data := slice buf recordHeaderSize (dataLen buf)

theorem deserialize_whole (h : Whole buf) : deserialize buf =
    if totalLen buf < 8 then .error .panic
    else if Matching buf then
      if recordHeaderSize + dataLen buf ≤ buf.length then .ok (decoded buf,totalLen buf)
      else .error .panic
    else .error (.err (.checksumMismatch (storedChecksum buf) (computedChecksum buf))) := by
  rw [deserialize,if_neg (Nat.not_lt.mpr h.1),← ite_not (Matching buf)]
  exact if_neg (Nat.not_lt.mpr h.2)

theorem deserialize_short (h : ¬ Whole buf) :
    ∃ msg, deserialize buf = .error (.err (.walCorrupted msg)) := by
  rw [deserialize]
  by_cases hl : buf.length < recordHeaderSize
  · exact ⟨_,if_pos hl⟩
  · rw [if_neg hl]
    exact ⟨_,if_pos (Nat.lt_of_not_le fun ht => h ⟨Nat.le_of_not_lt hl,ht⟩)⟩

theorem deserialize_ok_iff :
    deserialize buf = .ok (r,n) ↔ Accepted buf ∧ r = decoded buf ∧ n = totalLen buf := by
  by_cases hw : Whole buf
  · rw [deserialize_whole hw]
    split_ifs with h8 hm hd
    · exact iff_of_false (by simp) fun h => absurd h.1.covered (Nat.not_le.mpr h8)
    · rw [Except.ok.injEq,Prod.mk.injEq,eq_comm (b := r),eq_comm (b := n)]
      exact (and_iff_right ⟨hw,Nat.le_of_not_lt h8,hm,hd⟩).symm
    · exact iff_of_false (by simp) fun h => hd h.1.inside
    · exact iff_of_false (by simp) fun h => hm h.1.matching
  · obtain ⟨msg,hmsg⟩ := deserialize_short hw
    rw [hmsg]
    exact iff_of_false (by simp) fun h => hw h.1.whole

theorem deserialize_mismatch_iff :
    (∃ e a, deserialize buf = .error (.err (.checksumMismatch e a))) ↔
      Whole buf ∧ 8 ≤ totalLen buf ∧ ¬ Matching buf := by
  by_cases hw : Whole buf
  · rw [deserialize_whole hw]
    split_ifs with h8 hm
    · exact iff_of_false (by simp) fun h => absurd h.2.1 (Nat.not_le.mpr h8)
    · exact iff_of_false (by simp) fun h => h.2.2 hm
    · exact iff_of_false (by simp) fun h => h.2.2 hm
    · exact iff_of_true ⟨_,_,rfl⟩ ⟨hw,Nat.le_of_not_lt h8,hm⟩
  · obtain ⟨msg,hmsg⟩ := deserialize_short hw
    rw [hmsg]
    exact iff_of_false (by simp) fun h => hw h.1

theorem deserialize_panic_iff : deserialize buf = .error .panic ↔
    Whole buf ∧
      (8 ≤ totalLen buf → Matching buf ∧ buf.length < recordHeaderSize + dataLen buf) := by
  by_cases hw : Whole buf
  · rw [deserialize_whole hw]
    split_ifs with h8 hm hd
    · exact iff_of_true rfl ⟨hw,fun h => absurd h (Nat.not_le.mpr h8)⟩
    · exact iff_of_false (by simp)
        fun h => absurd hd (Nat.not_le.mpr (h.2 (Nat.le_of_not_lt h8)).2)
    · exact iff_of_true rfl ⟨hw,fun _ => ⟨hm,Nat.lt_of_not_le hd⟩⟩
    · exact iff_of_false (by simp) fun h => hm (h.2 (Nat.le_of_not_lt h8)).1
  · obtain ⟨msg,hmsg⟩ := deserialize_short hw
    rw [hmsg]
    exact iff_of_false (by simp) fun h => hw h.1

theorem leBytes_slice {off len : Nat} (h : off + len ≤ buf.length) :
    leBytes len (leNat (slice buf off len)) = slice buf off len := by
  have hb := leBytes_leNat (slice buf off len)
  rwa [length_slice h] at hb

theorem leNat_slice_lt {off len : Nat} (h : off + len ≤ buf.length) :
    leNat (slice buf off len) < 256 ^ len := by
  have hb := leNat_lt (slice buf off len)
  rwa [length_slice h] at hb

-- The type byte is the only field whose decoding loses something.
theorem body_decoded (h : recordHeaderSize + dataLen buf ≤ buf.length) (ht : typeByte buf ≤ 6) :
    (decoded buf).body = slice buf 8 (33 + dataLen buf) := by
  rw [recordHeaderSize] at h
  have h64 {off : Nat} (ho : off + 8 ≤ buf.length) :
      leBytes 8 (UInt64.ofNat (leNat (slice buf off 8))).toNat = slice buf off 8 := by
    rw [UInt64.toNat_ofNat_of_lt' (leNat_slice_lt ho),leBytes_slice ho]
  have h32 : leBytes 4 (UInt32.ofNat (leNat (slice buf 33 4))).toNat = slice buf 33 4 := by
    rw [UInt32.toNat_ofNat_of_lt' (leNat_slice_lt (by omega)),leBytes_slice (by omega)]
  have htype : leBytes 1 (LogRecordType.ofByte (typeByte buf)).toByte = slice buf 32 1 := by
    rw [LogRecordType.toByte_ofByte.mpr ht,typeByte,leBytes_slice (by omega)]
  have hlen : leBytes 4 (slice buf recordHeaderSize (dataLen buf)).length = slice buf 37 4 := by
    rw [length_slice (by rw [recordHeaderSize]; exact h),dataLen,leBytes_slice (by omega)]
  have hsum : 33 + dataLen buf = 8 + (8 + (8 + (1 + (4 + (4 + dataLen buf))))) := by omega
  rw [body,decoded]
  dsimp only
  rw [h64 (by omega),h64 (by omega),h64 (by omega),htype,h32,hlen,hsum]
  simp only [slice_append,Nat.reduceAdd,recordHeaderSize]

theorem serialize_decoded (h : Accepted buf) (hl : totalLen buf = recordHeaderSize + dataLen buf)
    (ht : typeByte buf ≤ 6) : (decoded buf).serialize = buf.take (totalLen buf) := by
  have hw := h.whole.1
  have hbody := body_decoded h.inside ht
  rw [recordHeaderSize] at hw hl
  have hdata : (decoded buf).data.length = dataLen buf := length_slice h.inside
  have htotal : leBytes 4 (recordHeaderSize + (decoded buf).data.length) = slice buf 0 4 := by
    rw [hdata,recordHeaderSize,← hl,totalLen,leBytes_slice (by omega)]
  have hcrc : leBytes 4 (crc32 (decoded buf).body).toNat = slice buf 4 4 := by
    have hm := h.matching
    rw [Matching,computedChecksum,hl,show 41 + dataLen buf - 8 = 33 + dataLen buf by omega,
      ← hbody,storedChecksum] at hm
    rw [← hm,UInt32.toNat_ofNat_of_lt' (leNat_slice_lt (by omega)),leBytes_slice (by omega)]
  have htake : buf.take (totalLen buf) = slice buf 0 (4 + (4 + (33 + dataLen buf))) := by
    rw [slice,List.drop_zero,hl]
    congr 1
    omega
  rw [serialize,htotal,hcrc,hbody,htake]
  simp only [slice_append,Nat.reduceAdd]

theorem accepted_canonical_iff (buf : Bytes) :
    (∀ r n, deserialize buf = .ok (r,n) → r.serialize = buf.take n) ↔
      (Accepted buf → totalLen buf = recordHeaderSize + dataLen buf ∧ typeByte buf ≤ 6) := by
  constructor
  · intro h ha
    have hs := h _ _ (deserialize_ok_iff.mpr ⟨ha,rfl,rfl⟩)
    have hdata : (decoded buf).data.length = dataLen buf := length_slice ha.inside
    have hlen := congrArg List.length hs
    rw [length_serialize,hdata,List.length_take,Nat.min_eq_left ha.whole.2] at hlen
    refine ⟨hlen.symm,LogRecordType.toByte_ofByte.mp ?_⟩
    have hslice : slice (decoded buf).serialize 32 1 = slice buf 32 1 := by
      have hin : slice (slice buf 0 (totalLen buf)) 32 1 = slice buf (0 + 32) 1 :=
        slice_slice (by omega)
      have htake : slice buf 0 (totalLen buf) = buf.take (totalLen buf) := by
        rw [slice,List.drop_zero]
      rwa [htake,← hs,Nat.zero_add] at hin
    have hbyte := slice_body (decoded buf) [] 24 1
    rw [slice_recordType,List.append_nil,hslice] at hbyte
    have hnat := congrArg leNat hbyte
    rw [leNat_leBytes_of_lt (LogRecordType.toByte_lt _)] at hnat
    exact hnat.symm
  · rintro h r n hd
    obtain ⟨ha,rfl,rfl⟩ := deserialize_ok_iff.mp hd
    obtain ⟨hl,ht⟩ := h ha
    exact serialize_decoded ha hl ht

theorem accepted_canonical_begin : ∀ r n, deserialize (begin 1 1).serialize = .ok (r,n) →
    r.serialize = (begin 1 1).serialize.take n :=
  (accepted_canonical_iff _).mpr (by decide +kernel)

-- One byte follows the record proper: total_len counts it, data_len does not.
def paddedRecord : Bytes :=
  leBytes 4 42 ++ (leBytes 4 (crc32 (List.replicate 34 0)).toNat ++ List.replicate 34 0)

theorem paddedRecord_not_canonical : deserialize paddedRecord = .ok (⟨0,0,0,.invalid,0,[]⟩,42) ∧
    (LogRecord.mk 0 0 0 .invalid 0 []).serialize ≠ paddedRecord.take 42 := by
  have ha : Accepted paddedRecord := by decide +kernel
  refine ⟨deserialize_ok_iff.mpr ⟨ha,by decide +kernel,by decide +kernel⟩,fun he => ?_⟩
  have hl := congrArg List.length he
  rw [length_serialize] at hl
  revert hl
  decide +kernel

end LogRecord

end StorageDb
