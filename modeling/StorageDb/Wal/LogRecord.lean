import Mathlib.Tactic
import StorageDb.Lib.FrameLog
import StorageDb.Disk.DiskManager

namespace StorageDb
open Bytes FrameLog

abbrev Lsn := UInt64
abbrev TxnId := UInt64

inductive LogRecordType where
  | invalid
  | begin
  | commit
  | abort
  | pageWrite
  | checkpoint
  | clr
  deriving DecidableEq, Repr

def LogRecordType.toByte : LogRecordType → Nat
  | .invalid => 0
  | .begin => 1
  | .commit => 2
  | .abort => 3
  | .pageWrite => 4
  | .checkpoint => 5
  | .clr => 6

def LogRecordType.ofByte : Nat → LogRecordType
  | 1 => .begin
  | 2 => .commit
  | 3 => .abort
  | 4 => .pageWrite
  | 5 => .checkpoint
  | 6 => .clr
  | _ => .invalid

@[simp] theorem LogRecordType.ofByte_toByte (t : LogRecordType) : ofByte t.toByte = t := by
  cases t <;> rfl

theorem LogRecordType.toByte_lt (t : LogRecordType) : t.toByte < 256 ^ 1 := by
  cases t <;> decide

structure LogRecord where
  lsn : Lsn
  txnId : TxnId
  prevLsn : Lsn
  recordType : LogRecordType
  pageId : PageId
  data : Bytes
  deriving DecidableEq, Repr

def recordHeaderSize : Nat := 41

namespace LogRecord

def begin (lsn : Lsn) (txnId : TxnId) : LogRecord := ⟨lsn,txnId,0,.begin,0,[]⟩

def commit (lsn : Lsn) (txnId : TxnId) (prevLsn : Lsn) : LogRecord :=
  ⟨lsn,txnId,prevLsn,.commit,0,[]⟩

def abort (lsn : Lsn) (txnId : TxnId) (prevLsn : Lsn) : LogRecord :=
  ⟨lsn,txnId,prevLsn,.abort,0,[]⟩

def pageWrite (lsn : Lsn) (txnId : TxnId) (prevLsn : Lsn) (pageId : PageId)
    (beforeImage afterImage : Bytes) : LogRecord :=
  ⟨lsn,txnId,prevLsn,.pageWrite,pageId,leBytes 4 beforeImage.length ++ beforeImage ++ afterImage⟩

def checkpoint (lsn : Lsn) (activeTxns : List TxnId) : LogRecord :=
  ⟨lsn,0,0,.checkpoint,0,
    leBytes 4 activeTxns.length ++ activeTxns.flatMap (fun t => leBytes 8 t.toNat)⟩

-- An image range past the end of the data panics.
def pageWriteImages (r : LogRecord) : Except (Fault Error) (Option (Bytes × Bytes)) :=
  if r.recordType ≠ .pageWrite ∨ r.data.length < 4 then .ok none
  else
    let beforeLen := leNat (slice r.data 0 4)
    if 4 + beforeLen ≤ r.data.length then
      .ok (some (slice r.data 4 beforeLen,r.data.drop (4 + beforeLen)))
    else .error .panic

-- The bytes the checksum covers.
def body (r : LogRecord) : Bytes :=
  leBytes 8 r.lsn.toNat ++ (leBytes 8 r.txnId.toNat ++ (leBytes 8 r.prevLsn.toNat ++
    (leBytes 1 r.recordType.toByte ++ (leBytes 4 r.pageId.toNat ++
      (leBytes 4 r.data.length ++ r.data)))))

def serialize (r : LogRecord) : Bytes :=
  leBytes 4 (recordHeaderSize + r.data.length) ++ (leBytes 4 (crc32 r.body).toNat ++ r.body)

-- A total length below 8 and a data length past the buffer are slice panics of the source.
def deserialize (buf : Bytes) : Except (Fault Error) (LogRecord × Nat) :=
  if buf.length < recordHeaderSize then
    .error (.err (.walCorrupted "Buffer too small for record header"))
  else
    let totalLen := leNat (slice buf 0 4)
    if buf.length < totalLen then
      .error (.err (.walCorrupted
        ("Buffer too small: need " ++ toString totalLen ++ " bytes, have " ++ toString buf.length)))
    else if totalLen < 8 then .error .panic
    else
      let storedChecksum := UInt32.ofNat (leNat (slice buf 4 4))
      let computedChecksum := crc32 (slice buf 8 (totalLen - 8))
      if storedChecksum ≠ computedChecksum then
        .error (.err (.checksumMismatch storedChecksum computedChecksum))
      else
        let dataLen := leNat (slice buf 37 4)
        if recordHeaderSize + dataLen ≤ buf.length then
          .ok ({ lsn := UInt64.ofNat (leNat (slice buf 8 8))
                 txnId := UInt64.ofNat (leNat (slice buf 16 8))
                 prevLsn := UInt64.ofNat (leNat (slice buf 24 8))
                 recordType := .ofByte (leNat (slice buf 32 1))
                 pageId := UInt32.ofNat (leNat (slice buf 33 4))
                 data := slice buf recordHeaderSize dataLen },totalLen)
        else .error .panic

def serializedSize (r : LogRecord) : Nat := recordHeaderSize + r.data.length

def Fits (r : LogRecord) : Prop := recordHeaderSize + r.data.length < 2 ^ 32

instance (r : LogRecord) : Decidable r.Fits := by unfold Fits; infer_instance

@[simp] theorem length_body (r : LogRecord) : r.body.length = 33 + r.data.length := by
  simp only [body,List.length_append,length_leBytes]
  omega

@[simp] theorem length_serialize (r : LogRecord) : r.serialize.length = 41 + r.data.length := by
  simp only [serialize,List.length_append,length_leBytes,length_body]
  omega

theorem slice_field {w n : Nat} {rest : Bytes} : slice (leBytes w n ++ rest) 0 w = leBytes w n := by
  have h := slice_append_self (leBytes w n) rest
  rwa [length_leBytes] at h

theorem slice_after {w n : Nat} {rest : Bytes} (i len : Nat) :
    slice (leBytes w n ++ rest) (w + i) len = slice rest i len := by
  have h := slice_append_right (leBytes w n) rest i len
  rwa [length_leBytes] at h

section fields

variable (r : LogRecord) (rest : Bytes)

theorem slice_totalLen :
    slice (r.serialize ++ rest) 0 4 = leBytes 4 (recordHeaderSize + r.data.length) := by
  rw [serialize,List.append_assoc,slice_field]

theorem slice_checksum : slice (r.serialize ++ rest) 4 4 = leBytes 4 (crc32 r.body).toNat := by
  rw [serialize,List.append_assoc,List.append_assoc,slice_after 0,slice_field]

theorem slice_body (i len : Nat) :
    slice (r.serialize ++ rest) (8 + i) len = slice (r.body ++ rest) i len := by
  rw [serialize,List.append_assoc,List.append_assoc,show 8 + i = 4 + (4 + i) by omega,slice_after,
    slice_after]

theorem slice_lsn : slice (r.body ++ rest) 0 8 = leBytes 8 r.lsn.toNat := by
  rw [body,List.append_assoc,slice_field]

theorem slice_txnId : slice (r.body ++ rest) 8 8 = leBytes 8 r.txnId.toNat := by
  simp only [body,List.append_assoc]
  rw [slice_after 0,slice_field]

theorem slice_prevLsn : slice (r.body ++ rest) 16 8 = leBytes 8 r.prevLsn.toNat := by
  simp only [body,List.append_assoc]
  rw [slice_after 8,slice_after 0,slice_field]

theorem slice_recordType : slice (r.body ++ rest) 24 1 = leBytes 1 r.recordType.toByte := by
  simp only [body,List.append_assoc]
  rw [slice_after 16,slice_after 8,slice_after 0,slice_field]

theorem slice_pageId : slice (r.body ++ rest) 25 4 = leBytes 4 r.pageId.toNat := by
  simp only [body,List.append_assoc]
  rw [slice_after 17,slice_after 9,slice_after 1,slice_after 0,slice_field]

theorem slice_dataLen : slice (r.body ++ rest) 29 4 = leBytes 4 r.data.length := by
  simp only [body,List.append_assoc]
  rw [slice_after 21,slice_after 13,slice_after 5,slice_after 4,slice_after 0,slice_field]

theorem slice_data : slice (r.body ++ rest) 33 r.data.length = r.data := by
  simp only [body,List.append_assoc]
  rw [slice_after 25,slice_after 17,slice_after 9,slice_after 8,slice_after 4,slice_after 0,
    slice_append_self]

end fields

theorem deserialize_serialize {r : LogRecord} (rest : Bytes) (h : r.Fits) :
    deserialize (r.serialize ++ rest) = .ok (r,r.serialize.length) := by
  rw [Fits,recordHeaderSize] at h
  have hl : (r.serialize ++ rest).length = 41 + r.data.length + rest.length := by
    rw [List.length_append,length_serialize]
  have ht : leNat (slice (r.serialize ++ rest) 0 4) = 41 + r.data.length := by
    rw [slice_totalLen,recordHeaderSize,leNat_leBytes_of_lt h]
  have hd : leNat (slice (r.body ++ rest) 29 4) = r.data.length := by
    rw [slice_dataLen,leNat_leBytes_of_lt (by omega)]
  have hb : slice (r.body ++ rest) 0 (41 + r.data.length - 8) = r.body := by
    have := slice_append_self r.body rest
    rwa [length_body,show 33 + r.data.length = 41 + r.data.length - 8 by omega] at this
  have hc : UInt32.ofNat (leNat (slice (r.serialize ++ rest) 4 4)) = crc32 r.body := by
    rw [slice_checksum,ofNat_leNat_uint32]
  have hs := slice_body r rest
  rw [deserialize,recordHeaderSize,if_neg (by omega)]
  simp only [ht,hc,hs 0,hb,hs 29,hd,hs 8,hs 16,hs 24,hs 25,hs 33]
  rw [if_neg (by omega),if_neg (by omega),if_neg (by simp),if_pos (by omega),length_serialize]
  simp only [slice_lsn,slice_txnId,slice_prevLsn,slice_recordType,slice_pageId,slice_data,
    ofNat_leNat_uint32,ofNat_leNat_uint64,leNat_leBytes_of_lt r.recordType.toByte_lt,
    LogRecordType.ofByte_toByte]

-- A cut inside a record leaves either no whole header or a total length past the end.
theorem deserialize_torn {r : LogRecord} {p q : Bytes} (h : r.Fits) (hp : p ++ q = r.serialize)
    (hq : q ≠ []) : ∃ msg, deserialize p = .error (.err (.walCorrupted msg)) := by
  rw [Fits,recordHeaderSize] at h
  have hlen : p.length + q.length = 41 + r.data.length := by
    rw [← length_serialize,← hp,List.length_append]
  have hq' : q.length ≠ 0 := fun e => hq (List.length_eq_zero_iff.mp e)
  rw [deserialize,recordHeaderSize]
  split_ifs with hs
  · exact ⟨_,rfl⟩
  · have ht : leNat (slice p 0 4) = 41 + r.data.length := by
      have hpre : slice p 0 4 = slice (p ++ q) 0 4 := (slice_append_left (by omega)).symm
      have hser : slice r.serialize 0 4 = leBytes 4 (recordHeaderSize + r.data.length) := by
        have := slice_totalLen r []
        rwa [List.append_nil] at this
      rw [hpre,hp,hser,recordHeaderSize,leNat_leBytes_of_lt h]
    simp only [ht]
    rw [if_pos (by omega)]
    exact ⟨_,rfl⟩

theorem deserialize_advances {buf : Bytes} {r : LogRecord} {n : Nat}
    (h : deserialize buf = .ok (r,n)) : 8 ≤ n := by
  simp only [deserialize] at h
  split_ifs at h
  cases h
  omega

theorem deserialize_ne_hang (buf : Bytes) : deserialize buf ≠ .error .hang := by
  simp only [deserialize]
  split_ifs <;> simp

theorem framing : Framing serialize deserialize Fits where
  advances h := by
    have := deserialize_advances h
    omega
  returns := deserialize_ne_hang
  empty := ⟨_,rfl⟩
  decode_encode := deserialize_serialize
  torn h hp hq := by
    obtain ⟨msg,hmsg⟩ := deserialize_torn h hp hq
    exact ⟨_,hmsg⟩

theorem pageWriteImages_pageWrite {lsn prevLsn : Lsn} {txnId : TxnId} {pageId : PageId}
    {beforeImage afterImage : Bytes} (h : beforeImage.length < 2 ^ 32) :
    pageWriteImages (pageWrite lsn txnId prevLsn pageId beforeImage afterImage) =
      .ok (some (beforeImage,afterImage)) := by
  have hd : (leBytes 4 beforeImage.length ++ (beforeImage ++ afterImage)).drop
      (4 + beforeImage.length) = afterImage := by
    simp [List.drop_append]
  have hl : leNat (leBytes 4 beforeImage.length) = beforeImage.length := leNat_leBytes_of_lt h
  rw [pageWriteImages,if_neg (by simp [pageWrite])]
  simp only [pageWrite,List.append_assoc,slice_field,hl,hd]
  rw [if_pos (by simp),slice_after 0,slice_append_self]

end LogRecord

end StorageDb
