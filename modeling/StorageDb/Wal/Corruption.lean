import Mathlib.Tactic
import StorageDb.Disk.Crc32
import StorageDb.Wal.RecordGrammar

namespace StorageDb
open Bytes

theorem LocalChange.set {a : Bytes} {i : Nat} {x y : UInt8} (h : a[i]? = some x) (hxy : y ≠ x) :
    LocalChange i a (a.set i y) where
  length := List.length_set
  changed he := by
    have hi := congrArg (fun l : Bytes => l[i]?) he
    have hlt := (List.getElem?_eq_some_iff.mp h).1
    simp only [List.getElem?_set_self hlt,h,Option.some.injEq] at hi
    exact hxy hi.symm
  outside j hj := List.getElem?_set_ne (by omega)

theorem LocalChange.splice {a u : Bytes} {i : Nat} (h : i + u.length ≤ a.length)
    (hu : u.length ≤ 4) (hne : a ≠ Bytes.splice a i u) : LocalChange i a (Bytes.splice a i u) where
  length := length_splice h
  changed := hne
  outside j hj := by
    rw [getElem?_splice h]
    split_ifs <;> first | rfl | omega

namespace LogRecord

variable {r : LogRecord} {buf : Bytes}

def DetectsChanges (r : LogRecord) : Prop :=
  ∀ off buf, LocalChange (8 + off) r.serialize buf →
    ∃ e a, deserialize buf = .error (.err (.checksumMismatch e a))

def wrappedLen (r : LogRecord) : Nat := (recordHeaderSize + r.data.length) % 2 ^ 32

theorem totalLen_serialize (r : LogRecord) : totalLen r.serialize = r.wrappedLen := by
  have h := slice_totalLen r []
  rw [List.append_nil] at h
  rw [totalLen,h,leNat_leBytes]
  rfl

theorem storedChecksum_serialize (r : LogRecord) : storedChecksum r.serialize = crc32 r.body := by
  have h := slice_checksum r []
  rw [List.append_nil] at h
  rw [storedChecksum,h,ofNat_leNat_uint32]

theorem drop_serialize (r : LogRecord) : r.serialize.drop 8 = r.body := by
  rw [serialize,← List.append_assoc]
  exact List.drop_left' (by simp)

section changed

variable {off : Nat} (h : LocalChange (8 + off) r.serialize buf)
include h

theorem totalLen_changed : totalLen buf = r.wrappedLen := by
  rw [totalLen,h.slice_eq (by omega)]
  exact totalLen_serialize r

theorem storedChecksum_changed : storedChecksum buf = crc32 r.body := by
  rw [storedChecksum,h.slice_eq (by omega)]
  exact storedChecksum_serialize r

theorem length_changed : buf.length = recordHeaderSize + r.data.length :=
  h.length.trans (length_serialize r)

theorem whole_changed : Whole buf := by
  rw [Whole,totalLen_changed h,length_changed h]
  exact ⟨Nat.le_add_right ..,Nat.mod_le ..⟩

theorem detected_iff : (∃ e a, deserialize buf = .error (.err (.checksumMismatch e a))) ↔
    8 ≤ r.wrappedLen ∧ crc32 (slice buf 8 (r.wrappedLen - 8)) ≠ crc32 r.body := by
  rw [deserialize_mismatch_iff,Matching,computedChecksum,storedChecksum_changed h,
    totalLen_changed h,and_iff_right (whole_changed h),eq_comm]

end changed

theorem Fits.detects (hf : r.Fits) : r.DetectsChanges := by
  intro off buf h
  have hlen := length_changed h
  have hw : r.wrappedLen = recordHeaderSize + r.data.length := Nat.mod_eq_of_lt hf
  refine (detected_iff h).mpr ⟨by rw [hw,recordHeaderSize]; omega,?_⟩
  have hslice : slice buf 8 (r.wrappedLen - 8) = buf.drop 8 :=
    List.take_of_length_le (by rw [List.length_drop,hlen,hw])
  rw [hslice,← drop_serialize]
  exact h.drop.crc32_ne

theorem DetectsChanges.covered (hd : r.DetectsChanges) (hf : ¬ r.Fits) :
    8 ≤ r.wrappedLen ∧ crc32 (r.body.take (r.wrappedLen - 8)) ≠ crc32 r.body := by
  have hbig : 2 ^ 32 ≤ recordHeaderSize + r.data.length := Nat.le_of_not_lt hf
  have hsmall : r.wrappedLen < 2 ^ 32 := Nat.mod_lt _ (by decide)
  have hlen : r.serialize.length = recordHeaderSize + r.data.length := length_serialize r
  obtain ⟨i,hi⟩ : ∃ i, 8 + i + 1 = r.serialize.length := ⟨r.serialize.length - 9,by omega⟩
  obtain ⟨x,hx⟩ : ∃ x, r.serialize[8 + i]? = some x :=
    ⟨_,List.getElem?_eq_getElem (by omega)⟩
  have hchange : LocalChange (8 + i) r.serialize (r.serialize.set (8 + i) (x + 1)) :=
    .set hx (by simp)
  obtain ⟨h8,hne⟩ := (detected_iff hchange).mp (hd i _ hchange)
  refine ⟨h8,?_⟩
  rw [hchange.slice_eq (by omega),slice,drop_serialize] at hne
  exact hne

theorem DetectsChanges.missed (hd : r.DetectsChanges) (hf : ¬ r.Fits) {k : Nat} {u : Bytes}
    (hu : u.length ≤ 4) (hk : k + u.length = r.wrappedLen - 8) :
    crc32 (r.body.take k ++ u) ≠ crc32 r.body := by
  obtain ⟨h8,hne⟩ := hd.covered hf
  have hbig : 2 ^ 32 ≤ recordHeaderSize + r.data.length := Nat.le_of_not_lt hf
  have hsmall : r.wrappedLen < 2 ^ 32 := Nat.mod_lt _ (by decide)
  have hlen : r.serialize.length = recordHeaderSize + r.data.length := length_serialize r
  have hin : 8 + k + u.length ≤ r.serialize.length := by omega
  have hcov : slice (splice r.serialize (8 + k) u) 8 (r.wrappedLen - 8) = r.body.take k ++ u := by
    rw [← hk,slice_append,slice_splice_disjoint hin (Or.inl le_rfl),slice_splice_same hin,slice,
      drop_serialize]
  by_cases hsame : r.serialize = splice r.serialize (8 + k) u
  · rw [← hsame,slice,drop_serialize] at hcov
    rwa [← hcov]
  · have hchange := LocalChange.splice hin hu hsame
    have := ((detected_iff hchange).mp (hd k _ hchange)).2
    rwa [hcov] at this

theorem detectsChanges_iff (r : LogRecord) : r.DetectsChanges ↔ r.Fits ∨
    8 ≤ r.wrappedLen ∧ r.wrappedLen < 12 ∧
      ∀ s : Bytes, s.length = r.wrappedLen - 8 → crc32 s ≠ crc32 r.body := by
  constructor
  · intro hd
    refine or_iff_not_imp_left.mpr fun hf => ?_
    have h8 := (hd.covered hf).1
    have h12 : r.wrappedLen < 12 := by
      by_contra hge
      obtain ⟨u,hu,hcrc⟩ := exists_crc32 (r.body.take (r.wrappedLen - 12)) (crc32 r.body)
      exact hd.missed hf hu.le (by omega) hcrc
    refine ⟨h8,h12,fun s hs => ?_⟩
    have := hd.missed hf (k := 0) (u := s) (by omega) (by omega)
    rwa [List.take_zero,List.nil_append] at this
  · rintro (hf | ⟨h8,-,hs⟩)
    · exact hf.detects
    · intro off buf h
      refine (detected_iff h).mpr ⟨h8,hs _ (length_slice ?_)⟩
      have := (whole_changed h).2
      rw [totalLen_changed h] at this
      omega

theorem local_change_detected (r : LogRecord) :
    (∀ off (a b : Bytes), LocalChange off a b → crc32 a ≠ crc32 b) ∧
      (r.DetectsChanges ↔ r.Fits ∨ 8 ≤ r.wrappedLen ∧ r.wrappedLen < 12 ∧
        ∀ s : Bytes, s.length = r.wrappedLen - 8 → crc32 s ≠ crc32 r.body) ∧
      ∀ off (p q : Page), p.verifyChecksum = true → LocalChange (16 + off) p.data q.data →
        q.verifyChecksum = false :=
  ⟨fun _ _ _ h => h.crc32_ne.symm,detectsChanges_iff r,fun _ _ _ hv h => h.verifyChecksum hv⟩

theorem local_change_detected_flip : crc32 [1,2,3,4,5,6,7] ≠ crc32 [1,2,3,9,5,0,7] ∧
    (begin 1 1).DetectsChanges := by
  obtain ⟨hbytes,hrecord,-⟩ := local_change_detected (begin 1 1)
  refine ⟨hbytes 2 _ _ ⟨rfl,by decide,fun i hi => ?_⟩,hrecord.mpr (Or.inl (by decide))⟩
  rcases hi with hi | hi
  · interval_cases i <;> rfl
  · obtain ⟨j,rfl⟩ : ∃ j, i = j + 6 := ⟨i - 6,by omega⟩
    rfl

-- The length field of a record of 2 ^ 32 bytes holds zero.
theorem huge_record_missed : ∃ (r : LogRecord) (buf : Bytes), r.data.length = 2 ^ 32 - 41 ∧
    LocalChange 8 r.serialize buf ∧ deserialize buf = .error .panic := by
  obtain ⟨r,hr⟩ : ∃ r : LogRecord, r.data.length = 2 ^ 32 - 41 :=
    ⟨⟨1,1,0,.pageWrite,0,List.replicate (2 ^ 32 - 41) 0⟩,List.length_replicate⟩
  have hzero : r.wrappedLen = 0 := by
    rw [wrappedLen,recordHeaderSize,hr]
    rfl
  obtain ⟨x,hx⟩ : ∃ x, r.serialize[8]? = some x :=
    ⟨_,List.getElem?_eq_getElem (by rw [length_serialize]; omega)⟩
  have hchange : LocalChange (8 + 0) r.serialize (r.serialize.set 8 (x + 1)) := .set hx (by simp)
  refine ⟨r,_,hr,hchange,deserialize_panic_iff.mpr ⟨whole_changed hchange,fun h8 => ?_⟩⟩
  rw [totalLen_changed hchange,hzero] at h8
  omega

end LogRecord

end StorageDb
