import Mathlib.Tactic
import StorageDb.Lib.ShiftRegister
import StorageDb.Disk.Page

namespace StorageDb
open Bytes ShiftRegister

-- The bit by bit algorithm: reflected polynomial, initial value and final xor all ones.
def crc32Bitwise (data : Bytes) : UInt32 :=
  data.foldl (fun crc b => crcShifts 8 (crc ^^^ b.toUInt32)) 0xFFFFFFFF ^^^ 0xFFFFFFFF

def crcTaps : BitVec 32 := 0xEDB88320#32

theorem toBitVec_crcShift (c : UInt32) : (crcShift c).toBitVec = clock crcTaps c.toBitVec := by
  have hbit : (c &&& 1 ≠ 0) ↔ c.toBitVec.getLsbD 0 = true := by
    rw [ne_eq,← UInt32.toBitVec_inj,UInt32.toBitVec_and]
    simp only [UInt32.toBitVec_ofNat,BitVec.and_one_eq_setWidth_ofBool_getLsbD]
    cases c.toBitVec.getLsbD 0 <;> decide
  rw [crcShift,clock]
  split_ifs with h h' h'
  · rfl
  · exact absurd (hbit.mp h) h'
  · exact absurd (hbit.mpr h') h
  · change c.toBitVec >>> 1 = c.toBitVec >>> 1 ^^^ 0#32
    rw [BitVec.xor_zero]

theorem toBitVec_crcShifts (n : Nat) (c : UInt32) :
    (crcShifts n c).toBitVec = clocks crcTaps n c.toBitVec := by
  induction n generalizing c with
  | zero => rfl
  | succ n ih => rw [crcShifts,clocks,ih,toBitVec_crcShift]

theorem toBitVec_crcTable0 (i : UInt32) :
    (crcTable0 i).toBitVec = clocks crcTaps 8 i.toBitVec := toBitVec_crcShifts 8 i

theorem toBitVec_byte (c : UInt32) : (c &&& 0xFF).toBitVec = low 8 c.toBitVec := rfl

-- The step that makes a table from the one before shifts its entries by eight more bits.
theorem table_step (c : UInt32) :
    ((c >>> 8) ^^^ crcTable0 (c &&& 0xFF)).toBitVec = clocks crcTaps 8 c.toBitVec := by
  rw [UInt32.toBitVec_xor,toBitVec_crcTable0,toBitVec_byte,clocks_split crcTaps 8 c.toBitVec]
  rfl

theorem toBitVec_crcTable1 (i : UInt32) :
    (crcTable1 i).toBitVec = clocks crcTaps 16 i.toBitVec := by
  rw [crcTable1,table_step,toBitVec_crcTable0,← clocks_add]

theorem toBitVec_crcTable2 (i : UInt32) :
    (crcTable2 i).toBitVec = clocks crcTaps 24 i.toBitVec := by
  rw [crcTable2,table_step,toBitVec_crcTable1,← clocks_add]

theorem toBitVec_crcTable3 (i : UInt32) :
    (crcTable3 i).toBitVec = clocks crcTaps 32 i.toBitVec := by
  rw [crcTable3,table_step,toBitVec_crcTable2,← clocks_add]

theorem toBitVec_byteStep (crc : UInt32) (b : UInt8) :
    ((crc >>> 8) ^^^ crcTable0 ((crc ^^^ b.toUInt32) &&& 0xFF)).toBitVec =
      push crcTaps crc.toBitVec b := by
  have hhigh : crc >>> 8 = (crc ^^^ b.toUInt32) >>> 8 := by
    rw [UInt32.shiftRight_xor]
    have hb : b.toUInt32 >>> 8 = 0 := by
      apply UInt32.toNat_inj.mp
      have := b.toNat_lt
      simp only [UInt32.toNat_shiftRight,UInt8.toNat_toUInt32]
      exact Nat.shiftRight_eq_zero _ _ this
    rw [hb,UInt32.xor_zero]
  rw [hhigh,table_step]
  rfl

theorem toBitVec_crcTail (crc : UInt32) (bs : Bytes) :
    (crcTail crc bs).toBitVec = feed crcTaps crc.toBitVec bs := by
  induction bs generalizing crc with
  | nil => rfl
  | cons b bs ih =>
    rw [crcTail,ih,toBitVec_byteStep]
    rfl

-- The four tables shift the four bytes of a word by as many bits as each has above it.
theorem toBitVec_wordStep (w : UInt32) :
    (crcTable3 (w &&& 0xFF) ^^^ crcTable2 ((w >>> 8) &&& 0xFF) ^^^
      crcTable1 ((w >>> 16) &&& 0xFF) ^^^ crcTable0 ((w >>> 24) &&& 0xFF)).toBitVec =
        clocks crcTaps 32 w.toBitVec := by
  have hout : w.toBitVec >>> 8 >>> 8 >>> 8 >>> 8 = 0#32 := by
    rw [← BitVec.shiftRight_add,← BitVec.shiftRight_add,← BitVec.shiftRight_add]
    exact BitVec.ushiftRight_eq_zero (by decide)
  calc
    _ = clocks crcTaps 32 (low 8 w.toBitVec) ^^^ clocks crcTaps 24 (low 8 (w.toBitVec >>> 8)) ^^^
        clocks crcTaps 16 (low 8 (w.toBitVec >>> 16)) ^^^
          clocks crcTaps 8 (low 8 (w.toBitVec >>> 24)) := by
      simp only [UInt32.toBitVec_xor,toBitVec_crcTable0,toBitVec_crcTable1,toBitVec_crcTable2,
        toBitVec_crcTable3,toBitVec_byte]
      rfl
    _ = clocks crcTaps 32 w.toBitVec := by
      rw [clocks_peel crcTaps 8 24 w.toBitVec,clocks_peel crcTaps 8 16 (w.toBitVec >>> 8),
        clocks_peel crcTaps 8 8 (w.toBitVec >>> 8 >>> 8),
        clocks_split crcTaps 8 (w.toBitVec >>> 8 >>> 8 >>> 8),hout,BitVec.zero_xor]
      simp only [← BitVec.shiftRight_add,Nat.reduceAdd]
      ac_rfl

theorem toBitVec_crcChunks (crc : UInt32) (bs : Bytes) :
    (crcChunks crc bs).toBitVec = feed crcTaps crc.toBitVec bs := by
  fun_induction crcChunks crc bs with
  | case1 crc a b c d rest w ih =>
    rw [ih,toBitVec_wordStep]
    have hchunk : feed crcTaps crc.toBitVec [a,b,c,d] =
        clocks crcTaps (8 * [a,b,c,d].length) (crc.toBitVec ^^^ word 32 [a,b,c,d]) :=
      feed_eq crcTaps crc.toBitVec le_rfl
    exact congrArg (feed crcTaps · rest) hchunk.symm
  | case2 crc bs _ => exact toBitVec_crcTail crc bs

theorem toBitVec_crc32 (data : Bytes) :
    (crc32 data).toBitVec = feed crcTaps (BitVec.allOnes 32) data ^^^ BitVec.allOnes 32 := by
  rw [crc32,UInt32.toBitVec_xor,toBitVec_crcChunks]
  rfl

theorem crc32_bitwise (data : Bytes) : crc32 data = crc32Bitwise data := by
  have hfold (crc : UInt32) :
      (data.foldl (fun crc b => crcShifts 8 (crc ^^^ b.toUInt32)) crc).toBitVec =
      feed crcTaps crc.toBitVec data := by
    induction data generalizing crc with
    | nil => rfl
    | cons b bs ih =>
      rw [List.foldl_cons,ih,toBitVec_crcShifts]
      rfl
  apply UInt32.toBitVec_inj.mp
  rw [toBitVec_crc32,crc32Bitwise,UInt32.toBitVec_xor,hfold]
  rfl

structure LocalChange (off : Nat) (a b : Bytes) : Prop where
  length : b.length = a.length
  changed : a ≠ b
  outside : ∀ i, i < off ∨ off + 4 ≤ i → b[i]? = a[i]?

namespace LocalChange

variable {off : Nat} {a b : Bytes}

theorem drop {n : Nat} (h : LocalChange (n + off) a b) : LocalChange off (a.drop n) (b.drop n) where
  length := by rw [List.length_drop,List.length_drop,h.length]
  changed he := h.changed (by
    have htake : a.take n = b.take n := by
      apply List.ext_getElem?
      intro i
      rw [List.getElem?_take,List.getElem?_take]
      split_ifs with hi
      · exact (h.outside i (Or.inl (by omega))).symm
      · rfl
    rw [← List.take_append_drop n a,← List.take_append_drop n b,htake,he])
  outside i hi := by
    rw [List.getElem?_drop,List.getElem?_drop]
    exact h.outside (n + i) (by omega)

theorem slice_eq {i len : Nat} (h : LocalChange off a b) (hi : i + len ≤ off) :
    slice b i len = slice a i len := by
  apply List.ext_getElem?
  intro j
  rw [getElem?_slice,getElem?_slice]
  split_ifs with hj
  · exact h.outside (i + j) (Or.inl (by omega))
  · rfl

theorem split (h : LocalChange off a b) : ∃ pre u v post, a = pre ++ (u ++ post) ∧
    b = pre ++ (v ++ post) ∧ u.length ≤ 4 ∧ v.length = u.length ∧ u ≠ v := by
  have hpre : b.take off = a.take off := by
    have := h.slice_eq (i := 0) (Nat.zero_add off).le
    rwa [slice,slice,List.drop_zero,List.drop_zero] at this
  have hpost : b.drop (off + 4) = a.drop (off + 4) := by
    apply List.ext_getElem?
    intro i
    rw [List.getElem?_drop,List.getElem?_drop]
    exact h.outside _ (Or.inr (by omega))
  have hsplit (x : Bytes) : x = x.take off ++ (slice x off 4 ++ x.drop (off + 4)) := by
    rw [slice,← List.drop_drop,List.take_append_drop,List.take_append_drop]
  have hb := hsplit b
  rw [hpre,hpost] at hb
  refine ⟨_,_,_,_,hsplit a,hb,?_,?_,fun he => h.changed ?_⟩
  · exact List.length_take_le ..
  · rw [slice,slice,List.length_take,List.length_take,List.length_drop,List.length_drop,h.length]
  · rw [hsplit a,hb,he]

end LocalChange

theorem crc32_inj {a b : Bytes} : crc32 a = crc32 b ↔
    feed crcTaps (BitVec.allOnes 32) a = feed crcTaps (BitVec.allOnes 32) b := by
  rw [← UInt32.toBitVec_inj,toBitVec_crc32,toBitVec_crc32,BitVec.xor_left_inj]

theorem LocalChange.crc32_ne {off : Nat} {a b : Bytes} (h : LocalChange off a b) :
    crc32 b ≠ crc32 a := by
  obtain ⟨pre,u,v,post,rfl,rfl,hu,hv,hne⟩ := h.split
  rw [ne_eq,crc32_inj,feed_append crcTaps _ pre,feed_append crcTaps _ pre]
  have htop : crcTaps.getLsbD (32 - 1) = true := by decide
  exact feed_ne htop _ (by omega) hv.symm (Ne.symm hne) post

theorem exists_crc32 (pre : Bytes) (c : UInt32) :
    ∃ u : Bytes, u.length = 4 ∧ crc32 (pre ++ u) = c := by
  have htop : crcTaps.getLsbD (8 * 4 - 1) = true := by decide
  obtain ⟨u,hu,hfeed⟩ := exists_feed htop (feed crcTaps (BitVec.allOnes 32) pre)
    (c.toBitVec ^^^ BitVec.allOnes 32)
  refine ⟨u,hu,UInt32.toBitVec_inj.mp ?_⟩
  rw [toBitVec_crc32,feed_append]
  exact (congrArg (· ^^^ BitVec.allOnes 32) hfeed).trans (by
    rw [BitVec.xor_assoc,BitVec.xor_self,BitVec.xor_zero])

theorem LocalChange.verifyChecksum {p q : Page} {off : Nat}
    (h : LocalChange (16 + off) p.data q.data) (hv : p.verifyChecksum = true) :
    q.verifyChecksum = false := by
  have hstored : q.getChecksum = p.getChecksum := by
    rw [Page.getChecksum,Page.getChecksum,Page.field,Page.field,h.slice_eq (by omega)]
  have hne : q.computeChecksum ≠ p.computeChecksum := h.drop.crc32_ne
  rw [Page.verifyChecksum,beq_iff_eq] at hv
  rw [Page.verifyChecksum,hstored,hv]
  exact beq_false_of_ne hne.symm

end StorageDb
