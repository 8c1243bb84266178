import Mathlib.Tactic
import Mathlib.Data.List.Lex

abbrev Bytes := List UInt8

instance instLinearOrderUInt8 : LinearOrder UInt8 where
  le_refl := UInt8.le_refl
  le_trans _ _ _ := UInt8.le_trans
  lt_iff_le_not_ge a b := by
    rw [UInt8.lt_iff_toNat_lt,UInt8.le_iff_toNat_le,UInt8.le_iff_toNat_le]
    omega
  le_antisymm _ _ := UInt8.le_antisymm
  le_total := UInt8.le_total
  toDecidableLE := inferInstance
  toDecidableLT := inferInstance
  toDecidableEq := inferInstance

namespace Bytes

def slice (b : Bytes) (off len : Nat) : Bytes := (b.drop off).take len

def splice (b : Bytes) (off : Nat) (src : Bytes) : Bytes :=
  b.take off ++ (src ++ b.drop (off + src.length))

-- A file write: a gap before the offset reads as zeros, an empty write leaves the length alone.
def overwrite (b : Bytes) (off : Nat) (src : Bytes) : Bytes :=
  if src = [] then b else splice (b ++ List.replicate (off + src.length - b.length) 0) off src

theorem getElem?_slice (b : Bytes) (off len i : Nat) :
    (slice b off len)[i]? = if i < len then b[off + i]? else none := by
  simp only [slice,List.getElem?_take,List.getElem?_drop]

theorem getElem?_splice {b src : Bytes} {off : Nat} (h : off + src.length ≤ b.length) (i : Nat) :
    (splice b off src)[i]? =
      if i < off then b[i]? else if i < off + src.length then src[i - off]? else b[i]? := by
  have ht : (b.take off).length = off := by rw [List.length_take]; omega
  rw [splice,List.getElem?_append,ht]
  by_cases h1 : i < off
  · simp [h1]
  · rw [if_neg h1,if_neg h1,List.getElem?_append]
    by_cases h2 : i < off + src.length
    · rw [if_pos h2,if_pos (by omega)]
    · rw [if_neg h2,if_neg (by omega),List.getElem?_drop]
      congr 1
      omega

@[simp] theorem length_slice {b : Bytes} {off len : Nat} (h : off + len ≤ b.length) :
    (slice b off len).length = len := by
  simp only [slice,List.length_take,List.length_drop]
  omega

@[simp] theorem length_splice {b src : Bytes} {off : Nat} (h : off + src.length ≤ b.length) :
    (splice b off src).length = b.length := by
  simp only [splice,List.length_append,List.length_take,List.length_drop]
  omega

theorem slice_append (b : Bytes) (off m n : Nat) :
    slice b off (m + n) = slice b off m ++ slice b (off + m) n := by
  simp only [slice,List.take_add,List.drop_drop]

theorem slice_slice {b : Bytes} {off len i n : Nat} (h : i + n ≤ len) :
    slice (slice b off len) i n = slice b (off + i) n := by
  apply List.ext_getElem?
  intro j
  simp only [getElem?_slice]
  split_ifs <;> first | rfl | omega | (congr 1; omega)

theorem slice_splice_same {b src : Bytes} {off : Nat} (h : off + src.length ≤ b.length) :
    slice (splice b off src) off src.length = src := by
  apply List.ext_getElem?
  intro i
  rw [getElem?_slice]
  by_cases hi : i < src.length
  · rw [if_pos hi,getElem?_splice h,if_neg (by omega),if_pos (by omega)]
    congr 1
    omega
  · rw [if_neg hi,List.getElem?_eq_none (by omega)]

theorem slice_splice_disjoint {b src : Bytes} {off off' len : Nat}
    (h : off + src.length ≤ b.length) (hd : off' + len ≤ off ∨ off + src.length ≤ off') :
    slice (splice b off src) off' len = slice b off' len := by
  apply List.ext_getElem?
  intro i
  rw [getElem?_slice,getElem?_slice]
  by_cases hi : i < len
  · rw [if_pos hi,if_pos hi,getElem?_splice h]
    split_ifs <;> first | rfl | omega
  · rw [if_neg hi,if_neg hi]

theorem splice_adjacent {b s t : Bytes} {off : Nat} (h : off + s.length + t.length ≤ b.length) :
    splice (splice b off s) (off + s.length) t = splice b off (s ++ t) := by
  have h1 : off + s.length ≤ b.length := by omega
  have h2 : off + s.length + t.length ≤ (splice b off s).length := by rw [length_splice h1]; exact h
  have h3 : off + (s ++ t).length ≤ b.length := by rw [List.length_append]; omega
  apply List.ext_getElem?
  intro i
  rw [getElem?_splice h2,getElem?_splice h1,getElem?_splice h3,List.length_append,
    List.getElem?_append]
  split_ifs <;> first | rfl | omega | (congr 1; omega)

theorem overwrite_inside {b src : Bytes} {off : Nat} (h : off + src.length ≤ b.length) :
    overwrite b off src = splice b off src := by
  rw [overwrite,Nat.sub_eq_zero_of_le h,List.replicate_zero,List.append_nil]
  split_ifs with hs
  · subst hs
    simp [splice]
  · rfl

theorem overwrite_zero_past {b : Bytes} {n : Nat} (hn : 0 < n) :
    overwrite b (b.length + n - 1) [0] = b ++ List.replicate n 0 := by
  obtain ⟨m,rfl⟩ : ∃ m, n = m + 1 := ⟨n - 1,by omega⟩
  have hl : b.length + (m + 1) - 1 + [(0 : UInt8)].length - b.length = m + 1 := by
    simp only [List.length_singleton]
    omega
  have ht : b.length + (m + 1) - 1 = (b ++ List.replicate m 0).length := by simp
  have hs : b ++ List.replicate (m + 1) 0 = b ++ List.replicate m 0 ++ [0] := by
    rw [List.replicate_succ',List.append_assoc]
  rw [overwrite,if_neg (by simp),hl,hs,splice,ht,List.take_left]
  simp [Nat.add_assoc]

theorem overwrite_end (b src : Bytes) : overwrite b b.length src = b ++ src := by
  rw [overwrite]
  split_ifs with h
  · rw [h,List.append_nil]
  · simp [splice]

theorem overwrite_take {full : Bytes} {k off : Nat} (n : Nat) (hk : k ≤ full.length)
    (ho : off ≤ k) : overwrite (full.take k) off ((full.drop off).take n) =
      full.take (max k (min (off + n) full.length)) := by
  have hsrc : ((full.drop off).take n).length = min (off + n) full.length - off := by
    rw [List.length_take,List.length_drop]
    omega
  have htk : (full.take k).length = k := by rw [List.length_take]; omega
  rw [overwrite]
  split_ifs with hs
  · have := congrArg List.length hs
    rw [hsrc,List.length_nil] at this
    congr 1
    omega
  · have hpos : ((full.drop off).take n).length ≠ 0 := fun e => hs (List.length_eq_zero_iff.mp e)
    have hb : off + ((full.drop off).take n).length ≤ (full.take k ++
        List.replicate (off + ((full.drop off).take n).length -
          (full.take k).length) 0).length := by
      rw [List.length_append,List.length_replicate]
      omega
    apply List.ext_getElem?
    intro i
    rw [getElem?_splice hb,List.getElem?_take,List.getElem?_append,htk,List.getElem?_take,
      List.getElem?_take,List.getElem?_drop,List.getElem?_replicate,hsrc]
    rw [hsrc] at hpos
    split_ifs <;> first | rfl | omega | (congr 1; omega)

theorem slice_append_left {b c : Bytes} {off len : Nat} (h : off + len ≤ b.length) :
    slice (b ++ c) off len = slice b off len := by
  apply List.ext_getElem?
  intro i
  simp only [getElem?_slice]
  split_ifs with hi
  · rw [List.getElem?_append_left (by omega)]
  · rfl

theorem slice_append_right (b c : Bytes) (i len : Nat) :
    slice (b ++ c) (b.length + i) len = slice c i len := by
  rw [slice,slice,List.drop_length_add_append]

theorem slice_append_self (b c : Bytes) : slice (b ++ c) 0 b.length = b := by
  rw [slice,List.drop_zero,List.take_left]

theorem splice_append_left {b c src : Bytes} {off : Nat} (h : off + src.length ≤ b.length) :
    splice (b ++ c) off src = splice b off src ++ c := by
  rw [splice,splice,List.take_append_of_le_length (by omega),List.drop_append_of_le_length h,
    List.append_assoc,List.append_assoc]

def leNat : Bytes → Nat
  | [] => 0
  | b :: bs => b.toNat + 256 * leNat bs

def leBytes : Nat → Nat → Bytes
  | 0, _ => []
  | w + 1, n => UInt8.ofNat n :: leBytes w (n / 256)

@[simp] theorem length_leBytes (w n : Nat) : (leBytes w n).length = w := by
  induction w generalizing n with
  | zero => rfl
  | succ w ih => simp [leBytes,ih]

theorem leNat_lt (bs : Bytes) : leNat bs < 256 ^ bs.length := by
  induction bs with
  | nil => simp [leNat]
  | cons b bs ih =>
    have hb := UInt8.toNat_lt b
    rw [leNat,List.length_cons,pow_succ]
    omega

@[simp] theorem leNat_leBytes (w n : Nat) : leNat (leBytes w n) = n % 256 ^ w := by
  induction w generalizing n with
  | zero => simp [leBytes,leNat,Nat.mod_one]
  | succ w ih =>
    rw [leBytes,leNat,ih,pow_succ,mul_comm (256 ^ w) 256,Nat.mod_mul,UInt8.toNat_ofNat']

theorem leNat_leBytes_of_lt {w n : Nat} (h : n < 256 ^ w) : leNat (leBytes w n) = n := by
  rw [leNat_leBytes,Nat.mod_eq_of_lt h]

@[simp] theorem ofNat_leNat_uint32 (x : UInt32) : UInt32.ofNat (leNat (leBytes 4 x.toNat)) = x := by
  rw [leNat_leBytes_of_lt x.toNat_lt,UInt32.ofNat_toNat]

@[simp] theorem ofNat_leNat_uint64 (x : UInt64) : UInt64.ofNat (leNat (leBytes 8 x.toNat)) = x := by
  rw [leNat_leBytes_of_lt x.toNat_lt,UInt64.ofNat_toNat]

theorem leBytes_leNat (bs : Bytes) : leBytes bs.length (leNat bs) = bs := by
  induction bs with
  | nil => rfl
  | cons b bs ih =>
    have hb := UInt8.toNat_lt b
    have hd : (b.toNat + 256 * leNat bs) / 256 = leNat bs := by omega
    have hm : UInt8.ofNat (b.toNat + 256 * leNat bs) = b := by
      apply UInt8.toNat_inj.mp
      rw [UInt8.toNat_ofNat']
      omega
    rw [List.length_cons,leBytes,leNat,hd,ih,hm]

end Bytes
