import Mathlib.Tactic
import StorageDb.Lib.Bytes

-- A linear feedback shift register of width w that is fed from the low end. The taps are the mask
-- that a bit leaving the register is fed back through.
namespace ShiftRegister
open Bytes

variable {w : Nat} {taps x y : BitVec w}

def clock (taps x : BitVec w) : BitVec w := (x >>> 1) ^^^ (if x.getLsbD 0 then taps else 0)

def clocks (taps : BitVec w) : Nat → BitVec w → BitVec w
  | 0, x => x
  | n + 1, x => clocks taps n (clock taps x)

theorem clock_xor (taps x y : BitVec w) :
    clock taps (x ^^^ y) = clock taps x ^^^ clock taps y := by
  simp only [clock,BitVec.getLsbD_xor,BitVec.ushiftRight_xor_distrib]
  have hswap (a b c : BitVec w) : a ^^^ b ^^^ c = a ^^^ c ^^^ b := by
    rw [BitVec.xor_assoc,BitVec.xor_comm b c,BitVec.xor_assoc]
  have hcancel (a b c : BitVec w) : a ^^^ c ^^^ (b ^^^ c) = a ^^^ b := by
    rw [BitVec.xor_assoc,BitVec.xor_comm b c,← BitVec.xor_assoc c c b,BitVec.xor_self,
      BitVec.zero_xor]
  cases x.getLsbD 0 <;> cases y.getLsbD 0
  · simp
  · simp [BitVec.xor_assoc]
  · simp [hswap]
  · simp [hcancel]

theorem clocks_xor (taps : BitVec w) (n : Nat) (x y : BitVec w) :
    clocks taps n (x ^^^ y) = clocks taps n x ^^^ clocks taps n y := by
  induction n generalizing x y with
  | zero => rfl
  | succ n ih => rw [clocks,clocks,clocks,clock_xor,ih]

theorem clocks_add (taps : BitVec w) (m n : Nat) (x : BitVec w) :
    clocks taps (m + n) x = clocks taps n (clocks taps m x) := by
  induction m generalizing x with
  | zero => rw [Nat.zero_add,clocks]
  | succ m ih => rw [Nat.succ_add,clocks,clocks,ih]

theorem clocks_of_low {k : Nat} (h : ∀ i < k, x.getLsbD i = false) : clocks taps k x = x >>> k := by
  induction k generalizing x with
  | zero => rw [clocks,BitVec.ushiftRight_zero]
  | succ k ih =>
    have hstep : clock taps x = x >>> 1 := by
      rw [clock,h 0 (Nat.succ_pos k)]
      simp
    have hrest : ∀ i < k, (x >>> 1).getLsbD i = false := by
      intro i hi
      rw [BitVec.getLsbD_ushiftRight]
      exact h (1 + i) (by omega)
    rw [clocks,hstep,ih hrest,← BitVec.shiftRight_add,Nat.add_comm]

def low (k : Nat) (x : BitVec w) : BitVec w := x &&& BitVec.ofNat w (2 ^ k - 1)

theorem getLsbD_low (k : Nat) (x : BitVec w) (i : Nat) :
    (low k x).getLsbD i = (x.getLsbD i && decide (i < k)) := by
  rw [low,BitVec.getLsbD_and,BitVec.getLsbD_ofNat,Nat.testBit_two_pow_sub_one]
  by_cases hi : i < w
  · simp [hi]
  · simp [BitVec.getLsbD_of_ge x i (by omega)]

theorem clocks_split (taps : BitVec w) (k : Nat) (x : BitVec w) :
    clocks taps k x = (x >>> k) ^^^ clocks taps k (low k x) := by
  have hsum : x = (x ^^^ low k x) ^^^ low k x := by
    rw [BitVec.xor_assoc,BitVec.xor_self,BitVec.xor_zero]
  have hlow : ∀ i < k, (x ^^^ low k x).getLsbD i = false := by
    intro i hi
    rw [BitVec.getLsbD_xor,getLsbD_low,decide_eq_true hi,Bool.and_true,Bool.xor_self]
  have hhigh : (x ^^^ low k x) >>> k = x >>> k := by
    refine BitVec.eq_of_getLsbD_eq fun i hi => ?_
    rw [BitVec.getLsbD_ushiftRight,BitVec.getLsbD_ushiftRight,BitVec.getLsbD_xor,getLsbD_low,
      decide_eq_false (by omega),Bool.and_false,Bool.xor_false]
  conv_lhs => rw [hsum]
  rw [clocks_xor,clocks_of_low hlow,hhigh]

theorem clocks_peel (taps : BitVec w) (k n : Nat) (x : BitVec w) :
    clocks taps (k + n) x = clocks taps n (x >>> k) ^^^ clocks taps (k + n) (low k x) := by
  rw [clocks_add,clocks_split taps k x,clocks_xor,clocks_add taps k n (low k x)]

theorem clock_injective (h : taps.getLsbD (w - 1) = true) : Function.Injective (clock taps) := by
  intro x y hxy
  have hw : 0 < w := by
    by_contra hw
    rw [BitVec.getLsbD_of_ge taps _ (by omega)] at h
    cases h
  -- the bit that left is the new top bit
  have htop (z : BitVec w) : (clock taps z).getLsbD (w - 1) = z.getLsbD 0 := by
    rw [clock,BitVec.getLsbD_xor,BitVec.getLsbD_ushiftRight,
      BitVec.getLsbD_of_ge z _ (by omega),Bool.false_xor]
    cases z.getLsbD 0 <;> simp [h]
  have h0 : x.getLsbD 0 = y.getLsbD 0 := by rw [← htop x,← htop y,hxy]
  have hshift : x >>> 1 = y >>> 1 := by
    rw [clock,clock,h0] at hxy
    exact BitVec.xor_left_inj _ |>.mp hxy
  refine BitVec.eq_of_getLsbD_eq fun i hi => ?_
  cases i with
  | zero => exact h0
  | succ i =>
    have hi := congrArg (fun z => BitVec.getLsbD z i) hshift
    simp only [BitVec.getLsbD_ushiftRight] at hi
    rwa [Nat.add_comm] at hi

theorem clocks_injective (h : taps.getLsbD (w - 1) = true) (n : Nat) :
    Function.Injective (clocks taps n) := by
  induction n with
  | zero => exact fun _ _ h => h
  | succ n ih => exact ih.comp (clock_injective h)

-- One byte: it is added to the low end and pushed out of the register.
def push (taps s : BitVec w) (b : UInt8) : BitVec w := clocks taps 8 (s ^^^ b.toBitVec.setWidth w)

def feed (taps s : BitVec w) (bs : Bytes) : BitVec w := bs.foldl (push taps) s

theorem feed_append (taps s : BitVec w) (bs cs : Bytes) :
    feed taps s (bs ++ cs) = feed taps (feed taps s bs) cs := List.foldl_append

theorem feed_injective (h : taps.getLsbD (w - 1) = true) (bs : Bytes) :
    Function.Injective (feed taps · bs) := by
  induction bs with
  | nil => exact fun _ _ e => e
  | cons b bs ih =>
    intro s t hst
    exact (BitVec.xor_left_inj _).mp (clocks_injective h 8 (ih hst))

def word (w : Nat) (bs : Bytes) : BitVec w := BitVec.ofNat w (leNat bs)

theorem word_cons (w : Nat) (b : UInt8) (bs : Bytes) :
    word w (b :: bs) = b.toBitVec.setWidth w ^^^ (word w bs <<< 8) := by
  refine BitVec.eq_of_getLsbD_eq fun i hi => ?_
  have hbit : (leNat (b :: bs)).testBit i =
      if i < 8 then b.toNat.testBit i else (leNat bs).testBit (i - 8) := by
    rw [leNat,Nat.add_comm]
    exact Nat.testBit_two_pow_mul_add _ b.toNat_lt i
  rw [word,word,BitVec.getLsbD_ofNat,hbit,BitVec.getLsbD_xor,BitVec.getLsbD_setWidth,
    BitVec.getLsbD_shiftLeft,BitVec.getLsbD_ofNat]
  by_cases h8 : i < 8
  · simp [h8,hi,BitVec.getLsbD]
  · simp [h8,hi,BitVec.getLsbD_of_ge b.toBitVec i (by omega),show i - 8 < w by omega]

theorem clocks_word {bs : Bytes} (taps : BitVec w) (h : 8 * (bs.length + 1) ≤ w) :
    clocks taps 8 (word w bs <<< 8) = word w bs := by
  have hlow : ∀ i < 8, (word w bs <<< 8).getLsbD i = false := by
    intro i hi
    simp [hi]
  have hlt : leNat bs < 2 ^ (8 * bs.length) := by
    have := leNat_lt bs
    rwa [show 256 = 2 ^ 8 from rfl,← pow_mul] at this
  rw [clocks_of_low hlow]
  refine BitVec.eq_of_getLsbD_eq fun i hi => ?_
  rw [BitVec.getLsbD_ushiftRight,BitVec.getLsbD_shiftLeft,Nat.add_sub_cancel_left]
  by_cases hw : 8 + i < w
  · simp [hw]
  · have hbit : (leNat bs).testBit i = false :=
      Nat.testBit_lt_two_pow (hlt.trans_le (Nat.pow_le_pow_right (by decide) (by omega)))
    simp [hw,word,BitVec.getLsbD_ofNat,hbit]

theorem feed_eq {bs : Bytes} (taps s : BitVec w) (h : 8 * bs.length ≤ w) :
    feed taps s bs = clocks taps (8 * bs.length) (s ^^^ word w bs) := by
  induction bs generalizing s with
  | nil =>
    rw [word,leNat,show BitVec.ofNat w 0 = 0#w from rfl,BitVec.xor_zero]
    rfl
  | cons b bs ih =>
    rw [List.length_cons] at h
    change feed taps (push taps s b) bs = _
    rw [ih _ (by omega),push,← clocks_word taps h,← clocks_xor,← clocks_add,BitVec.xor_assoc,
      ← word_cons,List.length_cons,Nat.mul_add,Nat.add_comm]

theorem word_injective {bs cs : Bytes} (hb : 8 * bs.length ≤ w) (hc : cs.length = bs.length)
    (h : word w bs = word w cs) : bs = cs := by
  have hlt (xs : Bytes) (hx : 8 * xs.length ≤ w) : leNat xs < 2 ^ w := by
    have := leNat_lt xs
    rw [show 256 = 2 ^ 8 from rfl,← pow_mul] at this
    exact this.trans_le (Nat.pow_le_pow_right (by decide) hx)
  have hn := congrArg BitVec.toNat h
  rw [word,word,BitVec.toNat_ofNat,BitVec.toNat_ofNat,Nat.mod_eq_of_lt (hlt bs hb),
    Nat.mod_eq_of_lt (hlt cs (by omega))] at hn
  rw [← leBytes_leNat bs,← leBytes_leNat cs,hn,hc]

theorem feed_ne {bs cs : Bytes} (h : taps.getLsbD (w - 1) = true) (s : BitVec w)
    (hb : 8 * bs.length ≤ w) (hc : cs.length = bs.length) (hne : bs ≠ cs) (rest : Bytes) :
    feed taps s (bs ++ rest) ≠ feed taps s (cs ++ rest) := by
  intro he
  rw [feed_append,feed_append] at he
  have hst := feed_injective h rest he
  rw [feed_eq taps s hb,feed_eq taps s (by omega),hc] at hst
  exact hne (word_injective hb hc ((BitVec.xor_right_inj _).mp (clocks_injective h _ hst)))

theorem exists_feed {n : Nat} {taps : BitVec (8 * n)} (h : taps.getLsbD (8 * n - 1) = true)
    (s t : BitVec (8 * n)) : ∃ bs, bs.length = n ∧ feed taps s bs = t := by
  have hfin : Finite (BitVec (8 * n)) :=
    Finite.of_injective BitVec.toFin fun x y e => BitVec.eq_of_toFin_eq e
  obtain ⟨x,hx⟩ := Finite.surjective_of_injective (clocks_injective h (8 * n)) t
  refine ⟨leBytes n (s ^^^ x).toNat,length_leBytes ..,?_⟩
  have hword : word (8 * n) (leBytes n (s ^^^ x).toNat) = s ^^^ x := by
    rw [word,leNat_leBytes_of_lt,BitVec.ofNat_toNat,BitVec.setWidth_eq]
    rw [show 256 = 2 ^ 8 from rfl,← pow_mul]
    exact (s ^^^ x).isLt
  rw [feed_eq taps s (by rw [length_leBytes]),hword,length_leBytes,← BitVec.xor_assoc,
    BitVec.xor_self,BitVec.zero_xor,hx]

end ShiftRegister
