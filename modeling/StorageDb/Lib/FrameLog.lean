import Mathlib.Tactic
import StorageDb.Lib.Prog
import StorageDb.Lib.Bytes

namespace FrameLog

variable {ε α : Type}

abbrev Decoder (ε α : Type) := Bytes → Except (Fault ε) (α × Nat)

def readFrames (decode : Decoder ε α) : Nat → Bytes → Except (Fault ε) (List α)
  | _, [] => .ok []
  | 0, _ :: _ => .error .hang
  | fuel + 1, b :: bs =>
    match decode (b :: bs) with
    | .ok (a,n) => (readFrames decode fuel ((b :: bs).drop n)).map (a :: ·)
    | .error (.err _) => .ok []
    | .error f => .error f

def readAll (decode : Decoder ε α) (buf : Bytes) : Except (Fault ε) (List α) :=
  readFrames decode buf.length buf

-- What the reader accepts: frames up to the end or up to a rejected one.
inductive Reads (decode : Decoder ε α) : Bytes → List α → Prop where
  | done : Reads decode [] []
  | torn {buf : Bytes} {e : ε} (h : decode buf = .error (.err e)) : Reads decode buf []
  | frame {buf : Bytes} {a : α} {n : Nat} {as : List α} (h : decode buf = .ok (a,n))
      (rest : Reads decode (buf.drop n) as) : Reads decode buf (a :: as)

theorem Reads.head {decode : Decoder ε α} {buf : Bytes} {as : List α} {a : α}
    (h : Reads decode buf as) (ha : a ∈ as) : ∃ x n, decode buf = .ok (x,n) := by
  cases h with
  | done => cases ha
  | torn _ => cases ha
  | frame hd _ => exact ⟨_,_,hd⟩

structure Sane (decode : Decoder ε α) : Prop where
  advances : ∀ {buf a n}, decode buf = .ok (a,n) → 0 < n
  returns : ∀ buf, decode buf ≠ .error .hang
  empty : ∃ e, decode [] = .error (.err e)

section sane

variable {decode : Decoder ε α} (sane : Sane decode)
include sane

theorem length_drop_lt {buf : Bytes} {a : α} {n : Nat} (hd : decode buf = .ok (a,n)) :
    (buf.drop n).length < buf.length := by
  have hn := sane.advances hd
  obtain ⟨e,he⟩ := sane.empty
  have hb : buf.length ≠ 0 := by
    intro h
    rw [List.length_eq_zero_iff.mp h,he] at hd
    cases hd
  rw [List.length_drop]
  omega

theorem readFrames_fuel (buf : Bytes) {fuel fuel' : Nat} (h : buf.length ≤ fuel)
    (h' : buf.length ≤ fuel') : readFrames decode fuel buf = readFrames decode fuel' buf := by
  induction fuel generalizing buf fuel' with
  | zero =>
    have hb : buf = [] := List.length_eq_zero_iff.mp (by omega)
    subst hb
    cases fuel' <;> rfl
  | succ fuel ih =>
    cases buf with
    | nil => cases fuel' <;> rfl
    | cons b bs =>
      obtain ⟨k,rfl⟩ : ∃ k, fuel' = k + 1 := ⟨fuel' - 1,by rw [List.length_cons] at h'; omega⟩
      simp only [readFrames]
      rcases hd : decode (b :: bs) with f | ⟨a,n⟩
      · cases f <;> rfl
      · have hl := length_drop_lt sane hd
        rw [List.length_cons] at h h' hl
        dsimp only
        rw [ih ((b :: bs).drop n) (by omega) (show _ ≤ k by omega)]

theorem readFrames_ne_hang (buf : Bytes) {fuel : Nat} (h : buf.length ≤ fuel) :
    readFrames decode fuel buf ≠ .error .hang := by
  induction fuel generalizing buf with
  | zero =>
    have hb : buf = [] := List.length_eq_zero_iff.mp (by omega)
    subst hb
    simp [readFrames]
  | succ fuel ih =>
    cases buf with
    | nil => simp [readFrames]
    | cons b bs =>
      simp only [readFrames]
      rcases hd : decode (b :: bs) with f | ⟨a,n⟩
      · have := sane.returns (b :: bs)
        rw [hd] at this
        cases f <;> simp_all
      · have hl := length_drop_lt sane hd
        rw [List.length_cons] at h hl
        have hr := ih ((b :: bs).drop n) (by omega)
        dsimp only
        rcases hq : readFrames decode fuel ((b :: bs).drop n) with f | as
        · rw [hq] at hr
          exact hr
        · exact fun he => by cases he

theorem readAll_ne_hang (buf : Bytes) : readAll decode buf ≠ .error .hang :=
  readFrames_ne_hang sane buf le_rfl

omit sane in
theorem readFrames_ne_err {fuel : Nat} (buf : Bytes) (e : ε) :
    readFrames decode fuel buf ≠ .error (.err e) := by
  induction fuel generalizing buf with
  | zero => cases buf <;> simp [readFrames]
  | succ fuel ih =>
    cases buf with
    | nil => simp [readFrames]
    | cons b bs =>
      simp only [readFrames]
      rcases decode (b :: bs) with f | ⟨a,n⟩
      · cases f <;> simp
      · have hr := ih ((b :: bs).drop n)
        dsimp only
        rcases hq : readFrames decode fuel ((b :: bs).drop n) with f | as
        · rw [hq] at hr
          exact hr
        · exact fun he => by cases he

theorem exists_readAll {buf : Bytes} (h : readAll decode buf ≠ .error .panic) :
    ∃ as, readAll decode buf = .ok as := by
  cases hr : readAll decode buf with
  | ok as => exact ⟨as,rfl⟩
  | error f =>
    cases f with
    | err e => exact absurd hr (readFrames_ne_err buf e)
    | panic => exact absurd hr h
    | hang => exact absurd hr (readAll_ne_hang sane buf)

theorem readAll_ok {buf : Bytes} {a : α} {n : Nat} (hd : decode buf = .ok (a,n)) :
    readAll decode buf = (readAll decode (buf.drop n)).map (a :: ·) := by
  have hl := length_drop_lt sane hd
  cases buf with
  | nil => simp at hl
  | cons b bs =>
    rw [List.length_cons] at hl
    rw [readAll,List.length_cons]
    simp only [readFrames,hd]
    rw [readFrames_fuel sane _ (Nat.le_of_lt_succ hl) le_rfl,readAll]

omit sane in
theorem readAll_err {buf : Bytes} {e : ε} (hd : decode buf = .error (.err e)) :
    readAll decode buf = .ok [] := by
  cases buf with
  | nil => rfl
  | cons b bs =>
    rw [readAll,List.length_cons]
    simp only [readFrames,hd]

theorem readAll_of_reads {buf : Bytes} {as : List α} (h : Reads decode buf as) :
    readAll decode buf = .ok as := by
  induction h with
  | done => rfl
  | torn h => exact readAll_err h
  | frame h _ ih =>
    rw [readAll_ok sane h,ih]
    rfl

omit sane in
theorem reads_of_readFrames {fuel : Nat} {buf : Bytes} {as : List α}
    (h : readFrames decode fuel buf = .ok as) : Reads decode buf as := by
  induction fuel generalizing buf as with
  | zero =>
    cases buf with
    | nil =>
      cases h
      exact .done
    | cons b bs => cases h
  | succ fuel ih =>
    cases buf with
    | nil =>
      cases h
      exact .done
    | cons b bs =>
      simp only [readFrames] at h
      rcases hd : decode (b :: bs) with f | ⟨a,n⟩
      · rw [hd] at h
        cases f with
        | err e =>
          cases h
          exact .torn hd
        | panic => cases h
        | hang => cases h
      · rw [hd] at h
        rcases hr : readFrames decode fuel ((b :: bs).drop n) with f | as'
        · simp only [hr] at h
          cases h
        · simp only [hr] at h
          cases h
          exact .frame hd (ih hr)

theorem readAll_eq_ok {buf : Bytes} {as : List α} :
    readAll decode buf = .ok as ↔ Reads decode buf as :=
  ⟨reads_of_readFrames,readAll_of_reads sane⟩

end sane

structure Framing (encode : α → Bytes) (decode : Decoder ε α) (Fits : α → Prop) : Prop
    extends Sane decode where
  decode_encode : ∀ {a} rest, Fits a → decode (encode a ++ rest) = .ok (a,(encode a).length)
  torn : ∀ {a p q}, Fits a → p ++ q = encode a → q ≠ [] → ∃ e, decode p = .error (.err e)

namespace Framing

variable {encode : α → Bytes} {decode : Decoder ε α} {Fits : α → Prop}
  (fr : Framing encode decode Fits)
include fr

theorem readAll_append {as : List α} (h : ∀ a ∈ as, Fits a) (rest : Bytes) :
    readAll decode (as.flatMap encode ++ rest) = (readAll decode rest).map (as ++ ·) := by
  induction as with
  | nil => cases hr : readAll decode rest <;> simp [hr,Except.map]
  | cons a as ih =>
    have hd := fr.decode_encode (as.flatMap encode ++ rest) (h a List.mem_cons_self)
    rw [List.flatMap_cons,List.append_assoc,readAll_ok fr.toSane hd,List.drop_left,
      ih (fun b hb => h b (List.mem_cons_of_mem _ hb))]
    cases readAll decode rest <;> rfl

theorem readAll_torn {as : List α} (h : ∀ a ∈ as, Fits a) {a : α} {p q : Bytes} (ha : Fits a)
    (hp : p ++ q = encode a) (hq : q ≠ []) : readAll decode (as.flatMap encode ++ p) = .ok as := by
  obtain ⟨e,he⟩ := fr.torn ha hp hq
  rw [fr.readAll_append h,readAll_err he]
  exact congrArg Except.ok (List.append_nil as)

theorem readAll_frames {as : List α} (h : ∀ a ∈ as, Fits a) :
    readAll decode (as.flatMap encode) = .ok as := by
  have := fr.readAll_append h []
  rw [List.append_nil] at this
  rw [this]
  exact congrArg Except.ok (List.append_nil as)

theorem readAll_take {as : List α} (h : ∀ a ∈ as, Fits a) (n : Nat) :
    ∃ m, m ≤ as.length ∧ readAll decode ((as.flatMap encode).take n) = .ok (as.take m) ∧
      ∀ k, k ≤ as.length → ((as.take k).flatMap encode).length ≤ n → k ≤ m := by
  induction as generalizing n with
  | nil => exact ⟨0,le_rfl,by simp [readAll,readFrames],fun k hk _ => by simpa using hk⟩
  | cons a as ih =>
    have ha := h a List.mem_cons_self
    rw [List.flatMap_cons]
    by_cases hn : (encode a).length ≤ n
    · obtain ⟨m,hm,hr,hk⟩ := ih (fun b hb => h b (List.mem_cons_of_mem _ hb))
        (n - (encode a).length)
      refine ⟨m + 1,by simpa using hm,?_,?_⟩
      · rw [List.take_append,List.take_of_length_le hn,readAll_ok fr.toSane (fr.decode_encode _ ha),
          List.drop_left,hr]
        rfl
      · intro k hle hlen
        cases k with
        | zero => omega
        | succ k =>
          rw [List.take_succ_cons,List.flatMap_cons,List.length_append] at hlen
          have := hk k (by simpa using hle) (by omega)
          omega
    · refine ⟨0,by omega,?_,?_⟩
      · have hp : (encode a).take n ++ (encode a).drop n = encode a := List.take_append_drop _ _
        have hq : (encode a).drop n ≠ [] := by
          intro e
          have := congrArg List.length e
          rw [List.length_drop,List.length_nil] at this
          omega
        obtain ⟨e,he⟩ := fr.torn ha hp hq
        rw [List.take_append_of_le_length (by omega),readAll_err he]
        rfl
      · intro k hle hlen
        cases k with
        | zero => omega
        | succ k =>
          rw [List.take_succ_cons,List.flatMap_cons,List.length_append] at hlen
          omega

end Framing

end FrameLog
