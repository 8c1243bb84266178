import Mathlib.Tactic

namespace Bisect

def bisect (probe : Nat → Option Ordering) : Nat → Nat → Nat → Option (Nat × Bool)
  | 0, lo, _ => some (lo,false)
  | fuel + 1, lo, hi =>
    if lo < hi then
      match probe ((lo + hi) / 2) with
      | none => none
      | some .lt => bisect probe fuel ((lo + hi) / 2 + 1) hi
      | some .gt => bisect probe fuel lo ((lo + hi) / 2)
      | some .eq => some ((lo + hi) / 2,true)
    else some (lo,false)

structure Cut (probe : Nat → Option Ordering) (lo hi a b : Nat) : Prop where
  below : ∀ i, lo ≤ i → i < a → probe i = some .lt
  inside : ∀ i, a ≤ i → i < b → probe i = some .eq
  above : ∀ i, b ≤ i → i < hi → probe i = some .gt
  low : lo ≤ a
  mid : a ≤ b
  high : b ≤ hi

theorem bisect_cut {probe : Nat → Option Ordering} {fuel lo hi a b : Nat}
    (hf : hi - lo ≤ fuel) (h : Cut probe lo hi a b) :
    (a = b ∧ bisect probe fuel lo hi = some (a,false)) ∨
      ∃ m, a ≤ m ∧ m < b ∧ bisect probe fuel lo hi = some (m,true) := by
  induction fuel generalizing lo hi with
  | zero =>
    have hl := h.low; have hm := h.mid; have hh := h.high
    refine Or.inl ⟨by omega,?_⟩
    rw [bisect]
    congr 2
    omega
  | succ fuel ih =>
    have hl := h.low; have hm := h.mid; have hh := h.high
    rw [bisect]
    by_cases hlt : lo < hi
    · rw [if_pos hlt]
      set mid := (lo + hi) / 2 with hmid
      rcases Nat.lt_or_ge mid a with hc | hc
      · -- the probe lies left of the cut: the upper half keeps it
        rw [h.below mid (by omega) hc]
        exact ih (by omega) ⟨fun i h1 h2 => h.below i (by omega) h2,h.inside,h.above,
          by omega,hm,hh⟩
      · rcases Nat.lt_or_ge mid b with hb | hb
        · rw [h.inside mid hc hb]
          exact Or.inr ⟨mid,hc,hb,rfl⟩
        · rw [h.above mid hb (by omega)]
          exact ih (by omega) ⟨h.below,h.inside,fun i h1 h2 => h.above i h1 (by omega),
            hl,hm,hb⟩
    · rw [if_neg hlt]
      refine Or.inl ⟨by omega,?_⟩
      congr 2
      omega

theorem bisect_insertion {probe : Nat → Option Ordering} {fuel n a : Nat}
    (hf : n ≤ fuel) (hlt : ∀ i, i < a → probe i = some .lt)
    (hgt : ∀ i, a ≤ i → i < n → probe i = some .gt) (ha : a ≤ n) :
    bisect probe fuel 0 n = some (a,false) := by
  have hc : Cut probe 0 n a a := ⟨fun i _ h => hlt i h,by omega,hgt,by omega,le_rfl,ha⟩
  rcases bisect_cut (by omega) hc with ⟨_,h⟩ | ⟨m,h1,h2,_⟩
  · exact h
  · omega

theorem bisect_hit {probe : Nat → Option Ordering} {fuel n a : Nat}
    (hf : n ≤ fuel) (hlt : ∀ i, i < a → probe i = some .lt) (heq : probe a = some .eq)
    (hgt : ∀ i, a < i → i < n → probe i = some .gt) (ha : a < n) :
    bisect probe fuel 0 n = some (a,true) := by
  have hc : Cut probe 0 n a (a + 1) := by
    refine ⟨fun i _ h => hlt i h,?_,fun i h1 h2 => hgt i (by omega) h2,by omega,by omega,ha⟩
    intro i h1 h2
    rwa [show i = a by omega]
  rcases bisect_cut (by omega) hc with ⟨h,_⟩ | ⟨m,h1,h2,h⟩
  · omega
  · rw [h,show m = a by omega]

-- The search of a slice without early exit: the candidate moves by halves whatever the comparison
-- says, and only the comparison with the last candidate tells a hit from a miss.
section slice

variable {α : Type} (f : α → Ordering) (xs : List α)

def candidate : Nat → Nat → Nat → Nat
  | 0, base, _ => base
  | fuel + 1, base, size =>
    if 1 < size then
      candidate fuel (if xs[base + size / 2]?.map f = some .gt then base else base + size / 2)
        (size - size / 2)
    else base

def binarySearchBy : Except Nat Nat :=
  let base := candidate f xs xs.length 0 xs.length
  match xs[base]?.map f with
  | none => .error 0
  | some .eq => .ok base
  | some .lt => .error (base + 1)
  | some .gt => .error base

def insertionPoint : Nat :=
  match binarySearchBy f xs with
  | .ok i => i
  | .error i => i

variable {f : α → Ordering} {xs : List α}

theorem candidate_eq {b fuel base size : Nat} (hf : size ≤ fuel) (hb : base < b ∨ base = 0)
    (hs : b ≤ base + size) (hn : base + size ≤ xs.length)
    (hle : ∀ i x, i < b → xs[i]? = some x → f x ≠ .gt)
    (hgt : ∀ i x, b ≤ i → xs[i]? = some x → f x = .gt) :
    candidate f xs fuel base size = b - 1 := by
  induction fuel generalizing base size with
  | zero =>
    rw [candidate]
    omega
  | succ fuel ih =>
    rw [candidate]
    by_cases h1 : 1 < size
    · rw [if_pos h1]
      have hmid := List.getElem?_eq_getElem (show base + size / 2 < xs.length by omega)
      rcases Nat.lt_or_ge (base + size / 2) b with hc | hc
      · rw [if_neg (by simpa [hmid] using hle _ _ hc hmid)]
        exact ih (by omega) (Or.inl hc) (by omega) (by omega)
      · rw [if_pos (by simpa [hmid] using hgt _ _ hc hmid)]
        exact ih (by omega) hb (by omega) (by omega)
    · rw [if_neg h1]
      omega

theorem insertionPoint_eq {a : Nat} (ha : a ≤ xs.length)
    (hlt : ∀ i x, i < a → xs[i]? = some x → f x = .lt)
    (hat : ∀ x, xs[a]? = some x → f x ≠ .lt)
    (hgt : ∀ i x, a < i → xs[i]? = some x → f x = .gt) : insertionPoint f xs = a := by
  by_cases hit : xs[a]?.map f = some .eq
  · obtain ⟨x,hx,hfx⟩ := Option.map_eq_some_iff.mp hit
    have hc : candidate f xs xs.length 0 xs.length = a := by
      refine candidate_eq (b := a + 1) le_rfl (Or.inr rfl) ?_ (by omega) ?_
        (fun i y hi => hgt i y hi)
      · have := (List.getElem?_eq_some_iff.mp hx).1
        omega
      · intro i y hi hy
        rcases Nat.lt_or_ge i a with h | h
        · rw [hlt i y h hy]
          decide
        · obtain rfl : i = a := by omega
          rw [Option.some.inj (hy.symm.trans hx),hfx]
          decide
    simp only [insertionPoint,binarySearchBy,hc,hit]
  · -- a miss: the last candidate is the element before the gap, or the first one
    have habove (i : Nat) (x : α) (hi : a ≤ i) (hx : xs[i]? = some x) : f x = .gt := by
      rcases Nat.eq_or_lt_of_le hi with rfl | h
      · have h1 := hat x hx
        have h2 : f x ≠ .eq := fun e => hit (by rw [hx,Option.map_some,e])
        cases hfx : f x <;> simp_all
      · exact hgt i x h hx
    have hc : candidate f xs xs.length 0 xs.length = a - 1 :=
      candidate_eq le_rfl (Or.inr rfl) (by omega) (by omega)
        (fun i x hi hx => by rw [hlt i x hi hx]; decide) habove
    cases a with
    | zero =>
      cases h0 : xs[0]? with
      | none => simp [insertionPoint,binarySearchBy,hc,h0]
      | some x => simp [insertionPoint,binarySearchBy,hc,h0,habove 0 x le_rfl h0]
    | succ a =>
      have hx := List.getElem?_eq_getElem (show a < xs.length by omega)
      simp [insertionPoint,binarySearchBy,hc,hx,hlt a _ (by omega) hx]

end slice

end Bisect
