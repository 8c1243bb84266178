import Mathlib.Tactic

-- Updates that may be applied again, from the start, after any part of them has been applied.
namespace Restart

variable {ι α : Type} (f : ι → α → α)

def applyAll (l : List ι) (a : α) : α := l.foldl (fun a i => f i a) a

-- What i did before j is lost once i has been applied after j.
structure Absorbing : Prop where
  idem : ∀ i a, f i (f i a) = f i a
  absorb : ∀ i j a, f i (f j (f i a)) = f i (f j a)

variable {f} {l m : List ι} {a : α}

@[simp] theorem applyAll_cons (i : ι) : applyAll f (i :: l) a = applyAll f l (f i a) := rfl

theorem applyAll_append : applyAll f (l ++ m) a = applyAll f m (applyAll f l a) :=
  List.foldl_append ..

theorem Absorbing.applyAll_of_mem (h : Absorbing f) {i : ι} (hi : i ∈ l) (a : α) :
    applyAll f l (f i a) = applyAll f l a := by
  induction l generalizing a with
  | nil => cases hi
  | cons j l ih =>
    rw [applyAll_cons,applyAll_cons]
    rcases List.mem_cons.mp hi with rfl | hi
    · rw [h.idem]
    · rw [← ih hi,h.absorb,ih hi]

theorem Absorbing.restart (h : Absorbing f) (hm : ∀ i ∈ m, i ∈ l) (a : α) :
    applyAll f l (applyAll f m a) = applyAll f l a := by
  induction m generalizing a with
  | nil => rfl
  | cons i m ih =>
    rw [applyAll_cons,ih (fun j hj => hm j (List.mem_cons_of_mem _ hj)),
      h.applyAll_of_mem (hm i List.mem_cons_self)]

end Restart
