import Mathlib.Tactic
import StorageDb.Lib.Prog

namespace Prog

variable {ε σ φ α β : Type}

-- A program over a state whose system calls follow a schedule, set by arm. From s it makes n calls.
-- When the schedule spares them the run is the one that a calm state has; else it ends in an error
-- and the state meets Q.
structure WeathersFor (arm : List (Option φ) → σ → σ) (Q : σ → Prop) (n : Nat) (m : Prog ε σ α)
    (s : σ) : Prop where
  calm : ∀ fs, (∀ x ∈ fs.take n, x = none) → m (arm fs s) = ((m s).1,arm (fs.drop n) (m s).2)
  struck : ∀ fs, (∃ x ∈ fs.take n, x ≠ none) →
    ∃ e fs' s', m (arm fs s) = (.error (.err e),arm fs' s') ∧ Q s'

def Weathers (arm : List (Option φ) → σ → σ) (Q : σ → Prop) (m : Prog ε σ α) (s : σ) : Prop :=
  ∃ n, WeathersFor arm Q n m s

variable {arm : List (Option φ) → σ → σ} {Q Q' : σ → Prop} {m : Prog ε σ α} {f : α → Prog ε σ β}
  {s s' : σ} {n k : Nat}

theorem take_one_none {fs : List (Option φ)} (h : ∀ x ∈ fs.take 1, x = none) :
    fs = [] ∨ ∃ gs, fs = none :: gs := by
  cases fs with
  | nil => exact Or.inl rfl
  | cons x gs =>
    obtain rfl : x = none := h x (by simp)
    exact Or.inr ⟨gs,rfl⟩

theorem take_one_some {fs : List (Option φ)} (h : ∃ x ∈ fs.take 1, x ≠ none) :
    ∃ a gs, fs = some a :: gs := by
  obtain ⟨x,hx,hne⟩ := h
  cases fs with
  | nil => simp at hx
  | cons y gs =>
    obtain rfl : x = y := by simpa using hx
    obtain ⟨a,rfl⟩ := Option.ne_none_iff_exists'.mp hne
    exact ⟨a,gs,rfl⟩

theorem WeathersFor.weathers (h : WeathersFor arm Q n m s) : Weathers arm Q m s := ⟨n,h⟩

theorem WeathersFor.mono (h : WeathersFor arm Q n m s) (hQ : ∀ t, Q t → Q' t) :
    WeathersFor arm Q' n m s := by
  refine ⟨h.calm,fun fs hfs => ?_⟩
  obtain ⟨e,fs',t,hm,ht⟩ := h.struck fs hfs
  exact ⟨e,fs',t,hm,hQ t ht⟩

theorem Weathers.mono (h : Weathers arm Q m s) (hQ : ∀ t, Q t → Q' t) : Weathers arm Q' m s := by
  obtain ⟨n,h⟩ := h
  exact ⟨n,h.mono hQ⟩

theorem weathersFor_zero (h : ∀ fs, m (arm fs s) = ((m s).1,arm fs (m s).2)) :
    WeathersFor arm Q 0 m s := by
  refine ⟨fun fs _ => h fs,fun fs hfs => ?_⟩
  obtain ⟨x,hx,-⟩ := hfs
  simp at hx

theorem weathers_pure (a : α) : Weathers arm Q (pure a : Prog ε σ α) s :=
  (weathersFor_zero fun _ => rfl).weathers

theorem weathers_fail (e : Fault ε) : Weathers arm Q (fail e : Prog ε σ α) s :=
  (weathersFor_zero fun _ => rfl).weathers

theorem weathers_ofOption (o : Option α) : Weathers arm Q (ofOption o : Prog ε σ α) s := by
  cases o with
  | none => exact weathers_fail .panic
  | some a => exact weathers_pure a

theorem weathers_modify {g : σ → σ} (h : ∀ fs, g (arm fs s) = arm fs (g s)) :
    Weathers arm Q (modify g : Prog ε σ Unit) s := by
  refine (weathersFor_zero fun fs => ?_).weathers
  rw [modify_run,modify_run,h]

theorem weathers_get_bind {f : σ → Prog ε σ β} (hf : ∀ fs, f (arm fs s) = f s)
    (h : Weathers arm Q (f s) s) : Weathers arm Q (get >>= f) s := by
  obtain ⟨n,h⟩ := h
  refine ⟨n,fun fs hfs => ?_,fun fs hfs => ?_⟩
  · rw [get_bind_run,hf]
    exact h.calm fs hfs
  · rw [get_bind_run,hf]
    exact h.struck fs hfs

theorem take_all_none {fs : List (Option φ)} (h : ∀ x ∈ fs.take (n + k), x = none) :
    (∀ x ∈ fs.take n, x = none) ∧ ∀ x ∈ (fs.drop n).take k, x = none := by
  rw [List.take_add] at h
  exact ⟨fun x hx => h x (List.mem_append_left _ hx),fun x hx => h x (List.mem_append_right _ hx)⟩

theorem WeathersFor.bind {a : α} (h : WeathersFor arm Q n m s) (hm : m s = (.ok a,s'))
    (hf : WeathersFor arm Q k (f a) s') : WeathersFor arm Q (n + k) (m >>= f) s := by
  have hrun (fs : List (Option φ)) (hfs : ∀ x ∈ fs.take n, x = none) :
      m (arm fs s) = (.ok a,arm (fs.drop n) s') := by
    rw [h.calm fs hfs,hm]
  refine ⟨fun fs hfs => ?_,fun fs hfs => ?_⟩
  · obtain ⟨h1,h2⟩ := take_all_none hfs
    rw [bind_ok (hrun fs h1),bind_ok hm,hf.calm _ h2,List.drop_drop]
  · by_cases h1 : ∀ x ∈ fs.take n, x = none
    · rw [bind_ok (hrun fs h1)]
      refine hf.struck _ ?_
      obtain ⟨x,hx,hne⟩ := hfs
      rw [List.take_add] at hx
      rcases List.mem_append.mp hx with hx | hx
      · exact absurd (h1 x hx) hne
      · exact ⟨x,hx,hne⟩
    · push Not at h1
      obtain ⟨e,fs',t,ht,hQ⟩ := h.struck fs h1
      exact ⟨e,fs',t,bind_error ht,hQ⟩

theorem Weathers.bind (h : Weathers arm Q m s)
    (hf : ∀ a s', m s = (.ok a,s') → Weathers arm Q (f a) s') : Weathers arm Q (m >>= f) s := by
  obtain ⟨n,h⟩ := h
  rcases hm : m s with ⟨r,s'⟩
  cases r with
  | ok a =>
    obtain ⟨k,hk⟩ := hf a s' hm
    exact ⟨n + k,h.bind hm hk⟩
  | error e =>
    refine ⟨n,fun fs hfs => ?_,fun fs hfs => ?_⟩
    · have hrun := h.calm fs hfs
      rw [hm] at hrun
      rw [bind_error hrun,bind_error hm]
    · obtain ⟨e',fs',t,ht,hQ⟩ := h.struck fs hfs
      exact ⟨e',fs',t,bind_error ht,hQ⟩

theorem weathers_modify_bind {g : σ → σ} {f : Unit → Prog ε σ β}
    (hg : ∀ fs, g (arm fs s) = arm fs (g s)) (hf : Weathers arm Q (f ()) (g s)) :
    Weathers arm Q (modify g >>= f) s := by
  refine (weathers_modify hg).bind (fun _ s' hm => ?_)
  cases hm
  exact hf

theorem weathers_ofOption_bind {o : Option α} {f : α → Prog ε σ β}
    (h : ∀ a, o = some a → Weathers arm Q (f a) s) : Weathers arm Q (ofOption o >>= f) s := by
  cases o with
  | none => exact weathers_fail .panic
  | some a => exact h a rfl

theorem Weathers.of_error {fs : List (Option φ)} {e : ε} (h : Weathers arm Q m s)
    (hne : ∀ e, (m s).1 ≠ .error (.err e)) (hm : m (arm fs s) = (.error (.err e),s')) :
    ∃ fs' t, s' = arm fs' t ∧ Q t := by
  obtain ⟨n,h⟩ := h
  by_cases hfs : ∀ x ∈ fs.take n, x = none
  · rw [h.calm fs hfs] at hm
    exact absurd (Prod.ext_iff.mp hm).1 (hne e)
  · push Not at hfs
    obtain ⟨e',fs',t,ht,hQ⟩ := h.struck fs hfs
    rw [ht] at hm
    cases hm
    exact ⟨fs',t,rfl,hQ⟩

end Prog
