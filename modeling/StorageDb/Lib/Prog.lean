import Mathlib.Tactic

inductive Fault (ε : Type) where
  | err (e : ε)
  | panic
  | hang
  deriving DecidableEq, Repr

-- The state survives a failure: an early return keeps every write made before it.
def Prog (ε σ α : Type) := σ → Except (Fault ε) α × σ

namespace Prog

variable {ε σ τ α β γ : Type}

def bind (m : Prog ε σ α) (f : α → Prog ε σ β) : Prog ε σ β := fun s =>
  match m s with
  | (.ok a,s') => f a s'
  | (.error e,s') => (.error e,s')

instance : Monad (Prog ε σ) where
  pure a := fun s => (.ok a,s)
  bind := bind

def fail (e : Fault ε) : Prog ε σ α := fun s => (.error e,s)

def get : Prog ε σ σ := fun s => (.ok s,s)

def modify (f : σ → σ) : Prog ε σ Unit := fun s => (.ok (),f s)

def ofOption : Option α → Prog ε σ α
  | some a => pure a
  | none => fail .panic

def zoom (view : τ → σ) (put : σ → τ → τ) (m : Prog ε σ α) : Prog ε τ α := fun t =>
  let r := m (view t)
  (r.1,put r.2 t)

@[simp] theorem pure_run (a : α) (s : σ) : (pure a : Prog ε σ α) s = (.ok a,s) := rfl

@[simp] theorem modify_run (f : σ → σ) (s : σ) : (modify f : Prog ε σ Unit) s = (.ok (),f s) := rfl

@[simp] theorem ofOption_some (a : α) : (ofOption (some a) : Prog ε σ α) = pure a := rfl

theorem bind_run (m : Prog ε σ α) (f : α → Prog ε σ β) (s : σ) :
    (m >>= f) s = match m s with
      | (.ok a,s') => f a s'
      | (.error e,s') => (.error e,s') := rfl

theorem bind_ok {m : Prog ε σ α} {f : α → Prog ε σ β} {s s' : σ} {a : α}
    (h : m s = (.ok a,s')) : (m >>= f) s = f a s' := by
  rw [bind_run,h]

theorem bind_error {m : Prog ε σ α} {f : α → Prog ε σ β} {s s' : σ} {e : Fault ε}
    (h : m s = (.error e,s')) : (m >>= f) s = (.error e,s') := by
  rw [bind_run,h]

@[simp] theorem pure_bind_run (a : α) (f : α → Prog ε σ β) (s : σ) :
    ((pure a : Prog ε σ α) >>= f) s = f a s := rfl

@[simp] theorem get_bind_run (f : σ → Prog ε σ β) (s : σ) :
    ((get : Prog ε σ σ) >>= f) s = f s s := rfl

@[simp] theorem modify_bind_run (g : σ → σ) (f : Unit → Prog ε σ β) (s : σ) :
    ((modify g : Prog ε σ Unit) >>= f) s = f () (g s) := rfl

instance : LawfulMonad (Prog ε σ) := LawfulMonad.mk' _
  (by
    intro α m
    funext s
    change (m >>= fun a => pure (id a)) s = m s
    rw [bind_run]
    rcases m s with ⟨r,s'⟩
    cases r <;> rfl)
  (by intros; rfl)
  (by
    intro α β γ m f g
    funext s
    simp only [bind_run]
    rcases m s with ⟨r,s'⟩
    cases r <;> rfl)

theorem map_run (g : α → β) (m : Prog ε σ α) (s : σ) : (g <$> m) s = ((m s).1.map g,(m s).2) := by
  change (m >>= fun a => pure (g a)) s = _
  rw [bind_run]
  rcases m s with ⟨r,t⟩
  cases r <;> rfl

theorem run_eq {m : Prog ε σ α} {s : σ} {r : Except (Fault ε) α} (h : (m s).1 = r) :
    m s = (r,(m s).2) := Prod.ext h rfl

theorem run_isOk {m : Prog ε σ α} {s : σ} (h : (m s).1.isOk = true) :
    ∃ a, m s = (.ok a,(m s).2) := by
  cases hr : (m s).1 with
  | error e =>
    rw [hr] at h
    cases h
  | ok a => exact ⟨a,run_eq hr⟩

-- A postcondition of one run, over the outcome and the state it leaves.
def Spec (m : Prog ε σ α) (s : σ) (Q : Except (Fault ε) α → σ → Prop) : Prop := Q (m s).1 (m s).2

section spec

variable {m : Prog ε σ α} {f : α → Prog ε σ β} {s s' : σ} {Q Q' : Except (Fault ε) α → σ → Prop}

theorem Spec.mono (h : Spec m s Q) (hQ : ∀ r t, Q r t → Q' r t) : Spec m s Q' := hQ _ _ h

theorem Spec.bind {R : Except (Fault ε) β → σ → Prop} (h : Spec m s Q)
    (ok : ∀ a t, Q (.ok a) t → Spec (f a) t R) (error : ∀ e t, Q (.error e) t → R (.error e) t) :
    Spec (m >>= f) s R := by
  rw [Spec] at h
  rcases hm : m s with ⟨r,t⟩
  rw [hm] at h
  cases r with
  | ok a =>
    rw [Spec,bind_ok hm]
    exact ok a t h
  | error e =>
    rw [Spec,bind_error hm]
    exact error e t h

theorem Spec.map {g : α → β} {R : Except (Fault ε) β → σ → Prop} (h : Spec m s Q)
    (ok : ∀ a t, Q (.ok a) t → R (.ok (g a)) t) (error : ∀ e t, Q (.error e) t → R (.error e) t) :
    Spec (g <$> m) s R := h.bind ok error

@[simp] theorem spec_pure (a : α) : Spec (pure a) s Q ↔ Q (.ok a) s := Iff.rfl

@[simp] theorem spec_modify (g : σ → σ) {R : Except (Fault ε) Unit → σ → Prop} :
    Spec (modify g) s R ↔ R (.ok ()) (g s) := Iff.rfl

@[simp] theorem spec_get_bind (f : σ → Prog ε σ α) : Spec (get >>= f) s Q ↔
    Spec (f s) s Q := Iff.rfl

@[simp] theorem spec_modify_bind (g : σ → σ) (f : Unit → Prog ε σ α) :
    Spec (modify g >>= f) s Q ↔ Spec (f ()) (g s) Q := Iff.rfl

@[simp] theorem spec_zoom {view : τ → σ} {put : σ → τ → τ} {t : τ}
    {R : Except (Fault ε) α → τ → Prop} :
    Spec (zoom view put m) t R ↔ Spec m (view t) (fun r s => R r (put s t)) := Iff.rfl

theorem Spec.zoom_bind {view : τ → σ} {put : σ → τ → τ} {t : τ} {f : α → Prog ε τ β}
    {R : Except (Fault ε) β → τ → Prop} (h : Spec m (view t) Q)
    (ok : ∀ a s, Q (.ok a) s → Spec (f a) (put s t) R)
    (error : ∀ e s, Q (.error e) s → R (.error e) (put s t)) :
    Spec (zoom view put m >>= f) t R := by
  have hz : Spec (zoom view put m) t (fun r t' => ∃ s, Q r s ∧ t' = put s t) := ⟨_,h,rfl⟩
  refine hz.bind ?_ ?_
  · rintro a t' ⟨s,hs,rfl⟩
    exact ok a s hs
  · rintro e t' ⟨s,hs,rfl⟩
    exact error e s hs

theorem spec_bind_ok {R : Except (Fault ε) β → σ → Prop} {a : α} (h : m s = (.ok a,s')) :
    Spec (m >>= f) s R ↔ Spec (f a) s' R := by
  rw [Spec,bind_ok h]
  rfl

theorem Spec.of_eq {r : Except (Fault ε) α} (h : Spec m s Q) (hm : m s = (r,s')) : Q r s' := by
  rw [Spec,hm] at h
  exact h

end spec

def Preserves (I : σ → Prop) (m : Prog ε σ α) : Prop := ∀ s, I s → I (m s).2

section preserves

variable {I : σ → Prop}

theorem preserves_pure (a : α) : Preserves I (pure a : Prog ε σ α) := fun _ h => h

theorem preserves_fail (e : Fault ε) : Preserves I (fail e : Prog ε σ α) := fun _ h => h

theorem preserves_get : Preserves I (get : Prog ε σ σ) := fun _ h => h

theorem preserves_modify {f : σ → σ} (h : ∀ s, I s → I (f s)) :
    Preserves I (modify f : Prog ε σ Unit) := h

theorem preserves_after {m : Prog ε σ α} {f : α → Prog ε σ β} {s : σ} (hm : I (m s).2)
    (hf : ∀ a, Preserves I (f a)) : I ((m >>= f) s).2 :=
  Spec.bind (Q := fun _ t => I t) (R := fun _ t => I t) hm (fun a t ht => hf a t ht)
    (fun _ _ ht => ht)

theorem Preserves.bind {m : Prog ε σ α} {f : α → Prog ε σ β} (hm : Preserves I m)
    (hf : ∀ a, Preserves I (f a)) : Preserves I (m >>= f) :=
  fun s hs => preserves_after (hm s hs) hf

end preserves

-- A relation between programs over two states that sequencing respects. The programs related
-- raise no error of their own.
structure Congruence (Q : ⦃α : Type⦄ → Prog ε σ α → Prog ε τ α → Prop) : Prop where
  pure : ∀ {α : Type} (a : α), Q (pure a) (pure a)
  panic : ∀ {α : Type}, Q (fail .panic : Prog ε σ α) (fail .panic)
  hang : ∀ {α : Type}, Q (fail .hang : Prog ε σ α) (fail .hang)
  bind : ∀ {α β : Type} {m : Prog ε σ α} {n : Prog ε τ α} {f : α → Prog ε σ β}
    {g : α → Prog ε τ β}, Q m n → (∀ a, Q (f a) (g a)) → Q (m >>= f) (n >>= g)

theorem Congruence.ofOption {Q : ⦃α : Type⦄ → Prog ε σ α → Prog ε τ α → Prop}
    (h : Congruence Q) (o : Option α) : Q (ofOption o) (ofOption o) := by
  cases o with
  | none => exact h.panic
  | some a => exact h.pure a

theorem preserves_congruence {I : σ → Prop} :
    Congruence fun (α : Type) (m _ : Prog ε σ α) => Preserves I m where
  pure := preserves_pure
  panic := preserves_fail .panic
  hang := preserves_fail .hang
  bind hm hf := hm.bind hf

def OnlyErrors (E : ε → Prop) (m : Prog ε σ α) : Prop := ∀ s e, (m s).1 = .error (.err e) → E e

theorem onlyErrors_congruence {E : ε → Prop} :
    Congruence fun (α : Type) (m _ : Prog ε σ α) => OnlyErrors E m where
  pure _ := fun _ _ h => by cases h
  panic := fun _ _ h => by cases h
  hang := fun _ _ h => by cases h
  bind := by
    intro α β m n f g hm hf s e he
    rcases hr : m s with ⟨r,t⟩
    cases r with
    | error e' =>
      rw [bind_error hr] at he
      cases he
      exact hm s e (by rw [hr])
    | ok a =>
      rw [bind_ok hr] at he
      exact hf a t e he

-- Every outcome of the abstract program but an error is the outcome of the concrete one.
def Refines (R : σ → τ → Prop) (m : Prog ε σ α) (n : Prog ε τ α) : Prop :=
  ∀ s t, R s t → (∀ e, (n t).1 ≠ .error (.err e)) → (m s).1 = (n t).1 ∧ R (m s).2 (n t).2

section refines

variable {R : σ → τ → Prop}

theorem Refines.of_ok {m : Prog ε σ α} {n : Prog ε τ α} {s : σ} {t t' : τ} {a : α}
    (h : Refines R m n) (hR : R s t) (hn : n t = (.ok a,t')) :
    ∃ s', m s = (.ok a,s') ∧ R s' t' := by
  obtain ⟨h1,h2⟩ := h s t hR (by rw [hn]; simp)
  rw [hn] at h1 h2
  exact ⟨(m s).2,Prod.ext h1 rfl,h2⟩

theorem Refines.of_panic {m : Prog ε σ α} {n : Prog ε τ α} {s : σ} {t : τ}
    (h : Refines R m n) (hR : R s t) (hn : (n t).1 = .error .panic) : (m s).1 = .error .panic := by
  obtain ⟨h1,-⟩ := h s t hR (by rw [hn]; simp)
  rw [h1,hn]

theorem refines_congruence : Congruence fun (α : Type) (m : Prog ε σ α) n => Refines R m n where
  pure _ := fun _ _ hR _ => ⟨rfl,hR⟩
  panic := fun _ _ hR _ => ⟨rfl,hR⟩
  hang := fun _ _ hR _ => ⟨rfl,hR⟩
  bind := by
    intro α β m n f g h hf s t hR hne
    rcases hn : n t with ⟨r,t'⟩
    cases r with
    | error e =>
      have hbind := bind_error (f := g) hn
      rw [hbind] at hne
      obtain ⟨h1,h2⟩ := h s t hR (by rw [hn]; simpa using hne)
      rw [hn] at h1 h2
      have hm : m s = (.error e,(m s).2) := Prod.ext h1 rfl
      rw [bind_error hm,hbind]
      exact ⟨rfl,h2⟩
    | ok a =>
      obtain ⟨s',hm,hR'⟩ := h.of_ok hR hn
      rw [bind_ok hn] at hne ⊢
      rw [bind_ok hm]
      exact hf a s' t' hR' hne

end refines

-- Whatever m manages to do, n does too.
def Reflects (R : σ → τ → Prop) (m : Prog ε σ α) (n : Prog ε τ α) : Prop :=
  ∀ s t s' a, R s t → m s = (.ok a,s') → ∃ t', n t = (.ok a,t') ∧ R s' t'

theorem reflects_congruence {R : σ → τ → Prop} :
    Congruence fun (α : Type) (m : Prog ε σ α) n => Reflects R m n where
  pure a := by
    rintro s t s' b hR ⟨⟩
    exact ⟨t,rfl,hR⟩
  panic := fun _ _ _ _ _ h => by cases h
  hang := fun _ _ _ _ _ h => by cases h
  bind := by
    intro α β m n f g h hf s t s' b hR hm
    rcases hr : m s with ⟨r,s1⟩
    cases r with
    | error e =>
      rw [bind_error hr] at hm
      cases hm
    | ok a =>
      rw [bind_ok hr] at hm
      obtain ⟨t1,hn,hR1⟩ := h s t s1 a hR hr
      rw [bind_ok hn]
      exact hf a s1 t1 s' b hR1 hm

-- m agrees with n up to n's first failure, unless n ends in Bad, which it then never leaves.
def Tracks (Bad : τ → Prop) (R : σ → τ → Prop) (m : Prog ε σ α) (n : Prog ε τ α) : Prop :=
  Preserves Bad n ∧ ∀ s t, R s t →
    Bad (n t).2 ∨ (m s).1 = (n t).1 ∧ ∀ a, (n t).1 = .ok a → R (m s).2 (n t).2

theorem tracks_congruence {Bad : τ → Prop} {R : σ → τ → Prop} :
    Congruence fun (α : Type) (m : Prog ε σ α) n => Tracks Bad R m n where
  pure a := ⟨preserves_pure a,fun _ _ hR => Or.inr ⟨rfl,fun _ _ => hR⟩⟩
  panic := ⟨preserves_fail _,fun _ _ _ => Or.inr ⟨rfl,fun _ h => by cases h⟩⟩
  hang := ⟨preserves_fail _,fun _ _ _ => Or.inr ⟨rfl,fun _ h => by cases h⟩⟩
  bind := by
    intro α β m n f g h hf
    refine ⟨h.1.bind (fun a => (hf a).1),fun s t hR => ?_⟩
    have hs := h.2 s t hR
    rcases hm : m s with ⟨r,s'⟩
    rcases hn : n t with ⟨r',t'⟩
    rw [hm,hn] at hs
    rcases hs with hbad | ⟨heq,hR'⟩
    · refine Or.inl ?_
      cases r' with
      | error e =>
        rw [bind_error hn]
        exact hbad
      | ok a =>
        rw [bind_ok hn]
        exact (hf a).1 t' hbad
    · obtain rfl : r = r' := heq
      cases r with
      | error e =>
        rw [bind_error hm,bind_error hn]
        exact Or.inr ⟨rfl,fun _ h => by cases h⟩
      | ok a =>
        rw [bind_ok hm,bind_ok hn]
        exact (hf a).2 s' t' (hR' a rfl)

-- A run adds at most k to the measure, however it ends.
def Adds (size : σ → Nat) (k : Nat) (m : Prog ε σ α) : Prop := ∀ s, size (m s).2 ≤ size s + k

section adds

variable {size : σ → Nat} {j k : Nat} {m : Prog ε σ α} {f : α → Prog ε σ β}

theorem Adds.mono (h : Adds size j m) (hjk : j ≤ k) : Adds size k m := fun s =>
  (h s).trans (Nat.add_le_add_left hjk _)

theorem Adds.bind (h : Adds size j m) (hf : ∀ a, Adds size k (f a)) :
    Adds size (j + k) (m >>= f) := by
  intro s
  have hs := h s
  rcases hm : m s with ⟨r,s'⟩
  rw [hm] at hs
  cases r with
  | error e =>
    rw [bind_error hm]
    exact hs.trans (by omega)
  | ok a =>
    rw [bind_ok hm]
    exact (hf a s').trans (by dsimp only at hs; omega)

theorem Adds.calm (h : Adds size 0 m) (hf : ∀ a, Adds size k (f a)) : Adds size k (m >>= f) :=
  (h.bind hf).mono (Nat.zero_add k).le

theorem adds_congruence : Congruence fun (α : Type) (m _ : Prog ε σ α) => Adds size 0 m where
  pure _ _ := le_rfl
  panic _ := le_rfl
  hang _ := le_rfl
  bind h hf := h.calm hf

end adds

-- Where n succeeds, m does the same or returns an error in a state with I.
def Follows (I : σ → Prop) (R : σ → τ → Prop) (m : Prog ε σ α) (n : Prog ε τ α) : Prop :=
  ∀ s t, R s t → ∀ a t', n t = (.ok a,t') →
    (∃ s', m s = (.ok a,s') ∧ R s' t') ∨ ∃ e s', m s = (.error (.err e),s') ∧ I s'

theorem follows_congruence {I : σ → Prop} {R : σ → τ → Prop} :
    Congruence fun (α : Type) (m : Prog ε σ α) n => Follows I R m n where
  pure a := by
    intro s t hR b t' hn
    cases hn
    exact Or.inl ⟨s,rfl,hR⟩
  panic := by
    intro α s t _ a t' hn
    cases hn
  hang := by
    intro α s t _ a t' hn
    cases hn
  bind := by
    intro α β m n f g h hf s t hR b t' hrun
    rcases hn : n t with ⟨r,t1⟩
    cases r with
    | error e =>
      rw [bind_error hn] at hrun
      cases hrun
    | ok a =>
      rw [bind_ok hn] at hrun
      rcases h s t hR a t1 hn with ⟨s1,hm,hR1⟩ | ⟨e,s1,hm,hI⟩
      · rw [bind_ok hm]
        exact hf a s1 t1 hR1 b t' hrun
      · exact Or.inr ⟨e,s1,bind_error hm,hI⟩

-- m does from t s what it does from s, up to t, and meets its postcondition.
def Carries (t : σ → σ) (Q : Except (Fault ε) α → σ → Prop) (m : Prog ε σ α) (s : σ) : Prop :=
  m (t s) = ((m s).1,t (m s).2) ∧ Spec m s Q

section carries

variable {t : σ → σ} {Q : Except (Fault ε) α → σ → Prop} {R : Except (Fault ε) β → σ → Prop} {s : σ}
  {m : Prog ε σ α} {f : α → Prog ε σ β}

theorem carries_pure {a : α} (h : Q (.ok a) s) : Carries t Q (pure a) s := ⟨rfl,h⟩

theorem carries_fail {e : Fault ε} (h : Q (.error e) s) : Carries t Q (fail e) s := ⟨rfl,h⟩

theorem carries_modify {g : σ → σ} {Q : Except (Fault ε) Unit → σ → Prop} (hg : g (t s) = t (g s))
    (h : Q (.ok ()) (g s)) : Carries t Q (modify g) s := ⟨congrArg (Prod.mk _) hg,h⟩

theorem carries_get_bind {f : σ → Prog ε σ β} (hf : f (t s) = f s) (h : Carries t R (f s) s) :
    Carries t R (get >>= f) s := by
  refine ⟨?_,h.2⟩
  rw [get_bind_run,hf]
  exact h.1

theorem Carries.bind (h : Carries t Q m s) (ok : ∀ a s', Q (.ok a) s' → Carries t R (f a) s')
    (error : ∀ e s', Q (.error e) s' → R (.error e) s') : Carries t R (m >>= f) s := by
  obtain ⟨heq,hQ⟩ := h
  refine ⟨?_,hQ.bind (fun a s' ha => (ok a s' ha).2) error⟩
  rcases hm : m s with ⟨r,s'⟩
  rw [Spec,hm] at hQ
  rw [hm] at heq
  cases r with
  | error e => rw [bind_error hm,bind_error heq]
  | ok a =>
    rw [bind_ok hm,bind_ok heq]
    exact (ok a s' hQ).1

end carries

end Prog
