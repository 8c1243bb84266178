import Mathlib.Tactic

-- Schedules of transactions that lock what they access until they end.
namespace Schedule

inductive Action (T R : Type) where
  | access (txn : T) (resource : R) (exclusive : Bool)
  | finish (txn : T) (committed : Bool)
  | silent
  deriving DecidableEq

variable {T R : Type} {s : List (Action T R)} {i j k : Nat} {t u : T} {r : R} {x y : Bool}

-- An access whose transaction has not ended since.
def Open (s : List (Action T R)) (i : Nat) (t : T) (r : R) (x : Bool) : Prop :=
  s[i]? = some (.access t r x) ∧ ∀ k c, i < k → s[k]? ≠ some (.finish t c)

-- Of two conflicting accesses by different transactions, the first one's transaction ends between.
def Strict (s : List (Action T R)) : Prop :=
  ∀ (i j : Nat) (t u : T) (r : R) (x y : Bool), i < j → s[i]? = some (.access t r x) →
    s[j]? = some (.access u r y) → t ≠ u → (x || y) = true →
    ∃ k c, i < k ∧ k < j ∧ s[k]? = some (.finish t c)

-- What t did at i ends at k. A name that is used again stands for another transaction.
def EndsAt (s : List (Action T R)) (i k : Nat) (t : T) (c : Bool) : Prop :=
  i < k ∧ s[k]? = some (.finish t c) ∧ ∀ m c', i < m → m < k → s[m]? ≠ some (.finish t c')

-- The conflict graph; its nodes are the positions of the commits.
def Conflict (s : List (Action T R)) (k k' : Nat) : Prop :=
  k ≠ k' ∧ ∃ i j t u r x y, i < j ∧ s[i]? = some (.access t r x) ∧ s[j]? = some (.access u r y) ∧
    (x || y) = true ∧ EndsAt s i k t true ∧ EndsAt s j k' u true

theorem EndsAt.unique {k' : Nat} {c c' : Bool} (h : EndsAt s i k t c) (h' : EndsAt s j k' t c')
    (hij : i < j) (hjk : j < k) : k = k' := by
  obtain ⟨-,hk,hfirst⟩ := h
  obtain ⟨hj,hk',hfirst'⟩ := h'
  rcases Nat.lt_trichotomy k k' with hlt | heq | hgt
  · exact absurd hk (hfirst' k c hjk hlt)
  · exact heq
  · exact absurd hk' (hfirst k' c' (by omega) hgt)

theorem Strict.conflict_lt {k' : Nat} (h : Strict s) (hc : Conflict s k k') : k < k' := by
  obtain ⟨hne,i,j,t,u,r,x,y,hij,hi,hj,hxy,hk,hk'⟩ := hc
  have hkj : k < j := by
    by_cases htu : t = u
    · subst htu
      by_contra hjk
      have hne' : j ≠ k := by
        rintro rfl
        rw [hk.2.1] at hj
        cases hj
      exact hne (hk.unique hk' hij (by omega))
    · obtain ⟨m,c,him,hmj,hm⟩ := h i j t u r x y hij hi hj htu hxy
      by_contra hjk
      exact hk.2.2 m c him (by omega) hm
  exact Nat.lt_trans hkj hk'.1

theorem Strict.acyclic (h : Strict s) (k : Nat) : ¬ Relation.TransGen (Conflict s) k k := by
  intro hc
  have hlt : Relation.TransGen (· < ·) k k := Relation.TransGen.mono
    (fun _ _ => h.conflict_lt) _ _ hc
  rw [Relation.transGen_eq_self] at hlt
  exact Nat.lt_irrefl k hlt

section append

theorem strict_nil : Strict ([] : List (Action T R)) := by
  intro i j t u r x y _ hi
  simp at hi

theorem getElem?_append_singleton {α : Type} (s : List α) (a : α) (i : Nat) :
    (s ++ [a])[i]? = if i < s.length then s[i]? else if i = s.length then some a else none := by
  rw [List.getElem?_append]
  split_ifs with h1 h2
  · rfl
  · rw [h2,Nat.sub_self]
    rfl
  · rw [List.getElem?_eq_none]
    simp
    omega

theorem Open.of_append {a : Action T R} (h : Open (s ++ [a]) i t r x) :
    (Open s i t r x ∧ ∀ c, a ≠ .finish t c) ∨ a = .access t r x := by
  obtain ⟨hi,hlater⟩ := h
  rw [getElem?_append_singleton] at hi
  split_ifs at hi with h1 h2
  · refine Or.inl ⟨⟨hi,fun k c hik hk => ?_⟩,fun c hc => ?_⟩
    · have hks := (List.getElem?_eq_some_iff.mp hk).1
      refine hlater k c hik ?_
      rw [getElem?_append_singleton,if_pos hks,hk]
    · refine hlater s.length c h1 ?_
      rw [getElem?_append_singleton,if_neg (Nat.lt_irrefl _),if_pos rfl,hc]
  · exact Or.inr (Option.some.inj hi)

theorem Strict.append {a : Action T R} (h : Strict s)
    (ha : ∀ t r y, a = .access t r y → ∀ i u x, Open s i u r x → u ≠ t → (x || y) = false) :
    Strict (s ++ [a]) := by
  intro i j t u r x y hij hi hj htu hxy
  have hjl : j < (s ++ [a]).length := (List.getElem?_eq_some_iff.mp hj).1
  rw [List.length_append,List.length_singleton] at hjl
  rw [getElem?_append_singleton,if_pos (by omega)] at hi
  by_cases hjs : j < s.length
  · rw [getElem?_append_singleton,if_pos hjs] at hj
    obtain ⟨k,c,hik,hkj,hk⟩ := h i j t u r x y hij hi hj htu hxy
    exact ⟨k,c,hik,hkj,by rw [getElem?_append_singleton,if_pos (by omega),hk]⟩
  · obtain rfl : j = s.length := by omega
    rw [getElem?_append_singleton,if_neg hjs,if_pos rfl] at hj
    by_contra hnone
    have hopen : Open s i t r x := by
      refine ⟨hi,fun k c hik hk => hnone ⟨k,c,hik,?_⟩⟩
      have hks := (List.getElem?_eq_some_iff.mp hk).1
      exact ⟨hks,by rw [getElem?_append_singleton,if_pos hks,hk]⟩
    rw [ha u r y (Option.some.inj hj) i t x hopen htu] at hxy
    cases hxy

end append

end Schedule
