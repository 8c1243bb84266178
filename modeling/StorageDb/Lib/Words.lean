import Mathlib.Tactic
import Mathlib.Data.List.DropRight

-- Cutting a line into words at a separator, and the blanks around it.
namespace Words

variable {α : Type} [DecidableEq α] {sep : α} {n : Nat} {s w a b c : List α}

-- At most n pieces; the last one keeps its separators.
def splitn (sep : α) : Nat → List α → List (List α)
  | 0, _ => []
  | 1, s => [s]
  | n + 2, s =>
    match s.dropWhile (· ≠ sep) with
    | [] => [s]
    | _ :: rest => s.takeWhile (· ≠ sep) :: splitn sep (n + 1) rest

theorem splitn_append (h : sep ∉ w) (rest : List α) :
    splitn sep (n + 2) (w ++ sep :: rest) = w :: splitn sep (n + 1) rest := by
  have hall : ∀ x ∈ w, decide (x ≠ sep) = true := fun x hx =>
    decide_eq_true fun e => h (e ▸ hx)
  have hdrop : (w ++ sep :: rest).dropWhile (· ≠ sep) = sep :: rest := by
    rw [List.dropWhile_append_of_pos hall]
    simp
  have htake : (w ++ sep :: rest).takeWhile (· ≠ sep) = w := by
    rw [List.takeWhile_append_of_pos hall]
    simp
  rw [splitn,hdrop,htake]

theorem splitn_word (h : sep ∉ s) : splitn sep (n + 1) s = [s] := by
  cases n with
  | zero => rfl
  | succ n =>
    have hdrop : s.dropWhile (· ≠ sep) = [] :=
      List.dropWhile_eq_nil_iff.mpr fun x hx => decide_eq_true fun e => h (e ▸ hx)
    rw [splitn,hdrop]

theorem word_or_split (sep : α) (s : List α) :
    sep ∉ s ∨ ∃ w rest, sep ∉ w ∧ s = w ++ sep :: rest := by
  by_cases h : sep ∈ s
  · obtain ⟨w,rest,hs,hw⟩ := List.eq_append_cons_of_mem h
    exact Or.inr ⟨w,rest,hw,hs⟩
  · exact Or.inl h

theorem splitn_three (sep : α) (s : List α) :
    (sep ∉ s ∧ splitn sep 3 s = [s]) ∨
      (∃ a b, sep ∉ a ∧ sep ∉ b ∧ s = a ++ sep :: b ∧ splitn sep 3 s = [a,b]) ∨
      ∃ a b c, sep ∉ a ∧ sep ∉ b ∧ s = a ++ sep :: (b ++ sep :: c) ∧ splitn sep 3 s = [a,b,c] := by
  rcases word_or_split sep s with hs | ⟨a,t,ha,rfl⟩
  · exact Or.inl ⟨hs,splitn_word hs⟩
  · rcases word_or_split sep t with ht | ⟨b,c,hb,rfl⟩
    · exact Or.inr (Or.inl ⟨a,t,ha,ht,rfl,by rw [splitn_append ha,splitn_word ht]⟩)
    · exact Or.inr (Or.inr ⟨a,b,c,ha,hb,rfl,by rw [splitn_append ha,splitn_append hb]; rfl⟩)

theorem splitn_eq_three_iff : splitn sep 3 s = [a,b,c] ↔
    sep ∉ a ∧ sep ∉ b ∧ s = a ++ sep :: (b ++ sep :: c) := by
  constructor
  · intro h
    rcases splitn_three sep s with ⟨-,h1⟩ | ⟨_,_,-,-,-,h2⟩ | ⟨a',b',c',ha,hb,hs,h3⟩
    · rw [h] at h1
      cases h1
    · rw [h] at h2
      cases h2
    · rw [h] at h3
      cases h3
      exact ⟨ha,hb,hs⟩
  · rintro ⟨ha,hb,rfl⟩
    rw [splitn_append ha,splitn_append hb]
    rfl

theorem splitn_eq_two_iff : splitn sep 3 s = [a,b] ↔ sep ∉ a ∧ sep ∉ b ∧ s = a ++ sep :: b := by
  constructor
  · intro h
    rcases splitn_three sep s with ⟨-,h1⟩ | ⟨a',b',ha,hb,hs,h2⟩ | ⟨_,_,_,-,-,-,h3⟩
    · rw [h] at h1
      cases h1
    · rw [h] at h2
      cases h2
      exact ⟨ha,hb,hs⟩
    · rw [h] at h3
      cases h3
  · rintro ⟨ha,hb,rfl⟩
    rw [splitn_append ha,splitn_word hb]

def trim (p : α → Bool) (s : List α) : List α := (s.dropWhile p).rdropWhile p

omit [DecidableEq α] in
theorem trim_eq_self {p : α → Bool} (hfirst : ∀ x, s.head? = some x → p x = false)
    (hlast : ∀ x, s.getLast? = some x → p x = false) : trim p s = s := by
  have hdrop : s.dropWhile p = s := by
    cases s with
    | nil => rfl
    | cons x s => exact List.dropWhile_cons_of_neg (by rw [hfirst x rfl]; exact Bool.false_ne_true)
  rw [trim,hdrop,List.rdropWhile_eq_self_iff]
  intro hne
  rw [hlast _ (List.getLast?_eq_some_getLast hne)]
  exact Bool.false_ne_true

end Words
