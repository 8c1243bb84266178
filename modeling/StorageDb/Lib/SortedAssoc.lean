import Mathlib.Tactic

namespace SortedAssoc

variable {K V : Type} [LinearOrder K]

def Sorted (es : List (K × V)) : Prop := es.Pairwise (fun a b => a.1 < b.1)

def rank (k : K) (es : List (K × V)) : Nat := (es.takeWhile (fun e => e.1 < k)).length

def find (k : K) : List (K × V) → Option V
  | [] => none
  | e :: es => if e.1 = k then some e.2 else find k es

def upsert (k : K) (v : V) : List (K × V) → List (K × V)
  | [] => [(k,v)]
  | e :: es => if k < e.1 then (k,v) :: e :: es else if e.1 = k then (k,v) :: es
      else e :: upsert k v es

def erase (k : K) (es : List (K × V)) : List (K × V) := es.filter (fun e => e.1 ≠ k)

instance (es : List (K × V)) : Decidable (Sorted es) := by unfold Sorted; infer_instance

@[simp] theorem sorted_nil : Sorted ([] : List (K × V)) := List.Pairwise.nil

theorem sorted_cons {e : K × V} {es : List (K × V)} :
    Sorted (e :: es) ↔ (∀ x ∈ es, e.1 < x.1) ∧ Sorted es := List.pairwise_cons

theorem sorted_append {xs ys : List (K × V)} :
    Sorted (xs ++ ys) ↔ Sorted xs ∧ Sorted ys ∧ ∀ x ∈ xs, ∀ y ∈ ys, x.1 < y.1 :=
  List.pairwise_append

theorem Sorted.sublist {xs ys : List (K × V)} (h : Sorted ys) (hs : xs.Sublist ys) : Sorted xs :=
  List.Pairwise.sublist hs h

theorem rank_le_length (k : K) (es : List (K × V)) : rank k es ≤ es.length :=
  (List.takeWhile_sublist _).length_le

theorem rank_cons (k : K) (e : K × V) (es : List (K × V)) :
    rank k (e :: es) = if e.1 < k then rank k es + 1 else 0 := by
  by_cases h : e.1 < k <;> simp [rank,h]

theorem lt_of_getElem?_lt_rank {k : K} {es : List (K × V)} {i : Nat} {e : K × V}
    (hi : i < rank k es) (he : es[i]? = some e) : e.1 < k := by
  induction es generalizing i with
  | nil => simp at he
  | cons x es ih =>
    rw [rank_cons] at hi
    split_ifs at hi with hx
    · cases i with
      | zero => simp at he; subst he; exact hx
      | succ i => exact ih (i := i) (by omega) (by simpa using he)
    · omega

theorem le_of_rank_le_getElem? {k : K} {es : List (K × V)} (hs : Sorted es) {i : Nat} {e : K × V}
    (hi : rank k es ≤ i) (he : es[i]? = some e) : k ≤ e.1 := by
  induction es generalizing i with
  | nil => simp at he
  | cons x es ih =>
    obtain ⟨hx,hs⟩ := sorted_cons.mp hs
    rw [rank_cons] at hi
    split_ifs at hi with hk
    · cases i with
      | zero => omega
      | succ i => exact ih hs (i := i) (by omega) (by simpa using he)
    · cases i with
      | zero => simp at he; subst he; exact not_lt.mp hk
      | succ i =>
        have hm : e ∈ es := List.mem_of_getElem? (by simpa using he)
        exact (not_lt.mp hk).trans (hx e hm).le

theorem lt_of_rank_lt_getElem? {k : K} {es : List (K × V)} (hs : Sorted es) {i : Nat} {e : K × V}
    (hi : rank k es < i) (he : es[i]? = some e) : k < e.1 := by
  have hlen := (List.getElem?_eq_some_iff.mp he).1
  have hr := List.getElem?_eq_getElem (hi.trans hlen)
  have hlt : es[rank k es].1 < e.1 := by
    rw [← (List.getElem?_eq_some_iff.mp he).2]
    exact List.pairwise_iff_getElem.mp hs _ _ _ hlen hi
  exact (le_of_rank_le_getElem? hs le_rfl hr).trans_lt hlt

theorem find_eq_none {k : K} {es : List (K × V)} : find k es = none ↔ ∀ e ∈ es, e.1 ≠ k := by
  induction es with
  | nil => simp [find]
  | cons x es ih =>
    rw [find]
    by_cases hx : x.1 = k
    · simp [hx]
    · simp [hx,ih]

theorem find_of_mem {es : List (K × V)} (hs : Sorted es) {e : K × V} (he : e ∈ es) :
    find e.1 es = some e.2 := by
  induction es with
  | nil => simp at he
  | cons x es ih =>
    obtain ⟨hx,hs⟩ := sorted_cons.mp hs
    rw [find]
    rcases List.mem_cons.mp he with rfl | hm
    · rw [if_pos rfl]
    · rw [if_neg (hx e hm).ne,ih hs hm]

theorem mem_of_find {k : K} {v : V} {es : List (K × V)} (h : find k es = some v) :
    (k,v) ∈ es := by
  induction es with
  | nil => simp [find] at h
  | cons x es ih =>
    rw [find] at h
    split_ifs at h with hx
    · obtain rfl : x.2 = v := by simpa using h
      simp [← hx]
    · exact List.mem_cons_of_mem _ (ih h)

theorem find_eq_some {k : K} {v : V} {es : List (K × V)} (hs : Sorted es) :
    find k es = some v ↔ (k,v) ∈ es :=
  ⟨mem_of_find,fun h => find_of_mem hs h⟩

theorem find_upsert (k k' : K) (v : V) (es : List (K × V)) :
    find k' (upsert k v es) = if k' = k then some v else find k' es := by
  induction es with
  | nil =>
    simp only [upsert,find]
    by_cases h : k' = k
    · simp [h]
    · rw [if_neg (Ne.symm h),if_neg h]
  | cons x es ih =>
    rw [upsert]
    by_cases h1 : k < x.1
    · rw [if_pos h1,find]
      by_cases h : k' = k
      · simp [h]
      · rw [if_neg (Ne.symm h),if_neg h]
    · rw [if_neg h1]
      by_cases h2 : x.1 = k
      · rw [if_pos h2,find,find,h2]
        by_cases h : k' = k
        · simp [h]
        · rw [if_neg (Ne.symm h),if_neg h,if_neg (Ne.symm h)]
      · rw [if_neg h2,find,ih,find]
        by_cases h : k' = k
        · rw [if_pos h,h,if_neg h2,if_pos rfl]
        · rw [if_neg h,if_neg h]

theorem find_erase (k k' : K) (es : List (K × V)) :
    find k' (erase k es) = if k' = k then none else find k' es := by
  induction es with
  | nil => simp [erase,find]
  | cons x es ih =>
    rw [erase,List.filter_cons]
    by_cases hx : x.1 = k
    · simp only [hx,ne_eq,not_true_eq_false,decide_false,Bool.false_eq_true,if_false]
      rw [← erase,ih,find,hx]
      by_cases hk : k' = k
      · simp [hk]
      · simp [hk,Ne.symm hk]
    · simp only [hx,ne_eq,not_false_eq_true,decide_true,if_true]
      rw [find,← erase,ih,find]
      by_cases hk : k' = k
      · simp [hk,hx]
      · simp [hk]

theorem mem_upsert {k : K} {v : V} {es : List (K × V)} {e : K × V} (h : e ∈ upsert k v es) :
    e = (k,v) ∨ e ∈ es := by
  induction es with
  | nil => simpa [upsert] using h
  | cons x es ih =>
    rw [upsert] at h
    split_ifs at h with h1 h2
    · simpa using h
    · rcases List.mem_cons.mp h with rfl | h
      · exact Or.inl rfl
      · exact Or.inr (List.mem_cons_of_mem _ h)
    · rcases List.mem_cons.mp h with rfl | h
      · exact Or.inr List.mem_cons_self
      · rcases ih h with h | h
        · exact Or.inl h
        · exact Or.inr (List.mem_cons_of_mem _ h)

theorem sorted_upsert {k : K} {v : V} {es : List (K × V)} (hs : Sorted es) :
    Sorted (upsert k v es) := by
  induction es with
  | nil => simp [upsert,Sorted]
  | cons x es ih =>
    obtain ⟨hx,hs'⟩ := sorted_cons.mp hs
    rw [upsert]
    split_ifs with h1 h2
    · refine sorted_cons.mpr ⟨?_,hs⟩
      intro y hy
      rcases List.mem_cons.mp hy with rfl | hy
      · exact h1
      · exact h1.trans (hx y hy)
    · refine sorted_cons.mpr ⟨?_,hs'⟩
      intro y hy
      exact h2 ▸ hx y hy
    · refine sorted_cons.mpr ⟨?_,ih hs'⟩
      intro y hy
      rcases mem_upsert hy with rfl | hy
      · exact lt_of_le_of_ne (not_lt.mp h1) h2
      · exact hx y hy

theorem sorted_erase {k : K} {es : List (K × V)} (hs : Sorted es) : Sorted (erase k es) :=
  hs.sublist List.filter_sublist

theorem upsert_append_of_lt {k : K} {v : V} {xs ys : List (K × V)} (h : ∀ x ∈ xs, x.1 < k) :
    upsert k v (xs ++ ys) = xs ++ upsert k v ys := by
  induction xs with
  | nil => rfl
  | cons x xs ih =>
    have hx := h x List.mem_cons_self
    rw [List.cons_append,upsert,if_neg hx.not_gt,if_neg hx.ne,
      ih (fun y hy => h y (List.mem_cons_of_mem _ hy)),List.cons_append]

theorem upsert_append_of_gt {k : K} {v : V} {xs ys : List (K × V)} (h : ∀ y ∈ ys, k < y.1) :
    upsert k v (xs ++ ys) = upsert k v xs ++ ys := by
  induction xs with
  | nil =>
    cases ys with
    | nil => rfl
    | cons y ys => simp [upsert,h y List.mem_cons_self]
  | cons x xs ih =>
    rw [List.cons_append,upsert,upsert]
    split_ifs <;> simp [ih]

theorem find_append_of_lt {k : K} {xs ys : List (K × V)} (h : ∀ x ∈ xs, x.1 < k) :
    find k (xs ++ ys) = find k ys := by
  induction xs with
  | nil => rfl
  | cons x xs ih =>
    have hx := h x List.mem_cons_self
    rw [List.cons_append,find,if_neg hx.ne,ih (fun y hy => h y (List.mem_cons_of_mem _ hy))]

theorem find_append_of_gt {k : K} {xs ys : List (K × V)} (h : ∀ y ∈ ys, k < y.1) :
    find k (xs ++ ys) = find k xs := by
  induction xs with
  | nil => exact find_eq_none.mpr (fun e he => (h e he).ne')
  | cons x xs ih => rw [List.cons_append,find,find,ih]

theorem erase_append (k : K) (xs ys : List (K × V)) :
    erase k (xs ++ ys) = erase k xs ++ erase k ys := List.filter_append ..

theorem erase_of_not_mem {k : K} {es : List (K × V)} (h : ∀ e ∈ es, e.1 ≠ k) : erase k es = es :=
  List.filter_eq_self.mpr (fun e he => by simpa using h e he)

theorem rank_append_of_lt {k : K} {xs ys : List (K × V)} (h : ∀ x ∈ xs, x.1 < k)
    (hy : ∀ y ∈ ys, k ≤ y.1) : rank k (xs ++ ys) = xs.length := by
  induction xs with
  | nil =>
    cases ys with
    | nil => rfl
    | cons y ys => simp [rank_cons,hy y List.mem_cons_self]
  | cons x xs ih =>
    rw [List.cons_append,rank_cons,if_pos (h x List.mem_cons_self),
      ih (fun z hz => h z (List.mem_cons_of_mem _ hz)),List.length_cons]

theorem take_rank_lt {k : K} {es : List (K × V)} : ∀ x ∈ es.take (rank k es), x.1 < k := by
  intro x hx
  obtain ⟨i,hi⟩ := List.getElem?_of_mem hx
  rw [List.getElem?_take] at hi
  split_ifs at hi with h
  exact lt_of_getElem?_lt_rank h hi

theorem drop_rank_le {k : K} {es : List (K × V)} (hs : Sorted es) :
    ∀ x ∈ es.drop (rank k es), k ≤ x.1 := by
  intro x hx
  obtain ⟨i,hi⟩ := List.getElem?_of_mem hx
  rw [List.getElem?_drop] at hi
  exact le_of_rank_le_getElem? hs (by omega) hi

theorem drop_rank_gt {k : K} {es : List (K × V)} (hs : Sorted es) (hn : find k es = none) :
    ∀ x ∈ es.drop (rank k es), k < x.1 := by
  intro x hx
  have hm : x ∈ es := List.mem_of_mem_drop hx
  exact lt_of_le_of_ne (drop_rank_le hs x hx) (Ne.symm (find_eq_none.mp hn x hm))

theorem upsert_of_absent {k : K} {v : V} {es : List (K × V)} (hs : Sorted es)
    (hn : find k es = none) :
    upsert k v es = es.take (rank k es) ++ (k,v) :: es.drop (rank k es) := by
  conv_lhs => rw [← List.take_append_drop (rank k es) es]
  rw [upsert_append_of_lt take_rank_lt]
  have h : upsert k v ([] ++ es.drop (rank k es)) = upsert k v [] ++ es.drop (rank k es) :=
    upsert_append_of_gt (drop_rank_gt hs hn)
  simpa [upsert] using h

theorem drop_rank_of_found {k : K} {v : V} {es : List (K × V)} (hs : Sorted es)
    (hf : find k es = some v) : es.drop (rank k es) = (k,v) :: es.drop (rank k es + 1) := by
  induction es with
  | nil => simp [find] at hf
  | cons x es ih =>
    obtain ⟨hx,hs'⟩ := sorted_cons.mp hs
    rw [find] at hf
    split_ifs at hf with he
    · obtain rfl : x.2 = v := by simpa using hf
      have hr : rank k (x :: es) = 0 := by rw [rank_cons,if_neg (by rw [he]; exact lt_irrefl k)]
      rw [hr,← he]
      rfl
    · have hlt : x.1 < k := hx _ (mem_of_find hf)
      rw [rank_cons,if_pos hlt]
      simpa using ih hs' hf

theorem rank_lt_of_found {k : K} {v : V} {es : List (K × V)} (hs : Sorted es)
    (hf : find k es = some v) : rank k es < es.length := by
  have h := congrArg List.length (drop_rank_of_found hs hf)
  simp only [List.length_drop,List.length_cons] at h
  omega

theorem getElem?_rank_of_found {k : K} {v : V} {es : List (K × V)} (hs : Sorted es)
    (hf : find k es = some v) : es[rank k es]? = some (k,v) := by
  have h := congrArg (fun l => l[0]?) (drop_rank_of_found hs hf)
  simpa [List.getElem?_drop] using h

theorem gt_of_found {k : K} {v : V} {es : List (K × V)} (hs : Sorted es)
    (hf : find k es = some v) : ∀ x ∈ es.drop (rank k es + 1), k < x.1 := by
  have h : Sorted (es.drop (rank k es)) := hs.sublist (List.drop_sublist _ _)
  rw [drop_rank_of_found hs hf] at h
  exact (sorted_cons.mp h).1

theorem upsert_of_found {k : K} {v w : V} {es : List (K × V)} (hs : Sorted es)
    (hf : find k es = some w) :
    upsert k v es = es.take (rank k es) ++ (k,v) :: es.drop (rank k es + 1) := by
  conv_lhs => rw [← List.take_append_drop (rank k es) es,drop_rank_of_found hs hf]
  rw [upsert_append_of_lt take_rank_lt,upsert]
  simp

theorem erase_of_found {k : K} {v : V} {es : List (K × V)} (hs : Sorted es)
    (hf : find k es = some v) :
    erase k es = es.take (rank k es) ++ es.drop (rank k es + 1) := by
  conv_lhs => rw [← List.take_append_drop (rank k es) es,drop_rank_of_found hs hf]
  have h1 : erase k (es.take (rank k es)) = es.take (rank k es) :=
    erase_of_not_mem (fun e he => (take_rank_lt e he).ne)
  have h2 := erase_of_not_mem (k := k) (fun e he => (gt_of_found hs hf e he).ne')
  rw [erase_append,h1]
  congr 1
  simpa [erase] using h2

theorem insertIdx_eq_take_cons_drop {α : Type} {xs : List α} {i : Nat} (x : α)
    (h : i ≤ xs.length) : xs.insertIdx i x = xs.take i ++ x :: xs.drop i := by
  induction xs generalizing i with
  | nil =>
    obtain rfl : i = 0 := by simpa using h
    rfl
  | cons y xs ih =>
    cases i with
    | zero => rfl
    | succ i => simpa using @ih i (by simpa using h)

theorem upsert_eq_insertIdx {k : K} {v : V} {es : List (K × V)} (hs : Sorted es)
    (hn : find k es = none) : upsert k v es = es.insertIdx (rank k es) (k,v) := by
  rw [upsert_of_absent hs hn,insertIdx_eq_take_cons_drop _ (rank_le_length k es)]

theorem upsert_eq_set {k : K} {v w : V} {es : List (K × V)} (hs : Sorted es)
    (hf : find k es = some w) : upsert k v es = es.set (rank k es) (k,v) := by
  rw [upsert_of_found hs hf,List.set_eq_take_append_cons_drop,if_pos (rank_lt_of_found hs hf)]

theorem length_upsert_of_absent {k : K} {v : V} {es : List (K × V)} (hs : Sorted es)
    (hn : find k es = none) : (upsert k v es).length = es.length + 1 := by
  rw [upsert_eq_insertIdx hs hn,List.length_insertIdx_of_le_length (rank_le_length k es)]

theorem perm_upsert_of_absent {k : K} (v : V) {es : List (K × V)} (hs : Sorted es)
    (hn : find k es = none) : (upsert k v es).Perm ((k,v) :: es) := by
  rw [upsert_eq_insertIdx hs hn]
  exact List.perm_insertIdx _ _ (rank_le_length k es)

theorem upsert_between {k : K} {v : V} {xs ys zs : List (K × V)} (hx : ∀ x ∈ xs, x.1 < k)
    (hz : ∀ z ∈ zs, k < z.1) : upsert k v (xs ++ (ys ++ zs)) = xs ++ (upsert k v ys ++ zs) := by
  rw [upsert_append_of_lt hx,upsert_append_of_gt hz]

theorem upsert_last {k : K} {v : V} {es : List (K × V)} (h : ∀ x ∈ es, x.1 < k) :
    upsert k v es = es ++ [(k,v)] := by
  rw [← List.append_nil es,upsert_append_of_lt h,List.append_nil]
  rfl

theorem take_rank_eq_filter {k : K} {es : List (K × V)} (hs : Sorted es) :
    es.take (rank k es) = es.filter (fun e => e.1 < k) := by
  conv_rhs => rw [← List.take_append_drop (rank k es) es,List.filter_append]
  rw [List.filter_eq_self.mpr (fun e he => by simpa using take_rank_lt e he),
    List.filter_eq_nil_iff.mpr (fun e he => by simpa using drop_rank_le hs e he),List.append_nil]

theorem drop_rank_eq_filter {k : K} {es : List (K × V)} (hs : Sorted es) (hn : find k es = none) :
    es.drop (rank k es) = es.filter (fun e => k < e.1) := by
  conv_rhs => rw [← List.take_append_drop (rank k es) es,List.filter_append]
  rw [List.filter_eq_nil_iff.mpr (fun e he => by simpa using (take_rank_lt e he).le),
    List.filter_eq_self.mpr (fun e he => by simpa using drop_rank_gt hs hn e he),List.nil_append]

theorem rank_eq_countP {k : K} {es : List (K × V)} (hs : Sorted es) :
    rank k es = es.countP (fun e => e.1 < k) := by
  rw [List.countP_eq_length_filter,← take_rank_eq_filter hs,List.length_take,
    Nat.min_eq_left (rank_le_length k es)]

end SortedAssoc
