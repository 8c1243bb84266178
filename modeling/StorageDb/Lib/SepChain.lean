import Mathlib.Tactic
import Mathlib.Order.WithBot
import StorageDb.Lib.SortedAssoc

namespace SepChain

variable {K C I : Type} [LinearOrder K]

def InRange (lo : WithBot K) (hi : WithTop K) (k : K) : Prop := lo ≤ k ∧ k < hi

def Chain (P : WithBot K → WithTop K → C → Prop) :
    WithBot K → WithTop K → C → List (K × C) → Prop
  | lo, hi, c, [] => P lo hi c
  | lo, hi, c, (s,c') :: rest => P lo s c ∧ lo < s ∧ s < hi ∧ Chain P s hi c' rest

def reach (k : K) : List (K × C) → Nat
  | [] => 0
  | (s,_) :: rest => if k < s then 0 else reach k rest + 1

def route (k : K) : C → List (K × C) → C
  | c, [] => c
  | c, (s,c') :: rest => if k < s then c else route k c' rest

-- The lower bound of the child that k is routed to.
def floor (k : K) : WithBot K → List (K × C) → WithBot K
  | lo, [] => lo
  | lo, (s,_) :: rest => if k < s then lo else floor k s rest

def graft (k : K) (f : C → C × List (K × C)) : C → List (K × C) → C × List (K × C)
  | c, [] => f c
  | c, (s,c') :: rest =>
    if k < s then ((f c).1,(f c).2 ++ (s,c') :: rest)
    else (c,(s,(graft k f c' rest).1) :: (graft k f c' rest).2)

def children (c : C) (es : List (K × C)) : List C := c :: es.map Prod.snd

theorem inRange_bot_top (k : K) : InRange ⊥ ⊤ k := ⟨bot_le,WithTop.coe_lt_top k⟩

section chain

variable {P Q : WithBot K → WithTop K → C → Prop} {lo : WithBot K} {hi : WithTop K}
  {c c' : C} {es rest : List (K × C)} {s k : K}

theorem chain_append : Chain P lo hi c (es ++ (s,c') :: rest) ↔
    Chain P lo s c es ∧ lo < s ∧ s < hi ∧ Chain P s hi c' rest := by
  induction es generalizing lo c with
  | nil => simp [Chain]
  | cons e es ih =>
    obtain ⟨t,d⟩ := e
    simp only [List.cons_append,Chain,ih]
    constructor
    · rintro ⟨hp,hlo,hhi,hc,hts,hs,hr⟩
      exact ⟨⟨hp,hlo,WithTop.coe_lt_coe.mpr (WithBot.coe_lt_coe.mp hts),hc⟩,hlo.trans hts,hs,hr⟩
    · rintro ⟨⟨hp,hlo,hts,hc⟩,_,hs,hr⟩
      exact ⟨hp,hlo,hts.trans hs,hc,WithBot.coe_lt_coe.mpr (WithTop.coe_lt_coe.mp hts),hs,hr⟩

theorem chain_mono (hPQ : ∀ a b x, x ∈ children c es → P a b x → Q a b x)
    (h : Chain P lo hi c es) : Chain Q lo hi c es := by
  induction es generalizing lo c with
  | nil => exact hPQ _ _ _ (by simp [children]) h
  | cons e es ih =>
    obtain ⟨t,d⟩ := e
    simp only [Chain] at h ⊢
    refine ⟨hPQ _ _ _ (by simp [children]) h.1,h.2.1,h.2.2.1,ih ?_ h.2.2.2⟩
    intro a b x hx
    exact hPQ a b x (by simp only [children,List.map_cons] at hx ⊢; exact List.mem_cons_of_mem _ hx)

theorem chain_sorted (h : Chain P lo hi c es) :
    SortedAssoc.Sorted es ∧ ∀ e ∈ es, lo < e.1 ∧ e.1 < hi := by
  induction es generalizing lo c with
  | nil => simp
  | cons e es ih =>
    obtain ⟨t,d⟩ := e
    simp only [Chain] at h
    obtain ⟨_,hlo,hhi,hc⟩ := h
    obtain ⟨hs,hb⟩ := ih hc
    refine ⟨SortedAssoc.sorted_cons.mpr ⟨fun x hx => WithBot.coe_lt_coe.mp (hb x hx).1,hs⟩,?_⟩
    intro x hx
    rcases List.mem_cons.mp hx with rfl | hx
    · exact ⟨hlo,hhi⟩
    · exact ⟨hlo.trans (hb x hx).1,(hb x hx).2⟩

theorem chain_children (h : Chain P lo hi c es) : ∀ x ∈ children c es, ∃ a b, P a b x := by
  induction es generalizing lo c with
  | nil =>
    intro x hx
    obtain rfl : x = c := by simpa [children] using hx
    exact ⟨lo,hi,h⟩
  | cons e es ih =>
    obtain ⟨t,d⟩ := e
    simp only [Chain] at h
    intro x hx
    rcases List.mem_cons.mp hx with rfl | hx
    · exact ⟨_,_,h.1⟩
    · exact ih h.2.2.2 x hx

theorem chain_route (h : Chain P lo hi c es) (hk : InRange lo hi k) :
    ∃ b, InRange (floor k lo es) b k ∧ P (floor k lo es) b (route k c es) := by
  induction es generalizing lo c with
  | nil => exact ⟨hi,hk,h⟩
  | cons e es ih =>
    obtain ⟨t,d⟩ := e
    simp only [Chain] at h
    rw [route,floor]
    split_ifs with hkt
    · exact ⟨t,⟨hk.1,WithTop.coe_lt_coe.mpr hkt⟩,h.1⟩
    · exact ih h.2.2.2 ⟨WithBot.coe_le_coe.mpr (not_lt.mp hkt),hk.2⟩

theorem chain_before (h : Chain P lo hi c es) (k : K) :
    ∀ x ∈ (children c es).take (reach k es), ∃ a, ∃ b : K, P a b x ∧ b ≤ k := by
  induction es generalizing lo c with
  | nil => simp [reach]
  | cons e es ih =>
    obtain ⟨t,d⟩ := e
    simp only [Chain] at h
    intro x hx
    rw [reach] at hx
    split_ifs at hx with hkt
    · simp at hx
    · rw [children,List.take_succ_cons,List.mem_cons] at hx
      rcases hx with rfl | hx
      · exact ⟨lo,t,h.1,not_lt.mp hkt⟩
      · exact ih h.2.2.2 x hx

theorem chain_graft {f : C → C × List (K × C)} (h : Chain P lo hi c es) (hk : InRange lo hi k)
    (hf : ∀ b, InRange (floor k lo es) b k → P (floor k lo es) b (route k c es) →
      Chain Q (floor k lo es) b (f (route k c es)).1 (f (route k c es)).2)
    (hPQ : ∀ a b x, P a b x → Q a b x) :
    Chain Q lo hi (graft k f c es).1 (graft k f c es).2 := by
  induction es generalizing lo c with
  | nil => exact hf _ hk h
  | cons e es ih =>
    obtain ⟨t,d⟩ := e
    simp only [Chain] at h
    obtain ⟨hp,hlo,hhi,hc⟩ := h
    rw [route,floor] at hf
    rw [graft]
    split_ifs at hf ⊢ with hkt
    · exact chain_append.mpr ⟨hf _ ⟨hk.1,WithTop.coe_lt_coe.mpr hkt⟩ hp,hlo,hhi,
        chain_mono (fun a b x _ => hPQ a b x) hc⟩
    · exact ⟨hPQ _ _ _ hp,hlo,hhi,ih hc ⟨WithBot.coe_le_coe.mpr (not_lt.mp hkt),hk.2⟩ hf⟩

theorem chain_of_graft {f : C → C × List (K × C)}
    (h : Chain P lo hi (graft k f c es).1 (graft k f c es).2) :
    ∃ b, Chain P (floor k lo es) b (f (route k c es)).1 (f (route k c es)).2 := by
  induction es generalizing lo c with
  | nil => exact ⟨hi,h⟩
  | cons e es ih =>
    obtain ⟨t,d⟩ := e
    rw [graft] at h
    rw [route,floor]
    split_ifs at h ⊢ with hkt
    · exact ⟨t,(chain_append.mp h).1⟩
    · exact ih h.2.2.2

theorem chain_map {f : C → C} : Chain P lo hi (f c) (es.map (fun x => (x.1,f x.2))) ↔
    Chain (fun a b x => P a b (f x)) lo hi c es := by
  induction es generalizing lo c with
  | nil => rfl
  | cons e es ih =>
    obtain ⟨t,d⟩ := e
    simp only [List.map_cons,Chain,ih]

end chain

theorem reach_le_length (k : K) (es : List (K × C)) : reach k es ≤ es.length := by
  induction es with
  | nil => simp [reach]
  | cons e es ih =>
    rw [reach]
    split_ifs
    · omega
    · rw [List.length_cons]
      omega

theorem le_of_lt_reach {k : K} {es : List (K × C)} {i : Nat} {e : K × C}
    (hi : i < reach k es) (he : es[i]? = some e) : e.1 ≤ k := by
  induction es generalizing i with
  | nil => simp at he
  | cons x es ih =>
    obtain ⟨s,c⟩ := x
    rw [reach] at hi
    split_ifs at hi with hs
    · omega
    · cases i with
      | zero =>
        obtain rfl : (s,c) = e := by simpa using he
        exact not_lt.mp hs
      | succ i => exact ih (i := i) (by omega) (by simpa using he)

theorem lt_of_reach_le {k : K} {es : List (K × C)} (hs : SortedAssoc.Sorted es) {i : Nat}
    {e : K × C} (hi : reach k es ≤ i) (he : es[i]? = some e) : k < e.1 := by
  induction es generalizing i with
  | nil => simp at he
  | cons x es ih =>
    obtain ⟨hx,hs'⟩ := SortedAssoc.sorted_cons.mp hs
    obtain ⟨s,c⟩ := x
    rw [reach] at hi
    split_ifs at hi with hk
    · cases i with
      | zero =>
        obtain rfl : (s,c) = e := by simpa using he
        exact hk
      | succ i => exact hk.trans (hx e (List.mem_of_getElem? (i := i) (by simpa using he)))
    · cases i with
      | zero => omega
      | succ i => exact ih hs' (i := i) (by omega) (by simpa using he)

theorem reach_of_sorted {s : K} {x : C} {xs ys : List (K × C)}
    (h : SortedAssoc.Sorted (xs ++ (s,x) :: ys)) : reach s (xs ++ ys) = xs.length := by
  obtain ⟨-,hy,hlt⟩ := SortedAssoc.sorted_append.mp h
  induction xs with
  | nil =>
    cases ys with
    | nil => rfl
    | cons y ys =>
      have := (SortedAssoc.sorted_cons.mp hy).1 y List.mem_cons_self
      exact if_pos this
  | cons e xs ih =>
    obtain ⟨t,d⟩ := e
    have hts : t < s := hlt (t,d) List.mem_cons_self (s,x) List.mem_cons_self
    rw [List.cons_append,reach,if_neg hts.not_gt,List.length_cons]
    rw [ih (SortedAssoc.sorted_cons.mp h).2
      (fun z hz => hlt z (List.mem_cons_of_mem _ hz))]

theorem reach_eq_countP {k : K} {es : List (K × C)} (hs : SortedAssoc.Sorted es) :
    reach k es = es.countP (fun e => e.1 ≤ k) := by
  have h : es.countP (fun e => e.1 ≤ k) =
      (es.take (reach k es) ++ es.drop (reach k es)).countP (fun e => e.1 ≤ k) := by
    rw [List.take_append_drop]
  have h1 : (es.take (reach k es)).countP (fun e => e.1 ≤ k) = (es.take (reach k es)).length := by
    refine List.countP_eq_length.mpr (fun e he => ?_)
    obtain ⟨i,hi⟩ := List.getElem?_of_mem he
    rw [List.getElem?_take] at hi
    split_ifs at hi with hlt
    simpa using le_of_lt_reach hlt hi
  have h2 : (es.drop (reach k es)).countP (fun e => e.1 ≤ k) = 0 := by
    refine List.countP_eq_zero.mpr (fun e he => ?_)
    obtain ⟨i,hi⟩ := List.getElem?_of_mem he
    rw [List.getElem?_drop] at hi
    simpa using lt_of_reach_le hs (Nat.le_add_right _ i) hi
  rw [h,List.countP_append,h1,h2,List.length_take,Nat.min_eq_left (reach_le_length k es),
    Nat.add_zero]

theorem reach_eq_rank {k : K} {es : List (K × C)} (hs : SortedAssoc.Sorted es)
    (hn : ∀ e ∈ es, e.1 ≠ k) : reach k es = SortedAssoc.rank k es := by
  rw [reach_eq_countP hs,SortedAssoc.rank_eq_countP hs]
  refine List.countP_congr (fun e he => ?_)
  simp [le_iff_lt_or_eq,hn e he]

theorem getElem?_children_reach (k : K) (c : C) (es : List (K × C)) :
    (children c es)[reach k es]? = some (route k c es) := by
  induction es generalizing c with
  | nil => rfl
  | cons e es ih =>
    obtain ⟨s,d⟩ := e
    rw [reach,route]
    split_ifs
    · rfl
    · simpa [children] using ih d

theorem route_mem (k : K) (c : C) (es : List (K × C)) : route k c es ∈ children c es :=
  List.mem_of_getElem? (getElem?_children_reach k c es)

theorem children_split (k : K) (c : C) (es : List (K × C)) :
    children c es = (children c es).take (reach k es) ++
      route k c es :: (children c es).drop (reach k es + 1) := by
  have h := getElem?_children_reach k c es
  obtain ⟨hlt,he⟩ := List.getElem?_eq_some_iff.mp h
  rw [← he,List.getElem_cons_drop,List.take_append_drop]

theorem children_graft (k : K) (f : C → C × List (K × C)) (c : C) (es : List (K × C)) :
    children (graft k f c es).1 (graft k f c es).2 =
      (children c es).take (reach k es) ++
        (children (f (route k c es)).1 (f (route k c es)).2 ++
          (children c es).drop (reach k es + 1)) := by
  induction es generalizing c with
  | nil => simp [graft,reach,route,children]
  | cons e es ih =>
    obtain ⟨s,d⟩ := e
    rw [graft,reach,route]
    split_ifs
    · simp [children]
    · simpa [children] using ih d

theorem length_graft (k : K) (f : C → C × List (K × C)) (c : C) (es : List (K × C)) :
    (graft k f c es).2.length = es.length + (f (route k c es)).2.length := by
  have h := congrArg List.length (children_graft k f c es)
  have hr := reach_le_length k es
  simp only [children,List.length_cons,List.length_append,List.length_take,List.length_drop,
    List.length_map] at h
  omega

def labels (lab : C → I) (es : List (K × C)) : List (K × I) := es.map (fun e => (e.1,lab e.2))

theorem route_labels (lab : C → I) (k : K) (c : C) (es : List (K × C)) :
    route k (lab c) (labels lab es) = lab (route k c es) := by
  induction es generalizing c with
  | nil => rfl
  | cons e es ih =>
    obtain ⟨s,d⟩ := e
    simp only [labels,List.map_cons,route]
    rw [← labels,ih]
    split_ifs <;> rfl

theorem labels_graft (lab : C → I) (k : K) (f : C → C × List (K × C)) (c : C)
    (es : List (K × C)) (hl : lab (f (route k c es)).1 = lab (route k c es)) :
    lab (graft k f c es).1 = lab c ∧ labels lab (graft k f c es).2 =
      (labels lab es).take (reach k es) ++
        (labels lab (f (route k c es)).2 ++ (labels lab es).drop (reach k es)) := by
  induction es generalizing c with
  | nil => exact ⟨hl,by simp [graft,reach,route,labels]⟩
  | cons e es ih =>
    obtain ⟨s,d⟩ := e
    rw [route] at hl
    rw [graft,reach,route]
    split_ifs at hl ⊢ with hk
    · exact ⟨hl,by simp [labels]⟩
    · obtain ⟨h1,h2⟩ := ih d hl
      refine ⟨rfl,?_⟩
      simp only [labels,List.map_cons,List.take_succ_cons,List.drop_succ_cons,List.cons_append]
      rw [h1]
      exact congrArg _ h2

section contents

variable {V : Type} {P : WithBot K → WithTop K → C → Prop} {lo : WithBot K} {hi : WithTop K}
  {c : C} {es : List (K × C)} {g : C → List (K × V)}

def contents (g : C → List (K × V)) (c : C) (es : List (K × C)) : List (K × V) :=
  (children c es).flatMap g

omit [LinearOrder K] in
theorem contents_cons (g : C → List (K × V)) (c c' : C) (s : K) (es : List (K × C)) :
    contents g c ((s,c') :: es) = g c ++ contents g c' es := by
  simp [contents,children]

omit [LinearOrder K] in
theorem contents_append (g : C → List (K × V)) (c c' : C) (s : K) (es rest : List (K × C)) :
    contents g c (es ++ (s,c') :: rest) = contents g c es ++ contents g c' rest := by
  simp [contents,children]

theorem contents_range (hg : ∀ a b x, P a b x → ∀ e ∈ g x, InRange a b e.1)
    (h : Chain P lo hi c es) : ∀ e ∈ contents g c es, InRange lo hi e.1 := by
  induction es generalizing lo c with
  | nil => simpa [contents,children] using hg _ _ _ h
  | cons e es ih =>
    obtain ⟨t,d⟩ := e
    simp only [Chain] at h
    obtain ⟨hp,hlo,hhi,hc⟩ := h
    intro x hx
    rw [contents_cons] at hx
    rcases List.mem_append.mp hx with hx | hx
    · have hr := hg _ _ _ hp x hx
      exact ⟨hr.1,hr.2.trans hhi⟩
    · have hr := ih hc x hx
      exact ⟨hlo.le.trans hr.1,hr.2⟩

theorem contents_sorted (hg : ∀ a b x, P a b x → SortedAssoc.Sorted (g x))
    (hr : ∀ a b x, P a b x → ∀ e ∈ g x, InRange a b e.1)
    (h : Chain P lo hi c es) : SortedAssoc.Sorted (contents g c es) := by
  induction es generalizing lo c with
  | nil => simpa [contents,children] using hg _ _ _ h
  | cons e es ih =>
    obtain ⟨t,d⟩ := e
    simp only [Chain] at h
    obtain ⟨hp,hlo,hhi,hc⟩ := h
    rw [contents_cons]
    refine SortedAssoc.sorted_append.mpr ⟨hg _ _ _ hp,ih hc,?_⟩
    intro x hx y hy
    exact WithTop.coe_lt_coe.mp ((hr _ _ _ hp x hx).2.trans_le
      (WithTop.coe_le_coe.mpr (WithBot.coe_le_coe.mp (contents_range hr hc y hy).1)))

theorem contents_graft (hr : ∀ a b x, P a b x → ∀ e ∈ g x, InRange a b e.1)
    (h : Chain P lo hi c es) (k : K) :
    ∃ A B, contents g c es = A ++ (g (route k c es) ++ B) ∧
      (∀ f, contents g (graft k f c es).1 (graft k f c es).2 =
        A ++ (contents g (f (route k c es)).1 (f (route k c es)).2 ++ B)) ∧
      (∀ e ∈ A, e.1 < k) ∧ ∀ e ∈ B, k < e.1 := by
  induction es generalizing lo c with
  | nil => exact ⟨[],[],by simp [contents,children,route],by simp [graft,route],by simp,by simp⟩
  | cons e es ih =>
    obtain ⟨t,d⟩ := e
    simp only [Chain] at h
    obtain ⟨hp,hlo,hhi,hc⟩ := h
    simp only [route,graft]
    split_ifs with hkt
    · refine ⟨[],contents g d es,by simp [contents_cons],?_,by simp,?_⟩
      · intro f
        rw [contents_append,List.nil_append]
      · intro e he
        exact hkt.trans_le (WithBot.coe_le_coe.mp (contents_range hr hc e he).1)
    · obtain ⟨A,B,hA,hf,hlt,hgt⟩ := ih hc
      refine ⟨g c ++ A,B,by rw [contents_cons,hA,List.append_assoc],?_,?_,hgt⟩
      · intro f
        rw [contents_cons,hf f,List.append_assoc]
      · intro e he
        rcases List.mem_append.mp he with he | he
        · exact (WithTop.coe_lt_coe.mp (hr _ _ _ hp e he).2).trans_le (not_lt.mp hkt)
        · exact hlt e he

end contents

end SepChain
