import Mathlib.Tactic
import StorageDb.Lib.Bytes

namespace SlotPage
open Bytes

structure Format (R : Type) where
  start : Nat
  size : Nat
  enc : Nat → R → Bytes
  blob : R → Bytes
  enc_length : ∀ o r, (enc o r).length = size

variable {R : Type} (F : Format R)

namespace Format

def slotOff (i : Nat) : Nat := F.start + i * F.size

def slotAt (d : Bytes) (i : Nat) : Bytes := slice d (F.slotOff i) F.size

def putSlot (d : Bytes) (i : Nat) (s : Bytes) : Bytes := splice d (F.slotOff i) s

-- Slots pos, .., pos + m - 1 move one place up, the last one first.
def shift (pos : Nat) : Nat → Bytes → Bytes
  | 0, d => d
  | m + 1, d => shift pos m (F.putSlot d (pos + m + 1) (F.slotAt d (pos + m)))

def total (rs : List R) : Nat := (rs.map (fun r => (F.blob r).length)).sum

theorem slotOff_succ (i : Nat) : F.slotOff (i + 1) = F.slotOff i + F.size := by
  simp only [slotOff,Nat.succ_mul]
  omega

theorem slotOff_le {i j : Nat} (h : i ≤ j) : F.slotOff i ≤ F.slotOff j :=
  Nat.add_le_add_left (Nat.mul_le_mul_right _ h) _

theorem slotOff_lt {i j : Nat} (h : i < j) : F.slotOff i + F.size ≤ F.slotOff j := by
  rw [← slotOff_succ]
  exact F.slotOff_le h

theorem start_le_slotOff (i : Nat) : F.start ≤ F.slotOff i := Nat.le_add_right _ _

theorem slotOff_eq (n : Nat) : F.slotOff n = F.start + F.size * n := by
  rw [slotOff,Nat.mul_comm]

@[simp] theorem total_nil : F.total [] = 0 := rfl

@[simp] theorem total_cons (r : R) (rs : List R) :
    F.total (r :: rs) = (F.blob r).length + F.total rs := by simp [total]

theorem total_perm {rs ss : List R} (h : rs.Perm ss) : F.total rs = F.total ss :=
  (h.map _).sum_eq

end Format

open Format

theorem length_putSlot {d s : Bytes} {i : Nat} (hs : s.length = F.size)
    (h : F.slotOff i + F.size ≤ d.length) : (F.putSlot d i s).length = d.length := by
  rw [putSlot,length_splice (by omega)]

theorem slotAt_putSlot {d s : Bytes} {i j : Nat} (hs : s.length = F.size)
    (h : F.slotOff i + F.size ≤ d.length) :
    F.slotAt (F.putSlot d i s) j = if j = i then s else F.slotAt d j := by
  split_ifs with hij
  · subst hij
    rw [slotAt,putSlot,← hs,slice_splice_same (by omega)]
  · rcases Nat.lt_or_gt_of_ne hij with hlt | hgt
    · exact slice_splice_disjoint (by omega) (Or.inl (F.slotOff_lt hlt))
    · exact slice_splice_disjoint (by omega) (Or.inr (by have := F.slotOff_lt hgt; omega))

theorem slice_putSlot {d s : Bytes} {i off len : Nat} (hs : s.length = F.size)
    (h : F.slotOff i + F.size ≤ d.length)
    (hd : off + len ≤ F.slotOff i ∨ F.slotOff (i + 1) ≤ off) :
    slice (F.putSlot d i s) off len = slice d off len := by
  rw [slotOff_succ] at hd
  exact slice_splice_disjoint (by omega) (by omega)

theorem length_slotAt {d : Bytes} {i : Nat} (h : F.slotOff i + F.size ≤ d.length) :
    (F.slotAt d i).length = F.size := length_slice h

theorem length_shift {d : Bytes} {pos m : Nat} (h : F.slotOff (pos + m + 1) ≤ d.length) :
    (F.shift pos m d).length = d.length := by
  induction m generalizing d with
  | zero => rfl
  | succ m ih =>
    have h1 := F.slotOff_succ (pos + m + 1)
    have h2 := F.slotOff_succ (pos + m)
    rw [← Nat.add_assoc] at h
    have hs := length_slotAt F (d := d) (i := pos + m) (by omega)
    have hl := length_putSlot F (d := d) (i := pos + m + 1) hs (by omega)
    rw [shift,ih (by rw [hl]; omega),hl]

theorem slice_shift {d : Bytes} {pos m off len : Nat} (h : F.slotOff (pos + m + 1) ≤ d.length)
    (hd : off + len ≤ F.slotOff (pos + 1) ∨ F.slotOff (pos + m + 1) ≤ off) :
    slice (F.shift pos m d) off len = slice d off len := by
  induction m generalizing d with
  | zero => rfl
  | succ m ih =>
    have h1 := F.slotOff_succ (pos + m + 1)
    have h2 := F.slotOff_succ (pos + m)
    rw [← Nat.add_assoc] at h
    have h3 := F.slotOff_le (show pos + 1 ≤ pos + m + 1 by omega)
    rw [← Nat.add_assoc] at hd
    have hs := length_slotAt F (d := d) (i := pos + m) (by omega)
    have hl := length_putSlot F (d := d) (i := pos + m + 1) hs (by omega)
    rw [shift,ih (by rw [hl]; omega) (by omega)]
    exact slice_putSlot F hs (by omega) (by omega)

theorem slotAt_shift {d : Bytes} {pos m : Nat} (h : F.slotOff (pos + m + 1) ≤ d.length) (i : Nat) :
    F.slotAt (F.shift pos m d) i =
      if pos < i ∧ i ≤ pos + m then F.slotAt d (i - 1) else F.slotAt d i := by
  induction m generalizing d with
  | zero =>
    rw [shift,if_neg (by omega)]
  | succ m ih =>
    have h1 := F.slotOff_succ (pos + m + 1)
    have h2 := F.slotOff_succ (pos + m)
    rw [← Nat.add_assoc] at h
    have hs := length_slotAt F (d := d) (i := pos + m) (by omega)
    have hl := length_putSlot F (d := d) (i := pos + m + 1) hs (by omega)
    rw [shift,ih (by rw [hl]; omega),slotAt_putSlot F hs (by omega),slotAt_putSlot F hs (by omega)]
    by_cases hi : i = pos + m + 1
    · rw [if_neg (by omega),if_pos hi,if_pos (by omega),hi]
      rfl
    · split_ifs <;> first | rfl | omega

def frontier (n : Nat) (ps : List (Nat × R)) : Nat := ps.foldr (fun p m => min p.1 m) n

theorem frontier_le_of_mem {n : Nat} {ps : List (Nat × R)} {p : Nat × R} (h : p ∈ ps) :
    frontier n ps ≤ p.1 := by
  induction ps with
  | nil => simp at h
  | cons q ps ih =>
    rcases List.mem_cons.mp h with rfl | h
    · exact Nat.min_le_left _ _
    · exact (Nat.min_le_right _ _).trans (ih h)

theorem frontier_insertIdx {n pos : Nat} {ps : List (Nat × R)} (p : Nat × R)
    (h : pos ≤ ps.length) : frontier n (ps.insertIdx pos p) = min p.1 (frontier n ps) := by
  induction ps generalizing pos with
  | nil =>
    obtain rfl : pos = 0 := by simpa using h
    rfl
  | cons q ps ih =>
    cases pos with
    | zero => rfl
    | succ pos =>
      have hq := @ih pos (by simpa using h)
      simp only [List.insertIdx_succ_cons,frontier,List.foldr_cons] at hq ⊢
      rw [hq]
      omega

theorem frontier_eq_of_least {n m : Nat} {ps : List (Nat × R)} (hm : ∃ p ∈ ps, p.1 = m)
    (hle : ∀ p ∈ ps, m ≤ p.1) (hn : m ≤ n) : frontier n ps = m := by
  apply le_antisymm
  · obtain ⟨p,hp,rfl⟩ := hm
    exact frontier_le_of_mem hp
  · clear hm
    induction ps with
    | nil => exact hn
    | cons p ps ih =>
      exact le_min (hle p List.mem_cons_self) (ih (fun q hq => hle q (List.mem_cons_of_mem _ hq)))

theorem foldlM_min {g : Nat → Nat → Option Nat} {f : Nat → Nat} (is : List Nat)
    (h : ∀ i ∈ is, ∀ low, g low i = some (if f i < low then f i else low)) (m0 : Nat) :
    ∃ m, is.foldlM g m0 = some m ∧ m ≤ m0 ∧ (∀ i ∈ is, m ≤ f i) ∧ (m = m0 ∨ ∃ i ∈ is, m = f i) := by
  induction is generalizing m0 with
  | nil => exact ⟨m0,rfl,le_rfl,by simp,Or.inl rfl⟩
  | cons i is ih =>
    have hi := h i List.mem_cons_self m0
    obtain ⟨m,hm,hle,hall,hor⟩ := ih (fun j hj => h j (List.mem_cons_of_mem _ hj))
      (if f i < m0 then f i else m0)
    refine ⟨m,by rw [List.foldlM_cons,hi]; exact hm,?_,?_,?_⟩
    · split_ifs at hle <;> omega
    · intro j hj
      rcases List.mem_cons.mp hj with rfl | hj
      · split_ifs at hle <;> omega
      · exact hall j hj
    · rcases hor with rfl | ⟨j,hj,rfl⟩
      · split_ifs
        · exact Or.inr ⟨i,List.mem_cons_self,rfl⟩
        · exact Or.inl rfl
      · exact Or.inr ⟨j,List.mem_cons_of_mem _ hj,rfl⟩

theorem mapM_range' {α : Type} {f : Nat → Option α} {xs : List α}
    (h : ∀ i x, xs[i]? = some x → f i = some x) {s m : Nat} (hm : s + m ≤ xs.length) :
    (List.range' s m).mapM f = some ((xs.drop s).take m) := by
  induction m generalizing s with
  | zero => rfl
  | succ m ih =>
    have hs : s < xs.length := by omega
    rw [List.range'_succ,List.mapM_cons,h s xs[s] (List.getElem?_eq_getElem hs),
      ih (by omega),List.drop_eq_getElem_cons hs]
    rfl

theorem mapM_range {α : Type} {f : Nat → Option α} {xs : List α}
    (h : ∀ i x, xs[i]? = some x → f i = some x) : (List.range xs.length).mapM f = some xs := by
  rw [List.range_eq_range',mapM_range' h (by omega)]
  simp

theorem filter_range_ne {n j : Nat} (h : j < n) : (List.range n).filter (· ≠ j) =
    List.range' 0 j ++ List.range' (j + 1) (n - (j + 1)) := by
  have he : n = j + (1 + (n - (j + 1))) := by omega
  have h1 : (List.range' 0 j).filter (· ≠ j) = List.range' 0 j :=
    List.filter_eq_self.mpr (fun i hi => by
      have := List.mem_range'_1.mp hi
      simp
      omega)
  have h2 : (List.range' (j + 1) (n - (j + 1))).filter (· ≠ j) =
      List.range' (j + 1) (n - (j + 1)) :=
    List.filter_eq_self.mpr (fun i hi => by
      have := List.mem_range'_1.mp hi
      simp
      omega)
  rw [List.range_eq_range']
  conv_lhs =>
    rw [he,← List.range'_append_1,← List.range'_append_1,List.filter_append,List.filter_append]
  rw [h1,Nat.zero_add,h2]
  simp

theorem mapM_range_ne {α : Type} {f : Nat → Option α} {xs : List α}
    (h : ∀ i x, xs[i]? = some x → f i = some x) {j : Nat} (hj : j < xs.length) :
    ((List.range xs.length).filter (· ≠ j)).mapM f = some (xs.take j ++ xs.drop (j + 1)) := by
  rw [filter_range_ne hj,List.mapM_append,mapM_range' h (by omega),mapM_range' h (by omega)]
  simp

structure Layout (d : Bytes) (ps : List (Nat × R)) : Prop where
  slot : ∀ i p, ps[i]? = some p → F.slotAt d i = F.enc p.1 p.2
  data : ∀ p ∈ ps, slice d p.1 (F.blob p.2).length = F.blob p.2
  high : ∀ p ∈ ps, p.1 + (F.blob p.2).length ≤ d.length
  tight : frontier d.length ps + F.total (ps.map Prod.snd) = d.length
  room : F.slotOff ps.length + F.total (ps.map Prod.snd) ≤ d.length
  apart : ps.Pairwise (fun p q =>
    p.1 + (F.blob p.2).length ≤ q.1 ∨ q.1 + (F.blob q.2).length ≤ p.1)

def insertBytes (d : Bytes) (n pos o : Nat) (r : R) : Bytes :=
  F.putSlot (F.shift pos (n - pos) (splice d o (F.blob r))) pos (F.enc o r)

section insert

variable {F}
variable {d : Bytes} {ps : List (Nat × R)} {pos : Nat} {r : R}

theorem layout_nil {d : Bytes} (h : F.start ≤ d.length) : Layout F d [] where
  slot := by simp
  data := by simp
  high := by simp
  tight := by simp [frontier]
  room := by simpa [slotOff] using h
  apart := List.Pairwise.nil

theorem Layout.frontier_eq (h : Layout F d ps) :
    frontier d.length ps = d.length - F.total (ps.map Prod.snd) := by
  have := h.tight
  omega

theorem layout_congr {d' : Bytes} (hl : d'.length = d.length)
    (hs : ∀ off len, F.start ≤ off → slice d' off len = slice d off len)
    (h : Layout F d ps) : Layout F d' ps where
  slot i p hp := by rw [slotAt,hs _ _ (F.start_le_slotOff i)]; exact h.slot i p hp
  data p hp := by
    have hb := h.room
    have ht := h.tight
    have hf := frontier_le_of_mem (n := d.length) hp
    have h0 := F.start_le_slotOff ps.length
    rw [hs _ _ (by omega)]
    exact h.data p hp
  high p hp := by rw [hl]; exact h.high p hp
  tight := by rw [hl]; exact h.tight
  room := by rw [hl]; exact h.room
  apart := h.apart

section room

variable (h : Layout F d ps) (hpos : pos ≤ ps.length)
  (hr : F.slotOff (ps.length + 1) + F.total (ps.map Prod.snd) + (F.blob r).length ≤ d.length)
include h hpos hr

omit hpos in
theorem length_spliced :
    (splice d (frontier d.length ps - (F.blob r).length) (F.blob r)).length = d.length :=
  length_splice (by have := h.tight; omega)

theorem shifted_end : F.slotOff (pos + (ps.length - pos) + 1) ≤
    (splice d (frontier d.length ps - (F.blob r).length) (F.blob r)).length := by
  rw [length_spliced h hr,show pos + (ps.length - pos) + 1 = ps.length + 1 by omega]
  omega

theorem length_shifted : (F.shift pos (ps.length - pos)
    (splice d (frontier d.length ps - (F.blob r).length) (F.blob r))).length = d.length := by
  rw [length_shift F (shifted_end h hpos hr),length_spliced h hr]

theorem put_end : F.slotOff pos + F.size ≤ (F.shift pos (ps.length - pos)
    (splice d (frontier d.length ps - (F.blob r).length) (F.blob r))).length := by
  have hp := F.slotOff_lt (show pos < ps.length + 1 by omega)
  rw [length_shifted h hpos hr]
  omega

theorem length_insertBytes :
    (insertBytes F d ps.length pos (frontier d.length ps - (F.blob r).length) r).length =
      d.length := by
  rw [insertBytes,length_putSlot F (F.enc_length _ _) (put_end h hpos hr),length_shifted h hpos hr]

theorem slice_insertBytes (off len : Nat)
    (hd : off + len ≤ F.start ∨ (F.slotOff (ps.length + 1) ≤ off ∧
      (off + len ≤ frontier d.length ps - (F.blob r).length ∨ frontier d.length ps ≤ off))) :
    slice (insertBytes F d ps.length pos (frontier d.length ps - (F.blob r).length) r) off len =
      slice d off len := by
  have ht := h.tight
  have hp := F.slotOff_le (show pos + 1 ≤ ps.length + 1 by omega)
  have hq := F.slotOff_succ pos
  have h0 := F.start_le_slotOff pos
  have he : pos + (ps.length - pos) + 1 = ps.length + 1 := by omega
  rw [insertBytes,slice_putSlot F (F.enc_length _ _) (put_end h hpos hr) (by omega),
    slice_shift F (shifted_end h hpos hr) (by rw [he]; omega)]
  exact slice_splice_disjoint (by omega) (by omega)

theorem slotAt_insertBytes {i : Nat} (hi : i ≤ ps.length) :
    F.slotAt (insertBytes F d ps.length pos (frontier d.length ps - (F.blob r).length) r) i =
      if i < pos then F.slotAt d i
      else if i = pos then F.enc (frontier d.length ps - (F.blob r).length) r
      else F.slotAt d (i - 1) := by
  have ht := h.tight
  -- every slot in use lies below the freshly written data
  have hsame (j : Nat) (hj : j ≤ ps.length) :
      F.slotAt (splice d (frontier d.length ps - (F.blob r).length) (F.blob r)) j =
        F.slotAt d j := by
    have hs := F.slotOff_lt (show j < ps.length + 1 by omega)
    exact slice_splice_disjoint (by omega) (Or.inl (by omega))
  rw [insertBytes,slotAt_putSlot F (F.enc_length _ _) (put_end h hpos hr),
    slotAt_shift F (shifted_end h hpos hr),hsame i hi,hsame (i - 1) (by omega)]
  split_ifs <;> first | rfl | omega

theorem data_insertBytes :
    slice (insertBytes F d ps.length pos (frontier d.length ps - (F.blob r).length) r)
      (frontier d.length ps - (F.blob r).length) (F.blob r).length = F.blob r := by
  have ht := h.tight
  have hp := F.slotOff_le (show pos + 1 ≤ ps.length + 1 by omega)
  have he : pos + (ps.length - pos) + 1 = ps.length + 1 := by omega
  rw [insertBytes,slice_putSlot F (F.enc_length _ _) (put_end h hpos hr) (Or.inr (by omega)),
    slice_shift F (shifted_end h hpos hr) (Or.inr (by rw [he]; omega))]
  exact slice_splice_same (by omega)

theorem layout_insert :
    Layout F (insertBytes F d ps.length pos (frontier d.length ps - (F.blob r).length) r)
      (ps.insertIdx pos (frontier d.length ps - (F.blob r).length,r)) := by
  have hlen := length_insertBytes h hpos hr
  have ht := h.tight
  have hperm := List.perm_insertIdx (frontier d.length ps - (F.blob r).length,r) ps hpos
  have htot : F.total ((ps.insertIdx pos (frontier d.length ps - (F.blob r).length,r)).map Prod.snd)
      = (F.blob r).length + F.total (ps.map Prod.snd) := by
    rw [F.total_perm (hperm.map _),List.map_cons,total_cons]
  have hn : (ps.insertIdx pos (frontier d.length ps - (F.blob r).length,r)).length =
      ps.length + 1 := by rw [List.length_insertIdx,if_pos hpos]
  have hslot := F.slotOff_le (Nat.le_succ ps.length)
  constructor
  case slot =>
    intro i p hp
    have hi : i < ps.length + 1 := hn ▸ (List.getElem?_eq_some_iff.mp hp).1
    rw [slotAt_insertBytes h hpos hr (by omega)]
    rw [List.getElem?_insertIdx] at hp
    split_ifs at hp ⊢ with h1 h2 h3
    · exact h.slot i p hp
    · cases hp
      rfl
    · exact h.slot (i - 1) p hp
  case data =>
    intro p hp
    rcases List.mem_cons.mp (hperm.mem_iff.mp hp) with rfl | hp
    · exact data_insertBytes h hpos hr
    · have hf := frontier_le_of_mem (n := d.length) hp
      rw [slice_insertBytes h hpos hr _ _ (Or.inr ⟨by omega,Or.inr hf⟩)]
      exact h.data p hp
  case high =>
    intro p hp
    rw [hlen]
    rcases List.mem_cons.mp (hperm.mem_iff.mp hp) with rfl | hp
    · dsimp only
      omega
    · exact h.high p hp
  case tight =>
    rw [hlen,htot,frontier_insertIdx _ hpos]
    dsimp only
    omega
  case room =>
    rw [hlen,htot,hn]
    omega
  case apart =>
    refine (hperm.pairwise_iff (fun {p q} hpq => Or.symm hpq)).mpr
      (List.pairwise_cons.mpr ⟨fun q hq => Or.inl ?_,h.apart⟩)
    have hf := frontier_le_of_mem (n := d.length) hq
    dsimp only
    omega

end room

end insert

theorem sum_le_of_halved {f : R → Nat} {rs xs ys : List R} {a b cap : Nat}
    (hf : ∀ r ∈ rs, a ≤ f r ∧ f r ≤ b) (ht : (rs.map f).sum ≤ cap + b)
    (hab : b * (a + b) ≤ a * cap) (hp : (xs ++ ys).Perm rs) (hlen : xs.length ≤ ys.length + 1) :
    (xs.map f).sum ≤ cap := by
  by_contra hlt
  have hsum := (hp.map f).sum_eq
  rw [List.map_append,List.sum_append] at hsum
  have hxs : (xs.map f).sum ≤ xs.length * b := by
    have h := List.sum_le_card_nsmul (xs.map f) b fun x hx => by
      obtain ⟨r,hr,rfl⟩ := List.mem_map.mp hx
      exact (hf r (hp.mem_iff.mp (List.mem_append_left _ hr))).2
    rwa [List.length_map,smul_eq_mul] at h
  have hys : ys.length * a ≤ (ys.map f).sum := by
    have h := List.card_nsmul_le_sum (ys.map f) a fun x hx => by
      obtain ⟨r,hr,rfl⟩ := List.mem_map.mp hx
      exact (hf r (hp.mem_iff.mp (List.mem_append_right _ hr))).1
    rwa [List.length_map,smul_eq_mul] at h
  have hgap : ys.length * a < b := by omega
  have hcap : cap < (ys.length + 1) * b := calc
    cap < xs.length * b := by omega
    _ ≤ (ys.length + 1) * b := Nat.mul_le_mul_right b hlen
  rcases Nat.eq_zero_or_pos a with rfl | ha
  · have hb := Nat.mul_pos (Nat.zero_lt_of_lt hgap) (Nat.zero_lt_of_lt hgap)
    rw [Nat.zero_add,Nat.zero_mul] at hab
    omega
  · have hlow : a * cap < b * (a + b) := calc
      a * cap < a * ((ys.length + 1) * b) := Nat.mul_lt_mul_of_pos_left hcap ha
      _ = b * (a + ys.length * a) := by ring
      _ ≤ b * (a + b) := Nat.mul_le_mul_left b (Nat.add_le_add_left hgap.le a)
    omega

end SlotPage
