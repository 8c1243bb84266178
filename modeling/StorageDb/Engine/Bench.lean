import Mathlib.Tactic
import StorageDb.Btree.Appending
import StorageDb.Engine.DataPath

namespace StorageDb
open SortedAssoc Prog

def ascii (s : String) : Bytes := s.toList.map fun c => UInt8.ofNat c.toNat

-- The format {:08}: eight decimal digits, or more when eight are not enough.
def decimal8 (i : Nat) : Bytes :=
  ((Nat.digits 10 i).reverse.leftpad 8 0).map fun d => UInt8.ofNat (48 + d)

def benchKey (i : Nat) : Bytes := ascii "bench_key_" ++ decimal8 i

def benchVal (i : Nat) : Bytes := ascii "bench_val_" ++ decimal8 i

inductive Verification where
  | ok
  | mismatch (expected got : Bytes)
  | missing
  | error (e : Error)
  deriving DecidableEq

def Verification.of (i : Nat) : Option Bytes → Verification
  | some v => if v = benchVal i then .ok else .mismatch (benchVal i) v
  | none => .missing

namespace StorageEngine

-- An error is printed, with the number of the record, and ends the loop.
def benchLoop (fuel : Nat) : List Nat → Prog Error StorageEngine (Option (Nat × Error))
  | [],e => (.ok none,e)
  | i :: rest,e =>
    match put fuel (benchKey i) (benchVal i) e with
    | (.ok _,e') => benchLoop fuel rest e'
    | (.error (.err x),e') => (.ok (some (i,x)),e')
    | (.error f,e') => (.error f,e')

def verify (fuel i : Nat) : Prog Error StorageEngine Verification := fun e =>
  match get fuel (benchKey i) e with
  | (.ok found,e') => (.ok (.of i found),e')
  | (.error (.err x),e') => (.ok (.error x),e')
  | (.error f,e') => (.error f,e')

def bench (fuel n : Nat) : Prog Error StorageEngine (Option (Nat × Error) × Verification) := do
  let failed ← benchLoop fuel (List.range n)
  let sample ← verify fuel (n / 2)
  pure (failed,sample)

end StorageEngine

def digitRow : Nat → Nat → List Nat
  | 0, _ => []
  | w + 1, i => digitRow w (i / 10) ++ [i % 10]

theorem leftpad_concat (w d : Nat) (xs : List Nat) :
    (xs ++ [d]).leftpad (w + 1) 0 = xs.leftpad w 0 ++ [d] := by
  simp [List.leftpad]

theorem leftpad_digits {w i : Nat} (h : i < 10 ^ w) :
    (Nat.digits 10 i).reverse.leftpad w 0 = digitRow w i := by
  induction w generalizing i with
  | zero =>
    obtain rfl : i = 0 := by simpa using h
    rfl
  | succ w ih =>
    have hdiv : i / 10 < 10 ^ w := by
      rw [Nat.pow_succ] at h
      omega
    rw [digitRow,← ih hdiv]
    rcases Nat.eq_zero_or_pos i with rfl | hi
    · simp [List.leftpad,List.replicate_succ']
    · rw [Nat.digits_def' (by norm_num) hi,List.reverse_cons,leftpad_concat]

theorem length_digitRow (w i : Nat) : (digitRow w i).length = w := by
  induction w generalizing i with
  | zero => rfl
  | succ w ih => rw [digitRow,List.length_append,ih,List.length_singleton]

theorem append_lt_append {as bs xs ys : Bytes} (hlen : as.length = bs.length) (h : as < bs) :
    as ++ xs < bs ++ ys := by
  induction as generalizing bs with
  | nil =>
    cases bs with
    | nil => exact absurd h (lt_irrefl _)
    | cons b bs => cases hlen
  | cons a as ih =>
    cases bs with
    | nil => cases hlen
    | cons b bs =>
      rw [List.cons_append,List.cons_append]
      rcases List.cons_lt_cons_iff.mp h with hab | ⟨rfl,htail⟩
      · exact List.cons_lt_cons_iff.mpr (Or.inl hab)
      · exact List.cons_lt_cons_iff.mpr (Or.inr ⟨rfl,ih (Nat.succ.inj hlen) htail⟩)

def digitByte (d : Nat) : UInt8 := UInt8.ofNat (48 + d)

theorem digitByte_lt {c d : Nat} (h : c < d) (hd : d < 10) : digitByte c < digitByte d := by
  rw [UInt8.lt_iff_toNat_lt,digitByte,digitByte,UInt8.toNat_ofNat',UInt8.toNat_ofNat']
  omega

theorem digitRow_lt {w i j : Nat} (hij : i < j) (hj : j < 10 ^ w) :
    (digitRow w i).map digitByte < (digitRow w j).map digitByte := by
  induction w generalizing i j with
  | zero => omega
  | succ w ih =>
    have hdiv : j / 10 < 10 ^ w := by
      rw [Nat.pow_succ] at hj
      omega
    rw [digitRow,digitRow,List.map_append,List.map_append]
    rcases Nat.lt_or_ge (i / 10) (j / 10) with hlt | hge
    · refine append_lt_append ?_ (ih hlt hdiv)
      rw [List.length_map,List.length_map,length_digitRow,length_digitRow]
    · have heq : i / 10 = j / 10 := by omega
      rw [heq]
      refine List.append_left_lt ?_
      exact List.cons_lt_cons_iff.mpr (Or.inl (digitByte_lt (by omega)
        (Nat.mod_lt j (by norm_num))))

theorem decimal8_eq {i : Nat} (h : i < 10 ^ 8) : decimal8 i = (digitRow 8 i).map digitByte := by
  rw [decimal8,leftpad_digits h]
  rfl

theorem benchKey_lt {i j : Nat} (hij : i < j) (hj : j < 10 ^ 8) : benchKey i < benchKey j := by
  rw [benchKey,benchKey,decimal8_eq (hij.trans hj),decimal8_eq hj]
  exact List.append_left_lt (digitRow_lt hij hj)

theorem length_decimal8 {i : Nat} (h : i < 10 ^ 8) : (decimal8 i).length = 8 := by
  rw [decimal8_eq h,List.length_map,length_digitRow]

theorem benchVal_of_key {i j : Nat} (h : benchKey i = benchKey j) : benchVal i = benchVal j := by
  rw [benchVal,benchVal,List.append_cancel_left h]

def benchOp (i : Nat) : TreeOp := .insert (benchKey i) (benchVal i)

def benchSizes : Sizes := .fixed 18 18 (by decide) (by decide)

theorem bench_appends {n : Nat} (hn : n ≤ 10 ^ 8) :
    AppendRun benchSizes ((List.range n).map benchOp) KvMap.empty ⊥ := by
  have hmap : (List.range n).map benchOp = ((List.range n).map fun i => (benchKey i,benchVal i)).map
      fun e => TreeOp.insert e.1 e.2 := by
    rw [List.map_map]
    rfl
  rw [hmap]
  refine AppendRun.of_sorted ?_ ?_ (fun e _ => WithBot.bot_lt_coe e.1) (fun k hk => absurd rfl hk)
  · refine List.pairwise_map.mpr (List.pairwise_lt_range.imp_of_mem fun {i j} _ hj hij => ?_)
    exact benchKey_lt hij ((List.mem_range.mp hj).trans_le hn)
  · intro e he
    obtain ⟨i,hi,rfl⟩ := List.mem_map.mp he
    have hlen := length_decimal8 ((List.mem_range.mp hi).trans_le hn)
    have hk : (benchKey i).length = 18 := by rw [benchKey,List.length_append,hlen]; rfl
    have hv : (benchVal i).length = 18 := by rw [benchVal,List.length_append,hlen]; rfl
    refine ⟨⟨hk.ge,hk.le⟩,?_,?_,?_⟩
    · rw [hv]
      decide
    · rw [hk,hv]
      decide
    · rw [hk,hv]
      decide

theorem run_bench {is : List Nat} {m : KvMap} {i : Nat}
    (h : m (benchKey i) = some (benchVal i) ∨ i ∈ is) :
    (KvMap.run (is.map benchOp) m).2 (benchKey i) = some (benchVal i) := by
  induction is generalizing m with
  | nil => exact h.resolve_right List.not_mem_nil
  | cons j is ih =>
    refine ih (m := Function.update m (benchKey j) (some (benchVal j))) ?_
    by_cases hk : benchKey i = benchKey j
    · rw [← hk,Function.update_self,benchVal_of_key hk]
      exact Or.inl rfl
    · rw [Function.update_of_ne hk]
      refine h.imp_right fun hmem => (List.mem_cons.mp hmem).resolve_left ?_
      rintro rfl
      exact hk rfl

namespace StorageEngine

variable {fuel : Nat} {e : StorageEngine} {t : RootedTree}

theorem DataAt.benchLoop_eq (h : DataAt e t) {is : List Nat}
    (hl : ∀ op ∈ is.map benchOp, op.InLimits)
    (hs : RootedTree.Along RootedTree.Safe (is.map benchOp) t) (hf : 12 ≤ fuel) :
    ∃ e', benchLoop fuel is e = (.ok none,e') ∧
      DataAt e' ((is.map benchOp).foldl (fun t op => t.apply op) t) ∧
      ((is.map benchOp).foldl (fun t op => t.apply op) t).toMap =
        (KvMap.run (is.map benchOp) t.toMap).2 := by
  induction is generalizing e t with
  | nil => exact ⟨e,rfl,h,rfl⟩
  | cons i is ih =>
    have hin := hl (benchOp i) List.mem_cons_self
    rcases hr : put fuel (benchKey i) (benchVal i) e with ⟨r,e1⟩
    obtain ⟨rfl,h1⟩ := (h.put_spec hs.1 hin.1 hin.2 hf).of_eq hr
    obtain ⟨e',hrun,h',hmap⟩ := ih h1 (fun op hop => hl op (List.mem_cons_of_mem _ hop)) hs.2
    refine ⟨e',?_,h',?_⟩
    · rw [benchLoop,hr]
      exact hrun
    · rw [RootedTree.toMap_insert _ _ h.tree.sound] at hmap
      exact hmap

theorem DataAt.verify_eq (h : DataAt e t) (i : Nat) (hf : 12 ≤ fuel) :
    ∃ e', verify fuel i e = (.ok (.of i (t.toMap (benchKey i))),e') ∧ DataAt e' t := by
  rcases hr : get fuel (benchKey i) e with ⟨r,e'⟩
  obtain ⟨rfl,h'⟩ := (h.get_spec (benchKey i) hf).of_eq hr
  refine ⟨e',?_,h'⟩
  rw [verify,hr]

theorem bench_verifies {capacity n : Nat} {walFaults : List (Option Nat)} (hc : 1 ≤ capacity)
    (hopen : open_ (mount emptyDir capacity [] walFaults) = (.ok (),e)) (hpos : 1 ≤ n)
    (hn : n ≤ 10 ^ 8) (hf : 12 ≤ fuel) : ∃ e', bench fuel n e = (.ok (none,.ok),e') ∧
      ∀ i < n, (get fuel (benchKey i) e').1 = .ok (some (benchVal i)) := by
  have h := (open_data capacity walFaults hc).of_eq hopen rfl
  have happ := bench_appends hn
  have hcount : ((List.range n).map benchOp).countP TreeOp.isInsert ≤ n := by
    refine List.countP_le_length.trans_eq ?_
    rw [List.length_map,List.length_range]
  have hsafe : RootedTree.Along RootedTree.Safe ((List.range n).map benchOp)
      (RootedTree.single 0) := by
    refine happ.safe ?_
    have hmax : invalidPageId.toNat = 4294967295 := rfl
    have hzero : (0 : PageId).toNat = 0 := rfl
    omega
  obtain ⟨e1,hloop,h1,hmap⟩ := h.benchLoop_eq happ.inLimits hsafe hf
  set t1 := ((List.range n).map benchOp).foldl (fun t op => t.apply op) (RootedTree.single 0)
  have hget (i : Nat) (hi : i < n) : t1.toMap (benchKey i) = some (benchVal i) := by
    rw [hmap]
    exact run_bench (Or.inr (List.mem_range.mpr hi))
  obtain ⟨e2,hverify,h2⟩ := h1.verify_eq (n / 2) hf
  rw [hget (n / 2) (by omega),Verification.of,if_pos rfl] at hverify
  refine ⟨e2,?_,fun i hi => ?_⟩
  · rw [bench,bind_ok hloop,bind_ok hverify]
    rfl
  · rw [← hget i hi]
    exact (h2.get_spec (benchKey i) hf).1

theorem bench_verifies_thousand : open_ (mount emptyDir 4 [] []) = (.ok (),freshEngine) ∧
    ∃ e', bench 12 1000 freshEngine = (.ok (none,.ok),e') ∧
      ∀ i < 1000, (get 12 (benchKey i) e').1 = .ok (some (benchVal i)) :=
  ⟨open_freshEngine,bench_verifies (by decide) open_freshEngine (by decide) (by decide) le_rfl⟩

end StorageEngine

end StorageDb
