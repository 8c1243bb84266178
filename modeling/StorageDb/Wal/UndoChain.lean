import Mathlib.Tactic
import StorageDb.Wal.WalManager

namespace StorageDb

def ofTxn (t : TxnId) (rs : List LogRecord) : List LogRecord := rs.filter (fun r => r.txnId = t)

-- The records met by following prev_lsn; no record has LSN 0.
def undoChain (log : List LogRecord) : Nat → Lsn → List LogRecord
  | 0,_ => []
  | fuel + 1,l =>
    match log.find? (fun r => r.lsn = l) with
    | none => []
    | some r => r :: undoChain log fuel r.prevLsn

structure Linked (pre : List LogRecord) (r : LogRecord) : Prop where
  lsn : r.lsn.toNat = pre.length + 1
  checkpoint : r.recordType = .checkpoint ↔ r.txnId = 0
  first : r.txnId ≠ 0 → ofTxn r.txnId pre = [] → r.recordType = .begin ∧ r.prevLsn = 0
  later : ∀ ys q, r.txnId ≠ 0 → ofTxn r.txnId pre = ys ++ [q] → r.prevLsn = q.lsn

def ChainedLog (log : List LogRecord) : Prop := ∀ pre r, pre ++ [r] <+: log → Linked pre r

variable {log pre post : List LogRecord} {r q : LogRecord} {t : TxnId}

theorem ofTxn_append (t : TxnId) (rs rs' : List LogRecord) :
    ofTxn t (rs ++ rs') = ofTxn t rs ++ ofTxn t rs' := List.filter_append ..

theorem ofTxn_snoc (t : TxnId) (rs : List LogRecord) (r : LogRecord) :
    ofTxn t (rs ++ [r]) = if r.txnId = t then ofTxn t rs ++ [r] else ofTxn t rs := by
  rw [ofTxn_append]
  split_ifs with h
  · simp [ofTxn,h]
  · simp [ofTxn,h]

theorem chainedLog_nil : ChainedLog [] := by
  intro pre r h
  simp at h

theorem ChainedLog.snoc (h : ChainedLog log) (hr : Linked log r) : ChainedLog (log ++ [r]) := by
  intro pre x hp
  rcases List.prefix_concat_iff.mp hp with he | hp
  · obtain ⟨rfl,hx⟩ := List.append_inj' he rfl
    cases hx
    exact hr
  · exact h pre x hp

theorem ChainedLog.linked (h : ChainedLog log) (he : log = pre ++ r :: post) : Linked pre r :=
  h pre r ⟨post,by rw [he,List.append_assoc]; rfl⟩

theorem ChainedLog.lsns (h : ChainedLog log) :
    log.map (fun r => r.lsn.toNat) = List.range' 1 log.length := by
  apply List.ext_getElem
  · simp
  · intro i hi hi'
    rw [List.length_map] at hi
    have hsplit : log = log.take i ++ log[i] :: log.drop (i + 1) := by
      rw [List.getElem_cons_drop,List.take_append_drop]
    rw [List.getElem_map,(h.linked hsplit).lsn,List.length_take,Nat.min_eq_left hi.le,
      List.getElem_range']
    omega

theorem ChainedLog.pairwise (h : ChainedLog log) :
    log.Pairwise (fun a b => a.lsn.toNat < b.lsn.toNat) := by
  have hr := List.pairwise_lt_range' (s := 1) (n := log.length)
  rw [← h.lsns] at hr
  exact List.pairwise_map.mp hr

theorem ChainedLog.find (h : ChainedLog log) (he : log = pre ++ q :: post) :
    log.find? (fun r => r.lsn = q.lsn) = some q := by
  refine List.find?_eq_some_iff_append.mpr ⟨by simp,pre,post,he,fun a ha => ?_⟩
  have hp := h.pairwise
  rw [he,List.pairwise_append] at hp
  have hlt := hp.2.2 a ha q List.mem_cons_self
  simp only [Bool.not_eq_true',decide_eq_false_iff_not]
  intro e
  rw [e] at hlt
  omega

theorem ChainedLog.find_zero (h : ChainedLog log) : log.find? (fun r => r.lsn = 0) = none := by
  refine List.find?_eq_none.mpr fun r hr => ?_
  obtain ⟨pre,post,he⟩ := List.append_of_mem hr
  have hl := (h.linked he).lsn
  simp only [decide_eq_true_eq]
  intro e
  rw [e] at hl
  simp at hl

theorem exists_last {ys : List LogRecord} (h : ofTxn t pre = ys ++ [q]) :
    ∃ pre' mid, pre = pre' ++ q :: mid ∧ ofTxn t pre' = ys ∧ ofTxn t mid = [] ∧ q.txnId = t := by
  obtain ⟨l₁,l₂,rfl,h1,h2⟩ := List.filter_eq_append_iff.mp h
  obtain ⟨l₃,l₄,rfl,h3,hq,h4⟩ := List.filter_eq_cons_iff.mp h2
  refine ⟨l₁ ++ l₃,l₄,by simp,?_,h4,by simpa using hq⟩
  rw [ofTxn_append]
  have h3' : ofTxn t l₃ = [] := List.filter_eq_nil_iff.mpr h3
  rw [h3',List.append_nil]
  exact h1

theorem ChainedLog.undoChain_eq (h : ChainedLog log) (he : log = pre ++ r :: post)
    (hr : r.recordType ≠ .checkpoint) {fuel : Nat} (hf : pre.length ≤ fuel) :
    undoChain log fuel r.prevLsn = (ofTxn r.txnId pre).reverse ∧
      ∃ b ys, r :: (ofTxn r.txnId pre).reverse = ys ++ [b] ∧ b.recordType = .begin ∧
        b.prevLsn = 0 := by
  have hlink := h.linked he
  have ht : r.txnId ≠ 0 := fun e => hr (hlink.checkpoint.mpr e)
  induction fuel generalizing pre r post with
  | zero =>
    have hnil : pre = [] := List.length_eq_zero_iff.mp (Nat.le_zero.mp hf)
    subst hnil
    exact ⟨rfl,r,[],rfl,hlink.first ht rfl⟩
  | succ fuel ih =>
    rcases List.eq_nil_or_concat (ofTxn r.txnId pre) with hnone | ⟨ys,q,hlast⟩
    · obtain ⟨hb,hp⟩ := hlink.first ht hnone
      rw [undoChain,hp,h.find_zero,hnone]
      exact ⟨rfl,r,[],rfl,hb,hp⟩
    · rw [List.concat_eq_append] at hlast
      obtain ⟨pre',mid,hpre,hys,-,hq⟩ := exists_last hlast
      have heq : log = pre' ++ q :: (mid ++ r :: post) := by rw [he,hpre]; simp
      have hlinkq := h.linked heq
      have hqt : q.txnId ≠ 0 := hq ▸ ht
      have hlen : pre'.length ≤ fuel := by
        rw [hpre,List.length_append,List.length_cons] at hf
        omega
      obtain ⟨hchain,b,zs,hzs,hb⟩ :=
        ih heq (fun e => hqt (hlinkq.checkpoint.mp e)) hlen hlinkq hqt
      rw [hq,hys] at hchain hzs
      rw [undoChain,hlink.later ys q ht hlast,h.find heq,hlast,List.reverse_append]
      dsimp only
      rw [hchain]
      exact ⟨rfl,b,r :: zs,congrArg (r :: ·) hzs,hb⟩

end StorageDb
