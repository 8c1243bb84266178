import Mathlib.Tactic
import StorageDb.Wal.WalManager

namespace StorageDb

variable {t : TxnId} {rs : List LogRecord} {r : LogRecord}

theorem analyse_append (rs : List LogRecord) (r : LogRecord) :
    analyse (rs ++ [r]) = (analyse rs).step r := by
  rw [analyse,List.foldl_append]
  rfl

theorem Analysis.mem_committed_step (a : Analysis) :
    t ∈ (a.step r).committed ↔ t ∈ a.committed ∨ r.recordType = .commit ∧ r.txnId = t := by
  rw [Analysis.step]
  cases r.recordType <;> simp [eq_comm,or_comm]

theorem Analysis.mem_active_step (a : Analysis) :
    t ∈ (a.step r).active ↔ (r.recordType = .begin ∧ r.txnId = t) ∨
      t ∈ a.active ∧ ¬ ((r.recordType = .commit ∨ r.recordType = .abort) ∧ r.txnId = t) := by
  rw [Analysis.step]
  cases r.recordType <;> simp [eq_comm,and_comm]

theorem mem_committed : t ∈ (analyse rs).committed ↔
    ∃ r ∈ rs, r.recordType = .commit ∧ r.txnId = t := by
  induction rs using List.reverseRecOn with
  | nil => simp [analyse]
  | append_singleton rs r ih =>
    rw [analyse_append,Analysis.mem_committed_step,ih]
    simp [or_and_right,exists_or]

theorem recoveryActions_ok {actions : RecoveryActions} (h : recoveryActions rs = .ok actions) :
    actions.committedTxns = (analyse rs).committed ∧ actions.abortedTxns = (analyse rs).active ∧
      collectImages (analyse rs).committed Prod.snd rs = .ok actions.redo ∧
      collectImages (analyse rs).active Prod.fst rs.reverse = .ok actions.undo := by
  rw [recoveryActions] at h
  split_ifs at h with hnil
  · cases h
    subst hnil
    exact ⟨rfl,rfl,rfl,rfl⟩
  · dsimp only at h
    rcases hr : collectImages (analyse rs).committed Prod.snd rs with f | redo
    · rw [hr] at h
      cases h
    · rcases hu : collectImages (analyse rs).active Prod.fst rs.reverse with f | undo
      · rw [hr,hu] at h
        cases h
      · rw [hr,hu] at h
        cases h
        exact ⟨rfl,rfl,rfl,rfl⟩

theorem collectImages_filter {txns : Finset TxnId} (image : Bytes × Bytes → Bytes) (ht : t ∉ txns)
    (rs : List LogRecord) :
    collectImages txns image (rs.filter (fun r => r.txnId ≠ t)) = collectImages txns image rs := by
  induction rs with
  | nil => rfl
  | cons r rs ih =>
    by_cases hr : r.txnId = t
    · rw [List.filter_cons_of_neg (by simpa using hr),ih,collectImages,if_neg]
      rintro ⟨-,hm⟩
      exact ht (hr ▸ hm)
    · rw [List.filter_cons_of_pos (by simpa using hr),collectImages,collectImages,ih]

theorem collectImages_total (txns : Finset TxnId) (image : Bytes × Bytes → Bytes)
    (h : ∀ r ∈ rs, r.recordType = .pageWrite → ∃ im, r.pageWriteImages = .ok im) :
    ∃ images, collectImages txns image rs = .ok images := by
  induction rs with
  | nil => exact ⟨[],rfl⟩
  | cons r rs ih =>
    obtain ⟨images,hi⟩ := ih fun x hx => h x (List.mem_cons_of_mem _ hx)
    rw [collectImages]
    split_ifs with hc
    · obtain ⟨im,him⟩ := h r List.mem_cons_self hc.1
      rw [him,hi]
      cases im <;> exact ⟨_,rfl⟩
    · exact ⟨images,hi⟩

theorem recoveryActions_total
    (h : ∀ r ∈ rs, r.recordType = .pageWrite → ∃ im, r.pageWriteImages = .ok im) :
    ∃ actions, recoveryActions rs = .ok actions := by
  obtain ⟨redo,hredo⟩ := collectImages_total (analyse rs).committed Prod.snd h
  obtain ⟨undo,hundo⟩ := collectImages_total (analyse rs).active Prod.fst
    fun r (hr : r ∈ rs.reverse) => h r (List.mem_reverse.mp hr)
  rw [recoveryActions]
  split_ifs
  · exact ⟨_,rfl⟩
  · dsimp only
    rw [hredo,hundo]
    exact ⟨_,rfl⟩

end StorageDb
