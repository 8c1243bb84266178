import Mathlib.Tactic
import StorageDb.Wal.Analysis

namespace StorageDb

def LogRecord.Begins (r : LogRecord) (t : TxnId) : Prop := r.recordType = .begin ∧ r.txnId = t

instance (r : LogRecord) (t : TxnId) : Decidable (r.Begins t) :=
  inferInstanceAs (Decidable (_ ∧ _))

def LogRecord.Ends (r : LogRecord) (t : TxnId) : Prop :=
  (r.recordType = .commit ∨ r.recordType = .abort) ∧ r.txnId = t

def Begun (rs : List LogRecord) (t : TxnId) : Prop := ∃ r ∈ rs, r.Begins t

def Ended (rs : List LogRecord) (t : TxnId) : Prop := ∃ r ∈ rs, r.Ends t

def Committed (rs : List LogRecord) (t : TxnId) : Prop :=
  ∃ r ∈ rs, r.recordType = .commit ∧ r.txnId = t

def Aborted (rs : List LogRecord) (t : TxnId) : Prop :=
  ∃ r ∈ rs, r.recordType = .abort ∧ r.txnId = t

instance (rs : List LogRecord) (t : TxnId) : Decidable (Committed rs t) := by
  unfold Committed; infer_instance

instance (rs : List LogRecord) (t : TxnId) : Decidable (Aborted rs t) := by
  unfold Aborted; infer_instance

structure PageImage where
  txnId : TxnId
  before : Bytes
  after : Bytes

def LogRecord.writeTo (p : PageId) (r : LogRecord) : Option PageImage :=
  if r.recordType = .pageWrite ∧ r.pageId = p then
    match r.pageWriteImages with
    | .ok (some (b,a)) => some ⟨r.txnId,b,a⟩
    | _ => none
  else none

def writesTo (p : PageId) (rs : List LogRecord) : List PageImage :=
  rs.filterMap (LogRecord.writeTo p)

def lastAfter (original : Bytes) (ws : List PageImage) : Bytes :=
  ws.foldl (fun _ w => w.after) original

-- An abort takes the page back to the last write of a transaction that has not aborted.
def logicalContent (original : Bytes) (p : PageId) (rs : List LogRecord) : Bytes :=
  lastAfter original ((writesTo p rs).filter (fun w => ¬ Aborted rs w.txnId))

def committedContent (original : Bytes) (p : PageId) (rs : List LogRecord) : Bytes :=
  lastAfter original ((writesTo p rs).filter (fun w => Committed rs w.txnId))

-- What may be appended to rs under page-exclusive, full-page-image logging.
def Admissible (original : PageId → Bytes) (rs : List LogRecord) (r : LogRecord) : Prop :=
  match r.recordType with
  | .begin => ¬ Begun rs r.txnId
  | .commit => ¬ Ended rs r.txnId
  | .abort => ¬ Ended rs r.txnId
  | .pageWrite => Begun rs r.txnId ∧ ¬ Ended rs r.txnId ∧
      (∀ w ∈ writesTo r.pageId rs, w.txnId ≠ r.txnId → Ended rs w.txnId) ∧
      ∃ b a, r.pageWriteImages = .ok (some (b,a)) ∧ b.length = pageSize ∧ a.length = pageSize ∧
        b = logicalContent (original r.pageId) r.pageId rs
  | _ => True

def Disciplined (original : PageId → Bytes) (rs : List LogRecord) : Prop :=
  ∀ pre r, pre ++ [r] <+: rs → Admissible original pre r

section records

variable {rs : List LogRecord} {r : LogRecord} {t : TxnId} {p : PageId} {original : PageId → Bytes}

theorem begun_append : Begun (rs ++ [r]) t ↔ Begun rs t ∨ r.Begins t := by
  simp [Begun,or_and_right,exists_or]

theorem ended_append : Ended (rs ++ [r]) t ↔ Ended rs t ∨ r.Ends t := by
  simp [Ended,or_and_right,exists_or]

theorem committed_append :
    Committed (rs ++ [r]) t ↔ Committed rs t ∨ r.recordType = .commit ∧ r.txnId = t := by
  simp [Committed,or_and_right,exists_or]

theorem aborted_append :
    Aborted (rs ++ [r]) t ↔ Aborted rs t ∨ r.recordType = .abort ∧ r.txnId = t := by
  simp [Aborted,or_and_right,exists_or]

theorem ended_iff : Ended rs t ↔ Committed rs t ∨ Aborted rs t := by
  simp only [Ended,Committed,Aborted,LogRecord.Ends,or_and_right,and_or_left,exists_or]

theorem writesTo_append : writesTo p (rs ++ [r]) = writesTo p rs ++ (r.writeTo p).toList := by
  rw [writesTo,List.filterMap_append,writesTo]
  cases h : r.writeTo p <;> simp [h]

theorem writeTo_eq_some {w : PageImage} (h : r.writeTo p = some w) : r.recordType = .pageWrite ∧
    r.pageId = p ∧ r.txnId = w.txnId ∧ r.pageWriteImages = .ok (some (w.before,w.after)) := by
  rw [LogRecord.writeTo] at h
  split_ifs at h with hc
  split at h
  · rename_i b a hi
    cases h
    exact ⟨hc.1,hc.2,rfl,hi⟩
  · cases h

theorem writeTo_of_images {b a : Bytes} (hr : r.recordType = .pageWrite)
    (h : r.pageWriteImages = .ok (some (b,a))) : r.writeTo r.pageId = some ⟨r.txnId,b,a⟩ := by
  rw [LogRecord.writeTo,if_pos ⟨hr,rfl⟩,h]

theorem disciplined_append :
    Disciplined original (rs ++ [r]) ↔ Disciplined original rs ∧ Admissible original rs r := by
  constructor
  · intro h
    exact ⟨fun pre x hx => h pre x (hx.trans (List.prefix_append ..)),h rs r List.prefix_rfl⟩
  · rintro ⟨h,hr⟩ pre x hx
    rcases List.prefix_concat_iff.mp hx with heq | hx
    · obtain ⟨rfl,hlast⟩ := List.append_inj' heq rfl
      rwa [List.singleton_inj.mp hlast]
    · exact h pre x hx

theorem Admissible.write (h : Admissible original rs r) (hr : r.recordType = .pageWrite) :
    Begun rs r.txnId ∧ ¬ Ended rs r.txnId ∧
      (∀ w ∈ writesTo r.pageId rs, w.txnId ≠ r.txnId → Ended rs w.txnId) ∧
      ∃ b a, r.pageWriteImages = .ok (some (b,a)) ∧ b.length = pageSize ∧ a.length = pageSize ∧
        b = logicalContent (original r.pageId) r.pageId rs := by
  rw [Admissible,hr] at h
  exact h

theorem Admissible.ends (h : Admissible original rs r) (hr : r.Ends t) : ¬ Ended rs t := by
  obtain ⟨hr,rfl⟩ := hr
  rw [Admissible] at h
  rcases hr with hr | hr <;> rw [hr] at h <;> exact h

theorem Admissible.begins (h : Admissible original rs r) (hr : r.Begins t) : ¬ Begun rs t := by
  obtain ⟨hr,rfl⟩ := hr
  rw [Admissible,hr] at h
  exact h

theorem active_of_running (hb : Begun rs t) (he : ¬ Ended rs t) : t ∈ (analyse rs).active := by
  induction rs using List.reverseRecOn with
  | nil =>
    obtain ⟨r,hr,-⟩ := hb
    cases hr
  | append_singleton rs r ih =>
    rw [ended_append,not_or] at he
    rw [analyse_append,Analysis.mem_active_step]
    rcases begun_append.mp hb with hb | hb
    · exact Or.inr ⟨ih hb he.1,he.2⟩
    · exact Or.inl hb

theorem Disciplined.active_iff (h : Disciplined original rs)
    (hw : ∃ r ∈ rs, r.recordType = .pageWrite ∧ r.txnId = t) :
    Begun rs t ∧ (t ∈ (analyse rs).active ↔ ¬ Ended rs t) := by
  induction rs using List.reverseRecOn with
  | nil =>
    obtain ⟨r,hr,-⟩ := hw
    cases hr
  | append_singleton rs r ih =>
    obtain ⟨h,hr⟩ := disciplined_append.mp h
    by_cases hlast : r.recordType = .pageWrite ∧ r.txnId = t
    · obtain ⟨ht,rfl⟩ := hlast
      obtain ⟨hb,he,-⟩ := hr.write ht
      have hb' : Begun (rs ++ [r]) r.txnId := begun_append.mpr (Or.inl hb)
      have he' : ¬ Ended (rs ++ [r]) r.txnId := by
        rw [ended_append]
        rintro (he' | ⟨he',-⟩)
        · exact he he'
        · simp [ht] at he'
      exact ⟨hb',iff_of_true (active_of_running hb' he') he'⟩
    · have hw' : ∃ r ∈ rs, r.recordType = .pageWrite ∧ r.txnId = t := by
        obtain ⟨x,hx,hx'⟩ := hw
        rcases List.mem_append.mp hx with hx | hx
        · exact ⟨x,hx,hx'⟩
        · cases List.mem_singleton.mp hx
          exact absurd hx' hlast
      obtain ⟨hb,ih⟩ := ih h hw'
      refine ⟨begun_append.mpr (Or.inl hb),?_⟩
      have hnot : ¬ (r.recordType = .begin ∧ r.txnId = t) := fun hbegin => hr.begins hbegin hb
      rw [analyse_append,Analysis.mem_active_step,ih,ended_append,not_or,or_iff_right hnot]
      rfl

theorem mem_writesTo {w : PageImage} (hw : w ∈ writesTo p rs) :
    ∃ r ∈ rs, r.recordType = .pageWrite ∧ r.txnId = w.txnId := by
  obtain ⟨r,hr,h⟩ := List.mem_filterMap.mp hw
  obtain ⟨h1,-,h2,-⟩ := writeTo_eq_some h
  exact ⟨r,hr,h1,h2⟩

end records

-- The writes of a page: those of ended transactions, then those of the one still running.
structure PageHistory (original : Bytes) (p : PageId) (rs : List LogRecord)
    (done running : List PageImage) : Prop where
  writes : writesTo p rs = done ++ running
  ended : ∀ w ∈ done, Ended rs w.txnId
  fate : ∀ w ∈ done, Committed rs w.txnId ↔ ¬ Aborted rs w.txnId
  notEnded : ∀ w ∈ running, ¬ Ended rs w.txnId
  single : ∀ w ∈ running, ∀ w' ∈ running, w.txnId = w'.txnId
  first : ∀ w, running.head? = some w →
    w.before = lastAfter original (done.filter (fun w => Committed rs w.txnId))
  size : ∀ w ∈ writesTo p rs, w.before.length = pageSize ∧ w.after.length = pageSize

namespace PageHistory

variable {original : Bytes} {p : PageId} {rs : List LogRecord} {r : LogRecord}
  {done running : List PageImage}

theorem notAborted_running (h : PageHistory original p rs done running) {w : PageImage}
    (hw : w ∈ running) : ¬ Aborted rs w.txnId :=
  fun ha => h.notEnded w hw (ended_iff.mpr (Or.inr ha))

theorem notCommitted_running (h : PageHistory original p rs done running) {w : PageImage}
    (hw : w ∈ running) : ¬ Committed rs w.txnId :=
  fun hc => h.notEnded w hw (ended_iff.mpr (Or.inl hc))

theorem filter_committed (h : PageHistory original p rs done running) :
    (writesTo p rs).filter (fun w => Committed rs w.txnId) =
      done.filter (fun w => Committed rs w.txnId) := by
  have hnil : running.filter (fun w => Committed rs w.txnId) = [] :=
    List.filter_eq_nil_iff.mpr fun w hw => by simpa using h.notCommitted_running hw
  rw [h.writes,List.filter_append,hnil,List.append_nil]

theorem filter_notAborted (h : PageHistory original p rs done running) :
    (writesTo p rs).filter (fun w => ¬ Aborted rs w.txnId) =
      done.filter (fun w => Committed rs w.txnId) ++ running := by
  rw [h.writes,List.filter_append]
  congr 1
  · exact List.filter_congr fun w hw => decide_eq_decide.mpr (h.fate w hw).symm
  · exact List.filter_eq_self.mpr fun w hw => by simpa using h.notAborted_running hw

theorem snoc_other (h : PageHistory original p rs done running) (hw : r.writeTo p = none)
    (he : ∀ w ∈ writesTo p rs, ¬ r.Ends w.txnId) :
    PageHistory original p (rs ++ [r]) done running := by
  have hmem {w : PageImage} (hw : w ∈ done) : ¬ r.Ends w.txnId :=
    he w (h.writes ▸ List.mem_append_left _ hw)
  have hcommit {w : PageImage} (hw : w ∈ done) :
      Committed (rs ++ [r]) w.txnId ↔ Committed rs w.txnId := by
    rw [committed_append,or_iff_left]
    exact fun hc => hmem hw ⟨Or.inl hc.1,hc.2⟩
  have habort {w : PageImage} (hw : w ∈ done) : Aborted (rs ++ [r]) w.txnId ↔
      Aborted rs w.txnId := by
    rw [aborted_append,or_iff_left]
    exact fun hc => hmem hw ⟨Or.inr hc.1,hc.2⟩
  have hwrites : writesTo p (rs ++ [r]) = writesTo p rs := by
    rw [writesTo_append,hw]
    exact List.append_nil _
  refine ⟨hwrites.trans h.writes,?_,?_,?_,h.single,?_,hwrites ▸ h.size⟩
  · exact fun w hw => ended_append.mpr (Or.inl (h.ended w hw))
  · intro w hw
    rw [hcommit hw,habort hw]
    exact h.fate w hw
  · intro w hw
    rw [ended_append,not_or]
    exact ⟨h.notEnded w hw,he w (h.writes ▸ List.mem_append_right _ hw)⟩
  · intro w hw
    rw [h.first w hw]
    congr 1
    exact List.filter_congr fun w hw => decide_eq_decide.mpr (hcommit hw).symm

theorem snoc_write {original : PageId → Bytes} (h : PageHistory (original p) p rs done running)
    (ha : Admissible original rs r) {w : PageImage} (hw : r.writeTo p = some w) :
    PageHistory (original p) p (rs ++ [r]) done (running ++ [w]) := by
  obtain ⟨hr,rfl,hid,hi⟩ := writeTo_eq_some hw
  obtain ⟨-,hne,hothers,b,a,himages,hb,hl,hcur⟩ := ha.write hr
  rw [hi] at himages
  cases himages
  have hends (t : TxnId) : ¬ r.Ends t := by
    rintro ⟨he,-⟩
    simp [hr] at he
  have hended (t : TxnId) : Ended (rs ++ [r]) t ↔ Ended rs t :=
    ended_append.trans (or_iff_left (hends t))
  have hcommit (t : TxnId) : Committed (rs ++ [r]) t ↔ Committed rs t :=
    committed_append.trans (or_iff_left fun hc => hends t ⟨Or.inl hc.1,hc.2⟩)
  have habort (t : TxnId) : Aborted (rs ++ [r]) t ↔ Aborted rs t :=
    aborted_append.trans (or_iff_left fun hc => hends t ⟨Or.inr hc.1,hc.2⟩)
  have hwrites : writesTo r.pageId (rs ++ [r]) = writesTo r.pageId rs ++ [w] := by
    rw [writesTo_append,hw]
    rfl
  -- A running writer of the page can only be the transaction of r.
  have hmine : ∀ x ∈ running, x.txnId = w.txnId := by
    intro x hx
    by_contra hxw
    exact h.notEnded x hx (hothers x (h.writes ▸ List.mem_append_right _ hx) (by rwa [hid]))
  refine ⟨by rw [hwrites,h.writes,List.append_assoc],?_,?_,?_,?_,?_,?_⟩
  · exact fun x hx => (hended _).mpr (h.ended x hx)
  · intro x hx
    rw [hcommit,habort]
    exact h.fate x hx
  · intro x hx
    rw [hended]
    rcases List.mem_append.mp hx with hx | hx
    · exact h.notEnded x hx
    · rwa [List.mem_singleton.mp hx,← hid]
  · have hall : ∀ x ∈ running ++ [w], x.txnId = w.txnId := by
      intro x hx
      rcases List.mem_append.mp hx with hx | hx
      · exact hmine x hx
      · rw [List.mem_singleton.mp hx]
    exact fun x hx y hy => (hall x hx).trans (hall y hy).symm
  · intro x hx
    simp only [hcommit]
    cases running with
    | nil =>
      cases hx
      rw [hcur,logicalContent,h.filter_notAborted,List.append_nil]
    | cons y ys => exact h.first x hx
  · intro x hx
    rw [hwrites] at hx
    rcases List.mem_append.mp hx with hx | hx
    · exact h.size x hx
    · rw [List.mem_singleton.mp hx]
      exact ⟨hb,hl⟩

theorem snoc_end (h : PageHistory original p rs done running) {t : TxnId} (he : r.Ends t)
    (hne : ¬ Ended rs t) (hmine : ∀ w ∈ running, w.txnId = t) :
    PageHistory original p (rs ++ [r]) (done ++ running) [] := by
  have hw : r.writeTo p = none := by
    rw [LogRecord.writeTo,if_neg]
    rintro ⟨hr,-⟩
    rcases he.1 with hc | hc <;> rw [hr] at hc <;> cases hc
  have hwrites : writesTo p (rs ++ [r]) = writesTo p rs := by
    rw [writesTo_append,hw]
    exact List.append_nil _
  refine ⟨by rw [hwrites,h.writes,List.append_nil],?_,?_,by simp,by simp,by simp,hwrites ▸ h.size⟩
  · intro w hw
    rw [ended_append]
    rcases List.mem_append.mp hw with hw | hw
    · exact Or.inl (h.ended w hw)
    · exact Or.inr (hmine w hw ▸ he)
  · intro w hw
    rw [committed_append,aborted_append]
    rcases List.mem_append.mp hw with hw | hw
    · have hwt : r.txnId ≠ w.txnId := by
        rw [he.2]
        rintro rfl
        exact hne (h.ended w hw)
      rw [or_iff_left (fun hc => hwt hc.2),or_iff_left (fun hc => hwt hc.2)]
      exact h.fate w hw
    · have hc := h.notCommitted_running hw
      have ha := h.notAborted_running hw
      rw [hmine w hw] at hc ha ⊢
      obtain ⟨hr,rfl⟩ := he
      rcases hr with hr | hr <;> simp [hr,hc,ha]

end PageHistory

theorem Disciplined.history {original : PageId → Bytes} {rs : List LogRecord}
    (h : Disciplined original rs) (p : PageId) :
    ∃ done running, PageHistory (original p) p rs done running := by
  induction rs using List.reverseRecOn with
  | nil => exact ⟨[],[],rfl,by simp,by simp,by simp,by simp,by simp,by simp [writesTo]⟩
  | append_singleton rs r ih =>
    obtain ⟨h,hr⟩ := disciplined_append.mp h
    obtain ⟨done,running,ih⟩ := ih h
    cases hw : r.writeTo p with
    | some w => exact ⟨done,running ++ [w],ih.snoc_write hr hw⟩
    | none =>
      by_cases he : ∃ w ∈ writesTo p rs, r.Ends w.txnId
      · obtain ⟨w,hmem,he⟩ := he
        have hne := hr.ends he
        have hrun : w ∈ running := by
          rw [ih.writes] at hmem
          exact (List.mem_append.mp hmem).resolve_left fun hd => hne (ih.ended w hd)
        exact ⟨done ++ running,[],ih.snoc_end he hne fun x hx => ih.single x hx w hrun⟩
      · simp only [not_exists,not_and] at he
        exact ⟨done,running,ih.snoc_other hw he⟩

theorem Disciplined.decoded {original : PageId → Bytes} {rs : List LogRecord}
    (h : Disciplined original rs) :
    ∀ r ∈ rs, r.recordType = .pageWrite → ∃ im, r.pageWriteImages = .ok (some im) := by
  intro r hr ht
  obtain ⟨pre,post,rfl⟩ := List.append_of_mem hr
  obtain ⟨-,-,-,b,a,him,-⟩ := (h pre r ⟨post,by simp⟩).write ht
  exact ⟨(b,a),him⟩

theorem Disciplined.recoveryActions {original : PageId → Bytes} {rs : List LogRecord}
    (h : Disciplined original rs) : ∃ actions, recoveryActions rs = .ok actions :=
  recoveryActions_total fun r hr ht => by
    obtain ⟨im,him⟩ := h.decoded r hr ht
    exact ⟨_,him⟩

end StorageDb
