import Mathlib.Tactic
import StorageDb.Wal.PageLogging
import StorageDb.Engine.Restartable

namespace StorageDb
open Bytes Restart

variable {p : PageId} {rs : List LogRecord} {original : PageId → Bytes} {actions : RecoveryActions}

theorem imagesFor_collect {txns : Finset TxnId} {image : Bytes × Bytes → Bytes}
    {images : List (PageId × Bytes)} (h : collectImages txns image rs = .ok images) :
    imagesFor p images = ((writesTo p rs).filter (fun w => w.txnId ∈ txns)).map
      (fun w => image (w.before,w.after)) := by
  induction rs generalizing images with
  | nil =>
    cases h
    rfl
  | cons r rs ih =>
    have hcons : writesTo p (r :: rs) = (r.writeTo p).toList ++ writesTo p rs := by
      rw [writesTo,List.filterMap_cons,writesTo]
      cases r.writeTo p <;> rfl
    rw [collectImages] at h
    rw [hcons,List.filter_append,List.map_append]
    split_ifs at h with hc
    · rcases hi : r.pageWriteImages with f | im
      · rw [hi] at h
        cases h
      · rcases hrest : collectImages txns image rs with f | rest
        · rw [hi,hrest] at h
          cases h
        · rw [hi,hrest] at h
          have ih := ih hrest
          cases im with
          | none =>
            cases h
            have : r.writeTo p = none := by
              rw [LogRecord.writeTo,hi]
              split_ifs <;> rfl
            rw [ih,this]
            rfl
          | some im =>
            cases h
            rw [imagesFor_cons]
            dsimp only
            by_cases hp : r.pageId = p
            · have : r.writeTo p = some ⟨r.txnId,im.1,im.2⟩ := hp ▸ writeTo_of_images hc.1 hi
              rw [if_pos hp,this,ih]
              simp [hc.2]
            · have : r.writeTo p = none := by
                rw [LogRecord.writeTo,if_neg fun hw => hp hw.2]
              rw [if_neg hp,this,ih]
              rfl
    · rw [ih h]
      cases hw : r.writeTo p with
      | none => rfl
      | some w =>
        obtain ⟨hr,-,hid,-⟩ := writeTo_eq_some hw
        have : w.txnId ∉ txns := fun hm => hc ⟨hr,hid ▸ hm⟩
        simp [this]

theorem applyAll_overlay {images : List Bytes} (h : ∀ i ∈ images, i.length = pageSize) (pg : Page) :
    (applyAll Page.overlay images pg).data = images.foldl (fun _ i => i) pg.data := by
  induction images generalizing pg with
  | nil => rfl
  | cons i images ih =>
    have hi := h i List.mem_cons_self
    have hover : (pg.overlay i).data = i := by
      rw [Page.overlay]
      dsimp only
      rw [List.take_of_length_le hi.le,splice,List.drop_of_length_le (by rw [hi,pg.size]; simp)]
      simp
    rw [applyAll_cons,ih fun j hj => h j (List.mem_cons_of_mem _ hj),hover,List.foldl_cons]

theorem lastAfter_eq_of_ne_nil {ws : List PageImage} (h : ws ≠ []) (x y : Bytes) :
    lastAfter x ws = lastAfter y ws := by
  cases ws with
  | nil => exact absurd rfl h
  | cons w ws => rfl

theorem Disciplined.recovered_page (h : Disciplined original rs)
    (ha : StorageDb.recoveryActions rs = .ok actions) (pg : Page) :
    (applyAll Page.overlay (imagesFor p (actions.redo ++ actions.undo)) pg).data =
      if ∃ w ∈ writesTo p rs, ¬ Aborted rs w.txnId then committedContent (original p) p rs
      else pg.data := by
  obtain ⟨done,running,hh⟩ := h.history p
  obtain ⟨-,-,hredo,hundo⟩ := recoveryActions_ok ha
  have hactive {w : PageImage} (hw : w ∈ writesTo p rs) :
      w.txnId ∈ (analyse rs).active ↔ ¬ Ended rs w.txnId := (h.active_iff (mem_writesTo hw)).2
  have hredo' : imagesFor p actions.redo =
      (done.filter (fun w => Committed rs w.txnId)).map PageImage.after := by
    rw [imagesFor_collect hredo,← hh.filter_committed]
    congr 1
    exact List.filter_congr fun w _ => decide_eq_decide.mpr mem_committed
  have hundo' : imagesFor p actions.undo = (running.map PageImage.before).reverse := by
    have hrev : writesTo p rs.reverse = (writesTo p rs).reverse := List.filterMap_reverse ..
    rw [imagesFor_collect hundo,hrev,List.filter_reverse,hh.writes,List.filter_append]
    have h1 : done.filter (fun w => w.txnId ∈ (analyse rs).active) = [] := by
      refine List.filter_eq_nil_iff.mpr fun w hw => ?_
      simpa [hactive (hh.writes ▸ List.mem_append_left _ hw)] using hh.ended w hw
    have h2 : running.filter (fun w => w.txnId ∈ (analyse rs).active) = running := by
      refine List.filter_eq_self.mpr fun w hw => ?_
      simpa [hactive (hh.writes ▸ List.mem_append_right _ hw)] using hh.notEnded w hw
    rw [h1,h2,List.nil_append,List.map_reverse]
  rw [imagesFor_append,hredo',hundo',applyAll_overlay,List.foldl_append,List.foldl_map]
  · have hex : (∃ w ∈ writesTo p rs, ¬ Aborted rs w.txnId) ↔
        done.filter (fun w => Committed rs w.txnId) ++ running ≠ [] := by
      rw [← hh.filter_notAborted,ne_eq,List.filter_eq_nil_iff]
      simp
    change List.foldl _ (lastAfter pg.data _) _ = _
    rw [committedContent,hh.filter_committed]
    simp only [hex]
    cases running with
    | nil =>
      rw [List.append_nil]
      split_ifs with hne
      · exact lastAfter_eq_of_ne_nil hne ..
      · rw [not_not.mp hne]
        rfl
    | cons w ws =>
      rw [if_pos (by simp),← hh.first w rfl,List.map_cons,List.reverse_cons,List.foldl_append]
      rfl
  · intro i hi
    rcases List.mem_append.mp hi with hi | hi
    · obtain ⟨w,hw,rfl⟩ := List.mem_map.mp hi
      exact (hh.size w (hh.writes ▸ List.mem_append_left _ (List.mem_filter.mp hw).1)).2
    · obtain ⟨w,hw,rfl⟩ := List.mem_map.mp (List.mem_reverse.mp hi)
      exact (hh.size w (hh.writes ▸ List.mem_append_right _ hw)).1

theorem Disciplined.committedContent_eq (h : Disciplined original rs)
    (hw : ¬ ∃ w ∈ writesTo p rs, ¬ Aborted rs w.txnId) :
    committedContent (original p) p rs = original p := by
  obtain ⟨done,running,hh⟩ := h.history p
  have hnil : (writesTo p rs).filter (fun w => ¬ Aborted rs w.txnId) = [] := by
    refine List.filter_eq_nil_iff.mpr fun w hmem => ?_
    simpa using fun hna => hw ⟨w,hmem,hna⟩
  rw [hh.filter_notAborted,List.append_eq_nil_iff] at hnil
  rw [committedContent,hh.filter_committed,hnil.1]
  rfl

def pageBytes (file : Bytes) (p : PageId) : Bytes := slice file (p.toNat * pageSize) pageSize

def HoldsVersion (original : PageId → Bytes) (rs : List LogRecord) (file : Bytes) (p : PageId) :
    Prop :=
  pageBytes file p = original p ∨
    ∃ w ∈ writesTo p rs, pageBytes file p = w.before ∨ pageBytes file p = w.after

namespace DiskManager

theorem pageBytes_of_pageAt {d : DiskManager} {pg : Page} (h : d.pageAt p = some pg) :
    pageBytes d.file p = pg.data := by
  rw [pageAt] at h
  split_ifs at h
  cases h
  rfl

end DiskManager

namespace StorageEngine
open BufferPoolManager DiskManager

variable {e : StorageEngine} {file : Bytes} {capacity : Nat}

theorem recover_disciplined (hp : e.pool = .new (.open_ file []) capacity) (hc : 1 ≤ capacity)
    (hw : e.wal.faults = []) (hr : FrameLog.readAll LogRecord.deserialize e.wal.file = .ok rs)
    (hd : Disciplined original rs) : ∃ s, recover e = (.ok (),s) ∧
      ∀ p, p < (DiskManager.open_ file []).numPages → pageBytes s.directory.data p =
        if ∃ w ∈ writesTo p rs, ¬ Aborted rs w.txnId then committedContent (original p) p rs
        else pageBytes file p := by
  obtain ⟨actions,ha⟩ := hd.recoveryActions
  have hrec := WalManager.recover_calm hw hr ha
  obtain ⟨s,d,hs,hdata,hh,hn,hat⟩ := recover_file hp hc hw (congrArg Prod.fst hrec)
  refine ⟨s,hs,fun p hlt => ?_⟩
  obtain ⟨pg,hpg⟩ := Option.isSome_iff_exists.mp (hh.pageAt_isSome.mpr
    (by rw [hn]; exact UInt32.lt_iff_toNat_lt.mp hlt))
  have htail := pageBytes_of_pageAt (show (d.addTail (rest file)).pageAt p = some pg from
    pageAt_addTail hpg)
  rw [hat,pageAt_body hlt] at hpg
  obtain ⟨pg',hpg',rfl⟩ := Option.map_eq_some_iff.mp hpg
  have hfile : pageBytes file p = pg'.data := pageBytes_of_pageAt (d := .open_ file []) hpg'
  rw [hdata,hfile,← hd.recovered_page ha]
  exact htail

theorem recovery_restores_committed (hp : e.pool = .new (.open_ file []) capacity)
    (hc : 1 ≤ capacity) (hw : e.wal.faults = [])
    (hr : FrameLog.readAll LogRecord.deserialize e.wal.file = .ok rs)
    (hd : Disciplined original rs) : ∃ s, recover e = (.ok (),s) ∧
      ∀ p, p < (DiskManager.open_ file []).numPages →
        ((∀ w ∈ writesTo p rs, ¬ Aborted rs w.txnId) → HoldsVersion original rs file p →
          pageBytes s.directory.data p = committedContent (original p) p rs) ∧
        (writesTo p rs = [] → pageBytes s.directory.data p = pageBytes file p) := by
  obtain ⟨s,hs,hpages⟩ := recover_disciplined hp hc hw hr hd
  refine ⟨s,hs,fun p hlt => ⟨fun hna hv => ?_,fun hnil => ?_⟩⟩
  · rw [hpages p hlt]
    split_ifs with hex
    · rfl
    · have hnone (w : PageImage) : w ∉ writesTo p rs := fun hmem => hex ⟨w,hmem,hna w hmem⟩
      rw [hd.committedContent_eq hex]
      exact hv.resolve_right fun ⟨w,hmem,_⟩ => hnone w hmem
  · rw [hpages p hlt,hnil]
    simp

section sample

variable {a b c : Bytes} {lsn prevLsn : Lsn} {t : TxnId}

theorem writeTo_begin : (LogRecord.begin lsn t).writeTo p = none := rfl

theorem writeTo_commit : (LogRecord.commit lsn t prevLsn).writeTo p = none := rfl

theorem writeTo_pageWrite (ha : a.length = pageSize) :
    (LogRecord.pageWrite lsn t prevLsn p a b).writeTo p = some ⟨t,a,b⟩ :=
  writeTo_of_images rfl (LogRecord.pageWriteImages_pageWrite (by rw [ha]; decide))

theorem admissible_pageWrite (ha : a.length = pageSize) (hb : b.length = pageSize)
    (hbegun : Begun rs t) (hended : ¬ Ended rs t)
    (hx : ∀ w ∈ writesTo p rs, w.txnId ≠ t → Ended rs w.txnId)
    (hl : a = logicalContent (original p) p rs) :
    Admissible original rs (.pageWrite lsn t prevLsn p a b) :=
  ⟨hbegun,hended,hx,a,b,LogRecord.pageWriteImages_pageWrite (by rw [ha]; decide),ha,hb,hl⟩

theorem oneWriter_disciplined (ha : a.length = pageSize) (hb : b.length = pageSize) :
    Disciplined (fun _ => a) [.begin 1 1,.pageWrite 2 1 1 0 a b] := by
  change Disciplined _ (([] ++ [_]) ++ [_])
  rw [disciplined_append,disciplined_append]
  refine ⟨⟨fun pre r h => by simp at h,?_⟩,admissible_pageWrite ha hb ?_ ?_ ?_ ?_⟩
  · simp [Admissible,Begun,LogRecord.begin]
  · simp [Begun,LogRecord.Begins,LogRecord.begin]
  · simp [Ended,LogRecord.Ends,LogRecord.begin]
  · simp [writesTo,writeTo_begin]
  · rfl

def twoWriters (a b c : Bytes) : List LogRecord :=
  [.begin 1 1,.pageWrite 2 1 1 0 a b,.commit 3 1 2,.begin 4 2,.pageWrite 5 2 4 0 b c]

theorem twoWriters_disciplined (ha : a.length = pageSize) (hb : b.length = pageSize)
    (hc : c.length = pageSize) : Disciplined (fun _ => a) (twoWriters a b c) := by
  have hw : writesTo 0 [.begin 1 1,.pageWrite 2 1 1 0 a b,.commit 3 1 2,.begin 4 2] =
      [⟨1,a,b⟩] := by
    simp only [writesTo,List.filterMap_cons,writeTo_begin,writeTo_commit,writeTo_pageWrite ha,
      List.filterMap_nil]
  change Disciplined _ ((([.begin 1 1,.pageWrite 2 1 1 0 a b] ++ [_]) ++ [_]) ++ [_])
  rw [disciplined_append,disciplined_append,disciplined_append]
  refine ⟨⟨⟨oneWriter_disciplined ha hb,?_⟩,?_⟩,admissible_pageWrite hb hc ?_ ?_ ?_ ?_⟩
  · simp [Admissible,Ended,LogRecord.Ends,LogRecord.begin,LogRecord.pageWrite,LogRecord.commit]
  · simp [Admissible,Begun,LogRecord.Begins,LogRecord.begin,LogRecord.pageWrite,LogRecord.commit]
  · simp [Begun,LogRecord.Begins,LogRecord.begin]
  · simp [Ended,LogRecord.Ends,LogRecord.begin,LogRecord.commit,LogRecord.pageWrite]
  · change ∀ w ∈ writesTo 0 [.begin 1 1,.pageWrite 2 1 1 0 a b,.commit 3 1 2,.begin 4 2],_
    rw [hw]
    simp [Ended,LogRecord.Ends,LogRecord.begin,LogRecord.commit,LogRecord.pageWrite]
  · change b = lastAfter a (List.filter _
      (writesTo 0 [.begin 1 1,.pageWrite 2 1 1 0 a b,.commit 3 1 2,.begin 4 2]))
    rw [hw]
    simp [lastAfter,Aborted,LogRecord.begin,LogRecord.commit,LogRecord.pageWrite]

def fill (b : UInt8) : Bytes := List.replicate pageSize b

theorem length_fill (b : UInt8) : (fill b).length = pageSize := List.length_replicate

def paged (rs : List LogRecord) (file : Bytes) : StorageEngine :=
  mount ⟨file,rs.flatMap LogRecord.serialize⟩ 1 [] []

theorem pool_paged {file : Bytes} : (paged rs file).pool = .new (.open_ file []) 1 := rfl

theorem readAll_paged {file : Bytes} (h : ∀ r ∈ rs, r.Fits) :
    FrameLog.readAll LogRecord.deserialize (paged rs file).wal.file = .ok rs :=
  LogRecord.framing.readAll_frames h

theorem fits_pageWrite (ha : a.length = pageSize) (hb : b.length = pageSize) :
    (LogRecord.pageWrite lsn t prevLsn p a b).Fits := by
  rw [LogRecord.Fits,LogRecord.pageWrite,List.length_append,List.length_append,length_leBytes,ha,hb]
  decide

theorem pageBytes_fill (x : UInt8) : pageBytes (fill x) 0 = fill x := by
  change ((fill x).drop 0).take pageSize = fill x
  rw [List.drop_zero,List.take_of_length_le (length_fill x).le]

theorem writesTo_twoWriters (ha : a.length = pageSize) (hb : b.length = pageSize) :
    writesTo 0 (twoWriters a b c) = [⟨1,a,b⟩,⟨2,b,c⟩] := by
  simp only [twoWriters,writesTo,List.filterMap_cons,writeTo_begin,writeTo_commit,
    writeTo_pageWrite ha,writeTo_pageWrite hb,List.filterMap_nil]

theorem fits_twoWriters (ha : a.length = pageSize) (hb : b.length = pageSize)
    (hc : c.length = pageSize) : ∀ r ∈ twoWriters a b c, r.Fits := by
  have h1 : (LogRecord.pageWrite 2 1 1 0 a b).Fits := fits_pageWrite ha hb
  have h2 : (LogRecord.pageWrite 5 2 4 0 b c).Fits := fits_pageWrite hb hc
  simp only [twoWriters,List.forall_mem_cons]
  exact ⟨by decide,h1,by decide,by decide,h2,by simp⟩

end sample

theorem recovery_restores_committed_inFlight : ∃ s,
    recover (paged (twoWriters (fill 0) (fill 1) (fill 2)) (fill 2)) = (.ok (),s) ∧
      pageBytes s.directory.data 0 = fill 1 := by
  have hw := writesTo_twoWriters (c := fill 2) (length_fill 0) (length_fill 1)
  obtain ⟨s,hs,h⟩ := recovery_restores_committed
    (e := paged (twoWriters (fill 0) (fill 1) (fill 2)) (fill 2)) rfl le_rfl rfl
    (readAll_paged (fits_twoWriters (length_fill 0) (length_fill 1) (length_fill 2)))
    (twoWriters_disciplined (length_fill 0) (length_fill 1) (length_fill 2))
  have h0 := (h 0 (by rw [numPages_page (length_fill 2)]; decide)).1
    (fun w _ => by simp [Aborted,twoWriters,LogRecord.begin,LogRecord.commit,LogRecord.pageWrite])
    (Or.inr ⟨⟨2,fill 1,fill 2⟩,by rw [hw]; simp,Or.inr (pageBytes_fill 2)⟩)
  refine ⟨s,hs,h0.trans ?_⟩
  rw [committedContent,hw]
  simp [Committed,lastAfter,twoWriters,LogRecord.begin,LogRecord.commit,LogRecord.pageWrite]

theorem no_trace_iff (hp : e.pool = .new (.open_ file []) capacity) (hc : 1 ≤ capacity)
    (hw : e.wal.faults = []) (hr : FrameLog.readAll LogRecord.deserialize e.wal.file = .ok rs)
    (hd : Disciplined original rs) : ∃ s, recover e = (.ok (),s) ∧
      ((∀ p, p < (DiskManager.open_ file []).numPages →
          pageBytes s.directory.data p = committedContent (original p) p rs) ↔
        ∀ p, p < (DiskManager.open_ file []).numPages →
          (∃ w ∈ writesTo p rs, ¬ Aborted rs w.txnId) ∨ pageBytes file p = original p) := by
  obtain ⟨s,hs,hpages⟩ := recover_disciplined hp hc hw hr hd
  refine ⟨s,hs,forall_congr' fun p => imp_congr_right fun hlt => ?_⟩
  rw [hpages p hlt]
  split_ifs with hex
  · exact iff_of_true rfl (Or.inl hex)
  · rw [hd.committedContent_eq hex,or_iff_right hex]

theorem no_trace_iff_inFlight : ∃ s,
    recover (paged (twoWriters (fill 0) (fill 1) (fill 2)) (fill 2)) = (.ok (),s) ∧
      ∀ p, p < (DiskManager.open_ (fill 2) []).numPages → pageBytes s.directory.data p =
        committedContent (fill 0) p (twoWriters (fill 0) (fill 1) (fill 2)) := by
  have hw := writesTo_twoWriters (c := fill 2) (length_fill 0) (length_fill 1)
  obtain ⟨s,hs,h⟩ := no_trace_iff
    (e := paged (twoWriters (fill 0) (fill 1) (fill 2)) (fill 2)) pool_paged le_rfl rfl
    (readAll_paged (fits_twoWriters (length_fill 0) (length_fill 1) (length_fill 2)))
    (twoWriters_disciplined (length_fill 0) (length_fill 1) (length_fill 2))
  have hn := numPages_page (length_fill 2)
  refine ⟨s,hs,h.mpr fun p hp => Or.inl ?_⟩
  rw [hn,UInt32.lt_one_iff] at hp
  rw [hp,hw]
  refine ⟨_,List.mem_cons_self,?_⟩
  simp [Aborted,twoWriters,LogRecord.begin,LogRecord.commit,LogRecord.pageWrite]

def abortedWriter (a b : Bytes) : List LogRecord :=
  [.begin 1 1,.pageWrite 2 1 1 0 a b,.abort 3 1 2]

theorem abortedWriter_disciplined {a b : Bytes} (ha : a.length = pageSize)
    (hb : b.length = pageSize) : Disciplined (fun _ => a) (abortedWriter a b) := by
  change Disciplined _ ([.begin 1 1,.pageWrite 2 1 1 0 a b] ++ [_])
  rw [disciplined_append]
  refine ⟨oneWriter_disciplined ha hb,?_⟩
  simp [Admissible,Ended,LogRecord.Ends,LogRecord.begin,LogRecord.pageWrite,LogRecord.abort]

theorem abort_leaves_trace : Disciplined (fun _ => fill 0) (abortedWriter (fill 0) (fill 1)) ∧
    HoldsVersion (fun _ => fill 0) (abortedWriter (fill 0) (fill 1)) (fill 1) 0 ∧
    ∃ s, recover (paged (abortedWriter (fill 0) (fill 1)) (fill 1)) = (.ok (),s) ∧
      pageBytes s.directory.data 0 ≠ committedContent (fill 0) 0
        (abortedWriter (fill 0) (fill 1)) := by
  have hd := abortedWriter_disciplined (length_fill 0) (length_fill 1)
  have hw : writesTo 0 (abortedWriter (fill 0) (fill 1)) = [⟨1,fill 0,fill 1⟩] := by
    simp only [abortedWriter,writesTo,List.filterMap_cons,writeTo_begin,
      writeTo_pageWrite (length_fill 0),List.filterMap_nil]
    rfl
  have hfits : ∀ r ∈ abortedWriter (fill 0) (fill 1), r.Fits := by
    have h1 : (LogRecord.pageWrite 2 1 1 0 (fill 0) (fill 1)).Fits :=
      fits_pageWrite (length_fill 0) (length_fill 1)
    simp only [abortedWriter,List.forall_mem_cons]
    exact ⟨by decide,h1,by decide,by simp⟩
  have hex : ¬ ∃ w ∈ writesTo 0 (abortedWriter (fill 0) (fill 1)),
      ¬ Aborted (abortedWriter (fill 0) (fill 1)) w.txnId := by
    rw [hw]
    simp [Aborted,abortedWriter,LogRecord.begin,LogRecord.abort,LogRecord.pageWrite]
  obtain ⟨s,hs,h⟩ := recover_disciplined (e := paged (abortedWriter (fill 0) (fill 1)) (fill 1)) rfl
    le_rfl rfl (readAll_paged hfits) hd
  refine ⟨hd,Or.inr ⟨_,by rw [hw]; exact List.mem_cons_self,Or.inr (pageBytes_fill 1)⟩,s,hs,?_⟩
  rw [h 0 (by rw [numPages_page (length_fill 1)]; decide),if_neg hex,pageBytes_fill,
    hd.committedContent_eq hex]
  exact fun he => absurd (List.replicate_right_injective (by decide) he) (by decide)

end StorageEngine

end StorageDb
