import Mathlib.Tactic
import StorageDb.Wal.TornTail
import StorageDb.Wal.Analysis

namespace StorageDb
open Bytes FrameLog

-- What recovery can see of a record: no LSNs, and nothing of a checkpoint.
def LogRecord.strip (r : LogRecord) : Option LogRecord :=
  if r.recordType = .checkpoint then none else some { r with lsn := 0, prevLsn := 0 }

section recovery

variable {rs rs' : List LogRecord} {r : LogRecord}

theorem strip_checkpoint (h : r.recordType = .checkpoint) : r.strip = none := if_pos h

theorem strip_other (h : r.recordType ≠ .checkpoint) :
    r.strip = some { r with lsn := 0, prevLsn := 0 } := if_neg h

theorem foldl_strip (a : Analysis) (rs : List LogRecord) :
    (rs.filterMap LogRecord.strip).foldl Analysis.step a = rs.foldl Analysis.step a := by
  induction rs generalizing a with
  | nil => rfl
  | cons r rs ih =>
    by_cases hr : r.recordType = .checkpoint
    · have hstep : a.step r = a := by rw [Analysis.step,hr]
      rw [List.filterMap_cons_none (strip_checkpoint hr),List.foldl_cons,hstep,ih]
    · rw [List.filterMap_cons_some (strip_other hr),List.foldl_cons,List.foldl_cons,ih]
      rfl

theorem collectImages_strip (txns : Finset TxnId) (image : Bytes × Bytes → Bytes)
    (rs : List LogRecord) :
    collectImages txns image (rs.filterMap LogRecord.strip) = collectImages txns image rs := by
  induction rs with
  | nil => rfl
  | cons r rs ih =>
    by_cases hr : r.recordType = .checkpoint
    · rw [List.filterMap_cons_none (strip_checkpoint hr),ih,collectImages,if_neg]
      rintro ⟨hw,-⟩
      rw [hr] at hw
      cases hw
    · rw [List.filterMap_cons_some (strip_other hr),collectImages,collectImages,ih]
      rfl

-- The test for an empty log saves work and decides nothing.
theorem recoveryActions_eq (rs : List LogRecord) : recoveryActions rs = (do
    let redo ← collectImages (analyse rs).committed Prod.snd rs
    let undo ← collectImages (analyse rs).active Prod.fst rs.reverse
    pure ⟨redo,undo,(analyse rs).committed,(analyse rs).active⟩) := by
  rw [recoveryActions]
  split_ifs with hnil
  · subst hnil
    rfl
  · rfl

theorem recoveryActions_strip (h : rs.filterMap LogRecord.strip = rs'.filterMap LogRecord.strip) :
    recoveryActions rs = recoveryActions rs' := by
  have hall (rs : List LogRecord) :
      recoveryActions (rs.filterMap LogRecord.strip) = recoveryActions rs := by
    have ha : analyse (rs.filterMap LogRecord.strip) = analyse rs := foldl_strip _ rs
    rw [recoveryActions_eq,recoveryActions_eq,ha,← List.filterMap_reverse,collectImages_strip,
      collectImages_strip]
  rw [← hall rs,← hall rs',h]

end recovery

def WalOp.plain : WalOp → WalOp
  | .checkpoint _ => .flush
  | op => op

section session

variable {op : WalOp} {ops : List WalOp} {r : LogRecord} {next : Lsn} {last : TxnId → Option Lsn}

theorem WalOp.syncs_plain (op : WalOp) : op.plain.syncs = op.syncs := by cases op <;> rfl

theorem WalOp.PayloadFits.plain (h : op.PayloadFits) : op.plain.PayloadFits := by
  cases op with
  | checkpoint ts => exact (by decide : WalOp.flush.PayloadFits)
  | _ => exact h

theorem WalOp.PayloadFits.entry (h : op.PayloadFits) (hr : op.entry next last = some r) :
    r.Fits := by
  obtain ⟨record,hq,rfl⟩ := Option.map_eq_some_iff.mp hr
  have hf : record.Fits := WalManager.request_fits h hq
  exact hf

theorem WalOp.PayloadFits.images (h : op.PayloadFits) (hr : op.entry next last = some r)
    (hw : r.recordType = .pageWrite) : ∃ im, r.pageWriteImages = .ok im := by
  cases op with
  | pageWrite t p b a =>
    cases hr
    refine ⟨_,LogRecord.pageWriteImages_pageWrite ?_⟩
    simp only [WalOp.PayloadFits,WalOp.payload] at h
    omega
  | flush => cases hr
  | _ =>
    cases hr
    cases hw

theorem syncedPrefix_plain (ops : List WalOp) :
    syncedPrefix (ops.map WalOp.plain) = (syncedPrefix ops).map WalOp.plain := by
  induction ops with
  | nil => rfl
  | cons op ops ih =>
    have hany : (ops.map WalOp.plain).any WalOp.syncs = ops.any WalOp.syncs := by
      rw [List.any_map]
      exact congrArg ops.any (funext WalOp.syncs_plain)
    rw [List.map_cons,syncedPrefix,syncedPrefix,WalOp.syncs_plain,hany,ih]
    split_ifs <;> rfl

theorem syncedPrefix_mem (h : op ∈ syncedPrefix ops) : op ∈ ops := by
  induction ops with
  | nil => cases h
  | cons o ops ih =>
    rw [syncedPrefix] at h
    split_ifs at h
    · rcases List.mem_cons.mp h with rfl | h
      · exact List.mem_cons_self
      · exact List.mem_cons_of_mem _ (ih h)
    · cases h

theorem sessionRecords_entry (h : r ∈ sessionRecords next last ops) :
    ∃ op ∈ ops, ∃ next last, op.entry next last = some r := by
  induction ops generalizing next last with
  | nil => cases h
  | cons op ops ih =>
    rw [sessionRecords_cons] at h
    rcases List.mem_append.mp h with h | h
    · exact ⟨op,List.mem_cons_self,_,_,Option.mem_toList.mp h⟩
    · obtain ⟨o,ho,hentry⟩ := ih h
      exact ⟨o,List.mem_cons_of_mem _ ho,hentry⟩

theorem WalOp.strip_entry (op : WalOp) (next next' : Lsn) (last last' : TxnId → Option Lsn) :
    (op.entry next last).toList.filterMap LogRecord.strip =
      (op.plain.entry next' last').toList.filterMap LogRecord.strip := by
  cases op <;> rfl

theorem strip_session (ops : List WalOp) (next next' : Lsn) (last last' : TxnId → Option Lsn) :
    (sessionRecords next last ops).filterMap LogRecord.strip =
      (sessionRecords next' last' (ops.map WalOp.plain)).filterMap LogRecord.strip := by
  induction ops generalizing next next' last last' with
  | nil => rfl
  | cons op ops ih =>
    rw [List.map_cons,sessionRecords_cons,sessionRecords_cons,List.filterMap_append,
      List.filterMap_append,op.strip_entry next next' last last']
    exact congrArg _ (ih ..)

end session

namespace WalManager

variable {base : Bytes} {lsn : Lsn} {acked : Nat} {w w' v v' : WalManager} {ops : List WalOp}
  {ls ls' : List (Option Lsn)}

theorem Logged.execAll (h : Logged base lsn acked w) (hops : ∀ op ∈ ops, op.PayloadFits)
    (hrun : WalManager.execAll ops w = (.ok ls,w')) : Logged base lsn acked w' := by
  induction ops generalizing w ls with
  | nil =>
    cases hrun
    exact h
  | cons op ops ih =>
    rcases hx : op.exec w with ⟨r,t⟩
    have hp := (h.exec_spec (hops op List.mem_cons_self)).of_eq hx
    cases r with
    | error f =>
      rw [WalManager.execAll,Prog.bind_error hx] at hrun
      cases hrun
    | ok l =>
      rw [WalManager.execAll,Prog.bind_ok hx] at hrun
      rcases hrest : WalManager.execAll ops t with ⟨r',t'⟩
      cases r' with
      | error f =>
        rw [Prog.bind_error hrest] at hrun
        cases hrun
      | ok ls' =>
        rw [Prog.bind_ok hrest] at hrun
        cases hrun
        exact ih hp.2.1 (fun o ho => hops o (List.mem_cons_of_mem _ ho)) hrest

theorem Durable.reads (hd : Durable [] 0 acked w) (n : Nat) :
    ∃ m, readAll LogRecord.deserialize (w.file.take n) = .ok (w.appended.take m) ∧
      open_ (onFile (w.file.take n) []) =
        (.ok (),opened (w.appended.take m) (onFile (w.file.take n) [])) := by
  obtain ⟨m,-,hread,-⟩ := LogRecord.framing.readAll_take hd.fits (min n w.file.length)
  have hfile : w.file.take n = w.stream.take (min n w.file.length) := by
    have hf := hd.file
    rw [List.nil_append] at hf
    conv_lhs => rw [hf]
    rw [List.take_take]
  have hread : readAll LogRecord.deserialize (w.file.take n) = .ok (w.appended.take m) := by
    rw [hfile]
    exact hread
  refine ⟨m,hread,open_calm hread ?_⟩
  have hle : (maxLsn (w.appended.take m)).toNat ≤ w.appended.length := by
    refine maxLsn_le (fun r hr => ?_)
    obtain ⟨i,hi⟩ := List.mem_iff_getElem?.mp (List.mem_of_mem_take hr)
    rw [hd.lsn_toNat hi]
    exact (List.getElem?_eq_some_iff.mp hi).1
  have hst := length_stream w
  have hb := hd.bound
  omega

theorem session_recovers {faults : List (Option Nat)}
    (hopen : open_ (onFile [] faults) = (.ok (),w))
    (hops : ∀ op ∈ ops, op.PayloadFits) (hrun : execAll ops w = (.ok ls,w')) :
    ∃ u actions, open_ (onFile w'.file []) = (.ok (),u) ∧ recover u = (.ok actions,u) ∧
      recoveryActions (sessionRecords 1 (fun _ => none) (syncedPrefix ops)) = .ok actions := by
  obtain ⟨rs,fs,hrs,-,rfl⟩ := (open_spec [] faults).of_eq hopen rfl
  have hnil : rs = [] := by cases hrs; rfl
  subst hnil
  have hlog := Logged.opened [] [] fs
  obtain ⟨-,hfile⟩ := (flowing_opened [] [] fs).execAll_ok hrun
  have hd : Durable [] 0 0 w' := (hlog.execAll hops hrun).toDurable
  set rs := sessionRecords 1 (fun _ => none) (syncedPrefix ops) with hrs'
  have hfile : w'.file = rs.flatMap LogRecord.serialize := by
    rw [hfile]
    split_ifs with hany
    · rfl
    · rw [hrs',syncedPrefix_eq_nil (Bool.eq_false_of_not_eq_true hany)]
      rfl
  have hentry : ∀ r ∈ rs, ∃ op ∈ ops, ∃ next last, op.entry next last = some r := by
    intro r hr
    obtain ⟨op,ho,h⟩ := sessionRecords_entry hr
    exact ⟨op,syncedPrefix_mem ho,h⟩
  obtain ⟨m,hread,hopen'⟩ := hd.reads w'.file.length
  rw [List.take_length] at hread hopen'
  have hsame : w'.appended.take m = rs := by
    have hfits : ∀ r ∈ rs, r.Fits := by
      intro r hr
      obtain ⟨op,ho,next,last,he⟩ := hentry r hr
      exact (hops op ho).entry he
    have hall := LogRecord.framing.readAll_frames hfits
    rw [← hfile,hread] at hall
    exact Except.ok.inj hall
  rw [hsame] at hread hopen'
  have himages : ∀ r ∈ rs, r.recordType = .pageWrite → ∃ im, r.pageWriteImages = .ok im := by
    intro r hr hw
    obtain ⟨op,ho,next,last,he⟩ := hentry r hr
    exact (hops op ho).images he hw
  obtain ⟨actions,hact⟩ := recoveryActions_total himages
  exact ⟨_,actions,hopen',recover_calm rfl hread hact,hact⟩

theorem checkpoint_recovers_as_flush {faults faults' : List (Option Nat)}
    (hw : open_ (onFile [] faults) = (.ok (),w)) (hv : open_ (onFile [] faults') = (.ok (),v))
    (hops : ∀ op ∈ ops, op.PayloadFits) (hrun : execAll ops w = (.ok ls,w'))
    (hrun' : execAll (ops.map WalOp.plain) v = (.ok ls',v')) :
    ∃ u u' actions, open_ (onFile w'.file []) = (.ok (),u) ∧
      open_ (onFile v'.file []) = (.ok (),u') ∧ recover u = (.ok actions,u) ∧
      recover u' = (.ok actions,u') := by
  have hops' : ∀ op ∈ ops.map WalOp.plain, op.PayloadFits := by
    intro op ho
    obtain ⟨o,hmem,rfl⟩ := List.mem_map.mp ho
    exact (hops o hmem).plain
  obtain ⟨u,actions,hu,hr,ha⟩ := session_recovers hw hops hrun
  obtain ⟨u',actions',hu',hr',ha'⟩ := session_recovers hv hops' hrun'
  rw [syncedPrefix_plain] at ha'
  have hsame := recoveryActions_strip (strip_session (syncedPrefix ops) 1 1 (fun _ => none)
    (fun _ => none))
  rw [ha,ha'] at hsame
  cases hsame
  exact ⟨u,u',actions,hu,hu',hr,hr'⟩

def checkpointed : List WalOp :=
  [.begin 1,.checkpoint [1],.pageWrite 1 3 [0] [7],.begin 2,.commit 1,.pageWrite 2 4 [1] [8],
    .checkpoint [2]]

theorem checkpoint_recovers_as_flush_between : ∃ w' v' u u' actions,
    execAll checkpointed (opened [] (onFile [] [])) =
      (.ok [some 1,some 2,some 3,some 4,some 5,some 6,
      some 7],w') ∧
    execAll (checkpointed.map WalOp.plain) (opened [] (onFile [] [])) = (.ok [some 1,none,some 2,
      some 3,some 4,some 5,none],v') ∧
    open_ (onFile w'.file []) = (.ok (),u) ∧ open_ (onFile v'.file []) = (.ok (),u') ∧
    recover u = (.ok actions,u) ∧ recover u' = (.ok actions,u') := by
  have hw : open_ (onFile [] []) = (.ok (),opened [] (onFile [] [])) := rfl
  have hrun := Prog.run_eq (m := execAll checkpointed) (s := opened [] (onFile [] []))
    (r := .ok [some 1,some 2,some 3,some 4,some 5,some 6,some 7]) (by decide +kernel)
  have hrun' := Prog.run_eq (m := execAll (checkpointed.map WalOp.plain))
    (s := opened [] (onFile [] []))
    (r := .ok [some 1,none,some 2,some 3,some 4,some 5,none]) (by decide +kernel)
  obtain ⟨u,u',actions,hu,hu',hr,hr'⟩ := checkpoint_recovers_as_flush hw hw (by decide) hrun hrun'
  exact ⟨_,_,u,u',actions,hrun,hrun',hu,hu',hr,hr'⟩

end WalManager

end StorageDb
