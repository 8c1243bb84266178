import Mathlib.Tactic
import StorageDb.Wal.RecordGrammar
import StorageDb.Wal.Reopen

namespace StorageDb
open Bytes FrameLog

theorem sessionRecords_cons (next : Lsn) (last : TxnId → Option Lsn) (op : WalOp)
    (ops : List WalOp) : sessionRecords next last (op :: ops) = (op.entry next last).toList ++
      sessionRecords (next + UInt64.ofNat (op.entry next last).toList.length)
        (op.tracked next last) ops := by
  rw [sessionRecords]
  cases op.entry next last with
  | none =>
    change sessionRecords next _ ops = sessionRecords (next + 0) _ ops
    rw [UInt64.add_zero]
  | some r => rfl

theorem syncedPrefix_eq_nil {ops : List WalOp} (h : ops.any WalOp.syncs = false) :
    syncedPrefix ops = [] := by
  cases ops with
  | nil => rfl
  | cons op ops =>
    rw [List.any_cons] at h
    rw [syncedPrefix,h]
    rfl

theorem syncedPrefix_cons {op : WalOp} {ops : List WalOp}
    (h : (op :: ops).any WalOp.syncs = true) :
    syncedPrefix (op :: ops) = op :: syncedPrefix ops := by
  rw [List.any_cons] at h
  rw [syncedPrefix,if_pos h]

def WalOp.Transactional : WalOp → Prop
  | .begin _ => True
  | .pageWrite _ _ _ _ => True
  | .commit _ => True
  | _ => False

instance (op : WalOp) : Decidable op.Transactional := by
  cases op <;> unfold WalOp.Transactional <;> infer_instance

theorem syncs_of_commit {ops : List WalOp} (h : ∀ op ∈ ops, op.Transactional) :
    ops.any WalOp.syncs = true ↔ ∃ t, WalOp.commit t ∈ ops := by
  rw [List.any_eq_true]
  constructor
  · rintro ⟨op,hop,hs⟩
    cases op with
    | commit t => exact ⟨t,hop⟩
    | begin t => cases hs
    | pageWrite t p b a => cases hs
    | abort t => cases hs
    | checkpoint ts => exact (h _ hop).elim
    | flush => exact (h _ hop).elim
  · rintro ⟨t,ht⟩
    exact ⟨_,ht,rfl⟩

theorem commit_of_entry {next : Lsn} {last : TxnId → Option Lsn} {op : WalOp} {c : LogRecord}
    (h : op.entry next last = some c) (hc : c.recordType = .commit) : ∃ t, op = .commit t := by
  cases op with
  | commit t => exact ⟨t,rfl⟩
  | flush => cases h
  | _ =>
    cases h
    cases hc

theorem commit_of_session {next : Lsn} {last : TxnId → Option Lsn} {ops : List WalOp}
    {c : LogRecord} (h : c ∈ sessionRecords next last ops) (hc : c.recordType = .commit) :
    ∃ t, WalOp.commit t ∈ ops := by
  induction ops generalizing next last with
  | nil => cases h
  | cons op ops ih =>
    rw [sessionRecords_cons] at h
    rcases List.mem_append.mp h with h | h
    · obtain ⟨t,rfl⟩ := commit_of_entry (Option.mem_toList.mp h) hc
      exact ⟨t,List.mem_cons_self⟩
    · obtain ⟨t,ht⟩ := ih h
      exact ⟨t,List.mem_cons_of_mem _ ht⟩

theorem commit_of_committedRecords {rs : List LogRecord} {r : LogRecord}
    (h : r ∈ committedRecords rs) : ∃ c ∈ rs, c.recordType = .commit := by
  induction rs with
  | nil => cases h
  | cons x rs ih =>
    rw [committedRecords] at h
    split_ifs at h with hany
    · obtain ⟨c,hc,hp⟩ := List.any_eq_true.mp hany
      exact ⟨c,hc,(of_decide_eq_true hp).1⟩
    · obtain ⟨c,hc,hp⟩ := ih h
      exact ⟨c,List.mem_cons_of_mem _ hc,hp⟩

theorem committed_of_commit {rs : List LogRecord} {c : LogRecord} (h : c ∈ rs)
    (hc : c.recordType = .commit) : c ∈ committedRecords rs := by
  induction rs with
  | nil => cases h
  | cons x rs ih =>
    rw [committedRecords]
    rcases List.mem_cons.mp h with rfl | h
    · rw [if_pos (List.any_eq_true.mpr ⟨c,List.mem_cons_self,decide_eq_true ⟨hc,rfl⟩⟩)]
      exact List.mem_cons_self
    · split_ifs
      · exact List.mem_cons_of_mem _ (ih h)
      · exact ih h

theorem session_of_commit (next : Lsn) (last : TxnId → Option Lsn) {ops : List WalOp} {t : TxnId}
    (h : WalOp.commit t ∈ ops) : ∃ c ∈ sessionRecords next last ops, c.recordType = .commit ∧
      ∃ i < ops.length, c.lsn = next + UInt64.ofNat i := by
  induction ops generalizing next last with
  | nil => cases h
  | cons op ops ih =>
    rw [sessionRecords_cons]
    rcases List.mem_cons.mp h with rfl | h
    · exact ⟨_,List.mem_append_left _ (List.mem_singleton_self _),rfl,0,Nat.succ_pos _,
        (UInt64.add_zero next).symm⟩
    · obtain ⟨c,hmem,hc,i,hi,hlsn⟩ := ih _ _ h
      refine ⟨c,List.mem_append_right _ hmem,hc,(op.entry next last).toList.length + i,?_,?_⟩
      · have hle : (op.entry next last).toList.length ≤ 1 := by cases op.entry next last <;> simp
        rw [List.length_cons]
        omega
      · rw [hlsn,UInt64.ofNat_add,UInt64.add_assoc]

namespace WalManager

variable {w w' : WalManager} {op : WalOp}

-- No call has failed: the buffer continues the file.
def Flowing (w : WalManager) : Prop := w.offset = w.file.length + w.writeBuffer.length

def newBytes (w : WalManager) (op : WalOp) : Bytes :=
  (op.entry w.nextLsn w.txnLastLsn).toList.flatMap LogRecord.serialize

def wrote (w : WalManager) (op : WalOp) : Bytes × Bytes :=
  if op.syncs then (w.file ++ (w.writeBuffer ++ w.newBytes op),[])
  else (w.file,w.writeBuffer ++ w.newBytes op)

def Writes (w : WalManager) (op : WalOp) {α : Type} (r : Except (Fault Error) α) (t : WalManager) :
    Prop := ∀ a, r = .ok a → (t.file,t.writeBuffer) = w.wrote op

theorem flowing_opened (file : Bytes) (rs : List LogRecord) (fs : List (Option Nat)) :
    Flowing (opened rs (onFile file fs)) := (Nat.add_zero file.length).symm

theorem Flowing.logged (h : Flowing w) (record : LogRecord) : Flowing (w.logged record) := by
  change w.offset + _ = w.file.length + (w.writeBuffer ++ _).length
  rw [List.length_append,h,Nat.add_assoc]

theorem Flowing.drain (h : Flowing w) : Prog.Spec drain w (fun r t =>
    r = .ok () → t.file = w.file ++ w.writeBuffer ∧ t.writeBuffer = []) := by
  rw [WalManager.drain,Prog.spec_get_bind]
  split_ifs with hnil hlt
  · intro _
    rw [hnil,List.append_nil]
    exact ⟨rfl,hnil⟩
  · exact fun e => (by cases e)
  · refine (writeAll_spec _ _ w).bind ?_ (fun f t _ e => by cases e)
    rintro a t ⟨n,fs,rfl,hr⟩ -
    rcases hr with ⟨-,hn⟩ | hr
    · refine ⟨?_,rfl⟩
      change overwrite w.file (w.offset - w.writeBuffer.length) (w.writeBuffer.take n) = _
      rw [List.take_of_length_le hn,h,Nat.add_sub_cancel,overwrite_end]
    · cases hr

theorem Flowing.flush (h : Flowing w) : Prog.Spec flush w (fun r t =>
    r = .ok () → t.file = w.file ++ w.writeBuffer ∧ t.writeBuffer = []) := by
  refine h.drain.bind ?_ (fun f t _ e => by cases e)
  intro _ t ht
  refine (sysCall_spec t).bind ?_ (fun f t _ e => by cases e)
  rintro - t' ⟨fs,rfl,-⟩
  rw [Prog.spec_get_bind]
  split_ifs
  · exact fun e => (by cases e)
  · exact fun _ => ht rfl

theorem Flowing.append (h : Flowing w) (record : LogRecord) : Prog.Spec (append record) w
    (fun r t => ∀ l, r = .ok l → Flowing t ∧ t.file = w.file ∧
      t.writeBuffer = w.writeBuffer ++ (w.stamp record).serialize) := by
  refine (append_spec record w).mono ?_
  rintro r t (⟨-,rfl,-⟩ | ⟨rfl,-⟩) l hl
  · exact ⟨h.logged record,rfl,rfl⟩
  · cases hl

theorem Flowing.appendFlush {α : Type} (h : Flowing w) (record : LogRecord)
    {g : Lsn → Prog Error WalManager α}
    (hg : ∀ l t, Prog.Spec (g l) t
      (fun _ t' => t'.file = t.file ∧ t'.writeBuffer = t.writeBuffer)) :
    Prog.Spec (WalManager.append record >>= fun l => WalManager.flush >>= fun _ => g l) w
      (fun r t => ∀ l, r = .ok l → t.file = w.file ++
      (w.writeBuffer ++ (w.stamp record).serialize) ∧
        t.writeBuffer = []) := by
  refine (h.append record).bind ?_ (fun f t _ l e => by cases e)
  intro l t ht
  obtain ⟨hft,hfile,hbuf⟩ := ht l rfl
  refine hft.flush.bind ?_ (fun f t _ l e => by cases e)
  intro _ t' ht'
  obtain ⟨hfile',hbuf'⟩ := ht' rfl
  refine (hg l t').mono fun r t'' hr _ _ => ?_
  rw [hr.1,hr.2,hfile',hbuf',hfile,hbuf]
  exact ⟨rfl,rfl⟩

theorem wrote_calm {record : LogRecord} (hq : op.request w.txnLastLsn = some record)
    (hs : op.syncs = false) :
    w.wrote op = (w.file,w.writeBuffer ++ (w.stamp record).serialize) := by
  simp [wrote,newBytes,WalOp.entry,hq,hs,stamp]

theorem wrote_sync {record : LogRecord} (hq : op.request w.txnLastLsn = some record)
    (hs : op.syncs = true) :
    w.wrote op = (w.file ++ (w.writeBuffer ++ (w.stamp record).serialize),[]) := by
  simp [wrote,newBytes,WalOp.entry,hq,hs,stamp]

theorem wrote_append (w : WalManager) (op : WalOp) :
    (w.wrote op).1 ++ (w.wrote op).2 = w.file ++ (w.writeBuffer ++ w.newBytes op) := by
  rw [wrote]
  split_ifs
  · rw [List.append_nil]
  · rfl

theorem map_writes {α β : Type} {m : Prog Error WalManager α} (g : α → β)
    (h : Prog.Spec m w (w.Writes op)) : Prog.Spec (g <$> m) w (w.Writes op) :=
  h.map (fun a _ ht _ _ => ht a rfl) (fun _ _ _ _ e => by cases e)

theorem Flowing.append_writes {record : LogRecord} (op : WalOp) (h : Flowing w)
    (hq : op.request w.txnLastLsn = some record) (hs : op.syncs = false) :
    Prog.Spec (WalManager.append record) w (w.Writes op) := by
  refine (h.append record).mono fun r t ht l hl => ?_
  rw [wrote_calm hq hs,(ht l hl).2.1,(ht l hl).2.2]

theorem Flowing.exec (h : Flowing w) (op : WalOp) : Prog.Spec op.exec w (w.Writes op) := by
  cases op with
  | begin t => exact map_writes _ (h.append_writes _ rfl rfl)
  | pageWrite t p b a =>
    refine map_writes _ ?_
    rw [logPageWrite,Prog.spec_get_bind]
    exact h.append_writes _ rfl rfl
  | commit t =>
    refine map_writes _ ?_
    rw [logCommit,Prog.spec_get_bind]
    refine (h.appendFlush _ fun l t' => ⟨rfl,rfl⟩).mono fun r t' ht l hl => ?_
    rw [wrote_sync rfl rfl,(ht l hl).1,(ht l hl).2]
    rfl
  | abort t =>
    refine map_writes _ ?_
    rw [logAbort,Prog.spec_get_bind]
    exact (h.append_writes (.abort t) rfl rfl).bind (fun l _ ht _ _ => ht l rfl)
      (fun _ _ _ _ e => by cases e)
  | checkpoint ts =>
    refine map_writes _ ?_
    rw [logCheckpoint]
    refine (h.appendFlush _ fun l t' => ⟨rfl,rfl⟩).mono fun r t' ht l hl => ?_
    rw [wrote_sync rfl rfl,(ht l hl).1,(ht l hl).2]
  | flush =>
    refine map_writes _ (h.flush.mono fun r t' ht u hu => ?_)
    change _ = (w.file ++ (w.writeBuffer ++ []),([] : Bytes))
    rw [(ht hu).1,(ht hu).2,List.append_nil]

theorem Flowing.exec_ok {l : Option Lsn} (h : Flowing w) (he : op.exec w = (.ok l,w')) :
    Flowing w' ∧ w'.appended = w.appended ++ (op.entry w.nextLsn w.txnLastLsn).toList ∧
      w'.nextLsn = w.nextLsn + UInt64.ofNat (op.entry w.nextLsn w.txnLastLsn).toList.length ∧
      w'.txnLastLsn = op.tracked w.nextLsn w.txnLastLsn ∧
      (w'.file,w'.writeBuffer) = w.wrote op := by
  have hw := (h.exec op).of_eq he l rfl
  obtain ⟨hbook,-⟩ := ((exec_books op w).of_eq he).resolve_left (fun e => by cases e)
  have hoff : w'.offset = w.offset + (w.newBytes op).length ∧
      w'.appended = w.appended ++ (op.entry w.nextLsn w.txnLastLsn).toList ∧
      w'.nextLsn = w.nextLsn + UInt64.ofNat (op.entry w.nextLsn w.txnLastLsn).toList.length ∧
      w'.txnLastLsn = op.tracked w.nextLsn w.txnLastLsn := by
    rw [booked] at hbook
    rw [newBytes]
    cases hentry : op.entry w.nextLsn w.txnLastLsn with
    | none =>
      rw [hentry] at hbook
      simp only [book,Prod.mk.injEq] at hbook
      obtain ⟨h1,h2,h3,h4⟩ := hbook
      have hflush : op = .flush := by
        cases op with
        | flush => rfl
        | _ => cases hentry
      subst hflush
      exact ⟨h4,by simp [h1],by simp [h2],h3⟩
    | some r =>
      rw [hentry] at hbook
      simp only [book,Prod.mk.injEq] at hbook
      obtain ⟨h1,h2,h3,h4⟩ := hbook
      refine ⟨by simp [h4],h1,h2,h3.trans ?_⟩
      cases op <;> rfl
  refine ⟨?_,hoff.2.1,hoff.2.2.1,hoff.2.2.2,hw⟩
  have hlen := congrArg List.length (w.wrote_append op)
  rw [← hw] at hlen
  simp only [List.length_append] at hlen
  rw [Flowing] at h ⊢
  omega

theorem Flowing.execAll_ok {ops : List WalOp} {ls : List (Option Lsn)} (h : Flowing w)
    (hrun : execAll ops w = (.ok ls,w')) :
    w'.appended = w.appended ++ sessionRecords w.nextLsn w.txnLastLsn ops ∧
      w'.file = if ops.any WalOp.syncs then w.file ++ (w.writeBuffer ++
        (sessionRecords w.nextLsn w.txnLastLsn (syncedPrefix ops)).flatMap LogRecord.serialize)
      else w.file := by
  induction ops generalizing w ls with
  | nil =>
    cases hrun
    exact ⟨(List.append_nil _).symm,rfl⟩
  | cons op ops ih =>
    rcases hx : op.exec w with ⟨f | l,t⟩
    · rw [execAll,Prog.bind_error hx] at hrun
      cases hrun
    · obtain ⟨ht,happ,hnext,hlast,hwrote⟩ := h.exec_ok hx
      rw [execAll,Prog.bind_ok hx] at hrun
      rcases hrest : execAll ops t with ⟨f | ls',t'⟩
      · rw [Prog.bind_error hrest] at hrun
        cases hrun
      · rw [Prog.bind_ok hrest] at hrun
        cases hrun
        obtain ⟨ha,hf⟩ := ih ht hrest
        rw [happ,hnext,hlast,List.append_assoc] at ha
        rw [hnext,hlast] at hf
        rw [sessionRecords_cons]
        refine ⟨ha,?_⟩
        have hfile : t.file = (w.wrote op).1 := congrArg Prod.fst hwrote
        have hbuf : t.writeBuffer = (w.wrote op).2 := congrArg Prod.snd hwrote
        rw [hfile,hbuf] at hf
        by_cases hany : ops.any WalOp.syncs = true
        · have hany' : (op :: ops).any WalOp.syncs = true := by rw [List.any_cons,hany,Bool.or_true]
          rw [hf,if_pos hany,if_pos hany',syncedPrefix_cons hany',sessionRecords_cons,
            List.flatMap_append,← List.append_assoc,wrote_append]
          simp only [newBytes,List.append_assoc]
        · rw [hf,if_neg hany]
          rw [Bool.not_eq_true] at hany
          rw [List.any_cons,hany,Bool.or_false]
          by_cases hop : op.syncs = true
          · have hany' : (op :: ops).any WalOp.syncs = true := by
              rw [List.any_cons,hop,Bool.true_or]
            rw [wrote,if_pos hop,if_pos hop,syncedPrefix_cons hany',syncedPrefix_eq_nil hany,
              sessionRecords_cons,sessionRecords,List.append_nil,newBytes]
          · rw [wrote,if_neg hop,if_neg hop]

theorem reopened_iff {file : Bytes} {P : List LogRecord → Prop} :
    (∃ w records, open_ (onFile file []) = (.ok (),w) ∧ readAllRecords w = (.ok records,w) ∧
      P records) ↔ ∃ records, readAll LogRecord.deserialize file = .ok records ∧
        (∀ r ∈ records, r.lsn.toNat + 1 < 2 ^ 64) ∧ P records := by
  constructor
  · rintro ⟨w,records,hopen,hread,hp⟩
    obtain ⟨rs,fs,hrs,hb,rfl⟩ := (open_spec file []).of_eq hopen rfl
    obtain ⟨_,_,heq⟩ := (readAllRecords_spec _).of_eq hread
    have hrec := heq records rfl
    have hsame : rs = records := Except.ok.inj (hrs.symm.trans hrec)
    subst hsame
    exact ⟨rs,hrs,maxLsn_bounded.mp hb,hp⟩
  · rintro ⟨records,hr,hb,hp⟩
    refine ⟨_,records,open_calm hr (maxLsn_bounded.mpr hb),?_,hp⟩
    rw [readAllRecords_calm rfl]
    exact Prod.ext hr rfl

theorem readAll_after {rs : List LogRecord} (hrs : ∀ x ∈ rs, x.Fits) {tail : Bytes}
    {records : List LogRecord} :
    readAll LogRecord.deserialize (rs.flatMap LogRecord.serialize ++ tail) = .ok records ↔
      ∃ xs, Reads LogRecord.deserialize tail xs ∧ records = rs ++ xs := by
  rw [LogRecord.framing.readAll_append hrs]
  constructor
  · intro h
    rcases ht : readAll LogRecord.deserialize tail with f | xs
    · rw [ht] at h
      cases h
    · rw [ht] at h
      cases h
      exact ⟨xs,(readAll_eq_ok LogRecord.framing.toSane).mp ht,rfl⟩
  · rintro ⟨xs,hx,rfl⟩
    rw [readAll_of_reads LogRecord.framing.toSane hx]
    rfl

def KeepsCommits (file : Bytes) (appended : List LogRecord) : Prop :=
  ∃ w records, open_ (onFile file []) = (.ok (),w) ∧ readAllRecords w = (.ok records,w) ∧
    ∀ x ∈ committedRecords appended, x ∈ records

-- The new records follow the fragment, and the reader starts at it: it gets to a commit only when
-- the length and the checksum it finds there happen to match, or when the LSNs have wrapped.
theorem torn_tail_readable {rs : List LogRecord} {r : LogRecord} {frag rest : Bytes}
    (hrs : ∀ x ∈ rs, x.Fits) (hr : r.Fits) (hfrag : frag ++ rest = r.serialize)
    (hne : frag ≠ [] ∧ rest ≠ []) {faults : List (Option Nat)}
    (hopen : open_ (onFile (rs.flatMap LogRecord.serialize ++ frag) faults) = (.ok (),w))
    {ops : List WalOp} (hops : ∀ op ∈ ops, op.Transactional) {ls : List (Option Lsn)}
    (hrun : execAll ops w = (.ok ls,w')) :
    ((∀ t, WalOp.commit t ∉ ops) → KeepsCommits w'.file w'.appended) ∧
      (KeepsCommits w'.file w'.appended → (∀ t, WalOp.commit t ∉ ops) ∨
        LogRecord.Accepted (frag ++ (sessionRecords (maxLsn rs + 1) (fun _ => none)
          (syncedPrefix ops)).flatMap LogRecord.serialize) ∨
        2 ^ 64 ≤ (maxLsn rs).toNat + 1 + ops.length) := by
  obtain ⟨rs',fs,hrs',hb,rfl⟩ := (open_spec _ faults).of_eq hopen rfl
  have hread := LogRecord.framing.readAll_torn hrs hr hfrag hne.2
  have hsame : rs' = rs := Except.ok.inj (hrs'.symm.trans hread)
  subst hsame
  obtain ⟨ha,hf⟩ := (flowing_opened _ rs' fs).execAll_ok hrun
  have ha' : w'.appended = sessionRecords (maxLsn rs' + 1) (fun _ => none) ops := ha
  have hsync := syncs_of_commit hops
  rw [KeepsCommits,reopened_iff,ha']
  refine ⟨fun hnone => ?_,?_⟩
  · rw [if_neg (fun h => (hsync.mp h).elim hnone)] at hf
    rw [hf]
    refine ⟨rs',hrs',maxLsn_bounded.mp hb,fun x hx => ?_⟩
    obtain ⟨c,hc,hct⟩ := commit_of_committedRecords hx
    exact ((commit_of_session hc hct).elim hnone).elim
  · rintro ⟨records,hrec,-,hall⟩
    by_cases hcommit : ∃ t, WalOp.commit t ∈ ops
    · right
      rw [or_iff_not_imp_right,Nat.not_le]
      intro hwrap
      rw [if_pos (hsync.mpr hcommit)] at hf
      have hf : w'.file = rs'.flatMap LogRecord.serialize ++ (frag ++ (sessionRecords
          (maxLsn rs' + 1) (fun _ => none) (syncedPrefix ops)).flatMap LogRecord.serialize) :=
        hf.trans (List.append_assoc ..)
      rw [hf] at hrec
      obtain ⟨xs,hx,rfl⟩ := (readAll_after hrs).mp hrec
      obtain ⟨t,ht⟩ := hcommit
      obtain ⟨c,hc,hct,i,hi,hlsn⟩ := session_of_commit (maxLsn rs' + 1) (fun _ => none) ht
      rcases List.mem_append.mp (hall c (committed_of_commit hc hct)) with hold | hnew
      · have hle : c.lsn.toNat ≤ (maxLsn rs').toNat := le_maxLsn hold
        have hval : c.lsn.toNat = (maxLsn rs').toNat + 1 + i := by
          rw [hlsn,UInt64.toNat_add,UInt64.toNat_add,UInt64.toNat_one,UInt64.toNat_ofNat',
            Nat.mod_eq_of_lt (show (maxLsn rs').toNat + 1 < 2 ^ 64 by omega),
            Nat.mod_eq_of_lt (show i < 2 ^ 64 by omega),Nat.mod_eq_of_lt (by omega)]
        omega
      · obtain ⟨x,n,hd⟩ := hx.head hnew
        exact (LogRecord.deserialize_ok_iff.mp hd).1
    · exact Or.inl fun t ht => hcommit ⟨t,ht⟩

-- One byte of a record with an empty payload, then a transaction that commits.
def tornStart : WalManager := opened [] (onFile [0x29] [])

def tornCommit : List WalOp := [.begin 1,.commit 1]

-- A session without a commit loses nothing, the one with a commit loses it.
theorem torn_tail_readable_commit :
    KeepsCommits (execAll [.begin 1,.pageWrite 1 0 [5] [6]] tornStart).2.file
        (execAll [.begin 1,.pageWrite 1 0 [5] [6]] tornStart).2.appended ∧
      ¬ KeepsCommits (execAll tornCommit tornStart).2.file
        (execAll tornCommit tornStart).2.appended := by
  have hrs : ∀ x ∈ ([] : List LogRecord), x.Fits := by simp
  have hr : (LogRecord.begin 0 1).Fits := by decide
  have hfrag : [0x29] ++ (LogRecord.begin 0 1).serialize.tail =
      (LogRecord.begin 0 1).serialize := by
    decide +kernel
  have hne : ([0x29] : Bytes) ≠ [] ∧ (LogRecord.begin 0 1).serialize.tail ≠ [] := by decide +kernel
  have hopen : open_ (onFile [0x29] []) = (.ok (),tornStart) := rfl
  refine ⟨(torn_tail_readable hrs hr hfrag hne hopen (by decide)
    (show execAll [.begin 1,.pageWrite 1 0 [5] [6]] tornStart = (.ok [some 1,some 2],_) from
      rfl)).1 (by simp),fun hk => ?_⟩
  rcases (torn_tail_readable hrs hr hfrag hne hopen (by decide)
    (show execAll tornCommit tornStart = (.ok [some 1,some 2],_) from rfl)).2 hk with h | h | h
  · exact absurd List.mem_cons_self (fun hm => h 1 (List.mem_cons_of_mem _ hm))
  · exact absurd h (by decide +kernel)
  · exact absurd h (by decide +kernel)

theorem torn_tail_swallows_commit :
    open_ (onFile ([0x29] : Bytes) []) = (.ok (),tornStart) ∧
      (execAll tornCommit tornStart).1 = .ok [some 1,some 2] ∧
      committedRecords (execAll tornCommit tornStart).2.appended =
        [⟨1,1,0,.begin,0,[]⟩,⟨2,1,1,.commit,0,[]⟩] ∧
      ∃ w'', open_ (onFile (execAll tornCommit tornStart).2.file []) = (.ok (),w'') ∧
        readAllRecords w'' = (.ok [],w'') ∧ recover w'' = (.ok ⟨[],[],∅,∅⟩,w'') :=
  ⟨rfl,rfl,by decide +kernel,_,rfl,rfl,rfl⟩

end WalManager

end StorageDb
