import Mathlib.Tactic
import StorageDb.Wal.PageLogging
import StorageDb.Wal.Reopen
import StorageDb.Engine.EngineCall

namespace StorageDb
open FrameLog

-- Log records with the number of the session that appended them.
abbrev TaggedLog := List (Nat × LogRecord)

-- Ids are begun once, and what a session logs for an id follows its own Begin.
def OwnId (pre : TaggedLog) (x : Nat × LogRecord) : Prop :=
  match x.2.recordType with
  | .begin => ∀ y ∈ pre, ¬ y.2.Begins x.2.txnId
  | .pageWrite => (∃ b, (x.1,b) ∈ pre ∧ b.Begins x.2.txnId) ∧ ∀ y ∈ pre, ¬ y.2.Ends x.2.txnId
  | .commit => ∃ b, (x.1,b) ∈ pre ∧ b.Begins x.2.txnId
  | .abort => ∃ b, (x.1,b) ∈ pre ∧ b.Begins x.2.txnId
  | _ => True

def OwnIds (log : TaggedLog) : Prop :=
  ∀ (i : Nat) (x : Nat × LogRecord), log[i]? = some x → OwnId (log.take i) x

-- Recovery judges every record by what its own transaction did in its own session.
structure ByOwnFate (log : TaggedLog) (actions : RecoveryActions) : Prop where
  redone : collectImages actions.committedTxns Prod.snd (log.map Prod.snd) = .ok actions.redo
  undone : collectImages actions.abortedTxns Prod.fst (log.map Prod.snd).reverse = .ok actions.undo
  redo : ∀ (i k : Nat) (r : LogRecord), log[i]? = some (k,r) → r.recordType = .pageWrite →
    r.txnId ∈ actions.committedTxns →
    ∃ (j : Nat) (c : LogRecord), i < j ∧ log[j]? = some (k,c) ∧ c.recordType = .commit ∧
      c.txnId = r.txnId
  once : ∀ x ∈ log, ¬ (x.2.recordType = .pageWrite ∧ x.2.txnId ∈ actions.committedTxns ∧
    x.2.txnId ∈ actions.abortedTxns)
  disjoint : Disjoint actions.committedTxns actions.abortedTxns

section tagged

variable {log : TaggedLog} {t : TxnId}

theorem OwnIds.take (h : OwnIds log) (n : Nat) : OwnIds (log.take n) := by
  intro i x hi
  rw [List.getElem?_take] at hi
  split_ifs at hi with hlt
  rw [List.take_take,Nat.min_eq_left hlt.le]
  exact h i x hi

theorem OwnIds.snoc (h : OwnIds log) {x : Nat × LogRecord} (hx : OwnId log x) :
    OwnIds (log ++ [x]) := by
  intro i y hi
  rw [List.getElem?_append] at hi
  split_ifs at hi with hlt
  · rw [List.take_append_of_le_length hlt.le]
    exact h i y hi
  · have hlen := (List.getElem?_eq_some_iff.mp hi).1
    have hi0 : i = log.length := by
      simp only [List.length_singleton] at hlen
      omega
    subst hi0
    rw [Nat.sub_self] at hi
    cases hi
    rw [List.take_append_of_le_length le_rfl,List.take_length]
    exact hx

theorem OwnIds.begins_unique (h : OwnIds log) {i j : Nat} {x y : Nat × LogRecord}
    (hi : log[i]? = some x) (hx : x.2.Begins t) (hj : log[j]? = some y) (hy : y.2.Begins t) :
    i = j := by
  have key {i j : Nat} {x y : Nat × LogRecord} (hi : log[i]? = some x) (hx : x.2.Begins t)
      (hj : log[j]? = some y) (hy : y.2.Begins t) : ¬ i < j := by
    intro hlt
    have hown := h j y hj
    rw [OwnId,hy.1] at hown
    exact hown x (List.mem_of_getElem? ((List.getElem?_take_of_lt hlt).trans hi))
      (by rw [hy.2]; exact hx)
  have h1 := key hi hx hj hy
  have h2 := key hj hy hi hx
  omega

theorem OwnIds.begun_of_commit (h : OwnIds log) {j : Nat} {k : Nat} {c : LogRecord}
    (hj : log[j]? = some (k,c)) (hc : c.recordType = .commit) :
    ∃ (i : Nat) (b : LogRecord), i < j ∧ log[i]? = some (k,b) ∧ b.Begins c.txnId := by
  have hown := h j (k,c) hj
  rw [OwnId] at hown
  dsimp only at hown
  rw [hc] at hown
  obtain ⟨b,hb,hbegin⟩ := hown
  obtain ⟨i,hi⟩ := List.getElem?_of_mem hb
  rw [List.getElem?_take] at hi
  split_ifs at hi with hlt
  exact ⟨i,b,hlt,hi,hbegin⟩

theorem begin_of_active {rs : List LogRecord} (h : t ∈ (analyse rs).active) :
    ∃ (p : Nat) (b : LogRecord), rs[p]? = some b ∧ b.Begins t ∧
      ∀ (j : Nat) (c : LogRecord), p < j → rs[j]? = some c → ¬ c.Ends t := by
  induction rs using List.reverseRecOn with
  | nil => simp [analyse] at h
  | append_singleton rs r ih =>
    rw [analyse_append,Analysis.mem_active_step] at h
    rcases h with hb | ⟨h,hr⟩
    · refine ⟨rs.length,r,by simp,hb,fun j c hlt hj => ?_⟩
      have := (List.getElem?_eq_some_iff.mp hj).1
      rw [List.length_append,List.length_singleton] at this
      omega
    · obtain ⟨p,b,hp,hb,hnone⟩ := ih h
      have hlt := (List.getElem?_eq_some_iff.mp hp).1
      refine ⟨p,b,by rw [List.getElem?_append_left hlt]; exact hp,hb,fun j c hpj hj => ?_⟩
      rw [List.getElem?_append] at hj
      split_ifs at hj with hjl
      · exact hnone j c hpj hj
      · rw [List.getElem?_singleton] at hj
        split_ifs at hj
        cases hj
        exact hr

theorem OwnIds.byOwnFate (h : OwnIds log) {actions : RecoveryActions}
    (ha : recoveryActions (log.map Prod.snd) = .ok actions) : ByOwnFate log actions := by
  obtain ⟨hcom,habo,hredo,hundo⟩ := recoveryActions_ok ha
  have hcommit (t : TxnId) (ht : t ∈ actions.committedTxns) :
      ∃ (j k : Nat) (c : LogRecord), log[j]? = some (k,c) ∧
      c.recordType = .commit ∧ c.txnId = t := by
    rw [hcom,mem_committed] at ht
    obtain ⟨c,hmem,hc,hid⟩ := ht
    obtain ⟨x,hx,rfl⟩ := List.mem_map.mp hmem
    obtain ⟨j,hj⟩ := List.mem_iff_getElem?.mp hx
    exact ⟨j,x.1,x.2,hj,hc,hid⟩
  have hdisj : Disjoint actions.committedTxns actions.abortedTxns := by
    refine Finset.disjoint_left.mpr fun t ht ht' => ?_
    obtain ⟨j,k,c,hj,hc,rfl⟩ := hcommit t ht
    obtain ⟨i,b,hij,hi,hb⟩ := h.begun_of_commit hj hc
    rw [habo] at ht'
    obtain ⟨p,b',hp,hb',hnone⟩ := begin_of_active ht'
    rw [List.getElem?_map,Option.map_eq_some_iff] at hp
    obtain ⟨y,hy,rfl⟩ := hp
    have hpi := h.begins_unique hy hb' hi hb
    refine hnone j c (by omega) ?_ ⟨Or.inl hc,rfl⟩
    rw [List.getElem?_map,hj]
    rfl
  refine ⟨hcom ▸ hredo,habo ▸ hundo,fun i k r hi hr ht => ?_,?_,hdisj⟩
  · obtain ⟨j,k',c,hj,hc,hid⟩ := hcommit _ ht
    have hown := h i (k,r) hi
    rw [OwnId] at hown
    dsimp only at hown
    rw [hr] at hown
    obtain ⟨⟨b,hb,hbegin⟩,hends⟩ := hown
    obtain ⟨p,hp⟩ := List.getElem?_of_mem hb
    rw [List.getElem?_take] at hp
    split_ifs at hp
    obtain ⟨q,b',hqj,hq,hbegin'⟩ := h.begun_of_commit hj hc
    rw [hid] at hbegin'
    have hpq := h.begins_unique hp hbegin hq hbegin'
    rw [hpq,hq] at hp
    have hk : k' = k := congrArg Prod.fst (Option.some.inj hp)
    refine ⟨j,c,?_,hk ▸ hj,hc,hid⟩
    rcases Nat.lt_trichotomy i j with hlt | heq | hgt
    · exact hlt
    · rw [heq,hj] at hi
      cases hi
      rw [hc] at hr
      cases hr
    · exact absurd ⟨Or.inl hc,hid⟩ (hends (k',c)
        (List.mem_of_getElem? ((List.getElem?_take_of_lt hgt).trans hj)))
  · rintro x - ⟨-,h1,h2⟩
    exact Finset.disjoint_left.mp hdisj h1 h2

end tagged

-- past is what the log still holds of earlier sessions. A panic ends the session.
structure Sessions where
  engine : StorageEngine
  alive : Bool
  past : TaggedLog
  session : Nat

-- A reopen finds any data file and a log cut at n, which keeps at least what was synced.
inductive SessionStep where
  | call (c : EngineCall)
  | reopen (data : Bytes) (n capacity : Nat) (diskFaults walFaults : List (Option Nat))

def recordCount (file : Bytes) : Nat :=
  match readAll LogRecord.deserialize file with
  | .ok rs => rs.length
  | .error _ => 0

namespace Sessions
open StorageEngine

def log (s : Sessions) : TaggedLog := s.past ++ s.engine.wal.appended.map (Prod.mk s.session)

def left (s : Sessions) (n : Nat) : Bytes :=
  s.engine.wal.file.take (max s.engine.wal.synced (min n s.engine.wal.file.length))

def step (fuel : Nat) (s : Sessions) : SessionStep → Option Sessions
  | .call c =>
    if s.alive then
      some { s with
        engine := (c.exec fuel s.engine).2
        alive := decide (Lives (c.exec fuel s.engine).1) }
    else none
  | .reopen data n capacity diskFaults walFaults =>
    match open_ (mount ⟨data,s.left n⟩ capacity diskFaults walFaults) with
    | (.ok _,e) => some
        { engine := e
          alive := true
          past := if e.wal.file = [] then [] else s.log.take (recordCount (s.left n))
          session := s.session + 1 }
    | (.error _,_) => none

def run (fuel : Nat) : List SessionStep → Sessions → Option Sessions
  | [],s => some s
  | st :: sts,s => (s.step fuel st).bind (run fuel sts)

-- The id that begin hands out has no Begin in the log, writes name running transactions, payloads
-- have 32-bit lengths and a reopened log ends at the end of a record.
def Distinct (s : Sessions) : SessionStep → Prop
  | .call .begin => ∀ x ∈ s.log, ¬ x.2.Begins s.engine.txnManager.nextTxnId
  | .call (.txnPut t k v) => s.engine.txnManager.stateOf t = some .active ∧
      (WalOp.pageWrite t 0 k v).PayloadFits
  | .call (.txnDelete t k) => s.engine.txnManager.stateOf t = some .active ∧
      (WalOp.pageWrite t 0 k (List.replicate pageSize 0)).PayloadFits
  | .call .checkpoint => (WalOp.checkpoint s.engine.txnManager.activeTransactionIds).PayloadFits
  | .reopen _ n _ _ _ =>
      ∃ rs : List LogRecord, (∀ r ∈ rs, r.Fits) ∧ s.left n = rs.flatMap LogRecord.serialize
  | _ => True

def DistinctRun (fuel : Nat) : List SessionStep → Sessions → Prop
  | [],_ => True
  | st :: sts,s => s.Distinct st ∧ ∀ s', s.step fuel st = some s' → DistinctRun fuel sts s'

def base (s : Sessions) : Bytes := (s.past.map Prod.snd).flatMap LogRecord.serialize

structure Owned (s : Sessions) : Prop where
  fits : ∀ x ∈ s.past, x.2.Fits
  durable : ∃ lsn, s.engine.wal.Durable s.base lsn 0
  logged : s.alive = true → ∃ lsn, s.engine.wal.Logged s.base lsn 0
  own : OwnIds s.log
  begun : s.alive = true → ∀ t, s.engine.txnManager.stateOf t ≠ none →
    ∃ b, (s.session,b) ∈ s.log ∧ b.Begins t
  running : s.alive = true → ∀ t, s.engine.txnManager.stateOf t = some .active →
    ∀ x ∈ s.log, ¬ x.2.Ends t

variable {fuel : Nat} {s s' : Sessions}

theorem Owned.left_records (h : s.Owned) (n : Nat) :
    ∃ m, readAll LogRecord.deserialize (s.left n) = .ok ((s.log.take m).map Prod.snd) := by
  obtain ⟨lsn,hd⟩ := h.durable
  have hmap : s.log.map Prod.snd = s.past.map Prod.snd ++ s.engine.wal.appended := by
    rw [log,List.map_append,List.map_map]
    congr 1
    exact List.map_id _
  have hall : ∀ r ∈ s.log.map Prod.snd, r.Fits := by
    intro r hr
    rw [hmap] at hr
    rcases List.mem_append.mp hr with hr | hr
    · obtain ⟨x,hx,rfl⟩ := List.mem_map.mp hr
      exact h.fits x hx
    · exact hd.fits r hr
  set cut := max s.engine.wal.synced (min n s.engine.wal.file.length) with hcut
  have hle : cut ≤ s.engine.wal.file.length := by
    have := hd.synced
    omega
  have hfile : s.left n = ((s.log.map Prod.snd).flatMap LogRecord.serialize).take cut := by
    have htake := congrArg (List.take cut) hd.file
    rw [List.take_take,Nat.min_eq_left hle] at htake
    rw [hmap,List.flatMap_append]
    exact htake
  obtain ⟨m,-,hread,-⟩ := LogRecord.framing.readAll_take hall cut
  exact ⟨m,by rw [hfile,hread,List.map_take]⟩

theorem Distinct.fits {c : EngineCall} (h : s.Distinct (.call c)) {op : WalOp}
    (ho : c.MayLog s.engine.txnManager (some op)) : op.PayloadFits := by
  have hsmall : recordHeaderSize + 0 < 2 ^ 32 := by decide
  cases c with
  | begin => cases ho; exact hsmall
  | txnPut t k v => cases ho; exact h.2
  | txnDelete t k =>
    rcases ho with ho | ⟨v,ho,hv⟩
    · cases ho
    · cases ho
      have hfits := h.2
      simp only [WalOp.PayloadFits,WalOp.payload,List.length_replicate] at hfits ⊢
      omega
  | commit t =>
    have ho : some op = (TxnCall.commit t).walOp _ := ho
    rw [TxnCall.walOp] at ho
    split_ifs at ho
    cases ho
    exact hsmall
  | abort t =>
    have ho : some op = (TxnCall.abort t).walOp _ := ho
    rw [TxnCall.walOp] at ho
    split_ifs at ho
    cases ho
    exact hsmall
  | checkpoint => cases ho; exact h
  | sync => cases ho; exact hsmall
  | put k v => cases ho
  | get k => cases ho
  | delete k => cases ho
  | scanAll => cases ho
  | rangeScan a b => cases ho
  | txnGet t k => cases ho

structure Added (s : Sessions) (c : EngineCall) (r : Except (Fault Error) EngineReply)
    (e' : StorageEngine) (o : Option WalOp) (added : List LogRecord) : Prop where
  mayLog : c.MayLog s.engine.txnManager o
  appended : e'.wal.appended = s.engine.wal.appended ++ added
  records : added = (o.bind (WalOp.entry s.engine.wal.nextLsn s.engine.wal.txnLastLsn)).toList ∨
    added = [] ∧ ¬ Lives r
  durable : ∃ lsn, e'.wal.Durable s.base lsn 0
  logged : Lives r → ∃ lsn, e'.wal.Logged s.base lsn 0

theorem Owned.added (h : s.Owned) (ha : s.alive = true) {c : EngineCall}
    (hc : s.Distinct (.call c)) {r : Except (Fault Error) EngineReply} {e' : StorageEngine}
    (he : c.Effect s.engine r e') : ∃ o added, s.Added c r e' o added := by
  obtain ⟨lsn,hl⟩ := h.logged ha
  obtain ⟨o,hm,hw,hf⟩ := he.log
  cases o with
  | none =>
    have hw : e'.wal = s.engine.wal := hw
    exact ⟨none,[],hm,by rw [hw,List.append_nil],Or.inl rfl,⟨lsn,hw ▸ hl.toDurable⟩,
      fun _ => ⟨lsn,hw ▸ hl⟩⟩
  | some op =>
    have hw : e'.wal = (op.exec s.engine.wal).2 := hw
    have hx := hl.exec_spec (hc.fits hm)
    rcases hrun : op.exec s.engine.wal with ⟨x,w⟩
    have hx := hx.of_eq hrun
    rw [hrun] at hw
    subst hw
    cases x with
    | ok l =>
      obtain ⟨-,h1,h2⟩ := hx
      exact ⟨some op,_,hm,h2.entry,Or.inl rfl,⟨lsn,h1.toDurable⟩,fun _ => ⟨lsn,h1⟩⟩
    | error f =>
      have hr := hf op rfl f (by rw [hrun])
      have hlogged : Lives r → ∃ lsn, e'.wal.Logged s.base lsn 0 := by
        intro hl
        refine ⟨lsn,hx.logged ?_⟩
        rintro rfl
        exact hl.1 hr
      rcases hx.grown with hg | hg
      · have hadds := (WalManager.exec_adds op s.engine.wal).of_eq hrun
        rcases hadds with hadds | ⟨hp,-⟩
        · exact ⟨some op,_,hm,hadds,Or.inl rfl,⟨lsn,hx.durable⟩,hlogged⟩
        · cases hp
          exact ⟨some op,[],hm,by rw [hg,List.append_nil],Or.inr ⟨rfl,fun hl => hl.1 hr⟩,
            ⟨lsn,hx.durable⟩,hlogged⟩
      · exact ⟨some op,_,hm,hg,Or.inl rfl,⟨lsn,hx.durable⟩,hlogged⟩

theorem Owned.ownId (h : s.Owned) (ha : s.alive = true) {c : EngineCall} (hc : s.Distinct (.call c))
    {op : WalOp} (hm : c.MayLog s.engine.txnManager (some op)) {x : LogRecord}
    (hx : op.entry s.engine.wal.nextLsn s.engine.wal.txnLastLsn = some x) :
    OwnId s.log (s.session,x) := by
  have hwrite {t : TxnId} {k v : Bytes} (hst : s.engine.txnManager.stateOf t = some .active)
      (hop : op = .pageWrite t 0 k v) : OwnId s.log (s.session,x) := by
    subst hop
    cases hx
    exact ⟨h.begun ha t (by rw [hst]; simp),h.running ha t hst⟩
  cases c with
  | begin => cases hm; cases hx; exact hc
  | txnPut t k v => exact hwrite hc.1 (Option.some.inj hm)
  | txnDelete t k =>
    rcases hm with hm | ⟨v,hm,-⟩
    · cases hm
    · exact hwrite hc.1 (Option.some.inj hm)
  | commit t =>
    have hm : some op = (TxnCall.commit t).walOp _ := hm
    rw [TxnCall.walOp] at hm
    split_ifs at hm with hst
    cases hm
    cases hx
    exact h.begun ha t (by rw [hst]; simp)
  | abort t =>
    have hm : some op = (TxnCall.abort t).walOp _ := hm
    rw [TxnCall.walOp] at hm
    split_ifs at hm with hst
    cases hm
    cases hx
    exact h.begun ha t fun hnone => by rw [hnone] at hst; cases hst
  | checkpoint => cases hm; cases hx; exact trivial
  | sync => cases hm; cases hx
  | put k v => cases hm
  | get k => cases hm
  | delete k => cases hm
  | scanAll => cases hm
  | rangeScan a b => cases hm
  | txnGet t k => cases hm

section ended

variable {f : TxnId → Option TransactionState} {u t : TxnId} {x : Option TransactionState}
  {C : Prop}
  [Decidable C]

theorem known_of_ended (hC : C → f u ≠ none)
    (h : (if C then Function.update f u x else f) t ≠ none) :
    f t ≠ none := by
  by_cases hc : C
  · rw [if_pos hc] at h
    by_cases htu : t = u
    · rw [htu]
      exact hC hc
    · rwa [Function.update_of_ne htu] at h
  · rwa [if_neg hc] at h

theorem running_of_ended (hx : x ≠ some .active) (hC : ¬ C → f u ≠ some .active)
    (h : (if C then Function.update f u x else f) t = some .active) :
    f t = some .active ∧ t ≠ u := by
  by_cases hc : C
  · rw [if_pos hc] at h
    by_cases htu : t = u
    · rw [htu,Function.update_self] at h
      exact absurd h hx
    · rw [Function.update_of_ne htu] at h
      exact ⟨h,htu⟩
  · rw [if_neg hc] at h
    exact ⟨h,fun htu => hC hc (htu ▸ h)⟩

end ended

theorem states_known {c : EngineCall} {m : TransactionManager} {ok : Bool} {t : TxnId}
    (h : c.states m ok t ≠ none) : m.stateOf t ≠ none ∨ c = .begin ∧ t = m.nextTxnId := by
  cases c with
  | begin =>
    by_cases ht : t = m.nextTxnId
    · exact Or.inr ⟨rfl,ht⟩
    · exact Or.inl ((Function.update_of_ne ht _ m.stateOf) ▸ h)
  | commit u =>
    exact Or.inl (known_of_ended (C := m.stateOf u = some .active) (fun hst => by rw [hst]; simp) h)
  | abort u =>
    exact Or.inl (known_of_ended (C := (m.stateOf u).isSome)
      (fun hst hnone => by rw [hnone] at hst; cases hst) h)
  | _ => exact Or.inl h

theorem states_running {c : EngineCall} {m : TransactionManager} {ok : Bool} {t : TxnId}
    (h : c.states m ok t = some .active) :
    (m.stateOf t = some .active ∧ c ≠ .commit t ∧ c ≠ .abort t) ∨ c = .begin ∧ t = m.nextTxnId := by
  cases c with
  | begin =>
    by_cases ht : t = m.nextTxnId
    · exact Or.inr ⟨rfl,ht⟩
    · exact Or.inl ⟨(Function.update_of_ne ht _ m.stateOf) ▸ h,by simp,by simp⟩
  | commit u =>
    obtain ⟨h1,h2⟩ := running_of_ended (C := m.stateOf u = some .active)
      (by cases ok <;> simp) (fun hn => hn) h
    exact Or.inl ⟨h1,fun he => h2 (by cases he; rfl),by simp⟩
  | abort u =>
    obtain ⟨h1,h2⟩ := running_of_ended (C := (m.stateOf u).isSome)
      (by cases ok <;> simp) (fun hn ha => by rw [ha] at hn; exact hn rfl) h
    exact Or.inl ⟨h1,by simp,fun he => h2 (by cases he; rfl)⟩
  | _ => exact Or.inl ⟨h,by simp,by simp⟩

theorem ends_of_entry {c : EngineCall} {m : TransactionManager} {op : WalOp}
    (hm : c.MayLog m (some op)) {next : Lsn} {last : TxnId → Option Lsn} {x : LogRecord}
    (hx : op.entry next last = some x) {t : TxnId} (he : x.Ends t) :
    c = .commit t ∨ c = .abort t := by
  obtain ⟨hty,rfl⟩ := he
  have hop : op = .commit x.txnId ∨ op = .abort x.txnId := by
    cases op with
    | commit u => cases hx; exact Or.inl rfl
    | abort u => cases hx; exact Or.inr rfl
    | flush => cases hx
    | begin u => cases hx; rcases hty with h | h <;> cases h
    | pageWrite u p b a => cases hx; rcases hty with h | h <;> cases h
    | checkpoint ts => cases hx; rcases hty with h | h <;> cases h
  cases c with
  | begin =>
    cases hm
    rcases hop with h | h <;> cases h
  | commit u =>
    have hm : some op = (TxnCall.commit u).walOp _ := hm
    rw [TxnCall.walOp] at hm
    split_ifs at hm
    cases hm
    rcases hop with h | h
    · exact Or.inl (by cases h; rfl)
    · cases h
  | abort u =>
    have hm : some op = (TxnCall.abort u).walOp _ := hm
    rw [TxnCall.walOp] at hm
    split_ifs at hm
    cases hm
    rcases hop with h | h
    · cases h
    · exact Or.inr (by cases h; rfl)
  | txnPut u k v =>
    cases hm
    rcases hop with h | h <;> cases h
  | txnDelete u k =>
    rcases hm with hm | ⟨v,hm,-⟩ <;> cases hm
    rcases hop with h | h <;> cases h
  | checkpoint =>
    cases hm
    rcases hop with h | h <;> cases h
  | sync => cases hm; cases hx
  | put k v => cases hm
  | get k => cases hm
  | delete k => cases hm
  | scanAll => cases hm
  | rangeScan a b => cases hm
  | txnGet u k => cases hm

theorem not_ends_own {log : TaggedLog} (h : OwnIds log) {t : TxnId}
    (hb : ∀ x ∈ log, ¬ x.2.Begins t) : ∀ x ∈ log, ¬ x.2.Ends t := by
  rintro x hx ⟨hty,rfl⟩
  obtain ⟨i,hi⟩ := List.mem_iff_getElem?.mp hx
  have hown := h i x hi
  rw [OwnId] at hown
  have hex : ∃ b, (x.1,b) ∈ log.take i ∧ b.Begins x.2.txnId := by
    rcases hty with hty | hty <;> rw [hty] at hown <;> exact hown
  obtain ⟨b,hmem,hbegin⟩ := hex
  exact hb _ (List.mem_of_mem_take hmem) hbegin

theorem Owned.call (h : s.Owned) (ha : s.alive = true) {c : EngineCall}
    (hc : s.Distinct (.call c)) {r : Except (Fault Error) EngineReply} {e' : StorageEngine}
    (he : c.Effect s.engine r e') :
    Owned { s with engine := e', alive := decide (Lives r) } := by
  obtain ⟨o,added,hadd⟩ := h.added ha hc he
  have hlog : log { s with engine := e', alive := decide (Lives r) } =
      s.log ++ added.map (Prod.mk s.session) := by
    rw [log,hadd.appended,List.map_append,← List.append_assoc]
    rfl
  have hx : ∀ x ∈ added, ∃ op, c.MayLog s.engine.txnManager (some op) ∧
      op.entry s.engine.wal.nextLsn s.engine.wal.txnLastLsn = some x := by
    intro x hx
    rcases hadd.records with hrec | ⟨hrec,-⟩
    · rw [hrec,Option.mem_toList] at hx
      obtain ⟨op,rfl,hop⟩ := Option.bind_eq_some_iff.mp hx
      exact ⟨op,hadd.mayLog,hop⟩
    · rw [hrec] at hx
      cases hx
  have hown : OwnIds (s.log ++ added.map (Prod.mk s.session)) := by
    have hsingle : added = [] ∨ ∃ x, added = [x] := by
      rcases hadd.records with hrec | ⟨hrec,-⟩
      · rw [hrec]
        cases o.bind (WalOp.entry s.engine.wal.nextLsn s.engine.wal.txnLastLsn) with
        | none => exact Or.inl rfl
        | some x => exact Or.inr ⟨x,rfl⟩
      · exact Or.inl hrec
    rcases hsingle with hnil | ⟨x,hone⟩
    · rw [hnil,List.map_nil,List.append_nil]
      exact h.own
    · obtain ⟨op,hm,hop⟩ := hx x (by rw [hone]; exact List.mem_singleton_self x)
      rw [hone]
      exact h.own.snoc (h.ownId ha hc hm hop)
  refine ⟨h.fits,hadd.durable,fun hl => hadd.logged (of_decide_eq_true hl),hlog ▸ hown,?_,?_⟩
  · intro hl t ht
    rw [hlog]
    change e'.txnManager.stateOf t ≠ none at ht
    rw [he.states] at ht
    rcases states_known ht with hold | ⟨rfl,rfl⟩
    · obtain ⟨b,hb,hbegin⟩ := h.begun ha t hold
      exact ⟨b,List.mem_append_left _ hb,hbegin⟩
    · have hl := of_decide_eq_true hl
      rcases hadd.records with hrec | ⟨-,hdead⟩
      · have ho : o = some (.begin s.engine.txnManager.nextTxnId) := hadd.mayLog
        rw [ho] at hrec
        refine ⟨_,List.mem_append_right _ (List.mem_map_of_mem
          (by rw [hrec]; exact List.mem_cons_self)),?_⟩
        exact ⟨rfl,rfl⟩
      · exact absurd hl hdead
  · intro hl t ht x hmem
    rw [hlog] at hmem
    change e'.txnManager.stateOf t = some .active at ht
    rw [he.states] at ht
    have hstate := states_running ht
    rcases List.mem_append.mp hmem with hmem | hmem
    · rcases hstate with ⟨hold,-⟩ | ⟨rfl,rfl⟩
      · exact h.running ha t hold x hmem
      · exact not_ends_own h.own hc x hmem
    · obtain ⟨y,hy,rfl⟩ := List.mem_map.mp hmem
      obtain ⟨op,hm,hop⟩ := hx y hy
      intro hends
      rcases ends_of_entry hm hop hends with hcc | hcc
      · rcases hstate with ⟨-,hne,-⟩ | ⟨hb,-⟩
        · exact hne hcc
        · rw [hcc] at hb
          cases hb
      · rcases hstate with ⟨-,-,hne⟩ | ⟨hb,-⟩
        · exact hne hcc
        · rw [hcc] at hb
          cases hb

theorem ownIds_nil : OwnIds [] := fun i x hi => by cases hi

theorem Owned.reopen (h : s.Owned) {data : Bytes} {n capacity : Nat}
    {diskFaults walFaults : List (Option Nat)}
    (hc : s.Distinct (.reopen data n capacity diskFaults walFaults)) {e : StorageEngine}
    (he : open_ (mount ⟨data,s.left n⟩ capacity diskFaults walFaults) = (.ok (),e)) :
    Owned ⟨e,true,if e.wal.file = [] then [] else s.log.take (recordCount (s.left n)),
      s.session + 1⟩ := by
  obtain ⟨rs,hfits,hleft⟩ := hc
  obtain ⟨m,hm⟩ := h.left_records n
  have hread := LogRecord.framing.readAll_frames hfits
  rw [← hleft,hm] at hread
  have hrs : (s.log.take m).map Prod.snd = rs := Except.ok.inj hread
  have hcount : s.log.take (recordCount (s.left n)) = s.log.take m := by
    rw [recordCount,hm]
    simp
  rw [hcount]
  obtain ⟨happ,htxn⟩ := (open_appended _ _ _ _).of_eq he
  obtain ⟨rs',fs,-,hwal⟩ := (open_wal _ _ _ _).of_eq he rfl
  set past : TaggedLog := if e.wal.file = [] then [] else s.log.take m with hp
  have hown : past = [] ∨ past = s.log.take m := by
    rw [hp]
    split_ifs
    · exact Or.inl rfl
    · exact Or.inr rfl
  have hlogged : ∃ lsn, e.wal.Logged (base ⟨e,true,past,s.session + 1⟩) lsn 0 := by
    rcases hwal with hwal | hwal
    · have hbase : base ⟨e,true,past,s.session + 1⟩ = s.left n := by
        have hfile : e.wal.file = s.left n := by
          rw [hwal]
          rfl
        rw [base,hp,hfile]
        split_ifs with hnil
        · exact hnil.symm
        · rw [hrs,hleft]
      rw [hbase,hwal]
      exact ⟨_,WalManager.Logged.opened _ _ _⟩
    · have hbase : base ⟨e,true,past,s.session + 1⟩ = [] := by
        have hfile : e.wal.file = [] := by
          rw [hwal]
          rfl
        rw [base,hp,if_pos hfile]
        rfl
      rw [hbase,hwal]
      exact ⟨_,WalManager.Logged.truncated _ _⟩
  have hlog : log ⟨e,true,past,s.session + 1⟩ = past := by
    rw [log,happ,List.map_nil,List.append_nil]
  have hmem : ∀ x ∈ past, x.2.Fits := by
    intro x hx
    rcases hown with hnil | htake
    · rw [hnil] at hx
      cases hx
    · refine hfits _ ?_
      rw [← hrs,← htake]
      exact List.mem_map_of_mem hx
  refine ⟨hmem,hlogged.imp fun _ hl => hl.toDurable,fun _ => hlogged,?_,?_,?_⟩
  · rw [hlog]
    rcases hown with hnil | htake
    · rw [hnil]
      exact ownIds_nil
    · rw [htake]
      exact h.own.take m
  · intro _ t ht
    exact absurd (congrArg (TransactionManager.stateOf · t) htxn) ht
  · intro _ t ht
    have hnone : e.txnManager.stateOf t = none := congrArg (TransactionManager.stateOf · t) htxn
    rw [hnone] at ht
    cases ht

theorem Owned.step (h : s.Owned) {st : SessionStep} (hd : s.Distinct st)
    (hs : s.step fuel st = some s') : s'.Owned := by
  cases st with
  | call c =>
    rw [Sessions.step] at hs
    split_ifs at hs with ha
    cases hs
    exact h.call ha hd (c.exec_effect fuel s.engine)
  | reopen data n capacity diskFaults walFaults =>
    rw [Sessions.step] at hs
    split at hs
    · rename_i e he
      cases hs
      exact h.reopen hd he
    · cases hs

theorem Owned.run {sts : List SessionStep} (h : s.Owned) (hd : s.DistinctRun fuel sts)
    (hs : s.run fuel sts = some s') : s'.Owned := by
  induction sts generalizing s with
  | nil =>
    cases hs
    exact h
  | cons st sts ih =>
    obtain ⟨s₁,h1,h2⟩ := Option.bind_eq_some_iff.mp hs
    exact ih (h.step hd.1 h1) (hd.2 s₁ h1) h2

def start : Sessions := ⟨mount ⟨[],[]⟩ 0 [] [],false,[],0⟩

theorem owned_start : start.Owned where
  fits x hx := by cases hx
  durable := ⟨0,{
    fits := fun r hr => by cases hr
    file := rfl
    kept := le_rfl
    synced := le_rfl
    lsns := fun i r hi => by cases hi
    bound := by decide
    acked_le := le_rfl
    flushed := le_rfl }⟩
  logged h := by cases h
  own := ownIds_nil
  begun h := by cases h
  running h := by cases h

theorem recover_by_own_fate {sts : List SessionStep} (hd : start.DistinctRun fuel sts)
    (hs : start.run fuel sts = some s) (n : Nat) {faults : List (Option Nat)} {w w' : WalManager}
    {actions : RecoveryActions}
    (ho : WalManager.open_ (.onFile (s.left n) faults) = (.ok (),w))
    (hr : WalManager.recover w = (.ok actions,w')) :
    ∃ m, readAll LogRecord.deserialize (s.left n) = .ok ((s.log.take m).map Prod.snd) ∧
      ByOwnFate (s.log.take m) actions := by
  have hown := owned_start.run hd hs
  obtain ⟨m,hm⟩ := hown.left_records n
  refine ⟨m,hm,(hown.own.take m).byOwnFate ?_⟩
  obtain ⟨rs,fs,-,-,rfl⟩ := (WalManager.open_spec _ _).of_eq ho rfl
  obtain ⟨rs',hread,hact⟩ := (WalManager.recover_spec _).of_eq hr actions rfl
  have hfile : readAll LogRecord.deserialize (s.left n) = .ok rs' := hread
  rw [hm] at hfile
  rwa [Except.ok.inj hfile]

theorem distinctRun_cons {st : SessionStep} {sts : List SessionStep} (h1 : s.Distinct st)
    (h2 : DistinctRun fuel sts ((s.step fuel st).getD s)) : s.DistinctRun fuel (st :: sts) := by
  refine ⟨h1,fun s' hs => ?_⟩
  rw [hs] at h2
  exact h2

def committedSession : List SessionStep :=
  [.reopen [] 0 4 [] [],.call .begin,.call (.txnPut 1 [1] [2]),.call (.commit 1)]

theorem run_getD (s : Sessions) (fuel : Nat) (sts : List SessionStep)
    (h : (s.run fuel sts).isSome) :
    s.run fuel sts = some ((s.run fuel sts).getD s) := by
  obtain ⟨s',hs⟩ := Option.isSome_iff_exists.mp h
  rw [hs]
  rfl

-- The crash leaves the log and no data. Recovery truncates the log, so that id 1 may come back; the
-- second session commits it and leaves transaction 2 in flight.
def twoSessions : List SessionStep := committedSession ++
  [.reopen [] 0 4 [] [],.call .begin,.call (.txnPut 1 [3] [4]),.call (.commit 1),
    .call .begin,.call (.txnPut 2 [5] [6]),.call .sync]

theorem twoSessions_distinct : start.DistinctRun 1 twoSessions := by
  refine distinctRun_cons ⟨[],by simp,rfl⟩ (distinctRun_cons ?_ (distinctRun_cons ⟨?_,?_⟩
    (distinctRun_cons trivial (distinctRun_cons ?_ (distinctRun_cons ?_ (distinctRun_cons ⟨?_,?_⟩
      (distinctRun_cons trivial (distinctRun_cons ?_ (distinctRun_cons ⟨?_,?_⟩
        (distinctRun_cons trivial trivial))))))))))
  · change ∀ x ∈ _, _
    decide +kernel
  · decide +kernel
  · decide +kernel
  · refine ⟨[⟨1,1,0,.begin,0,[]⟩,⟨2,1,1,.pageWrite,0,[1,0,0,0,1,2]⟩,⟨3,1,2,.commit,0,[]⟩],
      by decide,?_⟩
    decide +kernel
  · change ∀ x ∈ _, _
    decide +kernel
  · decide +kernel
  · decide +kernel
  · change ∀ x ∈ _, _
    decide +kernel
  · decide +kernel
  · decide +kernel

theorem recover_by_own_fate_reopened : ∃ (s : Sessions) (w w' : WalManager)
    (actions : RecoveryActions), start.run 1 twoSessions = some s ∧
    WalManager.open_ (.onFile (s.left 0) []) = (.ok (),w) ∧
    WalManager.recover w = (.ok actions,w') ∧ actions.redo = [(0,[4])] ∧
    actions.undo = [(0,[5])] ∧
    ∃ m, readAll LogRecord.deserialize (s.left 0) = .ok ((s.log.take m).map Prod.snd) ∧
      ByOwnFate (s.log.take m) actions := by
  have hs := run_getD start 1 twoSessions (by decide +kernel)
  have ho := Prog.run_eq (m := WalManager.open_) (r := .ok ())
    (s := .onFile (((start.run 1 twoSessions).getD start).left 0) []) (by decide +kernel)
  obtain ⟨actions,ha⟩ := Prog.run_isOk (m := WalManager.recover) (s := (WalManager.open_
    (.onFile (((start.run 1 twoSessions).getD start).left 0) [])).2) (by decide +kernel)
  have himages : (WalManager.recover (WalManager.open_
      (.onFile (((start.run 1 twoSessions).getD start).left 0) [])).2).1.map
      (fun a => (a.redo,a.undo)) = .ok ([(0,[4])],[(0,[5])]) := by decide +kernel
  rw [ha] at himages
  obtain ⟨hredo,hundo⟩ := Prod.mk.inj (Except.ok.inj himages)
  exact ⟨_,_,_,actions,hs,ho,ha,hredo,hundo,recover_by_own_fate twoSessions_distinct hs 0 ho ha⟩

def abortedSession : List SessionStep :=
  [.reopen [] 0 4 [] [],.call .begin,.call (.txnPut 1 [1] [2]),.call (.abort 1),.call .sync]

-- The second session commits a transaction that wrote nothing; its id is 1 again.
def reusedId : List SessionStep := abortedSession ++
  [.reopen ((start.run 1 abortedSession).getD start).engine.pool.disk.file 0 4 [] [],
    .call .begin,.call (.commit 1)]

theorem aborted_write_redone : ∃ (s : Sessions) (w w' : WalManager) (actions : RecoveryActions),
    start.run 1 reusedId = some s ∧ WalManager.open_ (.onFile (s.left 0) []) = (.ok (),w) ∧
    WalManager.recover w = (.ok actions,w') ∧
    readAll LogRecord.deserialize (s.left 0) = .ok (s.log.map Prod.snd) ∧
    actions.redo = [(0,[2])] ∧ ¬ ByOwnFate s.log actions := by
  have hs := run_getD start 1 reusedId (by decide +kernel)
  have ho := Prog.run_eq (m := WalManager.open_) (r := .ok ())
    (s := .onFile (((start.run 1 reusedId).getD start).left 0) []) (by decide +kernel)
  obtain ⟨actions,ha⟩ := Prog.run_isOk (m := WalManager.recover) (s := (WalManager.open_
    (.onFile (((start.run 1 reusedId).getD start).left 0) [])).2) (by decide +kernel)
  have hredo : (WalManager.recover (WalManager.open_
      (.onFile (((start.run 1 reusedId).getD start).left 0) [])).2).1.map
      (fun a => (a.redo,decide (1 ∈ a.committedTxns))) = .ok ([(0,[2])],true) := by decide +kernel
  rw [ha] at hredo
  have hredo := Except.ok.inj hredo
  refine ⟨_,_,_,actions,hs,ho,ha,by decide +kernel,congrArg Prod.fst hredo,fun hfate => ?_⟩
  have hlog : ((start.run 1 reusedId).getD start).log.map
      (fun x => (x.1,x.2.recordType,x.2.txnId)) = [(1,.begin,1),(1,.pageWrite,1),(1,.abort,1),
        (2,.begin,1),(2,.commit,1)] := by decide +kernel
  generalize ((start.run 1 reusedId).getD start).log = log at hfate hlog
  have hwrite := congrArg (fun l => l[1]?) hlog
  rw [List.getElem?_map] at hwrite
  obtain ⟨⟨k,r⟩,hx,hr⟩ := Option.map_eq_some_iff.mp hwrite
  simp only [Prod.mk.injEq] at hr
  obtain ⟨rfl,hty,hid⟩ := hr
  obtain ⟨j,c,-,hj,hc,-⟩ := hfate.redo 1 1 r hx hty
    (hid ▸ of_decide_eq_true (congrArg Prod.snd hredo))
  have hmem := List.mem_map_of_mem (f := fun x : Nat × LogRecord => (x.1,x.2.recordType,x.2.txnId))
    (List.mem_of_getElem? hj)
  rw [hlog,hc] at hmem
  simp at hmem

end Sessions

end StorageDb
