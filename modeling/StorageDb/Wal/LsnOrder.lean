import Mathlib.Tactic
import StorageDb.Wal.Reopen

namespace StorageDb
open Bytes FrameLog

-- start is where the session's records begin in the file. durable collects the LSNs of the records
-- that a successful flush covered or that were whole in a file found at an open.
structure LogState where
  wal : WalManager
  start : Nat
  durable : List Lsn

inductive LogStep where
  | call (op : WalOp)
  | truncate
  | reopen (n : Nat) (faults : List (Option Nat))

def wholeWithin (n : Nat) : Nat → List LogRecord → List LogRecord
  | _, [] => []
  | start, r :: rs =>
    if start + r.serialize.length ≤ n then
      r :: wholeWithin n (start + r.serialize.length) rs
    else []

namespace LogState

-- A crash keeps at least what was synced; a clean exit keeps the whole file.
def cut (s : LogState) (n : Nat) : Nat := max s.wal.synced (min n s.wal.file.length)

def left (s : LogState) (n : Nat) : Bytes := s.wal.file.take (s.cut n)

def step (s : LogState) : LogStep → Option LogState
  | .call op =>
    match op.exec s.wal with
    | (.ok _,w) =>
      some { s with
        wal := w
        durable := if op.syncs then s.durable ++ w.appended.map LogRecord.lsn else s.durable }
    | (.error (.err _),w) => some { s with wal := w }
    | (.error _,_) => none
  | .truncate =>
    match WalManager.truncate s.wal with
    | (.ok _,w) => some { s with wal := w, start := 0 }
    | (.error (.err _),w) => some { s with wal := w, start := w.offset }
    | (.error _,_) => none
  | .reopen n faults =>
    match WalManager.open_ (WalManager.onFile (s.left n) faults) with
    | (.ok _,w) => some
        { wal := w
          start := (s.left n).length
          durable := s.durable ++
            (wholeWithin (s.cut n) s.start s.wal.appended).map LogRecord.lsn }
    | (.error _,_) => none

def run : List LogStep → LogState → Option LogState
  | [], s => some s
  | st :: sts, s => (s.step st).bind (run sts)

-- A reopened file ends at the end of a record, and it is not an emptied log of which some record
-- was durable. The counter and the payloads stay in range and a truncation is not interrupted.
def Orderly (s : LogState) : LogStep → Prop
  | .call op => op.PayloadFits ∧ s.wal.nextLsn.toNat + 1 < 2 ^ 64
  | .truncate => ∀ f ∈ s.wal.faults.take 2, f = none
  | .reopen n _ =>
    (∃ rs : List LogRecord, (∀ r ∈ rs, r.Fits) ∧ s.left n = rs.flatMap LogRecord.serialize) ∧
      (s.left n ≠ [] ∨ s.durable = [])

def OrderlyRun : List LogStep → LogState → Prop
  | [], _ => True
  | st :: sts, s => s.Orderly st ∧ ∀ s', s.step st = some s' → OrderlyRun sts s'

-- floor bounds the LSNs of the records that a truncation removed.
structure Ordered (rs : List LogRecord) (lsn : Lsn) (acked floor : Nat) (s : LogState) : Prop where
  fits : ∀ r ∈ rs, r.Fits
  logged : s.wal.Logged (rs.flatMap LogRecord.serialize) lsn acked
  start : s.start = (rs.flatMap LogRecord.serialize).length
  room : lsn.toNat + 1 + s.wal.appended.length < 2 ^ 64
  below : ∀ r ∈ rs, r.lsn.toNat ≤ lsn.toNat
  above : ∀ r ∈ rs, floor < r.lsn.toNat
  floor_le : floor ≤ lsn.toNat
  durable : ∀ d ∈ s.durable, d.toNat ≤ floor ∨ ∃ r ∈ rs ++ s.wal.appended.take acked, r.lsn = d

variable {rs : List LogRecord} {lsn : Lsn} {acked floor : Nat} {s s' : LogState}

theorem Ordered.lsn_toNat (h : Ordered rs lsn acked floor s) {i : Nat} {r : LogRecord}
    (hi : s.wal.appended[i]? = some r) : r.lsn.toNat = lsn.toNat + 1 + i := by
  have hlt : i < s.wal.appended.length := (List.getElem?_eq_some_iff.mp hi).1
  have hroom := h.room
  rw [h.logged.lsns i r hi,UInt64.toNat_add,UInt64.toNat_add,UInt64.toNat_ofNat',UInt64.toNat_one]
  omega

theorem Ordered.next_toNat (h : Ordered rs lsn acked floor s) :
    s.wal.nextLsn.toNat = lsn.toNat + 1 + s.wal.appended.length := by
  have hroom := h.room
  rw [h.logged.next,UInt64.toNat_add,UInt64.toNat_add,UInt64.toNat_ofNat',UInt64.toNat_one]
  omega

theorem Ordered.lt_next (h : Ordered rs lsn acked floor s) :
    ∀ d ∈ s.durable, d < s.wal.nextLsn := by
  intro d hd
  rw [UInt64.lt_iff_toNat_lt,h.next_toNat]
  rcases h.durable d hd with hf | ⟨r,hr,rfl⟩
  · have := h.floor_le
    omega
  · rcases List.mem_append.mp hr with hr | hr
    · have := h.below r hr
      omega
    · obtain ⟨i,hi⟩ := List.mem_iff_getElem?.mp (List.mem_of_mem_take hr)
      have hlt : i < s.wal.appended.length := (List.getElem?_eq_some_iff.mp hi).1
      rw [h.lsn_toNat hi]
      omega

theorem Ordered.above_all (h : Ordered rs lsn acked floor s) {r : LogRecord}
    (hr : r ∈ rs ++ s.wal.appended) : floor < r.lsn.toNat := by
  rcases List.mem_append.mp hr with hr | hr
  · exact h.above r hr
  · obtain ⟨i,hi⟩ := List.mem_iff_getElem?.mp hr
    have := h.floor_le
    rw [h.lsn_toNat hi]
    omega

theorem Ordered.call_ok (h : Ordered rs lsn acked floor s) {op : WalOp} {w : WalManager}
    (hnext : s.wal.nextLsn.toNat + 1 < 2 ^ 64) {k : Nat} (hk : acked ≤ k)
    (hl : w.Logged (rs.flatMap LogRecord.serialize) lsn k)
    (hgrow : w.appended = s.wal.appended ∨
      w.appended = s.wal.appended ++ (op.entry s.wal.nextLsn s.wal.txnLastLsn).toList)
    {durable : List Lsn} (hd : ∀ d ∈ durable, d ∈ s.durable ∨
      ∃ r ∈ w.appended.take k, r.lsn = d) :
    Ordered rs lsn k floor { s with wal := w, durable := durable } := by
  have hpre : s.wal.appended <+: w.appended := by
    rcases hgrow with hg | hg
    · rw [hg]
    · rw [hg]
      exact List.prefix_append _ _
  have hlen : w.appended.length ≤ s.wal.appended.length + 1 := by
    rcases hgrow with hg | hg
    · rw [hg]
      omega
    · rw [hg,List.length_append]
      have : (op.entry s.wal.nextLsn s.wal.txnLastLsn).toList.length ≤ 1 := by
        cases op.entry s.wal.nextLsn s.wal.txnLastLsn <;> simp
      omega
  refine { h with logged := hl, room := ?_, durable := fun d hmem => ?_ }
  · rw [h.next_toNat] at hnext
    change lsn.toNat + 1 + w.appended.length < 2 ^ 64
    omega
  · change d.toNat ≤ floor ∨ ∃ r ∈ rs ++ w.appended.take k, r.lsn = d
    rcases hd d hmem with hold | ⟨r,hr,he⟩
    · rcases h.durable d hold with hf | ⟨r,hr,he⟩
      · exact Or.inl hf
      · refine Or.inr ⟨r,?_,he⟩
        rcases List.mem_append.mp hr with hr | hr
        · exact List.mem_append_left _ hr
        · obtain ⟨tail,htail⟩ := hpre
          have ht : r ∈ w.appended.take acked := by
            rw [← htail,List.take_append_of_le_length h.logged.acked_le]
            exact hr
          exact List.mem_append_right _ ((List.take_prefix_take_left hk).subset ht)
    · exact Or.inr ⟨r,List.mem_append_right _ hr,he⟩

theorem Ordered.call (h : Ordered rs lsn acked floor s) {op : WalOp}
    (ho : s.Orderly (.call op)) (hs : s.step (.call op) = some s') :
    ∃ k, Ordered rs lsn k floor s' := by
  obtain ⟨hfit,hnext⟩ := ho
  rcases hx : op.exec s.wal with ⟨r,w⟩
  have hp := (h.logged.exec_spec hfit).of_eq hx
  rw [step,hx] at hs
  rcases r with f | l
  · cases f with
    | err e =>
      cases hs
      exact ⟨acked,h.call_ok hnext le_rfl (hp.logged (by simp)) hp.grown (fun d hd => Or.inl hd)⟩
    | panic => cases hs
    | hang => cases hs
  · obtain ⟨-,hl,hst⟩ := hp
    cases hs
    by_cases hsync : op.syncs = true
    · rw [if_pos hsync]
      have hle : acked ≤ w.appended.length := hl.acked_le
      refine ⟨w.appended.length,h.call_ok hnext hle (hst.sync hsync).1 (Or.inr hst.entry)
        (fun d hd => ?_)⟩
      rcases List.mem_append.mp hd with hd | hd
      · exact Or.inl hd
      · obtain ⟨r,hr,he⟩ := List.mem_map.mp hd
        exact Or.inr ⟨r,by rw [List.take_length]; exact hr,he⟩
    · rw [if_neg hsync]
      exact ⟨acked,h.call_ok hnext le_rfl hl (Or.inr hst.entry) (fun d hd => Or.inl hd)⟩

theorem sysCall_none {w : WalManager} (h : ∀ f ∈ w.faults.take 1, f = none) :
    WalManager.sysCall w = (.ok (),{ w with faults := w.faults.tail }) := by
  rcases w with ⟨file,next,off,fl,last,buf,faults,app,syn⟩
  cases faults with
  | nil => rfl
  | cons f fs =>
    have hf : f = none := h f (by simp)
    subst hf
    rfl

theorem Ordered.truncate (h : Ordered rs lsn acked floor s) (ho : s.Orderly .truncate)
    (hs : s.step .truncate = some s') : ∃ lsn' floor', Ordered [] lsn' 0 floor' s' := by
  have h1 : ∀ f ∈ s.wal.faults.take 1, f = none :=
    fun f hf => ho f ((List.take_prefix_take_left (by omega)).subset hf)
  have h2 : ∀ f ∈ s.wal.faults.tail.take 1, f = none := by
    intro f hf
    refine ho f ?_
    rcases hfs : s.wal.faults with _ | ⟨g,gs⟩
    · rw [hfs] at hf
      simp at hf
    · rw [hfs] at hf
      rw [List.take_succ_cons]
      exact List.mem_cons_of_mem _ hf
  have ht : WalManager.truncate s.wal = (.ok (),{ s.wal with
      file := [], writeBuffer := [], offset := 0, txnLastLsn := fun _ => none
      faults := s.wal.faults.tail.tail, appended := [], synced := 0 }) := by
    have hc1 := sysCall_none (w := { s.wal with writeBuffer := [] }) h1
    have hc2 := sysCall_none (w := { s.wal with
      file := [], writeBuffer := [], faults := s.wal.faults.tail, appended := [], synced := 0 }) h2
    rw [WalManager.truncate,Prog.modify_bind_run,Prog.bind_ok hc1,Prog.modify_bind_run,
      Prog.bind_ok hc2]
    rfl
  rw [step,ht] at hs
  cases hs
  have hnext := h.next_toNat
  have hroom := h.room
  have hlt := h.lt_next
  have hprev : (s.wal.nextLsn - 1).toNat = lsn.toNat + s.wal.appended.length := by
    have : s.wal.nextLsn - 1 = lsn + UInt64.ofNat s.wal.appended.length := h.logged.prev
    rw [this,UInt64.toNat_add,UInt64.toNat_ofNat']
    omega
  refine ⟨s.wal.nextLsn - 1,lsn.toNat + s.wal.appended.length,?_⟩
  constructor
  · intro r hr
    cases hr
  · exact WalManager.Logged.truncated s.wal s.wal.faults.tail.tail
  · rfl
  · change (s.wal.nextLsn - 1).toNat + 1 + 0 < 2 ^ 64
    omega
  · intro r hr
    cases hr
  · intro r hr
    cases hr
  · omega
  · intro d hd
    have hdlt : d.toNat < s.wal.nextLsn.toNat := hlt d hd
    exact Or.inl (by omega)

theorem mem_wholeWithin {n start : Nat} {rs : List LogRecord} {r : LogRecord}
    (h : r ∈ wholeWithin n start rs) : ∃ j, j ≤ rs.length ∧ r ∈ rs.take j ∧
      start + ((rs.take j).flatMap LogRecord.serialize).length ≤ n := by
  induction rs generalizing start with
  | nil => cases h
  | cons x rs ih =>
    rw [wholeWithin] at h
    split_ifs at h with hle
    · rcases List.mem_cons.mp h with rfl | h
      · refine ⟨1,by simp,by simp,?_⟩
        simpa using hle
      · obtain ⟨j,hj,hr,hlen⟩ := ih h
        refine ⟨j + 1,by simpa using hj,?_,?_⟩
        · rw [List.take_succ_cons]
          exact List.mem_cons_of_mem _ hr
        · rw [List.take_succ_cons,List.flatMap_cons,List.length_append]
          omega
    · cases h

theorem Ordered.left_records (h : Ordered rs lsn acked floor s) {n : Nat} {rs' : List LogRecord}
    (hfits : ∀ r ∈ rs', r.Fits) (hleft : s.left n = rs'.flatMap LogRecord.serialize) :
    (∀ r ∈ rs', r ∈ rs ++ s.wal.appended) ∧ (∀ r ∈ rs ++ s.wal.appended.take acked, r ∈ rs') ∧
      ∀ r ∈ wholeWithin (s.cut n) s.start s.wal.appended, r ∈ rs' := by
  have hall : ∀ r ∈ rs ++ s.wal.appended, r.Fits := by
    intro r hr
    rcases List.mem_append.mp hr with hr | hr
    · exact h.fits r hr
    · exact h.logged.fits r hr
  obtain ⟨m,-,hread,hm⟩ := LogRecord.framing.readAll_take hall (s.cut n)
  have hcut : s.cut n ≤ s.wal.file.length := by
    have := h.logged.synced
    rw [cut]
    omega
  have hfile : s.left n = ((rs ++ s.wal.appended).flatMap LogRecord.serialize).take (s.cut n) := by
    rw [left,h.logged.file,List.take_take,Nat.min_eq_left hcut,List.flatMap_append]
    rfl
  have hrs' : rs' = (rs ++ s.wal.appended).take m := by
    have h1 := LogRecord.framing.readAll_frames hfits
    rw [← hleft,hfile] at h1
    exact (Except.ok.inj (hread.symm.trans h1)).symm
  have hin : ∀ j, j ≤ s.wal.appended.length →
      s.start + ((s.wal.appended.take j).flatMap LogRecord.serialize).length ≤ s.cut n →
      ∀ r ∈ rs ++ s.wal.appended.take j, r ∈ rs' := by
    intro j hj hlen r hr
    have hk : rs.length + j ≤ m := by
      refine hm _ (by rw [List.length_append]; omega) ?_
      rw [List.take_length_add_append,List.flatMap_append,List.length_append,← h.start]
      exact hlen
    rw [hrs']
    have htake : rs ++ s.wal.appended.take j = (rs ++ s.wal.appended).take (rs.length + j) := by
      rw [List.take_length_add_append]
    rw [htake] at hr
    exact (List.take_prefix_take_left hk).subset hr
  refine ⟨fun r hr => ?_,hin acked h.logged.acked_le ?_,fun r hr => ?_⟩
  · rw [hrs'] at hr
    exact List.mem_of_mem_take hr
  · have hf := h.logged.flushed
    rw [h.start]
    exact hf.trans (le_max_left _ _)
  · obtain ⟨j,hj,hrj,hlen⟩ := mem_wholeWithin hr
    exact hin j hj hlen r (List.mem_append_right _ hrj)

theorem Ordered.reopen (h : Ordered rs lsn acked floor s) {n : Nat} {faults : List (Option Nat)}
    (ho : s.Orderly (.reopen n faults)) (hs : s.step (.reopen n faults) = some s') :
    ∃ rs' lsn' floor', Ordered rs' lsn' 0 floor' s' := by
  obtain ⟨⟨rs',hfits,hleft⟩,hkeep⟩ := ho
  obtain ⟨hsub,hold,hnew⟩ := h.left_records hfits hleft
  rcases hx : WalManager.open_ (WalManager.onFile (s.left n) faults) with ⟨r,w⟩
  rw [step,hx] at hs
  rcases r with f | u
  · cases hs
  · cases hs
    obtain ⟨rs'',fs,hread,hb,rfl⟩ := (WalManager.open_spec _ faults).of_eq hx rfl
    have hframes := LogRecord.framing.readAll_frames hfits
    rw [← hleft] at hframes
    have hsame : rs'' = rs' := Except.ok.inj (hread.symm.trans hframes)
    subst hsame
    have hlogged := WalManager.Logged.opened (s.left n) rs'' fs
    -- an emptied log keeps no bound on earlier LSNs, so nothing may have been durable
    obtain ⟨floor',hfle,habove,hdur⟩ : ∃ floor', floor' ≤ (maxLsn rs'').toNat ∧
        (∀ r ∈ rs'', floor' < r.lsn.toNat) ∧ ∀ d ∈ s.durable, d.toNat ≤ floor' ∨
          ∃ r ∈ rs'', r.lsn = d := by
      cases rs'' with
      | nil =>
        refine ⟨0,Nat.zero_le _,by simp,fun d hd => ?_⟩
        have hnil : s.durable = [] := hkeep.resolve_left (fun hne => hne hleft)
        rw [hnil] at hd
        cases hd
      | cons x xs =>
        have hx := h.above_all (hsub x List.mem_cons_self)
        have hmax : x.lsn.toNat ≤ (maxLsn (x :: xs)).toNat := le_maxLsn List.mem_cons_self
        refine ⟨floor,by omega,fun r hr => h.above_all (hsub r hr),fun d hd => ?_⟩
        rcases h.durable d hd with hf | ⟨r,hr,he⟩
        · exact Or.inl hf
        · exact Or.inr ⟨r,hold r hr,he⟩
    refine ⟨rs'',maxLsn rs'',floor',hfits,?_,?_,?_,fun r hr => le_maxLsn hr,habove,hfle,?_⟩
    · rw [← hleft]
      exact hlogged
    · rw [← hleft]
    · exact hb
    · intro d hd
      have hgoal : ∀ r ∈ rs'', r.lsn = d → d.toNat ≤ floor' ∨
          ∃ r ∈ rs'' ++ (WalManager.opened rs'' (WalManager.onFile (s.left n) fs)).appended.take 0,
            r.lsn = d := fun r hr he => Or.inr ⟨r,List.mem_append_left _ hr,he⟩
      rcases List.mem_append.mp hd with hd | hd
      · rcases hdur d hd with hf | ⟨r,hr,he⟩
        · exact Or.inl hf
        · exact hgoal r hr he
      · obtain ⟨r,hr,he⟩ := List.mem_map.mp hd
        exact hgoal r (hnew r hr) he

theorem Ordered.run {steps : List LogStep} (h : Ordered rs lsn acked floor s)
    (ho : OrderlyRun steps s) (hrun : LogState.run steps s = some s') :
    ∃ rs' lsn' acked' floor', Ordered rs' lsn' acked' floor' s' := by
  induction steps generalizing rs lsn acked floor s with
  | nil =>
    cases hrun
    exact ⟨rs,lsn,acked,floor,h⟩
  | cons st steps ih =>
    obtain ⟨ho1,ho2⟩ := ho
    rw [LogState.run,Option.bind_eq_some_iff] at hrun
    obtain ⟨t,ht,hrest⟩ := hrun
    cases st with
    | call op =>
      obtain ⟨k,hk⟩ := h.call ho1 ht
      exact ih hk (ho2 t ht) hrest
    | truncate =>
      obtain ⟨l,f,hl⟩ := h.truncate ho1 ht
      exact ih hl (ho2 t ht) hrest
    | reopen n faults =>
      obtain ⟨rs1,l,f,hl⟩ := h.reopen ho1 ht
      exact ih hl (ho2 t ht) hrest

def fresh (w : WalManager) : LogState := ⟨w,0,[]⟩

theorem lsns_increase {faults : List (Option Nat)} {w₀ w : WalManager}
    (hopen : WalManager.open_ (WalManager.onFile [] faults) = (.ok (),w₀)) {steps : List LogStep}
    (ho : OrderlyRun steps (fresh w₀)) (hrun : LogState.run steps (fresh w₀) = some s)
    {record : LogRecord} {l : Lsn} (happend : WalManager.append record s.wal = (.ok l,w)) :
    ∀ d ∈ s.durable, d < l := by
  obtain ⟨rs,fs,hrs,-,rfl⟩ := (WalManager.open_spec [] faults).of_eq hopen rfl
  cases hrs
  have hstart : Ordered [] 0 0 0 (fresh (WalManager.opened [] (WalManager.onFile [] fs))) := by
    refine ⟨by simp,WalManager.Logged.opened [] [] fs,rfl,?_,by simp,by simp,le_rfl,?_⟩
    · change 0 + 1 + 0 < 2 ^ 64
      decide
    · intro d hd
      cases hd
  obtain ⟨_,_,_,_,hend⟩ := hstart.run ho hrun
  rcases (WalManager.append_spec record s.wal).of_eq happend with ⟨hl,-⟩ | ⟨hl,-⟩
  · cases hl
    exact hend.lt_next
  · cases hl

def emptyLog : LogState := fresh (WalManager.opened [] (WalManager.onFile [] []))

def keptSteps : List LogStep := [.call (.begin 1),.call .flush,.reopen 41 []]

theorem keptSteps_orderly : OrderlyRun keptSteps emptyLog := by
  refine ⟨⟨by decide,by decide⟩,fun s1 h1 => ?_⟩
  cases Option.some.inj h1
  refine ⟨⟨by decide,by decide⟩,fun s2 h2 => ?_⟩
  cases Option.some.inj h2
  refine ⟨⟨⟨[⟨1,1,0,.begin,0,[]⟩],by decide,by decide +kernel⟩,Or.inl (by decide +kernel)⟩,?_⟩
  exact fun _ _ => trivial

def keptState : LogState := (LogState.run keptSteps emptyLog).getD emptyLog

theorem run_keptSteps : LogState.run keptSteps emptyLog = some keptState := by
  have h : (LogState.run keptSteps emptyLog).isSome = true := by decide +kernel
  rw [keptState]
  obtain ⟨s,hs⟩ := Option.isSome_iff_exists.mp h
  rw [hs]
  rfl

theorem lsns_increase_kept : LogState.run keptSteps emptyLog = some keptState ∧
    keptState.durable = [1,1] ∧ ∀ d ∈ keptState.durable, d < 2 := by
  have happend : (WalManager.append (.begin 0 2) keptState.wal).1 = .ok 2 := by decide +kernel
  have hopen : WalManager.open_ (WalManager.onFile [] []) = (.ok (),emptyLog.wal) := rfl
  exact ⟨run_keptSteps,by decide +kernel,
    lsns_increase hopen keptSteps_orderly run_keptSteps (Prog.run_eq happend)⟩

def truncatedSteps : List LogStep := [.call (.begin 1),.call .flush,.truncate,.reopen 0 []]

theorem truncate_restarts_lsns : ∃ s, LogState.run truncatedSteps emptyLog = some s ∧
    s.durable = [1] ∧ (WalManager.append (.begin 0 1) s.wal).1 = .ok 1 :=
  ⟨_,rfl,by decide +kernel,rfl⟩

end LogState

end StorageDb
