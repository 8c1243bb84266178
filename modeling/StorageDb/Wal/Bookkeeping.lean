import Mathlib.Tactic
import StorageDb.Wal.Durability

namespace StorageDb

-- A commit whose flush fails does not get to forgetting the transaction.
def WalOp.lastAfter (next : Lsn) (last : TxnId → Option Lsn) (ok : Bool) :
    WalOp → TxnId → Option Lsn
  | .commit t => if ok then WalOp.tracked next last (.commit t) else trackLsn next last t
  | op => op.tracked next last

def runRecords {α : Type} (next : Lsn) (last : TxnId → Option Lsn) :
    List (WalOp × Except (Fault Error) α) → List LogRecord
  | [] => []
  | (op,r) :: calls =>
    match r with
    | .error .panic => []
    | r =>
      match op.entry next last with
      | none => runRecords next last calls
      | some record => record :: runRecords (next + 1) (op.lastAfter next last r.isOk) calls

def freshRecords {α : Type} (ops : List WalOp) (rs : List (Except (Fault Error) α)) :
    List LogRecord := runRecords 1 (fun _ => none) (ops.zip rs)

def WalOp.Logs (op : WalOp) (r : LogRecord) : Prop := ∃ next last, op.entry next last = some r

namespace WalManager

def booked (w : WalManager) (op : WalOp) (ok : Bool) :
    List LogRecord × Lsn × (TxnId → Option Lsn) × Nat :=
  match op.entry w.nextLsn w.txnLastLsn with
  | none => w.book
  | some r => (w.appended ++ [r],w.nextLsn + 1,op.lastAfter w.nextLsn w.txnLastLsn ok,
      w.offset + r.serialize.length)

def Books (op : WalOp) (w : WalManager) {α : Type} (r : Except (Fault Error) α) (t : WalManager) :
    Prop :=
  r = .error .panic ∨ t.book = w.booked op r.isOk ∧
    ((op.entry w.nextLsn w.txnLastLsn).isSome ∨ w.offset < 2 ^ 64 → t.offset < 2 ^ 64)

theorem map_books {α β : Type} {op : WalOp} {w : WalManager} {m : Prog Error WalManager α}
    (g : α → β) (h : Prog.Spec m w (Books op w)) : Prog.Spec (g <$> m) w (Books op w) := by
  refine h.map (fun a t h => ?_) (fun f t h => ?_)
  · exact Or.inr (h.resolve_left (fun e => by cases e))
  · rcases h with h | h
    · cases h
      exact Or.inl rfl
    · exact Or.inr h

theorem append_books {op : WalOp} {record : LogRecord} {w : WalManager}
    (hq : op.request w.txnLastLsn = some record)
    (hl : ∀ ok, op.lastAfter w.nextLsn w.txnLastLsn ok =
      trackLsn w.nextLsn w.txnLastLsn record.txnId) :
    Prog.Spec (append record) w (Books op w) := by
  have hentry : op.entry w.nextLsn w.txnLastLsn = some (w.stamp record) := by
    rw [WalOp.entry,hq]
    rfl
  refine (append_spec record w).mono ?_
  rintro r t (⟨rfl,rfl,ho⟩ | ⟨rfl,-⟩)
  · refine Or.inr ⟨?_,fun _ => ho⟩
    rw [booked,hentry]
    dsimp only
    rw [hl]
    rfl
  · exact Or.inl rfl

theorem flushed_books {α : Type} {op : WalOp} {w t t' : WalManager} {r : Except (Fault Error) α}
    (hb : t'.book = t.book) (hw : t.book = w.booked op r.isOk) (ho : t.offset < 2 ^ 64) :
    Books op w r t' := by
  refine Or.inr ⟨hb.trans hw,fun _ => ?_⟩
  have hoff : t'.offset = t.offset := congrArg (fun b => b.2.2.2) hb
  rwa [hoff]

theorem exec_books (op : WalOp) (w : WalManager) : Prog.Spec op.exec w (Books op w) := by
  cases op with
  | begin t => exact map_books _ (append_books rfl fun _ => rfl)
  | pageWrite t p b a =>
    refine map_books _ ?_
    rw [logPageWrite,Prog.spec_get_bind]
    exact append_books rfl fun _ => rfl
  | commit t =>
    refine map_books _ ?_
    rw [logCommit,Prog.spec_get_bind]
    refine (append_spec _ w).bind ?_ ?_
    · rintro l t' (⟨-,rfl,ho⟩ | ⟨h,-⟩)
      · refine (flush_book _).bind ?_ ?_
        · intro _ t' hb
          rw [Prog.spec_modify_bind]
          have hforget : (forget t t').book =
              (forget t (w.logged (.commit 0 t (w.lastLsn t)))).book := by
            simp only [book,Prod.mk.injEq] at hb
            obtain ⟨h1,h2,h3,h4⟩ := hb
            simp only [book,forget,h1,h2,h3,h4]
          exact flushed_books hforget rfl ho
        · exact fun f t' hb => flushed_books hb rfl ho
      · cases h
    · rintro f t' (⟨h,-⟩ | ⟨h,-⟩)
      · cases h
      · exact Or.inl (by cases h; rfl)
  | abort t =>
    refine map_books _ ?_
    rw [logAbort,Prog.spec_get_bind]
    refine (append_spec _ w).bind ?_ ?_
    · rintro l t' (⟨-,rfl,ho⟩ | ⟨h,-⟩)
      · exact Or.inr ⟨rfl,fun _ => ho⟩
      · cases h
    · rintro f t' (⟨h,-⟩ | ⟨h,-⟩)
      · cases h
      · exact Or.inl (by cases h; rfl)
  | checkpoint ts =>
    refine map_books _ ?_
    rw [logCheckpoint]
    refine (append_spec _ w).bind ?_ ?_
    · rintro l t' (⟨-,rfl,ho⟩ | ⟨h,-⟩)
      · refine (flush_book _).bind ?_ ?_
        · exact fun _ t' hb => flushed_books hb rfl ho
        · exact fun f t' hb => flushed_books hb rfl ho
      · cases h
    · rintro f t' (⟨h,-⟩ | ⟨h,-⟩)
      · cases h
      · exact Or.inl (by cases h; rfl)
  | flush =>
    refine map_books _ ((flush_book w).mono fun r t h => Or.inr ⟨h,fun ho => ?_⟩)
    have hoff : t.offset = w.offset := congrArg (fun b => b.2.2.2) h
    rw [hoff]
    exact ho.resolve_left Bool.false_ne_true

-- A panic leaves no record: append can panic before it has counted one, flush never does.
structure Clean {α : Type} (w : WalManager) (r : Except (Fault Error) α) (t : WalManager) :
    Prop where
  panic : r = .error .panic → t.appended = w.appended
  backed : r ≠ .error .panic → t.writeBuffer.length ≤ t.offset

theorem Clean.ok {α β : Type} {w t : WalManager} {a : α}
    (h : Clean w (.ok a : Except (Fault Error) α) t) (b : β) :
    Clean w (.ok b : Except (Fault Error) β) t :=
  ⟨fun e => (by cases e),fun _ => h.backed (fun e => by cases e)⟩

theorem Clean.error {α β : Type} {w t : WalManager} {f : Fault Error}
    (h : Clean w (.error f : Except (Fault Error) α) t) :
    Clean w (.error f : Except (Fault Error) β) t :=
  ⟨fun e => h.panic (by cases e; rfl),fun hne => h.backed (fun e => hne (by cases e; rfl))⟩

theorem map_clean {α β : Type} {w : WalManager} {m : Prog Error WalManager α} (g : α → β)
    (h : Prog.Spec m w (Clean w)) : Prog.Spec (g <$> m) w (Clean w) :=
  h.map (fun _ _ h => h.ok _) (fun _ _ h => h.error)

theorem drain_backed {w : WalManager} (hb : w.writeBuffer.length ≤ w.offset) :
    Prog.Spec drain w (fun r t => r ≠ .error .panic ∧ t.nextLsn = w.nextLsn ∧
      t.writeBuffer.length ≤ t.offset) := by
  rw [drain,Prog.spec_get_bind]
  split_ifs with hnil hlt
  · exact ⟨fun e => (by cases e),rfl,hb⟩
  · omega
  · refine (writeAll_spec _ _ w).bind ?_ ?_
    · rintro - t ⟨n,fs,rfl,-⟩
      exact ⟨fun e => (by cases e),rfl,Nat.zero_le _⟩
    · rintro f t ⟨n,fs,rfl,hr⟩
      refine ⟨?_,rfl,hb⟩
      rcases hr with ⟨hr,-⟩ | hr
      · cases hr
      · cases hr
        exact fun e => (by cases e)

theorem flush_backed {w : WalManager} (hb : w.writeBuffer.length ≤ w.offset) (hn : w.nextLsn ≠ 0) :
    Prog.Spec flush w (fun r t => r ≠ .error .panic ∧ t.writeBuffer.length ≤ t.offset) := by
  refine (drain_backed hb).bind ?_ (fun f t h => ⟨fun e => h.1 (by cases e; rfl),h.2.2⟩)
  rintro - t ⟨-,hnext,hbt⟩
  refine (sysCall_spec t).bind ?_ ?_
  · rintro - t' ⟨fs,rfl,-⟩
    rw [Prog.spec_get_bind,if_neg (by rw [← hnext] at hn; exact hn)]
    exact ⟨fun e => (by cases e),hbt⟩
  · rintro f t' ⟨fs,rfl,hr⟩
    refine ⟨?_,hbt⟩
    rcases hr with hr | hr
    · cases hr
    · cases hr
      exact fun e => (by cases e)

section clean

variable {w : WalManager} (hb : w.writeBuffer.length ≤ w.offset)
include hb

theorem append_clean (record : LogRecord) : Prog.Spec (append record) w (Clean w) := by
  refine (append_spec record w).mono ?_
  rintro r t (⟨rfl,rfl,-⟩ | ⟨rfl,-,ha,-⟩)
  · refine ⟨fun e => (by cases e),fun _ => ?_⟩
    change (w.writeBuffer ++ (w.stamp record).serialize).length ≤ _
    rw [List.length_append]
    exact Nat.add_le_add_right hb _
  · exact ⟨fun _ => ha,fun hne => absurd rfl hne⟩

theorem append_flush_clean {α : Type} (hn : w.nextLsn + 1 ≠ 0) (record : LogRecord)
    {g : Lsn → Prog Error WalManager α} (hg : ∀ l t, t.writeBuffer.length ≤ t.offset →
      Prog.Spec (g l) t (fun r t' => r ≠ .error .panic ∧ t'.writeBuffer.length ≤ t'.offset)) :
    Prog.Spec (append record >>= fun l => flush >>= fun _ => g l) w (Clean w) := by
  refine (append_spec record w).bind ?_ ?_
  · rintro l t (⟨-,rfl,-⟩ | ⟨hr,-⟩)
    · have hbt : (w.logged record).writeBuffer.length ≤ (w.logged record).offset := by
        change (w.writeBuffer ++ (w.stamp record).serialize).length ≤ _
        rw [List.length_append]
        exact Nat.add_le_add_right hb _
      have hflush : Prog.Spec (flush >>= fun _ => g l) (w.logged record)
          (fun r t' => r ≠ .error .panic ∧ t'.writeBuffer.length ≤ t'.offset) :=
        (flush_backed hbt hn).bind (fun _ t' h => hg l t' h.2)
          (fun f t' h => ⟨fun e => h.1 (by cases e; rfl),h.2⟩)
      exact hflush.mono fun r t' h => ⟨fun e => absurd e h.1,fun _ => h.2⟩
    · cases hr
  · rintro f t (⟨hr,-⟩ | ⟨hr,-,ha,-⟩)
    · cases hr
    · cases hr
      exact ⟨fun _ => ha,fun hne => absurd rfl hne⟩

theorem exec_clean (h0 : w.nextLsn ≠ 0) (hn : w.nextLsn + 1 ≠ 0) (op : WalOp) :
    Prog.Spec op.exec w (Clean w) := by
  cases op with
  | begin t => exact map_clean _ (append_clean hb _)
  | pageWrite t p b a =>
    refine map_clean _ ?_
    rw [logPageWrite,Prog.spec_get_bind]
    exact append_clean hb _
  | commit t =>
    refine map_clean _ ?_
    rw [logCommit,Prog.spec_get_bind]
    exact append_flush_clean hb hn _ fun l t' h => ⟨fun e => (by cases e),h⟩
  | abort t =>
    refine map_clean _ ?_
    rw [logAbort,Prog.spec_get_bind]
    refine (append_clean hb _).bind (fun l t' h => ?_) (fun _ _ h => h.error)
    exact ⟨fun e => (by cases e),fun _ => h.backed (fun e => by cases e)⟩
  | checkpoint ts =>
    exact map_clean _ (append_flush_clean hb hn _ fun l t' h => ⟨fun e => (by cases e),h⟩)
  | flush =>
    exact map_clean _ ((flush_backed hb h0).mono fun r t h => ⟨fun e => absurd e h.1,fun _ => h.2⟩)

end clean

variable {w w' : WalManager} {k : Nat}

theorem runRecords_cons {α : Type} {r : Except (Fault Error) α} (hr : r ≠ .error .panic)
    (next : Lsn) (last : TxnId → Option Lsn) (op : WalOp)
    (calls : List (WalOp × Except (Fault Error) α)) :
    runRecords next last ((op,r) :: calls) = (op.entry next last).elim (runRecords next last calls)
      (fun record => record :: runRecords (next + 1) (op.lastAfter next last r.isOk) calls) := by
  rw [runRecords]
  · cases op.entry next last <;> rfl
  · exact hr

theorem exec_records {α : Type} {op : WalOp} {r : Except (Fault Error) (Option Lsn)}
    (he : op.exec w = (r,w')) (hr : r ≠ .error .panic) {r' : Except (Fault Error) α}
    (hok : r'.isOk = r.isOk) (hr' : r' ≠ .error .panic)
    (calls : List (WalOp × Except (Fault Error) α)) :
    w.appended ++ runRecords w.nextLsn w.txnLastLsn ((op,r') :: calls) =
      w'.appended ++ runRecords w'.nextLsn w'.txnLastLsn calls := by
  rcases (exec_books op w).of_eq he with h | ⟨hbook,-⟩
  · exact absurd h hr
  · rw [booked] at hbook
    rw [runRecords_cons hr',hok]
    cases hentry : op.entry w.nextLsn w.txnLastLsn with
    | none =>
      rw [hentry] at hbook
      simp only [book,Prod.mk.injEq] at hbook
      obtain ⟨h1,h2,h3,-⟩ := hbook
      rw [h1,h2,h3]
      rfl
    | some record =>
      rw [hentry] at hbook
      simp only [book,Prod.mk.injEq] at hbook
      obtain ⟨h1,h2,h3,-⟩ := hbook
      rw [h1,h2,h3,List.append_assoc]
      rfl

theorem Logged.small (h : Logged [] 0 k w) : w.nextLsn.toNat = w.appended.length + 1 ∧
    w.appended.length + 2 < 2 ^ 64 := by
  have hlen := length_stream w
  have hb := h.bound
  refine ⟨?_,by omega⟩
  rw [h.next,lsn_next,UInt64.zero_add,UInt64.toNat_ofNat',Nat.mod_eq_of_lt (by omega)]

theorem Logged.exec_clean (h : Logged [] 0 k w) (op : WalOp) : Prog.Spec op.exec w (Clean w) := by
  obtain ⟨hn,hs⟩ := h.small
  have hoff := h.offset
  have hpend := h.pending
  refine WalManager.exec_clean (by omega) (fun e => ?_) (fun e => ?_) op
  · rw [e] at hn
    simp at hn
  · have := congrArg UInt64.toNat e
    rw [UInt64.toNat_add,hn,UInt64.toNat_one,Nat.mod_eq_of_lt (by omega)] at this
    simp at this

theorem Logged.exec_logged (h : Logged [] 0 k w) {op : WalOp} (hop : op.PayloadFits)
    {r : Except (Fault Error) (Option Lsn)} (he : op.exec w = (r,w')) (hr : r ≠ .error .panic) :
    Logged [] 0 k w' := by
  have hx := (h.exec_spec hop).of_eq he
  rcases r with f | l
  · exact hx.logged (fun hf => hr (by rw [hf]))
  · exact hx.2.1

theorem Logged.run_records (h : Logged [] 0 k w) {ops : List WalOp}
    (hops : ∀ op ∈ ops, op.PayloadFits) : (run ops w).2.appended =
      w.appended ++ runRecords w.nextLsn w.txnLastLsn (ops.zip (run ops w).1) := by
  induction ops generalizing w with
  | nil => exact (List.append_nil _).symm
  | cons op ops ih =>
    rcases he : op.exec w with ⟨r,w'⟩
    by_cases hr : r = .error .panic
    · subst hr
      have hrun : run (op :: ops) w = ([.error .panic],w') := by rw [run,he]
      rw [hrun,((h.exec_clean op).of_eq he).panic rfl]
      exact (List.append_nil _).symm
    · rw [run_cons he hr,List.zip_cons_cons,exec_records he hr rfl hr]
      exact ih (h.exec_logged (hops op List.mem_cons_self) he hr)
        (fun o ho => hops o (List.mem_cons_of_mem _ ho))

theorem Logged.run_returns (h : Logged [] 0 k w) {ops : List WalOp}
    (hops : ∀ op ∈ ops, op.PayloadFits) {i : Nat} {op : WalOp} {l : Lsn} (hi : ops[i]? = some op)
    (ho : (run ops w).1[i]? = some (.ok (some l))) :
    ∃ r ∈ (run ops w).2.appended, r.lsn = l ∧ op.Logs r := by
  induction ops generalizing w i with
  | nil => simp at hi
  | cons o ops ih =>
    have hrest : ∀ o ∈ ops, o.PayloadFits := fun o ho => hops o (List.mem_cons_of_mem _ ho)
    rcases he : o.exec w with ⟨r,w'⟩
    by_cases hr : r = .error .panic
    · subst hr
      have hrun : run (o :: ops) w = ([.error .panic],w') := by rw [run,he]
      rw [hrun] at ho
      cases i <;> simp at ho
    · have hl' := h.exec_logged (hops o List.mem_cons_self) he hr
      rw [run_cons he hr] at ho ⊢
      cases i with
      | succ i => exact ih hl' hrest (by simpa using hi) (by simpa using ho)
      | zero =>
        obtain rfl : o = op := by simpa using hi
        obtain rfl : r = .ok (some l) := by simpa using ho
        obtain ⟨hl,-,hstep⟩ := (h.exec_spec (hops o List.mem_cons_self)).of_eq he
        obtain ⟨record,hentry,rfl⟩ := Option.map_eq_some_iff.mp hl.symm
        refine ⟨record,?_,rfl,_,_,hentry⟩
        rw [hl'.run_records hrest,hstep.entry,hentry]
        simp

end WalManager

end StorageDb
