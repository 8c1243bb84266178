import Mathlib.Tactic
import StorageDb.Engine.DataPath

namespace StorageDb
open SortedAssoc SepChain Prog

namespace EngineCall

-- The calls that a transaction is made of.
def InTxn : EngineCall → Bool
  | .begin | .txnPut _ _ _ | .txnGet _ _ | .txnDelete _ _ | .commit _ | .abort _ => true
  | _ => false

def WritesFor (t : TxnId) : EngineCall → Bool
  | .txnPut u _ _ | .txnDelete u _ => u = t
  | _ => false

def written (k : Bytes) : EngineCall → Option (Option Bytes)
  | .txnPut _ key v => if key = k then some (some v) else none
  | .txnDelete _ key => if key = k then some none else none
  | _ => none

-- What the last put or delete of k leaves there.
def lastWritten (k : Bytes) (calls : List EngineCall) : Option (Option Bytes) :=
  (calls.filterMap (written k)).getLast?

theorem after_written {t : TxnId} {c : EngineCall} (h : c.WritesFor t = true) (m : KvMap)
    (k : Bytes) : c.after m k = (c.written k).getD (m k) := by
  cases c with
  | txnPut u key v =>
    change Function.update m key (some v) k = _
    rw [written]
    split_ifs with hk
    · rw [hk,Function.update_self]
      rfl
    · exact Function.update_of_ne (Ne.symm hk) ..
  | txnDelete u key =>
    change Function.update m key none k = _
    rw [written]
    split_ifs with hk
    · rw [hk,Function.update_self]
      rfl
    · exact Function.update_of_ne (Ne.symm hk) ..
  | _ => cases h

theorem foldl_after_written {t : TxnId} {ops : List EngineCall}
    (h : ∀ c ∈ ops, c.WritesFor t = true) (m : KvMap) (k : Bytes) :
    ops.foldl after m k = (lastWritten k ops).getD (m k) := by
  induction ops using List.reverseRecOn with
  | nil => rfl
  | append_singleton ops c ih =>
    have ih := ih fun x hx => h x (List.mem_append_left _ hx)
    rw [List.foldl_concat,after_written (h c (by simp)),lastWritten,List.filterMap_append,
      List.getLast?_append,ih,lastWritten]
    cases hw : c.written k with
    | none => simp [hw]
    | some w => simp [hw]

end EngineCall

-- One put or delete of a transaction: its key, and the value it leaves there.
structure Write where
  txnId : TxnId
  key : Bytes
  value : Option Bytes

abbrev Trace := List (EngineCall × Except (Fault Error) EngineReply)

namespace Trace
open EngineCall

-- A delete that finds nothing writes nothing.
def wrote : EngineCall × Except (Fault Error) EngineReply → Option Write
  | (.txnPut t k v,.ok _) => some ⟨t,k,some v⟩
  | (.txnDelete t k,.ok (.value (some _))) => some ⟨t,k,none⟩
  | _ => none

def Commits (t : TxnId) : EngineCall × Except (Fault Error) EngineReply → Bool
  | (.commit u,.ok _) => u = t
  | _ => false

def Aborts (t : TxnId) : EngineCall × Except (Fault Error) EngineReply → Bool
  | (.abort u,.ok _) => u = t
  | _ => false

def Ended (h : Trace) (t : TxnId) : Bool := h.any (Commits t) || h.any (Aborts t)

-- The value of k by the last write among those of the transactions in p.
def seen (m : KvMap) (h : Trace) (p : TxnId → Bool) (k : Bytes) : Option Bytes :=
  ((h.filterMap wrote).filter fun w => w.key = k ∧ p w.txnId).getLast?.elim (m k) Write.value

def latest (m : KvMap) (h : Trace) : KvMap := seen m h fun _ => true

-- What t may see: its own writes and those of committed transactions.
def visible (m : KvMap) (h : Trace) (t : TxnId) : KvMap :=
  seen m h fun u => u = t || h.any (Commits u)

-- Another transaction that is not over has written k.
def Contended (h : Trace) (t : TxnId) (k : Bytes) : Prop :=
  ∃ w ∈ h.filterMap wrote, w.key = k ∧ w.txnId ≠ t ∧ Ended h w.txnId = false

def IsolatedAt (m : KvMap) (h : Trace) : EngineCall → Except (Fault Error) EngineReply → Prop
  | .txnGet t k,r => r = .ok (.value (visible m h t k))
  | .txnPut t k _,r => Contended h t k → r = .error (.err (.lockConflict t))
  | .txnDelete t k,r => Contended h t k → r = .error (.err (.lockConflict t))
  | _,_ => True

def SeparateAt (m : KvMap) (h : Trace) : EngineCall → Prop
  | .txnGet t k => latest m h k = visible m h t k
  | .txnPut t k _ => ¬ Contended h t k
  | .txnDelete t k => ¬ Contended h t k
  | _ => True

-- h is what has happened before.
def IsolatedAfter (m : KvMap) : Trace → Trace → Prop
  | _,[] => True
  | h,(c,r) :: tr => IsolatedAt m h c r ∧ IsolatedAfter m (h ++ [(c,r)]) tr

def SeparateAfter (m : KvMap) : Trace → Trace → Prop
  | _,[] => True
  | h,(c,r) :: tr => SeparateAt m h c ∧ SeparateAfter m (h ++ [(c,r)]) tr

instance (h : Trace) (t : TxnId) (k : Bytes) : Decidable (Contended h t k) :=
  inferInstanceAs (Decidable (∃ w ∈ _, _))

instance (m : KvMap) (h : Trace) (c : EngineCall) : Decidable (SeparateAt m h c) :=
  match c with
  | .txnGet _ _ => inferInstanceAs (Decidable (_ = _))
  | .txnPut _ _ _ | .txnDelete _ _ => inferInstanceAs (Decidable (¬ _))
  | .put _ _ | .get _ | .delete _ | .scanAll | .rangeScan _ _ | .begin | .commit _ | .abort _
  | .checkpoint | .sync => .isTrue trivial

def decideSeparate (m : KvMap) : (h tr : Trace) → Decidable (SeparateAfter m h tr)
  | _,[] => .isTrue trivial
  | h,(c,r) :: tr =>
    have := decideSeparate m (h ++ [(c,r)]) tr
    inferInstanceAs (Decidable (_ ∧ _))

instance (m : KvMap) (h tr : Trace) : Decidable (SeparateAfter m h tr) := decideSeparate m h tr

def Isolated (m : KvMap) (tr : Trace) : Prop := IsolatedAfter m [] tr

def Separate (m : KvMap) (tr : Trace) : Prop := SeparateAfter m [] tr

variable {m : KvMap} {h : Trace} {c : EngineCall} {r : Except (Fault Error) EngineReply}

theorem latest_append (x : EngineCall × Except (Fault Error) EngineReply) (k : Bytes) :
    latest m (h ++ [x]) k = (wrote x).elim (latest m h k) fun w =>
      if w.key = k then w.value else latest m h k := by
  cases hw : wrote x with
  | none => simp [latest,seen,hw]
  | some w =>
    by_cases hk : w.key = k
    · simp [latest,seen,hw,hk]
    · simp [latest,seen,hw,hk]

theorem after_latest (hans : c.Answers (latest m h) r) (hlive : StorageEngine.Lives r)
    (hc : c.InTxn = true) : c.after (latest m h) = latest m (h ++ [(c,r)]) := by
  funext k
  rw [latest_append]
  cases c with
  | txnPut t key v =>
    obtain rfl : r = .ok .done := hans.resolve_right hlive.1
    change Function.update (latest m h) key (some v) k = if key = k then some v else _
    rw [Function.update_apply]
    exact if_congr eq_comm rfl rfl
  | txnDelete t key =>
    obtain rfl : r = .ok (.value (latest m h key)) := hans.resolve_right hlive.1
    change Function.update (latest m h) key none k = _
    rw [Function.update_apply]
    cases hold : latest m h key with
    | none =>
      change _ = latest m h k
      split_ifs with hk
      · rw [hk,hold]
      · rfl
    | some old =>
      change _ = if key = k then none else _
      exact if_congr eq_comm rfl rfl
  | begin => rfl
  | txnGet t key => rfl
  | commit t => rfl
  | abort t => rfl
  | _ => cases hc

theorem isolatedAt_iff (hans : c.Answers (latest m h) r) :
    IsolatedAt m h c r ↔ SeparateAt m h c := by
  cases c with
  | txnGet t key =>
    obtain rfl : r = .ok (.value (latest m h key)) := hans
    refine ⟨fun hr => EngineReply.value.inj (Except.ok.inj hr),fun hr => ?_⟩
    rw [IsolatedAt,hr]
  | txnPut t key v =>
    refine forall_congr' fun _ => iff_of_false (fun hr => ?_) id
    rcases hans with rfl | rfl <;> cases hr
  | txnDelete t key =>
    refine forall_congr' fun _ => iff_of_false (fun hr => ?_) id
    rcases hans with rfl | rfl <;> cases hr
  | _ => exact Iff.rfl

end Trace

namespace StorageEngine

variable {fuel : Nat} {e e' : StorageEngine} {t : RootedTree} {calls : List EngineCall} {m : KvMap}

def traceOf (fuel : Nat) (calls : List EngineCall) (e : StorageEngine) : Trace :=
  calls.zip (run fuel calls e).1

theorem Serves.isolated_iff {h : Trace} (hs : Serves fuel calls e (Trace.latest m h))
    (hc : ∀ c ∈ calls, c.InTxn = true) :
    Trace.IsolatedAfter m h (traceOf fuel calls e) ↔
      Trace.SeparateAfter m h (traceOf fuel calls e) := by
  induction calls generalizing e h with
  | nil => exact Iff.rfl
  | cons c calls ih =>
    obtain ⟨hans,hnext⟩ := hs
    rcases hx : c.exec fuel e with ⟨r,e'⟩
    rw [hx] at hans hnext
    by_cases hlive : Lives r
    · rw [traceOf,run_cons hx hlive,List.zip_cons_cons]
      refine and_congr (Trace.isolatedAt_iff hans)
        (ih ?_ fun x hx => hc x (List.mem_cons_of_mem _ hx))
      rw [← Trace.after_latest hans hlive (hc c List.mem_cons_self)]
      exact hnext hlive
    · rw [traceOf,run_cons_dead hx hlive,List.zip_cons_cons,List.zip_nil_right]
      exact and_congr (Trace.isolatedAt_iff hans) Iff.rfl

theorem run_live_cons {c : EngineCall} (h : ∀ r ∈ (run fuel (c :: calls) e).1, Lives r) :
    Lives (c.exec fuel e).1 ∧ run fuel (c :: calls) e =
      ((c.exec fuel e).1 :: (run fuel calls (c.exec fuel e).2).1,
        (run fuel calls (c.exec fuel e).2).2) := by
  have hlive : Lives (c.exec fuel e).1 := by
    by_contra hdead
    rw [run_cons_dead rfl hdead] at h
    exact hdead (h _ List.mem_cons_self)
  exact ⟨hlive,run_cons rfl hlive⟩

theorem DataAt.run (h : DataAt e t)
    (hl : ∀ op ∈ calls.filterMap EngineCall.treeOp, op.InLimits)
    (hs : RootedTree.Along RootedTree.Safe (calls.filterMap EngineCall.treeOp) t)
    (hf : 12 ≤ fuel) (hleaves : t.leaves.length + calls.length ≤ fuel)
    (hlive : ∀ r ∈ (run fuel calls e).1, Lives r) :
    DataAt (run fuel calls e).2 (calls.foldl treeAfter t) ∧
      (calls.foldl treeAfter t).toMap = calls.foldl EngineCall.after t.toMap ∧
      (calls.foldl treeAfter t).leaves.length ≤ t.leaves.length + calls.length := by
  induction calls generalizing e t with
  | nil => exact ⟨h,rfl,Nat.le_add_right ..⟩
  | cons c calls ih =>
    rw [List.length_cons] at hleaves
    obtain ⟨hfirst,hl',hs'⟩ := safe_cons hl hs
    obtain ⟨hlive1,hrun⟩ := run_live_cons hlive
    obtain ⟨-,hnext⟩ := h.exec_spec c hfirst hf (by omega)
    have hle := leaves_treeAfter t c
    rw [hrun] at hlive
    obtain ⟨h',hmap,hlen⟩ := ih (hnext hlive1) hl' hs' (by omega)
      fun r hr => hlive r (List.mem_cons_of_mem _ hr)
    rw [hrun,List.foldl_cons,List.foldl_cons,← h.toMap_after c,List.length_cons]
    exact ⟨h',hmap,by omega⟩

theorem run_replies {rs : List (Except (Fault Error) EngineReply)}
    (h : (run fuel calls e).1 = rs) : run fuel calls e = (rs,(run fuel calls e).2) :=
  Prod.ext h rfl

-- The engine after calls on a fresh directory that have not ended the process.
def Reaches (fuel : Nat) (calls : List EngineCall) (e : StorageEngine) : Prop :=
  ∃ capacity walFaults e₀, 1 ≤ capacity ∧
    open_ (mount emptyDir capacity [] walFaults) = (.ok (),e₀) ∧ (run fuel calls e₀).2 = e ∧
    ∀ r ∈ (run fuel calls e₀).1, Lives r

theorem along_append {C : TreeOp → RootedTree → Prop} {ops ops' : List TreeOp} :
    RootedTree.Along C (ops ++ ops') t ↔ RootedTree.Along C ops t ∧
      RootedTree.Along C ops' (ops.foldl (fun t op => t.apply op) t) := by
  induction ops generalizing t with
  | nil => exact (and_iff_right trivial).symm
  | cons op ops ih => exact (and_congr_right fun _ => ih).trans and_assoc.symm

theorem foldl_treeAfter (calls : List EngineCall) (t : RootedTree) : calls.foldl treeAfter t =
    (calls.filterMap EngineCall.treeOp).foldl (fun t op => t.apply op) t := by
  induction calls generalizing t with
  | nil => rfl
  | cons c calls ih =>
    rw [List.foldl_cons,ih,treeAfter]
    cases hop : c.treeOp with
    | none => rw [List.filterMap_cons_none hop]; rfl
    | some op => rw [List.filterMap_cons_some hop]; rfl

-- A reached engine holds a tree on which the calls to come are safe.
theorem Reaches.data {before : List EngineCall} (h : Reaches fuel before e)
    (hl : ∀ op ∈ (before ++ calls).filterMap EngineCall.treeOp, op.InLimits)
    (hs : RootedTree.Along RootedTree.Safe ((before ++ calls).filterMap EngineCall.treeOp)
      (RootedTree.single 0))
    (hf : 12 + (before ++ calls).length ≤ fuel) :
    ∃ t, DataAt e t ∧ (∀ op ∈ calls.filterMap EngineCall.treeOp, op.InLimits) ∧
      RootedTree.Along RootedTree.Safe (calls.filterMap EngineCall.treeOp) t ∧
      t.leaves.length + calls.length ≤ fuel := by
  obtain ⟨capacity,walFaults,e₀,hc,hopen,rfl,hlive⟩ := h
  have h0 := (open_data capacity walFaults hc).of_eq hopen rfl
  rw [List.filterMap_append] at hl hs
  rw [List.length_append] at hf
  obtain ⟨hs1,hs2⟩ := along_append.mp hs
  have hone : (RootedTree.single 0).leaves.length = 1 := rfl
  obtain ⟨h1,-,hlen⟩ := h0.run (fun op hop => hl op (List.mem_append_left _ hop)) hs1 (by omega)
    (by omega) hlive
  refine ⟨_,h1,fun op hop => hl op (List.mem_append_right _ hop),?_,by omega⟩
  rw [foldl_treeAfter]
  exact hs2

theorem DataAt.get_eq (h : DataAt e t) (hf : 12 ≤ fuel) (k : Bytes) :
    (get fuel k e).1 = .ok (t.toMap k) := (h.get_spec k hf).1

theorem Reaches.get_eq {before : List EngineCall} (h : Reaches fuel before e)
    (hl : ∀ op ∈ before.filterMap EngineCall.treeOp, op.InLimits)
    (hs : RootedTree.Along RootedTree.Safe (before.filterMap EngineCall.treeOp)
      (RootedTree.single 0))
    (hf : 12 + before.length ≤ fuel) (k : Bytes) :
    (get fuel k e).1 = .ok (before.foldl EngineCall.after KvMap.empty k) := by
  obtain ⟨capacity,walFaults,e₀,hc,hopen,rfl,hlive⟩ := h
  have h0 := (open_data capacity walFaults hc).of_eq hopen rfl
  have hone : (RootedTree.single 0).leaves.length = 1 := rfl
  obtain ⟨h1,hmap,-⟩ := h0.run hl hs (by omega) (by omega) hlive
  rw [h1.get_eq (by omega),hmap]
  rfl

def readAndWrite : List EngineCall :=
  [.begin,.begin,.txnPut 1 [1] [8],.txnGet 1 [1],.txnPut 2 [2] [9],.txnGet 2 [2],.commit 1,
    .txnGet 2 [1],.txnDelete 2 [1]]

theorem reaches_put : Reaches 30 [.put [1] [7]] (run 30 [.put [1] [7]] freshEngine).2 :=
  ⟨4,[],freshEngine,by decide,open_freshEngine,rfl,by decide +kernel⟩

theorem abort_restores_iff {before ops : List EngineCall} {u : TxnId} {e₁ e₂ e₃ : StorageEngine}
    {rs : List (Except (Fault Error) EngineReply)} (h : Reaches fuel before e)
    (hbegin : EngineCall.begin.exec fuel e = (.ok (.begun u),e₁))
    (hops : ∀ c ∈ ops, c.WritesFor u = true) (hrun : run fuel ops e₁ = (rs,e₂))
    (hlive : ∀ r ∈ rs, Lives r) (habort : (EngineCall.abort u).exec fuel e₂ = (.ok .done,e₃))
    (hl : ∀ op ∈ (before ++ ops).filterMap EngineCall.treeOp, op.InLimits)
    (hs : RootedTree.Along RootedTree.Safe ((before ++ ops).filterMap EngineCall.treeOp)
      (RootedTree.single 0))
    (hf : 12 + (before ++ ops).length ≤ fuel) :
    (∀ k, (get fuel k e₃).1 = (get fuel k e).1) ↔
      ∀ k w, EngineCall.lastWritten k ops = some w → (get fuel k e).1 = .ok w := by
  obtain ⟨t,h0,hl1,hs1,hleaves⟩ := h.data hl hs hf
  have hf1 : 12 ≤ fuel := by omega
  have h1 : DataAt e₁ t := (h0.aside ((aside_onTxns _).map _)).of_eq hbegin
  obtain ⟨h2,hmap2,-⟩ := h1.run hl1 hs1 hf1 hleaves (by rw [hrun]; exact hlive)
  rw [hrun] at h2
  have h3 : DataAt e₃ (ops.foldl treeAfter t) := (h2.aside ((aside_abort u).map _)).of_eq habort
  refine forall_congr' fun k => ?_
  rw [h3.get_eq hf1,h0.get_eq hf1,hmap2,EngineCall.foldl_after_written hops]
  cases EngineCall.lastWritten k ops with
  | none => exact iff_of_true rfl fun w hw => (by cases hw)
  | some w =>
    refine ⟨fun hk x hx => ?_,fun hk => (hk w rfl).symm⟩
    cases hx
    exact hk.symm

-- The transaction puts the old value back itself.
theorem abort_restores_iff_undone : ∃ e e₁ e₂ e₃,
    EngineCall.begin.exec 30 e = (.ok (.begun 1),e₁) ∧
    run 30 [.txnPut 1 [1] [8],.txnDelete 1 [2],.txnPut 1 [1] [7]] e₁ =
      ([.ok .done,.ok (.value none),.ok .done],e₂) ∧
    (EngineCall.abort 1).exec 30 e₂ = (.ok .done,e₃) ∧
    ∀ k, (get 30 k e₃).1 = (get 30 k e).1 := by
  have hbegin := Prog.run_eq (m := EngineCall.begin.exec 30) (r := .ok (.begun 1))
    (s := (run 30 [.put [1] [7]] freshEngine).2) (by decide +kernel)
  have hrun := @run_replies 30 (EngineCall.begin.exec 30 (run 30 [.put [1] [7]] freshEngine).2).2
    [.txnPut 1 [1] [8],.txnDelete 1 [2],.txnPut 1 [1] [7]]
    [.ok .done,.ok (.value none),.ok .done] (by decide +kernel)
  have habort := Prog.run_eq (m := (EngineCall.abort 1).exec 30) (r := .ok .done)
    (s := (run 30 [.txnPut 1 [1] [8],.txnDelete 1 [2],.txnPut 1 [1] [7]]
      (EngineCall.begin.exec 30 (run 30 [.put [1] [7]] freshEngine).2).2).2) (by decide +kernel)
  refine ⟨_,_,_,_,hbegin,hrun,habort,(abort_restores_iff reaches_put hbegin (by decide) hrun
    (by decide) habort (by decide) (by decide +kernel) (by decide)).mpr fun k w hw => ?_⟩
  rw [reaches_put.get_eq (by decide) (by decide) (by decide)]
  by_cases h1 : k = [1]
  · subst h1
    cases hw
    rfl
  · by_cases h2 : k = [2]
    · subst h2
      cases hw
      rfl
    · simp [EngineCall.lastWritten,EngineCall.written,Ne.symm h1,Ne.symm h2] at hw

theorem abort_keeps_put : open_ (mount emptyDir 4 [] []) = (.ok (),freshEngine) ∧
    (run 1 [.get [1],.begin,.txnPut 1 [1] [2],.abort 1,.get [1]] freshEngine).1 =
      [.ok (.value none),.ok (.begun 1),.ok .done,.ok .done,.ok (.value (some [2]))] :=
  ⟨open_freshEngine,by decide +kernel⟩

end StorageEngine

end StorageDb
