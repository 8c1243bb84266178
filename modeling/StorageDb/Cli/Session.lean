import Mathlib.Tactic
import StorageDb.Txn.LockFootprint
import StorageDb.Engine.Bench
import StorageDb.Cli.Command

namespace StorageDb
open SortedAssoc Prog Words

structure EngineStats where
  numPages : UInt32
  rootPageId : PageId
  activeTransactions : Nat
  walLsn : Lsn
  deriving DecidableEq

def StorageEngine.stats (e : StorageEngine) : EngineStats where
  numPages := e.pool.disk.numPages
  rootPageId := e.btree.rootPageId
  activeTransactions := e.txnManager.activeCount
  walLsn := e.wal.nextLsn

-- The lines that println! writes. Those with an error, the statistics or the time taken are kept
-- as the data they show.
inductive Printed where
  | line (s : Text)
  | error (e : Error)
  | failedAt (i : Nat) (e : Error)
  | inserted (n : Nat)
  | mismatch (expected got : Bytes)
  | verifyError (e : Error)
  | stats (s : EngineStats)
  deriving DecidableEq

def text (s : String) : Printed := .line s.toList

def decimal (n : Nat) : Text := Nat.toDigits 10 n

-- The debug format of a byte vector.
def debugBytes (b : Bytes) : Text :=
  '[' :: ([',',' '].intercalate (b.map fun x => decimal x.toNat) ++ [']'])

def showValue (v : Bytes) : Text := (fromUtf8 v).getD (debugBytes v)

def showEntry (x : Bytes × Bytes) : Printed :=
  .line ("  ".toList ++ ((fromUtf8 x.1).getD "(binary)".toList ++ (" => ".toList ++
    (fromUtf8 x.2).getD "(binary)".toList)))

def showCount (es : List (Bytes × Bytes)) : Printed :=
  .line ('(' :: (decimal es.length ++ " entries)".toList))

def showRange (es : List (Bytes × Bytes)) : List Printed := es.map showEntry ++ [showCount es]

def showScan (es : List (Bytes × Bytes)) : List Printed :=
  if es = [] then [text "(empty)"] else showRange es

def showGet : Option Bytes → Printed
  | some v => .line (showValue v)
  | none => text "(not found)"

def showDel : Option Bytes → Printed
  | some v => .line ("Deleted: ".toList ++ showValue v)
  | none => text "(not found)"

def Verification.show : Verification → Printed
  | .ok => text "Verification: OK"
  | .mismatch expected got => .mismatch expected got
  | .missing => text "Verification: MISSING"
  | .error e => .verifyError e

def showBench (n : Nat) (failed : Option (Nat × Error)) (sample : Verification) : List Printed :=
  .line ("Inserting ".toList ++ (decimal n ++ " records...".toList)) ::
    ((failed.map fun x => Printed.failedAt x.1 x.2).toList ++ [.inserted n,sample.show])

namespace Command

-- An Err of the engine is printed; a panic ends the process.
def printing {α : Type} (m : Prog Error StorageEngine α) (ok : α → List Printed)
    (err : Error → List Printed) : Prog Error StorageEngine (List Printed) := fun e =>
  match m e with
  | (.ok a,e') => (.ok (ok a),e')
  | (.error (.err x),e') => (.ok (err x),e')
  | (.error f,e') => (.error f,e')

def exec (fuel : Nat) : Command → Prog Error StorageEngine (List Printed)
  | .blank => pure []
  | .usage k => pure [text k.usage]
  | .unknown w => pure [.line ("Unknown command: ".toList ++ w)]
  | .put k v => printing (StorageEngine.put fuel (asBytes k) (asBytes v)) (fun _ => [text "OK"])
      (fun x => [.error x])
  | .get k => printing (StorageEngine.get fuel (asBytes k)) (fun v => [showGet v])
    (fun x => [.error x])
  | .del k => printing (StorageEngine.delete fuel (asBytes k)) (fun v => [showDel v])
      (fun x => [.error x])
  | .scan => printing (StorageEngine.scanAll fuel) showScan (fun x => [.error x])
  | .range a b => printing (StorageEngine.rangeScan fuel (asBytes a) (asBytes b)) showRange
      (fun x => [.error x])
  | .stats => (fun e => [.stats e.stats]) <$> Prog.get
  | .bench n => (fun x => showBench n x.1 x.2) <$> StorageEngine.bench fuel n
  -- The result of the sync is dropped.
  | .quit => printing StorageEngine.sync (fun _ => [text "Syncing...",text "Goodbye!"])
      (fun _ => [text "Syncing...",text "Goodbye!"])

-- The loop over the lines of the input; it ends with them or with quit.
def session (fuel : Nat) : List Text → Prog Error StorageEngine (List Printed)
  | [] => pure []
  | line :: lines => do
    let out ← (parse line).exec fuel
    if parse line = .quit then pure out
    else do
      let rest ← session fuel lines
      pure (out ++ rest)

def ops : Command → List TreeOp
  | .put k v => [.insert (asBytes k) (asBytes v)]
  | .del k => [.delete (asBytes k)]
  | .bench n => (List.range n).map benchOp
  | _ => []

def heard : List Text → List Command
  | [] => []
  | line :: lines => parse line :: if parse line = .quit then [] else heard lines

def Shows (m : KvMap) : Command → List Printed → Prop
  | .blank, out => out = []
  | .usage k, out => out = [text k.usage]
  | .unknown w, out => out = [.line ("Unknown command: ".toList ++ w)]
  | .put _ _, out => out = [text "OK"]
  | .get k, out => out = [showGet (m (asBytes k))]
  | .del k, out => out = [showDel (m (asBytes k))]
  | .scan, out => ∃ es, Sorted es ∧ (∀ k v, (k,v) ∈ es ↔ m k = some v) ∧ out = showScan es
  | .range a b, out => ∃ es, Sorted es ∧
      (∀ k v, (k,v) ∈ es ↔ m k = some v ∧ asBytes a ≤ k ∧ k ≤ asBytes b) ∧ out = showRange es
  | .stats, out => ∃ numPages rootPageId, out = [.stats ⟨numPages,rootPageId,0,1⟩]
  | .bench n, out => out = showBench n none
      (.of (n / 2) ((KvMap.run ((List.range n).map benchOp) m).2 (benchKey (n / 2))))
  | .quit, out => out = [text "Syncing...",text "Goodbye!"]

def after (m : KvMap) (c : Command) : KvMap := (KvMap.run c.ops m).2

def Transcript : List Command → KvMap → List Printed → Prop
  | [], _, out => out = []
  | c :: cs, m, out => ∃ first rest, out = first ++ rest ∧ c.Shows m first ∧
      Transcript cs (c.after m) rest

def treeAfter (c : Command) (t : RootedTree) : RootedTree := c.ops.foldl (fun t op => t.apply op) t

end Command

theorem RootedTree.along_append {C : TreeOp → RootedTree → Prop} {ops ops' : List TreeOp}
    {t : RootedTree} : Along C (ops ++ ops') t ↔
      Along C ops t ∧ Along C ops' (ops.foldl (fun t op => t.apply op) t) := by
  induction ops generalizing t with
  | nil => exact ⟨fun h => ⟨trivial,h⟩,fun h => h.2⟩
  | cons op ops ih =>
    rw [List.cons_append,Along,Along,ih,and_assoc]
    rfl

theorem RootedTree.leaves_run (ops : List TreeOp) (t : RootedTree) :
    (ops.foldl (fun t op => t.apply op) t).leaves.length ≤ t.leaves.length + ops.length := by
  induction ops generalizing t with
  | nil => exact le_rfl
  | cons op ops ih =>
    have hstep := RootedTree.leaves_apply op t
    have hone : [op].countP TreeOp.isInsert ≤ 1 := List.countP_le_length
    have hrest := ih (t.apply op)
    rw [List.foldl_cons,List.length_cons]
    omega

namespace StorageEngine

variable {α : Type} {fuel : Nat} {e : StorageEngine} {t t' : RootedTree}

-- The state between two commands: the tree is stored, and nothing has been logged.
structure Ready (e : StorageEngine) (t : RootedTree) : Prop where
  data : DataAt e t
  txns : e.txnManager = .new
  buffer : e.wal.writeBuffer = []
  lsn : e.wal.nextLsn = 1

theorem Ready.step {m : Prog Error StorageEngine α} {a : α} (h : Ready e t) (hst : Storing m)
    (hm : Spec m e (fun r e' => r = .ok a ∧ DataAt e' t')) :
    ∃ e', m e = (.ok a,e') ∧ Ready e' t' := by
  obtain ⟨hw,ht⟩ := hst e
  rcases hr : m e with ⟨r,e'⟩
  obtain ⟨rfl,hd⟩ := hm.of_eq hr
  rw [hr] at hw ht
  exact ⟨e',rfl,hd,ht.trans h.txns,hw ▸ h.buffer,hw ▸ h.lsn⟩

theorem storing_benchLoop (fuel : Nat) (is : List Nat) : Storing (benchLoop fuel is) := by
  induction is with
  | nil => exact fun _ => ⟨rfl,rfl⟩
  | cons i is ih =>
    intro e
    have hput := storing_put fuel (benchKey i) (benchVal i) e
    rw [Spec] at hput ⊢
    rw [benchLoop]
    rcases hr : put fuel (benchKey i) (benchVal i) e with ⟨r,e'⟩
    rw [hr] at hput
    rcases r with f | u
    · cases f <;> exact hput
    · obtain ⟨hw,ht⟩ := ih e'
      exact ⟨hw.trans hput.1,ht.trans hput.2⟩

theorem storing_verify (fuel i : Nat) : Storing (verify fuel i) := by
  intro e
  have hget := storing_get fuel (benchKey i) e
  rw [Spec] at hget ⊢
  rw [verify]
  rcases hr : get fuel (benchKey i) e with ⟨r,e'⟩
  rw [hr] at hget
  rcases r with f | v
  · cases f <;> exact hget
  · exact hget

theorem Ready.bench_eq {n : Nat} (h : Ready e t)
    (hl : ∀ op ∈ (List.range n).map benchOp, op.InLimits)
    (hs : RootedTree.Along RootedTree.Safe ((List.range n).map benchOp) t) (hf : 12 ≤ fuel) :
    let t' := ((List.range n).map benchOp).foldl (fun t op => t.apply op) t
    ∃ e', bench fuel n e = (.ok (none,.of (n / 2) (t'.toMap (benchKey (n / 2)))),e') ∧ Ready e' t' ∧
      t'.toMap = (KvMap.run ((List.range n).map benchOp) t.toMap).2 := by
  intro t'
  obtain ⟨e1,hloop,hd1,hmap⟩ := h.data.benchLoop_eq hl hs hf
  have hspec : Spec (benchLoop fuel (List.range n)) e (fun r e' => r = .ok none ∧
      DataAt e' t') := by
    rw [Spec,hloop]
    exact ⟨rfl,hd1⟩
  obtain ⟨e1,hloop,h1⟩ := h.step (storing_benchLoop fuel _) hspec
  obtain ⟨e2,hverify,hd2⟩ := h1.data.verify_eq (n / 2) hf
  have hspec : Spec (verify fuel (n / 2)) e1 (fun r e' =>
      r = .ok (.of (n / 2) (t'.toMap (benchKey (n / 2)))) ∧ DataAt e' t') := by
    rw [Spec,hverify]
    exact ⟨rfl,hd2⟩
  obtain ⟨e2,hverify,h2⟩ := h1.step (storing_verify fuel _) hspec
  refine ⟨e2,?_,h2,hmap⟩
  rw [bench,bind_ok hloop,bind_ok hverify]
  rfl

-- With an empty buffer a flush can fail, and cannot panic.
theorem Ready.sync_returns (h : Ready e t) :
    (∃ e', sync e = (.ok (),e')) ∨ ∃ x e', sync e = (.error (.err x),e') := by
  have hflush : Spec WalManager.flush e.wal (fun r _ => r = .ok () ∨ r = .error (.err .io)) := by
    have hdrain : WalManager.drain e.wal = (.ok (),e.wal) := by
      rw [WalManager.drain,get_bind_run,if_pos h.buffer]
      rfl
    rw [WalManager.flush,spec_bind_ok hdrain]
    refine (WalManager.sysCall_spec e.wal).bind ?_ ?_
    · rintro - w ⟨fs,rfl,-⟩
      have hlsn : ¬ ({ e.wal with faults := fs } : WalManager).nextLsn = 0 := by
        change ¬ e.wal.nextLsn = 0
        rw [h.lsn]
        decide
      rw [spec_get_bind,if_neg hlsn]
      exact Or.inl rfl
    · rintro f w ⟨fs,rfl,hr | hr⟩
      · cases hr
      · exact Or.inr hr
  rcases hw : WalManager.flush e.wal with ⟨r,w⟩
  rcases hflush.of_eq hw with rfl | rfl
  · obtain ⟨p',hrun,-⟩ := h.data.quiet.inv.flushAll_spec
    have hpool : BufferPoolManager.flushAll ({ e with wal := w } : StorageEngine).pool =
      (.ok (),p') := hrun
    exact Or.inl ⟨_,by rw [sync,bind_ok (onWal_ok hw)]; exact onPool_ok hpool⟩
  · have hon : onWal WalManager.flush e = (.error (.err .io),{ e with wal := w }) := by
      rw [onWal,zoom,hw]
    exact Or.inr ⟨.io,_,by rw [sync,bind_error hon]⟩

end StorageEngine

namespace Command
open StorageEngine

variable {α : Type} {fuel : Nat} {e e' : StorageEngine} {t t' : RootedTree} {c : Command}

theorem printing_ok {m : Prog Error StorageEngine α} {a : α} {ok : α → List Printed}
    {err : Error → List Printed} (h : m e = (.ok a,e')) :
    printing m ok err e = (.ok (ok a),e') := by
  rw [printing,h]

structure Executed (c : Command) (e : StorageEngine) (t : RootedTree) (fuel : Nat)
    (out : List Printed) (e' : StorageEngine) : Prop where
  returns : c.exec fuel e = (.ok out,e')
  shows : c.Shows t.toMap out
  ready : c ≠ .quit → Ready e' (c.treeAfter t)
  toMap : (c.treeAfter t).toMap = c.after t.toMap

theorem executed_idle {out : List Printed} (hops : c.ops = []) (hrun : c.exec fuel e = (.ok out,e'))
    (hshows : c.Shows t.toMap out) (hr : c ≠ .quit → Ready e' t) : Executed c e t fuel out e' where
  returns := hrun
  shows := hshows
  ready := by rw [treeAfter,hops]; exact hr
  toMap := by rw [treeAfter,after,hops]; rfl

theorem exec_ready (h : Ready e t) (c : Command) (hl : ∀ op ∈ c.ops, op.InLimits)
    (hs : RootedTree.Along RootedTree.Safe c.ops t) (hf : 12 ≤ fuel)
    (hleaves : t.leaves.length ≤ fuel) :
    ∃ out e', Executed c e t fuel out e' := by
  have hsound := h.data.tree.sound
  cases c with
  | blank => exact ⟨_,_,executed_idle rfl rfl rfl fun _ => h⟩
  | usage k => exact ⟨_,_,executed_idle rfl rfl rfl fun _ => h⟩
  | unknown w => exact ⟨_,_,executed_idle rfl rfl rfl fun _ => h⟩
  | stats =>
    have hstats : e.stats = ⟨e.pool.disk.numPages,e.btree.rootPageId,0,1⟩ := by
      unfold StorageEngine.stats
      rw [h.txns,h.lsn]
      rfl
    exact ⟨[.stats e.stats],e,executed_idle rfl rfl ⟨_,_,by rw [hstats]⟩ fun _ => h⟩
  | put k v =>
    have hin := hl _ List.mem_cons_self
    obtain ⟨e',hrun,h'⟩ := h.step (storing_put fuel _ _) (h.data.put_spec hs.1 hin.1 hin.2 hf)
    exact ⟨_,e',printing_ok hrun,rfl,fun _ => h',RootedTree.toMap_insert _ _ hsound⟩
  | get k =>
    obtain ⟨e',hrun,h'⟩ := h.step (storing_get fuel _) (h.data.get_spec (asBytes k) hf)
    exact ⟨_,e',executed_idle rfl (printing_ok hrun) rfl fun _ => h'⟩
  | del k =>
    obtain ⟨e',hrun,h'⟩ := h.step (storing_delete fuel _) (h.data.delete_spec (asBytes k) hf)
    exact ⟨_,e',printing_ok hrun,rfl,fun _ => h',RootedTree.toMap_delete _ hsound⟩
  | scan =>
    obtain ⟨e',hrun,h'⟩ := h.step (storing_scanAll fuel) (h.data.scanAll_spec hf hleaves)
    exact ⟨_,e',executed_idle rfl (printing_ok hrun)
      ⟨_,h.data.tree.sound.sorted,fun k v => h.data.mem_contents,rfl⟩ fun _ => h'⟩
  | range a b =>
    obtain ⟨e',hrun,h'⟩ := h.step (storing_rangeScan fuel _ _)
      (h.data.rangeScan_spec (asBytes a) (asBytes b) hf hleaves)
    exact ⟨_,e',executed_idle rfl (printing_ok hrun)
      ⟨_,List.Pairwise.filter _ h.data.tree.sound.sorted,fun k v => h.data.mem_between,rfl⟩
      fun _ => h'⟩
  | bench n =>
    obtain ⟨e',hrun,h',hmap⟩ := h.bench_eq hl hs hf
    refine ⟨showBench n none (.of (n / 2) (((bench n).treeAfter t).toMap (benchKey (n / 2)))),e',
      ?_,?_,fun _ => h',hmap⟩
    · rw [exec,map_run,hrun]
      rfl
    · exact congrArg (fun m => showBench n none (.of (n / 2) (m (benchKey (n / 2))))) hmap
  | quit =>
    rcases h.sync_returns with ⟨e',hrun⟩ | ⟨x,e',hrun⟩
    · exact ⟨_,e',executed_idle rfl (printing_ok hrun) rfl fun hne => absurd rfl hne⟩
    · have hprint : Command.quit.exec fuel e = (.ok [text "Syncing...",text "Goodbye!"],e') := by
        rw [exec,printing,hrun]
      exact ⟨_,e',executed_idle rfl hprint rfl fun hne => absurd rfl hne⟩

theorem session_ready (h : Ready e t) {lines : List Text}
    (hl : ∀ op ∈ (heard lines).flatMap ops, op.InLimits)
    (hs : RootedTree.Along RootedTree.Safe ((heard lines).flatMap ops) t) (hf : 12 ≤ fuel)
    (hleaves : t.leaves.length + ((heard lines).flatMap ops).length ≤ fuel) :
    ∃ out e', session fuel lines e = (.ok out,e') ∧ Transcript (heard lines) t.toMap out := by
  induction lines generalizing e t with
  | nil => exact ⟨[],e,rfl,rfl⟩
  | cons line lines ih =>
    rw [heard,List.flatMap_cons] at hl hs hleaves
    rw [List.length_append] at hleaves
    obtain ⟨hs1,hs2⟩ := RootedTree.along_append.mp hs
    obtain ⟨out,e1,hx⟩ := exec_ready h (parse line)
      (fun op hop => hl op (List.mem_append_left _ hop)) hs1 hf (by omega)
    rw [session,bind_ok hx.returns,heard]
    by_cases hq : parse line = .quit
    · rw [if_pos hq,if_pos hq]
      exact ⟨out,e1,rfl,out,[],(List.append_nil _).symm,hx.shows,rfl⟩
    · rw [if_neg hq] at hl hs2 hleaves
      have hgrow := RootedTree.leaves_run (parse line).ops t
      obtain ⟨rest,e2,hrun,htr⟩ := ih (hx.ready hq)
        (fun op hop => hl op (List.mem_append_right _ hop)) hs2
        (by rw [treeAfter]; omega)
      rw [if_neg hq,if_neg hq,bind_ok hrun]
      rw [hx.toMap] at htr
      exact ⟨out ++ rest,e2,rfl,out,rest,rfl,hx.shows,htr⟩

theorem open_ready {capacity : Nat} {walFaults : List (Option Nat)} (hc : 1 ≤ capacity)
    (hopen : open_ (mount emptyDir capacity [] walFaults) = (.ok (),e)) :
    Ready e (RootedTree.single 0) := by
  obtain ⟨rs,fs,hread,hw⟩ := (open_wal emptyDir capacity [] walFaults).of_eq hopen rfl
  have hnil : rs = [] := by cases hread; rfl
  subst hnil
  have hw : e.wal = .opened [] (.onFile [] fs) := hw.elim id id
  exact ⟨(open_data capacity walFaults hc).of_eq hopen rfl,
    ((open_appended emptyDir capacity [] walFaults).of_eq hopen).2,by rw [hw]; rfl,by rw [hw]; rfl⟩

theorem cli_session_shows_map {capacity : Nat} {walFaults : List (Option Nat)} {lines : List Text}
    (hc : 1 ≤ capacity) (hopen : open_ (mount emptyDir capacity [] walFaults) = (.ok (),e))
    (hl : ∀ op ∈ (heard lines).flatMap ops, op.InLimits)
    (hs : RootedTree.Along RootedTree.Safe ((heard lines).flatMap ops) (RootedTree.single 0))
    (hf : 12 + ((heard lines).flatMap ops).length ≤ fuel) :
    ∃ out e', session fuel lines e = (.ok out,e') ∧ Transcript (heard lines) KvMap.empty out := by
  refine session_ready (open_ready hc hopen) hl hs (by omega) ?_
  change 1 + _ ≤ fuel
  omega

theorem cli_session_shows_map_scan : open_ (mount emptyDir 4 [] []) = (.ok (),freshEngine) ∧
    ∃ out e', session 20 ["put a 1".toList,"put b two words".toList,"scan".toList,"q".toList]
      freshEngine = (.ok out,e') ∧ Transcript [.put "a".toList "1".toList,
        .put "b".toList "two words".toList,.scan,.quit] KvMap.empty out := by
  have hheard : heard ["put a 1".toList,"put b two words".toList,"scan".toList,"q".toList] =
      [.put "a".toList "1".toList,.put "b".toList "two words".toList,.scan,.quit] := by
    decide +kernel
  obtain ⟨out,e',hrun,htr⟩ := @cli_session_shows_map 20 freshEngine 4 []
    ["put a 1".toList,"put b two words".toList,"scan".toList,"q".toList]
      (by decide) open_freshEngine
    (by decide +kernel) (by decide +kernel) (by decide +kernel)
  exact ⟨open_freshEngine,out,e',hrun,hheard ▸ htr⟩

theorem heard_append {lines lines' : List Text} (h : ∀ line ∈ lines, parse line ≠ .quit) :
    heard (lines ++ lines') = lines.map parse ++ heard lines' := by
  induction lines with
  | nil => rfl
  | cons line lines ih =>
    rw [List.cons_append,heard,if_neg (h line List.mem_cons_self),
      ih fun l hl => h l (List.mem_cons_of_mem _ hl)]
    rfl

theorem Transcript.split {cs cs' : List Command} {m : KvMap} {out : List Printed}
    (h : Transcript (cs ++ cs') m out) :
    ∃ out1 out2 m', out = out1 ++ out2 ∧ Transcript cs' m' out2 := by
  induction cs generalizing m out with
  | nil => exact ⟨[],out,m,rfl,h⟩
  | cons c cs ih =>
    obtain ⟨first,rest,rfl,-,hrest⟩ := h
    obtain ⟨out1,out2,m',rfl,h'⟩ := ih hrest
    exact ⟨first ++ out1,out2,m',(List.append_assoc ..).symm,h'⟩

theorem Transcript.put_get {k v : Text} {m : KvMap} {out : List Printed}
    (h : Transcript [.put k v,.get k] m out) : out = [text "OK",.line v] := by
  obtain ⟨first,rest,rfl,rfl,second,last,rfl,rfl,rfl⟩ := h
  have hfound : (Command.put k v).after m (asBytes k) = some (asBytes v) := by
    change Function.update m (asBytes k) (some (asBytes v)) (asBytes k) = _
    rw [Function.update_self]
  rw [hfound,showGet,showValue,fromUtf8_asBytes]
  rfl

theorem typed_value_printed {capacity : Nat} {walFaults : List (Option Nat)} {lines : List Text}
    {k v : Text} (hc : 1 ≤ capacity)
    (hopen : open_ (mount emptyDir capacity [] walFaults) = (.ok (),e))
    (hquit : ∀ line ∈ lines, parse line ≠ .quit) (hk : ' ' ∉ k) (hke : EndsLine k) (hv : EndsLine v)
    (hl : ∀ op ∈ (heard (lines ++ [putLine k v,getLine k])).flatMap ops, op.InLimits)
    (hs : RootedTree.Along RootedTree.Safe ((heard (lines ++ [putLine k v,getLine k])).flatMap ops)
      (RootedTree.single 0))
    (hf : 12 + ((heard (lines ++ [putLine k v,getLine k])).flatMap ops).length ≤ fuel) :
    ∃ out e', session fuel (lines ++ [putLine k v,getLine k]) e =
      (.ok (out ++ [text "OK",.line v]),e') := by
  have hfuel : 12 ≤ fuel := by omega
  have hleaves : (RootedTree.single 0).leaves.length = 1 := rfl
  obtain ⟨out,e',hrun,htr⟩ := session_ready (open_ready hc hopen) hl hs hfuel (by omega)
  have htail : heard [putLine k v,getLine k] = [.put k v,.get k] := by
    rw [heard,heard,parse_putLine hk hv,parse_getLine hk hke]
    rfl
  rw [heard_append hquit,htail] at htr
  obtain ⟨out1,out2,m',rfl,h2⟩ := htr.split
  rw [h2.put_get] at hrun
  exact ⟨out1,e',hrun⟩

def demoLines : List Text := ["put a 1".toList,"get  a".toList,"del a".toList]

theorem typed_value_printed_words : open_ (mount emptyDir 4 [] []) = (.ok (),freshEngine) ∧
    ∃ out e', session 20 (demoLines ++ [putLine "b".toList "two words".toList,getLine "b".toList])
      freshEngine = (.ok (out ++ [text "OK",.line "two words".toList]),e') :=
  ⟨open_freshEngine,typed_value_printed (by decide) open_freshEngine (by decide +kernel)
    (by decide) ⟨by decide,fun c hc => (by cases hc; decide)⟩
    ⟨by decide,fun c hc => (by cases hc; decide)⟩ (by decide +kernel) (by decide +kernel)
    (by decide +kernel)⟩

end Command

end StorageDb
