import Mathlib.Tactic
import StorageDb.Wal.Checkpoints
import StorageDb.Engine.PageLevel
import StorageDb.Engine.Footprint

namespace StorageDb
open Bytes Restart FrameLog

-- Payloads with 32-bit lengths; what a delete logs comes from one page.
def EngineCall.Small : EngineCall → Prop
  | .txnPut t k v => (WalOp.pageWrite t 0 k v).PayloadFits
  | .txnDelete t k => (WalOp.pageWrite t 0 k (List.replicate pageSize 0)).PayloadFits
  | _ => True

-- The writes that the engine logs name page 0, whatever page they change.
structure WalOp.Rooted (op : WalOp) : Prop where
  fits : op.PayloadFits
  root : ∀ t p b a, op = .pageWrite t p b a → p = 0

structure LogRecord.Rooted (r : LogRecord) : Prop where
  root : r.recordType = .pageWrite → r.pageId = 0
  images : r.recordType = .pageWrite → ∃ im, r.pageWriteImages = .ok im

theorem WalOp.Rooted.entry {op : WalOp} (h : op.Rooted) {next : Lsn} {last : TxnId → Option Lsn}
    {r : LogRecord} (hr : op.entry next last = some r) : r.Rooted := by
  refine ⟨fun hw => ?_,h.fits.images hr⟩
  cases op with
  | pageWrite t p b a =>
    cases hr
    exact h.root t p b a rfl
  | flush => cases hr
  | _ =>
    cases hr
    cases hw

open TransactionManager in
theorem EngineCall.Small.rooted {c : EngineCall} (hc : c.Small) {m : TransactionManager}
    (hm : m.activeCount ≤ 2 ^ 28) {op : WalOp} (ho : c.MayLog m (some op)) : op.Rooted := by
  have hsmall : recordHeaderSize + 0 < 2 ^ 32 := by decide
  cases c with
  | begin => cases ho; exact ⟨hsmall,fun _ _ _ _ h => (by cases h)⟩
  | txnPut t k v => cases ho; exact ⟨hc,fun _ _ _ _ h => (by cases h; rfl)⟩
  | txnDelete t k =>
    rcases ho with ho | ⟨v,ho,hv⟩
    · cases ho
    · cases ho
      refine ⟨?_,fun _ _ _ _ h => (by cases h; rfl)⟩
      simp only [EngineCall.Small,WalOp.PayloadFits,WalOp.payload,List.length_replicate] at hc ⊢
      omega
  | commit t =>
    have ho : some op = (TxnCall.commit t).walOp _ := ho
    rw [TxnCall.walOp] at ho
    split_ifs at ho
    cases ho
    exact ⟨hsmall,fun _ _ _ _ h => (by cases h)⟩
  | abort t =>
    have ho : some op = (TxnCall.abort t).walOp _ := ho
    rw [TxnCall.walOp] at ho
    split_ifs at ho
    cases ho
    exact ⟨hsmall,fun _ _ _ _ h => (by cases h)⟩
  | checkpoint =>
    cases ho
    refine ⟨?_,fun _ _ _ _ h => (by cases h)⟩
    rw [activeCount] at hm
    simp only [WalOp.PayloadFits,WalOp.payload,activeTransactionIds,recordHeaderSize]
    omega
  | sync => cases ho; exact ⟨hsmall,fun _ _ _ _ h => (by cases h)⟩
  | put k v => cases ho
  | get k => cases ho
  | delete k => cases ho
  | scanAll => cases ho
  | rangeScan a b => cases ho
  | txnGet t k => cases ho

namespace WalManager

theorem run_entries (ops : List WalOp) (w : WalManager) {r : LogRecord}
    (hr : r ∈ (run ops w).2.appended) :
    r ∈ w.appended ∨ ∃ op ∈ ops, ∃ next last, op.entry next last = some r := by
  induction ops generalizing w with
  | nil => exact Or.inl hr
  | cons op ops ih =>
    have hadds := exec_adds op w
    rcases hx : op.exec w with ⟨x,w'⟩
    have hadds := hadds.of_eq hx
    have hnew (hr : r ∈ w'.appended) :
        r ∈ w.appended ∨ ∃ o ∈ op :: ops, ∃ next last, o.entry next last = some r := by
      rcases hadds with ha | ⟨-,ha⟩
      · rw [ha,List.mem_append] at hr
        rcases hr with hr | hr
        · exact Or.inl hr
        · exact Or.inr ⟨op,List.mem_cons_self,_,_,Option.mem_toList.mp hr⟩
      · exact Or.inl (ha ▸ hr)
    by_cases hp : x = .error .panic
    · subst hp
      have hrun : run (op :: ops) w = ([.error .panic],w') := by rw [run,hx]
      rw [hrun] at hr
      exact hnew hr
    · rw [run_cons hx hp] at hr
      rcases ih w' hr with hr | ⟨o,ho,hentry⟩
      · exact hnew hr
      · exact Or.inr ⟨o,List.mem_cons_of_mem _ ho,hentry⟩

end WalManager

-- What recovery copies onto page 0: the second halves of the committed writes, then the first
-- halves of the unfinished ones, last write first.
def rootImages (rs : List LogRecord) : List Bytes :=
  ((writesTo 0 rs).filter (fun w => w.txnId ∈ (analyse rs).committed)).map PageImage.after ++
    (((writesTo 0 rs).filter (fun w => w.txnId ∈ (analyse rs).active)).map PageImage.before).reverse

def overlayBytes (image page : Bytes) : Bytes := splice page 0 (image.take pageSize)

def overlayRoot (images : List Bytes) (data : Bytes) : Bytes :=
  applyAll overlayBytes images (data.take pageSize) ++ data.drop pageSize

section images

variable {rs : List LogRecord} {actions : RecoveryActions} {q : PageId}

theorem imagesFor_root (h : recoveryActions rs = .ok actions) :
    imagesFor 0 (actions.redo ++ actions.undo) = rootImages rs := by
  obtain ⟨-,-,hredo,hundo⟩ := recoveryActions_ok h
  have hrev : writesTo 0 rs.reverse = (writesTo 0 rs).reverse := List.filterMap_reverse
  rw [imagesFor_append,imagesFor_collect hredo,imagesFor_collect hundo,hrev,List.filter_reverse,
    List.map_reverse,rootImages]

theorem imagesFor_other (h : recoveryActions rs = .ok actions) (hrs : ∀ r ∈ rs, r.Rooted)
    (hq : q ≠ 0) : imagesFor q (actions.redo ++ actions.undo) = [] := by
  obtain ⟨-,-,hredo,hundo⟩ := recoveryActions_ok h
  have hnone : writesTo q rs = [] := by
    refine List.filterMap_eq_nil_iff.mpr fun r hr => ?_
    rw [LogRecord.writeTo,if_neg]
    rintro ⟨hw,hp⟩
    exact hq (hp.symm.trans ((hrs r hr).root hw))
  have hrev : writesTo q rs.reverse = [] := by
    rw [writesTo,List.filterMap_reverse,← writesTo,hnone,List.reverse_nil]
  rw [imagesFor_append,imagesFor_collect hredo,imagesFor_collect hundo,hrev,hnone]
  rfl

end images

section bytes

variable {data : Bytes} {images : List Bytes}

theorem length_overlayAll {page : Bytes} (h : page.length = pageSize) :
    (applyAll overlayBytes images page).length = pageSize := by
  induction images generalizing page with
  | nil => exact h
  | cons i images ih =>
    rw [applyAll_cons]
    refine ih ?_
    rw [overlayBytes,length_splice,h]
    rw [h,List.length_take]
    omega

theorem data_overlayAll (pg : Page) :
    (applyAll Page.overlay images pg).data = applyAll overlayBytes images pg.data := by
  induction images generalizing pg with
  | nil => rfl
  | cons i images ih => exact ih (pg.overlay i)

theorem id_overlayAll (pg : Page) : (applyAll Page.overlay images pg).id = pg.id := by
  induction images generalizing pg with
  | nil => rfl
  | cons i images ih => exact ih (pg.overlay i)

theorem length_overlayRoot (h : pageSize ≤ data.length) :
    (overlayRoot images data).length = data.length := by
  rw [overlayRoot,List.length_append,length_overlayAll (List.length_take_of_le h),List.length_drop]
  omega

theorem overlayRoot_append (h : pageSize ≤ data.length) (rest : Bytes) :
    overlayRoot images data ++ rest = overlayRoot images (data ++ rest) := by
  rw [overlayRoot,overlayRoot,List.take_append_of_le_length h,List.drop_append_of_le_length h,
    List.append_assoc]

theorem slice_overlayRoot (h : pageSize ≤ data.length) {q : Nat} (hq : q ≠ 0) :
    slice (overlayRoot images data) (q * pageSize) pageSize =
      slice data (q * pageSize) pageSize := by
  obtain ⟨k,rfl⟩ := Nat.exists_eq_succ_of_ne_zero hq
  have hoff : k.succ * pageSize = pageSize + k * pageSize := by rw [Nat.succ_mul,Nat.add_comm]
  have hlen : (data.take pageSize).length = pageSize := List.length_take_of_le h
  have hl := slice_append_right (applyAll overlayBytes images (data.take pageSize))
    (data.drop pageSize) (k * pageSize) pageSize
  have hr := slice_append_right (data.take pageSize) (data.drop pageSize) (k * pageSize) pageSize
  rw [length_overlayAll hlen] at hl
  rw [hlen,List.take_append_drop] at hr
  rw [hoff,overlayRoot,hl,hr]

theorem slice_overlayRoot_zero (h : pageSize ≤ data.length) :
    slice (overlayRoot images data) 0 pageSize =
      applyAll overlayBytes images (slice data 0 pageSize) := by
  have hlen : (data.take pageSize).length = pageSize := List.length_take_of_le h
  have hs := slice_append_self (applyAll overlayBytes images (data.take pageSize))
    (data.drop pageSize)
  rw [length_overlayAll hlen] at hs
  rw [overlayRoot,hs]
  rfl

end bytes

namespace DiskManager

variable {d : DiskManager} {data : Bytes} {images : List Bytes}

theorem Healthy.file_overlay (hb : (open_ data []).Healthy) (h0 : (open_ data []).numPages ≠ 0)
    (hd : d.Healthy) (hn : d.numPages = (open_ data []).numPages)
    (hroot : d.pageAt 0 = ((open_ data []).pageAt 0).map (applyAll Page.overlay images))
    (hother : ∀ q, q ≠ 0 → d.pageAt q = (open_ data []).pageAt q) :
    d.file = overlayRoot images data := by
  have hpos : 0 < (open_ data []).numPages.toNat :=
    Nat.pos_of_ne_zero fun h => h0 (UInt32.toNat_inj.mp h)
  have hle : pageSize ≤ data.length := by
    have := hb.whole
    change data.length = _ at this
    rw [this]
    exact Nat.le_mul_of_pos_left _ hpos
  have hlen : (overlayRoot images data).length = data.length := length_overlayRoot hle
  have hnum : (open_ (overlayRoot images data) []).numPages = (open_ data []).numPages := by
    change UInt32.ofNat _ = UInt32.ofNat _
    rw [hlen]
  have hh : (open_ (overlayRoot images data) []).Healthy := by
    refine ⟨rfl,?_⟩
    rw [hnum,← hb.whole]
    exact hlen
  refine Healthy.file_eq hh hd (hn.trans hnum.symm) (funext fun q => ?_)
  by_cases hq : q = 0
  · subst hq
    have hbound (f : Bytes) (hf : f.length = data.length) :
        (0 : PageId).toNat * pageSize + pageSize ≤ (open_ f []).file.length := by
      change 0 * pageSize + pageSize ≤ f.length
      omega
    rw [hroot,pageAt,pageAt,dif_pos (hbound data rfl),dif_pos (hbound _ hlen),Option.map_some]
    refine congrArg some (Page.ext (id_overlayAll _) ?_)
    rw [data_overlayAll]
    exact (slice_overlayRoot_zero hle).symm
  · have hq' : q.toNat ≠ 0 := fun h => hq (UInt32.toNat_inj.mp h)
    have hs := @slice_overlayRoot data images hle q.toNat hq'
    rw [hother q hq,pageAt,pageAt]
    change (if h : _ ≤ data.length then _ else _) =
      (if h : _ ≤ (overlayRoot images data).length then _ else _)
    by_cases hin : q.toNat * pageSize + pageSize ≤ data.length
    · rw [dif_pos hin,dif_pos (hlen.symm ▸ hin)]
      exact congrArg some (Page.ext rfl hs.symm)
    · rw [dif_neg hin,dif_neg (hlen.symm ▸ hin)]

end DiskManager

namespace StorageEngine
open TransactionManager BufferPoolManager DiskManager

variable {fuel n capacity : Nat} {e : StorageEngine}

theorem run_log {cs : List EngineCall} (h : Bare n e.txnManager) (hcs : ∀ c ∈ cs, c.Small)
    (hn : n + cs.length ≤ 2 ^ 28) : ∃ ops, (run fuel cs e).2.wal = (WalManager.run ops e.wal).2 ∧
      ∀ op ∈ ops, op.Rooted := by
  induction cs generalizing e n with
  | nil => exact ⟨[],rfl,fun op ho => (by cases ho)⟩
  | cons c cs ih =>
    rw [List.length_cons] at hn
    have hmoves := exec_moves c fuel e
    have heff := c.exec_effect fuel e
    rcases hc : c.exec fuel e with ⟨r,e'⟩
    obtain ⟨o,hm,hw,hf⟩ := (heff.of_eq hc).log
    have hrooted (op : WalOp) (ho : o = some op) : op.Rooted := by
      subst ho
      exact (hcs c List.mem_cons_self).rooted (h.count.trans (by omega)) hm
    by_cases hr : Lives r
    · obtain ⟨ops,hops,hall⟩ := ih (h.moves (hmoves.of_eq hc))
        (fun c' hc' => hcs c' (List.mem_cons_of_mem _ hc')) (by omega)
      rw [run_cons hc hr]
      cases o with
      | none =>
        have hw : e'.wal = e.wal := hw
        exact ⟨ops,by rw [hops,hw],hall⟩
      | some op =>
        have hw : e'.wal = (op.exec e.wal).2 := hw
        have hlive : (op.exec e.wal).1 ≠ .error .panic := fun hp => hr.1 (hf op rfl _ hp)
        refine ⟨op :: ops,?_,List.forall_mem_cons.mpr ⟨hrooted op rfl,hall⟩⟩
        rw [WalManager.run_cons (Prod.mk.eta).symm hlive,hops,hw]
    · rw [run_cons_dead hc hr]
      cases o with
      | none => exact ⟨[],hw,fun op ho => (by cases ho)⟩
      | some op =>
        refine ⟨[op],hw.trans ?_,List.forall_mem_singleton.mpr (hrooted op rfl)⟩
        by_cases hp : (op.exec e.wal).1 = .error .panic
        · rcases hx : op.exec e.wal with ⟨x,w⟩
          rw [hx] at hp
          cases hp
          simp only [WalManager.run,hx,Option.elim]
        · rw [WalManager.run_cons (Prod.mk.eta).symm hp]
          rfl

theorem session_log {dir : Directory} (hlog : dir.log = [])
    {diskFaults walFaults : List (Option Nat)}
    (hopen : open_ (mount dir capacity diskFaults walFaults) = (.ok (),e)) {cs : List EngineCall}
    (hcs : ∀ c ∈ cs, c.Small) (hn : cs.length ≤ 2 ^ 28) :
    (run fuel cs e).2.wal.Durable [] 0 0 ∧ ∀ r ∈ (run fuel cs e).2.wal.appended, r.Rooted := by
  obtain ⟨rs,fs,hread,hw⟩ := (open_wal dir capacity diskFaults walFaults).of_eq hopen rfl
  obtain ⟨happ,hnew⟩ := (open_appended dir capacity diskFaults walFaults).of_eq hopen
  rw [hlog] at hread hw
  have hnil : rs = [] := by cases hread; rfl
  subst hnil
  have hw : e.wal = .opened [] (.onFile [] fs) := hw.elim id id
  obtain ⟨ops,hops,hall⟩ := @run_log fuel 0 e cs (hnew ▸ bare_new) hcs (by omega)
  obtain ⟨-,hd,-⟩ := (WalManager.Logged.opened [] [] fs).run_durable
    (fun op ho => (hall op ho).fits)
    (UInt64.add_zero _).symm
  refine ⟨by rw [hops,hw]; exact hd 0 (.opened [] [] fs),fun r hr => ?_⟩
  rw [hops] at hr
  rcases WalManager.run_entries ops e.wal hr with hr | ⟨op,ho,next,last,hentry⟩
  · rw [happ] at hr
    cases hr
  · exact (hall op ho).entry hentry

theorem open_found {data log : Bytes} {w : WalManager}
    (h0 : (DiskManager.open_ data []).numPages ≠ 0)
    (hw : WalManager.open_ (.onFile log []) = (.ok (),w)) :
    open_ (mount ⟨data,log⟩ capacity [] []) =
      recover { mount ⟨data,log⟩ capacity [] [] with wal := w } := by
  have htree : openTree { mount ⟨data,log⟩ capacity [] [] with wal := w } =
      (.ok (),{ mount ⟨data,log⟩ capacity [] [] with wal := w }) := by
    rw [openTree,Prog.get_bind_run,
      if_neg (show ¬ (mount ⟨data,log⟩ capacity [] []).pool.disk.numPages = 0
      from h0)]
    rfl
  rw [open_,Prog.bind_ok (onWal_ok hw),Prog.bind_ok htree]

theorem reopen_overlays_root {dir : Directory} (hlog : dir.log = [])
    {diskFaults walFaults : List (Option Nat)}
    (hopen : open_ (mount dir capacity diskFaults walFaults) = (.ok (),e)) {cs : List EngineCall}
    (hcs : ∀ c ∈ cs, c.Small) (hn : cs.length ≤ 2 ^ 28) (fuel cut : Nat) {data : Bytes}
    (h0 : (DiskManager.open_ data []).numPages ≠ 0) {capacity' : Nat} (hc : 1 ≤ capacity') :
    ∃ m s, readAll LogRecord.deserialize ((run fuel cs e).2.wal.file.take cut) =
        .ok ((run fuel cs e).2.wal.appended.take m) ∧
      open_ (mount ⟨data,(run fuel cs e).2.wal.file.take cut⟩ capacity' [] []) = (.ok (),s) ∧
      s.directory.data = overlayRoot (rootImages ((run fuel cs e).2.wal.appended.take m)) data := by
  obtain ⟨hd,hrooted⟩ := @session_log fuel _ _ _ hlog _ _ hopen _ hcs hn
  obtain ⟨m,hread,hwal⟩ := hd.reads cut
  set rs := (run fuel cs e).2.wal.appended.take m with hrs
  have hall : ∀ r ∈ rs, r.Rooted := fun r hr => hrooted r (List.mem_of_mem_take hr)
  obtain ⟨actions,hact⟩ := recoveryActions_total fun r hr => (hall r hr).images
  have hrec := WalManager.recover_calm (w := WalManager.opened rs (.onFile _ [])) rfl hread hact
  rw [open_found h0 hwal]
  obtain ⟨s,d,hs,hfile,hdisk,hnum,hat⟩ := recover_file
    (e := { mount ⟨data,(run fuel cs e).2.wal.file.take cut⟩ capacity' [] [] with
      wal := WalManager.opened rs (.onFile ((run fuel cs e).2.wal.file.take cut) []) })
    rfl hc rfl (congrArg Prod.fst hrec)
  refine ⟨m,s,hread,hs,?_⟩
  have hbody : d.file = overlayRoot (rootImages rs) (body data) := by
    refine Healthy.file_overlay (healthy_body data) (numPages_body data ▸ h0) hdisk
      (hnum.trans (numPages_body data).symm) ?_ (fun q hq => ?_)
    · rw [hat,imagesFor_root hact]
    · rw [hat,imagesFor_other hact hall hq]
      exact Option.map_id_apply
  have hle : pageSize ≤ (body data).length := by
    rw [length_body]
    exact Nat.le_mul_of_pos_left _ (Nat.pos_of_ne_zero fun h => h0 (UInt32.toNat_inj.mp h))
  rw [hfile,hbody,overlayRoot_append hle]
  exact congrArg _ (List.take_append_drop ..)

def committedPut : List EngineCall := [.begin,.txnPut 1 [1] [2],.commit 1]

-- The committed value ends up in the first byte of the root page.
theorem reopen_overlays_root_commit : ∃ e, open_ (mount ⟨[],[]⟩ 4 [] []) = (.ok (),e) ∧
    (∀ c ∈ committedPut, c.Small) ∧ (DiskManager.open_ blankFile []).numPages ≠ 0 ∧
    ∃ s, open_ (mount ⟨blankFile,(run 1 committedPut e).2.wal.file.take 200⟩ 1 [] []) = (.ok (),s) ∧
      s.directory.data = overlayRoot [[2]] blankFile := by
  have hopen := Prog.run_eq (m := open_) (r := .ok ()) (s := mount ⟨[],[]⟩ 4 [] [])
    (by decide +kernel)
  have hcs : ∀ c ∈ committedPut, c.Small := by
    refine List.forall_mem_cons.mpr ⟨trivial,List.forall_mem_cons.mpr ⟨?_,
      List.forall_mem_cons.mpr ⟨trivial,fun c hc => (by cases hc)⟩⟩⟩
    change (WalOp.pageWrite 1 0 [1] [2]).PayloadFits
    decide
  have h0 : (DiskManager.open_ blankFile []).numPages ≠ 0 := by
    rw [numPages_page length_blankFile]
    decide
  obtain ⟨m,s,hread,hs,hdata⟩ := reopen_overlays_root rfl hopen hcs (by decide) 1 200 h0 le_rfl
  refine ⟨_,hopen,hcs,h0,s,hs,?_⟩
  have himages : (readAll LogRecord.deserialize ((run 1 committedPut
      (open_ (mount ⟨[],[]⟩ 4 [] [])).2).2.wal.file.take 200)).map rootImages = .ok [[2]] := by
    decide +kernel
  rw [hread] at himages
  rw [hdata,Except.ok.inj himages]

theorem open_idle_eq {data log : Bytes} {w : WalManager} {actions : RecoveryActions}
    (h0 : (DiskManager.open_ data []).numPages ≠ 0)
    (hw : WalManager.open_ (.onFile log []) = (.ok (),w))
    (hr : WalManager.recover w = (.ok actions,w)) (hnil : actions.redo = [] ∧ actions.undo = []) :
    open_ (mount ⟨data,log⟩ capacity [] []) =
      (.ok (),{ mount ⟨data,log⟩ capacity [] [] with wal := w }) := by
  rw [open_found h0 hw,recover,Prog.bind_ok (onWal_ok hr),if_pos hnil]
  rfl

theorem open_idle {data log : Bytes} {w : WalManager} {actions : RecoveryActions}
    (h0 : (DiskManager.open_ data []).numPages ≠ 0)
    (hw : WalManager.open_ (.onFile log []) = (.ok (),w))
    (hr : WalManager.recover w = (.ok actions,w)) (hnil : actions.redo = [] ∧ actions.undo = []) :
    ∃ s, open_ (mount ⟨data,log⟩ capacity [] []) = (.ok (),s) ∧ s.directory = ⟨data,log⟩ := by
  obtain ⟨rs,fs,-,-,rfl⟩ := (WalManager.open_spec log []).of_eq hw rfl
  exact ⟨_,open_idle_eq h0 hw hr hnil,rfl⟩

theorem recover_truncates {actions : RecoveryActions}
    (hr : WalManager.recover e.wal = (.ok actions,e.wal))
    (hne : ¬ (actions.redo = [] ∧ actions.undo = [])) :
    Prog.Spec recover e (fun r e' => r = .ok () → e'.wal.file = []) := by
  rw [Prog.Spec,recover,Prog.bind_ok (onWal_ok hr),if_neg hne,Prog.get_bind_run]
  change Prog.Spec (onPool (applyImages e.pool.disk.numPages actions.redo) >>= _) e
    (fun r e' => r = .ok () → e'.wal.file = [])
  refine Prog.Spec.bind (Q := fun _ _ => True) trivial (fun _ e1 _ => ?_)
    (fun _ _ _ h => (by cases h))
  refine Prog.Spec.bind (Q := fun _ _ => True) trivial (fun _ e2 _ => ?_)
    (fun _ _ _ h => (by cases h))
  refine Prog.Spec.bind (Q := fun _ _ => True) trivial (fun _ e3 _ hok => ?_)
    (fun _ _ _ h => (by cases h))
  obtain ⟨fs,ht⟩ := WalManager.truncate_spec e3.wal hok
  exact congrArg WalManager.file ht

theorem reopen_settles {data log : Bytes} {w : WalManager} {actions : RecoveryActions}
    (h0 : (DiskManager.open_ data []).numPages ≠ 0)
    (hw : WalManager.open_ (.onFile log []) = (.ok (),w))
    (hr : WalManager.recover w = (.ok actions,w)) (hc : 1 ≤ capacity) (capacity' : Nat) :
    ∃ s s', open_ (mount ⟨data,log⟩ capacity [] []) = (.ok (),s) ∧
      open_ (mount s.directory capacity' [] []) = (.ok (),s') ∧ s'.directory = s.directory := by
  by_cases hnil : actions.redo = [] ∧ actions.undo = []
  · obtain ⟨s,hs,hdir⟩ := @open_idle capacity _ _ _ _ h0 hw hr hnil
    obtain ⟨s',hs',hdir'⟩ := @open_idle capacity' _ _ _ _ h0 hw hr hnil
    exact ⟨s,s',hs,hdir ▸ hs',hdir'.trans hdir.symm⟩
  · have hcalm : w.faults = [] := by
      obtain ⟨rs,fs,hread,hb,-⟩ := (WalManager.open_spec log []).of_eq hw rfl
      rw [WalManager.open_calm hread hb] at hw
      cases hw
      rfl
    obtain ⟨s,d,hs,hfile,hdisk,hnum,-⟩ := recover_file
      (e := { mount ⟨data,log⟩ capacity [] [] with wal := w }) rfl hc hcalm (congrArg Prod.fst hr)
    have hlog : s.directory.log = [] := (recover_truncates hr hnil).of_eq hs rfl
    have hlen : s.directory.data.length = data.length := by
      have hrest : body data ++ rest data = data := List.take_append_drop ..
      rw [hfile,List.length_append,hdisk.whole,hnum,← length_body,← List.length_append,hrest]
    have hnum' : (DiskManager.open_ s.directory.data []).numPages ≠ 0 := by
      change UInt32.ofNat _ ≠ 0
      rw [hlen]
      exact h0
    have hempty : WalManager.open_ (.onFile [] []) = (.ok (),.opened [] (.onFile [] [])) := rfl
    obtain ⟨s',hs',hdir⟩ := @open_idle capacity' _ _ _ _ hnum' hempty rfl ⟨rfl,rfl⟩
    have hsame : s.directory = ⟨s.directory.data,[]⟩ := by rw [← hlog]
    exact ⟨s,s',(open_found h0 hw).trans hs,hsame ▸ hs',hdir.trans hsame.symm⟩

theorem reopen_settles_redo : ∃ s s', open_ (mount ⟨blankFile,redoLog⟩ 1 [] []) = (.ok (),s) ∧
    open_ (mount s.directory 1 [] []) = (.ok (),s') ∧ s'.directory = s.directory := by
  have h0 : (DiskManager.open_ blankFile []).numPages ≠ 0 := by
    rw [numPages_page length_blankFile]
    decide
  have hread : readAll LogRecord.deserialize redoLog = .ok redoRecords := by decide +kernel
  have hact : recoveryActions redoRecords = .ok redoActions := by decide +kernel
  exact reopen_settles h0 (WalManager.open_calm hread (by decide))
    (WalManager.recover_calm rfl hread hact) le_rfl 1

end StorageEngine

end StorageDb
