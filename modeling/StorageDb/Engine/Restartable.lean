import Mathlib.Tactic
import StorageDb.Buffer.FileTail
import StorageDb.Engine.PageRecovery

namespace StorageDb
open Bytes Restart Prog

namespace StorageEngine
open BufferPoolManager

variable {p : BufferPoolManager} {e e' : StorageEngine} {tail : Bytes} {n : UInt32}
  {actions : RecoveryActions}

theorem applyImage_tailed (h : Snug n p) (pid : PageId) (image : Bytes) :
    Tailed tail n (applyImage n pid image) p := by
  rw [applyImage]
  split_ifs with hp
  · refine (h.fetchPageMut hp).then fun i p1 h1 => ?_
    exact (h1.modifyPage (g := Page.overlay image) (fun _ => rfl)).then fun _ p2 h2 =>
      h2.unpinPage true
  · exact carries_pure h

theorem applyImages_tailed (h : Snug n p) (images : List (PageId × Bytes)) :
    Tailed tail n (applyImages n images) p := by
  induction images generalizing p with
  | nil => exact carries_pure h
  | cons x images ih => exact (applyImage_tailed h x.1 x.2).then fun _ _ h => ih h

def addTail (tail : Bytes) (e : StorageEngine) : StorageEngine :=
  { e with pool := e.pool.addTail tail }

theorem onPool_tailed {α : Type} {m : Prog Error BufferPoolManager α} (h : Tailed tail n m e.pool) :
    Carries (addTail tail) (fun _ e => Snug n e.pool) (onPool m) e := by
  refine ⟨?_,h.2⟩
  rw [onPool,zoom,zoom,addTail]
  dsimp only
  rw [h.1]
  rfl

theorem onWal_tailed {α : Type} (m : Prog Error WalManager α) (h : Snug n e.pool) :
    Carries (addTail tail) (fun _ e => Snug n e.pool) (onWal m) e := ⟨rfl,h⟩

theorem recover_tailed (h : Snug n e.pool) :
    Carries (addTail tail) (fun _ e => Snug n e.pool) recover e := by
  refine (onWal_tailed _ h).bind (fun actions e h => ?_) (fun _ _ h => h)
  split_ifs
  · exact carries_pure h
  · refine carries_get_bind rfl ?_
    rw [h.pages]
    refine (onPool_tailed (applyImages_tailed h _)).bind (fun _ e h => ?_) (fun _ _ h => h)
    refine (onPool_tailed (applyImages_tailed h _)).bind (fun _ e h => ?_) (fun _ _ h => h)
    refine (onPool_tailed h.flushAll).bind (fun _ e h => ?_) (fun _ _ h => h)
    exact onWal_tailed _ h

end StorageEngine

namespace DiskManager

def body (file : Bytes) : Bytes := file.take ((open_ file []).numPages.toNat * pageSize)

def rest (file : Bytes) : Bytes := file.drop ((open_ file []).numPages.toNat * pageSize)

theorem length_body (file : Bytes) :
    (body file).length = (open_ file []).numPages.toNat * pageSize := by
  have h : (open_ file []).numPages.toNat = file.length / pageSize % 2 ^ 32 := UInt32.toNat_ofNat'
  have := Nat.mod_le (file.length / pageSize) (2 ^ 32)
  have := Nat.div_mul_le_self file.length pageSize
  rw [body,List.length_take,h]
  refine Nat.min_eq_left ((Nat.mul_le_mul_right _ ?_).trans this)
  assumption

theorem numPages_body (file : Bytes) :
    (open_ (body file) []).numPages = (open_ file []).numPages := by
  change UInt32.ofNat ((body file).length / pageSize) = _
  rw [length_body,Nat.mul_div_cancel _ (by decide),UInt32.ofNat_toNat]

theorem healthy_body (file : Bytes) : Healthy (open_ (body file) []) where
  calm := rfl
  whole := by
    rw [numPages_body]
    exact length_body file

theorem addTail_body (file : Bytes) : (open_ (body file) []).addTail (rest file) =
    open_ file [] := by
  rw [addTail,numPages_body]
  have : (open_ (body file) []).file ++ rest file = file := List.take_append_drop _ _
  rw [this]
  rfl

end DiskManager

namespace StorageEngine
open BufferPoolManager DiskManager

-- What an interrupted recovery may leave: each page has received the first images of its list.
structure Interrupted (actions : RecoveryActions) (file file' : Bytes) : Prop where
  length : file'.length = file.length
  page : ∀ q, q < (DiskManager.open_ file []).numPages → ∃ k,
    (DiskManager.open_ file' []).pageAt q = ((DiskManager.open_ file []).pageAt q).map
      (applyAll Page.overlay ((imagesFor q (actions.redo ++ actions.undo)).take k))
  rest : rest file' = rest file

variable {e : StorageEngine} {actions : RecoveryActions} {file : Bytes} {capacity : Nat}

theorem snug_new {disk : DiskManager} (h : disk.Healthy) (capacity : Nat) :
    Snug disk.numPages (.new disk capacity) := by
  refine ⟨h,rfl,fun i f hf => ?_⟩
  have hf : (List.replicate capacity (none : Option BufferFrame))[i]? = some (some f) := hf
  rw [List.getElem?_replicate] at hf
  split_ifs at hf
  simp at hf

theorem recover_file (hp : e.pool = .new (.open_ file []) capacity) (hc : 1 ≤ capacity)
    (hw : e.wal.faults = []) (hr : (WalManager.recover e.wal).1 = .ok actions) :
    ∃ s, ∃ d : DiskManager, recover e = (.ok (),s) ∧ s.directory.data = d.file ++ rest file ∧
      d.Healthy ∧ d.numPages = (DiskManager.open_ file []).numPages ∧
      ∀ q, d.pageAt q = ((DiskManager.open_ (body file) []).pageAt q).map
        (applyAll Page.overlay (imagesFor q (actions.redo ++ actions.undo))) := by
  obtain ⟨rs,hread,hact⟩ := (WalManager.recover_spec e.wal).of_eq (Prog.run_eq hr) actions rfl
  have hwal := WalManager.recover_calm hw hread hact
  have hb := healthy_body file
  obtain ⟨hq,hl⟩ := quiet_new hb hc
  obtain ⟨s,hs,h⟩ := recover_eq (e := { e with pool := .new (.open_ (body file) []) capacity })
    hq hl.symm hw hwal
  have he : e = addTail (rest file) { e with pool := .new (.open_ (body file) []) capacity } := by
    have hpool : e.pool = (new (.open_ (body file) []) capacity).addTail (rest file) := by
      rw [hp,BufferPoolManager.addTail]
      change _ = new ((DiskManager.open_ (body file) []).addTail (rest file)) capacity
      rw [addTail_body]
    rw [addTail,← hpool]
  obtain ⟨htail,-⟩ : Carries (addTail (rest file)) _ recover
    { e with pool := .new (.open_ (body file) []) capacity } :=
      recover_tailed (snug_new hb capacity)
  rw [← he,hs] at htail
  exact ⟨_,s.pool.disk,htail,rfl,h.quiet.inv.disk,h.pages.trans (numPages_body file),h.pageAt⟩

theorem pageAt_body {q : PageId} (hq : q < (DiskManager.open_ file []).numPages) :
    (DiskManager.open_ (body file) []).pageAt q = (DiskManager.open_ file []).pageAt q := by
  have hlt : q.toNat < (DiskManager.open_ (body file) []).numPages.toNat := by
    rw [numPages_body]
    exact UInt32.lt_iff_toNat_lt.mp hq
  obtain ⟨pg,hpg⟩ := Option.isSome_iff_exists.mp ((healthy_body file).pageAt_isSome.mpr hlt)
  rw [hpg,← addTail_body file,pageAt_addTail hpg]

theorem recover_restartable {e' : StorageEngine} {file' : Bytes} {capacity' : Nat}
    (hp : e.pool = .new (.open_ file []) capacity) (hc : 1 ≤ capacity)
    (hp' : e'.pool = .new (.open_ file' []) capacity') (hc' : 1 ≤ capacity')
    (hwal : e'.wal = e.wal) (hw : e.wal.faults = [])
    (hr : (WalManager.recover e.wal).1 = .ok actions) (hi : Interrupted actions file file') :
    ∃ s s', recover e = (.ok (),s) ∧ recover e' = (.ok (),s') ∧
      s'.directory.data = s.directory.data := by
  obtain ⟨s,d,hs,hf,hd,hn,hat⟩ := recover_file hp hc hw hr
  obtain ⟨s',d',hs',hf',hd',hn',hat'⟩ := recover_file hp' hc' (hwal ▸ hw) (hwal ▸ hr)
  have hnum : (DiskManager.open_ file' []).numPages = (DiskManager.open_ file []).numPages := by
    change UInt32.ofNat _ = UInt32.ofNat _
    rw [hi.length]
  refine ⟨s,s',hs,hs',?_⟩
  rw [hf,hf',hi.rest]
  congr 1
  refine hd.file_eq hd' (by rw [hn,hn',hnum]) (funext fun q => ?_)
  by_cases hq : q < (DiskManager.open_ file []).numPages
  · obtain ⟨k,hk⟩ := hi.page q hq
    rw [hat,hat',pageAt_body hq,pageAt_body (hnum ▸ hq),hk,Option.map_map]
    congr 1
    funext pg
    exact Page.overlay_absorbing.restart (fun i hmem => List.mem_of_mem_take hmem) pg
  · have hnone (d : DiskManager) (h : d.Healthy)
      (hn : d.numPages = (DiskManager.open_ file []).numPages) :
        d.pageAt q = none := by
      rw [← Option.not_isSome_iff_eq_none,h.pageAt_isSome,hn,← UInt32.lt_iff_toNat_lt]
      exact hq
    rw [hnone d hd hn,hnone d' hd' (hn'.trans hnum)]

-- Transaction 1 writes images of two lengths and commits, transaction 2 is in flight.
def redoRecords : List LogRecord := [.begin 1 1,.begin 2 2,.pageWrite 3 1 1 0 [] [7,8],
  .pageWrite 4 2 2 0 [1] [5],.pageWrite 5 1 3 0 [7,8] [9],.commit 6 1 5]

def redoLog : Bytes := redoRecords.flatMap LogRecord.serialize

def redoActions : RecoveryActions := ⟨[(0,[7,8]),(0,[9])],[(0,[1])],{1},{2}⟩

def blankFile : Bytes := List.replicate pageSize 0

-- The file after both redo images and before the undo image.
def partialFile : Bytes := 9 :: 8 :: List.replicate (pageSize - 2) 0

theorem length_blankFile : blankFile.length = pageSize := List.length_replicate

theorem length_partialFile : partialFile.length = pageSize := by
  rw [partialFile,List.length_cons,List.length_cons,List.length_replicate]
  rfl

theorem numPages_page {file : Bytes} (h : file.length = pageSize) :
    (DiskManager.open_ file []).numPages = 1 := by
  rw [DiskManager.open_,h]
  rfl

theorem rest_page {file : Bytes} (h : file.length = pageSize) : rest file = [] := by
  rw [rest,numPages_page h]
  exact List.drop_eq_nil_of_le (by rw [h]; rfl)

theorem pageAt_page {file : Bytes} (h : file.length = pageSize) :
    ∃ pg, (DiskManager.open_ file []).pageAt 0 = some pg ∧ pg.id = 0 ∧
      pg.data = slice file 0 pageSize := by
  have hle : (0 : PageId).toNat * pageSize + pageSize ≤ (DiskManager.open_ file []).file.length :=
    le_of_eq h.symm
  exact ⟨_,dif_pos hle,rfl,rfl⟩

theorem interrupted_partial : Interrupted redoActions blankFile partialFile where
  length := length_partialFile.trans length_blankFile.symm
  page q hq := by
    obtain rfl : q = 0 := by
      rw [numPages_page length_blankFile,UInt32.lt_one_iff] at hq
      exact hq
    obtain ⟨pg,hpg,hid,hdata⟩ := pageAt_page length_blankFile
    obtain ⟨pg',hpg',hid',hdata'⟩ := pageAt_page length_partialFile
    refine ⟨2,?_⟩
    rw [hpg,hpg',Option.map_some]
    refine congrArg some (Page.ext (hid'.trans hid.symm) ?_)
    change pg'.data = splice (splice pg.data 0 [7,8]) 0 [9]
    rw [hdata,hdata',slice,slice,List.drop_zero,List.drop_zero,
      List.take_of_length_le length_partialFile.le,List.take_of_length_le length_blankFile.le,
      splice,splice,blankFile,List.drop_replicate]
    rfl
  rest := (rest_page length_partialFile).trans (rest_page length_blankFile).symm

theorem recover_restartable_partial : ∃ s s',
    recover (mount ⟨blankFile,redoLog⟩ 1 [] []) = (.ok (),s) ∧
      recover (mount ⟨partialFile,redoLog⟩ 1 [] []) = (.ok (),s') ∧
      s'.directory.data = s.directory.data :=
  recover_restartable (e := mount ⟨blankFile,redoLog⟩ 1 [] []) rfl le_rfl
    (show (mount ⟨partialFile,redoLog⟩ 1 [] []).pool = _ from rfl) le_rfl rfl rfl
    (by decide +kernel) interrupted_partial

end StorageEngine

end StorageDb
