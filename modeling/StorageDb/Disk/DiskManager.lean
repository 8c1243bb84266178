import Mathlib.Tactic
import StorageDb.Lib.Prog
import StorageDb.Disk.Page

namespace StorageDb
open Bytes

inductive Error where
  | io
  | pageNotFound (pageId : PageId)
  | walCorrupted (msg : String)
  | bufferPoolFull
  | transactionAborted (txnId : UInt64)
  | lockConflict (txnId : UInt64)
  | checksumMismatch (expected actual : UInt32)
  deriving DecidableEq, Repr

-- faults schedules the system calls to come: some n fails after n bytes are transferred, none
-- and the end of the list succeed. history records every page version given to the file.
structure DiskManager where
  file : Bytes
  numPages : UInt32
  faults : List (Option Nat)
  history : List (PageId × Bytes)

namespace DiskManager

def open_ (file : Bytes) (faults : List (Option Nat)) : DiskManager where
  file := file
  numPages := UInt32.ofNat (file.length / pageSize)
  faults := faults
  history := []

def tick : Prog Error DiskManager (Option Nat) := fun d =>
  (.ok (d.faults.headD none),{ d with faults := d.faults.tail })

def readPage (pageId : PageId) : Prog Error DiskManager Page := do
  let fault ← tick
  let d ← Prog.get
  let offset := pageId.toNat * pageSize
  if fault.isSome then Prog.fail (.err .io)
  else if h : offset + pageSize ≤ d.file.length then
    pure (Page.fromBytes pageId (slice d.file offset pageSize) (length_slice h))
  else Prog.fail (.err .io)

def writeAt (offset : Nat) (src : Bytes) : Prog Error DiskManager Unit := do
  let fault ← tick
  match fault with
  | none => Prog.modify (fun d => { d with file := overwrite d.file offset src })
  | some n => do
    Prog.modify (fun d => { d with file := overwrite d.file offset (src.take n) })
    Prog.fail (.err .io)

def writePage (page : Page) : Prog Error DiskManager Unit := do
  writeAt (page.id.toNat * pageSize) page.data
  Prog.modify (fun d => { d with history := (page.id,page.data) :: d.history })

def allocatePage : Prog Error DiskManager PageId := do
  let d ← Prog.get
  let pageId := d.numPages
  Prog.modify (fun d => { d with numPages := pageId + 1 })
  let endOffset := (pageId.toNat + 1) * pageSize
  writeAt (endOffset - 1) [0]
  Prog.modify (fun d => { d with history := (pageId,(Page.zero pageId).data) :: d.history })
  pure pageId

def sync : Prog Error DiskManager Unit := do
  let fault ← tick
  if fault.isSome then Prog.fail (.err .io) else pure ()

def pageAt (d : DiskManager) (pageId : PageId) : Option Page :=
  if h : pageId.toNat * pageSize + pageSize ≤ d.file.length then
    some (Page.fromBytes pageId (slice d.file (pageId.toNat * pageSize) pageSize) (length_slice h))
  else none

structure Healthy (d : DiskManager) : Prop where
  calm : d.faults = []
  whole : d.file.length = d.numPages.toNat * pageSize

def store (page : Page) (d : DiskManager) : DiskManager :=
  { d with
    file := overwrite d.file (page.id.toNat * pageSize) page.data
    history := (page.id,page.data) :: d.history }

def extend (d : DiskManager) : DiskManager where
  file := overwrite d.file ((d.numPages.toNat + 1) * pageSize - 1) [0]
  numPages := d.numPages + 1
  faults := d.faults
  history := (d.numPages,(Page.zero d.numPages).data) :: d.history

variable {d : DiskManager} {p q : PageId} {pg : Page}

theorem pageAt_id (h : d.pageAt p = some pg) : pg.id = p := by
  rw [pageAt] at h
  split_ifs at h
  cases h
  rfl

theorem Healthy.pageAt_isSome (h : Healthy d) :
    (d.pageAt p).isSome = true ↔ p.toNat < d.numPages.toNat := by
  have hw := h.whole
  rw [pageAt]
  split_ifs with hp
  · rw [hw,pageSize_eq] at hp
    simp only [Option.isSome_some,true_iff]
    omega
  · rw [hw,pageSize_eq] at hp
    simp only [Option.isSome_none,Bool.false_eq_true,false_iff]
    omega

theorem Healthy.reopen (h : Healthy d) : Healthy (open_ d.file []) ∧
    (open_ d.file []).numPages = d.numPages ∧ (open_ d.file []).pageAt = d.pageAt := by
  have hn : (open_ d.file []).numPages = d.numPages := by
    change UInt32.ofNat (d.file.length / pageSize) = _
    rw [h.whole,Nat.mul_div_cancel _ (by decide),UInt32.ofNat_toNat]
  exact ⟨⟨rfl,hn ▸ h.whole⟩,hn,rfl⟩

theorem getElem?_pageAt (hp : d.pageAt p = some pg) {r : Nat} (hr : r < pageSize) :
    d.file[p.toNat * pageSize + r]? = pg.data[r]? := by
  rw [pageAt] at hp
  split_ifs at hp
  cases hp
  exact ((getElem?_slice ..).trans (if_pos hr)).symm

theorem Healthy.file_eq {d' : DiskManager} (h : Healthy d) (h' : Healthy d')
    (hn : d'.numPages = d.numPages) (hp : d'.pageAt = d.pageAt) : d'.file = d.file := by
  have hw := h.whole
  have hw' := h'.whole
  rw [hn,← hw] at hw'
  refine List.ext_getElem? fun k => ?_
  by_cases hk : k < d.file.length
  · have hq : k / pageSize < d.numPages.toNat := Nat.div_lt_of_lt_mul (by rw [Nat.mul_comm]; omega)
    have hto : (UInt32.ofNat (k / pageSize)).toNat = k / pageSize :=
      UInt32.toNat_ofNat_of_lt' (hq.trans d.numPages.toNat_lt)
    obtain ⟨pg,hpg⟩ := Option.isSome_iff_exists.mp
      (h.pageAt_isSome (p := UInt32.ofNat (k / pageSize)).mpr (by rwa [hto]))
    have hr : k % pageSize < pageSize := Nat.mod_lt _ (by decide)
    have h1 := getElem?_pageAt hpg hr
    have h2 := getElem?_pageAt ((congrFun hp _).trans hpg) hr
    rw [hto,Nat.div_add_mod'] at h1 h2
    exact h2.trans h1.symm
  · rw [List.getElem?_eq_none (by omega),List.getElem?_eq_none (by omega)]

theorem tick_calm (h : d.faults = []) : tick d = (.ok none,d) := by
  cases d
  cases h
  rfl

theorem readPage_eq (h : d.faults = []) (hp : d.pageAt p = some pg) :
    readPage p d = (.ok pg,d) := by
  rw [pageAt] at hp
  split_ifs at hp with hb
  cases hp
  rw [readPage,Prog.bind_ok (tick_calm h)]
  simp only [Prog.get_bind_run,Option.isSome_none,Bool.false_eq_true,if_false,dif_pos hb]
  rfl

theorem writeAt_eq (h : d.faults = []) (off : Nat) (src : Bytes) :
    writeAt off src d = (.ok (),{ d with file := overwrite d.file off src }) := by
  rw [writeAt,Prog.bind_ok (tick_calm h)]
  rfl

theorem writePage_eq (h : d.faults = []) (pg : Page) : writePage pg d = (.ok (),d.store pg) := by
  rw [writePage,Prog.bind_ok (writeAt_eq h _ _)]
  rfl

theorem allocatePage_eq (h : d.faults = []) : allocatePage d = (.ok d.numPages,d.extend) := by
  have hw := writeAt_eq (d := { d with numPages := d.numPages + 1 }) h
    ((d.numPages.toNat + 1) * pageSize - 1) [0]
  simp only [allocatePage,Prog.get_bind_run,Prog.modify_bind_run]
  rw [Prog.bind_ok hw]
  rfl

theorem sync_eq (h : d.faults = []) : sync d = (.ok (),d) := by
  rw [sync,Prog.bind_ok (tick_calm h)]
  rfl

section store

variable (h : Healthy d) (hp : pg.id.toNat < d.numPages.toNat)
include h hp

theorem Healthy.file_store : (d.store pg).file = splice d.file (pg.id.toNat * pageSize) pg.data :=
  overwrite_inside (by rw [h.whole,pg.size,pageSize_eq]; omega)

theorem Healthy.store : Healthy (d.store pg) where
  calm := h.calm
  whole := by
    rw [h.file_store hp,length_splice (by rw [h.whole,pg.size,pageSize_eq]; omega),h.whole]
    rfl

theorem Healthy.pageAt_store (q : PageId) :
    (d.store pg).pageAt q = if q = pg.id then some pg else d.pageAt q := by
  have hb : pg.id.toNat * pageSize + pg.data.length ≤ d.file.length := by
    rw [h.whole,pg.size,pageSize_eq]
    omega
  have hl : (d.store pg).file.length = d.file.length := by rw [h.file_store hp,length_splice hb]
  split_ifs with hq
  · subst hq
    rw [pg.size] at hb
    rw [pageAt,dif_pos (by rw [hl]; exact hb)]
    refine congrArg some (Page.ext rfl ?_)
    change slice (d.store pg).file (pg.id.toNat * pageSize) pageSize = pg.data
    rw [h.file_store hp,← pg.size,slice_splice_same (by rw [pg.size]; exact hb)]
  · have hne : q.toNat ≠ pg.id.toNat := fun e => hq (UInt32.toNat_inj.mp e)
    have hs : slice (d.store pg).file (q.toNat * pageSize) pageSize =
        slice d.file (q.toNat * pageSize) pageSize := by
      rw [h.file_store hp]
      refine slice_splice_disjoint hb ?_
      rw [pg.size,pageSize_eq]
      omega
    simp only [pageAt,hl,hs]

end store

section extend

variable (h : Healthy d) (hn : d.numPages.toNat + 1 < 2 ^ 32)
include h

theorem Healthy.file_extend : d.extend.file = d.file ++ List.replicate pageSize 0 := by
  have he : (d.numPages.toNat + 1) * pageSize - 1 = d.file.length + pageSize - 1 := by
    rw [h.whole,Nat.succ_mul]
  have hf : d.extend.file = overwrite d.file ((d.numPages.toNat + 1) * pageSize - 1) [0] := rfl
  rw [hf,he,overwrite_zero_past (by decide)]

theorem pageAt_extend (hq : q.toNat < d.numPages.toNat) : d.extend.pageAt q = d.pageAt q := by
  have hb : q.toNat * pageSize + pageSize ≤ d.file.length := by
    rw [h.whole,pageSize_eq]
    omega
  have hb' : q.toNat * pageSize + pageSize ≤ d.extend.file.length := by
    rw [h.file_extend,List.length_append]
    omega
  rw [pageAt,pageAt,dif_pos hb,dif_pos hb']
  refine congrArg some (Page.ext rfl ?_)
  change slice d.extend.file _ _ = slice d.file _ _
  rw [h.file_extend,slice_append_left hb]

include hn

omit h in
theorem numPages_extend : d.extend.numPages.toNat = d.numPages.toNat + 1 := by
  change (d.numPages + 1).toNat = _
  rw [UInt32.toNat_add,UInt32.toNat_one,Nat.mod_eq_of_lt hn]

theorem Healthy.extend : Healthy d.extend where
  calm := h.calm
  whole := by
    rw [h.file_extend,numPages_extend hn,List.length_append,List.length_replicate,h.whole,
      Nat.succ_mul]

end extend

end DiskManager

end StorageDb
