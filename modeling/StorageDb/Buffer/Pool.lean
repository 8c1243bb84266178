import Mathlib.Tactic
import StorageDb.Disk.DiskManager

namespace StorageDb

structure BufferFrame where
  page : Page
  pinCount : Nat
  dirty : Bool
  refBit : Bool

structure BufferPoolManager where
  frames : List (Option BufferFrame)
  pageTable : PageId → Option Nat
  freeList : List Nat
  clockHand : Nat
  capacity : Nat
  disk : DiskManager

namespace BufferPoolManager

def new (disk : DiskManager) (capacity : Nat) : BufferPoolManager where
  frames := List.replicate capacity none
  pageTable := fun _ => none
  freeList := List.range capacity
  clockHand := 0
  capacity := capacity
  disk := disk

def onDisk {α : Type} (m : Prog Error DiskManager α) : Prog Error BufferPoolManager α :=
  Prog.zoom disk (fun d p => { p with disk := d }) m

def setFrame (i : Nat) (f : Option BufferFrame) (p : BufferPoolManager) : BufferPoolManager :=
  { p with frames := p.frames.set i f }

def mapPage (pageId : PageId) (i : Option Nat) (p : BufferPoolManager) : BufferPoolManager :=
  { p with pageTable := Function.update p.pageTable pageId i }

def advance (p : BufferPoolManager) : BufferPoolManager :=
  { p with clockHand := (p.clockHand + 1) % p.capacity }

-- frames[idx].as_mut().unwrap(): an index out of range or an empty frame panics.
def frameAt (i : Nat) : Prog Error BufferPoolManager BufferFrame := do
  let p ← Prog.get
  Prog.ofOption (p.frames[i]?.join)

-- Evicts the frame under the clock hand.
def evict (f : BufferFrame) : Prog Error BufferPoolManager Nat := do
  if f.dirty then onDisk (DiskManager.writePage f.page)
  let p ← Prog.get
  Prog.modify (fun p => advance (setFrame p.clockHand none (mapPage f.page.id none p)))
  pure p.clockHand

def clearRef (f : BufferFrame) : Prog Error BufferPoolManager Unit :=
  Prog.modify (fun p => setFrame p.clockHand (some { f with refBit := false }) p)

-- One step of either loop: evict the frame under the hand, or move the hand on. The first loop
-- spares a frame whose reference bit is set.
def clockStep (spare : Bool) : Prog Error BufferPoolManager (Option Nat) := do
  let p ← Prog.get
  let slot ← Prog.ofOption p.frames[p.clockHand]?
  match slot with
  | some f =>
    if f.pinCount = 0 then
      if spare && f.refBit then do
        clearRef f
        Prog.modify advance
        pure none
      else do
        let i ← evict f
        pure (some i)
    else do
      Prog.modify advance
      pure none
  | none => do
    Prog.modify advance
    pure none

def lastPass : Nat → Prog Error BufferPoolManager Nat
  | 0 => Prog.fail (.err .bufferPoolFull)
  | n + 1 => do
    let victim ← clockStep false
    match victim with
    | some i => pure i
    | none => lastPass n

-- After as many steps as the capacity the hand is back at start; without frames the first step
-- panics.
def clockLoop (start : Nat) : Nat → Prog Error BufferPoolManager Nat
  | 0 => Prog.fail .hang
  | fuel + 1 => do
    let victim ← clockStep true
    match victim with
    | some i => pure i
    | none => do
      let p ← Prog.get
      if p.clockHand = start then lastPass p.capacity else clockLoop start fuel

def getFreeFrame : Prog Error BufferPoolManager Nat := do
  let p ← Prog.get
  match p.freeList with
  | i :: rest => do
    Prog.modify (fun p => { p with freeList := rest })
    pure i
  | [] => clockLoop p.clockHand (p.capacity + 1)

def install (pageId : PageId) (i : Nat) (f : BufferFrame) : Prog Error BufferPoolManager Unit := do
  let p ← Prog.get
  if i < p.frames.length then
    Prog.modify (fun p => mapPage pageId (some i) (setFrame i (some f) p))
  else Prog.fail .panic

-- pin_count is a u32; its overflow panics.
def pin (i : Nat) (f : BufferFrame) : Prog Error BufferPoolManager Unit :=
  if f.pinCount + 1 < 2 ^ 32 then
    Prog.modify (setFrame i (some { f with pinCount := f.pinCount + 1 }))
  else Prog.fail .panic

def fetchPage (pageId : PageId) : Prog Error BufferPoolManager Page := do
  let p ← Prog.get
  match p.pageTable pageId with
  | some i => do
    let f ← frameAt i
    pin i { f with refBit := true }
    pure f.page
  | none => do
    let i ← getFreeFrame
    let page ← onDisk (DiskManager.readPage pageId)
    install pageId i ⟨page,1,false,true⟩
    pure page

-- The result is the frame that the returned reference points into.
def fetchPageMut (pageId : PageId) : Prog Error BufferPoolManager Nat := do
  let p ← Prog.get
  if (p.pageTable pageId).isNone then do
    let i ← getFreeFrame
    let page ← onDisk (DiskManager.readPage pageId)
    install pageId i ⟨page,0,false,true⟩
  let p ← Prog.get
  let i ← Prog.ofOption (p.pageTable pageId)
  let f ← frameAt i
  pin i { f with dirty := true, refBit := true }
  pure i

-- A store through the reference that fetch_page_mut returned.
def modifyPage (i : Nat) (g : Page → Page) : Prog Error BufferPoolManager Unit := do
  let f ← frameAt i
  Prog.modify (setFrame i (some { f with page := g f.page }))

def unpinPage (pageId : PageId) (dirty : Bool) : Prog Error BufferPoolManager Unit := do
  let p ← Prog.get
  match p.pageTable pageId with
  | some i => do
    let f ← frameAt i
    Prog.modify (setFrame i (some { f with pinCount := f.pinCount - 1, dirty := f.dirty || dirty }))
  | none => Prog.fail (.err (.pageNotFound pageId))

def newPage : Prog Error BufferPoolManager PageId := do
  let pageId ← onDisk DiskManager.allocatePage
  let i ← getFreeFrame
  install pageId i ⟨Page.new pageId,1,true,true⟩
  pure pageId

def flushPage (pageId : PageId) : Prog Error BufferPoolManager Unit := do
  let p ← Prog.get
  match p.pageTable pageId with
  | some i => do
    let f ← frameAt i
    if f.dirty then do
      onDisk (DiskManager.writePage f.page)
      Prog.modify (setFrame i (some { f with dirty := false }))
  | none => pure ()

def flushFrames : List Nat → Prog Error BufferPoolManager Unit
  | [] => pure ()
  | i :: is => do
    let p ← Prog.get
    let slot ← Prog.ofOption p.frames[i]?
    match slot with
    | some f => do
      if f.dirty then onDisk (DiskManager.writePage f.page)
      Prog.modify (setFrame i (some { f with dirty := false }))
    | none => pure ()
    flushFrames is

def flushAll : Prog Error BufferPoolManager Unit := do
  let p ← Prog.get
  flushFrames (List.range p.capacity)
  onDisk DiskManager.sync

end BufferPoolManager

end StorageDb
