import Mathlib.Tactic
import StorageDb.Buffer.Pins
import StorageDb.Btree.Tree

namespace StorageDb

-- What the buffer pool is for: a page array without frames, pins or a disk. An error stands for
-- a page that does not exist or a page id that has run out.
structure FlatStore where
  pages : PageId → Option Page
  next : Nat

namespace FlatStore

def put (pg : Page) (s : FlatStore) : FlatStore :=
  { s with pages := Function.update s.pages pg.id (some pg) }

def grow (s : FlatStore) : FlatStore where
  pages := Function.update s.pages (UInt32.ofNat s.next) (some (Page.new (UInt32.ofNat s.next)))
  next := s.next + 1

def readNode (pageId : PageId) : Prog Error FlatStore BTreeNode := fun s =>
  match s.pages pageId with
  | some pg => (.ok ⟨pg⟩,s)
  | none => (.error (.err .io),s)

def writeNode (nd : BTreeNode) : Prog Error FlatStore Unit := fun s =>
  match s.pages nd.page.id with
  | some _ => (.ok (),s.put nd.sealed.page)
  | none => (.error (.err .io),s)

def allocatePage : Prog Error FlatStore PageId := fun s =>
  if s.next < invalidPageId.toNat then (.ok (UInt32.ofNat s.next),s.grow)
  else (.error (.err .io),s)

instance : NodeStore FlatStore where
  readNode := readNode
  writeNode := writeNode
  allocatePage := allocatePage

end FlatStore

namespace BufferPoolManager

def flat (p : BufferPoolManager) : FlatStore := ⟨p.lookup,p.disk.numPages.toNat⟩

def Models (p : BufferPoolManager) (s : FlatStore) : Prop := Quiet p ∧ p.flat = s

variable {p : BufferPoolManager} {pid : PageId} {pg : Page} {nd : BTreeNode}

theorem flat_congr {p p' : BufferPoolManager} (hl : p'.lookup = p.lookup)
    (hn : p'.disk.numPages = p.disk.numPages) : p'.flat = p.flat := by
  rw [flat,flat,hl,hn]

theorem Quiet.reopen (h : Quiet p) : ∃ p', flushAll p = (.ok (),p') ∧ Quiet p' ∧
    p'.flat = p.flat ∧ ∀ capacity, 1 ≤ capacity → Quiet (new (.open_ p'.disk.file []) capacity) ∧
      (new (.open_ p'.disk.file []) capacity).flat = p.flat := by
  obtain ⟨p',hflush,hinv,hk,hpages⟩ := h.inv.flushAll_spec
  obtain ⟨hd,hn,hat⟩ := hinv.disk.reopen
  refine ⟨p',hflush,⟨hinv,h.keeps hk⟩,flat_congr hk.lookup hk.pages,fun capacity hc => ?_⟩
  obtain ⟨hq,hlook⟩ := quiet_new hd hc
  exact ⟨hq,flat_congr (hlook.trans (hat.trans hpages)) (hn.trans hk.pages)⟩

theorem Idle.readNode_eq {held : List Nat} {lost : Nat} (h : Idle held lost p)
    (hl : p.lookup pid = some pg) :
    ∃ p', readNode pid p = (.ok ⟨pg⟩,p') ∧ Idle held lost p' ∧ p'.flat = p.flat := by
  obtain ⟨i,f,p1,hfetch,h1,hpage,hpin,hl1,hn1⟩ := h.fetchPage_eq hl
  obtain ⟨p2,hun,h2,hl2,hn2⟩ := h1.unpinPage_eq false
  rw [hpage,h.inv.lookup_id hl] at hun
  refine ⟨p2,?_,h2.idle (by simp [hpin]),flat_congr (hl2.trans hl1) (hn2.trans hn1)⟩
  rw [readNode,Prog.bind_ok hfetch,Prog.bind_ok hun]
  rfl

theorem Quiet.readNode_eq (h : Quiet p) (hl : p.lookup pid = some pg) :
    ∃ p', readNode pid p = (.ok ⟨pg⟩,p') ∧ Quiet p' ∧ p'.flat = p.flat := by
  obtain ⟨p',hread,h',hflat⟩ := h.idle.readNode_eq hl
  exact ⟨p',hread,h'.quiet,hflat⟩

theorem Quiet.writeNode_eq (h : Quiet p) (hl : p.lookup nd.page.id = some pg) :
    ∃ p', writeNode nd p = (.ok (),p') ∧ Quiet p' ∧ p'.flat = p.flat.put nd.sealed.page := by
  have hid := h.inv.lookup_id hl
  obtain ⟨i,p1,hfetch,h1,hl1,hn1⟩ := h.idle.fetchPageMut_eq hl
  obtain ⟨p2,hmod,h2,hput⟩ := h1.modifyPage_eq (g := nd.sealed.page.copyData) rfl rfl
  have hcopy : nd.sealed.page.copyData pg = nd.sealed.page := Page.ext hid rfl
  obtain ⟨p3,hun,h3,hl3,hn3⟩ := h2.unpinPage_eq true
  have hpid : (nd.sealed.page.copyData pg).id = nd.page.id := hid
  simp only [hpid] at hun
  refine ⟨p3,?_,h3.quiet rfl,?_⟩
  · rw [writeNode,Prog.bind_ok hfetch,Prog.bind_ok hmod,hun]
  · rw [flat_congr hl3 hn3,flat,flat,hput.lookup,hput.pages,hl1,hn1]
    simp only [hcopy]
    rfl

theorem Quiet.allocatePage_eq (h : Quiet p) (hn : p.disk.numPages.toNat < invalidPageId.toNat) :
    ∃ p', allocatePage p = (.ok (UInt32.ofNat p.flat.next),p') ∧ Quiet p' ∧
      p'.flat = p.flat.grow := by
  have hlt : p.disk.numPages.toNat + 1 < 2 ^ 32 := by
    have : invalidPageId.toNat = 2 ^ 32 - 1 := rfl
    omega
  obtain ⟨i,p1,hnew,h1,hl1,hn1⟩ := h.newPage_eq hlt
  obtain ⟨p2,hun,h2,hl2,hn2⟩ := h1.unpinPage_eq false
  have hid : UInt32.ofNat p.flat.next = p.disk.numPages := UInt32.ofNat_toNat
  have hpid : (Page.new p.disk.numPages).id = p.disk.numPages := rfl
  simp only [hpid] at hun
  refine ⟨p2,?_,h2.quiet rfl,?_⟩
  · rw [hid,allocatePage,Prog.bind_ok hnew,Prog.bind_ok hun]
    rfl
  · rw [flat_congr hl2 hn2,FlatStore.grow,hid,flat,hl1,hn1]
    rfl

theorem refines_readNode (pid : PageId) :
    Prog.Refines Models (NodeStore.readNode pid) (NodeStore.readNode pid) := by
  rintro p s ⟨hq,rfl⟩ hne
  have hflat : (NodeStore.readNode pid : Prog Error FlatStore BTreeNode) p.flat =
    match p.lookup pid with
    | some pg => (.ok ⟨pg⟩,p.flat)
    | none => (.error (.err .io),p.flat) := rfl
  cases hl : p.lookup pid with
  | none =>
    rw [hflat,hl] at hne
    exact absurd rfl (hne .io)
  | some pg =>
    obtain ⟨p',hr,hq',hf⟩ := hq.readNode_eq hl
    rw [hflat,hl]
    change (readNode pid p).1 = _ ∧ Models (readNode pid p).2 _
    rw [hr]
    exact ⟨rfl,hq',hf⟩

theorem refines_writeNode (nd : BTreeNode) :
    Prog.Refines Models (NodeStore.writeNode nd) (NodeStore.writeNode nd) := by
  rintro p s ⟨hq,rfl⟩ hne
  have hflat : (NodeStore.writeNode nd : Prog Error FlatStore Unit) p.flat =
    match p.lookup nd.page.id with
    | some _ => (.ok (),p.flat.put nd.sealed.page)
    | none => (.error (.err .io),p.flat) := rfl
  cases hl : p.lookup nd.page.id with
  | none =>
    rw [hflat,hl] at hne
    exact absurd rfl (hne .io)
  | some pg =>
    obtain ⟨p',hw,hq',hf⟩ := hq.writeNode_eq hl
    rw [hflat,hl]
    change (writeNode nd p).1 = _ ∧ Models (writeNode nd p).2 _
    rw [hw]
    exact ⟨rfl,hq',hf⟩

theorem refines_allocatePage :
    Prog.Refines Models NodeStore.allocatePage NodeStore.allocatePage := by
  rintro p s ⟨hq,rfl⟩ hne
  have hflat : (NodeStore.allocatePage : Prog Error FlatStore PageId) p.flat =
    if p.flat.next < invalidPageId.toNat then (.ok (UInt32.ofNat p.flat.next),p.flat.grow)
    else (.error (.err .io),p.flat) := rfl
  by_cases hn : p.flat.next < invalidPageId.toNat
  · obtain ⟨p',ha,hq',hf⟩ := hq.allocatePage_eq hn
    rw [hflat,if_pos hn]
    change (allocatePage p).1 = _ ∧ Models (allocatePage p).2 _
    rw [ha]
    exact ⟨rfl,hq',hf⟩
  · rw [hflat,if_neg hn] at hne
    exact absurd rfl (hne .io)

end BufferPoolManager

end StorageDb
