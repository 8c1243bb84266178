import Mathlib.Tactic
import StorageDb.Btree.TreeRun

namespace StorageDb
open SortedAssoc SepChain

namespace BufferPoolManager

variable {p : BufferPoolManager}

theorem Quiet.create_eq (h : Quiet p) (hn : p.disk.numPages.toNat < invalidPageId.toNat) :
    ∃ p', BPlusTree.create p = (.ok ⟨p.disk.numPages⟩,p') ∧ Quiet p' ∧
      p'.flat = p.flat.grow.put (BTreeNode.newLeaf p.disk.numPages).sealed.page := by
  have hlt : p.disk.numPages.toNat + 1 < 2 ^ 32 := by
    have : invalidPageId.toNat = 2 ^ 32 - 1 := rfl
    omega
  have hid : (Page.new p.disk.numPages).id = p.disk.numPages := rfl
  set root := (BTreeNode.newLeaf p.disk.numPages).sealed.page with hroot
  have hrid : root.id = p.disk.numPages := rfl
  have hcopy : root.copyData (Page.new p.disk.numPages) = root := Page.ext rfl rfl
  obtain ⟨i,p1,hnew,h1,hl1,hn1⟩ := h.newPage_eq hlt
  obtain ⟨p2,hfetch,h2,hl2,hn2⟩ := h1.fetchPageMut_eq (by norm_num)
  obtain ⟨p3,hmod,h3,hput⟩ := h2.modifyPage_eq (g := root.copyData) rfl rfl
  obtain ⟨p4,hun1,h4,hl4,hn4⟩ := h3.unpinPage_eq true
  obtain ⟨p5,hun2,h5,hl5,hn5⟩ := h4.unpinPage_eq false
  simp only [hcopy,hrid] at hun1 hun2
  simp only [hid] at hfetch
  refine ⟨p5,?_,h5.quiet rfl,?_⟩
  · rw [BPlusTree.create,Prog.bind_ok hnew,Prog.bind_ok hfetch,Prog.bind_ok hmod,Prog.bind_ok hun1,
      Prog.bind_ok hun2]
    rfl
  · have hnext : UInt32.ofNat p.flat.next = p.disk.numPages := UInt32.ofNat_toNat
    rw [flat_congr (hl5.trans hl4) (hn5.trans hn4),flat,hput.lookup,hput.pages,hl2,hn2,hl1,hn1]
    simp only [hcopy,FlatStore.put,FlatStore.grow,hnext]
    rfl

end BufferPoolManager

theorem RootedTree.sound_single {pid : PageId} (hn : pid.toNat < invalidPageId.toNat) :
    (RootedTree.single pid).Sound := by
  refine ⟨⟨sorted_nil,by simp [RootedTree.single]⟩,List.nodup_singleton _,?_,⟨rfl,trivial⟩,hn⟩
  intro q hq
  obtain rfl := List.mem_singleton.mp hq
  exact Nat.lt_succ_self _

theorem RootedTree.wellFormed_single {pid : PageId} (hn : pid.toNat < invalidPageId.toNat) :
    (RootedTree.single pid).WellFormed :=
  ⟨sound_single hn,fun _ hx => absurd hx List.not_mem_nil⟩

theorem TreeOn.single {s : FlatStore} {pid : PageId} (hs : s.next = pid.toNat)
    (hn : pid.toNat < invalidPageId.toNat) :
    TreeOn (s.grow.put (BTreeNode.newLeaf pid).sealed.page) ⟨pid⟩ (RootedTree.single pid) where
  root := rfl
  stored := by
    have h := s.grow.leafStored_put (LeafPage.of_newLeaf pid)
    rw [BTreeNode.header_newLeaf] at h
    exact ⟨_,h⟩
  next := congrArg (· + 1) hs
  sound := RootedTree.sound_single hn

theorem TreeAt.single {s : FlatStore} {pid : PageId} (hs : s.next = pid.toNat)
    (hn : pid.toNat < invalidPageId.toNat) :
    TreeAt (s.grow.put (BTreeNode.newLeaf pid).sealed.page) ⟨pid⟩ (RootedTree.single pid) :=
  ⟨TreeOn.single hs hn,(RootedTree.wellFormed_single hn).keys⟩

namespace BPlusTree
open BufferPoolManager

theorem create_run_on {disk : DiskManager} {capacity fuel : Nat} {ops : List TreeOp}
    (hd : disk.Healthy) (hc : 1 ≤ capacity) (hn : disk.numPages.toNat < invalidPageId.toNat)
    (hs : RootedTree.Along RootedTree.Taken ops (RootedTree.single disk.numPages))
    (hf : ops.length ≤ fuel) :
    ∃ tree p', (create >>= run fuel ops) (new disk capacity) =
        (.ok ((KvMap.run ops KvMap.empty).1,tree),p') ∧ Quiet p' ∧
      TreeOn p'.flat tree (ops.foldl (fun t op => t.apply op)
        (RootedTree.single disk.numPages)) := by
  obtain ⟨hq,-⟩ := quiet_new hd hc
  obtain ⟨p1,hcreate,hq1,hflat⟩ := hq.create_eq hn
  have hat : TreeOn p1.flat ⟨disk.numPages⟩ (RootedTree.single disk.numPages) := by
    rw [hflat]
    exact TreeOn.single rfl hn
  have hfuel : (RootedTree.single disk.numPages).depth + ops.length ≤ fuel := by
    simpa [RootedTree.single] using hf
  obtain ⟨tree,s',hrun,hat'⟩ := hat.run_eq hs hfuel
  obtain ⟨p',hrun',hq',rfl⟩ := (congr_run models_refines fuel ops _).of_ok ⟨hq1,rfl⟩ hrun
  exact ⟨tree,p',(Prog.bind_ok hcreate).trans hrun',hq',hat'⟩

theorem create_run_eq {disk : DiskManager} {capacity fuel : Nat} {ops : List TreeOp}
    (hd : disk.Healthy) (hc : 1 ≤ capacity) (hn : disk.numPages.toNat < invalidPageId.toNat)
    (hl : ∀ op ∈ ops, op.InLimits)
    (hs : RootedTree.Along RootedTree.Safe ops (RootedTree.single disk.numPages))
    (hf : ops.length ≤ fuel) :
    ∃ tree p', (create >>= run fuel ops) (new disk capacity) =
        (.ok ((KvMap.run ops KvMap.empty).1,tree),p') ∧ Quiet p' ∧
      TreeAt p'.flat tree (ops.foldl (fun t op => t.apply op)
        (RootedTree.single disk.numPages)) := by
  obtain ⟨htake,hw⟩ := (RootedTree.wellFormed_single hn).run hl hs
  obtain ⟨tree,p',hrun,hq,hat⟩ := create_run_on hd hc hn htake hf
  exact ⟨tree,p',hrun,hq,hat,hw.keys⟩

end BPlusTree

end StorageDb
