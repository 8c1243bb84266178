import Mathlib.Tactic
import StorageDb.Buffer.FaultyCalls
import StorageDb.Btree.Height
import StorageDb.Btree.TreeContract

namespace StorageDb
open SortedAssoc SepChain Prog

namespace BufferPoolManager

variable {p p' : BufferPoolManager} {s : FlatStore} {pid : PageId} {pg : Page}

-- Nothing is pinned between calls, whatever has failed.
structure Rested (p : BufferPoolManager) : Prop where
  intact : Intact p
  pins : p.pins = fun _ => 0

-- A pool whose disk may fail shows at least the pages of s.
structure Shows (p : BufferPoolManager) (s : FlatStore) : Prop extends Rested p where
  pages : ∀ q pg, s.pages q = some pg → p.lookup q = some pg

structure Hosts (p : BufferPoolManager) (s : FlatStore) : Prop extends Shows p s where
  next : p.disk.numPages.toNat = s.next

theorem Rested.steady (h : Rested p) (hi : Intact p') (hs : Steady p p') : Rested p' :=
  ⟨hi,hs.pins.trans h.pins⟩

theorem Shows.steady (h : Shows p s) (hi : Intact p') (hs : Steady p p') : Shows p' s :=
  ⟨h.toRested.steady hi hs,fun q pg hq => hs.lookup q pg (h.pages q pg hq)⟩

theorem Intact.unpin_eq {n : Nat} (h : Intact p)
    (hpin : p.pins = Function.update (fun _ => 0) pid (n + 1)) (dirty : Bool) :
    ∃ p', unpinPage pid dirty p = (.ok (),p') ∧ Intact p' ∧
      p'.pins = Function.update (fun _ => 0) pid n ∧ p'.disk.numPages = p.disk.numPages ∧
      ∀ q pg, p.lookup q = some pg → p'.lookup q = some pg := by
  rcases hr : unpinPage pid dirty p with ⟨r,p'⟩
  obtain ⟨h1,hok,herr⟩ := (h.unpinPage_spec pid dirty).of_eq hr
  cases r with
  | error e =>
    obtain ⟨-,ht⟩ := herr e rfl
    have hone : p.pins pid = n + 1 := by rw [hpin,Function.update_self]
    rw [pins_of_absent ht] at hone
    cases hone
  | ok u =>
    obtain ⟨hn,hm⟩ := hok u rfl
    refine ⟨p',rfl,h1,?_,hn,hm.lookup⟩
    rw [hm.pins,hpin,Function.update_self,Function.update_idem,Nat.add_sub_cancel]

theorem Intact.rested (h : Intact p) (hpin : p.pins = Function.update (fun _ => 0) pid 0) :
    Rested p :=
  ⟨h,hpin.trans (Function.update_eq_self pid fun _ => 0)⟩

theorem Rested.pin_lt (h : Rested p) : p.pins pid + 1 < 2 ^ 32 := by
  rw [h.pins]
  norm_num

theorem Rested.pinned (h : Rested p) :
    Function.update p.pins pid (p.pins pid + 1) = Function.update (fun _ => 0) pid 1 := by
  rw [h.pins]

theorem Shows.readNode_cases (h : Shows p s) (hp : s.pages pid = some pg) :
    (∃ p', readNode pid p = (.ok ⟨pg⟩,p') ∧ Shows p' s ∧ p'.disk.numPages = p.disk.numPages) ∨
      ∃ e p', readNode pid p = (.error (.err e),p') ∧ Shows p' s := by
  rcases hr : fetchPage pid p with ⟨r,p1⟩
  have hf := (h.intact.fetchPage_spec pid).of_eq hr
  cases r with
  | error e =>
    obtain ⟨hs,hkind⟩ := hf.error e rfl
    obtain ⟨-,x,rfl⟩ := hkind h.pin_lt
    exact Or.inr ⟨x,p1,bind_error hr,h.steady hf.intact hs⟩
  | ok pg' =>
    obtain ⟨hlook,hn,hm⟩ := hf.ok pg' rfl
    rw [h.pages pid pg hp] at hlook
    cases hlook
    rw [h.pinned] at hm
    obtain ⟨p2,hun,h2,hpin,hn',hkept⟩ := hf.intact.unpin_eq hm.pins false
    refine Or.inl ⟨p2,?_,⟨h2.rested hpin,fun q x hq => hkept q x (hm.lookup q x (h.pages q x hq))⟩,
      hn'.trans hn⟩
    rw [readNode,bind_ok hr,bind_ok hun]
    rfl

theorem readNode_flat {nd : BTreeNode} {s' : FlatStore}
    (h : (NodeStore.readNode pid : Prog Error FlatStore BTreeNode) s = (.ok nd,s')) :
    s' = s ∧ s.pages pid = some nd.page := by
  change FlatStore.readNode pid s = _ at h
  rw [FlatStore.readNode] at h
  cases hp : s.pages pid with
  | none =>
    rw [hp] at h
    cases h
  | some pg =>
    rw [hp] at h
    cases h
    exact ⟨rfl,rfl⟩

theorem follows_readNode (pid : PageId) :
    Follows Rested Hosts (NodeStore.readNode pid : Prog Error BufferPoolManager BTreeNode)
      (NodeStore.readNode pid) := by
  intro p s h nd s' hn
  obtain ⟨rfl,hp⟩ := readNode_flat hn
  rcases h.toShows.readNode_cases hp with ⟨p',hrun,hs,hnum⟩ | ⟨e,p',hrun,hs⟩
  · exact Or.inl ⟨p',hrun,hs,by rw [hnum,h.next]⟩
  · exact Or.inr ⟨e,p',hrun,hs.toRested⟩

-- fetch_page_mut and the store through the reference it returns.
theorem Intact.overwrite_cases (h : Intact p) (hlt : p.pins pg.id + 1 < 2 ^ 32) :
    (∃ i p1 p2, fetchPageMut pg.id p = (.ok i,p1) ∧ modifyPage i pg.copyData p1 = (.ok (),p2) ∧
      Intact p2 ∧ p2.pins = Function.update p.pins pg.id (p.pins pg.id + 1) ∧
      p2.disk.numPages = p.disk.numPages ∧
      ∀ q x, Function.update p.lookup pg.id (some pg) q = some x → p2.lookup q = some x) ∨
    ∃ e p1, fetchPageMut pg.id p = (.error (.err e),p1) ∧ Intact p1 ∧ Steady p p1 ∧
      p.pageTable pg.id = none := by
  rcases hr : fetchPageMut pg.id p with ⟨r,p1⟩
  have hf := (h.fetchPageMut_spec pg.id).of_eq hr
  cases r with
  | error e =>
    obtain ⟨hs,hkind⟩ := hf.error e rfl
    obtain ⟨ht,x,rfl⟩ := hkind hlt
    exact Or.inr ⟨x,p1,rfl,hf.intact,hs,ht⟩
  | ok i =>
    obtain ⟨held,h1⟩ := hf.intact
    obtain ⟨f,hheld,-,hid,hd,hn,hm⟩ := hf.ok i rfl
    have hcopy : pg.copyData f.page = pg := Page.ext hid rfl
    obtain ⟨h2,hm2⟩ := h1.reframed (g := { f with page := pg }) hheld hid.symm
      (fun e => by rw [hd] at e; cases e)
    refine Or.inl ⟨i,p1,setFrame i (some { f with page := pg }) p1,rfl,?_,⟨_,h2⟩,?_,hn,
      fun q x hq => ?_⟩
    · rw [modifyPage,bind_ok (h1.frameAt_eq hheld),hcopy]
      rfl
    · rw [hm2.pins]
      change Function.update p1.pins f.page.id f.pinCount = _
      rw [← pins_of_holds (h1.slot hheld) hheld,Function.update_eq_self,hm.pins]
    · refine hm2.lookup q x ?_
      rw [hid]
      rw [Function.update_apply] at hq ⊢
      split_ifs at hq ⊢
      · exact hq
      · exact hm.lookup q x hq

theorem follows_writeNode (nd : BTreeNode) :
    Follows Rested Hosts (NodeStore.writeNode nd : Prog Error BufferPoolManager Unit)
      (NodeStore.writeNode nd) := by
  intro p s h u s' hn
  obtain rfl : s' = s.put nd.sealed.page := by
    change FlatStore.writeNode nd s = _ at hn
    rw [FlatStore.writeNode] at hn
    cases hp : s.pages nd.page.id with
    | none =>
      rw [hp] at hn
      cases hn
    | some pg =>
      rw [hp] at hn
      cases hn
      rfl
  have hid : nd.sealed.page.id = nd.page.id := rfl
  rcases @Intact.overwrite_cases p nd.sealed.page h.intact h.pin_lt with
    ⟨i,p1,p2,hr,hmod,h2,hpins,hn2,hlook⟩ | ⟨e,p1,hr,h1,hs,-⟩
  · rw [h.pinned] at hpins
    obtain ⟨p3,hun,h3,hpin,hn3,hkept⟩ := h2.unpin_eq hpins true
    refine Or.inl ⟨p3,?_,⟨h3.rested hpin,fun q x hq => hkept q x (hlook q x ?_)⟩,?_⟩
    · change writeNode nd p = _
      rw [hid] at hr hun
      rw [writeNode,bind_ok hr,bind_ok hmod,hun]
    · change Function.update s.pages nd.sealed.page.id (some nd.sealed.page) q = some x at hq
      rw [Function.update_apply] at hq ⊢
      split_ifs at hq ⊢
      · exact hq
      · exact h.pages q x hq
    · rw [hn3,hn2,h.next]
      rfl
  · exact Or.inr ⟨e,p1,bind_error hr,h.toRested.steady h1 hs⟩

theorem follows_allocatePage :
    Follows Rested Hosts (NodeStore.allocatePage : Prog Error BufferPoolManager PageId)
      NodeStore.allocatePage := by
  intro p s h id s' hn
  obtain ⟨hlt,rfl,rfl⟩ : s.next < invalidPageId.toNat ∧ UInt32.ofNat s.next = id ∧ s' = s.grow := by
    change FlatStore.allocatePage s = _ at hn
    rw [FlatStore.allocatePage] at hn
    split_ifs at hn with hlt
    · cases hn
      exact ⟨hlt,rfl,rfl⟩
    · cases hn
  have hmax : invalidPageId.toNat = 2 ^ 32 - 1 := rfl
  have hroom : p.disk.numPages.toNat + 1 < 2 ^ 32 := by
    rw [h.next]
    omega
  have hid : UInt32.ofNat s.next = p.disk.numPages := by rw [← h.next,UInt32.ofNat_toNat]
  rcases hr : newPage p with ⟨r,p1⟩
  obtain ⟨h1,hok,herr⟩ := (h.intact.newPage_spec hroom).of_eq hr
  cases r with
  | error e =>
    obtain ⟨hs,x,rfl⟩ := herr e rfl
    exact Or.inr ⟨x,p1,bind_error hr,h.toRested.steady h1 hs⟩
  | ok id =>
    obtain ⟨rfl,hn1,hm⟩ := hok id rfl
    rw [h.pins] at hm
    obtain ⟨p2,hun,h2,hpin,hn2,hkept⟩ := h1.unpin_eq hm.pins false
    refine Or.inl ⟨p2,?_,⟨h2.rested hpin,fun q x hq => hkept q x (hm.lookup q x ?_)⟩,?_⟩
    · change allocatePage p = _
      rw [hid,allocatePage,bind_ok hr,bind_ok hun]
      rfl
    · rw [FlatStore.grow,hid] at hq
      change Function.update s.pages p.disk.numPages _ q = some x at hq
      rw [Function.update_apply] at hq ⊢
      split_ifs at hq ⊢
      · exact hq
      · exact h.pages q x hq
    · rw [hn2,hn1,UInt32.toNat_add,UInt32.toNat_one,Nat.mod_eq_of_lt hroom,h.next]
      rfl

theorem hosts_follows : StoreCongruence fun (α : Type) (m : Prog Error BufferPoolManager α) n =>
    Follows Rested Hosts m n :=
  ⟨⟨follows_congruence,follows_readNode⟩,follows_writeNode,follows_allocatePage⟩

theorem Hosts.create_cases (h : Hosts p s) (hlt : p.disk.numPages.toNat < invalidPageId.toNat) :
    (∃ p', BPlusTree.create p = (.ok ⟨p.disk.numPages⟩,p') ∧
      Hosts p' (s.grow.put (BTreeNode.newLeaf p.disk.numPages).sealed.page)) ∨
    ∃ e p', BPlusTree.create p = (.error (.err e),p') ∧ Rested p' := by
  have hmax : invalidPageId.toNat = 2 ^ 32 - 1 := rfl
  have hroom : p.disk.numPages.toNat + 1 < 2 ^ 32 := by omega
  rcases hr : newPage p with ⟨r,p1⟩
  obtain ⟨h1,hok,herr⟩ := (h.intact.newPage_spec hroom).of_eq hr
  cases r with
  | error e =>
    obtain ⟨hs,x,rfl⟩ := herr e rfl
    exact Or.inr ⟨x,p1,bind_error hr,h.toRested.steady h1 hs⟩
  | ok id =>
    obtain ⟨rfl,hn1,hm⟩ := hok id rfl
    rw [h.pins] at hm
    set root := (BTreeNode.newLeaf p.disk.numPages).sealed.page with hroot
    have hid : root.id = p.disk.numPages := rfl
    have hone : p1.pins root.id = 1 := by rw [hm.pins,hid,Function.update_self]
    rcases @Intact.overwrite_cases p1 root h1 (by rw [hone]; norm_num) with
      ⟨i,p2,p3,hfetch,hmod,h3,hpins,hn3,hlook⟩ | ⟨e,p2,-,-,-,ht⟩
    · rw [hone,hm.pins,hid,Function.update_idem] at hpins
      obtain ⟨p4,hun4,h4,hpin4,hn4,hkept4⟩ := h3.unpin_eq hpins true
      obtain ⟨p5,hun5,h5,hpin5,hn5,hkept5⟩ := h4.unpin_eq hpin4 false
      refine Or.inl ⟨p5,?_,⟨h5.rested hpin5,
        fun q x hq => hkept5 q x (hkept4 q x (hlook q x ?_))⟩,?_⟩
      · rw [hid] at hfetch
        rw [BPlusTree.create,bind_ok hr,bind_ok hfetch,bind_ok hmod,bind_ok hun4,bind_ok hun5]
        rfl
      · change Function.update s.grow.pages root.id (some root) q = some x at hq
        rw [Function.update_apply] at hq ⊢
        split_ifs at hq ⊢ with hq0
        · exact hq
        · have hnext : UInt32.ofNat s.next = p.disk.numPages := by rw [← h.next,UInt32.ofNat_toNat]
          rw [FlatStore.grow,hnext] at hq
          rw [hid] at hq0
          change Function.update s.pages p.disk.numPages _ q = some x at hq
          rw [Function.update_of_ne hq0] at hq
          refine hm.lookup q x ?_
          rw [Function.update_of_ne hq0]
          exact h.pages q x hq
      · rw [hn5,hn4,hn3,hn1,UInt32.toNat_add,UInt32.toNat_one,Nat.mod_eq_of_lt hroom,h.next]
        rfl
    · rw [pins_of_absent ht] at hone
      cases hone

theorem hosts_new {disk : DiskManager} {capacity : Nat} (hd : disk.Tame) (hc : 1 ≤ capacity) :
    Hosts (new disk capacity) ⟨disk.pageAt,disk.numPages.toNat⟩ := by
  obtain ⟨h1,h2,h3⟩ := intact_new hd hc
  exact ⟨⟨⟨h1,h3⟩,fun q pg hq => (congrFun h2 q).trans hq⟩,rfl⟩

theorem Rested.unpinned (h : Rested p) {i : Nat} {f : BufferFrame} (hf : p.Holds i f) :
    f.pinCount = 0 := by
  obtain ⟨held,h1⟩ := h.intact
  rw [← pins_of_holds (h1.slot hf) hf,h.pins]

end BufferPoolManager

namespace BPlusTree
open BufferPoolManager

theorem run_under_faults {disk : DiskManager} {capacity : Nat} {ops : List TreeOp} (hd : disk.Tame)
    (hc : 1 ≤ capacity) (hn : disk.numPages.toNat < invalidPageId.toNat)
    (hl : ∀ op ∈ ops, op.InLimits)
    (hs : RootedTree.Along RootedTree.Safe ops (RootedTree.single disk.numPages)) :
    Spec (create >>= run 12 ops) (new disk capacity) (fun r p' =>
      ((∃ tree, r = .ok ((KvMap.run ops KvMap.empty).1,tree)) ∨ ∃ e, r = .error (.err e)) ∧
        ∀ i f, p'.Holds i f → f.pinCount = 0) := by
  rcases (hosts_new hd hc).create_cases hn with ⟨p1,hcreate,h1⟩ | ⟨e,p1,hcreate,hrest⟩
  · have hat : TreeAt ((FlatStore.mk disk.pageAt disk.numPages.toNat).grow.put
        (BTreeNode.newLeaf disk.numPages).sealed.page) ⟨disk.numPages⟩
          (RootedTree.single disk.numPages) := TreeAt.single rfl hn
    obtain ⟨tree,s',t,hrun,-⟩ := hat.run_compact (RootedTree.compact_single _) hl hs
    have hcreate : create (new disk capacity) = (.ok ⟨disk.numPages⟩,p1) := hcreate
    rw [spec_bind_ok hcreate]
    rcases congr_run hosts_follows 12 ops _ p1 _ h1 _ _ hrun with
      ⟨p2,hrun2,h2⟩ | ⟨e,p2,hrun2,hrest⟩
    · rw [Spec,hrun2]
      exact ⟨Or.inl ⟨tree,rfl⟩,fun i f hf => h2.toRested.unpinned hf⟩
    · rw [Spec,hrun2]
      exact ⟨Or.inr ⟨e,rfl⟩,fun i f hf => hrest.unpinned hf⟩
  · rw [Spec,bind_error hcreate]
    exact ⟨Or.inr ⟨e,rfl⟩,fun i f hf => hrest.unpinned hf⟩

theorem run_under_faults_torn :
    Spec (create >>= run 12 mixedOps)
      (new (DiskManager.open_ (List.replicate 5000 3) [none,none,some 100]) 1) (fun r p' =>
        ((∃ tree, r = .ok ((KvMap.run mixedOps KvMap.empty).1,tree)) ∨ ∃ e, r = .error (.err e)) ∧
          ∀ i f, p'.Holds i f → f.pinCount = 0) :=
  run_under_faults (DiskManager.tame_open _ _ (by decide +kernel)) le_rfl (by decide +kernel)
    (by decide +kernel) (by decide +kernel)

end BPlusTree

inductive ReadCall where
  | search (key : Bytes)
  | scanAll
  | rangeScan (start stop : Bytes)

inductive ReadReply where
  | found (value : Option Bytes)
  | entries (es : List Entry)

namespace ReadCall
open BPlusTree BufferPoolManager

def exec {σ : Type} [NodeStore σ] (fuel : Nat) (tree : BPlusTree) :
    ReadCall → Prog Error σ ReadReply
  | search key => ReadReply.found <$> tree.search fuel key
  | scanAll => ReadReply.entries <$> tree.scanAll fuel
  | rangeScan start stop => ReadReply.entries <$> tree.rangeScan fuel start stop

def replies {σ : Type} [NodeStore σ] (fuel : Nat) (tree : BPlusTree) :
    List ReadCall → σ → List (Except (Fault Error) ReadReply)
  | [], _ => []
  | c :: calls, s => (c.exec fuel tree s).1 :: replies fuel tree calls (c.exec fuel tree s).2

def answer (es : List Entry) : ReadCall → ReadReply
  | search key => .found (find key es)
  | scanAll => .entries es
  | rangeScan start stop => .entries (between start stop es)

variable {p : BufferPoolManager} {s : FlatStore} {tree : BPlusTree} {t : RootedTree} {fuel : Nat}

theorem shows_follows (s : FlatStore) : ReadCongruence fun (α : Type)
    (m : Prog Error BufferPoolManager α) n =>
      Follows (fun p => Shows p s) (fun p s' => Shows p s' ∧ s' = s) m n := by
  refine ⟨follows_congruence,fun pid => ?_⟩
  rintro p _ ⟨h,rfl⟩ nd s' hn
  obtain ⟨rfl,hp⟩ := readNode_flat hn
  rcases h.readNode_cases hp with ⟨p',hrun,hs,-⟩ | ⟨e,p',hrun,hs⟩
  · exact Or.inl ⟨p',hrun,hs,rfl⟩
  · exact Or.inr ⟨e,p',hrun,hs⟩

theorem congr_exec {Q : ⦃α : Type⦄ → Prog Error BufferPoolManager α → Prog Error FlatStore α → Prop}
    (h : ReadCongruence Q) (fuel : Nat) (tree : BPlusTree) (c : ReadCall) :
    Q (c.exec fuel tree) (c.exec fuel tree) := by
  cases c with
  | search key => exact h.bind (congr_search h tree fuel key) (fun _ => h.pure _)
  | scanAll => exact h.bind (congr_scanAll h tree fuel) (fun _ => h.pure _)
  | rangeScan start stop =>
    exact h.bind (congr_rangeScan h tree fuel start stop) (fun _ => h.pure _)

theorem exec_flat (h : TreeOn s tree t) (hf : t.depth + 1 + t.leaves.length ≤ fuel) (c : ReadCall) :
    (c.exec fuel tree : Prog Error FlatStore _) s = (.ok (c.answer t.contents),s) := by
  have hd : t.depth < fuel := by omega
  have hl : t.leaves.length ≤ fuel := by omega
  cases c with
  | search key => exact (Prog.bind_ok (h.search_eq key hd)).trans rfl
  | scanAll => exact (Prog.bind_ok (h.scanAll_eq hd hl)).trans rfl
  | rangeScan start stop => exact (Prog.bind_ok (h.rangeScan_eq start stop hd hl)).trans rfl

theorem replies_exact (h : TreeOn s tree t) (hf : t.depth + 1 + t.leaves.length ≤ fuel)
    (hp : Shows p s) (calls : List ReadCall) :
    List.Forall₂ (fun c r => r = .ok (c.answer t.contents) ∨ ∃ e, r = .error (.err e)) calls
      (replies fuel tree calls p) := by
  induction calls generalizing p with
  | nil => exact .nil
  | cons c calls ih =>
    rcases congr_exec (shows_follows s) fuel tree c p s ⟨hp,rfl⟩ _ _ (exec_flat h hf c) with
      ⟨p',hrun,hs,-⟩ | ⟨e,p',hrun,hs⟩
    · rw [replies,hrun]
      exact .cons (Or.inl rfl) (ih hs)
    · rw [replies,hrun]
      exact .cons (Or.inr ⟨e,rfl⟩) (ih hs)

-- The tree is written without faults; the disk may fail at every read after the reopening.
theorem reads_under_faults {disk : DiskManager} {capacity capacity' : Nat} {ops : List TreeOp}
    (hd : disk.Healthy) (hc : 1 ≤ capacity) (hn : disk.numPages.toNat < invalidPageId.toNat)
    (hl : ∀ op ∈ ops, op.InLimits)
    (hs : RootedTree.Along RootedTree.Safe ops (RootedTree.single disk.numPages))
    (hc' : 1 ≤ capacity') (faults : List (Option Nat)) :
    ∃ rs tree p1 p2 es, (create >>= run 12 ops) (new disk capacity) = (.ok (rs,tree),p1) ∧
      flushAll p1 = (.ok (),p2) ∧ Sorted es ∧
      (∀ k v, (k,v) ∈ es ↔ (KvMap.run ops KvMap.empty).2 k = some v) ∧
      ∃ m, ∀ fuel, m ≤ fuel → ∀ calls : List ReadCall,
        List.Forall₂ (fun c r => r = .ok (c.answer es) ∨ ∃ e, r = .error (.err e)) calls
          (replies fuel tree calls (new (DiskManager.open_ p2.disk.file faults) capacity')) := by
  obtain ⟨tree,p1,t,hrun,hq,hat,-,hmap,-⟩ := create_run_compact hd hc hn hl hs
  obtain ⟨p2,hflush,hinv,-,hpages⟩ := hq.inv.flushAll_spec
  have hsize : p2.disk.file.length / pageSize < 2 ^ 32 := by
    rw [hinv.disk.whole,Nat.mul_div_cancel _ (by decide)]
    exact p2.disk.numPages.toNat_lt
  obtain ⟨h1,h2,h3⟩ := intact_new (DiskManager.tame_open p2.disk.file faults hsize) hc'
  have hshows : Shows (new (DiskManager.open_ p2.disk.file faults) capacity') p1.flat := by
    have hfile : (DiskManager.open_ p2.disk.file faults).pageAt = p2.disk.pageAt :=
      DiskManager.pageAt_of_file rfl
    refine ⟨⟨h1,h3⟩,fun q pg hp => ?_⟩
    rw [h2,hfile,hpages]
    exact hp
  refine ⟨_,tree,p1,p2,t.contents,hrun,hflush,hat.sound.sorted,fun k v => ?_,_,fun fuel hf calls =>
    replies_exact hat.toTreeOn hf hshows calls⟩
  rw [← hmap]
  exact (find_eq_some hat.sound.sorted).symm

theorem reads_under_faults_mixed : ∃ rs tree p1 p2 es,
    (create >>= run 12 mixedOps) (new (DiskManager.open_ [] []) 1) = (.ok (rs,tree),p1) ∧
      flushAll p1 = (.ok (),p2) ∧ Sorted es ∧
      (∀ k v, (k,v) ∈ es ↔ (KvMap.run mixedOps KvMap.empty).2 k = some v) ∧
      ∃ m, ∀ fuel, m ≤ fuel → ∀ calls : List ReadCall,
        List.Forall₂ (fun c r => r = .ok (c.answer es) ∨ ∃ e, r = .error (.err e)) calls
          (replies fuel tree calls (new (DiskManager.open_ p2.disk.file [none,some 0]) 2)) :=
  reads_under_faults ⟨rfl,rfl⟩ le_rfl (by decide) (by decide +kernel) (by decide +kernel)
    (by decide) _

end ReadCall

end StorageDb
