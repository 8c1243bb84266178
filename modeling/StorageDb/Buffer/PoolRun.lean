import Mathlib.Tactic
import StorageDb.Buffer.Pins

namespace StorageDb

open BufferPoolManager

-- fetchPageMut stands for the call and the store of the page's data bytes that follows it.
inductive PoolCall where
  | newPage
  | fetchPage (pageId : PageId)
  | fetchPageMut (pageId : PageId) (data : Bytes) (size : data.length = pageSize)
  | unpinPage (pageId : PageId) (dirty : Bool)
  | flushPage (pageId : PageId)
  | flushAll

inductive PoolReply where
  | allocated (pageId : PageId)
  | fetched (page : Page)
  | done

def PoolCall.exec : PoolCall → Prog Error BufferPoolManager PoolReply
  | newPage => do
    let pageId ← BufferPoolManager.newPage
    pure (.allocated pageId)
  | fetchPage pageId => do
    let page ← BufferPoolManager.fetchPage pageId
    pure (.fetched page)
  | fetchPageMut pageId data size => do
    let i ← BufferPoolManager.fetchPageMut pageId
    let f ← frameAt i
    modifyPage i (fun page => ⟨page.id,data,size⟩)
    pure (.fetched f.page)
  | unpinPage pageId dirty => do
    BufferPoolManager.unpinPage pageId dirty
    pure .done
  | flushPage pageId => do
    BufferPoolManager.flushPage pageId
    pure .done
  | flushAll => do
    BufferPoolManager.flushAll
    pure .done

-- The flat page store: the bytes last written to each page that new_page returned.
abbrev FlatPages := PageId → Option Page

def PoolCall.flat (pages : FlatPages) : PoolCall → Except (Fault Error) PoolReply → FlatPages
  | newPage,.ok (.allocated pageId) => Function.update pages pageId (some (Page.new pageId))
  | fetchPageMut pageId data size,.ok _ => Function.update pages pageId (some ⟨pageId,data,size⟩)
  | _,_ => pages

def PoolCall.fetches : PoolCall → Option PageId
  | fetchPage pageId => some pageId
  | fetchPageMut pageId _ _ => some pageId
  | newPage => none
  | unpinPage _ _ => none
  | flushPage _ => none
  | flushAll => none

structure PoolSession where
  pool : BufferPoolManager
  pages : FlatPages

namespace PoolSession

def start (capacity : Nat) : PoolSession :=
  ⟨.new (DiskManager.open_ [] []) capacity,fun _ => none⟩

def step (s : PoolSession) (c : PoolCall) : PoolSession :=
  ⟨(c.exec s.pool).2,c.flat s.pages (c.exec s.pool).1⟩

def run (s : PoolSession) (calls : List PoolCall) : PoolSession := calls.foldl step s

def Admits (s : PoolSession) : PoolCall → Prop
  | .newPage => s.pool.disk.numPages.toNat + 1 < 2 ^ 32
  | .fetchPage pageId => (s.pages pageId).isSome = true
  | .fetchPageMut pageId _ _ => (s.pages pageId).isSome = true
  | .unpinPage pageId _ => (s.pages pageId).isSome = true
  | .flushPage pageId => (s.pages pageId).isSome = true
  | .flushAll => True

instance (s : PoolSession) (c : PoolCall) : Decidable (s.Admits c) := by
  cases c <;> (unfold Admits; infer_instance)

def Admissible (s : PoolSession) : List PoolCall → Prop
  | [] => True
  | c :: calls => s.Admits c ∧ (s.step c).Admissible calls

structure Refined (s : PoolSession) : Prop where
  inv : PoolInv s.pool []
  pages : ∀ pid pg, s.pages pid = some pg → s.pool.lookup pid = some pg

variable {s : PoolSession} {pid : PageId} {pg : Page}

theorem refined_start {capacity : Nat} (hc : 1 ≤ capacity) : (start capacity).Refined :=
  ⟨(quiet_new (show (DiskManager.open_ [] []).Healthy from ⟨rfl,rfl⟩) hc).1.inv,
    fun _ _ e => by cases e⟩

theorem Refined.known (h : s.Refined) (hp : s.pages pid = some pg) :
    pid.toNat < s.pool.disk.numPages.toNat := by
  rw [← h.inv.lookup_isSome,h.pages pid pg hp]
  rfl

theorem Refined.same {p' : BufferPoolManager} (h : s.Refined) (hinv : PoolInv p' [])
    (hs : Same s.pool p') : Refined ⟨p',s.pages⟩ :=
  ⟨hinv,fun pid pg hp => by rw [hs.lookup]; exact h.pages pid pg hp⟩

theorem Refined.newPage (h : s.Refined) (ha : s.Admits .newPage) : (s.step .newPage).Refined := by
  have hspec := h.inv.newPage_spec ha
  rcases hm : BufferPoolManager.newPage s.pool with ⟨r,p'⟩
  obtain ⟨h1,h2,h3⟩ := hspec.of_eq hm
  have hold (pid : PageId) (pg : Page) (hp : s.pages pid = some pg) : p'.lookup pid = some pg := by
    rw [h2 pid (h.known hp)]
    exact h.pages pid pg hp
  cases r with
  | error e =>
    have he : PoolCall.newPage.exec s.pool = (.error e,p') := Prog.bind_error hm
    rw [step,he]
    exact ⟨h1,hold⟩
  | ok id =>
    have he : PoolCall.newPage.exec s.pool = (.ok (.allocated id),p') := Prog.bind_ok hm
    obtain ⟨-,hid⟩ := h3 id rfl
    rw [step,he]
    refine ⟨h1,fun pid pg hp => ?_⟩
    have hp' : Function.update s.pages id (some (Page.new id)) pid = some pg := hp
    rw [Function.update_apply] at hp'
    split_ifs at hp' with hq
    · rw [hq,hid,hp']
    · exact hold pid pg hp'

theorem Refined.fetchPageMut (h : s.Refined) {data : Bytes} {size : data.length = pageSize}
    (ha : s.Admits (.fetchPageMut pid data size)) :
    (s.step (.fetchPageMut pid data size)).Refined ∧
      ∀ pg, ((PoolCall.fetchPageMut pid data size).exec s.pool).1 = .ok (.fetched pg) →
        s.pages pid = some pg := by
  obtain ⟨pg,hp⟩ := Option.isSome_iff_exists.mp ha
  have hl := h.pages pid pg hp
  have hspec := h.inv.fetchPageMut_spec hl
  rcases hm : BufferPoolManager.fetchPageMut pid s.pool with ⟨r,p'⟩
  obtain ⟨h1,h2,h3⟩ := hspec.of_eq hm
  cases r with
  | error e =>
    have he : (PoolCall.fetchPageMut pid data size).exec s.pool = (.error e,p') :=
      Prog.bind_error hm
    rw [step,he]
    exact ⟨h.same h1 h2,fun _ e => by cases e⟩
  | ok i =>
    obtain ⟨g,hg,rfl,hd⟩ := h3 i rfl
    have hid : g.page.id = pid := h.inv.lookup_id hl
    obtain ⟨h4,h5,-⟩ := h1.reframe_put (g := { g with page := ⟨g.page.id,data,size⟩ }) hg rfl
      (by simp [hd])
    have he : (PoolCall.fetchPageMut pid data size).exec s.pool =
        (.ok (.fetched g.page),setFrame i (some { g with page := ⟨g.page.id,data,size⟩ }) p') := by
      rw [PoolCall.exec,Prog.bind_ok hm,Prog.bind_ok (h1.frameAt_eq hg),modifyPage,bind_assoc,
        Prog.bind_ok (h1.frameAt_eq hg)]
      rfl
    rw [step,he]
    refine ⟨⟨h4,fun q pg hq => ?_⟩,fun pg e => by cases e; exact hp⟩
    have hq' : Function.update s.pages pid (some ⟨pid,data,size⟩) q = some pg := hq
    rw [h5.lookup,h2.lookup]
    simp only [hid]
    rw [Function.update_apply] at hq' ⊢
    split_ifs at hq' ⊢ with hqp
    · exact hq'
    · exact h.pages q pg hq'

theorem Refined.fetchPage (h : s.Refined) (ha : s.Admits (.fetchPage pid)) :
    (s.step (.fetchPage pid)).Refined ∧
      ∀ pg, ((PoolCall.fetchPage pid).exec s.pool).1 = .ok (.fetched pg) →
        s.pages pid = some pg := by
  obtain ⟨pg,hp⟩ := Option.isSome_iff_exists.mp ha
  have hspec := h.inv.fetchPage_spec (h.pages pid pg hp)
  rcases hm : BufferPoolManager.fetchPage pid s.pool with ⟨r,p'⟩
  obtain ⟨h1,h2,h3⟩ := hspec.of_eq hm
  cases r with
  | error e =>
    have he : (PoolCall.fetchPage pid).exec s.pool = (.error e,p') := Prog.bind_error hm
    rw [step,he]
    exact ⟨h.same h1 h2,fun _ e => by cases e⟩
  | ok pg' =>
    have he : (PoolCall.fetchPage pid).exec s.pool = (.ok (.fetched pg'),p') := Prog.bind_ok hm
    rw [step,he]
    refine ⟨h.same h1 h2,fun pg'' e => ?_⟩
    cases e
    rw [h3 pg' rfl,hp]

theorem Refined.step (h : s.Refined) {c : PoolCall} (ha : s.Admits c) : (s.step c).Refined := by
  cases c with
  | newPage => exact h.newPage ha
  | fetchPage pid => exact (h.fetchPage ha).1
  | fetchPageMut pid data size => exact (h.fetchPageMut ha).1
  | unpinPage pid d =>
    have hspec : Prog.Spec (PoolCall.unpinPage pid d).exec s.pool
        (fun _ p' => PoolInv p' [] ∧ Same s.pool p') :=
      (h.inv.unpinPage_spec pid d).bind (fun _ _ h1 => h1) (fun _ _ h1 => h1)
    exact h.same hspec.1 hspec.2
  | flushPage pid =>
    obtain ⟨p',he,h1,h2⟩ := h.inv.flushPage_spec pid
    have he' : (PoolCall.flushPage pid).exec s.pool = (.ok .done,p') := Prog.bind_ok he
    rw [PoolSession.step,he']
    exact h.same h1 h2.same
  | flushAll =>
    obtain ⟨p',he,h1,h2,-⟩ := h.inv.flushAll_spec
    have he' : PoolCall.flushAll.exec s.pool = (.ok .done,p') := Prog.bind_ok he
    rw [PoolSession.step,he']
    exact h.same h1 h2.same

theorem Refined.run (h : s.Refined) {calls : List PoolCall} (ha : s.Admissible calls) :
    (s.run calls).Refined := by
  induction calls generalizing s with
  | nil => exact h
  | cons c calls ih => exact ih (h.step ha.1) ha.2

theorem pool_refines_flat_pages {capacity : Nat} (hc : 1 ≤ capacity) {calls : List PoolCall}
    (ha : (start capacity).Admissible calls) :
    let s := (start capacity).run calls
    (∀ pid i, s.pool.pageTable pid = some i ↔ ∃ f, s.pool.Holds i f ∧ f.page.id = pid) ∧
      (∀ c pid pg, c.fetches = some pid → s.Admits c → (c.exec s.pool).1 = .ok (.fetched pg) →
        s.pages pid = some pg) ∧
      ∃ p', BufferPoolManager.flushAll s.pool = (.ok (),p') ∧
        ∀ pid pg, s.pages pid = some pg → p'.disk.pageAt pid = some pg := by
  intro s
  have h : s.Refined := (refined_start hc).run ha
  refine ⟨h.inv.table,fun c pid pg hcf hca hex => ?_,?_⟩
  · cases c with
    | fetchPage q =>
      cases hcf
      exact (h.fetchPage hca).2 pg hex
    | fetchPageMut q data size =>
      cases hcf
      exact (h.fetchPageMut hca).2 pg hex
    | newPage => cases hcf
    | unpinPage q d => cases hcf
    | flushPage q => cases hcf
    | flushAll => cases hcf
  · obtain ⟨p',he,-,-,hat⟩ := h.inv.flushAll_spec
    exact ⟨p',he,fun pid pg hp => by rw [hat]; exact h.pages pid pg hp⟩

-- One frame: the write to page 0 survives its eviction by the second new_page.
theorem pool_refines_flat_pages_evicted :
    let calls : List PoolCall :=
      [.newPage,.fetchPageMut 0 (List.replicate pageSize 7) (List.length_replicate ..),
        .unpinPage 0 false,.unpinPage 0 false,.newPage,.unpinPage 1 false]
    let s := (start 1).run calls
    (start 1).Admissible calls ∧ s.pool.pageTable 0 = none ∧
      ∃ pg, (PoolCall.exec (.fetchPage 0) s.pool).1 = .ok (.fetched pg) ∧ s.pages 0 = some pg := by
  intro calls s
  have ha : (start 1).Admissible calls := by
    refine ⟨?_,?_,?_,?_,?_,?_,trivial⟩ <;> decide +kernel
  obtain ⟨pg,hpg⟩ := Prog.run_isOk (m := BufferPoolManager.fetchPage 0) (s := s.pool)
    (by decide +kernel)
  have hfetch : (PoolCall.exec (.fetchPage 0) s.pool).1 = .ok (.fetched pg) := by
    rw [PoolCall.exec,Prog.bind_ok hpg]
    rfl
  exact ⟨ha,by decide +kernel,pg,hfetch,
    (pool_refines_flat_pages (by decide) ha).2.1 _ 0 pg rfl (by decide +kernel) hfetch⟩

end PoolSession

end StorageDb
