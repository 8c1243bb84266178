import Mathlib.Tactic
import StorageDb.Btree.Insertion
import StorageDb.Btree.RootedTree

namespace StorageDb
open SortedAssoc SepChain

-- The pages of s reached from the root of tree hold exactly t.
structure TreeOn (s : FlatStore) (tree : BPlusTree) (t : RootedTree) : Prop where
  root : t.id = tree.rootPageId
  stored : Shape.Stored s.pages t.depth t.shape
  next : s.next = t.next
  sound : t.Sound

structure TreeAt (s : FlatStore) (tree : BPlusTree) (t : RootedTree) : Prop
    extends TreeOn s tree t where
  keys : ∀ x ∈ Shape.keys t.depth t.shape, x.length ≤ maxKeySize

theorem TreeAt.wf {s : FlatStore} {tree : BPlusTree} {t : RootedTree} (h : TreeAt s tree t) :
    t.WellFormed := ⟨h.sound,h.keys⟩

namespace RootedTree
open Shape

structure Takes (k v : Bytes) (t : RootedTree) : Prop where
  fits : InsertFits k v t.depth t.next t.shape
  halves : Halves k v t.depth ⊥ t.shape
  top : ∀ e, (t.grown k v).extra = some e → InternalFits [(e.1,Shape.id t.depth e.2)]
  next : (t.insert k v).next ≤ invalidPageId.toNat

theorem takes_iff {k v : Bytes} {t : RootedTree} : t.Takes k v ↔
    InsertFits k v t.depth t.next t.shape ∧ Halves k v t.depth ⊥ t.shape ∧
      (∀ e ∈ (t.grown k v).extra, InternalFits [(e.1,Shape.id t.depth e.2)]) ∧
      (t.insert k v).next ≤ invalidPageId.toNat :=
  ⟨fun h => ⟨h.fits,h.halves,h.top,h.next⟩,fun h => ⟨h.1,h.2.1,h.2.2.1,h.2.2.2⟩⟩

instance (k v : Bytes) (t : RootedTree) : Decidable (t.Takes k v) := decidable_of_iff' _ takes_iff

structure SplitsTell (k v : Bytes) (t : RootedTree) : Prop where
  parents : SplitsKnowParent k v t.depth t.next t.shape
  root : (t.grown k v).extra.isSome → Shape.parent t.depth t.shape = invalidPageId

-- What insert relies on and does not check: every page that it builds holds its entries, a node
-- that splits names its parent, the root names none, and page ids are left.
structure InsertSafe (k v : Bytes) (t : RootedTree) : Prop extends SplitsTell k v t where
  fits : InsertFits k v t.depth t.next t.shape
  next : (t.insert k v).next ≤ invalidPageId.toNat

theorem insertSafe_iff {k v : Bytes} {t : RootedTree} : t.InsertSafe k v ↔
    InsertFits k v t.depth t.next t.shape ∧ SplitsKnowParent k v t.depth t.next t.shape ∧
      ((t.grown k v).extra.isSome → Shape.parent t.depth t.shape = invalidPageId) ∧
      (t.insert k v).next ≤ invalidPageId.toNat :=
  ⟨fun h => ⟨h.fits,h.parents,h.root,h.next⟩,fun h => ⟨⟨h.2.1,h.2.2.1⟩,h.1,h.2.2.2⟩⟩

instance (k v : Bytes) (t : RootedTree) : Decidable (t.InsertSafe k v) :=
  decidable_of_iff' _ insertSafe_iff

theorem internalFits_single {sep : Bytes} (h : sep.length ≤ maxKeySize) (c : PageId) :
    InternalFits [(sep,c)] := by
  rw [InternalFits,internalBytes_cons,internalBytes_nil,pageSize_eq]
  simp only [maxKeySize] at h ⊢
  omega

theorem WellFormed.takes {k v : Bytes} {t : RootedTree} (h : t.WellFormed) (hs : t.InsertSafe k v)
    (hk : k.length ≤ maxKeySize) (hv : v.length ≤ maxValueSize) : t.Takes k v := by
  refine ⟨hs.fits,halves_of_limits hk hv _ _,fun e he => internalFits_single ?_ _,hs.next⟩
  have hmem : e.1 ∈ (t.grown k v).extra.toList.map Prod.fst := by simp [he]
  rcases insert_keys t.next h.bounded (Or.inl hmem) with hx | hx
  · exact hx ▸ hk
  · exact h.keys _ hx

end RootedTree

namespace Shape

variable {n : Nat} {pages pages' : Pages} {k : Bytes}

theorem leafFor_mem_ids (k : Bytes) (t : Shape n) : (leafFor k n t).id ∈ ids n t := by
  induction n with
  | zero => exact List.mem_singleton_self _
  | succ n ih =>
    exact List.mem_cons_of_mem _ (List.mem_flatMap.mpr
      ⟨_,route_mem k t.leftmost t.entries,ih (route k t.leftmost t.entries)⟩)

theorem Stored.leafFor {t : Shape n} (h : Stored pages n t) (k : Bytes) :
    ∃ nd, LeafStored pages (leafFor k n t) nd := by
  induction n with
  | zero => exact h
  | succ n ih => exact ih (h.2 _ (route_mem k t.leftmost t.entries))

theorem Stored.delete {t : Shape n} (h : Stored pages n t) (hnd : (ids n t).Nodup) (nd : BTreeNode)
    (hl : LeafStored pages' (Shape.delete k 0 (Shape.leafFor k n t)) nd)
    (hp : ∀ q, q ≠ (Shape.leafFor k n t).id → pages' q = pages q) :
    Stored pages' n (Shape.delete k n t) := by
  induction n with
  | zero => exact ⟨nd,hl⟩
  | succ n ih =>
    obtain ⟨⟨nb,hb⟩,hc⟩ := h
    obtain ⟨hbid,hkids⟩ := FlatStore.kids_disjoint hnd
    have hmem := route_mem k t.leftmost t.entries
    have hleaf := leafFor_mem_ids k (route k t.leftmost t.entries)
    have hchild := ih (hc _ hmem) ((List.nodup_flatMap.mp hkids).1 _ hmem) hl hp
    obtain ⟨h1,h2⟩ := labels_graft (Shape.id n) k (fun c => (Shape.delete k n c,[])) t.leftmost
      t.entries (id_delete k _)
    refine ⟨⟨nb,(hp t.id ?_).trans hb.page,hb.id,hb.parent,?_⟩,?_⟩
    · intro he
      have he : BranchNode.id t = (Shape.leafFor k n (route k t.leftmost t.entries)).id := he
      exact hbid (List.mem_flatMap.mpr ⟨_,hmem,he ▸ hleaf⟩)
    · change InternalPage nb (Shape.id n (graft _ _ _ _).1) (labels (Shape.id n) (graft _ _ _ _).2)
      rw [h1,h2]
      have := hb.layout
      rwa [← List.take_append_drop (reach k t.entries) (labels _ t.entries)] at this
    · intro c hm
      have hm' : c ∈ children (graft k _ t.leftmost t.entries).1
        (graft k _ t.leftmost t.entries).2 := hm
      rw [children_graft] at hm'
      rw [BranchNode.kids,children_split k t.leftmost t.entries,List.flatMap_append,
        List.flatMap_cons] at hkids
      have hother (hm : c ∈ (children t.leftmost t.entries).take (reach k t.entries) ∨
          c ∈ (children t.leftmost t.entries).drop (reach k t.entries + 1)) :
          Stored pages' n c := by
        refine (hc c (hm.elim List.mem_of_mem_take List.mem_of_mem_drop)).congr
          (fun q hq => hp q ?_)
        rintro rfl
        have hcount := List.nodup_iff_count_le_one.mp hkids
          (Shape.leafFor k n (route k t.leftmost t.entries)).id
        have h3 := List.count_pos_iff.mpr hleaf
        simp only [List.count_append] at hcount
        rcases hm with hm | hm
        · have h4 := List.count_pos_iff.mpr (List.mem_flatMap.mpr ⟨c,hm,hq⟩)
          change 0 < List.count (Shape.leafFor k n (route k t.leftmost t.entries)).id _ at h4
          omega
        · have h4 := List.count_pos_iff.mpr (List.mem_flatMap.mpr ⟨c,hm,hq⟩)
          change 0 < List.count (Shape.leafFor k n (route k t.leftmost t.entries)).id _ at h4
          omega
      simp only [children,List.mem_append,List.map_nil,List.mem_singleton] at hm'
      rcases hm' with hm | rfl | hm
      · exact hother (Or.inl hm)
      · exact hchild
      · exact hother (Or.inr hm)

end Shape

namespace BPlusTree
open Shape

variable {n fuel : Nat} {s : FlatStore} {tree : BPlusTree} {t : RootedTree} {k v sep : Bytes}

theorem newRoot_eq {l r : Shape n} (hl : Stored s.pages n l) (hr : Stored s.pages n r)
    (hnd : (ids n l ++ ids n r).Nodup) (hlt : ∀ q ∈ ids n l ++ ids n r, q.toNat < s.next)
    (hn : s.next < invalidPageId.toNat) (hfit : InternalFits [(sep,Shape.id n r)]) :
    ∃ s', (newRoot (Shape.id n l) sep (Shape.id n r) : Prog Error FlatStore BPlusTree) s =
        (.ok ⟨UInt32.ofNat s.next⟩,s') ∧ s'.next = s.next + 1 ∧
      Stored s'.pages (n + 1) ⟨UInt32.ofNat s.next,invalidPageId,
        setParent (UInt32.ofNat s.next) n l,[(sep,setParent (UInt32.ofNat s.next) n r)]⟩ := by
  set rid := UInt32.ofNat s.next with hrid
  have hridn : rid.toNat = s.next := toNat_ofNat_next hn
  have hne : ∀ q ∈ ids n l ++ ids n r, q ≠ rid := by
    rintro q hq rfl
    have := hlt _ hq
    omega
  obtain ⟨hndl,hndr,hdis⟩ := List.nodup_append.mp hnd
  obtain ⟨root,hins,hp,hh⟩ := (InternalPage.of_newInternal rid (Shape.id n l)).internalInsert_eq
    sorted_nil hfit
  rw [InternalPage.header_setLeftmostChild,BTreeNode.header_newInternal] at hh
  have hid : root.page.id = rid := congrArg Header.id hh
  set s1 := s.grow.put root.sealed.page with hs1
  have hw : (NodeStore.writeNode root : Prog Error FlatStore Unit) s.grow = (.ok (),s1) :=
    FlatStore.writeNode_eq (by rw [hid]; exact s.pages_grow_self)
  have hsame : ∀ q, q ≠ rid → s1.pages q = s.pages q := fun q hq => by
    rw [hs1,s.grow.pages_seal_ne (fun e => hq (e.trans hid)),s.pages_grow_ne hq]
  have hl1 : Stored s1.pages n l :=
    hl.congr (fun q hq => hsame q (hne q (List.mem_append_left _ hq)))
  have hr1 : Stored s1.pages n r :=
    hr.congr (fun q hq => hsame q (hne q (List.mem_append_right _ hq)))
  obtain ⟨s2,hset2,hl2,hn2,ha2⟩ := FlatStore.setParentOf_eq hl1 hndl rid
  have hr2 : Stored s2.pages n r := by
    refine hr1.congr (fun q hq => ha2 q ?_)
    rw [List.mem_singleton]
    rintro rfl
    exact hdis _ (id_mem_ids l) _ hq rfl
  obtain ⟨s3,hset3,hr3,hn3,ha3⟩ := FlatStore.setParentOf_eq hr2 hndr rid
  have hl3 : Stored s3.pages n (setParent rid n l) := by
    refine hl2.congr (fun q hq => ha3 q ?_)
    rw [ids_setParent] at hq
    rw [List.mem_singleton]
    rintro rfl
    exact hdis _ hq _ (id_mem_ids r) rfl
  have hroot : s3.pages rid = some root.sealed.page := by
    have h3 : rid ∉ [Shape.id n r] := fun hm =>
      hne _ (List.mem_append_right _ (id_mem_ids r)) (List.mem_singleton.mp hm).symm
    have h2 : rid ∉ [Shape.id n l] := fun hm =>
      hne _ (List.mem_append_left _ (id_mem_ids l)) (List.mem_singleton.mp hm).symm
    rw [ha3 rid h3,ha2 rid h2,← hid]
    exact s.grow.pages_put_self root.sealed.page
  refine ⟨s3,?_,?_,⟨⟨root.sealed,hroot,hid,?_,?_⟩,?_⟩⟩
  · refine (Prog.bind_ok (FlatStore.allocatePage_eq hn)).trans ?_
    rw [← hrid,hins]
    exact (Prog.bind_ok hw).trans ((Prog.bind_ok hset2).trans ((Prog.bind_ok hset3).trans rfl))
  · rw [hn3,hn2,hs1,FlatStore.next_put,FlatStore.next_grow]
  · exact (congrArg Header.parent root.header_sealed).trans (congrArg Header.parent hh)
  · change InternalPage _ (Shape.id n (setParent rid n l)) [(sep,Shape.id n (setParent rid n r))]
    rw [id_setParent,id_setParent]
    exact hp.of_updateChecksum
  · intro c hc
    simp only [BranchNode.kids,children,List.map_cons,List.map_nil,List.mem_cons,
      List.not_mem_nil,or_false] at hc
    rcases hc with rfl | rfl
    · exact hl3
    · exact hr3

theorem insert_root (h : TreeOn s tree t) (ht : t.Takes k v) (hp : t.SplitsTell k v)
    {s1 : FlatStore}
    (hg : Grew s s1 (ids t.depth t.shape) t.depth (t.grown k v)) (m : Nat) (new : Bool) :
    ∃ tree' s', rest tree (m + 1) t.depth t.shape (t.grown k v) new s1 = (.ok (new,tree'),s') ∧
      (t.insert k v).id = tree'.rootPageId ∧ s'.next = (t.insert k v).next ∧
      Stored s'.pages (t.insert k v).depth (t.insert k v).shape := by
  have hnode := (insert_node (k := k) (v := v) t.next t.shape).1
  obtain ⟨hle,hperm⟩ := insert_ids k v t.next h.sound.bounded
  have hroot := hp.root
  have htop := ht.top
  have hn := ht.next
  change Shape.id _ (t.grown k v).node = _ at hnode
  change t.next ≤ (t.grown k v).next at hle
  change (all ids t.depth (t.grown k v)).Perm (_ ++ fresh t.next (t.grown k v).next) at hperm
  rw [RootedTree.insert] at hn ⊢
  generalize hgr : t.grown k v = g at hg hroot htop hn hnode hle hperm ⊢
  obtain ⟨node,extra,next⟩ := g
  rcases extra with _ | ⟨sep,r⟩
  · exact ⟨tree,s1,rfl,hnode.trans h.root,hg.next,hg.node⟩
  · obtain ⟨hnd,hlt⟩ := nodup_fresh hperm hle (Nat.le_of_succ_le hn) h.sound.nodup h.sound.below
    have hall : all ids t.depth ⟨node,some (sep,r),next⟩ = ids _ node ++ ids _ r := by
      simp [all,children]
    rw [hall] at hnd hlt
    have hnext : s1.next = next := hg.next
    rw [← hnext] at hlt hn ⊢
    obtain ⟨s',hrun,hn',hst⟩ := newRoot_eq hg.node (hg.extra _ rfl) hnd hlt hn (htop _ rfl)
    refine ⟨⟨UInt32.ofNat s1.next⟩,s',?_,rfl,hn',hst⟩
    have hrest : rest tree (m + 1) t.depth t.shape ⟨node,some (sep,r),s1.next⟩ new =
        newRoot (Shape.id _ t.shape) sep (Shape.id _ r) >>= fun tree => pure (new,tree) := by
      have hnew : (insertIntoParent tree (m + 1) (Shape.id _ t.shape) sep (Shape.id _ r)
          invalidPageId : Prog Error FlatStore BPlusTree) = newRoot _ sep _ := if_pos rfl
      rw [← hnew,← hroot rfl]
      rfl
    rw [hrest,← hnode,Prog.bind_ok hrun]
    rfl

end BPlusTree

namespace TreeOn
open Shape

variable {fuel : Nat} {s : FlatStore} {tree : BPlusTree} {t : RootedTree} {k v : Bytes}

theorem findLeaf_eq (h : TreeOn s tree t) (k : Bytes) (hf : t.depth < fuel) :
    (tree.findLeaf fuel k : Prog Error FlatStore PageId) s =
      (.ok (leafFor k t.depth t.shape).id,s) := by
  have hf := BPlusTree.findLeaf_eq h.stored h.sound.bounded k hf
  rwa [show Shape.id t.depth t.shape = tree.rootPageId from h.root] at hf

theorem leafOf (h : TreeOn s tree t) (k : Bytes) : ∃ nd, LeafStored s.pages (t.leafOf k) nd :=
  h.stored.leafFor k

theorem insert_eq (h : TreeOn s tree t) (ht : t.Takes k v) (hp : t.SplitsTell k v)
    (hf : t.depth < fuel) :
    ∃ tree' s', (tree.insert fuel k v : Prog Error FlatStore _) s =
        (.ok ((find k t.contents).isNone,tree'),s') ∧ TreeOn s' tree' (t.insert k v) := by
  obtain ⟨m,rfl⟩ : ∃ m, fuel = m + 1 + t.depth := ⟨fuel - 1 - t.depth,by omega⟩
  have hb := h.sound.below
  have hfit := ht.fits
  have hpar := hp.parents
  have hn : (Shape.insert k v t.depth t.next t.shape).next ≤ invalidPageId.toNat :=
    (RootedTree.ids_raise (t.grown k v)).1.trans ht.next
  rw [← h.next] at hb hfit hpar hn
  obtain ⟨s1,hg,hrun⟩ := BPlusTree.insertAt_eq tree h.stored h.sound.bounded
    (inRange_bot_top k) ht.halves hfit hpar h.sound.nodup hb hn (m + 1)
  rw [h.next] at hg hrun
  obtain ⟨tree',s',hrest,hroot,hnext,hst⟩ := BPlusTree.insert_root h ht hp hg m
    (find k (leafFor k t.depth t.shape).entries).isNone
  refine ⟨tree',s',(Prog.bind_ok (h.findLeaf_eq k hf)).trans ?_,hroot,hst,hnext,
    h.sound.insert ht.halves ht.next⟩
  rw [h.sound.find_contents k]
  exact hrun.trans hrest

theorem delete_eq (h : TreeOn s tree t) (k : Bytes) (hf : t.depth < fuel) :
    ∃ s', (tree.delete fuel k : Prog Error FlatStore _) s = (.ok (find k t.contents),s') ∧
      TreeOn s' tree (t.delete k) ∧ (find k t.contents = none → s' = s) := by
  obtain ⟨nd,hl⟩ := h.stored.leafFor k
  have hsorted := leafFor_bounded h.sound.bounded k
  have hroot : (t.delete k).id = tree.rootPageId := (id_delete k t.shape).trans h.root
  rw [h.sound.find_contents k]
  cases hfind : find k (leafFor k t.depth t.shape).entries with
  | none =>
    refine ⟨s,?_,⟨hroot,?_,h.next,h.sound.delete k⟩,fun _ => rfl⟩
    · refine (Prog.bind_ok (h.findLeaf_eq k hf)).trans
        ((Prog.bind_ok (FlatStore.readNode_eq hl.page)).trans ?_)
      rw [hl.layout.leafDelete_absent hsorted hfind]
      rfl
    · refine h.stored.delete h.sound.nodup nd ⟨hl.page,hl.id,hl.parent,hl.sibling,?_⟩
        (fun _ _ => rfl)
      change LeafPage nd (erase k _)
      rw [erase_of_not_mem (find_eq_none.mp hfind)]
      exact hl.layout
  | some w =>
    obtain ⟨nd',hdel,hp,hh⟩ := hl.layout.leafDelete_found hsorted hfind
    obtain ⟨hg,hwrite⟩ := BPlusTree.grew_leaf hl hp hh
    obtain ⟨nd2,hl2⟩ := hg.node
    refine ⟨s.put nd'.sealed.page,?_,⟨hroot,?_,h.next,h.sound.delete k⟩,fun h => by cases h⟩
    · refine (Prog.bind_ok (h.findLeaf_eq k hf)).trans
        ((Prog.bind_ok (FlatStore.readNode_eq hl.page)).trans ?_)
      rw [hdel]
      exact (Prog.bind_ok hwrite).trans rfl
    · refine h.stored.delete h.sound.nodup nd2 hl2 (fun q hq => s.pages_seal_ne ?_)
      exact fun he => hq (he.trans ((congrArg Header.id hh).trans hl.id))

end TreeOn

namespace TreeAt

variable {fuel : Nat} {s : FlatStore} {tree : BPlusTree} {t : RootedTree} {k v : Bytes}

theorem insert_eq (h : TreeAt s tree t) (hs : t.InsertSafe k v) (hk : k.length ≤ maxKeySize)
    (hv : v.length ≤ maxValueSize) (hf : t.depth < fuel) :
    ∃ tree' s', (tree.insert fuel k v : Prog Error FlatStore _) s =
        (.ok ((find k t.contents).isNone,tree'),s') ∧ TreeAt s' tree' (t.insert k v) := by
  obtain ⟨tree',s',hrun,h'⟩ := h.toTreeOn.insert_eq (h.wf.takes hs hk hv) hs.toSplitsTell hf
  exact ⟨tree',s',hrun,⟨h',(h.wf.insert hk hv hs.next).keys⟩⟩

theorem delete_eq (h : TreeAt s tree t) (k : Bytes) (hf : t.depth < fuel) :
    ∃ s', (tree.delete fuel k : Prog Error FlatStore _) s = (.ok (find k t.contents),s') ∧
      TreeAt s' tree (t.delete k) := by
  obtain ⟨s',hrun,h',-⟩ := h.toTreeOn.delete_eq k hf
  exact ⟨s',hrun,⟨h',(h.wf.delete k).keys⟩⟩

end TreeAt

end StorageDb
