import Mathlib.Tactic
import StorageDb.Btree.MapRefinement

namespace StorageDb
open SortedAssoc SepChain

def minSeparators : Nat := 7

namespace BranchNode

variable {C : Type} {lab : C → PageId} {patch : PageId → C → C} {k : Bytes} {b : BranchNode C}
  {g : Grown C}

theorem internalBytes_le {es : List Link} (h : ∀ e ∈ es, e.1.length ≤ maxKeySize) :
    internalBytes es ≤ es.length * 264 := by
  rw [internalBytes]
  induction es with
  | nil => simp
  | cons e es ih =>
    have he : e.1.length ≤ 256 := h e List.mem_cons_self
    have hes := ih fun x hx => h x (List.mem_cons_of_mem e hx)
    simp only [List.map_cons,List.sum_cons,List.length_cons]
    omega

theorem length_of_full {s : Bytes} (hk : ∀ e ∈ b.entries, e.1.length ≤ maxKeySize)
    (hs : s.length ≤ maxKeySize) (hroom : ¬ InternalRoom s (labels lab b.entries)) :
    15 ≤ b.entries.length := by
  have hlen : (labels lab b.entries).length = b.entries.length := List.length_map ..
  have hbytes : internalBytes (labels lab b.entries) ≤ b.entries.length * 264 := by
    rw [← hlen]
    refine internalBytes_le fun e he => ?_
    obtain ⟨x,hx,rfl⟩ := List.mem_map.mp he
    exact hk x hx
  rw [InternalRoom,pageSize_eq] at hroom
  rw [maxKeySize] at hs
  omega

theorem absorb_wide (hk : ∀ e ∈ b.entries, e.1.length ≤ maxKeySize)
    (hs : ∀ e, g.extra = some e → e.1.length ≤ maxKeySize) :
    ((b.absorb lab patch k g).extra = none ∧
      b.entries.length ≤ (b.absorb lab patch k g).node.entries.length) ∨
    ∃ e, (b.absorb lab patch k g).extra = some e ∧
      minSeparators ≤ (b.absorb lab patch k g).node.entries.length ∧
      minSeparators ≤ e.2.entries.length := by
  obtain ⟨node,extra,next⟩ := g
  cases extra with
  | none =>
    refine Or.inl ⟨rfl,?_⟩
    change _ ≤ (graft k (fun _ => (node,[])) b.leftmost b.entries).2.length
    rw [length_graft]
    exact Nat.le_add_right _ _
  | some x =>
    obtain ⟨s,r⟩ := x
    have hgraft (y : C) : (graft k (fun _ => (node,[(s,y)])) b.leftmost b.entries).2.length =
        b.entries.length + 1 := length_graft ..
    simp only [absorb]
    split_ifs with hroom
    · refine Or.inl ⟨rfl,?_⟩
      change _ ≤ (graft k (fun _ => (node,[(s,patch b.id r)])) b.leftmost b.entries).2.length
      rw [hgraft]
      exact Nat.le_succ _
    · have hfull := length_of_full hk (hs (s,r) rfl) hroom
      set b' := b.withChildren (graft k (fun _ => (node,[(s,r)])) b.leftmost b.entries) with hb'
      have hlen : b'.entries.length = b.entries.length + 1 := hgraft r
      have hlt : b'.entries.length / 2 < b'.entries.length := by omega
      refine Or.inr ?_
      simp only [splitAt,List.getElem?_eq_getElem hlt,Option.map_some]
      refine ⟨_,rfl,?_,?_⟩
      · rw [List.length_take,minSeparators]
        omega
      · simp only [List.length_map,List.length_drop,minSeparators]
        omega

end BranchNode

namespace Shape

variable {n next least : Nat} {k v : Bytes} {lo : WithBot Bytes} {hi : WithTop Bytes}

def Wide : (n : Nat) → Nat → Shape n → Prop
  | 0, _, _ => True
  | n + 1, least, (b : BranchNode (Shape n)) =>
    least ≤ b.entries.length ∧ ∀ c ∈ BranchNode.kids b, Wide n minSeparators c

theorem wide_setParent (p : PageId) (t : Shape n) :
    Wide n least (setParent p n t) ↔ Wide n least t := by
  cases n <;> rfl

theorem forall_flatMap {C : Type} {P : C → Prop} {xs : List C} :
    (∀ q ∈ xs.flatMap (fun c => [P c]), q) ↔ ∀ c ∈ xs, P c := by
  constructor
  · intro h c hc
    exact h (P c) (List.mem_flatMap.mpr ⟨c,hc,List.mem_singleton_self _⟩)
  · intro h q hq
    obtain ⟨c,hc,hq⟩ := List.mem_flatMap.mp hq
    rw [List.mem_singleton.mp hq]
    exact h c hc

theorem Wide.delete {t : Shape n} (h : Wide n least t) (k : Bytes) :
    Wide n least (delete k n t) := by
  induction n generalizing least with
  | zero => trivial
  | succ n ih =>
    obtain ⟨hlen,hkids⟩ := h
    refine ⟨?_,?_⟩
    · change least ≤ (graft k (fun c => (Shape.delete k n c,[])) t.leftmost t.entries).2.length
      rw [length_graft]
      exact hlen
    · have hmem := forall_flatMap.mpr hkids
      rw [kids_flatMap _ k] at hmem
      rw [← forall_flatMap,delete_kids]
      intro q hq
      rcases List.mem_append.mp hq with hq | hq
      · exact hmem q (List.mem_append_left _ hq)
      · rcases List.mem_append.mp hq with hq | hq
        · rw [List.mem_singleton.mp hq]
          exact ih (hkids _ (route_mem k t.leftmost t.entries))
        · exact hmem q (List.mem_append_right _ (List.mem_append_right _ hq))

def WideGrown (n least : Nat) (g : Grown (Shape n)) : Prop :=
  (g.extra = none ∧ Wide n least g.node) ∨
    ∃ e, g.extra = some e ∧ Wide n minSeparators g.node ∧ Wide n minSeparators e.2

theorem WideGrown.kids {g : Grown (Shape n)} (h : WideGrown n minSeparators g) :
    ∀ c ∈ children g.node g.extra.toList, Wide n minSeparators c := by
  rcases h with ⟨he,hn⟩ | ⟨e,he,hn,hr⟩
  · rw [he]
    intro c hc
    obtain rfl := List.mem_singleton.mp hc
    exact hn
  · rw [he]
    intro c hc
    rcases List.mem_cons.mp hc with rfl | hc
    · exact hn
    · obtain rfl := List.mem_singleton.mp hc
      exact hr

theorem insert_wide {t : Shape n} (hb : Bounded n lo hi t) (hw : Wide n least t)
    (hkeys : ∀ x ∈ keys n t, x.length ≤ maxKeySize) (hk : k.length ≤ maxKeySize) (next : Nat) :
    WideGrown n least (insert k v n next t) := by
  induction n generalizing lo hi least with
  | zero =>
    cases he : (insert k v 0 next t).extra with
    | none => exact Or.inl ⟨he,trivial⟩
    | some e => exact Or.inr ⟨e,he,trivial,trivial⟩
  | succ n ih =>
    obtain ⟨hlen,hkids⟩ := hw
    have hroute := route_mem k t.leftmost t.entries
    obtain ⟨a,c,hx⟩ := chain_children hb _ hroute
    have hsub : ∀ x ∈ keys n (route k t.leftmost t.entries), x.length ≤ maxKeySize := fun x hx =>
      hkeys x (List.mem_append_right _ (List.mem_flatMap.mpr ⟨_,hroute,hx⟩))
    have hchild := ih hx (hkids _ hroute) hsub
    have hall : ∀ c ∈ BranchNode.allKids (insert k v (n + 1) next t), Wide n minSeparators c := by
      rw [← forall_flatMap,insert_kids next _ (fun p x => by rw [wide_setParent])]
      have hmem := forall_flatMap.mpr hkids
      rw [kids_flatMap _ k] at hmem
      intro q hq
      rcases List.mem_append.mp hq with hq | hq
      · exact hmem q (List.mem_append_left _ hq)
      · rcases List.mem_append.mp hq with hq | hq
        · exact forall_flatMap.mpr hchild.kids q hq
        · exact hmem q (List.mem_append_right _ (List.mem_append_right _ hq))
    have hs (e : Bytes × Shape n)
        (he : (insert k v n next (route k t.leftmost t.entries)).extra = some e) :
        e.1.length ≤ maxKeySize := by
      have hmem : e.1 ∈ (insert k v n next (route k t.leftmost t.entries)).extra.toList.map
          Prod.fst := by
        rw [he]
        exact List.mem_singleton_self _
      rcases insert_keys next hx (Or.inl hmem) with h | h
      · rwa [h]
      · exact hsub _ h
    have hsep : ∀ e ∈ t.entries, e.1.length ≤ maxKeySize := fun e he =>
      hkeys e.1 (List.mem_append_left _ (List.mem_map_of_mem he))
    rcases @BranchNode.absorb_wide _ (id n) (fun p => setParent p n) k t _ hsep hs with
      ⟨hnone,hle⟩ | ⟨e,hsome,hnode,hright⟩
    · refine Or.inl ⟨hnone,hlen.trans hle,fun c hc => hall c ?_⟩
      exact List.mem_append_left _ hc
    · refine Or.inr ⟨e,hsome,⟨hnode,fun c hc => hall c ?_⟩,hright,fun c hc => hall c ?_⟩
      · exact List.mem_append_left _ hc
      · refine List.mem_append_right _ (List.mem_flatMap.mpr ⟨e,?_,hc⟩)
        rw [show (insert k v (n + 1) next t).extra = some e from hsome]
        exact List.mem_singleton_self _

def branches : (n : Nat) → Shape n → Nat
  | 0, _ => 0
  | n + 1, (b : BranchNode (Shape n)) => 1 + ((BranchNode.kids b).map (branches n)).sum

theorem length_leaves (t : Shape (n + 1)) :
    (leaves (n + 1) t).length = ((BranchNode.kids t).map fun c => (leaves n c).length).sum :=
  List.length_flatMap

theorem length_ids (t : Shape n) : (ids n t).length = (leaves n t).length + branches n t := by
  induction n with
  | zero => rfl
  | succ n ih =>
    have hkids : ((BranchNode.kids t).map fun c => (ids n c).length).sum =
        ((BranchNode.kids t).map fun c => (leaves n c).length).sum +
          ((BranchNode.kids t).map (branches n)).sum := by
      rw [← List.sum_map_add]
      exact congrArg (fun f => ((BranchNode.kids t).map f).sum) (funext ih)
    rw [length_leaves,branches,Nat.add_left_comm,← hkids,← List.length_flatMap]
    exact Nat.add_comm _ 1

theorem length_kids (t : Shape (n + 1)) : (BranchNode.kids t).length = t.entries.length + 1 := by
  rw [BranchNode.kids,children,List.length_cons,List.length_map]

theorem sum_kids_ge {t : Shape (n + 1)} {f : Shape n → Nat} {m : Nat}
    (h : ∀ c ∈ BranchNode.kids t, m ≤ f c) :
    (t.entries.length + 1) * m ≤ ((BranchNode.kids t).map f).sum := by
  have hsum := List.card_nsmul_le_sum ((BranchNode.kids t).map f) m fun x hx => by
    obtain ⟨c,hc,rfl⟩ := List.mem_map.mp hx
    exact h c hc
  rwa [List.length_map,length_kids,smul_eq_mul] at hsum

theorem Wide.leaves_ge {t : Shape n} (h : Wide n minSeparators t) :
    8 ^ n ≤ (leaves n t).length := by
  induction n with
  | zero => exact le_rfl
  | succ n ih =>
    have hsum := sum_kids_ge fun c hc => ih (h.2 c hc)
    have hmin : 8 * 8 ^ n ≤ (t.entries.length + 1) * 8 ^ n :=
      Nat.mul_le_mul_right _ (Nat.succ_le_succ h.1)
    rw [length_leaves,Nat.pow_succ,Nat.mul_comm]
    exact hmin.trans hsum

theorem Wide.root_leaves_ge {t : Shape (n + 1)} (h : Wide (n + 1) 1 t) :
    2 * 8 ^ n ≤ (leaves (n + 1) t).length := by
  have hsum := sum_kids_ge fun c hc => (h.2 c hc).leaves_ge
  have hmin : 2 * 8 ^ n ≤ (t.entries.length + 1) * 8 ^ n :=
    Nat.mul_le_mul_right _ (Nat.succ_le_succ h.1)
  rw [length_leaves]
  exact hmin.trans hsum

theorem branches_le_of_kids {t : Shape (n + 1)}
    (h : ∀ c ∈ BranchNode.kids t, 7 * branches n c + 1 ≤ (leaves n c).length) :
    7 * branches (n + 1) t + t.entries.length ≤ (leaves (n + 1) t).length + 6 := by
  have hsum : ((BranchNode.kids t).map fun c => 7 * branches n c + 1).sum ≤
      ((BranchNode.kids t).map fun c => (leaves n c).length).sum := List.sum_le_sum h
  rw [List.sum_map_add,List.sum_map_mul_left,List.map_const',List.sum_replicate,length_kids,
    smul_eq_mul] at hsum
  rw [length_leaves,branches]
  omega

theorem Wide.branches_lt {t : Shape n} (h : Wide n minSeparators t) :
    7 * branches n t + 1 ≤ (leaves n t).length := by
  induction n with
  | zero => exact le_rfl
  | succ n ih =>
    have hkids := branches_le_of_kids fun c hc => ih (h.2 c hc)
    have hmin : 7 ≤ t.entries.length := h.1
    omega

theorem Wide.root_branches_le {t : Shape n} (h : Wide n 1 t) :
    7 * branches n t ≤ (leaves n t).length + 5 := by
  cases n with
  | zero => exact Nat.zero_le _
  | succ n =>
    have hkids := branches_le_of_kids fun c hc => (h.2 c hc).branches_lt
    have hmin : 1 ≤ t.entries.length := h.1
    omega

theorem length_insert_leaves (k v : Bytes) (next : Nat) (t : Shape n) :
    (all leaves n (insert k v n next t)).length ≤ (leaves n t).length + 1 := by
  obtain ⟨A,B,hold,hnew⟩ := insert_leaves k v next t
  have hone : ∀ g : Grown (Shape 0), (all leaves 0 g).length ≤ 2 := by
    rintro ⟨node,_ | e,next⟩
    · exact Nat.le_succ 1
    · exact le_rfl
  have hlen := hone ((leafFor k n t).insert k v next)
  have hleaf : (leaves 0 (leafFor k n t)).length = 1 := rfl
  rw [hold,hnew]
  simp only [List.length_append]
  omega

theorem fresh_append {a b c : Nat} (hab : a ≤ b) (hbc : b ≤ c) :
    fresh a b ++ fresh b c = fresh a c := by
  have hlen : c - a = (b - a) + (c - b) := by omega
  have hmid : a + (b - a) = b := by omega
  rw [fresh,fresh,fresh,hlen,← List.range'_append_1,hmid,List.map_append]

theorem length_fresh (a b : Nat) : (fresh a b).length = b - a := by
  rw [fresh,List.length_map,List.length_range']

end Shape

namespace RootedTree
open Shape
open scoped List

variable {base : Nat} {k v : Bytes} {t : RootedTree}

-- The tree takes every page from base on, each for one node, and no branch is nearly empty.
structure Compact (base : Nat) (t : RootedTree) : Prop where
  wide : Wide t.depth 1 t.shape
  pages : (ids t.depth t.shape).Perm (fresh base t.next)
  base : base ≤ t.next

theorem compact_single (pid : PageId) : Compact pid.toNat (single pid) where
  wide := trivial
  pages := by
    have hfresh : fresh pid.toNat (pid.toNat + 1) = [pid] := by simp [fresh]
    exact List.Perm.of_eq hfresh.symm
  base := Nat.le_succ _

theorem wide_raise {n : Nat} {g : Grown (Shape n)} (h : WideGrown n 1 g) :
    Wide (raise g).depth 1 (raise g).shape := by
  obtain ⟨node,extra,next⟩ := g
  rcases h with ⟨rfl,hn⟩ | ⟨⟨sep,r⟩,rfl,hn,hr⟩
  · exact hn
  · refine ⟨le_rfl,fun c hc => ?_⟩
    rcases List.mem_cons.mp hc with rfl | hc
    · exact (wide_setParent _ _).mpr hn
    · obtain rfl := List.mem_singleton.mp hc
      exact (wide_setParent _ _).mpr hr

theorem Compact.insert (h : t.Compact base) (hw : t.WellFormed) (hk : k.length ≤ maxKeySize) :
    (t.insert k v).Compact base := by
  obtain ⟨hle,hperm⟩ := insert_ids k v t.next hw.bounded
  obtain ⟨hle',hperm'⟩ := ids_raise (t.grown k v)
  refine ⟨wide_raise (insert_wide hw.bounded h.wide hw.keys hk t.next),?_,
    h.base.trans (hle.trans hle')⟩
  calc ids (t.insert k v).depth (t.insert k v).shape
    _ ~ all ids t.depth (t.grown k v) ++ fresh (t.grown k v).next (t.insert k v).next := hperm'
    _ ~ (ids t.depth t.shape ++ fresh t.next (t.grown k v).next) ++
        fresh (t.grown k v).next (t.insert k v).next := hperm.append_right _
    _ ~ (fresh base t.next ++ fresh t.next (t.grown k v).next) ++
        fresh (t.grown k v).next (t.insert k v).next := (h.pages.append_right _).append_right _
    _ = fresh base (t.insert k v).next := by
      have hmid : fresh base t.next ++ fresh t.next (t.grown k v).next =
          fresh base (t.grown k v).next := fresh_append h.base hle
      rw [hmid]
      exact fresh_append (h.base.trans hle) hle'

theorem Compact.delete (h : t.Compact base) (k : Bytes) : (t.delete k).Compact base where
  wide := h.wide.delete k
  pages := (ids_delete k t.shape).symm ▸ h.pages
  base := h.base

theorem Compact.apply (h : t.Compact base) (hw : t.WellFormed) {op : TreeOp} (hl : op.InLimits) :
    (t.apply op).Compact base := by
  cases op with
  | insert k v => exact h.insert hw hl.1
  | delete k => exact h.delete k
  | search k => exact h

theorem Compact.count (h : t.Compact base) :
    t.leaves.length + branches t.depth t.shape = t.next - base := by
  have hlen := h.pages.length_eq
  rw [length_fresh,length_ids] at hlen
  exact hlen

theorem Compact.height (h : t.Compact base) (hd : t.depth ≠ 0) :
    base + 2 * 8 ^ (t.depth - 1) ≤ t.next := by
  have hcount := h.count
  have hbase := h.base
  obtain ⟨depth,shape,next⟩ := t
  cases depth with
  | zero => exact absurd rfl hd
  | succ n =>
    have hleaves := h.wide.root_leaves_ge
    simp only [leaves,Nat.add_sub_cancel] at hcount hbase hleaves ⊢
    omega

theorem Compact.depth_le (h : t.Compact base) (hn : t.next ≤ invalidPageId.toNat) :
    t.depth ≤ 11 := by
  by_contra hd
  have hheight := h.height (by omega)
  have hpow : 8 ^ 11 ≤ 8 ^ (t.depth - 1) := Nat.pow_le_pow_right (by decide) (by omega)
  have hmax : invalidPageId.toNat = 4294967295 := rfl
  omega

theorem Compact.pages_le (h : t.Compact base) :
    t.next ≤ base + t.leaves.length + (t.leaves.length + 5) / 7 := by
  have hcount := h.count
  have hbranch : 7 * branches t.depth t.shape ≤ t.leaves.length + 5 := h.wide.root_branches_le
  have hbase := h.base
  omega

end RootedTree

def TreeOp.isInsert : TreeOp → Bool
  | .insert _ _ => true
  | .delete _ => false
  | .search _ => false

theorem RootedTree.leaves_apply (op : TreeOp) (t : RootedTree) :
    (t.apply op).leaves.length ≤ t.leaves.length + [op].countP TreeOp.isInsert := by
  cases op with
  | insert k v =>
    rw [apply,insert,leaves_raise]
    exact Shape.length_insert_leaves k v t.next t.shape
  | delete k =>
    obtain ⟨A,B,hold,hnew⟩ := Shape.delete_leaves k t.shape
    have hnew' : (t.delete k).leaves = _ := hnew
    have hold' : t.leaves = _ := hold
    rw [apply,hnew',hold']
    simp [Shape.leaves]
  | search k => exact le_rfl

namespace TreeAt

variable {base : Nat} {s : FlatStore} {tree : BPlusTree} {t : RootedTree}

theorem run_compact (h : TreeAt s tree t) (hc : t.Compact base) {ops : List TreeOp}
    (hl : ∀ op ∈ ops, op.InLimits) (hs : RootedTree.Along RootedTree.Safe ops t) :
    ∃ tree' s' t', (BPlusTree.run 12 ops tree : Prog Error FlatStore _) s =
        (.ok ((KvMap.run ops t.toMap).1,tree'),s') ∧ TreeAt s' tree' t' ∧ t'.Compact base ∧
      t'.toMap = (KvMap.run ops t.toMap).2 ∧
      t'.leaves.length ≤ t.leaves.length + ops.countP TreeOp.isInsert := by
  induction ops generalizing s tree t with
  | nil => exact ⟨tree,s,t,rfl,h,hc,rfl,le_rfl⟩
  | cons op ops ih =>
    have hlt : t.depth < 12 := Nat.lt_succ_of_le (hc.depth_le h.wf.next)
    obtain ⟨tree1,s1,hrun1,h1,hmap⟩ := h.apply_eq (hl op List.mem_cons_self) hs.1 hlt
    obtain ⟨tree2,s2,t2,hrun2,h2,hc2,hmap2,hlen⟩ :=
      ih h1 (hc.apply h.wf (hl op List.mem_cons_self))
        (fun x hx => hl x (List.mem_cons_of_mem _ hx)) hs.2
    rw [hmap] at hrun2 hmap2
    refine ⟨tree2,s2,t2,(Prog.bind_ok hrun1).trans ((Prog.bind_ok hrun2).trans rfl),h2,hc2,hmap2,?_⟩
    have hstep := RootedTree.leaves_apply op t
    have hcount : (op :: ops).countP TreeOp.isInsert =
        [op].countP TreeOp.isInsert + ops.countP TreeOp.isInsert :=
      @List.countP_append _ _ [op] ops
    omega

end TreeAt

namespace BPlusTree
open BufferPoolManager

variable {disk : DiskManager} {capacity : Nat} {ops : List TreeOp}

theorem create_run_compact (hd : disk.Healthy) (hc : 1 ≤ capacity)
    (hn : disk.numPages.toNat < invalidPageId.toNat) (hl : ∀ op ∈ ops, op.InLimits)
    (hs : RootedTree.Along RootedTree.Safe ops (RootedTree.single disk.numPages)) :
    ∃ tree p' t, (create >>= run 12 ops) (new disk capacity) =
        (.ok ((KvMap.run ops KvMap.empty).1,tree),p') ∧ Quiet p' ∧ TreeAt p'.flat tree t ∧
      t.Compact disk.numPages.toNat ∧ t.toMap = (KvMap.run ops KvMap.empty).2 ∧
      t.leaves.length ≤ 1 + ops.countP TreeOp.isInsert := by
  obtain ⟨hq,-⟩ := quiet_new hd hc
  obtain ⟨p1,hcreate,hq1,hflat⟩ := hq.create_eq hn
  have hat : TreeAt p1.flat ⟨disk.numPages⟩ (RootedTree.single disk.numPages) := by
    rw [hflat]
    exact TreeAt.single rfl hn
  obtain ⟨tree,s',t,hrun,hat',hcomp,hmap,hlen⟩ :=
    hat.run_compact (RootedTree.compact_single _) hl hs
  obtain ⟨p',hrun',hq',rfl⟩ := (congr_run models_refines 12 ops _).of_ok ⟨hq1,rfl⟩ hrun
  exact ⟨tree,p',t,(Prog.bind_ok hcreate).trans hrun',hq',hat',hcomp,hmap,hlen⟩

theorem run_height_bounded (hd : disk.Healthy) (hc : 1 ≤ capacity)
    (hn : disk.numPages.toNat < invalidPageId.toNat) (hl : ∀ op ∈ ops, op.InLimits)
    (hs : RootedTree.Along RootedTree.Safe ops (RootedTree.single disk.numPages)) :
    ∃ tree p' t, (create >>= run 12 ops) (new disk capacity) =
        (.ok ((KvMap.run ops KvMap.empty).1,tree),p') ∧ TreeAt p'.flat tree t ∧ t.depth ≤ 11 ∧
      (t.depth ≠ 0 →
        disk.numPages.toNat + 2 * 8 ^ (t.depth - 1) ≤ p'.disk.numPages.toNat) := by
  obtain ⟨tree,p',t,hrun,-,hat,hcomp,-⟩ := create_run_compact hd hc hn hl hs
  refine ⟨tree,p',t,hrun,hat,hcomp.depth_le hat.wf.next,fun h0 => ?_⟩
  exact (hcomp.height h0).trans hat.next.symm.le

theorem run_height_bounded_mixed : ∃ tree p' t,
    (create >>= run 12 mixedOps) (new (DiskManager.open_ [] []) 1) =
        (.ok ((KvMap.run mixedOps KvMap.empty).1,tree),p') ∧ TreeAt p'.flat tree t ∧ t.depth ≤ 11 ∧
      (t.depth ≠ 0 → 0 + 2 * 8 ^ (t.depth - 1) ≤ p'.disk.numPages.toNat) :=
  run_height_bounded ⟨rfl,rfl⟩ le_rfl (by decide) (by decide +kernel) (by decide +kernel)

theorem run_pages_used (hd : disk.Healthy) (hc : 1 ≤ capacity)
    (hn : disk.numPages.toNat < invalidPageId.toNat) (hl : ∀ op ∈ ops, op.InLimits)
    (hs : RootedTree.Along RootedTree.Safe ops (RootedTree.single disk.numPages)) :
    ∃ rs tree p' t, (create >>= run 12 ops) (new disk capacity) = (.ok (rs,tree),p') ∧
      TreeAt p'.flat tree t ∧
      (Shape.ids t.depth t.shape).Perm
        (Shape.fresh disk.numPages.toNat p'.disk.numPages.toNat) ∧
      p'.disk.numPages.toNat ≤ disk.numPages.toNat +
        (ops.countP TreeOp.isInsert + 1) + (ops.countP TreeOp.isInsert + 6) / 7 := by
  obtain ⟨tree,p',t,hrun,-,hat,hcomp,-,hlen⟩ := create_run_compact hd hc hn hl hs
  have hnext : p'.disk.numPages.toNat = t.next := hat.next
  refine ⟨_,tree,p',t,hrun,hat,?_,?_⟩
  · rw [hnext]
    exact hcomp.pages
  · have hle := hcomp.pages_le
    omega

theorem run_pages_used_mixed : ∃ rs tree p' t,
    (create >>= run 12 mixedOps) (new (DiskManager.open_ [] []) 1) = (.ok (rs,tree),p') ∧
      TreeAt p'.flat tree t ∧
      (Shape.ids t.depth t.shape).Perm (Shape.fresh 0 p'.disk.numPages.toNat) ∧
      p'.disk.numPages.toNat ≤ 0 + (13 + 1) + (13 + 6) / 7 :=
  run_pages_used ⟨rfl,rfl⟩ le_rfl (by decide) (by decide +kernel) (by decide +kernel)

end BPlusTree

end StorageDb
