import Mathlib.Tactic
import StorageDb.Btree.Height
import StorageDb.Btree.ParentPointers

namespace StorageDb
open SortedAssoc SepChain SlotPage

-- Sizes so close together that a node cut by count leaves no half too large for its page.
structure Sizes where
  leastKey : Nat
  mostKey : Nat
  leastEntry : Nat
  mostEntry : Nat
  limit : mostKey ≤ maxKeySize
  separators : (8 + mostKey) * ((8 + leastKey) + (8 + mostKey)) ≤ (8 + leastKey) * (pageSize - 30)
  entries : mostEntry * (leastEntry + mostEntry) ≤ leastEntry * (pageSize - 26)

namespace Sizes

def AdmitsKey (sz : Sizes) (k : Bytes) : Prop := sz.leastKey ≤ k.length ∧ k.length ≤ sz.mostKey

def Admits (sz : Sizes) (k v : Bytes) : Prop :=
  sz.AdmitsKey k ∧ v.length ≤ maxValueSize ∧ sz.leastEntry ≤ 6 + k.length + v.length ∧
    6 + k.length + v.length ≤ sz.mostEntry

instance (sz : Sizes) (k v : Bytes) : Decidable (sz.Admits k v) :=
  inferInstanceAs (Decidable ((_ ∧ _) ∧ _ ∧ _ ∧ _))

def short : Sizes := ⟨0,147,6,153,by decide,by decide,by decide⟩

theorem separators_of_fixed {keyLen : Nat} (hk : keyLen ≤ maxKeySize) :
    (8 + keyLen) * ((8 + keyLen) + (8 + keyLen)) ≤ (8 + keyLen) * (pageSize - 30) := by
  simp only [maxKeySize,pageSize_eq] at hk ⊢
  exact Nat.mul_le_mul_left _ (by omega)

theorem entries_of_fixed {keyLen valueLen : Nat} (hk : keyLen ≤ maxKeySize)
    (hv : valueLen ≤ maxValueSize) :
    (6 + keyLen + valueLen) * ((6 + keyLen + valueLen) + (6 + keyLen + valueLen)) ≤
      (6 + keyLen + valueLen) * (pageSize - 26) := by
  simp only [maxKeySize,maxValueSize,pageSize_eq] at hk hv ⊢
  exact Nat.mul_le_mul_left _ (by omega)

def fixed (keyLen valueLen : Nat) (hk : keyLen ≤ maxKeySize) (hv : valueLen ≤ maxValueSize) :
    Sizes where
  leastKey := keyLen
  mostKey := keyLen
  leastEntry := 6 + keyLen + valueLen
  mostEntry := 6 + keyLen + valueLen
  limit := hk
  separators := separators_of_fixed hk
  entries := entries_of_fixed hk hv

end Sizes

variable {sz : Sizes} {k v : Bytes}

namespace LeafNode

theorem leafBytes_upsert_of_found {w : Bytes} {es : List Entry} (hs : Sorted es)
    (hf : find k es = some w) : leafBytes (upsert k v es) + w.length = leafBytes es + v.length := by
  have hes : es = es.take (rank k es) ++ (k,w) :: es.drop (rank k es + 1) := by
    rw [← drop_rank_of_found hs hf,List.take_append_drop]
  have hb := congrArg leafBytes hes
  rw [leafBytes_append,leafBytes_cons] at hb
  rw [upsert_of_found hs hf,leafBytes_append,leafBytes_cons]
  dsimp only at hb ⊢
  omega

theorem halves_fit {es : List Entry} (hs : Sorted es) (hn : find k es = none) (hf : LeafFits es)
    (he : ∀ e ∈ es, sz.Admits e.1 e.2) (hk : sz.Admits k v) :
    LeafFits ((upsert k v es).take ((upsert k v es).length / 2)) ∧
      LeafFits ((upsert k v es).drop ((upsert k v es).length / 2)) := by
  set ys := upsert k v es with hys
  have hall : ∀ y ∈ ys, sz.leastEntry ≤ 6 + y.1.length + y.2.length ∧
      6 + y.1.length + y.2.length ≤ sz.mostEntry := fun y hy => by
    rcases mem_upsert hy with rfl | hy
    · exact hk.2.2
    · exact (he y hy).2.2
  have hb : leafBytes ys = (6 + k.length + v.length) + leafBytes es := by
    rw [leafBytes_perm (perm_upsert_of_absent v hs hn),leafBytes_cons]
  have hcap : 26 ≤ pageSize := by decide
  have hw := hk.2.2.2
  rw [LeafFits] at hf
  have ht : leafBytes ys ≤ pageSize - 26 + sz.mostEntry := by omega
  have hhalf {xs zs : List Entry} (hp : (xs ++ zs).Perm ys) (hlen : xs.length ≤ zs.length + 1) :
      LeafFits xs := by
    have hle : leafBytes xs ≤ pageSize - 26 := sum_le_of_halved hall ht sz.entries hp hlen
    rw [LeafFits]
    omega
  refine ⟨hhalf (List.Perm.of_eq (List.take_append_drop _ ys)) ?_,
    hhalf (List.perm_append_comm.trans (List.Perm.of_eq (List.take_append_drop (ys.length / 2) ys)))
      ?_⟩
  all_goals
    simp only [List.length_take,List.length_drop]
    omega

theorem fits_of_sizes {l : LeafNode} (hs : Sorted l.entries) (hf : LeafFits l.entries)
    (he : ∀ e ∈ l.entries, sz.Admits e.1 e.2) (hk : sz.Admits k v)
    (hup : ∀ w, find k l.entries = some w → v.length ≤ w.length) : l.Fits k v := by
  cases hfind : find k l.entries with
  | some w =>
    refine Or.inr (Or.inl ⟨by rw [hfind]; rfl,?_⟩)
    have hb := leafBytes_upsert_of_found (v := v) hs hfind
    have hle := hup w hfind
    rw [LeafFits] at hf ⊢
    omega
  | none =>
    by_cases hroom : LeafRoom k v l.entries
    · exact Or.inl ⟨hroom,hfind⟩
    · exact Or.inr (Or.inr ⟨hfind,halves_fit hs hfind hf he hk⟩)

end LeafNode

namespace BranchNode

variable {C : Type} {lab : C → PageId} {b : BranchNode C} {g : Grown C}

theorem internalBytes_grafted {s : Bytes} {r : C} (h : g.extra = some (s,r))
    (hl : lab g.node = lab (route k b.leftmost b.entries)) :
    internalBytes (labels lab (b.grafted k g).2) =
      8 + s.length + internalBytes (labels lab b.entries) := by
  obtain ⟨-,h2⟩ := labels_graft lab k (fun _ => (g.node,g.extra.toList)) b.leftmost b.entries hl
  have hsum := congrArg internalBytes (List.take_append_drop (reach k b.entries)
    (labels lab b.entries))
  rw [internalBytes_append] at hsum
  rw [grafted,h2,h]
  change internalBytes (_ ++ ((s,lab r) :: [] ++ _)) = _
  rw [List.cons_append,List.nil_append,internalBytes_append,internalBytes_cons]
  dsimp only
  omega

theorem fits_of_sizes {k : Bytes} (hl : lab g.node = lab (route k b.leftmost b.entries))
    (hf : InternalFits (labels lab b.entries)) (hb : ∀ e ∈ b.entries, sz.AdmitsKey e.1)
    (hs : ∀ e, g.extra = some e → sz.AdmitsKey e.1) : b.Fits lab k g := by
  cases he : g.extra with
  | none => simp only [Fits,he]
  | some e =>
    obtain ⟨s,r⟩ := e
    have hgraft : b.grafted k g = graft k (fun _ => (g.node,[(s,r)])) b.leftmost b.entries := by
      rw [grafted,he,Option.toList_some]
    simp only [Fits,he,← hgraft]
    refine or_iff_not_imp_left.mpr fun _ => ?_
    set es := labels lab (b.grafted k g).2 with hes
    have hall : ∀ e ∈ es, 8 + sz.leastKey ≤ 8 + e.1.length ∧ 8 + e.1.length ≤ 8 + sz.mostKey := by
      intro e hmem
      obtain ⟨x,hx,rfl⟩ := List.mem_map.mp hmem
      have hkey : sz.AdmitsKey x.1 := by
        rcases Shape.mem_labels_graft (List.mem_map_of_mem hx) with hx | hx
        · rw [he] at hx
          rw [List.mem_singleton.mp hx]
          exact hs (s,r) he
        · obtain ⟨y,hy,hyx⟩ := List.mem_map.mp hx
          rw [← hyx]
          exact hb y hy
      exact ⟨Nat.add_le_add_left hkey.1 8,Nat.add_le_add_left hkey.2 8⟩
    have hbytes : internalBytes es = 8 + s.length + internalBytes (labels lab b.entries) :=
      internalBytes_grafted he hl
    have hcap : 30 ≤ pageSize := by decide
    have hw : s.length ≤ sz.mostKey := (hs (s,r) he).2
    rw [InternalFits] at hf
    have ht : internalBytes es ≤ pageSize - 30 + (8 + sz.mostKey) := by omega
    have hhalf {xs zs : List Link} (hp : (xs ++ zs).Perm es) (hlen : xs.length ≤ zs.length + 1) :
        InternalFits xs := by
      have hle : internalBytes xs ≤ pageSize - 30 := sum_le_of_halved hall ht sz.separators hp hlen
      rw [InternalFits]
      omega
    refine ⟨hhalf (List.Perm.of_eq (List.take_append_drop _ es)) ?_,
      hhalf (List.perm_append_comm.trans
        (List.Perm.of_eq (List.take_append_drop (es.length / 2 + 1) es))) ?_⟩
    all_goals
      simp only [List.length_take,List.length_drop]
      omega

end BranchNode

namespace Shape

variable {n next : Nat} {lo : WithBot Bytes} {hi : WithTop Bytes} {pages : Pages}

theorem leafFor_entries (k : Bytes) (t : Shape n) :
    ∀ e ∈ (leafFor k n t).entries, e ∈ contents n t := by
  intro e he
  obtain ⟨A,B,hold,-⟩ := insert_leaves k [] 0 t
  rw [contents_eq_leaves,hold]
  refine List.mem_flatMap.mpr ⟨((leafFor k n t).id,(leafFor k n t).sibling,(leafFor k n t).entries),
    List.mem_append_right _ (List.mem_append_left _ ?_),he⟩
  exact List.mem_singleton_self _

theorem insertFits_of_sizes {t : Shape n} (hst : Stored pages n t) (hb : Bounded n lo hi t)
    (hkeys : ∀ x ∈ keys n t, sz.AdmitsKey x)
    (he : ∀ e ∈ (leafFor k n t).entries, sz.Admits e.1 e.2) (hk : sz.Admits k v)
    (hup : ∀ w, find k (leafFor k n t).entries = some w → v.length ≤ w.length) :
    InsertFits k v n next t := by
  induction n generalizing lo hi with
  | zero =>
    obtain ⟨nd,hl⟩ := hst
    exact LeafNode.fits_of_sizes hb.1 hl.layout.fits he hk hup
  | succ n ih =>
    obtain ⟨⟨nd,hbr⟩,hkids⟩ := hst
    have hroute := route_mem k t.leftmost t.entries
    obtain ⟨a,c,hx⟩ := chain_children hb _ hroute
    have hsub : ∀ x ∈ keys n (route k t.leftmost t.entries), sz.AdmitsKey x := fun x hx =>
      hkeys x (List.mem_append_right _ (List.mem_flatMap.mpr ⟨_,hroute,hx⟩))
    refine ⟨ih (hkids _ hroute) hx hsub he hup,?_⟩
    refine BranchNode.fits_of_sizes (insert_node next _).1 hbr.layout.fits
      (fun e he => hkeys e.1 (List.mem_append_left _ (List.mem_map_of_mem he))) fun e he => ?_
    have hmem : e.1 ∈ (insert k v n next (route k t.leftmost t.entries)).extra.toList.map
        Prod.fst := by
      rw [he]
      exact List.mem_singleton_self _
    rcases insert_keys next hx (Or.inl hmem) with h | h
    · rw [h]
      exact hk.1
    · exact hsub _ h

theorem reach_of_all {k : Bytes} {C : Type} {es : List (Bytes × C)} (h : ∀ e ∈ es, e.1 < k) :
    reach k es = es.length := by
  induction es with
  | nil => rfl
  | cons e es ih =>
    obtain ⟨s,c⟩ := e
    have hs : s < k := h (s,c) List.mem_cons_self
    rw [reach,if_neg hs.not_gt,ih fun x hx => h x (List.mem_cons_of_mem _ hx),List.length_cons]

theorem noLeftOrphan_of_last {t : Shape n} (h : ∀ x ∈ keys n t, x < k) :
    NoLeftOrphan k v n next t := by
  induction n with
  | zero => trivial
  | succ n ih =>
    have hroute := route_mem k t.leftmost t.entries
    refine ⟨ih fun x hx => h x (List.mem_append_right _ (List.mem_flatMap.mpr ⟨_,hroute,hx⟩)),?_⟩
    intro e _ _
    rw [reach_of_all fun e he => h e.1 (List.mem_append_left _ (List.mem_map_of_mem he))]
    omega

theorem insert_extra_of_found {t : Shape n} {w : Bytes}
    (h : find k (leafFor k n t).entries = some w) :
    (insert k v n next t).extra = none := by
  induction n with
  | zero =>
    change (LeafNode.insert k v next t).extra = none
    rw [LeafNode.insert,if_pos (Or.inl (by rw [show find k t.entries = some w from h]; rfl))]
  | succ n ih =>
    change (BranchNode.absorb (id n) (fun p => setParent p n) k t
      (insert k v n next (route k t.leftmost t.entries))).extra = none
    rw [BranchNode.absorb,ih h]

theorem noLeftOrphan_of_found {t : Shape n} {w : Bytes}
    (h : find k (leafFor k n t).entries = some w) : NoLeftOrphan k v n next t := by
  induction n with
  | zero => trivial
  | succ n ih =>
    refine ⟨ih h,fun e he => ?_⟩
    rw [insert_extra_of_found (t := route k t.leftmost t.entries) h] at he
    cases he

end Shape

namespace TreeOp

-- What a caller who only appends keeps to, in terms of the calls made so far: the map they have
-- built and the greatest key they have used.
def Appends (sz : Sizes) (m : KvMap) (top : WithBot Bytes) : TreeOp → Prop
  | .insert k v => sz.Admits k v ∧ (m k = none → top < k) ∧ ∀ w ∈ m k, v.length ≤ w.length
  | .delete _ => True
  | .search _ => True

def mark (top : WithBot Bytes) : TreeOp → WithBot Bytes
  | .insert k _ => max top k
  | .delete _ => top
  | .search _ => top

instance (sz : Sizes) (m : KvMap) (top : WithBot Bytes) (op : TreeOp) :
    Decidable (op.Appends sz m top) :=
  match op with
  | .insert _ _ => inferInstanceAs (Decidable (_ ∧ (_ → _) ∧ _))
  | .delete _ => .isTrue trivial
  | .search _ => .isTrue trivial

theorem Appends.inLimits {m : KvMap} {top : WithBot Bytes} {op : TreeOp} (h : op.Appends sz m top) :
    op.InLimits := by
  cases op with
  | insert k v => exact ⟨h.1.1.2.trans sz.limit,h.1.2.1⟩
  | delete k => trivial
  | search k => trivial

end TreeOp

def AppendRun (sz : Sizes) : List TreeOp → KvMap → WithBot Bytes → Prop
  | [], _, _ => True
  | op :: ops, m, top => op.Appends sz m top ∧ AppendRun sz ops (KvMap.apply op m).2 (op.mark top)

def decideAppendRun (sz : Sizes) : (ops : List TreeOp) → (m : KvMap) → (top : WithBot Bytes) →
    Decidable (AppendRun sz ops m top)
  | [], _, _ => .isTrue trivial
  | op :: ops, m, top =>
    have := decideAppendRun sz ops (KvMap.apply op m).2 (op.mark top)
    inferInstanceAs (Decidable (_ ∧ _))

instance (sz : Sizes) (ops : List TreeOp) (m : KvMap) (top : WithBot Bytes) :
    Decidable (AppendRun sz ops m top) := decideAppendRun sz ops m top

theorem AppendRun.inLimits {ops : List TreeOp} {m : KvMap} {top : WithBot Bytes}
    (h : AppendRun sz ops m top) : ∀ op ∈ ops, op.InLimits := by
  induction ops generalizing m top with
  | nil => exact fun op hop => absurd hop List.not_mem_nil
  | cons op ops ih =>
    intro x hx
    rcases List.mem_cons.mp hx with rfl | hx
    · exact h.1.inLimits
    · exact ih h.2 x hx

theorem AppendRun.of_sorted {es : List Entry} {m : KvMap} {top : WithBot Bytes} (hs : Sorted es)
    (hadm : ∀ e ∈ es, sz.Admits e.1 e.2) (htop : ∀ e ∈ es, top < e.1)
    (hm : ∀ k, m k ≠ none → (k : WithBot Bytes) ≤ top) :
    AppendRun sz (es.map fun e => .insert e.1 e.2) m top := by
  induction es generalizing m top with
  | nil => trivial
  | cons e es ih =>
    obtain ⟨hlt,hs⟩ := sorted_cons.mp hs
    have htop1 := htop e List.mem_cons_self
    have hnone : m e.1 = none := by
      by_contra h
      exact absurd (hm e.1 h) htop1.not_ge
    have hmark : max top (e.1 : WithBot Bytes) = e.1 := max_eq_right htop1.le
    refine ⟨⟨hadm e List.mem_cons_self,fun _ => htop1,fun w hw => ?_⟩,?_⟩
    · rw [hnone] at hw
      cases hw
    · change AppendRun sz _ (Function.update m e.1 (some e.2)) (max top e.1)
      rw [hmark]
      refine ih hs (fun x hx => hadm x (List.mem_cons_of_mem _ hx))
        (fun x hx => WithBot.coe_lt_coe.mpr (hlt x hx)) fun k hk => ?_
      rw [Function.update_apply] at hk
      split_ifs at hk with hke
      · rw [hke]
      · exact (hm k hk).trans htop1.le

namespace RootedTree
open Shape

variable {base : Nat} {top : WithBot Bytes} {t : RootedTree}

structure Appended (sz : Sizes) (base : Nat) (top : WithBot Bytes) (t : RootedTree) : Prop where
  parented : t.Parented
  compact : t.Compact base
  keys : ∀ x ∈ Shape.keys t.depth t.shape, sz.AdmitsKey x ∧ (x : WithBot Bytes) ≤ top
  entries : ∀ e ∈ t.contents, sz.Admits e.1 e.2

theorem appended_single (sz : Sizes) (pid : PageId) : Appended sz pid.toNat ⊥ (single pid) where
  parented := ⟨trivial,rfl⟩
  compact := compact_single pid
  keys _ hx := absurd hx List.not_mem_nil
  entries _ he := absurd he List.not_mem_nil

theorem Compact.insert_next (h : t.Compact base) (hw : t.WellFormed) (hk : k.length ≤ maxKeySize)
    (hroom : base + (t.leaves.length + 1) + (t.leaves.length + 6) / 7 ≤ invalidPageId.toNat) :
    (t.insert k v).next ≤ invalidPageId.toNat := by
  have hle := (h.insert (v := v) hw hk).pages_le
  have hleaves : (t.insert k v).leaves.length ≤ t.leaves.length + 1 := leaves_apply (.insert k v) t
  omega

theorem Appended.insert (h : t.Appended sz base top) {s : FlatStore} {tree : BPlusTree}
    (hat : TreeAt s tree t) (ha : (TreeOp.insert k v).Appends sz t.toMap top)
    (hroom : base + (t.leaves.length + 1) + (t.leaves.length + 6) / 7 ≤ invalidPageId.toNat) :
    t.InsertSafe k v ∧ (t.insert k v).Parented := by
  obtain ⟨hadm,hnew,hold⟩ := ha
  have hfind := hat.sound.find_contents k
  have hfit : InsertFits k v t.depth t.next t.shape := by
    refine insertFits_of_sizes hat.stored hat.wf.bounded (fun x hx => (h.keys x hx).1)
      (fun e he => h.entries e (leafFor_entries k _ e he)) hadm fun w hw => hold w ?_
    exact hfind.trans hw
  have hleft : NoLeftOrphan k v t.depth t.next t.shape := by
    cases hf : find k (leafFor k t.depth t.shape).entries with
    | some w => exact noLeftOrphan_of_found hf
    | none =>
      have hlt := hnew (hfind.trans hf)
      exact noLeftOrphan_of_last fun x hx => WithBot.coe_lt_coe.mp ((h.keys x hx).2.trans_lt hlt)
  have hnext := h.compact.insert_next (v := v) hat.wf (hadm.1.2.trans sz.limit) hroom
  exact ⟨⟨h.parented.splitsTell k v,hfit,hnext⟩,h.parented.insert hfit hleft⟩

theorem Appended.apply (h : t.Appended sz base top) {s : FlatStore} {tree : BPlusTree}
    (hat : TreeAt s tree t) {op : TreeOp} (ha : op.Appends sz t.toMap top)
    (hroom : base + (t.leaves.length + 1) + (t.leaves.length + 6) / 7 ≤ invalidPageId.toNat) :
    Safe op t ∧ (t.apply op).Appended sz base (op.mark top) := by
  have hstep : Safe op t ∧ (t.apply op).Parented := by
    cases op with
    | insert k v => exact h.insert hat ha hroom
    | delete k => exact ⟨trivial,h.parented.delete k⟩
    | search k => exact ⟨trivial,h.parented⟩
  obtain ⟨hsafe,hpar⟩ := hstep
  refine ⟨hsafe,hpar,h.compact.apply hat.wf ha.inLimits,?_,?_⟩
  · intro x hx
    cases op with
    | insert k v =>
      rcases insert_keys t.next hat.wf.bounded (keys_raise hx) with rfl | hx
      · exact ⟨ha.1.1,le_max_right _ _⟩
      · exact ⟨(h.keys x hx).1,(h.keys x hx).2.trans (le_max_left _ _)⟩
    | delete k => exact h.keys x (delete_keys hx)
    | search k => exact h.keys x hx
  · intro e he
    cases op with
    | insert k v =>
      rw [RootedTree.apply,hat.sound.contents_insert] at he
      rcases mem_upsert he with rfl | he
      · exact ha.1
      · exact h.entries e he
    | delete k =>
      rw [RootedTree.apply,hat.sound.contents_delete] at he
      exact h.entries e (List.mem_of_mem_filter he)
    | search k => exact h.entries e he

theorem Appended.along (h : t.Appended sz base top) {s : FlatStore} {tree : BPlusTree}
    (hat : TreeAt s tree t) {ops : List TreeOp} (ha : AppendRun sz ops t.toMap top)
    (hroom : base + (t.leaves.length + ops.countP TreeOp.isInsert + 1) +
      (t.leaves.length + ops.countP TreeOp.isInsert + 6) / 7 ≤ invalidPageId.toNat) :
    Along Safe ops t := by
  induction ops generalizing s tree t top with
  | nil => trivial
  | cons op ops ih =>
    have hcount : (op :: ops).countP TreeOp.isInsert =
        [op].countP TreeOp.isInsert + ops.countP TreeOp.isInsert :=
      @List.countP_append _ _ [op] ops
    obtain ⟨hsafe,h1⟩ := h.apply hat ha.1 (by omega)
    have hlt : t.depth < 12 := Nat.lt_succ_of_le (h.compact.depth_le hat.wf.next)
    obtain ⟨tree1,s1,-,hat1,hmap⟩ := hat.apply_eq ha.1.inLimits hsafe hlt
    have hleaves := leaves_apply op t
    refine ⟨hsafe,ih h1 hat1 (hmap ▸ ha.2) (by omega)⟩

end RootedTree

theorem AppendRun.safe {ops : List TreeOp} {pid : PageId} (ha : AppendRun sz ops KvMap.empty ⊥)
    (hroom : pid.toNat + (ops.countP TreeOp.isInsert + 2) + (ops.countP TreeOp.isInsert + 7) / 7 ≤
      invalidPageId.toNat) : RootedTree.Along RootedTree.Safe ops (RootedTree.single pid) := by
  have hn : pid.toNat < invalidPageId.toNat := by omega
  have hat := @TreeAt.single ⟨fun _ => none,pid.toNat⟩ pid rfl hn
  refine (RootedTree.appended_single sz pid).along hat ha ?_
  change _ + (1 + _ + 1) + (1 + _ + 6) / 7 ≤ _
  omega

namespace BPlusTree
open BufferPoolManager

theorem appending_run_exact {disk : DiskManager} {capacity : Nat} {ops : List TreeOp}
    (hd : disk.Healthy) (hc : 1 ≤ capacity) (ha : AppendRun sz ops KvMap.empty ⊥)
    (hroom : disk.numPages.toNat + (ops.countP TreeOp.isInsert + 2) +
      (ops.countP TreeOp.isInsert + 7) / 7 ≤ invalidPageId.toNat) :
    ∃ tree p', (create >>= run 12 ops) (new disk capacity) =
      (.ok ((KvMap.run ops KvMap.empty).1,tree),p') := by
  have hn : disk.numPages.toNat < invalidPageId.toNat := by omega
  obtain ⟨tree,p',-,hrun,-⟩ := create_run_compact hd hc hn ha.inLimits (ha.safe hroom)
  exact ⟨tree,p',hrun⟩

def appendOps : List TreeOp :=
  (List.range 40).map (fun i => .insert (UInt8.ofNat i :: List.replicate 99 7)
    (List.replicate 40 1)) ++
    [.delete (3 :: List.replicate 99 7),.insert (5 :: List.replicate 99 7) [2],
      .search (5 :: List.replicate 99 7),.insert [200] [3],.search (3 :: List.replicate 99 7)]

theorem appending_run_exact_short : ∃ tree p', (create >>= run 12 appendOps)
    (new (DiskManager.open_ [] []) 1) = (.ok ((KvMap.run appendOps KvMap.empty).1,tree),p') :=
  @appending_run_exact .short _ _ _ ⟨rfl,rfl⟩ le_rfl (by decide +kernel) (by decide +kernel)

end BPlusTree

end StorageDb
