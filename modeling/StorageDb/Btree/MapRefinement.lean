import Mathlib.Tactic
import StorageDb.Btree.Create

namespace StorageDb
open SortedAssoc SepChain

namespace BPlusTree
open BufferPoolManager

theorem run_matches_map {disk : DiskManager} {capacity fuel : Nat} {ops : List TreeOp}
    (hd : disk.Healthy) (hc : 1 ≤ capacity) (hn : disk.numPages.toNat < invalidPageId.toNat)
    (hl : ∀ op ∈ ops, op.InLimits)
    (hs : RootedTree.Along RootedTree.Safe ops (RootedTree.single disk.numPages))
    (hf : ops.length ≤ fuel) :
    ∃ tree p', (create >>= run fuel ops) (new disk capacity) =
      (.ok ((KvMap.run ops KvMap.empty).1,tree),p') := by
  obtain ⟨tree,p',hrun,-,-⟩ := create_run_eq hd hc hn hl hs hf
  exact ⟨tree,p',hrun⟩

def wideKey (i : Nat) : Bytes := UInt8.ofNat i :: List.replicate 255 0

def wideValue : Bytes := List.replicate 256 1

def descendingOps (m : Nat) : List TreeOp :=
  (List.range m).map (fun i => .insert (wideKey (250 - i)) wideValue)

def mixedOps : List TreeOp := descendingOps 12 ++
  [.search (wideKey 245),.insert (wideKey 245) [],.delete (wideKey 250),.search (wideKey 250)]

def mixedResults : List TreeResult := List.replicate 12 (.inserted true) ++
  [.found (some wideValue),.inserted false,.deleted (some wideValue),.found none]

theorem run_matches_map_descending : ∃ tree p',
    (create >>= run 16 mixedOps) (new (DiskManager.open_ [] []) 1) =
      (.ok (mixedResults,tree),p') := by
  have hd : (DiskManager.open_ [] []).Healthy := ⟨rfl,rfl⟩
  have hlen : mixedOps.length ≤ 16 := by decide
  have hmap : (KvMap.run mixedOps KvMap.empty).1 = mixedResults := by decide +kernel
  have h := run_matches_map hd (le_refl 1) (by decide) (by decide +kernel) (by decide +kernel) hlen
  rwa [hmap] at h

theorem run_append {σ : Type} [NodeStore σ] (fuel : Nat) (xs ys : List TreeOp) (tree : BPlusTree) :
    (run fuel (xs ++ ys) tree : Prog Error σ _) = run fuel xs tree >>= fun a =>
      run fuel ys a.2 >>= fun b => pure (a.1 ++ b.1,b.2) := by
  induction xs generalizing tree with
  | nil => simp [run]
  | cons op xs ih => simp [run,ih]

end BPlusTree

-- insert asks leaf_can_fit only for a new key.
theorem TreeOn.insert_overflow {fuel : Nat} {s : FlatStore} {tree : BPlusTree} {t : RootedTree}
    {k v w : Bytes} (h : TreeOn s tree t) (hf : t.depth < fuel)
    (hw : find k (Shape.leafFor k t.depth t.shape).entries = some w) {xs : List Entry} {e : Entry}
    (hup : upsert k v (Shape.leafFor k t.depth t.shape).entries = xs ++ [e]) (hx : LeafFits xs)
    (ho : pageSize < leafFormat.total xs + (e.1.length + e.2.length)) :
    (tree.insert fuel k v s).1 = .error .panic := by
  obtain ⟨nd,hl⟩ := h.stored.leafFor k
  have hsorted := Shape.leafFor_bounded h.sound.bounded k
  have hrun : (tree.insert fuel k v : Prog Error FlatStore _) s = (.error .panic,s) := by
    refine (Prog.bind_ok (h.findLeaf_eq k hf)).trans
      ((Prog.bind_ok (FlatStore.readNode_eq hl.page)).trans ?_)
    rw [hl.layout.leafFindSlot_eq hsorted,hw,hl.layout.leafInsert_overflow hsorted hw hup hx ho]
    rfl
  rw [hrun]

namespace BPlusTree
open BufferPoolManager

-- Seven full entries, a full key and a short key on one page; the tenth call lengthens the value
-- of the short key.
def fillOps : List TreeOp :=
  (List.range 7).map (fun i => .insert (wideKey i) wideValue) ++
    [.insert (wideKey 7) [],.insert (List.replicate 100 9) []]

def overflowOps : List TreeOp := fillOps ++ [.insert (List.replicate 100 9) wideValue]

theorem fillOps_stored : ∃ rs tree p, (create >>= run 10 fillOps)
    (new (DiskManager.open_ [] []) 1) = (.ok (rs,tree),p) ∧ Quiet p ∧
      TreeOn p.flat tree (fillOps.foldl (fun t op => t.apply op) (RootedTree.single 0)) := by
  have hd : (DiskManager.open_ [] []).Healthy := ⟨rfl,rfl⟩
  have hlen : fillOps.length ≤ 10 := by decide
  obtain ⟨tree,p,hrun,hq,hat⟩ := create_run_eq hd (le_refl 1) (by decide) (by decide +kernel)
    (by decide +kernel) hlen
  exact ⟨_,tree,p,hrun,hq,hat.toTreeOn⟩

theorem fillOps_overflow {tree : BPlusTree} {p : BufferPoolManager} (hq : Quiet p)
    (h : TreeOn p.flat tree (fillOps.foldl (fun t op => t.apply op) (RootedTree.single 0))) :
    (tree.insert 10 (List.replicate 100 9) wideValue p).1 = .error .panic := by
  have hup : upsert (List.replicate 100 9) wideValue
      (Shape.leafFor (List.replicate 100 9) _
        (fillOps.foldl (fun t op => t.apply op) (RootedTree.single 0)).shape).entries =
      ((List.range 7).map (fun i => (wideKey i,wideValue)) ++ [(wideKey 7,[])]) ++
        [(List.replicate 100 9,wideValue)] := by decide +kernel
  have hpanic : (tree.insert 10 (List.replicate 100 9) wideValue p.flat).1 = .error .panic :=
    h.insert_overflow (w := []) (by decide +kernel) (by decide +kernel) hup (by decide +kernel)
      (by decide +kernel)
  exact (congr_insert models_refines tree 10 _ _).of_panic ⟨hq,rfl⟩ hpanic

theorem update_overflow_panics : (∀ op ∈ overflowOps, op.InLimits) ∧
    ((create >>= run 10 overflowOps) (new (DiskManager.open_ [] []) 1)).1 = .error .panic := by
  refine ⟨by decide +kernel,?_⟩
  obtain ⟨rs,tree,p,hrun,hq,h⟩ := fillOps_stored
  have hpool := fillOps_overflow hq h
  have hlast : run 10 [.insert (List.replicate 100 9) wideValue] tree p = (.error .panic,_) :=
    Prog.bind_error (Prog.bind_error (Prod.ext hpool rfl))
  have hrun' : run 10 overflowOps = fun tree => run 10 fillOps tree >>= fun a =>
      run 10 [.insert (List.replicate 100 9) wideValue] a.2 >>= fun b =>
        (pure (a.1 ++ b.1,b.2) : Prog Error BufferPoolManager _) :=
    funext (run_append 10 fillOps _)
  rw [hrun',← bind_assoc,Prog.bind_ok hrun]
  exact congrArg Prod.fst (Prog.bind_error hlast)

end BPlusTree

end StorageDb
