import Mathlib.Tactic
import StorageDb.Btree.LeafPage
import StorageDb.Btree.InternalPage

namespace StorageDb
open SortedAssoc SepChain

structure LeafNode where
  id : PageId
  parent : PageId
  sibling : PageId
  entries : List Entry
  deriving DecidableEq

structure BranchNode (C : Type) where
  id : PageId
  parent : PageId
  leftmost : C
  entries : List (Bytes × C)
  deriving DecidableEq

-- A tree whose leaves all lie at depth n, with the page ids, parent pointers and sibling links
-- that its pages hold.
abbrev Shape : Nat → Type
  | 0 => LeafNode
  | n + 1 => BranchNode (Shape n)

namespace Shape

def id : (n : Nat) → Shape n → PageId
  | 0, (l : LeafNode) => l.id
  | _ + 1, (b : BranchNode _) => b.id

def parent : (n : Nat) → Shape n → PageId
  | 0, (l : LeafNode) => l.parent
  | _ + 1, (b : BranchNode _) => b.parent

def setParent (p : PageId) : (n : Nat) → Shape n → Shape n
  | 0, (l : LeafNode) => { l with parent := p }
  | _ + 1, (b : BranchNode _) => { b with parent := p }

abbrev LeafView := PageId × PageId × List Entry

def leaves : (n : Nat) → Shape n → List LeafView
  | 0, (l : LeafNode) => [(l.id,l.sibling,l.entries)]
  | n + 1, (b : BranchNode (Shape n)) => (children b.leftmost b.entries).flatMap (leaves n)

def contents : (n : Nat) → Shape n → List Entry
  | 0, (l : LeafNode) => l.entries
  | n + 1, (b : BranchNode (Shape n)) => SepChain.contents (contents n) b.leftmost b.entries

def ids : (n : Nat) → Shape n → List PageId
  | 0, (l : LeafNode) => [l.id]
  | n + 1, (b : BranchNode (Shape n)) => b.id :: (children b.leftmost b.entries).flatMap (ids n)

def Bounded : (n : Nat) → WithBot Bytes → WithTop Bytes → Shape n → Prop
  | 0, lo, hi, (l : LeafNode) => Sorted l.entries ∧ ∀ e ∈ l.entries, InRange lo hi e.1
  | n + 1, lo, hi, (b : BranchNode (Shape n)) => Chain (Bounded n) lo hi b.leftmost b.entries

def ParentsOk : (n : Nat) → Shape n → Prop
  | 0, _ => True
  | n + 1, (b : BranchNode (Shape n)) =>
    ∀ c ∈ children b.leftmost b.entries, parent n c = b.id ∧ ParentsOk n c

def leafFor (k : Bytes) : (n : Nat) → Shape n → LeafNode
  | 0, (l : LeafNode) => l
  | n + 1, (b : BranchNode (Shape n)) => leafFor k n (route k b.leftmost b.entries)

def lower (k : Bytes) : (n : Nat) → WithBot Bytes → Shape n → WithBot Bytes
  | 0, lo, _ => lo
  | n + 1, lo, (b : BranchNode (Shape n)) =>
    lower k n (floor k lo b.entries) (route k b.leftmost b.entries)

end Shape

-- What an insertion makes of a node: the node itself, and the separator and new right sibling
-- when it has split.
structure Grown (C : Type) where
  node : C
  extra : Option (Bytes × C)
  next : Nat

def LeafRoom (k v : Bytes) (es : List Entry) : Prop :=
  26 + leafBytes es + 6 + (6 + k.length + v.length) ≤ pageSize

instance (k v : Bytes) (es : List Entry) : Decidable (LeafRoom k v es) :=
  inferInstanceAs (Decidable (_ ≤ _))

-- An empty leaf without room for its first entry is split all the same. Its left half stays empty,
-- and the new separator must not repeat the one before it.
def Shape.Halves (k v : Bytes) (n : Nat) (lo : WithBot Bytes) (t : Shape n) : Prop :=
  (leafFor k n t).entries = [] → LeafRoom k v [] ∨ lower k n lo t < k

instance (k v : Bytes) (n : Nat) (lo : WithBot Bytes) (t : Shape n) :
    Decidable (Shape.Halves k v n lo t) := inferInstanceAs (Decidable (_ → _))

def InternalRoom (k : Bytes) (es : List Link) : Prop :=
  30 + internalBytes es + 8 + (8 + k.length) ≤ pageSize

instance (k : Bytes) (es : List Link) : Decidable (InternalRoom k es) :=
  inferInstanceAs (Decidable (_ ≤ _))

namespace LeafNode

def splitAt (l : LeafNode) (es : List Entry) (next : Nat) : Grown LeafNode where
  node := { l with entries := es.take (es.length / 2), sibling := UInt32.ofNat next }
  extra := (es.drop (es.length / 2)).head?.map (fun e =>
    (e.1,⟨UInt32.ofNat next,invalidPageId,l.sibling,es.drop (es.length / 2)⟩))
  next := next + 1

def insert (k v : Bytes) (next : Nat) (l : LeafNode) : Grown LeafNode :=
  if (find k l.entries).isSome ∨ LeafRoom k v l.entries then
    ⟨{ l with entries := upsert k v l.entries },none,next⟩
  else l.splitAt (upsert k v l.entries) next

def Fits (k v : Bytes) (l : LeafNode) : Prop :=
  let es := upsert k v l.entries
  LeafRoom k v l.entries ∧ find k l.entries = none ∨
    (find k l.entries).isSome ∧ LeafFits es ∨
    find k l.entries = none ∧
      LeafFits (es.take (es.length / 2)) ∧ LeafFits (es.drop (es.length / 2))

instance (k v : Bytes) (l : LeafNode) : Decidable (Fits k v l) :=
  inferInstanceAs (Decidable (_ ∧ _ ∨ _ ∧ _ ∨ _ ∧ _ ∧ _))

end LeafNode

namespace BranchNode

variable {C : Type}

def withChildren (b : BranchNode C) (g : C × List (Bytes × C)) : BranchNode C :=
  { b with leftmost := g.1, entries := g.2 }

-- The children of the right half are patched to it; those of the left half stay as they are.
def splitAt (patch : PageId → C → C) (b : BranchNode C) (next : Nat) : Grown (BranchNode C) :=
  let sp := b.entries.length / 2
  { node := { b with entries := b.entries.take sp }
    extra := b.entries[sp]?.map (fun e => (e.1,
      { id := UInt32.ofNat next
        parent := invalidPageId
        leftmost := patch (UInt32.ofNat next) e.2
        entries := (b.entries.drop (sp + 1)).map
          (fun x => (x.1,patch (UInt32.ofNat next) x.2)) }))
    next := next + 1 }

def absorb (lab : C → PageId) (patch : PageId → C → C) (k : Bytes) (b : BranchNode C)
    (g : Grown C) : Grown (BranchNode C) :=
  match g.extra with
  | none => ⟨b.withChildren (graft k (fun _ => (g.node,[])) b.leftmost b.entries),none,g.next⟩
  | some (s,r) =>
    if InternalRoom s (labels lab b.entries) then
      ⟨b.withChildren (graft k (fun _ => (g.node,[(s,patch b.id r)])) b.leftmost b.entries),
        none,g.next⟩
    else
      (b.withChildren (graft k (fun _ => (g.node,[(s,r)])) b.leftmost b.entries)).splitAt patch
        g.next

def Fits (lab : C → PageId) (k : Bytes) (b : BranchNode C) (g : Grown C) : Prop :=
  match g.extra with
  | none => True
  | some (s,r) =>
    let es := labels lab (graft k (fun _ => (g.node,[(s,r)])) b.leftmost b.entries).2
    InternalRoom s (labels lab b.entries) ∨
      InternalFits (es.take (es.length / 2)) ∧ InternalFits (es.drop (es.length / 2 + 1))

instance (lab : C → PageId) (k : Bytes) (b : BranchNode C) (g : Grown C) :
    Decidable (Fits lab k b g) :=
  match g with
  | ⟨_,none,_⟩ => .isTrue trivial
  | ⟨_,some (_,_),_⟩ => inferInstanceAs (Decidable (_ ∨ _ ∧ _))

end BranchNode

namespace Shape

def insert (k v : Bytes) : (n : Nat) → Nat → Shape n → Grown (Shape n)
  | 0, next, (l : LeafNode) => LeafNode.insert k v next l
  | n + 1, next, (b : BranchNode (Shape n)) =>
    b.absorb (id n) (fun p => setParent p n) k (insert k v n next (route k b.leftmost b.entries))

def InsertFits (k v : Bytes) : (n : Nat) → Nat → Shape n → Prop
  | 0, _, (l : LeafNode) => l.Fits k v
  | n + 1, next, (b : BranchNode (Shape n)) =>
    InsertFits k v n next (route k b.leftmost b.entries) ∧
      b.Fits (id n) k (insert k v n next (route k b.leftmost b.entries))

def decideInsertFits (k v : Bytes) : (n next : Nat) → (t : Shape n) →
    Decidable (InsertFits k v n next t)
  | 0, _, (l : LeafNode) => inferInstanceAs (Decidable (l.Fits k v))
  | n + 1, next, (b : BranchNode (Shape n)) =>
    have := decideInsertFits k v n next (route k b.leftmost b.entries)
    inferInstanceAs (Decidable (_ ∧ _))

instance (k v : Bytes) (n next : Nat) (t : Shape n) : Decidable (InsertFits k v n next t) :=
  decideInsertFits k v n next t

-- A child that splits finds its parent through its parent pointer.
def SplitsKnowParent (k v : Bytes) : (n : Nat) → Nat → Shape n → Prop
  | 0, _, _ => True
  | n + 1, next, (b : BranchNode (Shape n)) =>
    SplitsKnowParent k v n next (route k b.leftmost b.entries) ∧
      ((insert k v n next (route k b.leftmost b.entries)).extra.isSome →
        parent n (route k b.leftmost b.entries) = b.id)

def decideSplitsKnowParent (k v : Bytes) : (n next : Nat) → (t : Shape n) →
    Decidable (SplitsKnowParent k v n next t)
  | 0, _, _ => .isTrue trivial
  | n + 1, next, (b : BranchNode (Shape n)) =>
    have := decideSplitsKnowParent k v n next (route k b.leftmost b.entries)
    inferInstanceAs (Decidable (_ ∧ (_ → _)))

instance (k v : Bytes) (n next : Nat) (t : Shape n) : Decidable (SplitsKnowParent k v n next t) :=
  decideSplitsKnowParent k v n next t

def delete (k : Bytes) : (n : Nat) → Shape n → Shape n
  | 0, (l : LeafNode) => { l with entries := erase k l.entries }
  | n + 1, (b : BranchNode (Shape n)) =>
    b.withChildren (graft k (fun c => (delete k n c,[])) b.leftmost b.entries)

end Shape

end StorageDb
