/-
The B+Tree of `btree.go`, over an arena of nodes.

Go's `*Node` pointers become indices into an arena, the layout the spec's §9 proposes for
a pointer graph with parent back-links: `t.node p` is the node `p` points to, `t.fresh` is
the number of nodes allocated so far, and `nil` is `none`.  Each method is transcribed
statement by statement and in the source's order, because the order of the field writes
is what the tree's behaviour hangs on: `splitLeaf` and `splitInternal` read
`leaf.parent` / `node.parent` a second time *after* `insertIntoParent` has returned.

Loops that Go runs to completion get fuel: the descent of `findLeaf` and
`findFirstLeaf`, the climb `insertIntoParent → splitInternal → insertIntoParent`, and the
walks along the leaf chain in `Range` and `Size`.  The fuel is the arena size, and `none`
means the call does not return: it runs out of fuel, or Go would panic on a nil or
out-of-range access.  `BTreeShape.lean` shows this never happens on a reachable tree.

* `descend` — the descent loop, shared by `findLeaf` and `findFirstLeaf`;
* `insertIntoLeaf`, `splitLeaf`, `insertIntoParent`, `splitInternal` — the insert path;
* `BTree.insert`, `BTree.get`, `BTree.delete`, `BTree.range`, `BTree.size` — the methods;
* `BTree.run` — a sequence of `Insert` and `Delete` calls on one tree.

Design notes: `splitInternal` takes the `insertIntoParent` it calls as an argument, so the
mutual recursion of the source is one structural recursion on the fuel.  Slice writes
`append(s[:i], append([]T{x}, s[i:]...)...)` are `s.take i ++ x :: s.drop i`.
-/
import XMongoStorage.Bytes

namespace XMongoStorage

/-- `btree.Node`.  `values` is used by leaves only, `children` by internal nodes only. -/
structure Node where
  isLeaf : Bool
  keys : List Bytes
  values : List Bytes
  children : List Nat
  next : Option Nat
  parent : Option Nat

/-- `newLeafNode()`. -/
def newLeafNode : Node :=
  { isLeaf := true, keys := [], values := [], children := [], next := none, parent := none }

/-- `newInternalNode()`. -/
def newInternalNode : Node :=
  { isLeaf := false, keys := [], values := [], children := [], next := none, parent := none }

@[simp] theorem newLeafNode_isLeaf : newLeafNode.isLeaf = true := rfl
@[simp] theorem newLeafNode_keys : newLeafNode.keys = [] := rfl
@[simp] theorem newLeafNode_values : newLeafNode.values = [] := rfl
@[simp] theorem newLeafNode_children : newLeafNode.children = [] := rfl
@[simp] theorem newLeafNode_next : newLeafNode.next = none := rfl
@[simp] theorem newLeafNode_parent : newLeafNode.parent = none := rfl
@[simp] theorem newInternalNode_isLeaf : newInternalNode.isLeaf = false := rfl
@[simp] theorem newInternalNode_values : newInternalNode.values = [] := rfl
@[simp] theorem newInternalNode_next : newInternalNode.next = none := rfl
@[simp] theorem newInternalNode_parent : newInternalNode.parent = none := rfl

/-! Projections of a node chosen by an `if`, so that `simp` reads single fields through the
arena updates below. -/

@[simp] theorem Node.isLeaf_ite (c : Prop) [Decidable c] (a b : Node) :
    (if c then a else b).isLeaf = if c then a.isLeaf else b.isLeaf := by split <;> rfl
@[simp] theorem Node.keys_ite (c : Prop) [Decidable c] (a b : Node) :
    (if c then a else b).keys = if c then a.keys else b.keys := by split <;> rfl
@[simp] theorem Node.values_ite (c : Prop) [Decidable c] (a b : Node) :
    (if c then a else b).values = if c then a.values else b.values := by split <;> rfl
@[simp] theorem Node.children_ite (c : Prop) [Decidable c] (a b : Node) :
    (if c then a else b).children = if c then a.children else b.children := by split <;> rfl
@[simp] theorem Node.next_ite (c : Prop) [Decidable c] (a b : Node) :
    (if c then a else b).next = if c then a.next else b.next := by split <;> rfl
@[simp] theorem Node.parent_ite (c : Prop) [Decidable c] (a b : Node) :
    (if c then a else b).parent = if c then a.parent else b.parent := by split <;> rfl

/-- `btree.BTree`: the arena, the number of allocated nodes, the root and the order.  Nodes
from `fresh` on are not allocated. -/
structure BTree where
  heap : Nat → Node
  fresh : Nat
  root : Nat
  order : Nat

/-- `NewBTree(order)`: a single empty leaf; an order below 3 is raised to 3. -/
def newBTree (order : Int) : BTree :=
  { heap := fun _ => newLeafNode, fresh := 1, root := 0
    order := if order < 3 then 3 else order.toNat }

/-- The `i` of the scans in `insertIntoLeaf` and `insertIntoParent`: the number of leading
keys that sort strictly before `key`. -/
def insertPos (key : Bytes) (keys : List Bytes) : Nat :=
  (keys.takeWhile fun k => compareBytes key k == .gt).length

/-- The `i` of `findLeaf`'s inner loop: the number of leading separators `≤ key`. -/
def childIndex (key : Bytes) (keys : List Bytes) : Nat :=
  (keys.takeWhile fun k => compareBytes key k != .lt).length

/-- The scans of `Get` and `Delete`: the index of the first key equal to `key`. -/
def indexOfKey (key : Bytes) : List Bytes → Option Nat
  | [] => none
  | k :: ks => if k = key then some 0 else (indexOfKey key ks).map (· + 1)

namespace BTree

/-- The node `p` points to. -/
def node (t : BTree) (p : Nat) : Node := t.heap p

/-- Field writes to node `p`. -/
def modify (t : BTree) (p : Nat) (f : Node → Node) : BTree :=
  { t with heap := fun q => if q = p then f (t.heap q) else t.heap q }

/-- Allocate `n` at the next free index, `t.fresh`. -/
def alloc (t : BTree) (n : Node) : BTree :=
  { t with heap := fun q => if q = t.fresh then n else t.heap q, fresh := t.fresh + 1 }

/-- `p.parent = q`. -/
def setParent (t : BTree) (p : Nat) (q : Option Nat) : BTree :=
  t.modify p fun n => { n with parent := q }

/-- `for _, child := range children { child.parent = q }`. -/
def setParents (t : BTree) (children : List Nat) (q : Option Nat) : BTree :=
  children.foldl (fun t c => t.setParent c q) t

@[simp] theorem node_modify (t : BTree) (p q : Nat) (f : Node → Node) :
    (t.modify p f).node q = if q = p then f (t.node q) else t.node q := rfl

@[simp] theorem modify_fresh (t : BTree) (p : Nat) (f : Node → Node) :
    (t.modify p f).fresh = t.fresh := rfl

@[simp] theorem modify_root (t : BTree) (p : Nat) (f : Node → Node) :
    (t.modify p f).root = t.root := rfl

@[simp] theorem modify_order (t : BTree) (p : Nat) (f : Node → Node) :
    (t.modify p f).order = t.order := rfl

@[simp] theorem node_alloc (t : BTree) (n : Node) (q : Nat) :
    (t.alloc n).node q = if q = t.fresh then n else t.node q := rfl

@[simp] theorem alloc_fresh (t : BTree) (n : Node) : (t.alloc n).fresh = t.fresh + 1 := rfl

@[simp] theorem alloc_root (t : BTree) (n : Node) : (t.alloc n).root = t.root := rfl

@[simp] theorem alloc_order (t : BTree) (n : Node) : (t.alloc n).order = t.order := rfl

@[simp] theorem node_setParent (t : BTree) (p q : Nat) (r : Option Nat) :
    (t.setParent p r).node q = if q = p then { t.node q with parent := r } else t.node q := rfl

@[simp] theorem setParent_fresh (t : BTree) (p : Nat) (r : Option Nat) :
    (t.setParent p r).fresh = t.fresh := rfl

@[simp] theorem setParent_root (t : BTree) (p : Nat) (r : Option Nat) :
    (t.setParent p r).root = t.root := rfl

@[simp] theorem setParent_order (t : BTree) (p : Nat) (r : Option Nat) :
    (t.setParent p r).order = t.order := rfl

/-- What the parent-pointer loop of `splitInternal` does to each node. -/
theorem setParents_spec (t : BTree) (cs : List Nat) (r : Option Nat) :
    (∀ q, (t.setParents cs r).node q = if q ∈ cs then { t.node q with parent := r } else t.node q)
      ∧ (t.setParents cs r).fresh = t.fresh ∧ (t.setParents cs r).root = t.root
      ∧ (t.setParents cs r).order = t.order := by
  induction cs generalizing t with
  | nil => simp [setParents]
  | cons c cs ih =>
    obtain ⟨h₁, h₂, h₃, h₄⟩ := ih (t.setParent c r)
    refine ⟨fun q => ?_, h₂, h₃, h₄⟩
    rw [setParents, List.foldl_cons, ← setParents, h₁]
    by_cases hq : q = c <;> by_cases hm : q ∈ cs <;> simp [hq, hm]

@[simp] theorem node_setParents (t : BTree) (cs : List Nat) (r : Option Nat) (q : Nat) :
    (t.setParents cs r).node q = if q ∈ cs then { t.node q with parent := r } else t.node q :=
  (setParents_spec t cs r).1 q

@[simp] theorem setParents_fresh (t : BTree) (cs : List Nat) (r : Option Nat) :
    (t.setParents cs r).fresh = t.fresh := (setParents_spec t cs r).2.1

@[simp] theorem setParents_root (t : BTree) (cs : List Nat) (r : Option Nat) :
    (t.setParents cs r).root = t.root := (setParents_spec t cs r).2.2.1

@[simp] theorem setParents_order (t : BTree) (cs : List Nat) (r : Option Nat) :
    (t.setParents cs r).order = t.order := (setParents_spec t cs r).2.2.2

/-- The loop `for !node.isLeaf { node = node.children[pick node.keys] }` of `findLeaf`
and `findFirstLeaf`; `none` on an out-of-range child index or when the fuel runs out. -/
def descend (t : BTree) (pick : List Bytes → Nat) : Nat → Nat → Option Nat
  | 0, _ => none
  | fuel + 1, p =>
    if (t.node p).isLeaf then some p
    else match (t.node p).children[pick (t.node p).keys]? with
      | none => none
      | some c => t.descend pick fuel c

/-- `findLeaf(key)`: the leaf whose key range the separators route `key` to. -/
def findLeaf (t : BTree) (key : Bytes) : Option Nat := t.descend (childIndex key) t.fresh t.root

/-- `findFirstLeaf()`: follow `children[0]` down from the root. -/
def findFirstLeaf (t : BTree) : Option Nat := t.descend (fun _ => 0) t.fresh t.root

/-- `insertIntoLeaf(leaf, key, value)`: overwrite the value of an equal key found at the
insertion point, or insert the pair there. -/
def insertIntoLeaf (t : BTree) (leaf : Nat) (key value : Bytes) : BTree :=
  let n := t.node leaf
  let i := insertPos key n.keys
  if n.keys[i]? = some key then
    t.modify leaf fun m => { m with values := n.values.set i value }
  else
    t.modify leaf fun m => { m with keys := n.keys.take i ++ key :: n.keys.drop i,
                                    values := n.values.take i ++ value :: n.values.drop i }

section InsertIntoLeaf

variable (t : BTree) (leaf : Nat) (key value : Bytes)

@[simp] theorem insertIntoLeaf_fresh : (t.insertIntoLeaf leaf key value).fresh = t.fresh := by
  unfold insertIntoLeaf; dsimp only; split <;> rfl

@[simp] theorem insertIntoLeaf_root : (t.insertIntoLeaf leaf key value).root = t.root := by
  unfold insertIntoLeaf; dsimp only; split <;> rfl

@[simp] theorem insertIntoLeaf_order : (t.insertIntoLeaf leaf key value).order = t.order := by
  unfold insertIntoLeaf; dsimp only; split <;> rfl

theorem node_insertIntoLeaf_of_ne {q : Nat} (hq : q ≠ leaf) :
    (t.insertIntoLeaf leaf key value).node q = t.node q := by
  unfold insertIntoLeaf; dsimp only; split <;> simp [hq]

@[simp] theorem insertIntoLeaf_isLeaf (q : Nat) :
    ((t.insertIntoLeaf leaf key value).node q).isLeaf = (t.node q).isLeaf := by
  unfold insertIntoLeaf; dsimp only; split <;> simp [apply_ite]

@[simp] theorem insertIntoLeaf_children (q : Nat) :
    ((t.insertIntoLeaf leaf key value).node q).children = (t.node q).children := by
  unfold insertIntoLeaf; dsimp only; split <;> simp [apply_ite]

@[simp] theorem insertIntoLeaf_next (q : Nat) :
    ((t.insertIntoLeaf leaf key value).node q).next = (t.node q).next := by
  unfold insertIntoLeaf; dsimp only; split <;> simp [apply_ite]

@[simp] theorem insertIntoLeaf_parent (q : Nat) :
    ((t.insertIntoLeaf leaf key value).node q).parent = (t.node q).parent := by
  unfold insertIntoLeaf; dsimp only; split <;> simp [apply_ite]

end InsertIntoLeaf

/-- The `parent == nil` branch of `splitLeaf` and `splitInternal`: a new root with separator
`key` over `left` and `right`. -/
def growRoot (t : BTree) (left right : Nat) (key : Bytes) : BTree :=
  let newRoot := t.fresh
  let t := t.alloc { newInternalNode with keys := [key], children := [left, right] }
  { (t.setParent left (some newRoot)).setParent right (some newRoot) with root := newRoot }

@[simp] theorem growRoot_fresh (t : BTree) (l r : Nat) (k : Bytes) :
    (t.growRoot l r k).fresh = t.fresh + 1 := rfl

@[simp] theorem growRoot_root (t : BTree) (l r : Nat) (k : Bytes) :
    (t.growRoot l r k).root = t.fresh := rfl

@[simp] theorem growRoot_order (t : BTree) (l r : Nat) (k : Bytes) :
    (t.growRoot l r k).order = t.order := rfl

@[simp] theorem node_growRoot (t : BTree) (l r : Nat) (k : Bytes) (p : Nat) :
    (t.growRoot l r k).node p =
      (((t.alloc { newInternalNode with keys := [k], children := [l, r] }).setParent l
        (some t.fresh)).setParent r (some t.fresh)).node p := rfl

/-- The tail of `splitLeaf` and `splitInternal` once `newNode` holds the upper half of `node`:
a new root if `node` has no parent, otherwise `insertIntoParent(node.parent, promoteKey,
newNode)` followed by `newNode.parent = node.parent`, read again after the call. -/
def promote (insertIntoParent : BTree → Nat → Bytes → Nat → Option BTree)
    (t : BTree) (node newNode : Nat) (promoteKey : Bytes) : Option BTree :=
  match (t.node node).parent with
  | none => some (t.growRoot node newNode promoteKey)
  | some parent =>
    (insertIntoParent t parent promoteKey newNode).map fun t =>
      t.setParent newNode (t.node node).parent

/-- `splitInternal(node)`, calling `insertIntoParent` for the promotion. -/
def splitInternal (insertIntoParent : BTree → Nat → Bytes → Nat → Option BTree)
    (t : BTree) (node : Nat) : Option BTree :=
  let n := t.node node
  let mid := n.keys.length / 2
  match n.keys[mid]? with
  | none => none
  | some promoteKey =>
    let newNode := t.fresh
    let t := t.alloc { newInternalNode with keys := n.keys.drop (mid + 1),
                                            children := n.children.drop (mid + 1) }
    let t := t.setParents (n.children.drop (mid + 1)) (some newNode)
    let t := t.modify node fun m => { m with keys := n.keys.take mid,
                                             children := n.children.take (mid + 1) }
    promote insertIntoParent t node newNode promoteKey

/-- `insertIntoParent(parent, key, rightChild)`: insert the separator and the new right
child after it, and split the parent when it reaches `order` keys. -/
def insertIntoParent : Nat → BTree → Nat → Bytes → Nat → Option BTree
  | 0, _, _, _, _ => none
  | fuel + 1, t, parent, key, rightChild =>
    let p := t.node parent
    let i := insertPos key p.keys
    let t := t.modify parent fun m => { m with
      keys := p.keys.take i ++ key :: p.keys.drop i
      children := p.children.take (i + 1) ++ rightChild :: p.children.drop (i + 1) }
    if t.order ≤ (t.node parent).keys.length then splitInternal (insertIntoParent fuel) t parent
    else some t

/-- `splitLeaf(leaf)`: the upper half moves to a new leaf linked after `leaf`, and its first
key is promoted. -/
def splitLeaf (fuel : Nat) (t : BTree) (leaf : Nat) : Option BTree :=
  let l := t.node leaf
  let mid := l.keys.length / 2
  let newLeaf := t.fresh
  let t := t.alloc { newLeafNode with keys := l.keys.drop mid, values := l.values.drop mid,
                                      next := l.next }
  let t := t.modify leaf fun m => { m with keys := l.keys.take mid, values := l.values.take mid,
                                           next := some newLeaf }
  match (l.keys.drop mid).head? with
  | none => none
  | some promoteKey => promote (insertIntoParent fuel) t leaf newLeaf promoteKey

/-- `Insert(key, value)`: the error for an empty key, otherwise the updated tree. -/
def insert (t : BTree) (key value : Bytes) : Option (Except String BTree) :=
  if key = [] then some (.error "键不能为空")
  else (t.findLeaf key).bind fun leaf =>
    let t' := t.insertIntoLeaf leaf key value
    if t'.order ≤ (t'.node leaf).keys.length then (splitLeaf t.fresh t' leaf).map .ok
    else some (.ok t')

/-- `Get(key)`: `some v` for `(v, true)`, `none` for `(nil, false)`. -/
def get (t : BTree) (key : Bytes) : Option (Option Bytes) :=
  if key = [] then some none
  else (t.findLeaf key).map fun leaf =>
    (indexOfKey key (t.node leaf).keys).map fun i => (t.node leaf).values.getD i []

/-- `Delete(key)`: remove the key from the leaf it routes to; no rebalancing. -/
def delete (t : BTree) (key : Bytes) : Option (Except String BTree) :=
  if key = [] then some (.error "键不能为空")
  else (t.findLeaf key).map fun leaf =>
    match indexOfKey key (t.node leaf).keys with
    | none => .error "键不存在"
    | some i => .ok (t.modify leaf fun m => { m with keys := m.keys.eraseIdx i,
                                                     values := m.values.eraseIdx i })

/-- The loop of `Range` over one leaf's entries: `acc` collects the entries at or after
`startKey`, and `true` reports the `return` at the first entry not before `endKey`. -/
def scanLeaf (startKey : Bytes) (endKey : Option Bytes) :
    List (Bytes × Bytes) → List (Bytes × Bytes) → List (Bytes × Bytes) × Bool
  | [], acc => (acc, false)
  | (k, v) :: rest, acc =>
    if compareBytes k startKey = .lt then scanLeaf startKey endKey rest acc
    else match endKey with
      | none => scanLeaf startKey endKey rest (acc ++ [(k, v)])
      | some e =>
        if compareBytes k e = .lt then scanLeaf startKey endKey rest (acc ++ [(k, v)])
        else (acc, true)

/-- The walk of `Range` along the leaf chain, from leaf `p` until `nil`. -/
def rangeFrom (t : BTree) (startKey : Bytes) (endKey : Option Bytes) :
    Nat → Option Nat → List (Bytes × Bytes) → Option (List (Bytes × Bytes))
  | _, none, acc => some acc
  | 0, some _, _ => none
  | fuel + 1, some p, acc =>
    match scanLeaf startKey endKey ((t.node p).keys.zip (t.node p).values) acc with
    | (acc, true) => some acc
    | (acc, false) => t.rangeFrom startKey endKey fuel (t.node p).next acc

/-- `Range(startKey, endKey)`: the entries in `[startKey, endKey)`, read from the leaf
`startKey` routes to onwards; `endKey = none` is Go's `nil`, no upper bound. -/
def range (t : BTree) (startKey : Bytes) (endKey : Option Bytes) :
    Option (List (Bytes × Bytes)) :=
  (t.findLeaf startKey).bind fun leaf => t.rangeFrom startKey endKey t.fresh (some leaf) []

/-- The walk of `Size` along the leaf chain, adding up key counts. -/
def sizeFrom (t : BTree) : Nat → Option Nat → Nat → Option Nat
  | _, none, count => some count
  | 0, some _, _ => none
  | fuel + 1, some p, count => t.sizeFrom fuel (t.node p).next (count + (t.node p).keys.length)

/-- `Size()`: the number of keys on the leaf chain from the first leaf. -/
def size (t : BTree) : Option Nat :=
  t.findFirstLeaf.bind fun leaf => t.sizeFrom t.fresh (some leaf) 0

/-- A call on the tree. -/
inductive Op
  | insert (key value : Bytes)
  | delete (key : Bytes)

/-- One call; both methods check their argument before writing anything, so an error
leaves the tree as it was. -/
def apply (t : BTree) : Op → Option BTree
  | .insert key value => (t.insert key value).map fun r => r.toOption.getD t
  | .delete key => (t.delete key).map fun r => r.toOption.getD t

/-- A sequence of calls; `none` if one of them does not return. -/
def run (t : BTree) : List Op → Option BTree
  | [] => some t
  | op :: ops => (t.apply op).bind fun t' => t'.run ops

end BTree

end XMongoStorage
