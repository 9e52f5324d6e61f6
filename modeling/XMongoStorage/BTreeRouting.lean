/-
The new sibling of a split always copies its left neighbour's parent pointer.

Both splits of the source end with `newNode.parent = node.parent`, read *after*
`insertIntoParent` returns.  When the parent itself splits and `node` is its middle child,
`node` stays in the left half while `newNode` moves to the right half, and the assignment
points `newNode` back at the left half.  A later split of `newNode` then climbs into the
wrong internal node and files its separator outside the key range that routes to it.

* `promote_parent_eq` — after the tail of a split, `newNode` and `node` name the same
  parent, whatever the climb did, and `splitLeaf_parent_eq` — so for every leaf split;
* `internalHalves_parent` — an internal split hands the moved children to the new node;
* `parent_pointer_stale` — six inserts into `NewBTree(3)` leave a leaf whose parent
  pointer names a node that does not list it;
* `get_misses_inserted_key` — one more insert files the key `[4]` where lookups never
  reach it: `Get([4])` reports it missing although the map holds it.

Design notes: `mapRun` is the finite map of the spec, written from the spec's words; it is
the reference the refinement compares the tree against, not a model of the source.
-/
import XMongoStorage.BTreeShape

namespace XMongoStorage

namespace BTree

variable {t t' : BTree}

/-- After the tail of a split, the new right node names the same parent as the node it
was split from. -/
theorem promote_parent_eq {ins : BTree → Nat → Bytes → Nat → Option BTree} {X N : Nat}
    {k : Bytes} (hXN : X ≠ N) (h : promote ins t X N k = some t') :
    (t'.node N).parent = (t'.node X).parent := by
  unfold promote at h
  split at h
  · cases h; simp [hXN]
  · obtain ⟨t₁, -, rfl⟩ := Option.map_eq_some'.mp h
    simp [hXN]

/-- An internal split points every child it moves at the new node. -/
theorem internalHalves_parent {P c : Nat}
    (hc : c ∈ (t.node P).children.drop ((t.node P).keys.length / 2 + 1)) (hcP : c ≠ P) :
    ((t.internalHalves P).node c).parent = some t.fresh := by
  simp [internalHalves, hc, hcP]

/-- `splitLeaf` leaves the new leaf with the parent pointer of the leaf it split. -/
theorem splitLeaf_parent_eq {fuel leaf : Nat} (hleaf : leaf < t.fresh)
    (h : splitLeaf fuel t leaf = some t') : (t'.node t.fresh).parent = (t'.node leaf).parent := by
  cases hk : ((t.node leaf).keys.drop ((t.node leaf).keys.length / 2)).head? with
  | none => simp [splitLeaf, hk] at h
  | some k => exact promote_parent_eq (by omega) ((splitLeaf_eq fuel t leaf hk).symm.trans h)

/-- Six inserts into an order-3 tree, ending with a split of the middle child of a full
internal node. -/
def sixInserts : List Op := [7, 1, 6, 2, 3, 4].map fun k : UInt8 => .insert [k] [k]

/-- After `sixInserts`, leaf 4 sits under node 5 (the right half of the split node 2) but
its parent pointer still names node 2. -/
theorem parent_pointer_stale :
    ((newBTree 3).run sixInserts).map
        (fun t => ((t.node 4).parent, (t.node 2).children.contains 4, (t.node 5).children.contains 4)) =
      some (some 2, false, true) := by
  decide

/-- The finite map of the spec: `Insert` overwrites, `Delete` removes. -/
def mapApply (m : Bytes → Option Bytes) : Op → Bytes → Option Bytes
  | .insert key value => Function.update m key (some value)
  | .delete key => Function.update m key none

/-- The map a sequence of calls builds from the empty map. -/
def mapRun (ops : List Op) : Bytes → Option Bytes := ops.foldl mapApply fun _ => none

/-- `sixInserts` followed by one more insert, which splits leaf 4 and climbs through its
stale parent pointer into node 2. -/
def sevenInserts : List Op := sixInserts ++ [.insert [5] [5]]

/-- After `sevenInserts` the map holds `[4]`, but `Get([4])` reports it missing: the root
routes `[4]` to node 5, while the insert filed it in a leaf under node 2. -/
theorem get_misses_inserted_key :
    mapRun sevenInserts [4] = some [4] ∧
      ((newBTree 3).run sevenInserts).bind (fun t => t.get [4]) = some none := by
  decide

end BTree

end XMongoStorage
