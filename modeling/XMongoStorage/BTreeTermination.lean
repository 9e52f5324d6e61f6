/-
Every loop of the B+Tree ends on the trees its calls build.

The loops of the source are written with fuel here (`BTree.lean`): the descent of
`findLeaf`, the climb `insertIntoParent → splitInternal → insertIntoParent`, and the walks
of `Range` and `Size` along the leaf chain.  `none` is a loop that does not end.  On a tree
reachable from `NewBTree`, each loop ends within a bound the tree gives:

* `descend_add`, `insertIntoParent_add`, `splitLeaf_add` — a loop that ends with some fuel
  ends the same way with more, so the fuel is a bound and nothing else;
* `sizeFrom_linked` — the walk of `Size` along an acyclic chain counts its leaves' keys;
* `run_valid` — every run from `NewBTree` builds a valid tree;
* `reachable_operations_terminate` — on such a tree the descent reaches a leaf within one
  step per level, the climb of an `Insert` within the tree's height, and the leaf chain
  from every leaf reaches `nil`, each leaf once, so `Range` and `Size` return.

Design notes: the climb follows parent pointers, and a parent pointer need not name the
node that lists it as a child (`BTreeRouting.lean`); what bounds the climb is that every
parent pointer names a node one level up (`ShapeOn.parent_level`).
-/
import XMongoStorage.BTreeChain

namespace XMongoStorage

namespace BTree

/-! ### More fuel, same result -/

theorem descend_add {t : BTree} {pick : List Bytes → Nat} :
    ∀ {fuel p leaf : Nat} (k : Nat), t.descend pick fuel p = some leaf →
      t.descend pick (fuel + k) p = some leaf
  | 0, _, _, _, h => by cases h
  | fuel + 1, p, leaf, k, h => by
    rw [Nat.add_right_comm]
    unfold descend at h ⊢
    split_ifs at h ⊢
    · exact h
    · split at h
      · cases h
      · exact descend_add k h

/-- `promote` with a climb that returns whenever another does returns the same. -/
theorem promote_of_imp {ins ins' : BTree → Nat → Bytes → Nat → Option BTree}
    (hins : ∀ t P k R t', ins t P k R = some t' → ins' t P k R = some t')
    {t t' : BTree} {X N : Nat} {k : Bytes} (h : promote ins t X N k = some t') :
    promote ins' t X N k = some t' := by
  unfold promote at h ⊢
  cases hq : (t.node X).parent with
  | none => simpa only [hq] using h
  | some q =>
    simp only [hq] at h ⊢
    obtain ⟨t₁, h₁, rfl⟩ := Option.map_eq_some'.mp h
    rw [hins _ _ _ _ _ h₁]
    rfl

theorem splitInternal_of_imp {ins ins' : BTree → Nat → Bytes → Nat → Option BTree}
    (hins : ∀ t P k R t', ins t P k R = some t' → ins' t P k R = some t')
    {t t' : BTree} {node : Nat} (h : splitInternal ins t node = some t') :
    splitInternal ins' t node = some t' := by
  cases hk : (t.node node).keys[(t.node node).keys.length / 2]? with
  | none => simp [splitInternal, hk] at h
  | some k =>
    rw [splitInternal_eq _ _ _ hk] at h ⊢
    exact promote_of_imp hins h

theorem insertIntoParent_add (j : Nat) :
    ∀ {fuel : Nat} {t t' : BTree} {P : Nat} {k : Bytes} {R : Nat},
      insertIntoParent fuel t P k R = some t' → insertIntoParent (fuel + j) t P k R = some t'
  | 0, _, _, _, _, _, h => by cases h
  | fuel + 1, t, t', P, k, R, h => by
    rw [Nat.add_right_comm, insertIntoParent_succ]
    rw [insertIntoParent_succ] at h
    dsimp only at h ⊢
    split_ifs at h ⊢
    · exact splitInternal_of_imp (fun _ _ _ _ _ => insertIntoParent_add j) h
    · exact h

theorem splitLeaf_add (j : Nat) {fuel : Nat} {t t' : BTree} {leaf : Nat}
    (h : splitLeaf fuel t leaf = some t') : splitLeaf (fuel + j) t leaf = some t' := by
  cases hk : ((t.node leaf).keys.drop ((t.node leaf).keys.length / 2)).head? with
  | none => simp [splitLeaf, hk] at h
  | some k =>
    rw [splitLeaf_eq _ _ _ hk] at h ⊢
    exact promote_of_imp (fun _ _ _ _ _ => insertIntoParent_add j) h

/-! ### The walk of `Size` -/

/-- Along an acyclic chain that fits in the fuel, `Size`'s walk counts the keys of its leaves
and reaches `nil`. -/
theorem sizeFrom_linked {t : BTree} {p : Option Nat} {L : List Nat} (h : Linked t p L) :
    ∀ fuel count, L.length ≤ fuel →
      t.sizeFrom fuel p count = some (count + (L.flatMap fun q => (t.node q).keys).length) := by
  induction h with
  | nil => intro fuel count _; cases fuel <;> rfl
  | cons _ ih =>
    rintro (_ | fuel) count hlen
    · exact absurd hlen (Nat.not_succ_le_zero _)
    · simp only [sizeFrom]
      rw [ih fuel _ (Nat.le_of_succ_le_succ hlen), List.flatMap_cons, List.length_append,
        Nat.add_assoc]

/-- `Size` returns on a valid tree. -/
theorem size_some {t : BTree} (hV : t.Valid) : ∃ n, t.size = some n := by
  obtain ⟨⟨lvl, h, -⟩, L, hC⟩ := hV
  obtain ⟨leaf, hfirst, hlt, hl⟩ := descend_spec h
    (fun _ => Nat.zero_le _ : ∀ ks : List Bytes, (fun _ => 0) ks ≤ ks.length) _ _ h.root_lt h.root_level_lt
  obtain ⟨L₁, L₂, rfl, h₂⟩ := hC.linked.tail ((hC.mem_iff leaf).mpr ⟨hlt, hl⟩)
  have hlen : (L₁ ++ leaf :: L₂).length ≤ t.fresh :=
    length_le_of_nodup hC.nodup fun q hq => ((hC.mem_iff q).mp hq).1
  have hwalk := sizeFrom_linked h₂ t.fresh 0 (by rw [List.length_append] at hlen; omega)
  rw [size, findFirstLeaf, hfirst, Option.some_bind]
  exact ⟨_, hwalk⟩

/-! ### Reachable trees -/

theorem apply_valid {t : BTree} (hV : t.Valid) (op : Op) : ∃ t', t.apply op = some t' ∧ t'.Valid := by
  cases op with
  | insert key value =>
    obtain ⟨r, hr, hv⟩ := insert_valid hV key value
    cases r with
    | error e => exact ⟨t, by simp [apply, hr, Except.toOption], hV⟩
    | ok t' => exact ⟨t', by simp [apply, hr, Except.toOption], hv t' rfl⟩
  | delete key =>
    obtain ⟨r, hr, hv⟩ := delete_valid hV key
    cases r with
    | error e => exact ⟨t, by simp [apply, hr, Except.toOption], hV⟩
    | ok t' => exact ⟨t', by simp [apply, hr, Except.toOption], hv t' rfl⟩

theorem run_valid {t : BTree} (hV : t.Valid) (ops : List Op) :
    ∃ t', t.run ops = some t' ∧ t'.Valid := by
  induction ops generalizing t with
  | nil => exact ⟨t, rfl, hV⟩
  | cons op ops ih =>
    obtain ⟨t₁, h₁, hV₁⟩ := apply_valid hV op
    obtain ⟨t', h', hV'⟩ := ih hV₁
    exact ⟨t', by simp [run, h₁, h'], hV'⟩

/-- The descent from the root reaches a leaf in one step per level above the leaves. -/
theorem findLeaf_within_height {t : BTree} {lvl : Nat → Nat} {pend : List Nat}
    (h : t.ShapeOn lvl pend) (key : Bytes) :
    ∃ leaf, t.findLeaf key = some leaf ∧ (t.node leaf).isLeaf = true ∧
      t.descend (childIndex key) (t.height t.root + 1) t.root = some leaf := by
  rw [h.height_eq h.root_lt]
  obtain ⟨leaf, hd, -, hl⟩ := descend_spec h (childIndex_le key) _ _ h.root_lt
    (Nat.lt_succ_self (lvl t.root))
  have hfuel : lvl t.root + 1 + (t.fresh - (lvl t.root + 1)) = t.fresh := by
    have := h.root_level_lt; omega
  refine ⟨leaf, ?_, hl, hd⟩
  rw [findLeaf, ← hfuel]
  exact descend_add _ hd

/-- The climb of an `Insert` that splits a leaf returns with the tree's height as fuel, with
the tree `Insert` returns. -/
theorem insert_climbs_within_height {t : BTree} (hS : t.Shape) {key : Bytes} (hk : key ≠ [])
    (value : Bytes) :
    ∃ leaf t', t.findLeaf key = some leaf ∧ t.insert key value = some (.ok t') ∧
      (t.order ≤ ((t.insertIntoLeaf leaf key value).node leaf).keys.length →
        splitLeaf (t.height t.root) (t.insertIntoLeaf leaf key value) leaf = some t') := by
  obtain ⟨leaf, t', hins, post⟩ := insert_spec hS hk value
  refine ⟨leaf, t', post.findLeaf_eq, hins, fun hsplit => ?_⟩
  obtain ⟨lvl, h, hK⟩ := hS
  obtain ⟨k, t'', -, hsl, -⟩ := splitLeaf_spec h hK post.leaf_lt post.isLeaf hsplit
    (h.height_eq h.root_lt).ge
  have hfuel : t.height t.root + (t.fresh - t.height t.root) = t.fresh := by
    have := h.root_level_lt; rw [h.height_eq h.root_lt]; omega
  have hfresh := splitLeaf_add (t.fresh - t.height t.root) hsl
  rw [hfuel] at hfresh
  rw [insert_eq hk post.findLeaf_eq, if_pos hsplit, hfresh] at hins
  cases hins
  exact hsl

/-- **Every operation of a reachable tree terminates.**  On every tree a run of `Insert` and
`Delete` builds from `NewBTree(order)`: the descent of `findLeaf` ends at a leaf within one
step per level; the climb of an `Insert` that splits a leaf returns, with the tree `Insert`
returns, when given only the tree's height as rounds, one level up per round; `Delete`
returns; the leaf chain from every leaf reaches `nil` with no leaf twice; and `Range` and
`Size`, which walk it, return. -/
theorem reachable_operations_terminate (order : Int) (ops : List Op) :
    ∃ t, (newBTree order).run ops = some t ∧
      (∀ key, ∃ leaf, t.findLeaf key = some leaf ∧ (t.node leaf).isLeaf = true ∧
        t.descend (childIndex key) (t.height t.root + 1) t.root = some leaf) ∧
      (∀ key value, key ≠ [] → ∃ leaf t', t.findLeaf key = some leaf ∧
        t.insert key value = some (.ok t') ∧
        (t.order ≤ ((t.insertIntoLeaf leaf key value).node leaf).keys.length →
          splitLeaf (t.height t.root) (t.insertIntoLeaf leaf key value) leaf = some t')) ∧
      (∀ key, ∃ r, t.delete key = some r) ∧
      (∀ leaf < t.fresh, (t.node leaf).isLeaf = true → ∃ L, L.Nodup ∧ Linked t (some leaf) L) ∧
      (∀ startKey endKey, ∃ r, t.range startKey endKey = some r) ∧
      (∃ n, t.size = some n) := by
  obtain ⟨t, hrun, hV⟩ := run_valid (newBTree_valid order) ops
  obtain ⟨hS, L, hC⟩ := hV
  obtain ⟨lvl, h, hK⟩ := id hS
  refine ⟨t, hrun, findLeaf_within_height h, fun key value hk =>
    insert_climbs_within_height hS hk value, fun key => ?_, fun leaf hlt hl => ?_,
    range_some hS hC, size_some ⟨hS, L, hC⟩⟩
  · obtain ⟨r, hr, -⟩ := delete_spec hS key
    exact ⟨r, hr⟩
  · obtain ⟨L₁, L₂, rfl, h₂⟩ := hC.linked.tail ((hC.mem_iff leaf).mpr ⟨hlt, hl⟩)
    exact ⟨_, (List.nodup_append.mp hC.nodup).2.1, h₂⟩

end BTree

end XMongoStorage
