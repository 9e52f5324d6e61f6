/-
The B+Tree stays balanced and bounded (the shape invariant).

A level assignment `lvl` witnesses the shape: leaves sit at level 0, every child of an
internal node one level below it, every parent pointer one level above, and the root at
the top.  `ShapeOn t lvl pend` says this of every node, except that the nodes listed in
`pend` may still lack a parent pointer: those are the fresh right siblings an insert has
created and not yet given a parent, because the source assigns `newLeaf.parent` /
`newNode.parent` only after `insertIntoParent` returns.

* `insertIntoParent_spec` — the climb returns within its fuel, keeps the shape and the
  key bound, and leaves the leaves alone (`Frame`);
* `insert_spec` — one `Insert` on a tree with the shape returns and keeps it;
* `run_shape` — so does every run from `NewBTree`;
* `reachable_balanced_bounded` — all leaves at one depth, fewer than `order` keys per
  node, the halves of every leaf split non-empty, and every parent pointer one level
  up, whichever node it points to.

Design notes: the shape says nothing about *which* node of the level above a parent
pointer names.  That is deliberate: after a split of a middle child of a full node, the
source points the new sibling back at the left half of the split parent
(`BTreeRouting.lean`), and the level argument is the part of the design that survives.
-/
import XMongoStorage.BTree
import Mathlib.Logic.Function.Basic

namespace XMongoStorage

namespace BTree

/-- The shape of `t` under the level assignment `lvl`, with the nodes of `pend` allowed to
lack a parent pointer. -/
structure ShapeOn (t : BTree) (lvl : Nat → Nat) (pend : List Nat) : Prop where
  order_ge : 3 ≤ t.order
  root_lt : t.root < t.fresh
  root_parent : (t.node t.root).parent = none
  root_level_lt : lvl t.root < t.fresh
  le_root : ∀ p < t.fresh, lvl p ≤ lvl t.root
  leaf_iff : ∀ p < t.fresh, (t.node p).isLeaf = true ↔ lvl p = 0
  children_length : ∀ p < t.fresh, (t.node p).isLeaf = false →
    (t.node p).children.length = (t.node p).keys.length + 1
  child_level : ∀ p < t.fresh, (t.node p).isLeaf = false → ∀ c ∈ (t.node p).children,
    c < t.fresh ∧ lvl c + 1 = lvl p
  parent_level : ∀ p < t.fresh, ∀ q, (t.node p).parent = some q →
    q < t.fresh ∧ lvl q = lvl p + 1
  parent_none : ∀ p < t.fresh, p ≠ t.root → (t.node p).parent = none → p ∈ pend
  pend_fresh : ∀ x ∈ pend, x < t.fresh

/-- Every allocated node holds fewer than `order` keys. -/
def KeysBelow (t : BTree) : Prop := ∀ p < t.fresh, (t.node p).keys.length < t.order

/-- What the climb leaves alone: leaves keep their entries and their chain link, every old
node keeps its first child, and the nodes it allocates are internal. -/
structure Frame (t t' : BTree) : Prop where
  fresh_le : t.fresh ≤ t'.fresh
  order_eq : t'.order = t.order
  isLeaf_eq : ∀ p < t.fresh, (t'.node p).isLeaf = (t.node p).isLeaf
  leaf_eq : ∀ p < t.fresh, (t.node p).isLeaf = true → (t'.node p).keys = (t.node p).keys ∧
    (t'.node p).values = (t.node p).values ∧ (t'.node p).next = (t.node p).next
  head_eq : ∀ p < t.fresh, (t'.node p).children.head? = (t.node p).children.head?
  new_internal : ∀ p, t.fresh ≤ p → p < t'.fresh → (t'.node p).isLeaf = false

theorem Frame.refl (t : BTree) : Frame t t :=
  ⟨le_rfl, rfl, fun _ _ => rfl, fun _ _ _ => ⟨rfl, rfl, rfl⟩, fun _ _ => rfl,
    fun _ h₁ h₂ => absurd h₂ (by omega)⟩

theorem Frame.trans {t₁ t₂ t₃ : BTree} (h₁ : Frame t₁ t₂) (h₂ : Frame t₂ t₃) : Frame t₁ t₃ where
  fresh_le := h₁.fresh_le.trans h₂.fresh_le
  order_eq := h₂.order_eq.trans h₁.order_eq
  isLeaf_eq p hp := (h₂.isLeaf_eq p (by have := h₁.fresh_le; omega)).trans (h₁.isLeaf_eq p hp)
  leaf_eq p hp hl := by
    have hp' : p < t₂.fresh := by have := h₁.fresh_le; omega
    obtain ⟨a, b, c⟩ := h₁.leaf_eq p hp hl
    obtain ⟨a', b', c'⟩ := h₂.leaf_eq p hp' (by rw [h₁.isLeaf_eq p hp]; exact hl)
    exact ⟨a'.trans a, b'.trans b, c'.trans c⟩
  head_eq p hp := (h₂.head_eq p (by have := h₁.fresh_le; omega)).trans (h₁.head_eq p hp)
  new_internal p hp hp' := by
    by_cases h : p < t₂.fresh
    · rw [h₂.isLeaf_eq p h]; exact h₁.new_internal p hp h
    · exact h₂.new_internal p (by omega) hp'

/-- The root is the old one, or a new node whose first child is the old root. -/
def RootGrows (t t' : BTree) : Prop :=
  t'.root = t.root ∨ (t.fresh ≤ t'.root ∧ (t'.node t'.root).children.head? = some t.root)

/-- Every separator of an internal node satisfies `Q`. -/
def KeysOK (Q : Bytes → Prop) (t : BTree) : Prop :=
  ∀ p < t.fresh, (t.node p).isLeaf = false → ∀ k ∈ (t.node p).keys, Q k

/-- The climb's edit of the parent: the separator at `i`, the new right child after it. -/
def addChild (t : BTree) (parent i : Nat) (key : Bytes) (rightChild : Nat) : BTree :=
  t.modify parent fun m => { m with
    keys := (t.node parent).keys.take i ++ key :: (t.node parent).keys.drop i
    children := (t.node parent).children.take (i + 1) ++ rightChild ::
      (t.node parent).children.drop (i + 1) }

theorem insertIntoParent_succ (fuel : Nat) (t : BTree) (parent : Nat) (key : Bytes)
    (rightChild : Nat) :
    insertIntoParent (fuel + 1) t parent key rightChild =
      let t' := t.addChild parent (insertPos key (t.node parent).keys) key rightChild
      if t.order ≤ (t'.node parent).keys.length then splitInternal (insertIntoParent fuel) t' parent
      else some t' := rfl

/-- The tree `splitLeaf` has built when it tests `leaf.parent`: the upper half of `leaf`
moved to a new leaf at `t.fresh`, linked right after it. -/
def leafHalves (t : BTree) (leaf : Nat) : BTree :=
  let l := t.node leaf
  let mid := l.keys.length / 2
  let t' := t.alloc { newLeafNode with keys := l.keys.drop mid, values := l.values.drop mid,
                                       next := l.next }
  t'.modify leaf fun m => { m with keys := l.keys.take mid, values := l.values.take mid,
                                   next := some t.fresh }

theorem splitLeaf_eq (fuel : Nat) (t : BTree) (leaf : Nat) {k : Bytes}
    (hk : ((t.node leaf).keys.drop ((t.node leaf).keys.length / 2)).head? = some k) :
    splitLeaf fuel t leaf = promote (insertIntoParent fuel) (t.leafHalves leaf) leaf t.fresh k := by
  simp only [splitLeaf, hk]; rfl

@[simp] theorem leafHalves_fresh (t : BTree) (leaf : Nat) :
    (t.leafHalves leaf).fresh = t.fresh + 1 := rfl

@[simp] theorem leafHalves_root (t : BTree) (leaf : Nat) :
    (t.leafHalves leaf).root = t.root := rfl

@[simp] theorem leafHalves_order (t : BTree) (leaf : Nat) :
    (t.leafHalves leaf).order = t.order := rfl

/-- The tree `splitInternal` has built when it tests `node.parent`: the upper half of `node`
moved to a new node at `t.fresh`, whose children already point back to it. -/
def internalHalves (t : BTree) (node : Nat) : BTree :=
  let n := t.node node
  let mid := n.keys.length / 2
  let t' := t.alloc { newInternalNode with keys := n.keys.drop (mid + 1),
                                           children := n.children.drop (mid + 1) }
  (t'.setParents (n.children.drop (mid + 1)) (some t.fresh)).modify node fun m =>
    { m with keys := n.keys.take mid, children := n.children.take (mid + 1) }

theorem splitInternal_eq (ins : BTree → Nat → Bytes → Nat → Option BTree) (t : BTree)
    (node : Nat) {k : Bytes} (hk : (t.node node).keys[(t.node node).keys.length / 2]? = some k) :
    splitInternal ins t node = promote ins (t.internalHalves node) node t.fresh k := by
  simp only [splitInternal, hk]; rfl

@[simp] theorem internalHalves_fresh (t : BTree) (node : Nat) :
    (t.internalHalves node).fresh = t.fresh + 1 := by simp [internalHalves]

@[simp] theorem internalHalves_root (t : BTree) (node : Nat) :
    (t.internalHalves node).root = t.root := by simp [internalHalves]

@[simp] theorem internalHalves_order (t : BTree) (node : Nat) :
    (t.internalHalves node).order = t.order := by simp [internalHalves]

/-- `growRoot` changes only parent pointers of the nodes it does not allocate. -/
theorem growRoot_same {t : BTree} {l r p : Nat} (k : Bytes) (hp : p ≠ t.fresh) :
    ((t.growRoot l r k).node p).isLeaf = (t.node p).isLeaf ∧
      ((t.growRoot l r k).node p).keys = (t.node p).keys ∧
      ((t.growRoot l r k).node p).children = (t.node p).children := by
  simp only [node_growRoot, node_setParent, node_alloc, hp, if_false]
  split_ifs <;> simp

namespace ShapeOn

variable {t : BTree} {lvl : Nat → Nat} {pend : List Nat}

theorem child_ne_root (h : t.ShapeOn lvl pend) {p c : Nat} (hp : p < t.fresh)
    (hl : (t.node p).isLeaf = false) (hc : c ∈ (t.node p).children) : c ≠ t.root := by
  intro hcr
  have h₁ := (h.child_level p hp hl c hc).2
  have h₂ := h.le_root p hp
  rw [hcr] at h₁
  omega

theorem level_pos (h : t.ShapeOn lvl pend) {p : Nat} (hp : p < t.fresh)
    (hl : (t.node p).isLeaf = false) : 0 < lvl p := by
  have := (h.leaf_iff p hp).not.mp (by simp [hl])
  omega

/-- Giving the pending node `r` a parent one level up takes it off the pending list. -/
theorem setParent (h : t.ShapeOn lvl (r :: pend)) (hr : r < t.fresh) (hrr : r ≠ t.root)
    {q : Nat} (hq : q < t.fresh) (hlq : lvl q = lvl r + 1) :
    (t.setParent r (some q)).ShapeOn lvl pend where
  order_ge := h.order_ge
  root_lt := h.root_lt
  root_parent := by simpa [Ne.symm hrr] using h.root_parent
  root_level_lt := h.root_level_lt
  le_root := h.le_root
  leaf_iff p hp := by simp only [node_setParent]; split_ifs <;> exact h.leaf_iff p hp
  children_length p hp := by simp only [node_setParent]; split_ifs <;> exact h.children_length p hp
  child_level p hp := by simp only [node_setParent]; split_ifs <;> exact h.child_level p hp
  parent_level p hp q' := by
    by_cases hpr : p = r
    · subst hpr; simp only [node_setParent, if_true, Option.some.injEq]; rintro rfl; exact ⟨hq, hlq⟩
    · simpa [hpr] using h.parent_level p hp q'
  parent_none p hp hpr' := by
    by_cases hpr : p = r
    · simp [hpr]
    · simpa [hpr] using h.parent_none p hp hpr'
  pend_fresh x hx := h.pend_fresh x (List.mem_cons_of_mem _ hx)

/-- A new root above the old root and its pending right sibling: the `parent == nil` branch
of both splits. -/
theorem growRoot (h : t.ShapeOn lvl (r :: pend)) (hr : r < t.fresh) (hrr : r ≠ t.root)
    (hlr : lvl r = lvl t.root) (k : Bytes) :
    (t.growRoot t.root r k).ShapeOn (Function.update lvl t.fresh (lvl t.root + 1)) pend := by
  have hroot := h.root_lt
  have hf : ∀ p < t.fresh, p ≠ t.fresh := fun p hp => by omega
  constructor
  · simpa using h.order_ge
  · simp
  · simp [hf r hr |>.symm, hf _ hroot |>.symm]
  · simp only [growRoot_root, Function.update_same, growRoot_fresh]
    have := h.root_level_lt; omega
  · intro p hp
    simp only [growRoot_fresh, growRoot_root, Function.update_same, Function.update_apply] at hp ⊢
    split_ifs
    · omega
    · have := h.le_root p (by omega); omega
  · intro p hp
    simp only [growRoot_fresh] at hp
    by_cases hpf : p = t.fresh
    · subst hpf; simp [hf r hr |>.symm, hf _ hroot |>.symm]
    · rw [(growRoot_same k hpf).1, Function.update_noteq hpf]
      exact h.leaf_iff p (by omega)
  · intro p hp
    simp only [growRoot_fresh] at hp
    by_cases hpf : p = t.fresh
    · subst hpf; simp [hf r hr |>.symm, hf _ hroot |>.symm]
    · obtain ⟨hl, hk, hc⟩ := growRoot_same (l := t.root) (r := r) k hpf
      rw [hl, hk, hc]
      exact h.children_length p (by omega)
  · intro p hp
    simp only [growRoot_fresh] at hp
    by_cases hpf : p = t.fresh
    · subst hpf
      simp only [node_growRoot, node_setParent, node_alloc, hf r hr |>.symm, hf _ hroot |>.symm,
        if_false, if_true, List.mem_cons, List.mem_singleton, List.not_mem_nil, or_false]
      rintro - c (rfl | rfl) <;>
        simp [Function.update_apply, hf _ hroot, hf _ hr, hlr] <;> omega
    · obtain ⟨hl, -, hc⟩ := growRoot_same (l := t.root) (r := r) k hpf
      rw [hl, hc]
      intro hl c hc
      have := h.child_level p (by omega) hl c hc
      simp only [growRoot_fresh, Function.update_apply, hpf, if_false]
      split_ifs <;> omega
  · intro p hp q
    simp only [growRoot_fresh] at hp
    by_cases hpf : p = t.fresh
    · subst hpf; simp [hf r hr |>.symm, hf _ hroot |>.symm]
    · by_cases hpr : p = r
      · subst hpr; simp only [node_growRoot, node_setParent, if_true, Option.some.injEq]
        rintro rfl; simp [Function.update_apply, hf _ hr, hlr]
      · by_cases hpo : p = t.root
        · subst hpo; simp only [node_growRoot, node_setParent, if_true, hpr, if_false,
            Option.some.injEq]
          rintro rfl; simp [Function.update_apply, hf _ hroot]
        · simp only [node_growRoot, node_setParent, node_alloc, hpr, hpo, hpf, if_false]
          intro hq
          have := h.parent_level p (by omega) q hq
          simp [Function.update_apply, hf p (by omega), hf q this.1]; omega
  · intro p hp hpr' hpn
    simp only [growRoot_fresh, growRoot_root] at hp hpr'
    by_cases hpr : p = r
    · subst hpr; simp at hpn
    · by_cases hpo : p = t.root
      · subst hpo; simp [hpr] at hpn
      · simp only [node_growRoot, node_setParent, node_alloc, hpr, hpo, hpr', if_false] at hpn
        simpa [hpr] using h.parent_none p (by omega) hpo hpn
  · intro x hx; have := h.pend_fresh x (List.mem_cons_of_mem _ hx); simp; omega

/-- The first half of `splitInternal`: moving the upper half of a node with at least one key
to a new node `t.fresh`, which is pending until the climb returns. -/
theorem internalHalves (h : t.ShapeOn lvl pend) {P : Nat} (hP : P < t.fresh)
    (hl : (t.node P).isLeaf = false) (hk : 0 < (t.node P).keys.length) :
    (t.internalHalves P).ShapeOn (Function.update lvl t.fresh (lvl P)) (t.fresh :: pend) := by
  have hlen := h.children_length P hP hl
  have hchild := h.child_level P hP hl
  have hf : ∀ p < t.fresh, p ≠ t.fresh := fun p hp => by omega
  have hmoved : ∀ c ∈ (t.node P).children.drop ((t.node P).keys.length / 2 + 1),
      c ∈ (t.node P).children := fun c hc => List.mem_of_mem_drop hc
  have hr := h.root_lt
  constructor
  · simpa using h.order_ge
  · simpa using Nat.lt_succ_of_lt hr
  · have hrm : t.root ∉ (t.node P).children.drop ((t.node P).keys.length / 2 + 1) :=
      fun hm => h.child_ne_root hP hl (hmoved _ hm) rfl
    simp [BTree.internalHalves, hrm, hf _ hr, h.root_parent]
  · simp [Function.update_apply, hf _ hr]; have := h.root_level_lt; omega
  · intro p hp
    simp only [internalHalves_fresh, internalHalves_root, Function.update_apply, hf _ hr,
      if_false] at hp ⊢
    split_ifs
    · exact h.le_root P hP
    · exact h.le_root p (by omega)
  · intro p hp
    simp only [internalHalves_fresh] at hp
    by_cases hpf : p = t.fresh
    · subst hpf; simp [BTree.internalHalves, hf P hP, h.level_pos hP hl |>.ne']
    · simpa [BTree.internalHalves, Function.update_apply, hpf] using h.leaf_iff p (by omega)
  · intro p hp hpl
    simp only [internalHalves_fresh] at hp
    by_cases hpf : p = t.fresh
    · subst hpf; simp [BTree.internalHalves, (hf P hP).symm]; omega
    · by_cases hpP : p = P
      · subst hpP; simp [BTree.internalHalves, hpf]; omega
      · simp [BTree.internalHalves, hpf, hpP] at hpl ⊢; exact h.children_length p (by omega) hpl
  · intro p hp hpl c hc
    simp only [internalHalves_fresh] at hp
    have hc' : c < t.fresh ∧ lvl c + 1 = Function.update lvl t.fresh (lvl P) p := by
      by_cases hpf : p = t.fresh
      · subst hpf
        simp only [BTree.internalHalves, node_modify, Node.children_ite, node_setParents,
          node_alloc, (hf P hP).symm, if_false, if_true, apply_ite Node.children, ite_self] at hc
        simpa using hchild c (hmoved c hc)
      · by_cases hpP : p = P
        · subst hpP
          simp only [BTree.internalHalves, node_modify, if_true] at hc
          simpa [hpf] using hchild c (List.mem_of_mem_take hc)
        · simp [BTree.internalHalves, hpf, hpP] at hc hpl
          simpa [hpf] using h.child_level p (by omega) hpl c hc
    rw [Function.update_noteq (hf c hc'.1), internalHalves_fresh]
    exact ⟨by omega, hc'.2⟩
  · intro p hp q hq
    simp only [internalHalves_fresh] at hp
    by_cases hpm : p ∈ (t.node P).children.drop ((t.node P).keys.length / 2 + 1)
    · simp only [BTree.internalHalves, node_modify, Node.parent_ite, node_setParents, hpm,
        if_true, ite_self, Option.some.injEq] at hq
      subst hq
      have := hchild p (hmoved p hpm)
      simp [Function.update_apply, hf p this.1, this.2]
    · by_cases hpf : p = t.fresh
      · subst hpf; simp [BTree.internalHalves, hpm] at hq
      · simp only [BTree.internalHalves, node_modify, Node.parent_ite, node_setParents, hpm,
          if_false, node_alloc, hpf, ite_self] at hq
        have := h.parent_level p (by omega) q hq
        simp [Function.update_apply, hf q this.1, hpf, this.2]; omega
  · intro p hp hpr hpn
    simp only [internalHalves_fresh, internalHalves_root] at hp hpr
    by_cases hpm : p ∈ (t.node P).children.drop ((t.node P).keys.length / 2 + 1)
    · simp [BTree.internalHalves, hpm] at hpn
    · by_cases hpf : p = t.fresh
      · simp [hpf]
      · simp only [BTree.internalHalves, node_modify, Node.parent_ite, node_setParents, hpm,
          if_false, node_alloc, hpf, ite_self] at hpn
        exact List.mem_cons_of_mem _ (h.parent_none p (by omega) hpr hpn)
  · rintro x (_ | ⟨_, hx⟩)
    · simp
    · have := h.pend_fresh x hx; simp; omega

/-- The climb's edit of `P`: one more separator and the child `R` of the level below. -/
theorem addChild (h : t.ShapeOn lvl pend) {P R : Nat} (hP : P < t.fresh)
    (hl : (t.node P).isLeaf = false) (hR : R < t.fresh) (hlR : lvl R + 1 = lvl P)
    (i : Nat) (key : Bytes) : (t.addChild P i key R).ShapeOn lvl pend := by
  have hrest : ∀ p, p ≠ P → (t.addChild P i key R).node p = t.node p := fun p hp => by
    simp [BTree.addChild, hp]
  have hpar : ∀ p, ((t.addChild P i key R).node p).parent = (t.node p).parent := fun p => by
    by_cases hp : p = P <;> simp [BTree.addChild, hp]
  constructor
  · exact h.order_ge
  · exact h.root_lt
  · rw [hpar]; exact h.root_parent
  · exact h.root_level_lt
  · exact h.le_root
  · intro p hp
    by_cases hpP : p = P
    · subst hpP; simpa [BTree.addChild] using h.leaf_iff p hp
    · simpa [hrest _ hpP] using h.leaf_iff p hp
  · intro p hp hpl
    by_cases hpP : p = P
    · subst hpP; simp [BTree.addChild]; have := h.children_length p hp hl; omega
    · simp only [hrest _ hpP] at hpl ⊢; exact h.children_length p hp hpl
  · intro p hp hpl c hc
    by_cases hpP : p = P
    · subst hpP
      simp only [BTree.addChild, node_modify, if_true, List.mem_append, List.mem_cons] at hc
      rcases hc with hc | rfl | hc
      · exact h.child_level p hp hl c (List.mem_of_mem_take hc)
      · exact ⟨hR, hlR⟩
      · exact h.child_level p hp hl c (List.mem_of_mem_drop hc)
    · simp only [hrest _ hpP] at hpl hc; exact h.child_level p hp hpl c hc
  · intro p hp q hq
    by_cases hpP : p = P
    · subst hpP; simp [BTree.addChild] at hq; exact h.parent_level p hp q hq
    · simp only [hrest _ hpP] at hq; exact h.parent_level p hp q hq
  · intro p hp hpr hpn
    by_cases hpP : p = P
    · subst hpP; simp [BTree.addChild] at hpn; exact h.parent_none p hp hpr hpn
    · simp only [hrest _ hpP] at hpn; exact h.parent_none p hp hpr hpn
  · exact h.pend_fresh

/-- Rewriting a leaf's entries and chain link, as long as it stays a leaf with its parent. -/
theorem modifyLeaf (h : t.ShapeOn lvl pend) {p : Nat} (hp : (t.node p).isLeaf = true)
    {f : Node → Node} (hf : (f (t.node p)).isLeaf = true)
    (hpar : (f (t.node p)).parent = (t.node p).parent) : (t.modify p f).ShapeOn lvl pend := by
  have hrest : ∀ q, q ≠ p → (t.modify p f).node q = t.node q := fun q hq => by simp [hq]
  constructor
  · exact h.order_ge
  · exact h.root_lt
  · by_cases hr : t.root = p
    · simpa [hr, hpar] using hr ▸ h.root_parent
    · simpa [hrest _ hr] using h.root_parent
  · exact h.root_level_lt
  · exact h.le_root
  · intro q hq
    by_cases hqp : q = p
    · subst hqp; simpa [hf, hp] using h.leaf_iff q hq
    · simpa [hrest _ hqp] using h.leaf_iff q hq
  · intro q hq hql
    by_cases hqp : q = p
    · subst hqp; simp [hf] at hql
    · simp only [hrest _ hqp] at hql ⊢; exact h.children_length q hq hql
  · intro q hq hql
    by_cases hqp : q = p
    · subst hqp; simp [hf] at hql
    · simp only [hrest _ hqp] at hql ⊢; exact h.child_level q hq hql
  · intro q hq r hr
    by_cases hqp : q = p
    · subst hqp; simp [hpar] at hr; exact h.parent_level q hq r hr
    · simp only [hrest _ hqp] at hr; exact h.parent_level q hq r hr
  · intro q hq hqr hqn
    by_cases hqp : q = p
    · subst hqp; simp [hpar] at hqn; exact h.parent_none q hq hqr hqn
    · simp only [hrest _ hqp] at hqn; exact h.parent_none q hq hqr hqn
  · exact h.pend_fresh

/-- A fresh leaf without a parent is pending. -/
theorem allocLeaf (h : t.ShapeOn lvl pend) {n : Node} (hn : n.isLeaf = true)
    (hpar : n.parent = none) : (t.alloc n).ShapeOn (Function.update lvl t.fresh 0) (t.fresh :: pend) := by
  have hf : ∀ p < t.fresh, p ≠ t.fresh := fun p hp => by omega
  have hr := h.root_lt
  constructor
  · exact h.order_ge
  · simp; omega
  · simpa [hf _ hr] using h.root_parent
  · simp [Function.update_apply, hf _ hr]; have := h.root_level_lt; omega
  · intro p hp
    simp only [alloc_fresh, alloc_root, Function.update_apply, hf _ hr, if_false] at hp ⊢
    split_ifs
    · omega
    · exact h.le_root p (by omega)
  · intro p hp
    simp only [alloc_fresh] at hp
    by_cases hpf : p = t.fresh
    · subst hpf; simp [hn]
    · simpa [hpf] using h.leaf_iff p (by omega)
  · intro p hp hpl
    simp only [alloc_fresh] at hp
    by_cases hpf : p = t.fresh
    · subst hpf; simp [hn] at hpl
    · simp only [node_alloc, hpf, if_false] at hpl ⊢; exact h.children_length p (by omega) hpl
  · intro p hp hpl c hc
    simp only [alloc_fresh] at hp
    by_cases hpf : p = t.fresh
    · subst hpf; simp [hn] at hpl
    · simp only [node_alloc, hpf, if_false] at hpl hc
      have := h.child_level p (by omega) hpl c hc
      simp [Function.update_apply, hf c this.1, hpf, this.2]; omega
  · intro p hp q hq
    simp only [alloc_fresh] at hp
    by_cases hpf : p = t.fresh
    · subst hpf; simp [hpar] at hq
    · simp only [node_alloc, hpf, if_false] at hq
      have := h.parent_level p (by omega) q hq
      simp [Function.update_apply, hf q this.1, hpf, this.2]; omega
  · intro p hp hpr hpn
    simp only [alloc_fresh, alloc_root] at hp hpr
    by_cases hpf : p = t.fresh
    · simp [hpf]
    · simp only [node_alloc, hpf, if_false] at hpn
      exact List.mem_cons_of_mem _ (h.parent_none p (by omega) hpr hpn)
  · rintro x (_ | ⟨_, hx⟩)
    · simp
    · have := h.pend_fresh x hx; simp; omega

/-- The first half of `splitLeaf`: the new leaf is pending. -/
theorem leafHalves (h : t.ShapeOn lvl pend) {L : Nat} (hL : L < t.fresh)
    (hl : (t.node L).isLeaf = true) :
    (t.leafHalves L).ShapeOn (Function.update lvl t.fresh 0) (t.fresh :: pend) := by
  have hf : L ≠ t.fresh := by omega
  have h₁ := h.allocLeaf (n := { newLeafNode with
    keys := (t.node L).keys.drop ((t.node L).keys.length / 2)
    values := (t.node L).values.drop ((t.node L).keys.length / 2), next := (t.node L).next }) rfl rfl
  exact h₁.modifyLeaf (p := L) (f := fun m => { m with
    keys := (t.node L).keys.take ((t.node L).keys.length / 2)
    values := (t.node L).values.take ((t.node L).keys.length / 2), next := some t.fresh })
    (by simpa [hf] using hl) (by simpa [hf] using hl) rfl

end ShapeOn

/-! ### The key bound, the frame and the separators, step by step -/

section Steps

variable {t : BTree}

theorem keysBelow_setParent (h : t.KeysBelow) (p : Nat) (r : Option Nat) :
    (t.setParent p r).KeysBelow := fun q hq => by simpa using h q hq

theorem keysBelow_growRoot (h : t.KeysBelow) (ho : 1 < t.order) (l r : Nat) (k : Bytes) :
    (t.growRoot l r k).KeysBelow := by
  intro q hq
  simp only [growRoot_fresh] at hq
  by_cases hqf : q = t.fresh
  · simp [hqf, ho]
  · simpa [hqf] using h q (by omega)

theorem keysBelow_addChild (h : t.KeysBelow) {P R i : Nat} {key : Bytes}
    (hP : ((t.addChild P i key R).node P).keys.length < t.order) :
    (t.addChild P i key R).KeysBelow := by
  intro q hq
  by_cases hqP : q = P
  · subst hqP; exact hP
  · simpa [BTree.addChild, hqP] using h q hq

theorem keysBelow_internalHalves {P : Nat} (h : ∀ p < t.fresh, p ≠ P →
    (t.node p).keys.length < t.order) (hP : (t.node P).keys.length = t.order) (ho : 0 < t.order) :
    (t.internalHalves P).KeysBelow := by
  intro q hq
  simp only [internalHalves_fresh] at hq
  by_cases hqP : q = P
  · subst hqP; simp [BTree.internalHalves, hP]; omega
  · by_cases hqf : q = t.fresh
    · subst hqf; simp [BTree.internalHalves, hqP, hP]; omega
    · simpa [BTree.internalHalves, hqP, hqf] using h q (by omega) hqP

theorem keysBelow_leafHalves {L : Nat} (h : ∀ p < t.fresh, p ≠ L →
    (t.node p).keys.length < t.order) (hL : (t.node L).keys.length = t.order) (ho : 1 < t.order) :
    (t.leafHalves L).KeysBelow := by
  intro q hq
  simp only [leafHalves_fresh] at hq
  by_cases hqL : q = L
  · subst hqL; simp [BTree.leafHalves, hL]; omega
  · by_cases hqf : q = t.fresh
    · subst hqf; simp [BTree.leafHalves, hqL, hL]; omega
    · simpa [BTree.leafHalves, hqL, hqf] using h q (by omega) hqL

theorem Frame.setParent (t : BTree) (p : Nat) (r : Option Nat) : Frame t (t.setParent p r) where
  fresh_le := le_rfl
  order_eq := rfl
  isLeaf_eq _ _ := by simp
  leaf_eq _ _ _ := by simp
  head_eq _ _ := by simp
  new_internal _ h₁ h₂ := absurd h₂ (by simpa using h₁)

theorem Frame.growRoot {l r : Nat} (k : Bytes) : Frame t (t.growRoot l r k) where
  fresh_le := by simp
  order_eq := rfl
  isLeaf_eq p hp := by simp [show p ≠ t.fresh by omega]
  leaf_eq p hp _ := by simp [show p ≠ t.fresh by omega]
  head_eq p hp := by simp [show p ≠ t.fresh by omega]
  new_internal p h₁ h₂ := by simp [show p = t.fresh by simp at h₂; omega]

theorem Frame.addChild {P R i : Nat} {key : Bytes} (hl : (t.node P).isLeaf = false)
    (hne : (t.node P).children ≠ []) : Frame t (t.addChild P i key R) where
  fresh_le := le_rfl
  order_eq := rfl
  isLeaf_eq p _ := by by_cases hp : p = P <;> simp [BTree.addChild, hp]
  leaf_eq p _ hp := by
    have : p ≠ P := by rintro rfl; simp [hl] at hp
    simp [BTree.addChild, this]
  head_eq p _ := by
    by_cases hp : p = P
    · subst hp
      obtain ⟨c, cs, hc⟩ := List.exists_cons_of_ne_nil hne
      simp [BTree.addChild, hc]
    · simp [BTree.addChild, hp]
  new_internal _ h₁ h₂ := absurd h₂ (by simpa using h₁)

theorem Frame.internalHalves {P : Nat} (hP : P < t.fresh) (hl : (t.node P).isLeaf = false) :
    Frame t (t.internalHalves P) where
  fresh_le := by simp
  order_eq := by simp
  isLeaf_eq p hp := by simp [BTree.internalHalves, show p ≠ t.fresh by omega]
  leaf_eq p hp hpl := by
    have : p ≠ P := by rintro rfl; simp [hl] at hpl
    simp [BTree.internalHalves, this, show p ≠ t.fresh by omega]
  head_eq p hp := by
    by_cases hpP : p = P
    · subst hpP; simp [BTree.internalHalves, List.head?_take]
    · simp [BTree.internalHalves, hpP, show p ≠ t.fresh by omega]
  new_internal p h₁ h₂ := by
    simp only [internalHalves_fresh] at h₂
    simp [BTree.internalHalves, show p = t.fresh by omega, show t.fresh ≠ P by omega]

theorem keysOK_setParent {Q : Bytes → Prop} (h : KeysOK Q t) (p : Nat) (r : Option Nat) :
    KeysOK Q (t.setParent p r) := fun q hq hl => by simpa using h q hq (by simpa using hl)

theorem keysOK_growRoot {Q : Bytes → Prop} (h : KeysOK Q t) {l r : Nat} {k : Bytes} (hk : Q k) :
    KeysOK Q (t.growRoot l r k) := by
  intro q hq hl k' hk'
  simp only [growRoot_fresh] at hq
  by_cases hqf : q = t.fresh
  · subst hqf; simp at hk'; exact hk' ▸ hk
  · simp [hqf] at hl hk'; exact h q (by omega) hl k' hk'

theorem keysOK_addChild {Q : Bytes → Prop} (h : KeysOK Q t) {P R i : Nat} {key : Bytes}
    (hk : Q key) : KeysOK Q (t.addChild P i key R) := by
  intro q hq hl k' hk'
  by_cases hqP : q = P
  · subst hqP
    simp only [BTree.addChild, node_modify, if_true, List.mem_append, List.mem_cons] at hl hk'
    rcases hk' with hk' | rfl | hk'
    · exact h q hq hl k' (List.mem_of_mem_take hk')
    · exact hk
    · exact h q hq hl k' (List.mem_of_mem_drop hk')
  · simp only [BTree.addChild, node_modify, hqP, if_false] at hl hk'
    exact h q hq hl k' hk'

theorem keysOK_internalHalves {Q : Bytes → Prop} (h : KeysOK Q t) {P : Nat} (hP : P < t.fresh)
    (hl : (t.node P).isLeaf = false) : KeysOK Q (t.internalHalves P) := by
  intro q hq hql k hk
  simp only [internalHalves_fresh] at hq
  by_cases hqP : q = P
  · subst hqP
    simp [BTree.internalHalves] at hk
    exact h q hP hl k (List.mem_of_mem_take hk)
  · by_cases hqf : q = t.fresh
    · subst hqf
      simp [BTree.internalHalves, hqP] at hk
      exact h P hP hl k (List.mem_of_mem_drop hk)
    · simp [BTree.internalHalves, hqP, hqf] at hql hk
      exact h q (by omega) hql k hk

end Steps

/-- What the climb `insertIntoParent(parent, key, rightChild)` promises about the tree it
returns: the shape, with the same levels for the old nodes and the same pending nodes; the
key bound; the frame; a root that is the old one or above it; and separators that come
from the old ones or are `key`. -/
structure ClimbPost (t t' : BTree) (lvl : Nat → Nat) (pend : List Nat) (key : Bytes) : Prop where
  shape : ∃ lvl', t'.ShapeOn lvl' pend ∧ ∀ p < t.fresh, lvl' p = lvl p
  keysBelow : t'.KeysBelow
  frame : Frame t t'
  root : RootGrows t t'
  keysOK : ∀ Q : Bytes → Prop, KeysOK Q t → Q key → KeysOK Q t'

/-- A climb that follows local steps which keep the root and the old levels. -/
theorem ClimbPost.prepend {t t₂ t' : BTree} {lvl lvl₂ : Nat → Nat} {pend : List Nat}
    {key k : Bytes} (post : ClimbPost t₂ t' lvl₂ pend k) (hF : Frame t t₂) (hro : t₂.root = t.root)
    (hlv : ∀ p < t.fresh, lvl₂ p = lvl p)
    (hok : ∀ Q : Bytes → Prop, KeysOK Q t → Q key → KeysOK Q t₂ ∧ Q k) :
    ClimbPost t t' lvl pend key where
  shape := by
    obtain ⟨lvl', h', hlv'⟩ := post.shape
    exact ⟨lvl', h', fun p hp => (hlv' p (by have := hF.fresh_le; omega)).trans (hlv p hp)⟩
  keysBelow := post.keysBelow
  frame := hF.trans post.frame
  root := by
    rcases post.root with hr | ⟨hr, hh⟩
    · exact .inl (hr.trans hro)
    · exact .inr ⟨by have := hF.fresh_le; omega, hro ▸ hh⟩
  keysOK Q hQ hkey := post.keysOK Q (hok Q hQ hkey).1 (hok Q hQ hkey).2

/-- `ins` performs the climb whenever the fuel covers the levels left above the parent and
the pending nodes sit below the parent. -/
def ClimbsWithin (ins : BTree → Nat → Bytes → Nat → Option BTree) (fuel : Nat) : Prop :=
  ∀ (t : BTree) (lvl : Nat → Nat) (pend : List Nat) (P : Nat) (key : Bytes) (R : Nat),
    t.ShapeOn lvl pend → t.KeysBelow → P < t.fresh → (t.node P).isLeaf = false →
    (∀ x ∈ pend, lvl x < lvl P) → R ∈ pend → R < t.fresh → lvl R + 1 = lvl P →
    lvl t.root - lvl P < fuel → ∃ t', ins t P key R = some t' ∧ ClimbPost t t' lvl pend key

/-- The tail shared by both splits: a new root over the old one, or the climb followed by the
assignment of the new node's parent, which takes it off the pending list. -/
theorem promote_spec {ins : BTree → Nat → Bytes → Nat → Option BTree} {fuel : Nat}
    (hclimb : ClimbsWithin ins fuel) {t : BTree} {lvl : Nat → Nat} {pend : List Nat}
    {X N : Nat} (k : Bytes) (h : t.ShapeOn lvl (N :: pend)) (hK : t.KeysBelow)
    (hX : X < t.fresh) (hN : N < t.fresh) (hXN : X ≠ N) (hlN : lvl N = lvl X)
    (hpend : ∀ x ∈ pend, lvl x < lvl X) (hfuel : lvl t.root - lvl X ≤ fuel) :
    ∃ t', promote ins t X N k = some t' ∧ ClimbPost t t' lvl pend k := by
  have hXp : X ∉ N :: pend := by
    rintro (_ | ⟨_, hm⟩)
    · exact hXN rfl
    · have := hpend X hm; omega
  have hor := h.order_ge
  cases hq : (t.node X).parent with
  | none =>
    -- `X` is the root: a new root goes on top
    have hXr : X = t.root := by by_contra hne; exact hXp (h.parent_none X hX hne hq)
    have h₃ := h.growRoot hN (by omega) (by rw [hlN, hXr]) k
    rw [← hXr] at h₃
    refine ⟨_, by simp [promote, hq], ⟨_, h₃, fun p hp => Function.update_noteq (by omega) _ _⟩,
      keysBelow_growRoot hK (by omega) _ _ _, Frame.growRoot k, .inr ⟨by simp, by simp [hXr]⟩,
      fun Q hQ hk => keysOK_growRoot hQ hk⟩
  | some q =>
    -- climb to the parent with the promoted separator, then point `N` at `X`'s parent
    obtain ⟨hqf, hlq⟩ := h.parent_level X hX q hq
    have hqr := h.le_root q hqf
    have hql : (t.node q).isLeaf = false := by
      have := (h.leaf_iff q hqf).not.mpr (by omega); simpa using this
    have hpend' : ∀ x ∈ N :: pend, lvl x < lvl q := by
      rintro x (_ | ⟨_, hx⟩)
      · omega
      · have := hpend x hx; omega
    obtain ⟨t₄, hins, post⟩ := hclimb t lvl (N :: pend) q k N h hK hqf hql hpend'
      (List.mem_cons_self _ _) hN (by omega) (by omega)
    obtain ⟨lvl₄, h₄, hlvl₄⟩ := post.shape
    have hfr₄ := post.frame.fresh_le
    have hXr₄ : X ≠ t₄.root := by
      rcases post.root with hr | ⟨hr, -⟩
      · rw [hr]; rintro rfl; rw [h.root_parent] at hq; cases hq
      · omega
    obtain ⟨q', hq'⟩ : ∃ q', (t₄.node X).parent = some q' :=
      Option.ne_none_iff_exists'.mp fun hn => hXp (h₄.parent_none X (by omega) hXr₄ hn)
    obtain ⟨hq'f, hlq'⟩ := h₄.parent_level X (by omega) q' hq'
    have hNr₄ : N ≠ t₄.root := by
      rcases post.root with hr | ⟨hr, -⟩
      · rw [hr]; rintro rfl; omega
      · omega
    have h₅ := h₄.setParent (r := N) (by omega) hNr₄ hq'f
      (by rw [hlq', hlvl₄ X hX, hlvl₄ N hN, hlN])
    refine ⟨_, by simp [promote, hq, hins, hq'], ⟨lvl₄, h₅, hlvl₄⟩,
      keysBelow_setParent post.keysBelow _ _, post.frame.trans (Frame.setParent _ _ _), ?_,
      fun Q hQ hk => keysOK_setParent (post.keysOK Q hQ hk) _ _⟩
    rcases post.root with hr | ⟨hr, hh⟩
    · exact .inl (by simpa using hr)
    · exact .inr ⟨by simpa using hr, by simpa using hh⟩

/-- **The climb.**  Inserting the separator `key` and the pending right sibling `R` into
`P`, one level above `R`, returns within `lvl root - lvl P + 1` rounds and keeps the shape. -/
theorem insertIntoParent_spec (fuel : Nat) : ClimbsWithin (insertIntoParent fuel) fuel := by
  induction fuel with
  | zero => intro t lvl pend P key R _ _ _ _ _ _ _ _ hfuel; omega
  | succ fuel ih =>
    intro t lvl pend P key R h hK hP hl hpend hR hRf hlR hfuel
    have hPpend : P ∉ pend := fun hm => by have := hpend P hm; omega
    rw [insertIntoParent_succ]
    set t₁ := t.addChild P (insertPos key (t.node P).keys) key R with ht₁
    have hfr₁ : t₁.fresh = t.fresh := rfl
    have hor₁ : t₁.order = t.order := rfl
    have h₁ : t₁.ShapeOn lvl pend := h.addChild hP hl hRf hlR _ key
    have hne : (t.node P).children ≠ [] := by
      rw [← List.length_pos, h.children_length P hP hl]; omega
    have hF₁ : Frame t t₁ := Frame.addChild hl hne
    have hlen₁ : (t₁.node P).keys.length = (t.node P).keys.length + 1 := by
      simp [ht₁, BTree.addChild]; omega
    have hl₁ : (t₁.node P).isLeaf = false := by simpa [ht₁, BTree.addChild] using hl
    have hok₁ : ∀ Q : Bytes → Prop, KeysOK Q t → Q key → KeysOK Q t₁ :=
      fun Q hQ hk => keysOK_addChild hQ hk
    dsimp only
    split_ifs with hsplit
    · -- `P` is full: split it and promote its middle separator
      have hPo : (t.node P).keys.length + 1 = t.order := by have := hK P hP; omega
      obtain ⟨k, hk⟩ : ∃ k, (t₁.node P).keys[(t₁.node P).keys.length / 2]? = some k :=
        ⟨_, List.getElem?_eq_getElem (by omega)⟩
      rw [splitInternal_eq _ _ _ hk]
      have h₂ := h₁.internalHalves hP hl₁ (by omega)
      have hK₂ : (t₁.internalHalves P).KeysBelow := keysBelow_internalHalves
        (fun p hp hpP => by simpa [ht₁, BTree.addChild, hpP] using hK p hp)
        (by simpa using hlen₁.trans hPo) (by have := h.order_ge; omega)
      have hlv : ∀ p < t.fresh, Function.update lvl t₁.fresh (lvl P) p = lvl p := fun p hp =>
        Function.update_noteq (by omega) _ _
      have hro₂ : (t₁.internalHalves P).root = t.root := by simp [ht₁, BTree.addChild]
      obtain ⟨t', hprom, post⟩ := promote_spec (X := P) ih k h₂ hK₂ (by simp; omega) (by simp)
        (by omega) (by rw [Function.update_same, hlv P hP])
        (fun x hx => by rw [hlv P hP, hlv x (h.pend_fresh x hx)]; exact hpend x hx)
        (by rw [hro₂, hlv _ h.root_lt, hlv P hP]; omega)
      exact ⟨t', hprom, post.prepend (hF₁.trans (Frame.internalHalves hP hl₁)) hro₂ hlv
        fun Q hQ hkey =>
          ⟨keysOK_internalHalves (hok₁ Q hQ hkey) hP hl₁,
            hok₁ Q hQ hkey P hP hl₁ k (List.getElem?_mem hk)⟩⟩
    · -- room in `P`: the climb stops here
      refine ⟨t₁, rfl, ⟨lvl, h₁, fun _ _ => rfl⟩,
        keysBelow_addChild hK (by simp [t₁] at hsplit ⊢; omega), hF₁, .inl rfl, hok₁⟩

/-! ### Descent and insert -/

/-- The descent returns a leaf when the fuel exceeds the level it starts from and the chosen
child index is in range. -/
theorem descend_spec {t : BTree} {lvl : Nat → Nat} {pend : List Nat} (h : t.ShapeOn lvl pend)
    {pick : List Bytes → Nat} (hpick : ∀ ks, pick ks ≤ ks.length) :
    ∀ fuel p, p < t.fresh → lvl p < fuel →
      ∃ leaf, t.descend pick fuel p = some leaf ∧ leaf < t.fresh ∧ (t.node leaf).isLeaf = true := by
  intro fuel
  induction fuel with
  | zero => intro p _ h; omega
  | succ fuel ih =>
    intro p hp hlv
    by_cases hl : (t.node p).isLeaf = true
    · exact ⟨p, by simp [descend, hl], hp, hl⟩
    · have hl' : (t.node p).isLeaf = false := by simpa using hl
      have hi : pick (t.node p).keys < (t.node p).children.length := by
        have := hpick (t.node p).keys; rw [h.children_length p hp hl']; omega
      obtain ⟨hc, hlc⟩ := h.child_level p hp hl' _ (List.getElem_mem hi)
      obtain ⟨leaf, hd, hleaf⟩ := ih _ hc (by omega)
      exact ⟨leaf, by simp [descend, hl, List.getElem?_eq_getElem hi, hd], hleaf⟩

theorem childIndex_le (key : Bytes) (ks : List Bytes) : childIndex key ks ≤ ks.length :=
  (List.takeWhile_prefix _).length_le

theorem findLeaf_spec {t : BTree} {lvl : Nat → Nat} {pend : List Nat} (h : t.ShapeOn lvl pend)
    (key : Bytes) :
    ∃ leaf, t.findLeaf key = some leaf ∧ leaf < t.fresh ∧ (t.node leaf).isLeaf = true :=
  descend_spec h (childIndex_le key) _ _ h.root_lt h.root_level_lt

/-- The shape between calls: a level assignment with nothing pending, and the key bound. -/
def Shape (t : BTree) : Prop := ∃ lvl, t.ShapeOn lvl [] ∧ t.KeysBelow

theorem ShapeOn.insertIntoLeaf {t : BTree} {lvl : Nat → Nat} {pend : List Nat}
    (h : t.ShapeOn lvl pend) {leaf : Nat} (hl : (t.node leaf).isLeaf = true) (key value : Bytes) :
    (t.insertIntoLeaf leaf key value).ShapeOn lvl pend := by
  unfold BTree.insertIntoLeaf
  dsimp only
  split_ifs
  · exact h.modifyLeaf hl hl rfl
  · exact h.modifyLeaf hl hl rfl

theorem insertIntoLeaf_length_le (t : BTree) (leaf : Nat) (key value : Bytes) :
    ((t.insertIntoLeaf leaf key value).node leaf).keys.length ≤ (t.node leaf).keys.length + 1 := by
  unfold BTree.insertIntoLeaf
  dsimp only
  split_ifs <;> simp; omega

/-- How one `Insert` of a non-empty key changes a tree with the shape: the key goes into the
leaf it routes to, and when that leaf fills up, the leaf is split and the climb follows. -/
structure InsertPost (t t' : BTree) (leaf : Nat) (key value : Bytes) : Prop where
  findLeaf_eq : t.findLeaf key = some leaf
  leaf_lt : leaf < t.fresh
  isLeaf : (t.node leaf).isLeaf = true
  shape : t'.Shape
  cases : t' = t.insertIntoLeaf leaf key value ∨
    (((t.insertIntoLeaf leaf key value).node leaf).keys.length = t.order ∧
      Frame ((t.insertIntoLeaf leaf key value).leafHalves leaf) t' ∧
      RootGrows ((t.insertIntoLeaf leaf key value).leafHalves leaf) t' ∧
      ∀ Q : Bytes → Prop, KeysOK Q t →
        (∀ k ∈ (((t.insertIntoLeaf leaf key value).node leaf).keys.drop
          (((t.insertIntoLeaf leaf key value).node leaf).keys.length / 2)).head?, Q k) →
        KeysOK Q t')

theorem insert_eq {t : BTree} {key : Bytes} (hk : key ≠ []) {leaf : Nat}
    (hfind : t.findLeaf key = some leaf) (value : Bytes) :
    t.insert key value =
      if t.order ≤ ((t.insertIntoLeaf leaf key value).node leaf).keys.length then
        (splitLeaf t.fresh (t.insertIntoLeaf leaf key value) leaf).map .ok
      else some (.ok (t.insertIntoLeaf leaf key value)) := by
  simp [BTree.insert, hk, hfind]

/-- Splitting the leaf an `Insert` filled up, with the climb after it, returns within every
fuel that covers the root's level: the climb rises one level a round. -/
theorem splitLeaf_spec {t : BTree} {lvl : Nat → Nat} (h : t.ShapeOn lvl []) (hK : t.KeysBelow)
    {leaf : Nat} (hlt : leaf < t.fresh) (hl : (t.node leaf).isLeaf = true) {key value : Bytes}
    (hsplit : t.order ≤ ((t.insertIntoLeaf leaf key value).node leaf).keys.length)
    {fuel : Nat} (hfuel : lvl t.root ≤ fuel) :
    ∃ k t', (((t.insertIntoLeaf leaf key value).node leaf).keys.drop
        (((t.insertIntoLeaf leaf key value).node leaf).keys.length / 2)).head? = some k ∧
      splitLeaf fuel (t.insertIntoLeaf leaf key value) leaf = some t' ∧
      ClimbPost ((t.insertIntoLeaf leaf key value).leafHalves leaf) t'
        (Function.update lvl t.fresh 0) [] k := by
  have h₁ : (t.insertIntoLeaf leaf key value).ShapeOn lvl [] := h.insertIntoLeaf hl key value
  have hKo : ∀ p < t.fresh, p ≠ leaf →
      ((t.insertIntoLeaf leaf key value).node p).keys.length < t.order := fun p hp hpl => by
    simpa [node_insertIntoLeaf_of_ne _ _ _ _ hpl] using hK p hp
  have hl₁ : ((t.insertIntoLeaf leaf key value).node leaf).isLeaf = true := by simpa using hl
  have hlen := insertIntoLeaf_length_le t leaf key value
  have hfr₁ := insertIntoLeaf_fresh t leaf key value
  have hro₁ := insertIntoLeaf_root t leaf key value
  have hor₁ := insertIntoLeaf_order t leaf key value
  have hor := h.order_ge
  generalize t.insertIntoLeaf leaf key value = t₁ at *
  have hfull : (t₁.node leaf).keys.length = t.order := by have := hK leaf hlt; omega
  obtain ⟨k, hk⟩ : ∃ k, ((t₁.node leaf).keys.drop ((t₁.node leaf).keys.length / 2)).head? =
      some k := ⟨_, by rw [List.head?_drop]; exact List.getElem?_eq_getElem (by omega)⟩
  have h₂ := h₁.leafHalves (by omega) hl₁
  have hK₂ := keysBelow_leafHalves (t := t₁) (L := leaf) (by rw [hfr₁, hor₁]; exact hKo)
    (by omega) (by omega)
  have hlv : ∀ p < t.fresh, Function.update lvl t₁.fresh 0 p = lvl p := fun p hp =>
    Function.update_noteq (by omega) _ _
  obtain ⟨t', hprom, post⟩ := promote_spec (X := leaf) (insertIntoParent_spec fuel) k h₂ hK₂
    (by simp; omega) (by simp) (by omega)
    (by rw [Function.update_same, hlv leaf hlt, (h.leaf_iff leaf hlt).mp hl]) (by simp)
    (by rw [leafHalves_root, hro₁, hlv _ h.root_lt]; omega)
  exact ⟨k, t', hk, by rw [splitLeaf_eq _ _ _ hk, hprom], hfr₁ ▸ post⟩

/-- **`Insert` keeps the shape**, and returns. -/
theorem insert_spec {t : BTree} (hS : t.Shape) {key : Bytes} (hk : key ≠ []) (value : Bytes) :
    ∃ leaf t', t.insert key value = some (.ok t') ∧ InsertPost t t' leaf key value := by
  obtain ⟨lvl, h, hK⟩ := hS
  obtain ⟨leaf, hfind, hlt, hl⟩ := findLeaf_spec h key
  refine ⟨leaf, ?_⟩
  rw [insert_eq hk hfind]
  have hlen := insertIntoLeaf_length_le t leaf key value
  split_ifs with hsplit
  · obtain ⟨k, t', hk, hsl, post⟩ := splitLeaf_spec h hK hlt hl hsplit h.root_level_lt.le
    have hl₁ : ((t.insertIntoLeaf leaf key value).node leaf).isLeaf = true := by simpa using hl
    have hfr₁ := insertIntoLeaf_fresh t leaf key value
    generalize ht₁ : t.insertIntoLeaf leaf key value = t₁ at *
    have hfull : (t₁.node leaf).keys.length = t.order := by have := hK leaf hlt; omega
    obtain ⟨lvl', h', -⟩ := post.shape
    refine ⟨t', by rw [hsl]; rfl, hfind, hlt, hl, ⟨lvl', h', post.keysBelow⟩,
      .inr ⟨by rw [ht₁]; omega, by rw [ht₁]; exact post.frame, by rw [ht₁]; exact post.root, ?_⟩⟩
    rw [ht₁]
    intro Q hQ hkQ
    refine post.keysOK Q (fun p hp hpl k' hk' => ?_) (hkQ k hk)
    have hpleaf : p ≠ leaf := by rintro rfl; simp [BTree.leafHalves, hl₁] at hpl
    have hpf : p ≠ t₁.fresh := by rintro rfl; simp [BTree.leafHalves] at hpl
    have hnode : (t₁.leafHalves leaf).node p = t.node p := by
      simp [BTree.leafHalves, hpleaf, hpf, show p ≠ t.fresh by omega, ← ht₁,
        node_insertIntoLeaf_of_ne _ _ _ _ hpleaf]
    rw [hnode] at hpl hk'
    exact hQ p (by simp at hp; omega) hpl k' hk'
  · refine ⟨t.insertIntoLeaf leaf key value, rfl, ⟨hfind, hlt, hl, ⟨lvl, h.insertIntoLeaf hl key value,
      fun p hp => ?_⟩, .inl rfl⟩⟩
    rw [insertIntoLeaf_order]
    by_cases hpl : p = leaf
    · subst hpl; omega
    · simpa [node_insertIntoLeaf_of_ne _ _ _ _ hpl] using hK p (by simpa using hp)

/-- `Get` returns on a tree with the shape. -/
theorem get_spec {t : BTree} (hS : t.Shape) (key : Bytes) : ∃ r, t.get key = some r := by
  obtain ⟨lvl, h, -⟩ := hS
  obtain ⟨leaf, hfind, -⟩ := findLeaf_spec h key
  by_cases hk : key = [] <;> simp [BTree.get, hk, hfind]

/-- `Delete` only shortens the leaf the key routes to. -/
theorem delete_spec {t : BTree} (hS : t.Shape) (key : Bytes) :
    ∃ r, t.delete key = some r ∧ ∀ t', r = .ok t' → t'.Shape := by
  obtain ⟨lvl, h, hK⟩ := hS
  by_cases hk : key = []
  · exact ⟨.error "键不能为空", by simp [BTree.delete, hk], by simp⟩
  obtain ⟨leaf, hfind, hlt, hl⟩ := findLeaf_spec h key
  simp only [BTree.delete, hk, if_false, hfind, Option.map_some', Option.some.injEq,
    exists_eq_left']
  split
  · simp
  · rintro _ ⟨⟩
    refine ⟨lvl, h.modifyLeaf hl hl rfl, fun p hp => ?_⟩
    by_cases hpl : p = leaf
    · subst hpl; simpa using (List.length_eraseIdx_le _ _).trans_lt (hK p hp)
    · simpa [hpl] using hK p hp

theorem newBTree_shape (order : Int) : (newBTree order).Shape := by
  have ho : 3 ≤ (newBTree order).order := by
    show 3 ≤ if order < 3 then 3 else order.toNat
    split_ifs <;> omega
  refine ⟨fun _ => 0, ?_, fun p _ => by show newLeafNode.keys.length < _; simp; omega⟩
  constructor <;> simp [newBTree, BTree.node] at ho ⊢
  exact ho

/-- One call from a tree with the shape returns a tree with the shape. -/
theorem apply_shape {t : BTree} (hS : t.Shape) (op : Op) : ∃ t', t.apply op = some t' ∧ t'.Shape := by
  cases op with
  | insert key value =>
    by_cases hk : key = []
    · exact ⟨t, by simp [apply, BTree.insert, hk, Except.toOption], hS⟩
    · obtain ⟨leaf, t', hins, post⟩ := insert_spec hS hk value
      exact ⟨t', by simp [apply, hins, Except.toOption], post.shape⟩
  | delete key =>
    obtain ⟨r, hdel, hr⟩ := delete_spec hS key
    cases r with
    | error e => exact ⟨t, by simp [apply, hdel, Except.toOption], hS⟩
    | ok t' => exact ⟨t', by simp [apply, hdel, Except.toOption], hr t' rfl⟩

/-- **Every run returns**, and keeps the shape. -/
theorem run_shape {t : BTree} (hS : t.Shape) (ops : List Op) :
    ∃ t', t.run ops = some t' ∧ t'.Shape := by
  induction ops generalizing t with
  | nil => exact ⟨t, rfl, hS⟩
  | cons op ops ih =>
    obtain ⟨t₁, h₁, hS₁⟩ := apply_shape hS op
    obtain ⟨t', h', hS'⟩ := ih hS₁
    exact ⟨t', by simp [run, h₁, h'], hS'⟩

/-! ### Balance, bound and parent levels of reachable trees -/

/-- The number of `children[0]` links from `p` down to a leaf, that is, how many levels `p`
sits above the leaves; fuel-bounded like the descents of the source. -/
def heightFrom (t : BTree) : Nat → Nat → Nat
  | 0, _ => 0
  | fuel + 1, p =>
    if (t.node p).isLeaf then 0
    else match (t.node p).children.head? with
      | none => 0
      | some c => t.heightFrom fuel c + 1

/-- The level of `p` above the leaves. -/
def height (t : BTree) (p : Nat) : Nat := t.heightFrom t.fresh p

/-- `p` hangs `d` child links below the root. -/
inductive Depth (t : BTree) : Nat → Nat → Prop
  | root : Depth t t.root 0
  | child {p c d : Nat} : Depth t p d → (t.node p).isLeaf = false → c ∈ (t.node p).children →
      Depth t c (d + 1)

namespace ShapeOn

variable {t : BTree} {lvl : Nat → Nat} {pend : List Nat}

theorem heightFrom_eq (h : t.ShapeOn lvl pend) :
    ∀ fuel p, p < t.fresh → lvl p < fuel → t.heightFrom fuel p = lvl p := by
  intro fuel
  induction fuel with
  | zero => intro p _ h; omega
  | succ fuel ih =>
    intro p hp hlv
    by_cases hl : (t.node p).isLeaf = true
    · simp [heightFrom, hl, (h.leaf_iff p hp).mp hl]
    · have hl' : (t.node p).isLeaf = false := by simpa using hl
      obtain ⟨c, cs, hcs⟩ := List.exists_cons_of_ne_nil (l := (t.node p).children) (by
        rw [← List.length_pos, h.children_length p hp hl']; omega)
      obtain ⟨hc, hlc⟩ := h.child_level p hp hl' c (by simp [hcs])
      simp [heightFrom, hl', hcs, ih c hc (by omega), hlc]

/-- The computed height is the level. -/
theorem height_eq (h : t.ShapeOn lvl pend) {p : Nat} (hp : p < t.fresh) : t.height p = lvl p :=
  h.heightFrom_eq _ p hp (by have := h.le_root p hp; have := h.root_level_lt; omega)

/-- A node `d` links below the root sits `d` levels below it. -/
theorem depth_level (h : t.ShapeOn lvl pend) {p d : Nat} (hd : t.Depth p d) :
    p < t.fresh ∧ lvl p + d = lvl t.root := by
  induction hd with
  | root => exact ⟨h.root_lt, rfl⟩
  | child _ hl hc ih =>
    obtain ⟨hc', hlc⟩ := h.child_level _ ih.1 hl _ hc
    exact ⟨hc', by omega⟩

end ShapeOn

/-- The halves of a leaf split by `Insert` are both non-empty leaves. -/
theorem insert_split_halves {t : BTree} (hS : t.Shape) {key value : Bytes} {leaf : Nat}
    {t' : BTree} (hfind : t.findLeaf key = some leaf) (hins : t.insert key value = some (.ok t'))
    (hgrow : t.fresh < t'.fresh) :
    (t'.node leaf).keys ≠ [] ∧ (t'.node t.fresh).isLeaf = true ∧ (t'.node t.fresh).keys ≠ [] := by
  have hk : key ≠ [] := by rintro rfl; simp [BTree.insert] at hins
  obtain ⟨leaf', t'', hins', post⟩ := insert_spec hS hk value
  obtain rfl : t' = t'' := by rw [hins] at hins'; simpa using hins'
  obtain rfl : leaf = leaf' := by simpa [hfind] using post.findLeaf_eq
  rcases post.cases with rfl | ⟨hfull, hF, -, -⟩
  · simp at hgrow
  obtain ⟨lvl, h, -⟩ := hS
  have hor := h.order_ge
  have hlt := post.leaf_lt
  have hne : t.fresh ≠ leaf := by omega
  have hl₁ : ((t.insertIntoLeaf leaf key value).node leaf).isLeaf = true := by simpa using post.isLeaf
  have hL := hF.leaf_eq leaf (by simp; omega) (by simp [BTree.leafHalves, hl₁])
  have hN := hF.leaf_eq t.fresh (by simp) (by simp [BTree.leafHalves])
  refine ⟨?_, ?_, ?_⟩
  · rw [hL.1]; simp [BTree.leafHalves, ← List.length_pos]; omega
  · rw [hF.isLeaf_eq t.fresh (by simp)]; simp [BTree.leafHalves]
  · rw [hN.1]; simp [BTree.leafHalves, hne, ← List.length_pos]; omega

/-- **Balanced and bounded.**  Every tree a run of `Insert` and `Delete` calls builds from
`NewBTree(order)` has all its leaves at one depth and fewer than `order` keys in every node;
every parent pointer names a node exactly one level above; and an `Insert` from it that
splits a leaf leaves both halves non-empty. -/
theorem reachable_balanced_bounded (order : Int) (ops : List Op) :
    ∃ t, (newBTree order).run ops = some t ∧
      (∀ p q dp dq, t.Depth p dp → t.Depth q dq → (t.node p).isLeaf = true →
        (t.node q).isLeaf = true → dp = dq) ∧
      (∀ p < t.fresh, (t.node p).keys.length < t.order) ∧
      (∀ p < t.fresh, ∀ q, (t.node p).parent = some q → t.height q = t.height p + 1) ∧
      (∀ key value leaf t', t.findLeaf key = some leaf → t.insert key value = some (.ok t') →
        t.fresh < t'.fresh →
        (t'.node leaf).keys ≠ [] ∧ (t'.node t.fresh).isLeaf = true ∧ (t'.node t.fresh).keys ≠ []) := by
  obtain ⟨t, hrun, hS⟩ := run_shape (newBTree_shape order) ops
  obtain ⟨lvl, h, hK⟩ := hS
  refine ⟨t, hrun, fun p q dp dq hp hq hlp hlq => ?_, hK, fun p hp q hq => ?_,
    fun _ _ _ _ hfind hins hgrow => insert_split_halves ⟨lvl, h, hK⟩ hfind hins hgrow⟩
  · obtain ⟨hp', hlvp⟩ := h.depth_level hp
    obtain ⟨hq', hlvq⟩ := h.depth_level hq
    rw [(h.leaf_iff p hp').mp hlp] at hlvp
    rw [(h.leaf_iff q hq').mp hlq] at hlvq
    omega
  · obtain ⟨hq', hlq⟩ := h.parent_level p hp q hq
    rw [h.height_eq hq', h.height_eq hp, hlq]

end BTree

end XMongoStorage
