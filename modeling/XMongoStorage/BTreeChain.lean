/-
The leaf chain: what `Range` reads, and how every call changes it.

`Chained t L` says that `L` lists the leaves of `t`, each once, in the order their `next`
pointers link them from node 0 to `nil`; that the keys of every leaf strictly increase and
are non-empty, with a value for each key; that every separator lies above `[0]`; and that
following first children from the root leads to node 0.  The entries of the tree are then
`entriesOf t L`, the key-value pairs of the leaves of `L` in order.

* `range_zero`, `range_nil` — `Range([0], nil)` and `Range(nil, nil)` return exactly
  `entriesOf t L`, and `range_some` — `Range` returns from every start;
* `insert_chained`, `delete_chained` — `Insert` and `Delete` keep the invariant, and change
  the entries only at the leaf the key routes to: an `Insert` of a key that `Get` does not
  find adds one entry, one that `Get` finds replaces its value, and a `Delete` removes the
  entry `Get` finds;
* `insert_valid`, `delete_valid` — a tree with the shape and a chain (`Valid`) keeps both
  through every call.

Design notes: none of this needs the keys to be routed correctly.  A key that `Get` misses
may sit in another leaf (`BTreeRouting.lean`); an `Insert` of it then adds a second entry,
in the leaf the key routes to, and the entries say so.
-/
import XMongoStorage.BTreeShape
import Mathlib.Data.List.Nodup

namespace XMongoStorage

namespace BTree

/-- `L` is the list of nodes reached from `p` by `next` pointers, until `nil`. -/
inductive Linked (t : BTree) : Option Nat → List Nat → Prop
  | nil : Linked t none []
  | cons {p : Nat} {L : List Nat} : Linked t (t.node p).next L → Linked t (some p) (p :: L)

/-- Following first children from `p` leads to node 0. -/
inductive ReachesFirst (t : BTree) : Nat → Prop
  | zero : ReachesFirst t 0
  | step {p c : Nat} : (t.node p).isLeaf = false → (t.node p).children.head? = some c →
      ReachesFirst t c → ReachesFirst t p

/-- The key-value pairs of leaf `p`. -/
def leafEntries (t : BTree) (p : Nat) : List (Bytes × Bytes) := (t.node p).keys.zip (t.node p).values

/-- The key-value pairs of the leaves `L`, in order. -/
def entriesOf (t : BTree) (L : List Nat) : List (Bytes × Bytes) := L.flatMap t.leafEntries

/-- A well-formed leaf: strictly increasing, non-empty keys, with one value per key. -/
structure LeafOK (n : Node) : Prop where
  sorted : n.keys.Pairwise Before
  values_length : n.values.length = n.keys.length
  keys_ne : ∀ k ∈ n.keys, k ≠ []

/-- The leaf chain invariant. -/
structure Chained (t : BTree) (L : List Nat) : Prop where
  linked : Linked t (some 0) L
  nodup : L.Nodup
  mem_iff : ∀ p, p ∈ L ↔ p < t.fresh ∧ (t.node p).isLeaf = true
  leaf_ok : ∀ p ∈ L, LeafOK (t.node p)
  sep : KeysOK (Before [0]) t
  first : ReachesFirst t t.root

/-! ### Reading the chain -/

/-- Well-formedness reads only the keys and the values. -/
theorem LeafOK.congr {n n' : Node} (h : LeafOK n) (hk : n'.keys = n.keys)
    (hv : n'.values = n.values) : LeafOK n' :=
  ⟨hk ▸ h.sorted, hk ▸ hv ▸ h.values_length, hk ▸ h.keys_ne⟩

/-- Both halves of a split leaf are well formed. -/
theorem LeafOK.take {n : Node} (h : LeafOK n) (m : Nat) {n' : Node} (hk : n'.keys = n.keys.take m)
    (hv : n'.values = n.values.take m) : LeafOK n' :=
  ⟨hk ▸ h.sorted.sublist (List.take_sublist _ _), by simp [hk, hv, h.values_length],
    fun k hk' => h.keys_ne k (List.mem_of_mem_take (hk ▸ hk'))⟩

theorem LeafOK.drop {n : Node} (h : LeafOK n) (m : Nat) {n' : Node} (hk : n'.keys = n.keys.drop m)
    (hv : n'.values = n.values.drop m) : LeafOK n' :=
  ⟨hk ▸ h.sorted.sublist (List.drop_sublist _ _), by simp [hk, hv, h.values_length],
    fun k hk' => h.keys_ne k (List.mem_of_mem_drop (hk ▸ hk'))⟩

theorem Linked.congr {t t' : BTree} {p : Option Nat} {L : List Nat} (h : Linked t p L)
    (hnext : ∀ q ∈ L, (t'.node q).next = (t.node q).next) : Linked t' p L := by
  induction h with
  | nil => exact .nil
  | cons _ ih =>
    refine .cons ?_
    rw [hnext _ (List.mem_cons_self _ _)]
    exact ih fun q hq => hnext q (List.mem_cons_of_mem _ hq)

/-- A list of distinct nodes below `n` has at most `n` of them. -/
theorem length_le_of_nodup {L : List Nat} {n : Nat} (hnd : L.Nodup) (hlt : ∀ q ∈ L, q < n) :
    L.length ≤ n := by
  simpa using (List.subperm_of_subset hnd fun q hq => List.mem_range.mpr (hlt q hq)).length_le

/-- `Range` keeps every entry of a leaf when no key lies below the start and there is no
end. -/
theorem scanLeaf_none {start : Bytes} :
    ∀ (es acc : List (Bytes × Bytes)), (∀ e ∈ es, ¬ Before e.1 start) →
      scanLeaf start none es acc = (acc ++ es, false)
  | [], acc, _ => by simp [scanLeaf]
  | (k, v) :: es, acc, h => by
    have hk : compareBytes k start ≠ .lt := h (k, v) (List.mem_cons_self _ _)
    simp only [scanLeaf, hk, if_false]
    rw [scanLeaf_none es _ fun e he => h e (List.mem_cons_of_mem _ he)]
    simp

theorem rangeFrom_linked {t : BTree} {start : Bytes} {p : Option Nat} {L : List Nat}
    (h : Linked t p L) (hkeys : ∀ q ∈ L, ∀ k ∈ (t.node q).keys, ¬ Before k start) :
    ∀ fuel acc, L.length ≤ fuel → t.rangeFrom start none fuel p acc = some (acc ++ entriesOf t L) := by
  induction h with
  | nil => intro fuel acc _; cases fuel <;> simp [rangeFrom, entriesOf]
  | cons _ ih =>
    rename_i q L _
    intro fuel acc hf
    obtain ⟨fuel, rfl⟩ : ∃ f, fuel = f + 1 := ⟨fuel - 1, by simp at hf; omega⟩
    have hscan := scanLeaf_none (leafEntries t q) acc fun e he =>
      hkeys q (List.mem_cons_self _ _) e.1 (List.of_mem_zip he).1
    simp only [leafEntries] at hscan
    simp only [rangeFrom, hscan]
    rw [ih (fun q' hq' => hkeys q' (List.mem_cons_of_mem _ hq')) fuel _ (by simp at hf; omega)]
    simp [entriesOf, leafEntries]

/-- Below every separator, a key routes to the first child. -/
theorem childIndex_zero {s : Bytes} {ks : List Bytes} (h : ∀ k ∈ ks, Before s k) :
    childIndex s ks = 0 := by
  cases ks with
  | nil => rfl
  | cons k ks =>
    simp only [childIndex, List.takeWhile, show compareBytes s k = .lt from h k (by simp)]
    rfl

/-- From a node on the first-child path, the descent for a key below every separator reaches
node 0. -/
theorem findLeaf_zero_of_first {t : BTree} {lvl : Nat → Nat} {pend : List Nat}
    (h : t.ShapeOn lvl pend) (hsep : KeysOK (Before [0]) t) (h0 : (t.node 0).isLeaf = true)
    {s : Bytes} (hs : ∀ k, Before [0] k → Before s k) {p : Nat} (hp : ReachesFirst t p) :
    p < t.fresh → ∀ fuel, lvl p < fuel → t.descend (childIndex s) fuel p = some 0 := by
  induction hp with
  | zero =>
    intro _ fuel hf
    obtain ⟨fuel, rfl⟩ : ∃ f, fuel = f + 1 := ⟨fuel - 1, by omega⟩
    simp [descend, h0]
  | step hl hc _ ih =>
    rename_i p c _
    intro hp fuel hf
    obtain ⟨fuel, rfl⟩ : ∃ f, fuel = f + 1 := ⟨fuel - 1, by omega⟩
    have hcm : c ∈ (t.node p).children := List.mem_of_mem_head? hc
    obtain ⟨hclt, hlc⟩ := h.child_level p hp hl c hcm
    have hget : (t.node p).children[childIndex s (t.node p).keys]? = some c := by
      rw [childIndex_zero fun k hk => hs k (hsep p hp hl k hk), ← List.head?_eq_getElem?, hc]
    simp only [descend, hl, hget]
    exact ih hclt fuel (by omega)

/-- Every leaf of the chain starts a tail of it. -/
theorem Linked.tail {t : BTree} {p : Option Nat} {L : List Nat} (h : Linked t p L) {q : Nat}
    (hq : q ∈ L) : ∃ L₁ L₂, L = L₁ ++ q :: L₂ ∧ Linked t (some q) (q :: L₂) := by
  induction h with
  | nil => cases hq
  | @cons p L h ih =>
    by_cases hpq : p = q
    · subst hpq; exact ⟨[], L, rfl, .cons h⟩
    · obtain ⟨L₁, L₂, rfl, h₂⟩ := ih ((List.mem_cons.mp hq).resolve_left (Ne.symm hpq))
      exact ⟨p :: L₁, L₂, rfl, h₂⟩

/-- The walk of `Range` returns within as many steps as the chain has leaves. -/
theorem rangeFrom_some {t : BTree} {start : Bytes} {endKey : Option Bytes} {p : Option Nat}
    {L : List Nat} (h : Linked t p L) :
    ∀ fuel acc, L.length ≤ fuel → ∃ r, t.rangeFrom start endKey fuel p acc = some r := by
  induction h with
  | nil => exact fun fuel acc _ => ⟨acc, by cases fuel <;> rfl⟩
  | cons _ ih =>
    rintro (_ | fuel) acc hlen
    · simp at hlen
    · simp only [rangeFrom]
      split
      · exact ⟨_, rfl⟩
      · exact ih fuel _ (by simpa using hlen)

/-- **`Range` returns** on a chained tree with the shape, whatever its bounds. -/
theorem range_some {t : BTree} (hS : t.Shape) {L : List Nat} (hC : Chained t L)
    (startKey : Bytes) (endKey : Option Bytes) : ∃ r, t.range startKey endKey = some r := by
  obtain ⟨lvl, h, -⟩ := hS
  obtain ⟨leaf, hfind, hlt, hl⟩ := findLeaf_spec h startKey
  obtain ⟨L₁, L₂, rfl, h₂⟩ := hC.linked.tail ((hC.mem_iff leaf).mpr ⟨hlt, hl⟩)
  have hlen : (L₁ ++ leaf :: L₂).length ≤ t.fresh :=
    length_le_of_nodup hC.nodup fun q hq => ((hC.mem_iff q).mp hq).1
  simp only [range, hfind, Option.some_bind]
  exact rangeFrom_some h₂ _ _ (by simp at hlen ⊢; omega)

/-- **Full scans.**  `Range(s, nil)` from a key below every separator and every stored key
returns the entries of the chain. -/
theorem range_of_first {t : BTree} (hS : t.Shape) {L : List Nat} (hC : Chained t L) {s : Bytes}
    (hs : ∀ k, Before [0] k → Before s k) (hkeys : ∀ k, k ≠ [] → ¬ Before k s) :
    t.range s none = some (entriesOf t L) := by
  obtain ⟨lvl, h, -⟩ := hS
  have h0 : 0 ∈ L := by cases hC.linked; exact List.mem_cons_self _ _
  have hfind : t.findLeaf s = some 0 :=
    findLeaf_zero_of_first h hC.sep ((hC.mem_iff 0).mp h0).2 hs hC.first h.root_lt _
      h.root_level_lt
  simp only [range, hfind, Option.some_bind]
  rw [rangeFrom_linked hC.linked (fun q hq k hk => hkeys k ((hC.leaf_ok q hq).keys_ne k hk)) _ []
    (length_le_of_nodup hC.nodup fun q hq => ((hC.mem_iff q).mp hq).1)]
  simp

/-- `Range([0], nil)`, the scan of the record store, returns the entries of the chain. -/
theorem range_zero {t : BTree} (hS : t.Shape) {L : List Nat} (hC : Chained t L) :
    t.range [0] none = some (entriesOf t L) :=
  range_of_first hS hC (fun _ hk => hk) fun k hk => by
    rcases zero_before_or_eq hk with rfl | hb
    exacts [Before.irrefl _, Before.asymm hb]

/-- `Range(nil, nil)`, the unbounded scan of an index, returns the entries of the chain. -/
theorem range_nil {t : BTree} (hS : t.Shape) {L : List Nat} (hC : Chained t L) :
    t.range [] none = some (entriesOf t L) :=
  range_of_first hS hC (fun k hk => Before.trans (by decide) hk) fun k _ => by
    cases k <;> simp [Before, compareBytes]

/-! ### Sorted leaves -/

theorem insertPos_cons (key k : Bytes) (ks : List Bytes) :
    insertPos key (k :: ks) = if compareBytes key k = .gt then insertPos key ks + 1 else 0 := by
  unfold insertPos
  rw [List.takeWhile_cons]
  cases compareBytes key k <;> rfl

theorem before_of_gt {a b : Bytes} (h : compareBytes a b = .gt) : Before b a := by
  unfold Before
  rw [compareBytes_swap a b, h]
  rfl

theorem before_of_not_gt {a b : Bytes} (h : ¬ compareBytes a b = .gt) (hne : a ≠ b) : Before a b := by
  unfold Before
  cases hc : compareBytes a b
  · rfl
  · exact absurd (compareBytes_eq_iff.mp hc) hne
  · exact absurd hc h

/-- Inserting a new key at `insertPos` keeps a leaf sorted. -/
theorem pairwise_insertAt {key : Bytes} :
    ∀ {ks : List Bytes}, ks.Pairwise Before → key ∉ ks →
      (ks.take (insertPos key ks) ++ key :: ks.drop (insertPos key ks)).Pairwise Before
  | [], _, _ => by simp
  | k :: ks, hs, hk => by
    obtain ⟨hks, hs⟩ := List.pairwise_cons.mp hs
    have hne : key ≠ k := fun h => hk (h ▸ List.mem_cons_self _ _)
    rw [insertPos_cons]
    split
    · rename_i hgt
      simp only [List.take_succ_cons, List.drop_succ_cons, List.cons_append, List.pairwise_cons]
      refine ⟨fun b hb => ?_, pairwise_insertAt hs fun h => hk (List.mem_cons_of_mem _ h)⟩
      simp only [List.mem_append, List.mem_cons] at hb
      rcases hb with hb | rfl | hb
      · exact hks b (List.mem_of_mem_take hb)
      · exact before_of_gt hgt
      · exact hks b (List.mem_of_mem_drop hb)
    · rename_i hgt
      have hkk := before_of_not_gt hgt hne
      simp only [List.take_zero, List.drop_zero, List.nil_append, List.pairwise_cons]
      refine ⟨fun b hb => ?_, hks, hs⟩
      rcases List.mem_cons.mp hb with rfl | hb
      exacts [hkk, hkk.trans (hks b hb)]

/-- In a sorted leaf, a stored key sits at its `insertPos`, which `indexOfKey` finds. -/
theorem insertPos_of_mem {key : Bytes} :
    ∀ {ks : List Bytes}, ks.Pairwise Before → key ∈ ks →
      ks[insertPos key ks]? = some key ∧ indexOfKey key ks = some (insertPos key ks)
  | [], _, hk => absurd hk (List.not_mem_nil _)
  | k :: ks, hs, hk => by
    obtain ⟨hks, hs⟩ := List.pairwise_cons.mp hs
    by_cases hkk : k = key
    · subst hkk
      simp [insertPos_cons, indexOfKey]
    · have hk' : key ∈ ks := (List.mem_cons.mp hk).resolve_left (Ne.symm hkk)
      have hgt : compareBytes key k = .gt := by
        have := hks key hk'
        rw [Before, ← Ordering.swap_inj, ← compareBytes_swap] at this
        simpa using this
      obtain ⟨h₁, h₂⟩ := insertPos_of_mem hs hk'
      simp [insertPos_cons, hgt, indexOfKey, hkk, h₁, h₂]

theorem indexOfKey_eq_none {key : Bytes} : ∀ {ks : List Bytes}, indexOfKey key ks = none ↔ key ∉ ks
  | [] => by simp [indexOfKey]
  | k :: ks => by
    by_cases hkk : k = key
    · simp [indexOfKey, hkk]
    · simp [indexOfKey, hkk, indexOfKey_eq_none, Ne.symm hkk]

theorem getElem_of_indexOfKey {key : Bytes} :
    ∀ {ks : List Bytes} {i : Nat}, indexOfKey key ks = some i → ks[i]? = some key
  | [], _, h => by simp [indexOfKey] at h
  | k :: ks, i, h => by
    unfold indexOfKey at h
    split_ifs at h with hkk
    · cases h; simp [hkk]
    · obtain ⟨j, hj, rfl⟩ := Option.map_eq_some'.mp h
      simpa using getElem_of_indexOfKey hj

/-! ### Entries of one leaf -/

theorem zip_take_drop {α β : Type} (ks : List α) (vs : List β) (i : Nat)
    (h : ks.length = vs.length) :
    (ks.take i).zip (vs.take i) ++ (ks.drop i).zip (vs.drop i) = ks.zip vs := by
  rw [← List.zip_append (by simp [h]), List.take_append_drop, List.take_append_drop]

theorem zip_mid {α β : Type} {A B : List α} {A' B' : List β} (x : α) (y : β)
    (h : A.length = A'.length) : (A ++ x :: B).zip (A' ++ y :: B') = A.zip A' ++ (x, y) :: B.zip B' := by
  rw [List.zip_append h]; rfl

theorem take_cons_drop {α : Type} {l : List α} {i : Nat} {a : α} (h : l[i]? = some a) :
    l.take i ++ a :: l.drop (i + 1) = l := by
  obtain ⟨hi, rfl⟩ := List.getElem?_eq_some_iff.mp h
  rw [← List.drop_eq_getElem_cons hi, List.take_append_drop]

/-- The entry at `i` of a well-formed leaf, with the entries before and after it. -/
theorem LeafOK.split_at {n : Node} (h : LeafOK n) {i : Nat} {key : Bytes} (hi : n.keys[i]? = some key) :
    n.keys.zip n.values = (n.keys.take i).zip (n.values.take i) ++
      (key, n.values.getD i []) :: (n.keys.drop (i + 1)).zip (n.values.drop (i + 1)) := by
  have hv : i < n.values.length := by
    rw [h.values_length]; exact (List.getElem?_eq_some_iff.mp hi).1
  have hval : n.values[i]? = some (n.values.getD i []) := by
    simp [List.getD_eq_getElem?_getD, List.getElem?_eq_getElem hv]
  conv_lhs => rw [← take_cons_drop hi, ← take_cons_drop hval]
  exact zip_mid _ _ (by simp [h.values_length])

/-- `insertIntoLeaf` on a well-formed leaf: the entry of `key` that `Get` reads there, if
any, gives way to `(key, value)`. -/
theorem leafEntries_insertIntoLeaf {t : BTree} {leaf : Nat} (h : LeafOK (t.node leaf))
    (key value : Bytes) :
    ∃ P S, leafEntries t leaf = P ++ ((indexOfKey key (t.node leaf).keys).map
        fun i => (t.node leaf).values.getD i []).toList.map (key, ·) ++ S ∧
      leafEntries (t.insertIntoLeaf leaf key value) leaf = P ++ [(key, value)] ++ S := by
  unfold leafEntries BTree.insertIntoLeaf
  by_cases hmem : key ∈ (t.node leaf).keys
  · obtain ⟨hi, hidx⟩ := insertPos_of_mem h.sorted hmem
    have hv : insertPos key (t.node leaf).keys < (t.node leaf).values.length := by
      rw [h.values_length]; exact (List.getElem?_eq_some_iff.mp hi).1
    refine ⟨((t.node leaf).keys.take (insertPos key (t.node leaf).keys)).zip
      ((t.node leaf).values.take (insertPos key (t.node leaf).keys)),
      ((t.node leaf).keys.drop (insertPos key (t.node leaf).keys + 1)).zip
      ((t.node leaf).values.drop (insertPos key (t.node leaf).keys + 1)),
      by rw [h.split_at hi, hidx]; simp, ?_⟩
    simp only [hi, if_true, node_modify, List.set_eq_take_cons_drop _ hv]
    generalize insertPos key (t.node leaf).keys = i at hi hv ⊢
    conv_lhs => rw [← take_cons_drop hi]
    rw [zip_mid _ _ (by simp [h.values_length])]
    simp
  · have hi : (t.node leaf).keys[insertPos key (t.node leaf).keys]? ≠ some key :=
      fun hi => hmem (List.getElem?_mem hi)
    refine ⟨((t.node leaf).keys.take (insertPos key (t.node leaf).keys)).zip
      ((t.node leaf).values.take (insertPos key (t.node leaf).keys)),
      ((t.node leaf).keys.drop (insertPos key (t.node leaf).keys)).zip
      ((t.node leaf).values.drop (insertPos key (t.node leaf).keys)),
      by rw [← zip_take_drop _ _ (insertPos key (t.node leaf).keys) h.values_length.symm,
        indexOfKey_eq_none.mpr hmem]; simp, ?_⟩
    simp only [hi, if_false, node_modify, if_true]
    rw [zip_mid _ _ (by simp [h.values_length])]
    simp

theorem LeafOK.insertAt {n : Node} (h : LeafOK n) {key : Bytes} (hk : key ≠ []) (hmem : key ∉ n.keys)
    (value : Bytes) {n' : Node}
    (hk' : n'.keys = n.keys.take (insertPos key n.keys) ++ key :: n.keys.drop (insertPos key n.keys))
    (hv' : n'.values = n.values.take (insertPos key n.keys) ++ value :: n.values.drop (insertPos key n.keys)) :
    LeafOK n' := by
  refine ⟨hk' ▸ pairwise_insertAt h.sorted hmem, by simp [hk', hv', h.values_length], ?_⟩
  rw [hk']
  simp only [List.mem_append, List.mem_cons]
  rintro k (hk'' | rfl | hk'')
  exacts [h.keys_ne k (List.mem_of_mem_take hk''), hk, h.keys_ne k (List.mem_of_mem_drop hk'')]

/-- `Delete` on a well-formed leaf: the entry at the index of `key` goes. -/
theorem LeafOK.eraseIdx {n : Node} (h : LeafOK n) {i : Nat} {key : Bytes}
    (hi : indexOfKey key n.keys = some i) :
    LeafOK { n with keys := n.keys.eraseIdx i, values := n.values.eraseIdx i } ∧
    ∃ P S, n.keys.zip n.values = P ++ [(key, n.values.getD i [])] ++ S ∧
      (n.keys.eraseIdx i).zip (n.values.eraseIdx i) = P ++ S := by
  have hk := getElem_of_indexOfKey hi
  refine ⟨⟨h.sorted.sublist (List.eraseIdx_sublist _ _), by simp [List.length_eraseIdx, h.values_length],
    fun k hk' => h.keys_ne k (List.mem_of_mem_eraseIdx hk')⟩, (n.keys.take i).zip (n.values.take i),
    (n.keys.drop (i + 1)).zip (n.values.drop (i + 1)), by rw [h.split_at hk]; simp, ?_⟩
  rw [List.eraseIdx_eq_take_drop_succ, List.eraseIdx_eq_take_drop_succ,
    List.zip_append (by simp [h.values_length])]

/-- Past the first key of a well-formed leaf every key lies above `[0]`. -/
theorem LeafOK.zero_before {n : Node} (h : LeafOK n) {m : Nat} (hm : 0 < m) :
    ∀ k ∈ (n.keys.drop m).head?, Before [0] k := fun k hk => by
  have hs := h.sorted
  have hne := h.keys_ne
  cases hks : n.keys with
  | nil => simp [hks] at hk
  | cons k₀ rest =>
    rw [hks] at hk hs hne
    obtain ⟨m, rfl⟩ := Nat.exists_eq_add_of_lt hm
    have hk' : k ∈ rest := List.mem_of_mem_drop (List.mem_of_mem_head? (by simpa using hk))
    have h₀ : Before k₀ k := (List.pairwise_cons.mp hs).1 k hk'
    rcases zero_before_or_eq (hne k₀ (List.mem_cons_self _ _)) with rfl | h0
    exacts [h₀, h0.trans h₀]

/-! ### Frames of the chain -/

/-- First children are followed through nodes of `P` only, and `t'` agrees with `t` there. -/
theorem ReachesFirst.congr {t t' : BTree} {P : Nat → Prop}
    (hP : ∀ q, P q → (t.node q).isLeaf = false → ∀ c ∈ (t.node q).children.head?, P c)
    (hl : ∀ q, P q → (t'.node q).isLeaf = (t.node q).isLeaf)
    (hc : ∀ q, P q → (t'.node q).children.head? = (t.node q).children.head?)
    {p : Nat} (h : ReachesFirst t p) (hp : P p) : ReachesFirst t' p := by
  induction h with
  | zero => exact .zero
  | step hpl hpc _ ih =>
    exact .step ((hl _ hp).trans hpl) ((hc _ hp).trans hpc) (ih (hP _ hp hpl _ hpc))

/-- In a tree with the shape, first children of allocated nodes are allocated. -/
theorem ShapeOn.head_lt {t : BTree} {lvl : Nat → Nat} {pend : List Nat} (h : t.ShapeOn lvl pend)
    (q : Nat) (hq : q < t.fresh) (hl : (t.node q).isLeaf = false) :
    ∀ c ∈ (t.node q).children.head?, c < t.fresh :=
  fun c hc => (h.child_level q hq hl c (List.mem_of_mem_head? hc)).1

theorem entriesOf_append (t : BTree) (A B : List Nat) :
    entriesOf t (A ++ B) = entriesOf t A ++ entriesOf t B := List.flatMap_append _ _ _

theorem entriesOf_cons (t : BTree) (p : Nat) (L : List Nat) :
    entriesOf t (p :: L) = leafEntries t p ++ entriesOf t L := List.flatMap_cons _ _ _

theorem entriesOf_congr {t t' : BTree} {L : List Nat}
    (h : ∀ q ∈ L, leafEntries t' q = leafEntries t q) : entriesOf t' L = entriesOf t L :=
  List.flatMap_congr h

/-- The nodes of the chain on either side of one of its leaves. -/
theorem Chained.not_mem {t : BTree} {A B : List Nat} {p : Nat} (hC : Chained t (A ++ p :: B)) :
    p ∉ A ∧ p ∉ B ∧ t.fresh ∉ A ∧ t.fresh ∉ B := by
  have hnd := hC.nodup
  rw [List.nodup_middle, List.nodup_cons, List.mem_append] at hnd
  have hlt : ∀ q ∈ A ++ p :: B, q ≠ t.fresh := fun q hq => ((hC.mem_iff q).mp hq).1.ne
  simp only [List.mem_append, List.mem_cons] at hlt
  exact ⟨fun h => hnd.1 (.inl h), fun h => hnd.1 (.inr h),
    fun h => hlt _ (.inl h) rfl, fun h => hlt _ (.inr (.inr h)) rfl⟩

/-- A write to one leaf of the chain that keeps it a sorted leaf with its link and a value
per key. -/
theorem Chained.modifyLeaf {t : BTree} {L : List Nat} (hC : Chained t L) {p : Nat} (hp : p ∈ L)
    {f : Node → Node} (hl : (f (t.node p)).isLeaf = true)
    (hc : (f (t.node p)).children = (t.node p).children) (hn : (f (t.node p)).next = (t.node p).next)
    (hok : LeafOK (f (t.node p))) : Chained (t.modify p f) L := by
  have hpl : (t.node p).isLeaf = true := ((hC.mem_iff p).mp hp).2
  have hleaf : ∀ q, ((t.modify p f).node q).isLeaf = (t.node q).isLeaf := fun q => by
    by_cases hq : q = p <;> simp [hq, hl, hpl]
  refine ⟨hC.linked.congr fun q _ => by by_cases hq : q = p <;> simp [hq, hn], hC.nodup,
    fun q => by rw [node_modify, ← node_modify, hleaf, modify_fresh]; exact hC.mem_iff q,
    fun q hq => ?_, fun q hq hql => ?_, ?_⟩
  · by_cases h : q = p
    · subst h; simpa using hok
    · simpa [h] using hC.leaf_ok q hq
  · have hqp : q ≠ p := by rintro rfl; simp [hl] at hql
    simpa [hqp] using hC.sep q hq (by simpa [hqp] using hql)
  · refine ReachesFirst.congr (P := fun _ => True) (by simp) (fun q _ => hleaf q) (fun q _ => ?_)
      hC.first trivial
    by_cases h : q = p <;> simp [h, hc]

/-- The chain through a frame of the climb: its leaves are untouched, and a new root sits
above the old one. -/
theorem Chained.frame {t t' : BTree} {L : List Nat} {lvl : Nat → Nat} {pend : List Nat}
    (hS : t.ShapeOn lvl pend) (hC : Chained t L) (hF : Frame t t') (hR : RootGrows t t')
    (hroot : t'.root < t'.fresh) (hsep : KeysOK (Before [0]) t') : Chained t' L := by
  have hlt : ∀ q ∈ L, q < t.fresh := fun q hq => ((hC.mem_iff q).mp hq).1
  have hleaf : ∀ q ∈ L, (t.node q).isLeaf = true := fun q hq => ((hC.mem_iff q).mp hq).2
  have heq := fun q hq => hF.leaf_eq q (hlt q hq) (hleaf q hq)
  refine ⟨hC.linked.congr fun q hq => (heq q hq).2.2, hC.nodup, fun q => ?_,
    fun q hq => (hC.leaf_ok q hq).congr (heq q hq).1 (heq q hq).2.1, hsep, ?_⟩
  · rw [hC.mem_iff]
    by_cases hq : q < t.fresh
    · rw [hF.isLeaf_eq q hq]
      exact ⟨fun h => ⟨by have := hF.fresh_le; omega, h.2⟩, fun h => ⟨hq, h.2⟩⟩
    · refine ⟨fun h => absurd h.1 hq, fun h => ?_⟩
      rw [hF.new_internal q (by omega) h.1] at h
      cases h.2
  · have hfirst : ReachesFirst t' t.root :=
      ReachesFirst.congr hS.head_lt hF.isLeaf_eq hF.head_eq hC.first hS.root_lt
    rcases hR with hr | ⟨hr, hhead⟩
    · rwa [hr]
    · exact .step (hF.new_internal _ hr hroot) hhead hfirst

theorem entriesOf_frame {t t' : BTree} {L : List Nat} (hC : Chained t L) (hF : Frame t t') :
    entriesOf t' L = entriesOf t L :=
  entriesOf_congr fun q hq => by
    obtain ⟨hk, hv, -⟩ := hF.leaf_eq q ((hC.mem_iff q).mp hq).1 ((hC.mem_iff q).mp hq).2
    simp [leafEntries, hk, hv]

/-! ### Splitting a leaf -/

/-- A node `y` linked in right after `x`. -/
theorem Linked.splice {t t' : BTree} {x y : Nat} {B : List Nat} (hx : (t'.node x).next = some y)
    (hy : (t'.node y).next = (t.node x).next) (hB : ∀ q ∈ B, (t'.node q).next = (t.node q).next) :
    ∀ {A : List Nat} {p : Option Nat}, Linked t p (A ++ x :: B) →
      (∀ q ∈ A, (t'.node q).next = (t.node q).next) → Linked t' p (A ++ x :: y :: B)
  | [], _, .cons h, _ => by
    refine .cons ?_
    rw [hx]
    refine .cons ?_
    rw [hy]
    exact h.congr hB
  | a :: A, _, .cons h, hA => by
    refine .cons ?_
    rw [hA a (List.mem_cons_self _ _)]
    exact Linked.splice hx hy hB h fun q hq => hA q (List.mem_cons_of_mem _ hq)

section LeafHalves

variable {t : BTree} {A B : List Nat} {leaf : Nat}

/-- The nodes of `leafHalves`: the lower half stays in `leaf`, the upper half is the new
leaf `t.fresh`, linked after it. -/
theorem node_leafHalves (hf : leaf ≠ t.fresh) (q : Nat) :
    (t.leafHalves leaf).node q =
      if q = leaf then { t.node leaf with
        keys := (t.node leaf).keys.take ((t.node leaf).keys.length / 2)
        values := (t.node leaf).values.take ((t.node leaf).keys.length / 2), next := some t.fresh }
      else if q = t.fresh then { newLeafNode with
        keys := (t.node leaf).keys.drop ((t.node leaf).keys.length / 2)
        values := (t.node leaf).values.drop ((t.node leaf).keys.length / 2), next := (t.node leaf).next }
      else t.node q := by
  unfold BTree.leafHalves
  by_cases hq : q = leaf
  · subst hq; simp [hf]
  · simp [hq]

theorem Chained.leaf_lt (hC : Chained t (A ++ leaf :: B)) : leaf < t.fresh :=
  ((hC.mem_iff leaf).mp (List.mem_append_right _ (List.mem_cons_self _ _))).1

/-- The split leaves the rest of the chain alone. -/
theorem Chained.node_leafHalves_of_mem (hC : Chained t (A ++ leaf :: B)) :
    ∀ q ∈ A ++ B, (t.leafHalves leaf).node q = t.node q := fun q hq => by
  obtain ⟨hA, hB, hfA, hfB⟩ := hC.not_mem
  have : q ≠ leaf ∧ q ≠ t.fresh := by
    rcases List.mem_append.mp hq with hq | hq
    exacts [⟨by rintro rfl; exact hA hq, by rintro rfl; exact hfA hq⟩,
      ⟨by rintro rfl; exact hB hq, by rintro rfl; exact hfB hq⟩]
  rw [node_leafHalves hC.leaf_lt.ne, if_neg this.1, if_neg this.2]

theorem Chained.leafHalves {lvl : Nat → Nat} {pend : List Nat} (hS : t.ShapeOn lvl pend)
    (hC : Chained t (A ++ leaf :: B)) : Chained (t.leafHalves leaf) (A ++ leaf :: t.fresh :: B) := by
  have hmem : leaf ∈ A ++ leaf :: B := List.mem_append_right _ (List.mem_cons_self _ _)
  have hlt : leaf < t.fresh := ((hC.mem_iff leaf).mp hmem).1
  have hl : (t.node leaf).isLeaf = true := ((hC.mem_iff leaf).mp hmem).2
  have hf : leaf ≠ t.fresh := hlt.ne
  have hother : ∀ q, q ≠ leaf → q ≠ t.fresh → (t.leafHalves leaf).node q = t.node q :=
    fun q h₁ h₂ => by rw [node_leafHalves hf, if_neg h₁, if_neg h₂]
  have hfar := hC.node_leafHalves_of_mem
  have hperm : List.Perm (A ++ leaf :: t.fresh :: B) (t.fresh :: (A ++ leaf :: B)) := by
    simpa using (List.perm_middle : List.Perm (A ++ [leaf] ++ t.fresh :: B) _)
  have hmem' : ∀ q, q ∈ A ++ leaf :: t.fresh :: B ↔ q = t.fresh ∨ q ∈ A ++ leaf :: B := fun q =>
    hperm.mem_iff.trans List.mem_cons
  have hok := hC.leaf_ok leaf hmem
  refine ⟨Linked.splice (by simp [node_leafHalves hf]) (by simp [node_leafHalves hf, hf.symm])
      (fun q hq => by rw [hfar q (List.mem_append_right _ hq)])
      hC.linked (fun q hq => by rw [hfar q (List.mem_append_left _ hq)]), ?_, fun q => ?_,
    fun q hq => ?_, fun q hq hqi => ?_, ?_⟩
  · exact hperm.nodup_iff.mpr
      (List.nodup_cons.mpr ⟨fun h => Nat.lt_irrefl _ ((hC.mem_iff _).mp h).1, hC.nodup⟩)
  · rw [hmem', hC.mem_iff, leafHalves_fresh]
    by_cases hq : q = t.fresh
    · simp [hq, node_leafHalves hf, hf.symm]
    · by_cases hql : q = leaf
      · subst hql; simp [node_leafHalves hf, hl, hlt]; omega
      · rw [hother q hql hq]
        simp only [hq, false_or]
        exact and_congr_left fun _ => by omega
  · rcases (hmem' q).mp hq with rfl | hq
    · exact hok.drop ((t.node leaf).keys.length / 2) (by simp [node_leafHalves hf, hf.symm])
        (by simp [node_leafHalves hf, hf.symm])
    · by_cases hql : q = leaf
      · subst hql
        exact hok.take ((t.node q).keys.length / 2) (by simp [node_leafHalves hf])
          (by simp [node_leafHalves hf])
      · rw [hother q hql ((hC.mem_iff q).mp hq).1.ne]; exact hC.leaf_ok q hq
  · have hql : q ≠ leaf := by rintro rfl; simp [node_leafHalves hf, hl] at hqi
    have hqf : q ≠ t.fresh := by rintro rfl; simp [node_leafHalves hf, hf.symm] at hqi
    rw [hother q hql hqf] at hqi ⊢
    exact hC.sep q (by simp at hq; omega) hqi
  · refine ReachesFirst.congr (P := (· < t.fresh)) hS.head_lt (fun q hq => ?_) (fun q hq => ?_)
      hC.first hS.root_lt
    · by_cases hql : q = leaf
      · subst hql; simp [node_leafHalves hf]
      · rw [hother q hql hq.ne]
    · by_cases hql : q = leaf
      · subst hql; simp [node_leafHalves hf]
      · rw [hother q hql hq.ne]

/-- The split moves entries from one leaf to the next without changing their sequence. -/
theorem entriesOf_leafHalves (hC : Chained t (A ++ leaf :: B)) :
    entriesOf (t.leafHalves leaf) (A ++ leaf :: t.fresh :: B) = entriesOf t (A ++ leaf :: B) := by
  have hf := hC.leaf_lt.ne
  have hfar := hC.node_leafHalves_of_mem
  have hv := (hC.leaf_ok leaf (List.mem_append_right _ (List.mem_cons_self _ _))).values_length
  have hA : entriesOf (t.leafHalves leaf) A = entriesOf t A :=
    entriesOf_congr fun q hq => by rw [leafEntries, hfar q (List.mem_append_left _ hq)]; rfl
  have hB : entriesOf (t.leafHalves leaf) B = entriesOf t B :=
    entriesOf_congr fun q hq => by rw [leafEntries, hfar q (List.mem_append_right _ hq)]; rfl
  rw [entriesOf_append, entriesOf_append, entriesOf_cons, entriesOf_cons, entriesOf_cons, hA, hB,
    ← List.append_assoc (leafEntries _ leaf)]
  simp only [leafEntries, node_leafHalves hf, if_pos, if_neg hf.symm]
  rw [zip_take_drop _ _ _ hv.symm]

end LeafHalves

/-! ### `Insert` and `Delete` -/

/-- The entries around one leaf of the chain, after a write to that leaf alone. -/
theorem entriesOf_update {t t' : BTree} {A B : List Nat} {p : Nat} (hC : Chained t (A ++ p :: B))
    (h : ∀ q, q ≠ p → t'.node q = t.node q) :
    entriesOf t' (A ++ p :: B) = entriesOf t A ++ leafEntries t' p ++ entriesOf t B := by
  obtain ⟨hA, hB, -⟩ := hC.not_mem
  have hA' : entriesOf t' A = entriesOf t A :=
    entriesOf_congr fun q hq => by rw [leafEntries, h q (by rintro rfl; exact hA hq)]; rfl
  have hB' : entriesOf t' B = entriesOf t B :=
    entriesOf_congr fun q hq => by rw [leafEntries, h q (by rintro rfl; exact hB hq)]; rfl
  rw [entriesOf_append, entriesOf_cons, hA', hB', List.append_assoc]

theorem Chained.insertIntoLeaf {t : BTree} {L : List Nat} (hC : Chained t L) {leaf : Nat}
    (hp : leaf ∈ L) {key : Bytes} (hk : key ≠ []) (value : Bytes) :
    Chained (t.insertIntoLeaf leaf key value) L := by
  have h := hC.leaf_ok leaf hp
  have hl := ((hC.mem_iff leaf).mp hp).2
  unfold BTree.insertIntoLeaf
  dsimp only
  split_ifs with hi
  · exact hC.modifyLeaf hp hl rfl rfl ⟨h.sorted, by simp [h.values_length], h.keys_ne⟩
  · exact hC.modifyLeaf hp hl rfl rfl
      (h.insertAt hk (fun hm => hi (insertPos_of_mem h.sorted hm).1) value rfl rfl)

/-- **`Insert` on the chain.**  The entry of `key` that `Get` finds, if any, gives way to
`(key, value)`; the other entries stay, in their order. -/
theorem insert_chained {t : BTree} (hS : t.Shape) {L : List Nat} (hC : Chained t L) {key : Bytes}
    (hk : key ≠ []) (value : Bytes) :
    ∃ r t', t.get key = some r ∧ t.insert key value = some (.ok t') ∧ t'.Shape ∧
      ∃ L', Chained t' L' ∧ ∃ P S, entriesOf t L = P ++ r.toList.map (key, ·) ++ S ∧
        entriesOf t' L' = P ++ [(key, value)] ++ S := by
  obtain ⟨leaf, t', hins, post⟩ := insert_spec hS hk value
  have hmem : leaf ∈ L := (hC.mem_iff leaf).mpr ⟨post.leaf_lt, post.isLeaf⟩
  obtain ⟨A, B, rfl⟩ := List.append_of_mem hmem
  obtain ⟨P, S, hold, hnew⟩ := leafEntries_insertIntoLeaf (hC.leaf_ok leaf hmem) key value
  have hC₁ := hC.insertIntoLeaf hmem hk value
  have hE : entriesOf t (A ++ leaf :: B) = entriesOf t A ++ leafEntries t leaf ++ entriesOf t B :=
    entriesOf_update hC fun _ _ => rfl
  have hE₁ : entriesOf (t.insertIntoLeaf leaf key value) (A ++ leaf :: B) = entriesOf t A ++
      leafEntries (t.insertIntoLeaf leaf key value) leaf ++ entriesOf t B :=
    entriesOf_update hC fun q hq => node_insertIntoLeaf_of_ne _ _ _ _ hq
  refine ⟨(indexOfKey key (t.node leaf).keys).map fun i => (t.node leaf).values.getD i [], t',
    by simp only [BTree.get, hk, if_false, post.findLeaf_eq, Option.map_some'], hins, post.shape, ?_⟩
  suffices ∃ L', Chained t' L' ∧
      entriesOf t' L' = entriesOf (t.insertIntoLeaf leaf key value) (A ++ leaf :: B) by
    obtain ⟨L', hC', hE'⟩ := this
    refine ⟨L', hC', entriesOf t A ++ P, S ++ entriesOf t B, ?_, ?_⟩
    · rw [hE, hold]; simp
    · rw [hE', hE₁, hnew]; simp
  rcases post.cases with rfl | ⟨hfull, hF, hR, hQ⟩
  · exact ⟨_, hC₁, rfl⟩
  · obtain ⟨lvl, h, -⟩ := hS
    have h₁ := h.insertIntoLeaf post.isLeaf key value
    have h₂ := h₁.leafHalves (by simpa using post.leaf_lt) (by simpa using post.isLeaf)
    have hC₂ := hC₁.leafHalves h₁
    have hmid : 0 < ((t.insertIntoLeaf leaf key value).node leaf).keys.length / 2 := by
      have := h.order_ge; omega
    obtain ⟨lvl', hS', -⟩ := post.shape
    refine ⟨_, hC₂.frame h₂ hF hR hS'.root_lt
      (hQ _ hC.sep ((hC₁.leaf_ok leaf hmem).zero_before hmid)), ?_⟩
    rw [entriesOf_frame hC₂ hF, entriesOf_leafHalves hC₁]

/-- **`Delete` on the chain.**  The entry of `key` that `Get` finds goes; the other entries
stay, in their order. -/
theorem delete_chained {t : BTree} (hS : t.Shape) {L : List Nat} (hC : Chained t L) {key old : Bytes}
    (hget : t.get key = some (some old)) :
    ∃ t', t.delete key = some (.ok t') ∧ t'.Shape ∧ Chained t' L ∧
      ∃ P S, entriesOf t L = P ++ [(key, old)] ++ S ∧ entriesOf t' L = P ++ S := by
  have hk : key ≠ [] := by rintro rfl; simp [BTree.get] at hget
  obtain ⟨lvl, h, -⟩ := id hS
  obtain ⟨leaf, hfind, hlt, hl⟩ := findLeaf_spec h key
  have hmem : leaf ∈ L := (hC.mem_iff leaf).mpr ⟨hlt, hl⟩
  obtain ⟨A, B, rfl⟩ := List.append_of_mem hmem
  obtain ⟨i, hi, rfl⟩ : ∃ i, indexOfKey key (t.node leaf).keys = some i ∧
      (t.node leaf).values.getD i [] = old := by
    simpa [BTree.get, hk, hfind] using hget
  obtain ⟨hok, P, S, hold, hnew⟩ := (hC.leaf_ok leaf hmem).eraseIdx hi
  have hdel : t.delete key = some (.ok (t.modify leaf fun m =>
      { m with keys := m.keys.eraseIdx i, values := m.values.eraseIdx i })) := by
    simp [BTree.delete, hk, hfind, hi]
  obtain ⟨r, hdel', hr⟩ := delete_spec hS key
  refine ⟨_, hdel, hr _ (Option.some.inj (hdel'.symm.trans hdel)), hC.modifyLeaf hmem hl rfl rfl hok,
    entriesOf t A ++ P, S ++ entriesOf t B, ?_, ?_⟩
  · rw [entriesOf_update hC fun _ _ => rfl, leafEntries, hold]; simp
  · rw [entriesOf_update hC fun q hq => by simp [hq], leafEntries]
    simp [hnew]

/-- A new tree is one empty leaf, node 0. -/
theorem newBTree_chained (order : Int) : Chained (newBTree order) [0] where
  linked := .cons .nil
  nodup := List.nodup_singleton 0
  mem_iff p := by simp [newBTree, BTree.node]
  leaf_ok p _ := ⟨by simp [newBTree, BTree.node], rfl, by simp [newBTree, BTree.node]⟩
  sep p _ hl := by simp [newBTree, BTree.node] at hl
  first := .zero

theorem entriesOf_newBTree (order : Int) : entriesOf (newBTree order) [0] = [] := rfl

/-! ### Valid trees -/

/-- The shape and a leaf chain: what every call keeps. -/
def Valid (t : BTree) : Prop := t.Shape ∧ ∃ L, t.Chained L

theorem newBTree_valid (order : Int) : (newBTree order).Valid :=
  ⟨newBTree_shape order, _, newBTree_chained order⟩

/-- `Insert` returns on a valid tree, and keeps it valid. -/
theorem insert_valid {t : BTree} (hV : t.Valid) (key value : Bytes) :
    ∃ r, t.insert key value = some r ∧ ∀ t', r = .ok t' → t'.Valid := by
  obtain ⟨hS, L, hC⟩ := hV
  by_cases hk : key = []
  · exact ⟨.error "键不能为空", by simp [BTree.insert, hk], by simp⟩
  obtain ⟨-, t', -, hins, hS', L', hC', -⟩ := insert_chained hS hC hk value
  exact ⟨.ok t', hins, fun _ h => by cases h; exact ⟨hS', L', hC'⟩⟩

/-- `Delete` returns on a valid tree, and keeps it valid. -/
theorem delete_valid {t : BTree} (hV : t.Valid) (key : Bytes) :
    ∃ r, t.delete key = some r ∧ ∀ t', r = .ok t' → t'.Valid := by
  obtain ⟨hS, L, hC⟩ := hV
  obtain ⟨r, hget⟩ := get_spec hS key
  cases r with
  | some old =>
    obtain ⟨t', hdel, hS', hC', -⟩ := delete_chained hS hC hget
    exact ⟨.ok t', hdel, fun _ h => by cases h; exact ⟨hS', L, hC'⟩⟩
  | none =>
    refine ⟨.error (if key = [] then "键不能为空" else "键不存在"), ?_, by simp⟩
    by_cases hk : key = []
    · simp [BTree.delete, hk]
    · obtain ⟨leaf, hfind, hidx⟩ : ∃ leaf, t.findLeaf key = some leaf ∧
          indexOfKey key (t.node leaf).keys = none := by
        simpa [BTree.get, hk] using hget
      simp [BTree.delete, hk, hfind, hidx]

end BTree

end XMongoStorage
