/-
# Merkle trees with partial knowledge

A binary tree with data at its leaves and, for each inner node, the pair of the hashes of its
children.  `Proves` says that the known pairs lead from a root hash down to some data at a
leaf.  With injective hashes such data is the data the root was computed from, whatever the
shapes of the two trees, and what is known about one leaf agrees with what is known about
another.
-/
import Mathlib.Tactic

namespace Chorrent.Lib.Merkle

/-- The hashes of a tree: leaves are hashed with their number, both kinds of nodes with a flag
that marks the root. -/
structure Hasher (Data Hash : Type) where
  leaf : ℕ → Bool → Data → Hash
  parent : Bool → Hash → Hash → Hash
  leaf_injective : ∀ {i j : ℕ} {r q : Bool} {d e : Data}, leaf i r d = leaf j q e → i = j ∧ d = e
  parent_injective : ∀ {r q : Bool} {x y x' y' : Hash}, parent r x y = parent q x' y' →
    x = x' ∧ y = y'
  leaf_ne_parent : ∀ (i : ℕ) (r q : Bool) (d : Data) (x y : Hash), leaf i r d ≠ parent q x y

/-- The shape of a tree: its leaves are numbered, and so are its inner nodes. -/
inductive Tree where
  | leaf (i : ℕ)
  | node (id : ℕ) (left right : Tree)
deriving DecidableEq

namespace Tree

def leaves : Tree → List ℕ
  | leaf i => [i]
  | node _ l r => l.leaves ++ r.leaves

/-- The inner nodes in pre-order. -/
def ids : Tree → List ℕ
  | leaf _ => []
  | node id l r => id :: (l.ids ++ r.ids)

/-- The inner nodes above leaf `i`, from the root down. -/
def path : Tree → ℕ → List ℕ
  | leaf _, _ => []
  | node id l r, i => id :: if i ∈ l.leaves then l.path i else r.path i

lemma leaves_ne_nil (t : Tree) : t.leaves ≠ [] := by
  induction t with
  | leaf i => exact List.cons_ne_nil _ _
  | node id l r ihl ihr => exact List.append_ne_nil_of_left_ne_nil ihl _

lemma path_subset (t : Tree) (i : ℕ) : ∀ id ∈ t.path i, id ∈ t.ids := by
  induction t with
  | leaf j => simp [path]
  | node id l r ihl ihr =>
    intro id' hid'
    rw [path, List.mem_cons] at hid'
    rw [ids, List.mem_cons, List.mem_append]
    rcases hid' with rfl | hid'
    · exact Or.inl rfl
    · split_ifs at hid'
      · exact Or.inr (Or.inl (ihl id' hid'))
      · exact Or.inr (Or.inr (ihr id' hid'))

/-! ### The left-balanced shape -/

/-- The size of the left subtree of `n` leaves: the largest power of two below `n`. -/
def leftCount (n : ℕ) : ℕ := 2 ^ Nat.log2 (n - 1)

/-- The tree of the `count` leaves from `start` on, its inner nodes numbered in pre-order from
`id` on. -/
def build : ℕ → ℕ → ℕ → ℕ → Tree
  | 0, start, _, _ => leaf start
  | fuel + 1, start, count, id =>
      if count ≤ 1 then leaf start
      else
        node id (build fuel start (leftCount count) (id + 1))
          (build fuel (start + leftCount count) (count - leftCount count) (id + leftCount count))

/-- The left-balanced tree with `n` leaves; at least one. -/
def balanced (n : ℕ) : Tree := build n 0 n 0

lemma leftCount_pos (n : ℕ) : 0 < leftCount n := Nat.two_pow_pos _

lemma leftCount_lt {n : ℕ} (hn : 1 < n) : leftCount n < n := by
  have := Nat.log2_self_le (show n - 1 ≠ 0 by omega)
  rw [leftCount]
  omega

lemma leaves_build : ∀ fuel start count id, 0 < count → count ≤ fuel + 1 →
    (build fuel start count id).leaves = List.range' start count := by
  intro fuel
  induction fuel with
  | zero =>
    intro start count id hpos hle
    obtain rfl : count = 1 := by omega
    rfl
  | succ fuel ih =>
    intro start count id hpos hle
    rw [build]
    split_ifs with hone
    · obtain rfl : count = 1 := by omega
      rfl
    · have hk := leftCount_pos count
      have hlt := leftCount_lt (show 1 < count by omega)
      rw [leaves, ih _ _ _ hk (by omega), ih _ _ _ (by omega) (by omega), List.range'_append_1,
        Nat.add_sub_cancel' hlt.le]

lemma ids_build : ∀ fuel start count id, 0 < count → count ≤ fuel + 1 →
    (build fuel start count id).ids = List.range' id (count - 1) := by
  intro fuel
  induction fuel with
  | zero =>
    intro start count id hpos hle
    obtain rfl : count = 1 := by omega
    rfl
  | succ fuel ih =>
    intro start count id hpos hle
    rw [build]
    split_ifs with hone
    · obtain rfl : count = 1 := by omega
      rfl
    · have hk := leftCount_pos count
      have hlt := leftCount_lt (show 1 < count by omega)
      have hsecond : id + leftCount count = id + 1 + (leftCount count - 1) := by omega
      have hall : count - 1 = (leftCount count - 1) + (count - leftCount count - 1) + 1 := by omega
      rw [ids, ih _ _ _ hk (by omega), ih _ _ _ (by omega) (by omega), hsecond,
        List.range'_append_1, hall, List.range'_succ]

lemma mem_leaves_balanced {n i : ℕ} : i ∈ (balanced n).leaves ↔ i < n ∨ i = 0 := by
  rcases Nat.eq_zero_or_pos n with rfl | hn
  · simp [balanced, build, leaves]
  · rw [balanced, leaves_build n 0 n 0 hn (by omega), List.mem_range'_1]
    omega

lemma nodup_leaves_balanced (n : ℕ) : (balanced n).leaves.Nodup := by
  rcases Nat.eq_zero_or_pos n with rfl | hn
  · exact List.nodup_singleton 0
  · rw [balanced, leaves_build n 0 n 0 hn (by omega)]
    exact List.nodup_range'

lemma ids_balanced (n : ℕ) : (balanced n).ids = List.range (n - 1) := by
  rcases Nat.eq_zero_or_pos n with rfl | hn
  · rfl
  · rw [balanced, ids_build n 0 n 0 hn (by omega), List.range_eq_range']

end Tree

variable {Data Hash : Type} (H : Hasher Data Hash)

/-- The hash of a tree with the given data. -/
def hash (content : ℕ → Data) : Tree → Bool → Hash
  | .leaf i, isRoot => H.leaf i isRoot (content i)
  | .node _ l r, isRoot => H.parent isRoot (hash content l false) (hash content r false)

/-- The known pairs lead from the hash of the tree to the data `d` at leaf `i`. -/
def Proves (load : ℕ → Option (Hash × Hash)) : Tree → Bool → Hash → ℕ → Data → Prop
  | .leaf j, isRoot, h, i, d => j = i ∧ h = H.leaf i isRoot d
  | .node id l r, isRoot, h, i, d => ∃ x y, load id = some (x, y) ∧ h = H.parent isRoot x y ∧
      if i ∈ l.leaves then Proves load l false x i d else Proves load r false y i d

variable {H} {load load' known : ℕ → Option (Hash × Hash)} {t : Tree} {isRoot : Bool} {h : Hash}
  {i j : ℕ} {d e : Data}

namespace Proves

/-- All the pairs above the leaf are known. -/
lemma isSome (hp : Proves H load t isRoot h i d) : ∀ id ∈ t.path i, (load id).isSome := by
  induction t generalizing isRoot h with
  | leaf j => simp [Tree.path]
  | node id l r ihl ihr =>
    obtain ⟨x, y, hload, -, hbranch⟩ := hp
    intro id' hid'
    rw [Tree.path, List.mem_cons] at hid'
    rcases hid' with rfl | hid'
    · rw [hload]
      rfl
    · split_ifs at hbranch hid'
      · exact ihl hbranch id' hid'
      · exact ihr hbranch id' hid'

/-- What is proved from the hash of some content is that content. -/
lemma eq_content {content : ℕ → Data} {t' : Tree} {isRoot' : Bool}
    (hp : Proves H load t isRoot (hash H content t' isRoot') i d) : d = content i := by
  induction t generalizing isRoot t' isRoot' with
  | leaf j =>
    obtain ⟨-, heq⟩ := hp
    cases t' with
    | leaf j' =>
      obtain ⟨rfl, rfl⟩ := H.leaf_injective heq
      rfl
    | node id' l' r' => exact absurd heq.symm (H.leaf_ne_parent _ _ _ _ _ _)
  | node id l r ihl ihr =>
    obtain ⟨x, y, -, heq, hbranch⟩ := hp
    cases t' with
    | leaf j' => exact absurd heq (H.leaf_ne_parent _ _ _ _ _ _)
    | node id' l' r' =>
      obtain ⟨rfl, rfl⟩ := H.parent_injective heq
      split_ifs at hbranch
      · exact ihl hbranch
      · exact ihr hbranch

/-- Only the pairs above the leaf matter. -/
lemma congr (hp : Proves H load t isRoot h i d) (heq : ∀ id ∈ t.path i, known id = load id) :
    Proves H known t isRoot h i d := by
  induction t generalizing isRoot h with
  | leaf j => exact hp
  | node id l r ihl ihr =>
    obtain ⟨x, y, hload, hparent, hbranch⟩ := hp
    rw [Tree.path] at heq
    refine ⟨x, y, (heq id List.mem_cons_self).trans hload, hparent, ?_⟩
    split_ifs at hbranch heq ⊢
    · exact ihl hbranch fun id' hid' => heq id' (List.mem_cons_of_mem _ hid')
    · exact ihr hbranch fun id' hid' => heq id' (List.mem_cons_of_mem _ hid')

/-- Two proofs agree above both of their leaves. -/
lemma agree (hids : t.ids.Nodup) (hi : Proves H load t isRoot h i d)
    (hj : Proves H load' t isRoot h j e) :
    ∀ id ∈ t.path i, id ∈ t.path j → load id = load' id := by
  induction t generalizing isRoot h with
  | leaf k => simp [Tree.path]
  | node id l r ihl ihr =>
    obtain ⟨x, y, hload, hparent, hbranch⟩ := hi
    obtain ⟨x', y', hload', hparent', hbranch'⟩ := hj
    obtain ⟨rfl, rfl⟩ := H.parent_injective (hparent.symm.trans hparent')
    rw [Tree.ids, List.nodup_cons, List.nodup_append] at hids
    obtain ⟨hnot, hl, hr, hdisjoint⟩ := hids
    intro id' hi' hj'
    rw [Tree.path, List.mem_cons] at hi' hj'
    by_cases hid : id' = id
    · rw [hid, hload, hload']
    replace hi' := hi'.resolve_left hid
    replace hj' := hj'.resolve_left hid
    split_ifs at hbranch hbranch' hi' hj'
    · exact ihl hl hbranch hbranch' id' hi' hj'
    · exact absurd rfl (hdisjoint id' (l.path_subset i id' hi') id' (r.path_subset j id' hj'))
    · exact absurd rfl (hdisjoint id' (l.path_subset j id' hj') id' (r.path_subset i id' hi'))
    · exact ihr hr hbranch hbranch' id' hi' hj'

/-- The data proved at a leaf is unique. -/
lemma unique (hp : Proves H load t isRoot h i d) (hp' : Proves H load' t isRoot h i e) :
    d = e := by
  induction t generalizing isRoot h with
  | leaf k => exact (H.leaf_injective (hp.2.symm.trans hp'.2)).2
  | node id l r ihl ihr =>
    obtain ⟨x, y, -, hparent, hbranch⟩ := hp
    obtain ⟨x', y', -, hparent', hbranch'⟩ := hp'
    obtain ⟨rfl, rfl⟩ := H.parent_injective (hparent.symm.trans hparent')
    split_ifs at hbranch hbranch'
    · exact ihl hbranch hbranch'
    · exact ihr hbranch hbranch'

/-- Learning the pairs above one leaf from a proof keeps what is proved at another. -/
lemma learn (hids : t.ids.Nodup) (hi : Proves H load t isRoot h i d)
    (hj : Proves H load' t isRoot h j e) (hnew : ∀ id ∈ t.path j, known id = load' id)
    (hold : ∀ id ∈ t.ids, id ∉ t.path j → known id = load id) :
    Proves H known t isRoot h i d := by
  refine hi.congr fun id hid => ?_
  by_cases hmem : id ∈ t.path j
  · rw [hnew id hmem, agree hids hi hj id hid hmem]
  · exact hold id (t.path_subset i id hid) hmem

end Proves

/-- Where the data at every leaf is proved, the hash is that of all the data. -/
lemma hash_eq_of_proves {content : ℕ → Data} (hnodup : t.leaves.Nodup)
    (hall : ∀ i ∈ t.leaves, ∃ load, Proves H load t isRoot h i (content i)) :
    h = hash H content t isRoot := by
  induction t generalizing isRoot h with
  | leaf j =>
    obtain ⟨load, -, heq⟩ := hall j List.mem_cons_self
    exact heq
  | node id l r ihl ihr =>
    rw [Tree.leaves, List.nodup_append] at hnodup
    obtain ⟨hl, hr, hdisjoint⟩ := hnodup
    rw [Tree.leaves] at hall
    obtain ⟨k, hk⟩ := List.exists_mem_of_ne_nil _ l.leaves_ne_nil
    obtain ⟨-, x, y, -, hparent, -⟩ := hall k (List.mem_append_left _ hk)
    -- every proof goes through the same pair
    have hleft : x = hash H content l false := ihl hl fun i hi => by
      obtain ⟨load, x', y', -, hparent', hbranch⟩ := hall i (List.mem_append_left _ hi)
      obtain ⟨rfl, rfl⟩ := H.parent_injective (hparent.symm.trans hparent')
      rw [if_pos hi] at hbranch
      exact ⟨load, hbranch⟩
    have hright : y = hash H content r false := ihr hr fun i hi => by
      obtain ⟨load, x', y', -, hparent', hbranch⟩ := hall i (List.mem_append_right _ hi)
      obtain ⟨rfl, rfl⟩ := H.parent_injective (hparent.symm.trans hparent')
      rw [if_neg fun hmem => hdisjoint i hmem i hi rfl] at hbranch
      exact ⟨load, hbranch⟩
    rw [hparent, hleft, hright, hash]

/-! ### Checking and making proofs -/

/-- A checker for proofs. -/
def check [DecidableEq Hash] (H : Hasher Data Hash) (load : ℕ → Option (Hash × Hash)) :
    Tree → Bool → Hash → ℕ → Data → Bool
  | .leaf j, isRoot, h, i, d => j = i && h = H.leaf i isRoot d
  | .node id l r, isRoot, h, i, d =>
      match load id with
      | none => false
      | some (x, y) =>
          (h = H.parent isRoot x y : Bool) &&
            if i ∈ l.leaves then check H load l false x i d else check H load r false y i d

lemma check_iff [DecidableEq Hash] :
    check H load t isRoot h i d = true ↔ Proves H load t isRoot h i d := by
  induction t generalizing isRoot h with
  | leaf j => simp [check, Proves]
  | node id l r ihl ihr =>
    rw [check, Proves]
    cases hload : load id with
    | none => simp
    | some pair =>
      obtain ⟨x, y⟩ := pair
      simp only [Bool.and_eq_true, decide_eq_true_eq, Option.some.injEq, Prod.mk.injEq]
      constructor
      · rintro ⟨hparent, hbranch⟩
        refine ⟨x, y, ⟨rfl, rfl⟩, hparent, ?_⟩
        split_ifs at hbranch ⊢
        · exact ihl.1 hbranch
        · exact ihr.1 hbranch
      · rintro ⟨x', y', ⟨rfl, rfl⟩, hparent, hbranch⟩
        refine ⟨hparent, ?_⟩
        split_ifs at hbranch ⊢
        · exact ihl.2 hbranch
        · exact ihr.2 hbranch

/-- The pairs of a tree with the given data. -/
def pairs (H : Hasher Data Hash) (content : ℕ → Data) : Tree → ℕ → Option (Hash × Hash)
  | .leaf _, _ => none
  | .node id l r, k =>
      if k = id then some (hash H content l false, hash H content r false)
      else (pairs H content l k).or (pairs H content r k)

lemma isSome_pairs (content : ℕ → Data) {k : ℕ} :
    (pairs H content t k).isSome = true ↔ k ∈ t.ids := by
  induction t with
  | leaf j => simp [pairs, Tree.ids]
  | node id l r ihl ihr =>
    rw [pairs, Tree.ids, List.mem_cons, List.mem_append, ← ihl, ← ihr]
    by_cases hk : k = id
    · simp [hk]
    · simp [hk]

/-- The pairs of a tree prove its data. -/
lemma proves_pairs (hids : t.ids.Nodup) (hi : i ∈ t.leaves) (content : ℕ → Data) :
    Proves H (pairs H content t) t isRoot (hash H content t isRoot) i (content i) := by
  induction t generalizing isRoot with
  | leaf j =>
    obtain rfl : i = j := by simpa [Tree.leaves] using hi
    exact ⟨rfl, rfl⟩
  | node id l r ihl ihr =>
    rw [Tree.ids, List.nodup_cons, List.nodup_append] at hids
    obtain ⟨hnot, hl, hr, hdisjoint⟩ := hids
    rw [List.mem_append] at hnot
    refine ⟨_, _, by rw [pairs, if_pos rfl], rfl, ?_⟩
    split_ifs with hmem
    · refine (ihl hl hmem).congr fun k hk => ?_
      have hkl := l.path_subset i k hk
      have hne : k ≠ id := fun heq => hnot (Or.inl (heq ▸ hkl))
      rw [pairs, if_neg hne, Option.or_of_isSome ((isSome_pairs content).2 hkl)]
    · rw [Tree.leaves, List.mem_append] at hi
      refine (ihr hr (hi.resolve_left hmem)).congr fun k hk => ?_
      have hkr := r.path_subset i k hk
      have hnone : pairs H content l k = none := by
        rw [← Option.not_isSome_iff_eq_none, isSome_pairs]
        exact fun hkl => hdisjoint k hkl k hkr rfl
      have hne : k ≠ id := fun heq => hnot (Or.inr (heq ▸ hkr))
      rw [pairs, if_neg hne, hnone, Option.none_or]

end Chorrent.Lib.Merkle
