import XLayerErigon.Smt.Node

/-
  The canonical tree of a key/value map.

  The canonical tree is the compressed trie of the map over the 256 path bits of the keys.  `Walk`
  collects what holds at the end of the walk along one key: where an insertion or a deletion has
  to act, and what tree it has to leave.

  Main results:
    * `mem_canonical_iff`
    * `walk_canonical`
-/

namespace XLayerErigon.Smt

-- Canonical Trees

abbrev Entries := NodeKey → Option Value

/- The compressed binary tree of a key/value map, which the map alone determines. -/
noncomputable def canonical (m : Entries) : Tree := Trie.compressed NodeKey.pathBit 256 0 m

/- The root that a key/value map should have. -/
noncomputable def canonicalRoot (hash : NodeValue12 → NodeKey) (m : Entries) : NodeKey :=
  (scheme hash).root 0 (canonical m)

/- The nodes that the tree of a key/value map consists of. -/
def canonicalNodes (hash : NodeValue12 → NodeKey) (m : Entries) : Set NodeValue12 :=
  (scheme hash).nodes 0 (canonical m)

variable (m : Entries)

theorem agreeBelow_zero : Trie.AgreeBelow NodeKey.pathBit 0 m := by
  intro key key' hKey hKey' i hi
  contradiction

theorem agreeWith_zero (k : NodeKey) (m : Entries) : Trie.AgreeWith NodeKey.pathBit 0 k m := by
  intro key' hKey' i hi
  contradiction

theorem mem_canonical_iff {m : Entries} {key : NodeKey} {value : Value} :
    Trie.Tree.Mem key value (canonical m) ↔ m key = some value :=
  Trie.mem_compressed_iff NodeKey.separates_pathBit rfl (agreeBelow_zero m)

theorem canonical_proper : Trie.Tree.Proper NodeKey.pathBit 0 (canonical m) :=
  Trie.compressed_proper NodeKey.separates_pathBit rfl (agreeBelow_zero m)

theorem height_canonical_le : (canonical m).height ≤ 256 := Trie.height_compressed_le 256 0 m

theorem canonical_eq_empty_iff {m : Entries} : canonical m = .empty ↔ ∀ key, m key = none :=
  Trie.compressed_eq_empty_iff NodeKey.separates_pathBit rfl (agreeBelow_zero m)

theorem canonical_of_single {m : Entries} {key : NodeKey} {value : Value}
    (hSingle : Trie.Single m key value) : canonical m = .leaf key value :=
  Trie.compressed_of_single hSingle

theorem canonical_of_pair {m : Entries} {key key' : NodeKey} {value value' : Value}
    (hKey : m key = some value) (hKey' : m key' = some value') (hNe : key ≠ key')
    (hOnly : ∀ key₀, key₀ ≠ key → key₀ ≠ key' → m key₀ = none) :
    canonical m = Trie.fork NodeKey.pathBit key value key' value' 256 0 :=
  Trie.compressed_of_pair NodeKey.separates_pathBit rfl (agreeBelow_zero m) hKey hKey' hNe hOnly

-- Walks

/- The end of the walk along `k` in the tree of `m`. -/
structure Walk (m : Entries) (k : NodeKey) (up : List Frame) (tip : Tree) : Prop where
  plug : Trie.plug up tip = canonical m
  follows : Trie.Follows NodeKey.pathBit k up
  depth : up.length ≤ 256
  agree : ∀ key value, Trie.Tree.Mem key value tip → ∀ i < up.length, key.pathBit i = k.pathBit i
  tight : Trie.Tight tip up
  tip_ne_branch : ∀ left right, tip ≠ .branch left right
  insert : ∀ value, Trie.plug up (Trie.insertTip NodeKey.pathBit 256 k value up.length tip) =
      canonical (Function.update m k (some value))
  found : ∀ value, m k = some value → tip = .leaf k value
  delete :
    ∀ value, m k = some value → Trie.collapse up .empty = canonical (Function.update m k none)

theorem walk_canonical (k : NodeKey) :
    Walk m k (Trie.focus NodeKey.pathBit k [] (canonical m)).1
      (Trie.focus NodeKey.pathBit k [] (canonical m)).2 where
  plug := Trie.plug_focus [] (canonical m)
  follows := by
    have hTop : Trie.Follows NodeKey.pathBit k ([] : List Frame) := trivial
    exact hTop.focus (canonical m)
  depth := by
    have hLength :
        (Trie.focus NodeKey.pathBit k [] (canonical m)).1.length ≤ 0 + (canonical m).height :=
      Trie.length_focus_le [] (canonical m)
    have hHeight := height_canonical_le m
    omega
  agree := (@Trie.OnPath.focus _ _ _ k [] _ (canonical_proper m).onPath).agree
  tight := by
    have hTop : Trie.Tight (canonical m) [] := trivial
    exact hTop.focus (canonical_proper m)
  tip_ne_branch := Trie.focus_ne_branch [] (canonical m)
  insert := fun value =>
    @Trie.plug_insertTip_focus _ _ _ 256 256 m k value [] _
      NodeKey.separates_pathBit rfl (agreeWith_zero k m)
  found := fun value hKey =>
    (@Trie.focus_of_mem _ _ _ 256 256 m k value [] _
      NodeKey.separates_pathBit rfl (agreeWith_zero k m) hKey).1
  delete := fun value hKey =>
    (@Trie.focus_of_mem _ _ _ 256 256 m k value [] _
      NodeKey.separates_pathBit rfl (agreeWith_zero k m) hKey).2

namespace Walk

variable {m : Entries} {k : NodeKey} {up : List Frame} {tip : Tree}

/- A leaf at the end of the walk is an entry of the map. -/
theorem entry {key : NodeKey} {value : Value} (hWalk : Walk m k up (.leaf key value)) :
    m key = some value := by
  rw [← mem_canonical_iff, ← hWalk.plug]
  have hMem : ∀ (up : List Frame) (t : Tree),
        Trie.Tree.Mem key value t → Trie.Tree.Mem key value (Trie.plug up t) := by
    intro up
    induction up with
    | nil => exact fun t hMem => hMem
    | cons f up ih =>
      intro t hMem
      apply ih
      rw [Trie.Frame.mem_plug_iff]
      exact Or.inr hMem
  exact hMem up _ ⟨rfl, rfl⟩

/- A key that is not at the end of its walk is absent. -/
theorem absent (hWalk : Walk m k up tip) (hTip : ∀ value, tip ≠ .leaf k value) : m k = none := by
  cases hKey : m k with
  | none => rfl
  | some value => exact absurd (hWalk.found value hKey) (hTip value)

end Walk

/- A set of nodes is free of collisions by enumeration. -/
theorem collisionFree_of_list {hash : NodeValue12 → NodeKey} {A : Set NodeValue12}
    (ns : List NodeValue12) (hSub : ∀ n ∈ A, n ∈ ns)
    (hInj : ∀ n ∈ ns, ∀ n' ∈ ns, hash n = hash n' → n = n')
    (hNonzero : ∀ n ∈ ns, hash n ≠ NodeKey.zero) : (scheme hash).CollisionFree A :=
  ⟨fun n hn n' hn' => hInj n (hSub n hn) n' (hSub n' hn'), fun n hn => hNonzero n (hSub n hn)⟩

/- A small computable hash, to evaluate the model with. -/
def sampleHash (node : NodeValue12) : NodeKey :=
  let word := (List.ofFn node.get0to4 ++ List.ofFn node.get4to8 ++
      List.ofFn node.capacity).foldl (fun acc w => 31 * acc + w + 7) 1
  ![word, 0, 0, 0]

def sampleKey (n : Nat) : NodeKey := ![BitVec.ofNat 64 n, 0, 0, 0]

def sampleValue (n : Nat) : NodeValue8 := fun i => some (if i = 0 then BitVec.ofNat 64 n else 0)

end XLayerErigon.Smt
