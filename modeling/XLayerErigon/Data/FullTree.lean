import Mathlib

/-
  Full binary hash trees over infinitely many leaves.

  The node at a level and a position is the hash of the two nodes below it; level zero has the
  leaves.  A finite list of leaves is padded with one further leaf, so that every node beyond the
  list is the node of padding alone.

  Main results:
    * `Level.pairUp`
    * `climb_node`
    * `leaf_eq_of_node_eq`
-/

namespace FullTree

variable {H : Type}

-- Nodes

/- The node at a level and a position over some leaves. -/
def node (hash : H → H → H) (leaf : Nat → H) : Nat → Nat → H
  | 0, i => leaf i
  | n + 1, i =>
      hash (node hash leaf n (2 * i)) (node hash leaf n (2 * i + 1))

/- The leaves of a list, and a padding leaf beyond it. -/
def padded (zero : H) (leaves : List H) (i : Nat) : H := leaves.getD i zero

theorem padded_set {zero : H} {leaves : List H} {i : Nat} (hLt : i < leaves.length) (x : H) :
    padded zero (leaves.set i x) = Function.update (padded zero leaves) i x := by
  funext j
  rw [padded, List.getD_eq_getElem?_getD]
  by_cases hEq : j = i
  · subst hEq
    rw [List.getElem?_set_self hLt, Function.update_self]
    rfl
  · rw [List.getElem?_set_ne (Ne.symm hEq), Function.update_of_ne hEq, padded,
      List.getD_eq_getElem?_getD]

/- The node of a level above padding alone. -/
def zeroNode (hash : H → H → H) (zero : H) : Nat → H
  | 0 => zero
  | n + 1 =>
      hash (zeroNode hash zero n) (zeroNode hash zero n)

variable {hash : H → H → H} {zero : H} {leaf leaf' : Nat → H} {n i : Nat}

/- A node depends only on the leaves below it. -/
theorem node_congr (hSame : ∀ j, i * 2 ^ n ≤ j → j < (i + 1) * 2 ^ n → leaf j = leaf' j) :
    node hash leaf n i = node hash leaf' n i := by
  induction n generalizing i with
  | zero => exact hSame i (by simp) (by simp)
  | succ n ih =>
    have hPos : 0 < 2 ^ n := Nat.two_pow_pos n
    rw [pow_succ] at hSame
    simp only [node]
    congr 1
    · exact ih fun j hLow hHigh => hSame j (by linarith) (by nlinarith)
    · exact ih fun j hLow hHigh => hSame j (by nlinarith) (by linarith)

theorem node_const (hash : H → H → H) (zero : H) (n i : Nat) :
    node hash (fun _ => zero) n i = zeroNode hash zero n := by
  induction n generalizing i with
  | zero => rfl
  | succ n ih => simp [node, zeroNode, ih]

/- Beyond the list there is padding alone. -/
theorem node_padded_of_le {leaves : List H} (hBeyond : leaves.length ≤ i * 2 ^ n) :
    node hash (padded zero leaves) n i = zeroNode hash zero n := by
  rw [← node_const hash zero n i]
  apply node_congr
  intro j hLow hHigh
  exact List.getD_eq_default leaves zero (Nat.le_trans hBeyond hLow)

/- A longer list has the same nodes below its new part. -/
theorem node_padded_append {leaves more : List H} (hBelow : (i + 1) * 2 ^ n ≤ leaves.length) :
    node hash (padded zero (leaves ++ more)) n i = node hash (padded zero leaves) n i := by
  apply node_congr
  intro j hLow hHigh
  exact List.getD_append leaves more zero j (Nat.lt_of_lt_of_le hHigh hBelow)

-- Levels

/- The nodes of a level, up to some position. -/
def Level (hash : H → H → H) (zero : H) (leaf : Nat → H) (n : Nat) (xs : List H) : Prop :=
  ∀ i, xs.getD i (zeroNode hash zero n) = node hash leaf n i

/- The hashes of neighbours, two by two. -/
def pairUp (hash : H → H → H) : List H → List H
  | left :: right :: rest =>
      hash left right :: pairUp hash rest
  | _ => []

variable {xs : List H}

theorem level_padded (hash : H → H → H) (zero : H) (leaves : List H) :
    Level hash zero (padded zero leaves) 0 leaves :=
  fun _ => rfl

theorem length_pairUp (hash : H → H → H) (xs : List H) :
    (pairUp hash xs).length = xs.length / 2 := by
  induction xs using pairUp.induct with
  | case1 left right rest ih =>
    simp only [pairUp, List.length_cons, ih]
    omega
  | case2 xs hShort =>
    rcases xs with _ | ⟨left, _ | ⟨right, rest⟩⟩
    · simp [pairUp]
    · simp [pairUp]
    · exact absurd rfl (hShort left right rest)

theorem getD_pairUp (hEven : xs.length % 2 = 0) (z : H) (i : Nat) :
    (pairUp hash xs).getD i (hash z z) = hash (xs.getD (2 * i) z) (xs.getD (2 * i + 1) z) := by
  induction xs using pairUp.induct generalizing i with
  | case1 left right rest ih =>
    cases i with
    | zero => rfl
    | succ i =>
      have hRest : rest.length % 2 = 0 := by
        simp only [List.length_cons] at hEven
        omega
      simpa [pairUp, Nat.mul_add] using ih hRest i
  | case2 xs hShort =>
    rcases xs with _ | ⟨left, _ | ⟨right, rest⟩⟩
    · rfl
    · simp at hEven
    · exact absurd rfl (hShort left right rest)

section

variable (hLevel : Level hash zero leaf n xs)

include hLevel

theorem Level.pairUp (hEven : xs.length % 2 = 0) :
    Level hash zero leaf (n + 1) (pairUp hash xs) := by
  intro i
  rw [zeroNode, getD_pairUp hEven, hLevel, hLevel, node]

/- One more node of padding at the end. -/
theorem Level.concat : Level hash zero leaf n (xs ++ [zeroNode hash zero n]) := by
  intro i
  rw [← hLevel i]
  rcases Nat.lt_trichotomy i xs.length with hLt | hEq | hGt
  · exact List.getD_append xs _ _ i hLt
  · subst hEq
    simp
  · rw [List.getD_eq_default _ _ (by simp; omega), List.getD_eq_default _ _ (by omega)]

theorem Level.getElem?_eq_some (hLt : i < xs.length) : xs[i]? = some (node hash leaf n i) := by
  rw [← hLevel i, List.getD_eq_getElem xs _ hLt]
  exact List.getElem?_eq_getElem hLt

end

-- Climbing to the Root

/- The other child of the same parent. -/
def sibling (i : Nat) : Nat :=
  if i % 2 = 1 then i - 1 else i + 1

theorem sibling_ne (i : Nat) : sibling i ≠ i := by
  unfold sibling
  split_ifs <;> omega

theorem sibling_lt (hPos : 0 < n) (hLt : i < 2 ^ n) : sibling i < 2 ^ n := by
  rcases Nat.exists_eq_succ_of_ne_zero (Nat.pos_iff_ne_zero.mp hPos) with ⟨n, rfl⟩
  rw [Nat.succ_eq_add_one, pow_succ] at hLt ⊢
  unfold sibling
  split_ifs <;> omega

theorem sibling_div (i n : Nat) : sibling i / 2 ^ (n + 1) = i / 2 ^ (n + 1) := by
  have hParent : sibling i / 2 = i / 2 := by
    unfold sibling
    split_ifs <;> omega
  rw [pow_succ', ← Nat.div_div_eq_div_mul, hParent, Nat.div_div_eq_div_mul]

/- Above the leaves, the way of a leaf avoids its sibling. -/
theorem node_update_sibling (hash : H → H → H) (leaf : Nat → H) (n i : Nat) (x : H) :
    node hash (Function.update leaf (sibling i) x) (n + 1) (sibling (i / 2 ^ (n + 1))) =
      node hash leaf (n + 1) (sibling (i / 2 ^ (n + 1))) := by
  apply node_congr
  intro j hLow hHigh
  apply Function.update_of_ne
  rintro rfl
  apply sibling_ne (i / 2 ^ (n + 1))
  have hBelow := Nat.div_eq_of_lt_le hLow hHigh
  rw [sibling_div] at hBelow
  exact hBelow.symm

/- The siblings of a position, with its own one replaced. -/
theorem map_node_update_sibling (hash : H → H → H) (leaf : Nat → H) (n i : Nat) (x : H) :
    (List.range (n + 1)).map (fun j =>
        node hash (Function.update leaf (sibling i) x) j (sibling (i / 2 ^ j))) =
      x :: (List.range n).map (fun j => node hash leaf (1 + j) (sibling (i / 2 / 2 ^ j))) := by
  rw [List.range_succ_eq_map, List.map_cons, List.map_map]
  congr 1
  · simp [node]
  · apply List.map_congr_left
    intro j hj
    rw [Function.comp_apply, Nat.succ_eq_add_one, node_update_sibling, Nat.add_comm 1 j,
      Nat.div_div_eq_div_mul, ← pow_succ']

/- Hash upwards from a position, one sibling a level. -/
def climb (hash : H → H → H) : List H → Nat → H → H
  | [], _, cur => cur
  | s :: siblings, i, cur =>
      climb hash siblings (i / 2) (if i % 2 = 1 then hash s cur else hash cur s)

theorem node_succ_sibling (hash : H → H → H) (leaf : Nat → H) (n i : Nat) :
    (if i % 2 = 1 then hash (node hash leaf n (sibling i)) (node hash leaf n i)
      else hash (node hash leaf n i) (node hash leaf n (sibling i))) =
      node hash leaf (n + 1) (i / 2) := by
  rw [node, sibling]
  by_cases hOdd : i % 2 = 1
  · have hLow : 2 * (i / 2) = i - 1 := by omega
    have hHigh : 2 * (i / 2) + 1 = i := by omega
    rw [if_pos hOdd, if_pos hOdd, hHigh, hLow]
  · have hLow : 2 * (i / 2) = i := by omega
    simp [hOdd, hLow]

/- The right siblings lead to the node above. -/
theorem climb_node {siblings : List H} (hSiblings : ∀ j < siblings.length, siblings[j]? =
      some (node hash leaf (n + j) (sibling (i / 2 ^ j)))) :
    climb hash siblings i (node hash leaf n i) =
      node hash leaf (n + siblings.length) (i / 2 ^ siblings.length) := by
  induction siblings generalizing n i with
  | nil => simp [climb]
  | cons s siblings ih =>
    have hHead : s = node hash leaf n (sibling i) := by simpa using hSiblings 0 (by simp)
    rw [climb, hHead, node_succ_sibling, ih]
    · rw [List.length_cons, Nat.div_div_eq_div_mul, ← pow_succ', Nat.add_right_comm, Nat.add_assoc]
    · intro j hj
      have hNext := hSiblings (j + 1) (by simpa using hj)
      rw [List.getElem?_cons_succ] at hNext
      rw [hNext, Nat.div_div_eq_div_mul, ← pow_succ', Nat.add_right_comm, Nat.add_assoc]

/- The pairs of nodes hashed below a node. -/
def pairs (hash : H → H → H) (leaf : Nat → H) : Nat → Nat → Set (H × H)
  | 0, _ => ∅
  | n + 1, i =>
      {(node hash leaf n (2 * i),
          node hash leaf n (2 * i + 1))} ∪
        (pairs hash leaf n (2 * i) ∪ pairs hash leaf n (2 * i + 1))

/- Without collisions equal nodes have equal leaves. -/
theorem leaf_eq_of_node_eq
    (hFree : Set.InjOn (Function.uncurry hash) (pairs hash leaf n i ∪ pairs hash leaf' n i))
    (hEq : node hash leaf n i = node hash leaf' n i) :
    ∀ j, i * 2 ^ n ≤ j → j < (i + 1) * 2 ^ n → leaf j = leaf' j := by
  induction n generalizing i with
  | zero =>
    intro j hLow hHigh
    have hPos : j = i := by
      simp at hLow hHigh
      omega
    rw [hPos]
    exact hEq
  | succ n ih =>
    have hPair : (node hash leaf n (2 * i),
            node hash leaf n (2 * i + 1)) =
          (node hash leaf' n (2 * i), node hash leaf' n (2 * i + 1)) :=
      hFree (Or.inl (Or.inl rfl)) (Or.inr (Or.inl rfl)) hEq
    rcases Prod.mk.inj hPair with ⟨hLeft, hRight⟩
    intro j hLow hHigh
    have hPos : 0 < 2 ^ n := Nat.two_pow_pos n
    rw [pow_succ] at hLow hHigh
    by_cases hSide : j < (2 * i + 1) * 2 ^ n
    · apply ih (hFree.mono ?_) hLeft j (by linarith) hSide
      exact
        Set.union_subset_union (Set.subset_union_of_subset_right Set.subset_union_left _)
          (Set.subset_union_of_subset_right Set.subset_union_left _)
    · apply ih (hFree.mono ?_) hRight j (by linarith) (by linarith)
      exact
        Set.union_subset_union (Set.subset_union_of_subset_right Set.subset_union_right _)
          (Set.subset_union_of_subset_right Set.subset_union_right _)

end FullTree
