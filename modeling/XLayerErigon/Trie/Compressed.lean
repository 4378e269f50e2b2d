import Mathlib.Data.Set.Function
import Mathlib.Logic.Function.Basic
import Mathlib.Tactic.SplitIfs

/-
  Compressed binary tries over keys with indexed bits.

  A key of an arbitrary type is read bit by bit through a function `bit`, and a key/value map is a
  function into `Option`.  The compressed trie of a map is empty for the empty map, one leaf at
  the top for a single key, and a branch on the next bit otherwise.

  Main results:
    * `compressed_succ`
    * `compressed_proper`
    * `compressed_of_pair`
    * `mem_compressed_iff`
-/

-- Trees

namespace Trie

/- A binary trie whose leaves carry their whole key. -/
inductive Tree (K V : Type) where
  | empty : Tree K V
  | leaf (key : K) (value : V) : Tree K V
  | branch (left right : Tree K V) : Tree K V
  deriving DecidableEq

variable {K V : Type}

namespace Tree

/- The pair `(key, value)` sits at a leaf of the tree. -/
def Mem (key : K) (value : V) : Tree K V → Prop
  | .empty => False
  | .leaf key' value' => key' = key ∧ value' = value
  | .branch left right =>
      Mem key value left ∨ Mem key value right

/- Put two subtrees under one branch, pulling a lone leaf up when the other side is empty. -/
def join : Tree K V → Tree K V → Tree K V
  | .empty, .empty => .empty
  | .empty, .leaf key value => .leaf key value
  | .leaf key value, .empty => .leaf key value
  | left, right => .branch left right

@[simp] theorem join_empty_empty : join (.empty : Tree K V) .empty = .empty := rfl

@[simp] theorem join_empty_leaf (key : K) (value : V) :
    join .empty (.leaf key value) = .leaf key value := rfl

@[simp] theorem join_leaf_empty (key : K) (value : V) :
    join (.leaf key value) .empty = .leaf key value := rfl

@[simp] theorem join_branch_left (left right other : Tree K V) :
    join (.branch left right) other = .branch (.branch left right) other := by
  cases other <;> rfl

@[simp] theorem join_branch_right (left right other : Tree K V) :
    join other (.branch left right) = .branch other (.branch left right) := by
  cases other <;> rfl

@[simp] theorem join_leaf_leaf (key key' : K) (value value' : V) :
    join (.leaf key value) (.leaf key' value') =
      .branch (.leaf key value) (.leaf key' value') := rfl

/- Joining keeps exactly the leaves of both sides. -/
theorem mem_join_iff (key : K) (value : V) (left right : Tree K V) :
    Mem key value (join left right) ↔ Mem key value left ∨ Mem key value right := by
  cases left <;> cases right <;> simp [join, Mem]

end Tree

-- Frames

/- A branch on the way down: the side that was taken and the subtree on the other side. -/
structure Frame (K V : Type) where
  side : Bool
  sibling : Tree K V

namespace Frame

/- The branch with `t` on the side that was taken. -/
def plug (f : Frame K V) (t : Tree K V) : Tree K V :=
  if f.side then .branch f.sibling t
  else .branch t f.sibling

/- As `plug`, but a lone leaf is pulled up. -/
def join (f : Frame K V) (t : Tree K V) : Tree K V :=
  if f.side then Tree.join f.sibling t
  else Tree.join t f.sibling

@[simp] theorem plug_true (sibling t : Tree K V) : plug ⟨true, sibling⟩ t = .branch sibling t := rfl

@[simp] theorem plug_false (sibling t : Tree K V) :
    plug ⟨false, sibling⟩ t = .branch t sibling := rfl

@[simp] theorem join_true (sibling t : Tree K V) :
    join ⟨true, sibling⟩ t = Tree.join sibling t := rfl

@[simp] theorem join_false (sibling t : Tree K V) :
    join ⟨false, sibling⟩ t = Tree.join t sibling := rfl

theorem mem_plug_iff (f : Frame K V) (t : Tree K V) (key : K) (value : V) :
    Tree.Mem key value (f.plug t) ↔ Tree.Mem key value f.sibling ∨ Tree.Mem key value t := by
  obtain ⟨side, sibling⟩ := f
  cases side <;> simp [Tree.Mem, or_comm]

end Frame

/- A branch and a join, seen from either side. -/
theorem Frame.plug_sides (side : Bool → Tree K V) (b : Bool) :
    .branch (side false) (side true) = Frame.plug ⟨b, side (!b)⟩ (side b) := by
  cases b <;> rfl

theorem Frame.join_sides (side : Bool → Tree K V) (b : Bool) :
    Tree.join (side false) (side true) = Frame.join ⟨b, side (!b)⟩ (side b) := by
  cases b <;> rfl

-- The Compressed Trie of a Map

/- The entries of a map whose bit at depth `d` is `b`. -/
def restrict (bit : K → Nat → Bool) (d : Nat) (b : Bool) (m : K → Option V) : K → Option V :=
  fun key => if bit key d = b then m key else none

/- The map has exactly the entry `(key, value)`. -/
def Single (m : K → Option V) (key : K) (value : V) : Prop :=
  m key = some value ∧ ∀ key', key' ≠ key → m key' = none

open Classical in
/-
  The compressed trie of a map at depth `d`, with `n` bits still to be read.  The last case with
  no bits left is never reached by a map whose keys differ in some bit.
-/
noncomputable def compressed (bit : K → Nat → Bool) :
    Nat → Nat → (K → Option V) → Tree K V
  | n, d, m =>
      if ∀ key, m key = none then
        .empty
      else if h : ∃ key value, Single m key value then
        .leaf h.choose h.choose_spec.choose
      else
        match n with
        | 0 => .empty
        | n + 1 =>
            .branch (compressed bit n (d + 1) (restrict bit d false m))
              (compressed bit n (d + 1) (restrict bit d true m))

/- Every two keys of the map agree on the first `d` bits. -/
def AgreeBelow (bit : K → Nat → Bool) (d : Nat) (m : K → Option V) : Prop :=
  ∀ key key', m key ≠ none → m key' ≠ none → ∀ i < d, bit key i = bit key' i

/- Keys are determined by their first `len` bits. -/
def Separates (bit : K → Nat → Bool) (len : Nat) : Prop :=
  ∀ key key', (∀ i < len, bit key i = bit key' i) → key = key'

variable {bit : K → Nat → Bool} {n d len : Nat} {m : K → Option V} {key key' : K} {value : V}

theorem Single.key_eq {value' : V} (hSingle : Single m key value) (hSome : m key' = some value') :
    key' = key ∧ value' = value := by
  by_cases hKey : key' = key
  · subst hKey
    rw [hSingle.1] at hSome
    exact ⟨rfl, (Option.some.inj hSome).symm⟩
  · rw [hSingle.2 key' hKey] at hSome
    contradiction

theorem compressed_of_empty (hEmpty : ∀ key, m key = none) : compressed bit n d m = .empty := by
  unfold compressed
  rw [if_pos hEmpty]

theorem compressed_of_single (hSingle : Single m key value) :
    compressed bit n d m = .leaf key value := by
  have hNonempty : ¬ ∀ key, m key = none := by
    intro hEmpty
    cases (hEmpty key).symm.trans hSingle.1
  have hExists : ∃ key value, Single m key value := ⟨key, value, hSingle⟩
  unfold compressed
  rw [if_neg hNonempty, dif_pos hExists]
  obtain ⟨hKey, hValue⟩ := hSingle.key_eq hExists.choose_spec.choose_spec.1
  rw [hValue, hKey]

theorem not_single_of_two {value' : V} (hKey : m key = some value) (hKey' : m key' = some value')
    (hNe : key ≠ key') : ¬ ∃ key value, Single m key value := by
  rintro ⟨key₀, value₀, hSingle⟩
  apply hNe
  rw [(hSingle.key_eq hKey).1, (hSingle.key_eq hKey').1]

theorem compressed_of_two {value' : V} (hKey : m key = some value) (hKey' : m key' = some value')
    (hNe : key ≠ key') : compressed bit (n + 1) d m =
      .branch (compressed bit n (d + 1) (restrict bit d false m))
        (compressed bit n (d + 1) (restrict bit d true m)) := by
  have hNonempty : ¬ ∀ key, m key = none := by
    intro hEmpty
    cases (hEmpty key).symm.trans hKey
  conv_lhs => unfold compressed
  rw [if_neg hNonempty, dif_neg (not_single_of_two hKey hKey' hNe)]

theorem compressed_of_two_plug {value' : V} (b : Bool) (hKey : m key = some value)
    (hKey' : m key' = some value') (hNe : key ≠ key') : compressed bit (n + 1) d m =
      Frame.plug ⟨b, compressed bit n (d + 1) (restrict bit d (!b) m)⟩
        (compressed bit n (d + 1) (restrict bit d b m)) := by
  rw [compressed_of_two hKey hKey' hNe]
  exact Frame.plug_sides (fun b => compressed bit n (d + 1) (restrict bit d b m)) b

/- A map is empty, has one entry, or has two entries at different keys. -/
theorem empty_or_single_or_two (m : K → Option V) : (∀ key, m key = none) ∨
      (∃ key value, Single m key value) ∨
      ∃ key value key' value', m key = some value ∧ m key' = some value' ∧ key ≠ key' := by
  by_cases hEmpty : ∀ key, m key = none
  · exact Or.inl hEmpty
  · right
    push Not at hEmpty
    rcases hEmpty with ⟨key, hKey⟩
    rcases Option.ne_none_iff_exists'.mp hKey with ⟨value, hValue⟩
    by_cases hSingle : ∀ key', key' ≠ key → m key' = none
    · exact Or.inl ⟨key, value, hValue, hSingle⟩
    · right
      push Not at hSingle
      rcases hSingle with ⟨key', hNe, hKey'⟩
      rcases Option.ne_none_iff_exists'.mp hKey' with ⟨value', hValue'⟩
      exact ⟨key, value, key', value', hValue, hValue', hNe.symm⟩

theorem restrict_eq_some_iff {b : Bool} :
    restrict bit d b m key = some value ↔ bit key d = b ∧ m key = some value := by
  rw [restrict, Option.ite_none_right_eq_some]

theorem AgreeBelow.restrict (hAgree : AgreeBelow bit d m) (b : Bool) :
    AgreeBelow bit (d + 1) (Trie.restrict bit d b m) := by
  intro key key' hKey hKey' i hi
  rcases Option.ne_none_iff_exists'.mp hKey with ⟨value, hValue⟩
  rcases Option.ne_none_iff_exists'.mp hKey' with ⟨value', hValue'⟩
  rw [restrict_eq_some_iff] at hValue hValue'
  rcases Nat.lt_succ_iff_lt_or_eq.mp hi with hLt | hEq
  · exact hAgree key key' (by simp [hValue.2]) (by simp [hValue'.2]) i hLt
  · rw [hEq, hValue.1, hValue'.1]

section

variable (hSep : Separates bit len)

include hSep

/- Two entries are separated by a bit that is left to read. -/
theorem AgreeBelow.bits_left {value' : V} (hDepth : n + d = len)
    (hAgree : AgreeBelow bit d m) (hKey : m key = some value) (hKey' : m key' = some value')
    (hNe : key ≠ key') : n ≠ 0 := by
  rintro rfl
  refine hNe (hSep key key' ?_)
  rw [← hDepth, Nat.zero_add]
  exact hAgree key key' (by simp [hKey]) (by simp [hKey'])

/- A single entry lies on the side of its bit. -/
omit hSep in
theorem Single.restrict_same (hSingle : Single m key value) :
    Single (restrict bit d (bit key d) m) key value := by
  refine ⟨by simp [restrict, hSingle.1], ?_⟩
  intro key' hNe
  simp [restrict, hSingle.2 key' hNe]

omit hSep in
theorem Single.restrict_other (hSingle : Single m key value) (key' : K) :
    restrict bit d (!bit key d) m key' = none := by
  by_cases hKey : key' = key
  · subst hKey
    simp [restrict]
  · simp [restrict, hSingle.2 key' hKey]

/- The compressed trie is empty only for the empty map. -/
theorem compressed_eq_empty_iff (hDepth : n + d = len)
    (hAgree : AgreeBelow bit d m) : compressed bit n d m = .empty ↔ ∀ key, m key = none := by
  constructor
  · intro hEq
    rcases empty_or_single_or_two m with
      hEmpty | ⟨key, value, hSingle⟩ | ⟨key, value, key', value', hKey, hKey', hNe⟩
    · exact hEmpty
    · rw [compressed_of_single hSingle] at hEq
      contradiction
    · rcases Nat.exists_eq_succ_of_ne_zero (hAgree.bits_left hSep hDepth hKey hKey' hNe) with
        ⟨n, rfl⟩
      rw [compressed_of_two hKey hKey' hNe] at hEq
      contradiction
  · exact compressed_of_empty

omit hSep in
theorem compressed_eq_leaf_iff : compressed bit n d m = .leaf key value ↔ Single m key value := by
  refine ⟨fun hEq => ?_, compressed_of_single⟩
  unfold compressed at hEq
  split_ifs at hEq with hEmpty hSingle
  · injection hEq with hKey hValue
    rw [← hKey, ← hValue]
    exact hSingle.choose_spec.choose_spec
  · cases n <;> cases hEq

/- Reading one more bit splits the map and joins the two compressed halves. -/
theorem compressed_succ (hDepth : n + 1 + d = len) (hAgree : AgreeBelow bit d m) :
    compressed bit (n + 1) d m =
      Tree.join (compressed bit n (d + 1) (restrict bit d false m))
        (compressed bit n (d + 1) (restrict bit d true m)) := by
  have hHalf (b : Bool) := @compressed_eq_empty_iff _ _ bit n (d + 1) len _ hSep (by omega)
    (hAgree.restrict b)
  rcases empty_or_single_or_two m with
    hEmpty | ⟨key, value, hSingle⟩ | ⟨key, value, key', value', hKey, hKey', hNe⟩
  · have hNone : ∀ b key, restrict bit d b m key = none := by
      intro b key
      simp [restrict, hEmpty key]
    rw [compressed_of_empty hEmpty, compressed_of_empty (hNone false),
      compressed_of_empty (hNone true)]
    rfl
  · rw [compressed_of_single hSingle,
      Frame.join_sides (fun b => compressed bit n (d + 1) (restrict bit d b m)) (bit key d),
      compressed_of_single hSingle.restrict_same, compressed_of_empty hSingle.restrict_other]
    cases bit key d <;> rfl
  · rw [compressed_of_two hKey hKey' hNe]
    -- Beside an empty side the other has both keys at hand, and so does not collapse.
    have hFull : ∀ b, compressed bit n (d + 1) (restrict bit d b m) = .empty →
          ∃ l r, compressed bit n (d + 1) (restrict bit d (!b) m) = .branch l r := by
      intro b hEmpty
      have hSame : restrict bit d (!b) m = m := by
        funext key
        have hNone := (hHalf b).mp hEmpty key
        cases b <;> cases hBit : bit key d <;> simp_all [restrict]
      cases hOther : compressed bit n (d + 1) (restrict bit d (!b) m) with
      | branch l r => exact ⟨l, r, rfl⟩
      | empty => cases ((hSame ▸ (hHalf (!b)).mp hOther) key).symm.trans hKey
      | leaf key₀ value₀ =>
        exact absurd ⟨_, _, hSame ▸ compressed_eq_leaf_iff.mp hOther⟩
          (not_single_of_two hKey hKey' hNe)
    cases hLeft : compressed bit n (d + 1) (restrict bit d false m) with
    | branch l r => simp
    | empty =>
      rcases hFull false hLeft with ⟨l, r, hRight⟩
      rw [show compressed bit n (d + 1) (restrict bit d true m) = .branch l r from hRight]
      simp
    | leaf key₀ value₀ =>
      cases hRight : compressed bit n (d + 1) (restrict bit d true m) with
      | branch l r => simp
      | leaf key₁ value₁ => simp
      | empty =>
        rcases hFull true hRight with ⟨l, r, hBranch⟩
        cases hLeft.symm.trans hBranch

theorem compressed_succ_join (b : Bool) (hDepth : n + 1 + d = len) (hAgree : AgreeBelow bit d m) :
    compressed bit (n + 1) d m =
      Frame.join ⟨b, compressed bit n (d + 1) (restrict bit d (!b) m)⟩
        (compressed bit n (d + 1) (restrict bit d b m)) := by
  rw [compressed_succ hSep hDepth hAgree]
  exact Frame.join_sides (fun b => compressed bit n (d + 1) (restrict bit d b m)) b

/- The leaves of the compressed trie are the map's entries. -/
theorem mem_compressed_iff (hDepth : n + d = len) (hAgree : AgreeBelow bit d m) :
    Tree.Mem key value (compressed bit n d m) ↔ m key = some value := by
  induction n generalizing d m with
  | zero =>
    rcases empty_or_single_or_two m with
      hEmpty | ⟨key₀, value₀, hSingle⟩ | ⟨key₁, value₁, key₂, value₂, hKey₁, hKey₂, hNe⟩
    · simp [compressed_of_empty hEmpty, Tree.Mem, hEmpty key]
    · rw [compressed_of_single hSingle]
      constructor
      · rintro ⟨rfl, rfl⟩
        exact hSingle.1
      · intro hSome
        obtain ⟨hKey, hValue⟩ := hSingle.key_eq hSome
        exact ⟨hKey.symm, hValue.symm⟩
    · exact absurd rfl (hAgree.bits_left hSep hDepth hKey₁ hKey₂ hNe)
  | succ n ih =>
    rw [compressed_succ hSep hDepth hAgree, Tree.mem_join_iff,
      ih (by omega) (hAgree.restrict false), ih (by omega) (hAgree.restrict true),
      restrict_eq_some_iff, restrict_eq_some_iff]
    cases bit key d <;> simp

/- The number of branches above the deepest leaf. -/
def Tree.height : Tree K V → Nat
  | .empty => 0
  | .leaf _ _ => 0
  | .branch left right =>
      max (Tree.height left) (Tree.height right) + 1

/- A compressed trie branches at most once per bit. -/
omit hSep in
theorem height_compressed_le (n d : Nat) (m : K → Option V) :
    (compressed bit n d m).height ≤ n := by
  induction n generalizing d m with
  | zero =>
    unfold compressed
    split_ifs <;> simp [Tree.height]
  | succ n ih =>
    unfold compressed
    split_ifs
    · simp [Tree.height]
    · simp [Tree.height]
    · have hLeft := ih (d + 1) (restrict bit d false m)
      have hRight := ih (d + 1) (restrict bit d true m)
      simp only [Tree.height]
      omega

/-
  No branch of the tree could be collapsed, and the keys below a branch at depth `d` lie on the
  side of their bit.
-/
def Tree.Proper (bit : K → Nat → Bool) :
    Nat → Tree K V → Prop
  | _, .empty => True
  | _, .leaf _ _ => True
  | d, .branch left right =>
      Tree.join left right = .branch left right ∧
        (∀ key value, Tree.Mem key value left → bit key d = false) ∧
        (∀ key value, Tree.Mem key value right → bit key d = true) ∧
        Tree.Proper bit (d + 1) left ∧ Tree.Proper bit (d + 1) right

theorem compressed_proper (hDepth : n + d = len)
    (hAgree : AgreeBelow bit d m) : Tree.Proper bit d (compressed bit n d m) := by
  induction n generalizing d m with
  | zero =>
    unfold compressed
    split_ifs <;> trivial
  | succ n ih =>
    rcases empty_or_single_or_two m with
      hEmpty | ⟨key₀, value₀, hSingle⟩ | ⟨key₁, value₁, key₂, value₂, hKey₁, hKey₂, hNe⟩
    · rw [compressed_of_empty hEmpty]
      trivial
    · rw [compressed_of_single hSingle]
      trivial
    · have hSide : ∀ b key value,
            Tree.Mem key value (compressed bit n (d + 1) (restrict bit d b m)) → bit key d = b := by
        intro b key value hMem
        rw [mem_compressed_iff hSep (by omega) (hAgree.restrict b), restrict_eq_some_iff] at hMem
        exact hMem.1
      rw [compressed_of_two hKey₁ hKey₂ hNe]
      refine ⟨?_, hSide false, hSide true, ih (by omega) (hAgree.restrict false),
        ih (by omega) (hAgree.restrict true)⟩
      rw [← compressed_succ hSep hDepth hAgree, compressed_of_two hKey₁ hKey₂ hNe]

-- Forks

/-
  The subtree of two different keys at depth `d`: single branches while their bits agree, then one
  branch with a leaf on each side.
-/
def fork (bit : K → Nat → Bool) (key : K) (value : V) (key' : K) (value' : V) :
    Nat → Nat → Tree K V
  | 0, _ => .empty
  | n + 1, d =>
      if bit key d = bit key' d then
        if bit key d then
          .branch .empty (fork bit key value key' value' n (d + 1))
        else
          .branch (fork bit key value key' value' n (d + 1)) .empty
      else if bit key d then
        .branch (.leaf key' value') (.leaf key value)
      else
        .branch (.leaf key value) (.leaf key' value')

/- A map with two entries compresses to their fork. -/
theorem compressed_of_pair {value' : V} (hDepth : n + d = len)
    (hAgree : AgreeBelow bit d m) (hKey : m key = some value) (hKey' : m key' = some value')
    (hNe : key ≠ key') (hOnly : ∀ key₀, key₀ ≠ key → key₀ ≠ key' → m key₀ = none) :
    compressed bit n d m = fork bit key value key' value' n d := by
  induction n generalizing d m with
  | zero => exact absurd rfl (hAgree.bits_left hSep hDepth hKey hKey' hNe)
  | succ n ih =>
    rw [compressed_of_two_plug (bit key d) hKey hKey' hNe, fork]
    by_cases hBits : bit key d = bit key' d
    · rw [if_pos hBits]
      -- Both keys go to one side and the other is empty.
      have hOther : ∀ key₀, restrict bit d (!bit key d) m key₀ = none := by
        intro key₀
        by_cases hEq : key₀ = key
        · simp [restrict, hEq]
        · by_cases hEq' : key₀ = key'
          · simp [restrict, hEq', hBits]
          · simp [restrict, hOnly key₀ hEq hEq']
      have hSame : compressed bit n (d + 1) (restrict bit d (bit key d) m) =
            fork bit key value key' value' n (d + 1) := by
        apply ih (by omega) (hAgree.restrict _)
        · rw [restrict, if_pos rfl, hKey]
        · rw [restrict, if_pos hBits.symm, hKey']
        · intro key₀ hEq hEq'
          simp [restrict, hOnly key₀ hEq hEq']
      rw [hSame, compressed_of_empty hOther]
      cases bit key d <;> rfl
    · rw [if_neg hBits]
      have hSingle : ∀ key key' value, m key = some value → bit key d ≠ bit key' d →
            (∀ key₀, key₀ ≠ key → key₀ ≠ key' → m key₀ = none) →
            Single (restrict bit d (bit key d) m) key value := by
        intro key key' value hKey hBits hOnly
        refine ⟨by simp [restrict, hKey], fun key₀ hEq => ?_⟩
        by_cases hEq' : key₀ = key'
        · simp [restrict, hEq', Ne.symm hBits]
        · simp [restrict, hOnly key₀ hEq hEq']
      have hSecond := hSingle key' key value' hKey' (Ne.symm hBits) (fun key₀ hEq' hEq =>
        hOnly key₀ hEq hEq')
      rw [Bool.eq_not.mpr (Ne.symm hBits)] at hSecond
      rw [compressed_of_single (hSingle key key' value hKey hBits hOnly),
        compressed_of_single hSecond]
      cases bit key d <;> rfl

end

end Trie
