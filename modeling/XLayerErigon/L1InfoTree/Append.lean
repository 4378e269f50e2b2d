import XLayerErigon.L1InfoTree.Proof

/-
  Appending leaves to the L1 info tree.

  The siblings that the tree keeps are the last complete nodes of the levels, one for every bit of
  the count of leaves.  A new leaf goes up like a carry through that count.

  Main results:
    * `addLeaf_spec`
    * `newL1InfoTree_spec`
    * `addLeaves_eq_rebuild_iff`
-/

namespace XLayerErigon

open FullTree

variable {hash : Bytes32 → Bytes32 → Bytes32} {mt : L1InfoTree} {leaf : Nat → Bytes32}
  {height h : Nat} {leaves : List Bytes32}

-- Adding a Leaf

/-
  The tree keeps, for every bit of the count of leaves that is set, the last complete node of that
  level.
-/
structure L1InfoTree.Frontier (hash : Bytes32 → Bytes32 → Bytes32)
    (height : Nat) (leaves : List Bytes32) (mt : L1InfoTree) : Prop where
  sized : mt.OfHeight hash height
  count : mt.count = leaves.length % 2 ^ 32
  length : mt.siblings.length = height
  siblings : ∀ j < height, leaves.length / 2 ^ j % 2 = 1 →
      mt.siblings[j]? = some (node hash (padded 0 leaves) j (leaves.length / 2 ^ j - 1))

/- A carry goes on where the bit is set. -/
theorem dvd_succ_iff {n j : Nat} : 2 ^ (j + 1) ∣ n + 1 ↔ 2 ^ j ∣ n + 1 ∧ n / 2 ^ j % 2 = 1 := by
  have hSucc := @Nat.succ_div n (2 ^ j)
  constructor
  · intro hDvd
    have hLow : 2 ^ j ∣ n + 1 := (Nat.pow_dvd_pow 2 (Nat.le_succ j)).trans hDvd
    rw [if_pos hLow] at hSucc
    rcases hDvd with ⟨c, hc⟩
    have hDiv : (n + 1) / 2 ^ j = 2 * c := by
      rw [hc, pow_succ, Nat.mul_assoc, Nat.mul_div_cancel_left _ (Nat.two_pow_pos j)]
    exact ⟨hLow, by omega⟩
  · rintro ⟨hDvd, hOdd⟩
    rw [if_pos hDvd] at hSucc
    rw [pow_succ, ← Nat.div_mul_cancel hDvd, Nat.mul_comm (2 ^ j)]
    apply Nat.mul_dvd_mul_right
    omega

/-
  The siblings in the middle of adding a leaf to `n` others:
  below level `h` they belong to the new count, from there on
  still to the old one.
-/
structure Halfway (hash : Bytes32 → Bytes32 → Bytes32)
    (leaf : Nat → Bytes32) (height n h : Nat) (siblings : List Bytes32) : Prop where
  length : siblings.length = height
  below :
    ∀ j < h, (n + 1) / 2 ^ j % 2 = 1 → siblings[j]? = some (node hash leaf j ((n + 1) / 2 ^ j - 1))
  above : ∀ j, h ≤ j → j < height → n / 2 ^ j % 2 = 1 →
      siblings[j]? = some (node hash leaf j (n / 2 ^ j - 1))

variable {n : Nat} {siblings : List Bytes32}

/- A level is done once its sibling is that of the new count. -/
theorem Halfway.next {siblings' : List Bytes32} (hHalfway : Halfway hash leaf height n h siblings)
    (hLength : siblings'.length = siblings.length)
    (hOther : ∀ j, j ≠ h → siblings'[j]? = siblings[j]?)
    (hAt : (n + 1) / 2 ^ h % 2 = 1 →
      siblings'[h]? = some (node hash leaf h ((n + 1) / 2 ^ h - 1))) :
    Halfway hash leaf height n (h + 1) siblings' where
  length := hLength.trans hHalfway.length
  below := by
    intro j hj hBit
    rcases Nat.lt_succ_iff_lt_or_eq.mp hj with hBelow | rfl
    · rw [hOther j hBelow.ne]
      exact hHalfway.below j hBelow hBit
    · exact hAt hBit
  above := by
    intro j hj
    rw [hOther j (by omega)]
    exact hHalfway.above j (by omega)

/- A level with a left sibling keeps it. -/
theorem Halfway.odd (hHalfway : Halfway hash leaf height n h siblings) (hLt : h < height)
    (hOdd : n / 2 ^ h % 2 = 1) : Halfway hash leaf height n (h + 1) siblings := by
  refine hHalfway.next rfl (fun _ _ => rfl) fun hBit => ?_
  have hSucc := @Nat.succ_div n (2 ^ h)
  by_cases hDvd : 2 ^ h ∣ n + 1
  · rw [if_pos hDvd] at hSucc
    omega
  · rw [if_neg hDvd, Nat.add_zero] at hSucc
    rw [hSucc]
    exact hHalfway.above h (Nat.le_refl h) hLt hOdd

/- A level without one keeps the new node while it is full. -/
theorem Halfway.even {isFilledSubTree : Bool} (hHalfway : Halfway hash leaf height n h siblings)
    (hLt : h < height) (hEven : n / 2 ^ h % 2 ≠ 1)
    (hFilled : isFilledSubTree = decide (2 ^ h ∣ n + 1)) :
    ∃ siblings', L1InfoTree.keepSibling isFilledSubTree siblings h
          (node hash leaf h (n / 2 ^ h)) = .ok siblings' ∧
        Halfway hash leaf height n (h + 1) siblings' := by
  have hSucc := @Nat.succ_div n (2 ^ h)
  have hInside : h < siblings.length := hHalfway.length ▸ hLt
  subst hFilled
  by_cases hDvd : 2 ^ h ∣ n + 1
  · rw [if_pos hDvd] at hSucc
    refine ⟨siblings.set h (node hash leaf h (n / 2 ^ h)), ?_, hHalfway.next List.length_set
      (fun j hj => List.getElem?_set_ne hj.symm) fun _ => ?_⟩
    · simp [L1InfoTree.keepSibling, hDvd, sliceSet, hInside]
    · rw [hSucc, Nat.add_sub_cancel, List.getElem?_set_self hInside]
  · rw [if_neg hDvd, Nat.add_zero] at hSucc
    refine ⟨siblings, ?_, hHalfway.next rfl (fun _ _ => rfl) fun hBit => absurd hBit ?_⟩
    · simp [L1InfoTree.keepSibling, hDvd]
    · rwa [hSucc]

theorem addLevels_spec {rounds : Nat} {isFilledSubTree : Bool} (hTree : mt.OfHeight hash height)
    (hHeight : h + rounds = height) (hHalfway : Halfway hash leaf height n h siblings)
    (hFilled : isFilledSubTree = decide (2 ^ h ∣ n + 1))
    (hBeyond : ∀ j, node hash leaf j (n / 2 ^ j + 1) = zeroNode hash 0 j) :
    ∃ siblings', L1InfoTree.addLevels hash mt n rounds h siblings
          (node hash leaf h (n / 2 ^ h)) isFilledSubTree =
          .ok (siblings', node hash leaf height (n / 2 ^ height)) ∧
        Halfway hash leaf height n height siblings' := by
  induction rounds generalizing h siblings isFilledSubTree with
  | zero =>
    rw [Nat.add_zero] at hHeight
    subst hHeight
    exact ⟨siblings, rfl, hHalfway⟩
  | succ rounds ih =>
    have hParent := node_succ_sibling hash leaf h (n / 2 ^ h)
    rw [Nat.div_div_eq_div_mul, ← pow_succ] at hParent
    by_cases hBit : n / 2 ^ h % 2 = 1
    · have hSibling := hHalfway.above h (Nat.le_refl h) (by omega) hBit
      rw [if_pos hBit, sibling, if_pos hBit] at hParent
      rcases @ih (h + 1) siblings isFilledSubTree (by omega) (hHalfway.odd (by omega) hBit) (by
        rw [hFilled]
        simp [dvd_succ_iff, hBit]) with ⟨siblings', hRest, hDone⟩
      refine ⟨siblings', ?_, hDone⟩
      rw [L1InfoTree.addLevels, Nat.testBit_eq_decide_div_mod_eq, if_pos (decide_eq_true hBit),
        sliceIndex_of_some hSibling, ok_bind, hParent]
      exact hRest
    · rcases hHalfway.even (by omega) hBit hFilled with ⟨kept, hKeep, hNext⟩
      rw [if_neg hBit, sibling, if_neg hBit, hBeyond] at hParent
      rcases @ih (h + 1) kept false (by omega) hNext (by simp [dvd_succ_iff, hBit])
        with ⟨siblings', hRest, hDone⟩
      refine ⟨siblings', ?_, hDone⟩
      rw [L1InfoTree.addLevels, Nat.testBit_eq_decide_div_mod_eq,
        if_neg (by simpa using hBit), hKeep, ok_bind, hTree.zeroHash (by omega), ok_bind, hParent]
      exact hRest

/- Adding a leaf gives the root of all leaves so far. -/
theorem addLeaf_spec (hFrontier : mt.Frontier hash height leaves) (hMax : height ≤ 32)
    (hRoom : leaves.length < 2 ^ height) (leaf : Bytes32) :
    ∃ mt', mt.addLeaf hash leaves.length leaf =
          .ok (mt', node hash (padded 0 (leaves ++ [leaf])) height 0) ∧
        mt'.Frontier hash height (leaves ++ [leaf]) := by
  have hTree := hFrontier.sized
  have hPow : 2 ^ height ≤ 2 ^ 32 := Nat.pow_le_pow_right (by omega) hMax
  have hCount : mt.count = leaves.length := by rw [hFrontier.count, Nat.mod_eq_of_lt (by omega)]
  have hStart : Halfway hash (padded 0 (leaves ++ [leaf])) height leaves.length 0 mt.siblings := by
    refine ⟨hFrontier.length, fun j hj => absurd hj (Nat.not_lt_zero j), ?_⟩
    intro j _ hj hBit
    rw [hFrontier.siblings j hj hBit, node_padded_append]
    have hOne : 1 ≤ leaves.length / 2 ^ j := by
      generalize leaves.length / 2 ^ j = q at hBit
      omega
    rw [Nat.sub_add_cancel hOne]
    exact Nat.div_mul_le_self _ _
  have hBeyond : ∀ j, node hash (padded 0 (leaves ++ [leaf])) j (leaves.length / 2 ^ j + 1) =
          zeroNode hash 0 j := by
    intro j
    apply node_padded_of_le
    rw [List.length_append, List.length_singleton]
    rw [Nat.mul_comm]
    exact Nat.lt_mul_div_succ _ (Nat.two_pow_pos j)
  have hLeaf : node hash (padded 0 (leaves ++ [leaf])) 0 (leaves.length / 2 ^ 0) = leaf := by
    simp [node, padded]
  rcases
    addLevels_spec hTree (Nat.zero_add height) hStart
      (show true = decide (2 ^ 0 ∣ leaves.length + 1) by simp) hBeyond with
    ⟨siblings, hRun, hDone⟩
  rw [hLeaf, Nat.div_eq_of_lt hRoom] at hRun
  refine
    ⟨{ mt with
      siblings := siblings
      allLeaves := leaf :: mt.allLeaves
      currentRoot := node hash (padded 0 (leaves ++ [leaf])) height 0
      count := (mt.count + 1) % 2 ^ 32 },
      ?_, ⟨hTree.height_eq, hTree.zeroHashes_eq⟩, ?_, hDone.length, ?_⟩
  · rw [L1InfoTree.addLeaf, if_neg (by simp [hCount]), hTree.height_eq, hRun]
    rfl
  · simp [hCount]
  · rw [List.length_append, List.length_singleton]
    exact hDone.below

-- The First Leaves

/-
  The leaves that the siblings of a new tree stand for: the last of 2^32 - 1 initial leaves is
  lost.
-/
def keptLeaves (height : Nat) (leaves : List Bytes32) : List Bytes32 :=
  if height = 32 ∧ leaves.length = 2 ^ 32 - 1 then
    leaves.set (leaves.length - 1) 0
  else leaves

@[simp] theorem length_keptLeaves (height : Nat) (leaves : List Bytes32) :
    (keptLeaves height leaves).length = leaves.length := by
  unfold keptLeaves
  split_ifs <;> simp

theorem provenLeaf_length (hLength : leaves.length < 2 ^ 32) :
    provenLeaf height leaves leaves.length = padded 0 (keptLeaves height leaves) := by
  unfold provenLeaf keptLeaves
  by_cases hCut : Cut height leaves
  · have hFull : leaves.length = 2 ^ 32 - 1 := by
      have hLow := hCut.2
      omega
    have hSibling : sibling leaves.length = leaves.length - 1 := by rw [sibling, if_pos (by omega)]
    rw [if_pos hCut, if_pos ⟨hCut.1, hFull⟩, hSibling, padded_set (by omega)]
  · rw [if_neg hCut, if_neg (fun hBoth => hCut ⟨hBoth.1, Nat.le_of_eq hBoth.2.symm⟩)]

/- A full tree has no bit of its count below its height. -/
theorem two_pow_div_even {j : Nat} (hLt : j < height) : 2 ^ height / 2 ^ j % 2 ≠ 1 := by
  rw [Nat.pow_div (Nat.le_of_lt hLt) (by omega)]
  have hSplit : height - j = (height - j - 1) + 1 := by omega
  rw [hSplit, pow_succ]
  omega

/- The siblings of the next leaf, and the root so far. -/
theorem initSiblings_spec (hTree : mt.OfHeight hash height) (hHeight : height ≠ 0)
    (hMax : height ≤ 32) (hLength : leaves.length ≤ 2 ^ height)
    (hCount : mt.count = leaves.length % 2 ^ 32) :
    ∃ siblings, mt.initSiblings hash leaves =
          .ok (siblings, node hash (padded 0 leaves) height 0) ∧
        siblings.length = height ∧
        ∀ j < height, leaves.length / 2 ^ j % 2 = 1 →
          siblings[j]? =
            some
              (node hash (padded 0 (keptLeaves height leaves)) j (leaves.length / 2 ^ j - 1)) := by
  have hPow : 2 ^ height ≤ 2 ^ 32 := Nat.pow_le_pow_right (by omega) hMax
  rw [L1InfoTree.initSiblings, if_neg (by simp [hCount])]
  by_cases hNone : mt.count = 0
  · rw [if_pos hNone, buildL1InfoRoot_spec hTree hHeight hLength]
    refine ⟨mt.zeroHashes.take mt.height, rfl, ?_, ?_⟩
    · simp [hTree.height_eq, hTree.zeroHashes_eq, generateZeroHashes_eq]
    · intro j hj hBit
      exfalso
      by_cases hEmpty : leaves.length = 0
      · simp [hEmpty] at hBit
      · have hFull : leaves.length = 2 ^ height := by omega
        rw [hFull] at hBit
        exact two_pow_div_even hj hBit
  · have hSmall : leaves.length < 2 ^ 32 := by
      by_contra hBig
      apply hNone
      rw [hCount, show leaves.length = 2 ^ 32 by omega, Nat.mod_self]
    rw [Nat.mod_eq_of_lt hSmall] at hCount
    rw [if_neg hNone, hCount, computeMerkleProof_spec hTree hHeight hMax hLength,
      provenLeaf_length hSmall]
    refine ⟨_, rfl, by simp, ?_⟩
    intro j hj hBit
    simp [hj, sibling, hBit]

theorem newL1InfoTree_spec {initialLeaves : List Bytes32} (hHeight : height ≠ 0)
    (hMax : height ≤ 32) (hLength : initialLeaves.length ≤ 2 ^ height) :
    ∃ mt, newL1InfoTree hash height initialLeaves = .ok mt ∧
        mt.Frontier hash height (keptLeaves height initialLeaves) := by
  rcases
    @initSiblings_spec hash
      { height := height
        zeroHashes := generateZeroHashes hash height
        count := initialLeaves.length % 2 ^ 32
        siblings := []
        currentRoot := 0
        allLeaves := [] }
      height initialLeaves ⟨rfl, rfl⟩ hHeight hMax hLength rfl with
    ⟨siblings, hRun, hSiblings, hKept⟩
  rw [newL1InfoTree]
  dsimp only
  rw [hRun]
  refine ⟨_, rfl, ⟨rfl, rfl⟩, ?_, hSiblings, ?_⟩
  · rw [length_keptLeaves]
  · rw [length_keptLeaves]
    exact hKept

/- A tree without levels cannot be made. -/
theorem newL1InfoTree_zero (hash : Bytes32 → Bytes32 → Bytes32) (initialLeaves : List Bytes32) :
    newL1InfoTree hash 0 initialLeaves =
      .error (.error "error: more than one root detected: ") := by
  rw [newL1InfoTree]
  dsimp only
  rw [L1InfoTree.initSiblings, if_neg (by simp)]
  split_ifs with hNone
  · rw [buildL1InfoRoot_zero ⟨rfl, rfl⟩]
    rfl
  · rw [computeMerkleProof_zero ⟨rfl, rfl⟩]
    rfl

-- Appending Leaves

def paddedRoot (hash : Bytes32 → Bytes32 → Bytes32) (height : Nat)
    (leaves : List Bytes32) : Bytes32 :=
  node hash (padded 0 leaves) height 0

/- The roots of the padded trees after each further leaf. -/
def appendRoots (hash : Bytes32 → Bytes32 → Bytes32) (height : Nat)
    (leaves rest : List Bytes32) : List Bytes32 :=
  (List.range rest.length).map (fun n => paddedRoot hash height (leaves ++ rest.take (n + 1)))

theorem appendRoots_cons (hash : Bytes32 → Bytes32 → Bytes32) (height : Nat) (leaves : List Bytes32)
    (leaf : Bytes32) (rest : List Bytes32) :
    appendRoots hash height leaves (leaf :: rest) =
      paddedRoot hash height (leaves ++ [leaf]) ::
        appendRoots hash height (leaves ++ [leaf]) rest := by
  simp [appendRoots, List.range_succ_eq_map, Function.comp_def]

theorem addLeaves_spec {rest : List Bytes32} (hFrontier : mt.Frontier hash height leaves)
    (hMax : height ≤ 32) (hRoom : leaves.length + rest.length ≤ 2 ^ height) :
    ∃ mt', L1InfoTree.addLeaves hash mt leaves.length rest =
          .ok (mt', appendRoots hash height leaves rest) ∧
        mt'.Frontier hash height (leaves ++ rest) := by
  induction rest generalizing mt leaves with
  | nil =>
    refine ⟨mt, rfl, ?_⟩
    rw [List.append_nil]
    exact hFrontier
  | cons leaf rest ih =>
    rw [List.length_cons] at hRoom
    rcases addLeaf_spec hFrontier hMax (by omega) leaf with ⟨mt₁, hAdd, hFrontier₁⟩
    rcases ih hFrontier₁ (by simp; omega) with ⟨mt', hRest, hFrontier'⟩
    rw [List.length_append, List.length_singleton] at hRest
    rw [List.append_assoc, List.singleton_append] at hFrontier'
    refine ⟨mt', ?_, hFrontier'⟩
    rw [appendRoots_cons]
    simp only [L1InfoTree.addLeaves, hAdd, hRest, ok_bind]
    rfl

theorem set_last_concat (leaves : List Bytes32) (last : Bytes32) :
    (leaves ++ [last]).set ((leaves ++ [last]).length - 1) 0 = leaves ++ [0] := by
  rw [List.length_append, List.length_singleton, Nat.add_sub_cancel,
    List.set_append_right _ _ (Nat.le_refl _), Nat.sub_self]
  rfl

/- The loss of the last leaf shows unless it is zero. -/
theorem appendRoots_keptLeaves_iff {rest : List Bytes32}
    (hLength : leaves.length + rest.length ≤ 2 ^ height)
    (hFree : Set.InjOn (Function.uncurry hash) (pairs hash (padded 0 (leaves ++ rest)) height 0 ∪
      pairs hash (padded 0 (leaves.set (leaves.length - 1) 0 ++ rest)) height 0)) :
    appendRoots hash height (keptLeaves height leaves) rest =
        appendRoots hash height leaves rest ↔
      ¬ (height = 32 ∧ leaves.length = 2 ^ 32 - 1 ∧ rest ≠ [] ∧ leaves.getLastD 0 ≠ 0) := by
  by_cases hLast : height = 32 ∧ leaves.length = 2 ^ 32 - 1
  · rcases hLast with ⟨rfl, hFull⟩
    rw [keptLeaves, if_pos ⟨rfl, hFull⟩]
    rcases rest with _ | ⟨leaf, _ | ⟨next, rest⟩⟩
    · simp [appendRoots]
    · rcases List.eq_nil_or_concat' leaves with rfl | ⟨leaves, last, rfl⟩
      · simp at hFull
      · rw [set_last_concat] at hFree ⊢
        have hRoom : leaves.length < 2 ^ 32 := by
          rw [List.length_append] at hFull
          omega
        -- a root over one more leaf shows that a leaf was lost
        have hIff : paddedRoot hash 32 (leaves ++ [0] ++ [leaf]) =
            paddedRoot hash 32 (leaves ++ [last] ++ [leaf]) ↔ last = 0 := by
          refine ⟨fun hEq => ?_, by rintro rfl; rfl⟩
          simpa [padded] using
            leaf_eq_of_node_eq hFree hEq.symm leaves.length (by simp) (by simpa using hRoom)
        have hRoots : ∀ xs : List Bytes32,
              appendRoots hash 32 xs [leaf] = [paddedRoot hash 32 (xs ++ [leaf])] := by
          intro xs
          rw [appendRoots_cons]
          rfl
        rw [hRoots, hRoots, List.singleton_inj, hIff, List.getLastD_concat]
        simp only [hFull, true_and, ne_eq, reduceCtorEq, not_false_eq_true, not_not]
    · simp only [List.length_cons] at hLength
      omega
  · rw [keptLeaves, if_neg hLast]
    exact iff_of_true rfl (fun hAll => hLast ⟨hAll.1, hAll.2.1⟩)

/-
  Adding leaves one by one gives the roots that building the padded tree anew gives, unless the
  tree has no level, or one leaf is added to 2^32 - 1 initial ones of which the last is not zero.
-/
theorem addLeaves_eq_rebuild_iff (hash : Bytes32 → Bytes32 → Bytes32) (height : Nat)
    (initialLeaves rest : List Bytes32) (hMax : height ≤ 32)
    (hLength : initialLeaves.length + rest.length ≤ 2 ^ height)
    (hFree : Set.InjOn (Function.uncurry hash) (pairs hash (padded 0 (initialLeaves ++ rest)) height
      0 ∪ pairs hash (padded 0 (initialLeaves.set (initialLeaves.length - 1) 0
      ++ rest)) height 0)) :
    (∃ mt mt',
        newL1InfoTree hash height initialLeaves = .ok mt ∧
          mt.addLeaves hash initialLeaves.length rest =
            .ok (mt', appendRoots hash height initialLeaves rest) ∧
          ∀ n ≤ rest.length, mt.buildL1InfoRoot hash (initialLeaves ++ rest.take n) =
              .ok (paddedRoot hash height (initialLeaves ++ rest.take n))) ↔
      height ≠ 0 ∧
        ¬ (height = 32 ∧ initialLeaves.length = 2 ^ 32 - 1 ∧
          rest ≠ [] ∧ initialLeaves.getLastD 0 ≠ 0) := by
  by_cases hHeight : height = 0
  · subst hHeight
    rw [newL1InfoTree_zero]
    simp
  · have hIff := appendRoots_keptLeaves_iff hLength hFree
    rcases @newL1InfoTree_spec hash height initialLeaves hHeight hMax (by omega) with
      ⟨mt, hNew, hFrontier⟩
    rcases
      @addLeaves_spec hash mt height _ rest hFrontier hMax
        (by rw [length_keptLeaves]; exact hLength) with
      ⟨mt', hAdd, _⟩
    rw [length_keptLeaves] at hAdd
    have hBuild : ∀ n ≤ rest.length, mt.buildL1InfoRoot hash (initialLeaves ++ rest.take n) =
            .ok (paddedRoot hash height (initialLeaves ++ rest.take n)) := by
      intro n hn
      apply buildL1InfoRoot_spec hFrontier.sized hHeight
      rw [List.length_append, List.length_take]
      omega
    constructor
    · rintro ⟨mt₁, mt₂, hNew₁, hAdd₁, _⟩
      cases hNew.symm.trans hNew₁
      injection hAdd.symm.trans hAdd₁ with hPair
      exact ⟨hHeight, hIff.mp (Prod.mk.inj hPair).2⟩
    · rintro ⟨_, hNot⟩
      rw [hIff.mpr hNot] at hAdd
      exact ⟨mt, mt', hNew, hAdd, hBuild⟩

theorem addLeaves_eq_rebuild_iff_sample :
    ∃ mt mt', newL1InfoTree sampleMix 1 [1] = .ok mt ∧
        mt.addLeaves sampleMix 1 [2] = .ok (mt', appendRoots sampleMix 1 [1] [2]) ∧
        ∀ n ≤ 1, mt.buildL1InfoRoot sampleMix ([1] ++ [2].take n) =
            .ok (paddedRoot sampleMix 1 ([1] ++ [2].take n)) := by
  apply (addLeaves_eq_rebuild_iff sampleMix 1 [1] [2] (by decide) (by decide) ?_).mpr
  · refine ⟨by decide, ?_⟩
    rintro ⟨hHeight, _⟩
    exact absurd hHeight (by decide)
  · rw [pairs_one, pairs_one, Set.singleton_union, Set.injOn_pair]
    decide

/- A single leaf between zero leaves. -/
theorem padded_lone_last (n : Nat) :
    padded (0 : Bytes32) (List.replicate n 0 ++ [1] ++ [0]) = Function.update (fun _ => 0) n 1 := by
  funext j
  rw [padded, List.append_assoc]
  rcases Nat.lt_trichotomy j n with hLt | rfl | hGt
  · rw [List.getD_append _ _ _ _ (by simpa using hLt), Function.update_of_ne (Nat.ne_of_lt hLt)]
    exact congrFun (padded_zeros n) j
  · rw [List.getD_append_right _ _ _ _ (by simp), Function.update_self]
    simp
  · rw [List.getD_append_right _ _ _ _ (by simpa using Nat.le_of_lt hGt),
        Function.update_of_ne (Nat.ne_of_gt hGt), List.length_replicate]
    rcases Nat.exists_eq_add_of_lt hGt with ⟨k, rfl⟩
    rw [show n + k + 1 - n = k + 1 by omega]
    cases k <;> rfl

/-
  A tree without levels cannot be made; and the last leaf of a tree that starts with 2^32 - 1
  leaves does not give the root of all leaves.
-/
theorem addLeaf_ne_rebuild :
    newL1InfoTree orHash 0 [] =
        .error (.error "error: more than one root detected: ") ∧
      ∃ mt mt' root, newL1InfoTree orHash 32 (List.replicate (2 ^ 32 - 2) 0 ++ [1]) = .ok mt ∧
          mt.addLeaf orHash (2 ^ 32 - 1) 0 = .ok (mt', root) ∧
          mt.buildL1InfoRoot orHash (List.replicate (2 ^ 32 - 2) 0 ++ [1] ++ [0]) ≠ .ok root := by
  refine ⟨newL1InfoTree_zero orHash [], ?_⟩
  have hPred : 2 ^ 32 - 1 = 2 ^ 32 - 2 + 1 := by norm_num
  rw [hPred]
  generalize hCount : 2 ^ 32 - 2 = count
  rw [hCount] at hPred
  have hLength : (List.replicate count (0 : Bytes32) ++ [1]).length = count + 1 := by simp
  have hKept : keptLeaves 32 (List.replicate count 0 ++ [1]) = List.replicate count 0 ++ [0] := by
    rw [keptLeaves, if_pos ⟨rfl, by rw [hLength, hPred]⟩, set_last_concat]
  rcases
    @newL1InfoTree_spec orHash 32 (List.replicate count 0 ++ [1]) (by decide)
      (Nat.le_refl 32) (by rw [hLength]; omega) with
    ⟨mt, hNew, hFrontier⟩
  rw [hKept] at hFrontier
  rcases addLeaf_spec hFrontier (Nat.le_refl 32) (by simp; omega) 0 with ⟨mt', hAdd, _⟩
  have hBuild :=
    @buildL1InfoRoot_spec orHash mt 32 (List.replicate count 0 ++ [1] ++ [0]) hFrontier.sized
      (by decide) (by simp; omega)
  have hZeros :
      List.replicate count (0 : Bytes32) ++ [0] ++ [0] = List.replicate (count + 1 + 1) 0 := by
    rw [List.replicate_succ', List.replicate_succ']
  have hPlace : count / 2 ^ 32 = 0 := Nat.div_eq_of_lt (by omega)
  rw [hZeros, padded_zeros, node_const, zeroNode_orHash] at hAdd
  rw [List.length_append, List.length_replicate, List.length_singleton] at hAdd
  rw [padded_lone_last, node_orHash_lone, if_pos hPlace] at hBuild
  refine ⟨mt, mt', 0, hNew, hAdd, ?_⟩
  rw [hBuild]
  intro hEq
  exact absurd (Except.ok.inj hEq) (by decide)

end XLayerErigon
