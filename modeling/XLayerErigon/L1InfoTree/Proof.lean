import XLayerErigon.Data.FullTree
import XLayerErigon.L1InfoTree.Tree

/-
  Roots and Merkle proofs of the L1 info tree.

  Building the root level by level and proving a leaf both describe the full tree of the leaves
  padded with zero leaves.  Two things go wrong: a tree of height zero has no level to build, and
  a level of 2^32 nodes has its length cut to zero when a sibling is looked up.

  Main results:
    * `buildL1InfoRoot_spec`
    * `computeMerkleProof_spec`
    * `computeMerkleProof_climb_iff`
-/

namespace XLayerErigon

open FullTree

variable {hash : Bytes32 → Bytes32 → Bytes32} {mt : L1InfoTree} {leaf : Nat → Bytes32}
  {height h : Nat} {leaves : List Bytes32}

-- Zero Hashes

theorem generateZeroHashes_eq (hash : Bytes32 → Bytes32 → Bytes32) (height : Nat) :
    generateZeroHashes hash height = (List.range (height + 1)).map (zeroNode hash 0) := by
  induction height with
  | zero => rfl
  | succ height ih =>
    have hLast : (generateZeroHashes hash height).getLastD 0 = zeroNode hash 0 height := by
      rw [ih, List.range_succ, List.map_append]
      simp
    rw [generateZeroHashes, hLast, ih, @List.range_succ (height + 1), List.map_append]
    rfl

/- A receiver with the zero hashes of its height. -/
structure L1InfoTree.OfHeight
    (hash : Bytes32 → Bytes32 → Bytes32) (height : Nat) (mt : L1InfoTree) : Prop where
  height_eq : mt.height = height
  zeroHashes_eq : mt.zeroHashes = generateZeroHashes hash height

theorem L1InfoTree.OfHeight.zeroHash (hTree : mt.OfHeight hash height) (hLe : h ≤ height) :
    sliceIndex mt.zeroHashes h = .ok (zeroNode hash 0 h) := by
  apply sliceIndex_of_some
  rw [hTree.zeroHashes_eq, generateZeroHashes_eq]
  simp [Nat.lt_succ_of_le hLe]

-- One Level

theorem buildIntermediate_spec (hEven : leaves.length % 2 = 0) :
    ∃ nodes, buildIntermediate hash leaves =
          .ok (nodes, pairUp hash leaves) ∧
        nodes.map Prod.fst = pairUp hash leaves := by
  induction leaves using pairUp.induct with
  | case1 left right rest ih =>
    have hRest : rest.length % 2 = 0 := by
      simp only [List.length_cons] at hEven
      omega
    rcases ih hRest with ⟨nodes, hRun, hNodes⟩
    refine ⟨(hash left right, left, right) :: nodes, ?_, ?_⟩
    · simp [buildIntermediate, hRun, pairUp]
    · simp [pairUp, hNodes]
  | case2 leaves hShort =>
    rcases leaves with _ | ⟨left, _ | ⟨right, rest⟩⟩
    · exact ⟨[], rfl, rfl⟩
    · simp at hEven
    · exact absurd rfl (hShort left right rest)

/- A level that is a single node gives the root. -/
theorem onlyRoot_spec {nodes : List HashedPair} {above : List Bytes32}
    (hNodes : nodes.map Prod.fst = above) (hLevel : Level hash 0 leaf h above)
    (hLength : above.length = 1) : L1InfoTree.onlyRoot nodes = .ok (node hash leaf h 0) := by
  have hFirst := hLevel 0
  rcases List.length_eq_one_iff.mp hLength with ⟨x, rfl⟩
  rcases List.map_eq_singleton_iff.mp hNodes with ⟨pair, rfl, hPair⟩
  rw [← hFirst, L1InfoTree.onlyRoot, hPair]
  rfl

variable (hTree : mt.OfHeight hash height)

include hTree

theorem firstLevel_spec (leaves : List Bytes32) :
    ∃ level, mt.firstLevel leaves = .ok level ∧
        Level hash 0 (padded 0 leaves) 0 level ∧ level.length = max leaves.length 1 := by
  by_cases hEmpty : leaves.length = 0
  · have hNil := List.length_eq_zero_iff.mp hEmpty
    subst hNil
    refine ⟨[0], ?_, ?_, rfl⟩
    · rw [L1InfoTree.firstLevel, if_pos hEmpty, hTree.zeroHash (Nat.zero_le height)]
      rfl
    · exact (level_padded hash 0 []).concat
  · refine ⟨leaves, ?_, level_padded hash 0 leaves, ?_⟩
    · rw [L1InfoTree.firstLevel, if_neg hEmpty]
    · omega

theorem evenLevel_spec (hLe : h ≤ height) (hLevel : Level hash 0 leaf h leaves) :
    ∃ level, mt.evenLevel h leaves = .ok level ∧
        Level hash 0 leaf h level ∧ level.length = 2 * ((leaves.length + 1) / 2) := by
  by_cases hOdd : leaves.length % 2 = 1
  · refine ⟨leaves ++ [zeroNode hash 0 h], ?_, ?_, ?_⟩
    · rw [L1InfoTree.evenLevel, if_pos hOdd, hTree.zeroHash hLe]
      rfl
    · exact hLevel.concat
    · rw [List.length_append, List.length_singleton]
      omega
  · refine ⟨leaves, ?_, hLevel, ?_⟩
    · rw [L1InfoTree.evenLevel, if_neg hOdd]
    · omega

/- One round of either loop: the level padded to an even length, and the level above it. -/
theorem round_spec (hLe : h ≤ height) (hLevel : Level hash 0 leaf h leaves) :
    ∃ level nodes above, mt.evenLevel h leaves = .ok level ∧
        buildIntermediate hash level = .ok (nodes, above) ∧ nodes.map Prod.fst = above ∧
        Level hash 0 leaf h level ∧ level.length = 2 * ((leaves.length + 1) / 2) ∧
        Level hash 0 leaf (h + 1) above ∧ above.length = (leaves.length + 1) / 2 := by
  rcases evenLevel_spec hTree hLe hLevel with ⟨level, hEven, hLevel', hLength⟩
  have hMod : level.length % 2 = 0 := by omega
  rcases @buildIntermediate_spec hash level hMod with ⟨nodes, hBuild, hNodes⟩
  refine
    ⟨level, nodes, pairUp hash level, hEven, hBuild, hNodes,
      hLevel', hLength, hLevel'.pairUp hMod, ?_⟩
  rw [length_pairUp]
  omega

theorem buildLevels_spec {rounds : Nat} {ns : List HashedPair} (hHeight : h + rounds = height)
    (hLevel : Level hash 0 leaf h leaves) (hLow : 1 ≤ leaves.length)
    (hHigh : leaves.length ≤ 2 ^ rounds)
    (hRoot : rounds = 0 → L1InfoTree.onlyRoot ns = .ok (node hash leaf height 0)) :
    ∃ nodes, L1InfoTree.buildLevels hash mt rounds h leaves ns = .ok nodes ∧
        L1InfoTree.onlyRoot nodes = .ok (node hash leaf height 0) := by
  induction rounds generalizing h leaves ns with
  | zero => exact ⟨ns, rfl, hRoot rfl⟩
  | succ rounds ih =>
    rcases round_spec hTree (by omega) hLevel with
      ⟨level, nodes, above, hEven, hBuild, hNodes, _, _, hAbove, hLength⟩
    rw [pow_succ] at hHigh
    rcases @ih (h + 1) above nodes (by omega) hAbove (by omega) (by omega) (by
      rintro rfl
      subst hHeight
      exact onlyRoot_spec hNodes hAbove (by omega)) with ⟨nodes', hRest, hRoot⟩
    refine ⟨nodes', ?_, hRoot⟩
    rw [L1InfoTree.buildLevels]
    simpa [hEven, hBuild] using hRest

/- The root of the leaves padded with zero leaves. -/
theorem buildL1InfoRoot_spec (hHeight : height ≠ 0) (hLength : leaves.length ≤ 2 ^ height) :
    mt.buildL1InfoRoot hash leaves = .ok (node hash (padded 0 leaves) height 0) := by
  rcases firstLevel_spec hTree leaves with ⟨level, hFirst, hLevel, hLevelLength⟩
  have hPos : 1 ≤ 2 ^ height := Nat.one_le_two_pow
  rcases
    @buildLevels_spec hash mt (padded 0 leaves) height 0 level hTree height [] (by omega) hLevel
      (by omega) (by omega) (fun hNone => absurd hNone hHeight) with
    ⟨nodes, hRun, hRoot⟩
  simp [L1InfoTree.buildL1InfoRoot, hFirst, hTree.height_eq, hRun, hRoot]

-- Merkle Proofs

/- The sibling found in a level of less than 2^32 nodes. -/
theorem levelSibling_spec (hLe : h ≤ height) (hLevel : Level hash 0 leaf h leaves)
    (hEven : leaves.length % 2 = 0)
    (hShort : leaves.length < 2 ^ 32) (index : Nat) :
    mt.levelSibling h index leaves = .ok (node hash leaf h (sibling index)) := by
  rw [L1InfoTree.levelSibling, Nat.mod_eq_of_lt hShort]
  by_cases hBeyond : index ≥ leaves.length
  · have hSibling : leaves.length ≤ sibling index := by
      unfold sibling
      split_ifs <;> omega
    rw [if_pos hBeyond, hTree.zeroHash hLe, ← hLevel (sibling index),
      List.getD_eq_default _ _ hSibling]
  · rw [if_neg hBeyond, sibling]
    split_ifs with hOdd <;> exact sliceIndex_of_some (hLevel.getElem?_eq_some (by omega))

/- A level of 2^32 nodes counts as empty. -/
theorem levelSibling_cut (hLe : h ≤ height) (hCut : leaves.length = 2 ^ 32) (index : Nat) :
    mt.levelSibling h index leaves = .ok (zeroNode hash 0 h) := by
  rw [L1InfoTree.levelSibling, hCut, Nat.mod_self, if_pos (Nat.zero_le index), hTree.zeroHash hLe]

theorem proofLevels_eq {rounds index : Nat} {siblings : List Bytes32} {ns : List HashedPair}
    (hHeight : h + rounds = height) (hLevel : Level hash 0 leaf h leaves)
    (hShort : leaves.length + 1 < 2 ^ 32) :
    L1InfoTree.proofLevels hash mt rounds h index leaves siblings ns =
      (L1InfoTree.buildLevels hash mt rounds h leaves ns).map (fun nodes =>
        (siblings ++ (List.range rounds).map (fun j =>
          node hash leaf (h + j) (sibling (index / 2 ^ j))), nodes)) := by
  induction rounds generalizing h index leaves siblings ns with
  | zero => simp [L1InfoTree.proofLevels, L1InfoTree.buildLevels, Except.map]
  | succ rounds ih =>
    rcases round_spec hTree (by omega) hLevel with
      ⟨level, nodes, above, hEven, hBuild, _, hLevel', hLevelLength, hAbove, hLength⟩
    have hSibling := levelSibling_spec hTree (by omega) hLevel' (by omega) (by omega) index
    rw [L1InfoTree.proofLevels, L1InfoTree.buildLevels]
    simp only [hEven, hSibling, hBuild, ok_bind]
    rw [ih (by omega) hAbove (by omega), List.range_succ_eq_map, List.map_cons, List.map_map]
    simp [Function.comp_def, Nat.div_div_eq_div_mul, pow_succ', Nat.add_right_comm, Nat.add_assoc]

/- The leaves fill the level of 2^32 nodes, the one case in which the length of a level is cut. -/
def Cut (height : Nat) (leaves : List Bytes32) : Prop := height = 32 ∧ 2 ^ 32 - 1 ≤ leaves.length

instance (height : Nat) (leaves : List Bytes32) : Decidable (Cut height leaves) :=
  inferInstanceAs (Decidable (_ ∧ _))

/- The leaves that a proof of a position takes into account. -/
def provenLeaf (height : Nat) (leaves : List Bytes32) (index : Nat) : Nat → Bytes32 :=
  if Cut height leaves then
    Function.update (padded 0 leaves) (sibling index) 0
  else padded 0 leaves

/- The siblings of a position, and the root of all leaves. -/
theorem computeMerkleProof_spec (hHeight : height ≠ 0) (hMax : height ≤ 32)
    (hLength : leaves.length ≤ 2 ^ height) (index : Nat) :
    mt.computeMerkleProof hash index leaves = .ok ((List.range height).map (fun j =>
        node hash (provenLeaf height leaves index) j (sibling (index / 2 ^ j))),
        node hash (padded 0 leaves) height 0) := by
  rcases firstLevel_spec hTree leaves with ⟨level, hFirst, hLevel, hLevelLength⟩
  have hPos : 1 ≤ 2 ^ height := Nat.one_le_two_pow
  have hPow : 2 ^ height ≤ 2 ^ 32 := Nat.pow_le_pow_right (by omega) hMax
  by_cases hCut : Cut height leaves
  · -- The first round by hand: its sibling is always zero.
    rcases hCut with ⟨rfl, hFull⟩
    rcases round_spec hTree (Nat.zero_le 32) hLevel with
      ⟨level', nodes, above, hEven, hBuild, hNodes, hLevel', hLength', hAbove, hAboveLength⟩
    have hSibling :=
      levelSibling_cut hTree (Nat.zero_le 32) (show level'.length = 2 ^ 32 by omega) index
    rcases @buildLevels_spec hash mt _ 32 1 above hTree 31 nodes rfl hAbove (by omega) (by omega)
      (fun hNone => absurd hNone (by omega)) with ⟨nodes', hRun, hRoot⟩
    have hSiblings := map_node_update_sibling hash (padded 0 leaves) 31 index 0
    have hRound : L1InfoTree.proofLevels hash mt 32 0 index level [] [] =
          L1InfoTree.proofLevels hash mt 31 1 (index / 2) above [zeroNode hash 0 0] nodes := by
      rw [L1InfoTree.proofLevels]
      simp only [hEven, hSibling, hBuild, ok_bind, List.nil_append, Nat.zero_add]
    rw [proofLevels_eq hTree rfl hAbove (by omega), hRun] at hRound
    rw [L1InfoTree.computeMerkleProof, hTree.height_eq, provenLeaf, if_pos ⟨rfl, hFull⟩, hSiblings]
    simp only [hFirst, hRound, Except.map, ok_bind, hRoot, List.singleton_append]
    rfl
  · have hShort : level.length + 1 < 2 ^ 32 := by
      by_cases hLast : height = 32
      · have hNot : ¬ 2 ^ 32 - 1 ≤ leaves.length := fun hFull => hCut ⟨hLast, hFull⟩
        omega
      · have hHalf : 2 ^ height ≤ 2 ^ 31 := Nat.pow_le_pow_right (by omega) (by omega)
        omega
    rcases @buildLevels_spec hash mt _ height 0 level hTree height [] (Nat.zero_add height) hLevel
      (by omega) (by omega) (fun hNone => absurd hNone hHeight) with ⟨nodes, hRun, hRoot⟩
    rw [L1InfoTree.computeMerkleProof, hTree.height_eq, provenLeaf, if_neg hCut, hFirst, ok_bind,
      proofLevels_eq hTree (Nat.zero_add height) hLevel hShort, hRun]
    simp [Except.map, hRoot]

omit hTree

/- Without a level there is no root. -/
theorem buildL1InfoRoot_zero (hTree : mt.OfHeight hash 0) :
    mt.buildL1InfoRoot hash leaves = .error (.error "error: more than one root detected: ") := by
  rcases firstLevel_spec hTree leaves with ⟨level, hFirst, _, _⟩
  simp [L1InfoTree.buildL1InfoRoot, hFirst, hTree.height_eq,
    L1InfoTree.buildLevels, L1InfoTree.onlyRoot]

theorem computeMerkleProof_zero (hTree : mt.OfHeight hash 0) (index : Nat) :
    mt.computeMerkleProof hash index leaves =
      .error (.error "error: more than one root detected: ") := by
  rcases firstLevel_spec hTree leaves with ⟨level, hFirst, _, _⟩
  simp [L1InfoTree.computeMerkleProof, hFirst, hTree.height_eq, L1InfoTree.proofLevels,
    L1InfoTree.onlyRoot]

theorem provenLeaf_self (height : Nat) (leaves : List Bytes32) (index : Nat) :
    provenLeaf height leaves index index = padded 0 leaves index := by
  unfold provenLeaf
  split_ifs
  · exact Function.update_of_ne (sibling_ne index).symm _ _
  · rfl

/- The siblings of a proof lead to the root they prove. -/
theorem climb_provenLeaf {index : Nat} (hIndex : index < 2 ^ height) :
    climb hash ((List.range height).map (fun j =>
        node hash (provenLeaf height leaves index) j (sibling (index / 2 ^ j))))
        index (padded 0 leaves index) =
      node hash (provenLeaf height leaves index) height 0 := by
  have hClimb := @climb_node Bytes32 hash (provenLeaf height leaves index) 0 index
      ((List.range height).map (fun j =>
        node hash (provenLeaf height leaves index) j (sibling (index / 2 ^ j))))
      (by
        intro j hj
        rw [List.length_map, List.length_range] at hj
        simp [hj])
  rw [List.length_map, List.length_range, Nat.zero_add,
    Nat.div_eq_of_lt hIndex, node, provenLeaf_self] at hClimb
  exact hClimb

/- Only a sibling that is cut away makes a difference. -/
theorem node_provenLeaf_eq_iff {index : Nat} (hHeight : height ≠ 0) (hIndex : index < 2 ^ height)
    (hFree : Set.InjOn (Function.uncurry hash) (pairs hash (padded 0 leaves) height 0 ∪ pairs hash
      (Function.update (padded 0 leaves) (sibling index) 0) height 0)) :
    node hash (provenLeaf height leaves index) height 0 =
        node hash (padded 0 leaves) height 0 ↔
      ¬ (Cut height leaves ∧ padded 0 leaves (sibling index) ≠ 0) := by
  unfold provenLeaf
  split_ifs with hCut
  · have hLt := sibling_lt (Nat.pos_of_ne_zero hHeight) hIndex
    simp only [hCut, true_and, ne_eq, not_not]
    constructor
    · intro hEq
      have hLeaf := leaf_eq_of_node_eq hFree hEq.symm (sibling index) (by simp) (by simpa using hLt)
      rwa [Function.update_self] at hLeaf
    · intro hZero
      rw [Function.update_eq_self_iff.mpr hZero.symm]
  · simp [hCut]

/-
  Hashing a leaf with its proof gives the returned root, which is the root of the same leaves,
  unless the tree has no level, or the leaves fill 2^32 places and the sibling of the leaf is not
  zero.
-/
theorem computeMerkleProof_climb_iff (hash : Bytes32 → Bytes32 → Bytes32) (mt : L1InfoTree)
    (height index : Nat) (leaves : List Bytes32) (hTree : mt.OfHeight hash height)
    (hMax : height ≤ 32) (hLength : leaves.length ≤ 2 ^ height) (hIndex : index < 2 ^ height)
    (hFree : Set.InjOn (Function.uncurry hash) (pairs hash (padded 0 leaves) height 0 ∪ pairs hash
      (Function.update (padded 0 leaves) (sibling index) 0) height 0)) :
    (∃ siblings root,
        mt.computeMerkleProof hash index leaves =
            .ok (siblings, root) ∧
          climb hash siblings index (padded 0 leaves index) = root ∧
          mt.buildL1InfoRoot hash leaves = .ok root) ↔
      height ≠ 0 ∧ ¬ (Cut height leaves ∧ padded 0 leaves (sibling index) ≠ 0) := by
  by_cases hHeight : height = 0
  · subst hHeight
    rw [computeMerkleProof_zero hTree]
    simp
  · have hProof := computeMerkleProof_spec hTree hHeight hMax hLength index
    have hBuild := buildL1InfoRoot_spec hTree hHeight hLength
    have hIff := node_provenLeaf_eq_iff hHeight hIndex hFree
    constructor
    · rintro ⟨siblings, root, hRun, hClimb, _⟩
      cases hProof.symm.trans hRun
      rw [climb_provenLeaf hIndex] at hClimb
      exact ⟨hHeight, hIff.mp hClimb⟩
    · rintro ⟨_, hNot⟩
      refine ⟨_, _, hProof, ?_, hBuild⟩
      rw [climb_provenLeaf hIndex]
      exact hIff.mpr hNot

/- A small hash to evaluate the trees with. -/
def sampleMix (a b : Bytes32) : Bytes32 := 3 * a + b + 1

theorem pairs_one (hash : Bytes32 → Bytes32 → Bytes32) (leaf : Nat → Bytes32) :
    pairs hash leaf 1 0 = {(leaf 0, leaf 1)} := by
  simp [pairs, node]

/- A receiver of a given height. -/
def sampleTree (hash : Bytes32 → Bytes32 → Bytes32) (height : Nat) : L1InfoTree where
  height := height
  zeroHashes := generateZeroHashes hash height
  count := 0
  siblings := []
  currentRoot := 0
  allLeaves := []

theorem computeMerkleProof_climb_iff_sample :
    ∃ siblings root,
      (sampleTree sampleMix 1).computeMerkleProof sampleMix 0 [1, 2] = .ok (siblings, root) ∧
        climb sampleMix siblings 0 1 = root ∧
        (sampleTree sampleMix 1).buildL1InfoRoot sampleMix [1, 2] = .ok root := by
  apply
    (computeMerkleProof_climb_iff sampleMix
      (sampleTree sampleMix 1) 1 0 [1, 2] ⟨rfl, rfl⟩ (by decide) (by decide) (by decide) ?_).mpr
  · refine ⟨by decide, ?_⟩
    rintro ⟨⟨hHeight, _⟩, _⟩
    exact absurd hHeight (by decide)
  · rw [pairs_one, pairs_one, Set.singleton_union, Set.injOn_pair]
    decide

/- A hash under which a lone leaf shows at the root. -/
def orHash (a b : Bytes32) : Bytes32 := a ||| b

theorem zeroNode_orHash (n : Nat) : zeroNode orHash 0 n = 0 := by
  induction n with
  | zero => rfl
  | succ n ih =>
    rw [zeroNode, ih]
    rfl

theorem node_orHash_lone (place n i : Nat) :
    node orHash (Function.update (fun _ => 0) place 1) n i =
      if place / 2 ^ n = i then 1 else 0 := by
  induction n generalizing i with
  | zero => simp [node, Function.update_apply, eq_comm]
  | succ n ih =>
    have hHalf : place / 2 ^ (n + 1) = place / 2 ^ n / 2 := by rw [pow_succ, Nat.div_div_eq_div_mul]
    rw [node, ih, ih, hHalf]
    generalize place / 2 ^ n = q
    split_ifs <;> first | rfl | omega

theorem padded_zeros (n : Nat) : padded (0 : Bytes32) (List.replicate n 0) = fun _ => 0 := by
  funext j
  simp [padded, List.getD_eq_getElem?_getD, List.getElem?_replicate]
  split_ifs <;> rfl

/- A single leaf at the left of some zero leaves. -/
theorem padded_lone_first (n : Nat) :
    padded (0 : Bytes32) (1 :: List.replicate n 0) = Function.update (fun _ => 0) 0 1 := by
  funext j
  cases j with
  | zero => rfl
  | succ j =>
    rw [Function.update_of_ne (Nat.succ_ne_zero j)]
    exact congrFun (padded_zeros n) j

/- No proof in a tree without levels; and the wrong sibling for the second of 2^32 leaves. -/
theorem computeMerkleProof_climb_ne :
    (sampleTree orHash 0).computeMerkleProof orHash 0 [] =
        .error (.error "error: more than one root detected: ") ∧
      ∃ siblings root, (sampleTree orHash 32).computeMerkleProof orHash 1
            (1 :: List.replicate (2 ^ 32 - 1) 0) = .ok (siblings, root) ∧
          climb orHash siblings 1 0 ≠ root := by
  refine ⟨computeMerkleProof_zero ⟨rfl, rfl⟩ 0, ?_⟩
  generalize hCount : 2 ^ 32 - 1 = count
  have hLength : (1 :: List.replicate count (0 : Bytes32)).length = 2 ^ 32 := by
    rw [List.length_cons, List.length_replicate, ← hCount]
    norm_num
  have hCut : Cut 32 (1 :: List.replicate count (0 : Bytes32)) := by
    refine ⟨rfl, ?_⟩
    rw [hLength]
    norm_num
  have hLeaf : padded (0 : Bytes32) (1 :: List.replicate count 0) 1 = 0 := by
    rw [padded_lone_first]
    rfl
  have hProven : provenLeaf 32 (1 :: List.replicate count 0) 1 = fun _ => 0 := by
    rw [provenLeaf, if_pos hCut, padded_lone_first,
      show sibling 1 = 0 from rfl, Function.update_idem]
    exact Function.update_eq_self 0 (fun _ => 0)
  have hClimb := @climb_provenLeaf orHash 32 (1 :: List.replicate count 0) 1 (by norm_num)
  rw [hLeaf] at hClimb
  refine
    ⟨_, _,
      @computeMerkleProof_spec orHash (sampleTree orHash 32) 32 _ ⟨rfl, rfl⟩ (by decide) (by decide)
        (Nat.le_of_eq hLength) 1, ?_⟩
  rw [hClimb, hProven, node_const, zeroNode_orHash, padded_lone_first, node_orHash_lone]
  decide

end XLayerErigon
