import XLayerErigon.Smt.Traverse

/-
  Merkle proofs of the tree and their verification.

  `BuildProofs` traverses the tree and keeps every node that a retain list asks for, as bytes;
  `FilterProofs` selects the nodes on the path of one key; `VerifyAndGetVal` hashes its way from
  the root to the value.

  Main results:
    * `filterProofs_buildProofs`
    * `verifyLoop_pathProof`
    * `verifyAndGetVal_buildProofs`
-/

namespace XLayerErigon.Smt

-- Retain Lists

/- Sorted paths with the index of the last one looked at. -/
structure RetainList where
  inited : Bool
  minLength : Nat
  lteIndex : Nat
  hexes : List (List Bool)

namespace RetainList

/- `NewRetainList`, then `AddHex` for each path. -/
def new (minLength : Nat) (hexes : List (List Bool)) : RetainList := ⟨false, minLength, 0, hexes⟩

def ensureInited (rl : RetainList) : RetainList :=
  if rl.inited then rl
  else
    { rl with
      hexes := rl.hexes.mergeSort (fun a b => !decide (b < a))
      lteIndex := 0
      inited := true }

/- Step back while the path at the index is too large. -/
def stepBack (hexes : List (List Bool)) (path : List Bool) : Nat → Nat
  | 0 => 0
  | i + 1 =>
      if path < hexes.getD (i + 1) [] then
        stepBack hexes path i
      else i + 1

/- Where the index goes for a path. -/
def adjust (rl : RetainList) (path : List Bool) : Nat :=
  let steps :=
    ((rl.hexes.drop (rl.lteIndex + 1)).takeWhile (fun hex => !decide (path < hex))).length
  if steps = 0 then stepBack rl.hexes path rl.lteIndex
  else rl.lteIndex + steps

/- Is the path a beginning of the path at the index? -/
def covers (rl : RetainList) (path : List Bool) (i : Nat) : Bool :=
  match rl.hexes[i]? with
  | some hex => path.isPrefixOf hex
  | none => false

def retain (rl : RetainList) (path : List Bool) : Bool × RetainList :=
  let rl := rl.ensureInited
  if path.length < rl.minLength then (true, rl)
  else
    let rl := { rl with lteIndex := rl.adjust path }
    (rl.covers path rl.lteIndex || rl.covers path (rl.lteIndex + 1), rl)

/- A retain list of one path never moves its index. -/
structure Lone (rl : RetainList) (hex : List Bool) : Prop where
  hexes : rl.hexes = [hex]
  lteIndex : rl.lteIndex = 0

theorem lone_new (minLength : Nat) (hex : List Bool) : (new minLength [hex]).Lone hex := ⟨rfl, rfl⟩

theorem Lone.ensureInited {rl : RetainList} {hex : List Bool} (hLone : rl.Lone hex) :
    rl.ensureInited.Lone hex := by
  unfold RetainList.ensureInited
  split_ifs
  · exact hLone
  · exact ⟨by rw [hLone.hexes]; exact List.mergeSort_singleton _, rfl⟩

theorem Lone.retain {rl : RetainList} {hex : List Bool} (hLone : rl.Lone hex) (path : List Bool) :
    (rl.retain path).2.Lone hex := by
  have hInited := hLone.ensureInited
  unfold RetainList.retain
  dsimp only
  split_ifs
  · exact hInited
  · refine ⟨hInited.hexes, ?_⟩
    simp [adjust, hInited.hexes, hInited.lteIndex, stepBack]

/- Every beginning of the path is retained. -/
theorem Lone.retain_of_isPrefix {rl : RetainList} {hex path : List Bool} (hLone : rl.Lone hex)
    (hPath : path <+: hex) : (rl.retain path).1 = true := by
  have hInited := hLone.ensureInited
  unfold RetainList.retain
  dsimp only
  split_ifs
  · rfl
  · simp [adjust, covers, hInited.hexes, hInited.lteIndex, stepBack, hPath]

end RetainList

structure SMTProofElement where
  path : List Bool
  proof : Bytes

def filterProofs (proofs : List SMTProofElement) (key : NodeKey) : List Bytes :=
  (proofs.filter (fun element => element.path.isPrefixOf key.getPath)).map SMTProofElement.proof

def NodeValue12.halves (nv : NodeValue12) : Bytes :=
  Bytes.fill 32 nv.get0to4.toBigInt ++ Bytes.fill 32 nv.get4to8.toBigInt

/- The bytes of a node; a leaf is marked by one more byte. -/
def NodeValue12.proofBytes (nv : NodeValue12) : Bytes :=
  if nv.isFinalNode then nv.halves ++ [1] else nv.halves

def proofAction (db : Db) : TraverseAction (RetainList × List SMTProofElement) := fun path _ v st =>
    let (retain, rl) := st.1.retain path
    if retain then
      let proofs := st.2 ++ [⟨path, v.proofBytes⟩]
      if v.isFinalNode then
        let value := (db.get v.get4to8).getNodeValue8
        .ok (false, (rl, proofs ++ [⟨path, value.bytes⟩]))
      else .ok (true, (rl, proofs))
    else .ok (false, (rl, st.2))

def buildProofs (db : Db) (rl : RetainList) (fuel : Nat) :
    Option (Except Failure (List SMTProofElement)) :=
  (traverse db (proofAction db) fuel db.lastRoot (rl, [])).map (Except.map Prod.snd)

-- Verification

/- Four words from the low 256 bits of a scalar. -/
def scalarToArray (scalar : Nat) : NodeKey := fun i => BitVec.ofNat 64 (scalar / 2 ^ (64 * i.val))

/- Eight words of 32 bits from the low 256 bits. -/
def scalarToArrayBig (scalar : Nat) : NodeValue8 :=
  fun i => some (BitVec.ofNat 64 (scalar / 2 ^ (32 * i.val) % 2 ^ 32))

/- The node that a proof element of 64 bytes or more encodes. -/
def proofNode (element : Bytes) : NodeValue12 := ⟨scalarToArray (Bytes.toNat (element.take 32)),
    scalarToArray (Bytes.toNat ((element.drop 32).take 32)),
    if element.length = 65 then leafCapacity
    else branchCapacity⟩

def rootMismatch (level : Nat) (expected got : NodeKey) : Failure := .error
    ("root mismatch at level " ++ toString level ++
      ", expected " ++ expected.print ++ ", got " ++ got.print)

/- How the walk along the proof ends. -/
inductive Verdict where
  | absent
  | found (valH : NodeKey)

/- The walk along the proof, from element `i` on. -/
def verifyLoop (hash : NodeValue12 → NodeKey) (key : NodeKey) :
    Nat → NodeKey → List Bytes → Except Failure Verdict
  | _, _, [] =>
      .error (.error ("proof is insufficient to verify the " ++ "non-existence of the value"))
  | i, curRoot, element :: rest =>
      if element.length < 64 then .error .panic
      else
        let node := proofNode element
        if curRoot ≠ hash node then
          .error (rootMismatch i curRoot (hash node))
        else if element.length = 65 then
          let joinedKey := NodeKey.joinKey (key.getPath.take i) node.get0to4
          if joinedKey.isEqualTo key then
            .ok (.found node.get4to8)
          else .ok .absent
        else
          match key.getPath[i]? with
          | none => .error .panic
          | some bit =>
            if (node.child bit).isZero then .ok .absent
            else
              verifyLoop hash key (i + 1) (node.child bit) rest

/- The value in the last element has to have the hash. -/
def verifyValue (hash : NodeValue12 → NodeKey) (level : Nat) (last : Bytes)
    (valH : NodeKey) : Except Failure (Option Bytes) :=
  let nodeValue := scalarToArrayBig last.toNat
  let h := hash (valueNode nodeValue.toUintArray)
  if h ≠ valH then .error (rootMismatch level valH h)
  else .ok (some last)

def verifyAndGetVal (hash : NodeValue12 → NodeKey) (stateRoot : NodeKey) (proof : List Bytes)
    (key : NodeKey) : Except Failure (Option Bytes) :=
  if proof = [] then .error (.error "proof is empty")
  else
    match verifyLoop hash key 0 stateRoot proof with
    | .error failure => .error failure
    | .ok .absent => .ok none
    | .ok (.found valH) =>
      verifyValue hash (proof.length - 1) (proof.getLastD []) valH

section Steps

variable {hash : NodeValue12 → NodeKey} {k key curRoot : NodeKey} {i : Nat} {element : Bytes}
  {rest : List Bytes}

/- A short element makes the slices go out of range. -/
theorem verifyLoop_short (hShort : element.length < 64) :
    verifyLoop hash k i curRoot (element :: rest) = .error .panic := by
  rw [verifyLoop, if_pos hShort]

theorem verifyLoop_mismatch (hLength : ¬ element.length < 64)
    (hRoot : curRoot ≠ hash (proofNode element)) :
    verifyLoop hash k i curRoot (element :: rest) =
      .error (rootMismatch i curRoot (hash (proofNode element))) := by
  rw [verifyLoop, if_neg hLength]
  exact if_pos hRoot

theorem isEqualTo_joinKey (hDepth : i ≤ 256) (hAgree : ∀ j < i, key.pathBit j = k.pathBit j) :
    (NodeKey.joinKey (k.getPath.take i) (key.removeKeyBits i)).isEqualTo k = decide (key = k) := by
  rw [← NodeKey.take_getPath_congr hAgree, NodeKey.joinKey_removeKeyBits key hDepth]
  by_cases hEq : key = k
  · rw [(NodeKey.isEqualTo_iff _ _).mpr hEq, decide_eq_true hEq]
  · rw [decide_eq_false hEq, Bool.eq_false_iff]
    exact fun hJoined => hEq ((NodeKey.isEqualTo_iff _ _).mp hJoined)

theorem isFinalNode_proofNode (element : Bytes) :
    (proofNode element).isFinalNode = decide (element.length = 65) := by
  rw [NodeValue12.isFinalNode, proofNode]
  split_ifs with hLength
  · exact (decide_eq_true hLength).symm
  · exact (decide_eq_false hLength).symm

theorem verifyLoop_leaf {valH : NodeKey}
    (hNode : proofNode element = leafNode (key.removeKeyBits i) valH) (hDepth : i ≤ 256)
    (hAgree : ∀ j < i, key.pathBit j = k.pathBit j) :
    verifyLoop hash k i (hash (proofNode element)) (element :: rest) =
      .ok (if key = k then .found valH else .absent) := by
  have hLength : element.length = 65 := by simpa [hNode] using isFinalNode_proofNode element
  have hKey : (proofNode element).get0to4 = key.removeKeyBits i := by rw [hNode]; rfl
  rw [verifyLoop, if_neg (by omega)]
  dsimp only
  rw [if_neg (fun hNe => hNe rfl), if_pos hLength, hKey, isEqualTo_joinKey hDepth hAgree, hNode]
  simp only [decide_eq_true_eq]
  split_ifs <;> rfl

theorem verifyLoop_branch {left right : NodeKey} (hNode : proofNode element = branchNode left right)
    (hLong : 64 ≤ element.length) (hDepth : i < 256) :
    verifyLoop hash k i (hash (proofNode element)) (element :: rest) =
      if ((branchNode left right).child (k.pathBit i)).isZero then .ok .absent
      else verifyLoop hash k (i + 1) ((branchNode left right).child (k.pathBit i)) rest := by
  have hLength : element.length ≠ 65 := by simpa [hNode] using isFinalNode_proofNode element
  rw [verifyLoop, if_neg (by omega)]
  dsimp only
  rw [if_neg (fun hNe => hNe rfl), if_neg hLength, NodeKey.getPath_getElem? k hDepth, hNode]

end Steps

theorem NodeKey.toBigInt_lt (nk : NodeKey) : nk.toBigInt < 256 ^ 32 := by
  have h0 := (nk 0).isLt
  have h1 := (nk 1).isLt
  have h2 := (nk 2).isLt
  have h3 := (nk 3).isLt
  rw [toBigInt]
  omega

theorem scalarToArray_toBigInt (nk : NodeKey) : scalarToArray nk.toBigInt = nk :=
  NodeKey.scalarToRoot_toBigInt nk

@[simp] theorem length_halves (nv : NodeValue12) : nv.halves.length = 64 := by
  rw [NodeValue12.halves, List.length_append, Bytes.length_fill (NodeKey.toBigInt_lt _),
    Bytes.length_fill (NodeKey.toBigInt_lt _)]

theorem length_proofBytes_branchNode (left right : NodeKey) :
    (branchNode left right).proofBytes.length = 64 := by
  simp [NodeValue12.proofBytes]

theorem proofNode_halves (nv : NodeValue12) (rest : Bytes) :
    proofNode (nv.halves ++ rest) =
      ⟨nv.get0to4, nv.get4to8, if rest.length = 1 then leafCapacity else branchCapacity⟩ := by
  have hLeft := Bytes.length_fill (NodeKey.toBigInt_lt nv.get0to4)
  have hRight := Bytes.length_fill (NodeKey.toBigInt_lt nv.get4to8)
  have hFirst : (nv.halves ++ rest).take 32 = Bytes.fill 32 nv.get0to4.toBigInt := by
    rw [NodeValue12.halves, List.append_assoc]
    exact List.take_left' hLeft
  have hSecond : ((nv.halves ++ rest).drop 32).take 32 = Bytes.fill 32 nv.get4to8.toBigInt := by
    rw [NodeValue12.halves, List.append_assoc, List.drop_left' hLeft]
    exact List.take_left' hRight
  rw [proofNode, hFirst, hSecond, Bytes.toNat_fill, Bytes.toNat_fill, scalarToArray_toBigInt,
    scalarToArray_toBigInt, List.length_append, length_halves]
  congr 1
  apply ite_congr _ (fun _ => rfl) (fun _ => rfl)
  apply propext
  omega

@[simp] theorem proofNode_leafNode (rKey valH : NodeKey) :
    proofNode (leafNode rKey valH).proofBytes = leafNode rKey valH :=
  proofNode_halves _ [1]

@[simp] theorem proofNode_branchNode (left right : NodeKey) :
    proofNode (branchNode left right).proofBytes = branchNode left right := by
  have hNode := proofNode_halves (branchNode left right) []
  rw [List.append_nil] at hNode
  exact hNode

/- A scalar as the tree stores it. -/
def limbs (scalar : Nat) : Value := (scalarToArrayBig scalar).toUintArray

theorem words_limbs (scalar : Nat) :
    (limbs scalar).words = (List.range 8).map (fun i =>
        BitVec.ofNat 64 (scalar / 2 ^ (32 * i) % 2 ^ 32)) :=
  rfl

/- The digits of a scalar in base `2 ^ 32`, put together. -/
theorem arrayBigToScalar_digits (scalar n : Nat) :
    arrayBigToScalar ((List.range n).map (fun i =>
        BitVec.ofNat 64 (scalar / 2 ^ (32 * i) % 2 ^ 32))) =
      scalar % 2 ^ (32 * n) := by
  induction n generalizing scalar with
  | zero => simp [arrayBigToScalar, Nat.mod_one]
  | succ n ih =>
    have hRest := ih (scalar / 2 ^ 32)
    have hShift : ∀ i, scalar / 2 ^ 32 / 2 ^ (32 * i) = scalar / 2 ^ (32 * (i + 1)) := by
      intro i
      rw [Nat.div_div_eq_div_mul, ← pow_add]
      congr 2
      omega
    simp only [hShift] at hRest
    rw [List.range_succ_eq_map, List.map_cons, List.map_map, arrayBigToScalar, List.foldr_cons]
    have hTail : List.foldr (fun (w : Word) scalar =>
      2 ^ 32 * scalar + w.toNat) 0 (List.map ((fun i =>
          BitVec.ofNat 64 (scalar / 2 ^ (32 * i) % 2 ^ 32)) ∘ Nat.succ) (List.range n)) =
        scalar / 2 ^ 32 % 2 ^ (32 * n) := hRest
    have hSmall : scalar % 2 ^ 32 < 2 ^ 64 := by
      have hMod := Nat.mod_lt scalar (show 2 ^ 32 > 0 by decide)
      omega
    rw [hTail, BitVec.toNat_ofNat, Nat.mul_zero, pow_zero, Nat.div_one, Nat.mod_eq_of_lt hSmall,
      show 32 * (n + 1) = 32 + 32 * n by omega, pow_add, Nat.mod_mul, Nat.add_comm]

theorem arrayBigToScalar_limbs (scalar : Nat) :
    arrayBigToScalar (limbs scalar).words = scalar % 2 ^ 256 := by
  rw [words_limbs, arrayBigToScalar_digits]

-- The Proof of One Key

variable {hash : NodeValue12 → NodeKey} {db : Db}

/- The proof elements along a key, from depth `d` down. -/
def pathProof (hash : NodeValue12 → NodeKey) (k : NodeKey) : Nat → Tree → List Bytes
  | _, .empty => []
  | d, .leaf key value =>
      [((scheme hash).leafNode d key value).proofBytes, value.bytes]
  | d, .branch left right =>
      (branchNode
        ((scheme hash).root (d + 1) left) ((scheme hash).root (d + 1) right)).proofBytes ::
        if k.pathBit d then pathProof hash k (d + 1) right
        else pathProof hash k (d + 1) left

/- The state of the proof builder for a single path. -/
abbrev Builder := RetainList × List SMTProofElement

/- What the builder adds for the key at one node: nothing off the path of the key. -/
theorem proofAction_spec {k : NodeKey} {st : Builder} (path : List Bool) (ky : NodeKey)
    (v : NodeValue12) (hLone : st.1.Lone k.getPath) :
    ∃ goOn st', proofAction db path ky v st = .ok (goOn, st') ∧ st'.1.Lone k.getPath ∧
        (path <+: k.getPath → goOn = !v.isFinalNode) ∧
        filterProofs st'.2 k = filterProofs st.2 k ++
          if path <+: k.getPath then
            v.proofBytes ::
              if v.isFinalNode then [(db.get v.get4to8).getNodeValue8.bytes] else []
          else [] := by
  rw [proofAction]
  dsimp only
  by_cases hPath : path <+: k.getPath
  · rw [if_pos (hLone.retain_of_isPrefix hPath)]
    cases v.isFinalNode with
    | false => exact ⟨_, _, rfl, hLone.retain path, by simp, by simp [filterProofs, hPath]⟩
    | true => exact ⟨_, _, rfl, hLone.retain path, by simp, by simp [filterProofs, hPath]⟩
  · split_ifs <;>
      exact ⟨_, _, rfl, hLone.retain path, by simp [hPath], by simp [filterProofs, hPath]⟩

/- Along the key the builder adds the proof of the key, and elsewhere nothing for it. -/
theorem visit_proofAction {k : NodeKey} {t : Tree} {path : List Bool} {st : Builder} {d : Nat}
    (hDepth : path.length = d) (hLone : st.1.Lone k.getPath) (hHeight : d + t.height ≤ 256)
    (hStored : (scheme hash).Stored db.nodes d t) :
    ∃ st', visit hash (proofAction db) path t st = .ok st' ∧ st'.1.Lone k.getPath ∧
        filterProofs st'.2 k = filterProofs st.2 k ++
          if path <+: k.getPath then pathProof hash k d t else [] := by
  induction t generalizing path st d with
  | empty => exact ⟨st, rfl, hLone, by simp [pathProof]⟩
  | leaf key value =>
    subst hDepth
    have hNode :
        ((scheme hash).leafNode path.length key value).get4to8 = hash (valueNode value) := rfl
    rcases proofAction_spec path _ ((scheme hash).leafNode path.length key value) hLone with
      ⟨goOn, st', hAction, hLone', _, hProofs⟩
    rw [hNode, get_valueNode hStored] at hProofs
    exact ⟨st', by rw [visit, hAction], hLone', hProofs⟩
  | branch left right ihLeft ihRight =>
    rw [Trie.Tree.height] at hHeight
    have hNext : ∀ bit, (path ++ [bit]).length = d + 1 := by simp [hDepth]
    rcases proofAction_spec path _ (branchNode ((scheme hash).root (d + 1) left)
      ((scheme hash).root (d + 1) right)) hLone with ⟨goOn, st₁, hAction, hLone₁, hGoOn, hFirst⟩
    rw [NodeValue12.isFinalNode_branchNode] at hGoOn hFirst
    cases goOn with
    | false =>
      have hOff : ¬ path <+: k.getPath := fun hPath => by cases hGoOn hPath
      refine ⟨st₁, by rw [visit, hDepth, hAction], hLone₁, ?_⟩
      rw [hFirst, if_neg hOff, if_neg hOff]
    | true =>
      rcases @ihLeft (path ++ [false]) st₁ _ (hNext false) hLone₁ (by omega) hStored.left with
        ⟨st₂, hVisit₂, hLone₂, hSecond⟩
      rcases @ihRight (path ++ [true]) st₂ _ (hNext true) hLone₂ (by omega) hStored.right with
        ⟨st₃, hVisit₃, hLone₃, hThird⟩
      refine ⟨st₃, ?_, hLone₃, ?_⟩
      · rw [visit, hDepth, hAction]
        dsimp only
        rw [hVisit₂]
        exact hVisit₃
      · rw [hThird, hSecond, hFirst]
        by_cases hPath : path <+: k.getPath
        · -- Only the side of the key is on its path.
          have hGoes : ∀ bit, path ++ [bit] <+: k.getPath ↔ bit = k.pathBit d := by
            intro bit
            rw [NodeKey.append_isPrefix_getPath_iff hPath (by omega), hDepth]
          simp only [hGoes, hPath, pathProof, if_true]
          cases k.pathBit d <;> simp
        · have hOff : ∀ bit, ¬ path ++ [bit] <+: k.getPath :=
            fun bit hBelow => hPath ((List.prefix_append _ _).trans hBelow)
          simp [hOff, hPath]

theorem filterProofs_buildProofs {m : Entries} (hRecords : db.Records hash m)
    (hNonzero : Nonzero hash m) (k : NodeKey) (minLength : Nat) :
    ∃ proofs steps, (∀ fuel ≥ steps,
          buildProofs db (RetainList.new minLength [k.getPath]) fuel = some (.ok proofs)) ∧
        filterProofs proofs k = pathProof hash k 0 (canonical m) := by
  have hHeight := height_canonical_le m
  rcases
    traverse_root hRecords hNonzero (proofAction db) (RetainList.new minLength [k.getPath], []) with
    ⟨steps, hRun⟩
  rcases
    @visit_proofAction hash db k (canonical m) [] (RetainList.new minLength [k.getPath], []) 0
      rfl (RetainList.lone_new minLength k.getPath) (by omega) hRecords.stored with
    ⟨st', hVisit, _, hProofs⟩
  rw [if_pos List.nil_prefix] at hProofs
  refine ⟨st'.2, steps, fun fuel hFuel => ?_, hProofs⟩
  rw [buildProofs, hRun fuel hFuel, hVisit]
  rfl

-- Completeness

/- What the proof of a key shows about it. -/
def pathVerdict (hash : NodeValue12 → NodeKey) (k : NodeKey) : Tree → Verdict
  | .leaf key value =>
      if key = k then .found (hash (valueNode value))
      else .absent
  | _ => .absent

/- A part of the tree on the path of a key, at depth `d`. -/
structure OnPath (k : NodeKey) (d : Nat) (t : Tree) : Prop where
  proper : Trie.Tree.Proper NodeKey.pathBit d t
  agree : ∀ key value, Trie.Tree.Mem key value t → ∀ i < d, key.pathBit i = k.pathBit i
  height : d + t.height ≤ 256

theorem onPath_canonical (m : Entries) (k : NodeKey) :
    OnPath k 0 (canonical m) where
  proper := canonical_proper m
  agree := fun _ _ _ i hi => absurd hi (Nat.not_lt_zero i)
  height := by
    have hHeight := height_canonical_le m
    omega

namespace OnPath

variable {k : NodeKey} {d : Nat} {left right : Tree}

theorem depth_lt (hOn : OnPath k d (.branch left right)) : d < 256 := by
  have hHeight := hOn.height
  rw [Trie.Tree.height] at hHeight
  omega

/- One level further down on the side of the key. -/
theorem child (hOn : OnPath k d (.branch left right)) :
    OnPath k (d + 1) (if k.pathBit d then right else left) := by
  have hHeight := hOn.height
  have hLess := Trie.Tree.height_side (k.pathBit d) left right
  have hSide := hOn.proper.halves.onPath hOn.agree
  exact ⟨hSide.proper, hSide.agree, by omega⟩

end OnPath

/- The branch's child on the side of the key, as a hash. -/
theorem child_branchNode_root (hash : NodeValue12 → NodeKey) (d : Nat) (bit : Bool)
    (left right : Tree) :
    (branchNode ((scheme hash).root d left) ((scheme hash).root d right)).child bit =
      (scheme hash).root d (if bit then right else left) := by
  cases bit <;> rfl

theorem root_eq_zero_iff {d : Nat} {t : Tree}
    (hNonzero : ∀ n ∈ (scheme hash).nodes d t, hash n ≠ NodeKey.zero) :
    ((scheme hash).root d t).isZero = true ↔ t = .empty := by
  rw [NodeKey.isZero_iff]
  cases t with
  | empty => exact iff_of_true rfl rfl
  | leaf key value => exact iff_of_false (hNonzero _ (Or.inl rfl)) (by simp)
  | branch left right => exact iff_of_false (hNonzero _ (Or.inl rfl)) (by simp)

/- The verifier follows the proof of a key to its end. -/
theorem verifyLoop_pathProof {k : NodeKey} {t : Tree} (up : List Frame) (hOn : OnPath k up.length t)
    (hNonzero : ∀ n ∈ (scheme hash).nodes up.length t, hash n ≠ NodeKey.zero) (hSome : t ≠ .empty) :
    verifyLoop hash k up.length ((scheme hash).root up.length t) (pathProof hash k up.length t) =
      .ok (pathVerdict hash k (Trie.focus NodeKey.pathBit k up t).2) := by
  induction t using Trie.Tree.side_induction generalizing up with
  | empty => exact absurd rfl hSome
  | leaf key value =>
    have hHeight := hOn.height
    have hNode : proofNode ((scheme hash).leafNode up.length key value).proofBytes =
        leafNode (key.removeKeyBits up.length) (hash (valueNode value)) := proofNode_leafNode _ _
    have hStep := @verifyLoop_leaf hash k _ _ _ [value.bytes] _ hNode (by omega)
      (hOn.agree key value ⟨rfl, rfl⟩)
    rw [hNode] at hStep
    exact hStep
  | branch left right ih =>
    have hNode := proofNode_branchNode ((scheme hash).root (up.length + 1) left)
      ((scheme hash).root (up.length + 1) right)
    have hStep := fun rest => @verifyLoop_branch hash k up.length _ rest _ _ hNode
      (length_proofBytes_branchNode _ _).ge hOn.depth_lt
    simp only [hNode, child_branchNode_root] at hStep
    have hChild :
        ∀ n ∈ (scheme hash).nodes (up.length + 1) (if k.pathBit up.length then right else left),
          hash n ≠ NodeKey.zero :=
      fun n hn => hNonzero n (Trie.Scheme.nodes_side hn)
    rw [pathProof, Trie.focus_branch]
    refine (hStep _).trans ?_
    by_cases hEmpty : (if k.pathBit up.length then right else left) = .empty
    · rw [if_pos ((root_eq_zero_iff hChild).mpr hEmpty), hEmpty]
      rfl
    · rw [if_neg (mt (root_eq_zero_iff hChild).mp hEmpty),
        ← ih (k.pathBit up.length) (_ :: up) hOn.child hChild hEmpty]
      cases k.pathBit up.length <;> rfl

/- A map of 256-bit values, as the tree stores them. -/
def scalarEntries (m : NodeKey → Option (BitVec 256)) : Entries :=
  fun k => (m k).map (fun scalar => limbs scalar.toNat)

theorem bytes_limbs (scalar : BitVec 256) :
    (limbs scalar.toNat).bytes = Bytes.ofNat scalar.toNat := by
  rw [Value.bytes, arrayBigToScalar_limbs, Nat.mod_eq_of_lt scalar.isLt]

/- A proof that leads to a leaf ends with the leaf's value. -/
theorem pathProof_getLast? {k key : NodeKey} {t : Tree} {value : Value} (up : List Frame)
    (hTip : (Trie.focus NodeKey.pathBit k up t).2 = .leaf key value) :
    (pathProof hash k up.length t).getLast? = some value.bytes := by
  induction t using Trie.Tree.side_induction generalizing up with
  | empty => cases hTip
  | leaf key' value' =>
    cases hTip
    rfl
  | branch left right ih =>
    rw [Trie.focus_branch] at hTip
    have hLast := ih (k.pathBit up.length) (_ :: up) hTip
    rw [pathProof, List.getLast?_cons]
    cases hBit : k.pathBit up.length <;> rw [hBit] at hLast <;>
      exact congrArg (fun o => some (Option.getD o _)) hLast

theorem pathProof_ne_nil {t : Tree} (k : NodeKey) (d : Nat) (hSome : t ≠ .empty) :
    pathProof hash k d t ≠ [] := by
  cases t with
  | empty => exact absurd rfl hSome
  | leaf key value => exact List.cons_ne_nil _ _
  | branch left right => exact List.cons_ne_nil _ _

def sampleScalars : NodeKey → Option (BitVec 256) :=
  Function.update (fun _ => none) (sampleKey 0) (some 1)

theorem scalarEntries_sampleScalars :
    scalarEntries sampleScalars = entriesAfter noEntries [(sampleKey 0, sampleValue 1)] := by
  funext k
  rw [scalarEntries, sampleScalars, entriesAfter, entriesAfter]
  by_cases hKey : k = sampleKey 0
  · rw [hKey, Function.update_self, Function.update_self]
    decide +kernel
  · rw [Function.update_of_ne hKey, Function.update_of_ne hKey]
    rfl

end XLayerErigon.Smt
