import XLayerErigon.Smt.Proof

/-
  What an accepted proof shows, whoever made it.

  Against the root of a map the verifier can only be led along the nodes of the map's own tree, so
  it never gives a wrong value for want of a check on the nodes.  It does not check the length of
  the elements it reads, and it hashes only the low 256 bits of the value it returns.

  Main results:
    * `verifyLoop_spec`
    * `verifyAndGetVal_sound_iff`
-/

namespace XLayerErigon.Smt

variable {hash : NodeValue12 → NodeKey}

-- Soundness and its Condition

/-
  An error is always sound.  A value has to be the stored one as a number, and no value means that
  none is stored.
-/
def Sound (m : Entries) (k : NodeKey) : Except Failure (Option Bytes) → Prop
  | .error .panic => False
  | .error (.error _) => True
  | .ok none => m k = none
  | .ok (some bytes) =>
      ∃ value, m k = some value ∧ bytes.toNat = arrayBigToScalar value.words

/-
  Every element that is looked at has 64 bytes or more.  An element is looked at when the ones
  before it are the nodes of the tree on the way to the key.  If they lead to the leaf of the key
  and the low 256 bits of the last element are the stored value, then it has no other bits.
-/
def WellSized (hash : NodeValue12 → NodeKey) (k : NodeKey)
    (last : Bytes) : Nat → Tree → List Bytes → Prop
  | _, _, [] => True
  | _, .empty, element :: _ => 64 ≤ element.length
  | d, .leaf key value, element :: _ =>
      64 ≤ element.length ∧
        (proofNode element =
            (scheme hash).leafNode d key value →
          key = k → limbs last.toNat = value → last.toNat < 2 ^ 256)
  | d, .branch left right, element :: rest =>
      64 ≤ element.length ∧
        (proofNode element =
            branchNode ((scheme hash).root (d + 1) left) ((scheme hash).root (d + 1) right) →
          (if k.pathBit d then right else left) ≠ .empty →
            WellSized hash k last (d + 1) (if k.pathBit d then right else left) rest)

def proofNodes (proof : List Bytes) : Set NodeValue12 :=
  {n | ∃ element ∈ proof, n = proofNode element} ∪ {valueNode (limbs (proof.getLastD []).toNat)}

theorem WellSized.length {k : NodeKey} {last element : Bytes} {d : Nat} {t : Tree}
    {rest : List Bytes} (hFits : WellSized hash k last d t (element :: rest)) :
    64 ≤ element.length := by
  cases t with
  | empty => exact hFits
  | leaf key value => exact hFits.1
  | branch left right => exact hFits.1

-- The Walk along Any Proof

/- How the walk along a proof can end, and when it fits. -/
inductive Walked (hash : NodeValue12 → NodeKey)
    (k : NodeKey) (last : Bytes) (tip : Tree) (fits : Prop) : Except Failure Verdict → Prop
  | rejected (message : String) (hFits : fits) :
      Walked hash k last tip fits (.error (.error message))
  | panicked (hFits : ¬ fits) :
      Walked hash k last tip fits (.error .panic)
  | absent (hTip : ∀ value, tip ≠ .leaf k value) (hFits : fits) :
      Walked hash k last tip fits (.ok .absent)
  | found (value : Value) (hTip : tip = .leaf k value)
      (hFits : fits ↔ (limbs last.toNat = value → last.toNat < 2 ^ 256)) :
      Walked hash k last tip fits (.ok (.found (hash (valueNode value))))

/-
  The walk, by induction on the proof.  Without collisions an element that passes the hash check
  is the node of the tree, so the walk stays on the path of the key.
-/
theorem verifyLoop_spec {A : Set NodeValue12} {k : NodeKey} {last : Bytes} {t : Tree}
    (up : List Frame) (proof : List Bytes) (hFree : (scheme hash).CollisionFree A)
    (hTree : (scheme hash).nodes up.length t ⊆ A)
    (hProof : ∀ element ∈ proof, proofNode element ∈ A) (hOn : OnPath k up.length t) :
    Walked hash k last (Trie.focus NodeKey.pathBit k up t).2
      (WellSized hash k last up.length t proof)
      (verifyLoop hash k up.length ((scheme hash).root up.length t) proof) := by
  induction proof generalizing up t with
  | nil =>
    rw [verifyLoop]
    exact .rejected _ (by rw [WellSized]; trivial)
  | cons element rest ih =>
    have hElement := hProof element List.mem_cons_self
    by_cases hShort : element.length < 64
    · rw [verifyLoop_short hShort]
      exact .panicked (fun hFits => absurd hFits.length (by omega))
    have hLong : 64 ≤ element.length := by omega
    by_cases hRoot : (scheme hash).root up.length t = hash (proofNode element)
    case neg =>
      rw [verifyLoop_mismatch hShort hRoot]
      refine .rejected _ ?_
      cases t with
      | empty => exact hLong
      | leaf | branch => exact ⟨hLong, fun hNode => absurd (congrArg hash hNode).symm hRoot⟩
    cases t with
    | empty => exact absurd hRoot (hFree.ne_zero _ hElement).symm
    | leaf key value =>
      have hNode : (scheme hash).leafNode up.length key value = proofNode element :=
        hFree.injOn (hTree (Or.inl rfl)) hElement hRoot
      have hLeaf : proofNode element =
          leafNode (key.removeKeyBits up.length) (hash (valueNode value)) := hNode.symm
      have hHeight := hOn.height
      rw [hRoot, verifyLoop_leaf hLeaf (by omega) (hOn.agree key value ⟨rfl, rfl⟩), WellSized]
      by_cases hEq : key = k
      · rw [if_pos hEq]
        refine .found value (by rw [← hEq]; rfl) ⟨?_, ?_⟩
        · exact fun hFits => hFits.2 hLeaf hEq
        · exact fun hLast => ⟨hLong, fun _ _ => hLast⟩
      · rw [if_neg hEq]
        refine .absent ?_ ?_
        · intro value' hTip
          injection hTip with hTipKey
          exact hEq hTipKey
        · exact ⟨hLong, fun _ hEq' => absurd hEq' hEq⟩
    | branch left right =>
      have hNode :
          branchNode ((scheme hash).root (up.length + 1) left)
              ((scheme hash).root (up.length + 1) right) =
            proofNode element :=
        hFree.injOn (hTree (Or.inl rfl)) hElement hRoot
      have hChild : (scheme hash).nodes (up.length + 1)
              (if k.pathBit up.length then right else left) ⊆ A :=
        fun n hn => hTree (Trie.Scheme.nodes_side hn)
      have hZeroIff := @root_eq_zero_iff hash _ _ (fun n hn => hFree.ne_zero n (hChild hn))
      rw [hRoot, verifyLoop_branch hNode.symm hLong hOn.depth_lt, child_branchNode_root,
        Trie.focus_branch]
      by_cases hEmpty : (if k.pathBit up.length then right else left) = .empty
      · rw [if_pos (hZeroIff.mpr hEmpty)]
        refine .absent ?_ ⟨hLong, fun _ hNe => absurd hEmpty hNe⟩
        rw [hEmpty]
        intro value hTip
        cases hTip
      · have hFits : WellSized hash k last up.length (.branch left right) (element :: rest) =
              WellSized hash k last (up.length + 1)
                (if k.pathBit up.length then right else left) rest :=
          propext ⟨fun hFits => hFits.2 hNode.symm hEmpty, fun hRest => ⟨hLong, fun _ _ => hRest⟩⟩
        rw [if_neg (hZeroIff.not.mpr hEmpty), hFits]
        exact ih (_ :: up) hChild (fun element' hMem =>
          hProof element' (List.mem_cons_of_mem _ hMem)) hOn.child

-- Soundness

/- The value that is returned for the leaf of a present key. -/
theorem verifyValue_sound_iff {A : Set NodeValue12} {m : Entries} {k : NodeKey} {value : Value}
    {last : Bytes} (level : Nat) (hFree : (scheme hash).CollisionFree A)
    (hValue : valueNode value ∈ A) (hLast : valueNode (limbs last.toNat) ∈ A)
    (hEntry : m k = some value) :
    Sound m k (verifyValue hash level last (hash (valueNode value))) ↔
      (limbs last.toNat = value → last.toNat < 2 ^ 256) := by
  have hSame :
      hash (valueNode (limbs last.toNat)) = hash (valueNode value) ↔ limbs last.toNat = value := by
    constructor
    · intro hHash
      have hNode := hFree.injOn hLast hValue hHash
      exact congrArg NodeValue12.getNodeValue8 hNode
    · exact fun hEq => by rw [hEq]
  rw [verifyValue]
  by_cases hEq : limbs last.toNat = value
  · rw [if_neg (fun hNe => hNe (hSame.mpr hEq)), Sound]
    constructor
    · rintro ⟨value', hEntry', hScalar⟩ _
      rw [hEntry, Option.some.injEq] at hEntry'
      rw [← hEntry', ← hEq, arrayBigToScalar_limbs] at hScalar
      rw [hScalar]
      exact Nat.mod_lt _ (by decide)
    · intro hBound
      refine ⟨value, hEntry, ?_⟩
      rw [← hEq, arrayBigToScalar_limbs, Nat.mod_eq_of_lt (hBound hEq)]
  · have hNe :
        hash (valueNode (scalarToArrayBig last.toNat).toUintArray) ≠ hash (valueNode value) :=
      fun hHash => hEq (hSame.mp hHash)
    rw [if_pos hNe]
    exact iff_of_true trivial (fun hEq' => absurd hEq' hEq)

/-
  Against the root of a map, the verifier is sound for a proof exactly when the proof is well
  sized.
-/
theorem verifyAndGetVal_sound_iff (hash : NodeValue12 → NodeKey) (m : Entries) (k : NodeKey)
    (proof : List Bytes)
    (hFree : (scheme hash).CollisionFree (canonicalNodes hash m ∪ proofNodes proof)) :
    Sound m k (verifyAndGetVal hash (canonicalRoot hash m) proof k) ↔
      WellSized hash k (proof.getLastD []) 0 (canonical m) proof := by
  have hWalk := walk_canonical m k
  have hLoop : Walked hash k (proof.getLastD []) _
        (WellSized hash k (proof.getLastD []) 0 (canonical m) proof)
        (verifyLoop hash k 0 (canonicalRoot hash m) proof) :=
    verifyLoop_spec [] proof hFree (fun n hn => Or.inl hn)
      (fun element hMem => Or.inr (Or.inl ⟨element, hMem, rfl⟩)) (onPath_canonical m k)
  rw [verifyAndGetVal]
  by_cases hNil : proof = []
  · rw [if_pos hNil, hNil]
    exact iff_of_true trivial trivial
  · rw [if_neg hNil]
    revert hLoop
    generalize verifyLoop hash k 0 (canonicalRoot hash m) proof = result
    intro hLoop
    cases hLoop with
    | rejected message hFits => exact iff_of_true trivial hFits
    | panicked hFits => exact iff_of_false id hFits
    | absent hTip hFits => exact iff_of_true (hWalk.absent hTip) hFits
    | found value hTip hFits =>
      rw [hFits]
      rw [hTip] at hWalk
      have hEntry := hWalk.entry
      exact
        verifyValue_sound_iff _ hFree
          (Or.inl (Trie.Scheme.valueNode_mem_nodes 0 (mem_canonical_iff.mpr hEntry)))
          (Or.inr (Or.inr rfl)) hEntry

/- The proof of the key 0 in the tree of that key alone. -/
def sampleProof : List Bytes :=
  [(leafNode (sampleKey 0) (sampleHash (valueNode (sampleValue 1).toUintArray))).proofBytes, [1]]

theorem collisionFree_sampleProof :
    (scheme sampleHash).CollisionFree
      (canonicalNodes sampleHash (entriesAfter noEntries [(sampleKey 0, sampleValue 1)]) ∪
        proofNodes sampleProof) := by
  apply collisionFree_sampleNodes.mono
  rintro n (hn | ⟨element, hElement, rfl⟩ | rfl)
  · exact mem_sampleNodes 1 hn
  · rcases List.mem_pair.mp hElement with rfl | rfl
    · decide +kernel
    · decide +kernel
  · decide +kernel

theorem verifyAndGetVal_sound_iff_sample :
    (scheme sampleHash).CollisionFree
        (canonicalNodes sampleHash (entriesAfter noEntries [(sampleKey 0, sampleValue 1)]) ∪
          proofNodes sampleProof) ∧
      (Sound (entriesAfter noEntries [(sampleKey 0, sampleValue 1)]) (sampleKey 0)
          (verifyAndGetVal sampleHash
            (canonicalRoot sampleHash (entriesAfter noEntries [(sampleKey 0, sampleValue 1)]))
            sampleProof (sampleKey 0)) ↔
        WellSized sampleHash (sampleKey 0) (sampleProof.getLastD []) 0
          (canonical (entriesAfter noEntries [(sampleKey 0, sampleValue 1)])) sampleProof) :=
  ⟨collisionFree_sampleProof,
    verifyAndGetVal_sound_iff sampleHash (entriesAfter noEntries [(sampleKey 0, sampleValue 1)])
      (sampleKey 0) sampleProof collisionFree_sampleProof⟩

/-
  An empty element makes the verifier panic, and `2 ^ 256` more than the stored value is accepted
  and returned.
-/
theorem verifyAndGetVal_not_sound :
    ¬ Sound (entriesAfter noEntries [(sampleKey 0, sampleValue 1)]) (sampleKey 0)
        (verifyAndGetVal sampleHash
          (canonicalRoot sampleHash (entriesAfter noEntries [(sampleKey 0, sampleValue 1)]))
          [[]] (sampleKey 0)) ∧
      ¬ Sound (entriesAfter noEntries [(sampleKey 0, sampleValue 1)]) (sampleKey 0)
        (verifyAndGetVal sampleHash
          (canonicalRoot sampleHash (entriesAfter noEntries [(sampleKey 0, sampleValue 1)]))
          [sampleProof.headD [], 1 :: Bytes.fill 32 1] (sampleKey 0)) := by
  have hRoot : canonicalRoot sampleHash (entriesAfter noEntries [(sampleKey 0, sampleValue 1)]) =
        (scheme sampleHash).root 0 (.leaf (sampleKey 0) (sampleValue 1).toUintArray) := by
    rw [canonicalRoot, entriesAfter, entriesAfter, canonical_update_noEntries (by decide)]
  have hRun := @exists_ok_of_toOption _ _
      (verifyAndGetVal sampleHash
        ((scheme sampleHash).root 0 (.leaf (sampleKey 0) (sampleValue 1).toUintArray))
        [sampleProof.headD [], 1 :: Bytes.fill 32 1] (sampleKey 0))
      id (some (1 :: Bytes.fill 32 1)) (by decide +kernel)
  rcases hRun with ⟨result, hRun, rfl⟩
  constructor
  · exact id
  · rw [hRoot, hRun]
    rintro ⟨value, hEntry, hScalar⟩
    have hStored : entriesAfter noEntries [(sampleKey 0, sampleValue 1)] (sampleKey 0) =
          some (sampleValue 1).toUintArray := by
      decide +kernel
    rw [hStored, Option.some.injEq] at hEntry
    rw [← hEntry] at hScalar
    exact absurd hScalar (by decide +kernel)

end XLayerErigon.Smt
