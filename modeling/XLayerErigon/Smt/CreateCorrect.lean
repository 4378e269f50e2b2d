import XLayerErigon.Smt.Create
import XLayerErigon.Smt.InsertCorrect
import XLayerErigon.Trie.Sorted

/-
  The tree in memory while the tree is built at once.

  The tree in memory stands for the trie of the keys so far, except that finished left parts are
  already hashed and saved.  Deleting it gives the root of the trie, and a key that comes later
  finds the end of its own path in it.

  Main results:
    * `sortNodeKeysBitwiseAsc_pairwise`
    * `deleteTreeNoSave_spec`
    * `findLastNode_spec`
-/

namespace XLayerErigon.Smt

-- Sorted Keys

theorem bitwiseLess_total (a b : List Bool) : (bitwiseLess a b || bitwiseLess b a) = true := by
  induction a generalizing b with
  | nil => rfl
  | cons aBit a ih =>
    cases b with
    | nil => rfl
    | cons bBit b =>
      by_cases hBit : aBit = bBit
      · rw [bitwiseLess, bitwiseLess, if_neg (by simpa), if_neg (by simpa using Eq.symm hBit)]
        exact ih b
      · rw [bitwiseLess, bitwiseLess, if_pos hBit, if_pos (Ne.symm hBit)]
        cases aBit <;> cases bBit <;> simp_all

theorem bitwiseLess_iff {a b : List Bool} (hLength : a.length = b.length) :
    bitwiseLess a b = true ↔
      a = b ∨ ∃ i : Nat, (∀ j < i, a[j]? = b[j]?) ∧ a[i]? = some false ∧ b[i]? = some true := by
  induction a generalizing b with
  | nil =>
    rw [List.length_eq_zero_iff.mp hLength.symm]
    simp [bitwiseLess]
  | cons aBit a ih =>
    cases b with
    | nil => cases hLength
    | cons bBit b =>
      -- The first bits decide, or are equal and leave the rest to decide.
      rw [← Nat.or_exists_add_one]
      simp only [Nat.forall_lt_succ_left, List.getElem?_cons_zero, List.getElem?_cons_succ,
        Option.some.injEq, List.cons.injEq]
      by_cases hBit : aBit = bBit
      · rw [bitwiseLess, if_neg (by simpa), ih (Nat.succ.inj hLength)]
        cases aBit <;> simp [← hBit]
      · rw [bitwiseLess, if_pos hBit]
        simp [hBit]

theorem NodeKey.pathBit_of_le (k : NodeKey) {j : Nat} (hj : 256 ≤ j) : k.pathBit j = false := by
  rw [pathBit]
  exact BitVec.getLsbD_of_ge _ _ (by omega)

theorem bitwiseLess_getPath_iff (k k' : NodeKey) :
    bitwiseLess k.getPath k'.getPath = true ↔ k = k' ∨ Trie.Before NodeKey.pathBit k k' := by
  have hAt : ∀ (k : NodeKey) j bit, j < 256 → (k.getPath[j]? = some bit ↔ k.pathBit j = bit) := by
    intro k j bit hj
    rw [NodeKey.getPath_getElem? k hj, Option.some.injEq]
  rw [bitwiseLess_iff (by simp)]
  constructor
  · rintro (hEq | ⟨i, hSame, hFalse, hTrue⟩)
    · left
      have hKey := NodeKey.nodeKeyFromPath_getPath k
      rw [hEq, NodeKey.nodeKeyFromPath_getPath] at hKey
      exact (Except.ok.inj hKey).symm
    · have hi : i < 256 := by
        have hSome := List.getElem?_eq_some_iff.mp hFalse
        simpa using hSome.1
      refine Or.inr ⟨i, ?_, (hAt k i _ hi).mp hFalse, (hAt k' i _ hi).mp hTrue⟩
      intro j hj
      have hBoth := hSame j hj
      rw [NodeKey.getPath_getElem? k (by omega), NodeKey.getPath_getElem? k' (by omega)] at hBoth
      exact Option.some.inj hBoth
  · rintro (rfl | ⟨i, hSame, hFalse, hTrue⟩)
    · exact Or.inl rfl
    · have hi : i < 256 := by
        by_contra hGe
        rw [NodeKey.pathBit_of_le k' (by omega)] at hTrue
        cases hTrue
      refine Or.inr ⟨i, ?_, (hAt k i _ hi).mpr hFalse, (hAt k' i _ hi).mpr hTrue⟩
      intro j hj
      rw [NodeKey.getPath_getElem? k (by omega), NodeKey.getPath_getElem? k' (by omega), hSame j hj]

/- The sorted list has the same keys, each before the next. -/
theorem sortNodeKeysBitwiseAsc_perm (keys : List NodeKey) :
    (sortNodeKeysBitwiseAsc keys).Perm keys :=
  List.mergeSort_perm keys _

theorem sortNodeKeysBitwiseAsc_pairwise {keys : List NodeKey} (hDistinct : keys.Nodup) :
    (sortNodeKeysBitwiseAsc keys).Pairwise (Trie.Before NodeKey.pathBit) := by
  have hSorted : (sortNodeKeysBitwiseAsc keys).Pairwise
        (fun a b => bitwiseLess a.getPath b.getPath = true) := by
    apply List.pairwise_mergeSort
    · intro a b c hFirst hSecond
      rw [bitwiseLess_getPath_iff] at hFirst hSecond ⊢
      rcases hFirst with rfl | hFirst
      · exact hSecond
      · rcases hSecond with rfl | hSecond
        · exact Or.inr hFirst
        · exact Or.inr (hFirst.trans hSecond)
    · intro a b
      exact bitwiseLess_total _ _
  have hNodup := (sortNodeKeysBitwiseAsc_perm keys).nodup_iff.mpr hDistinct
  refine (hSorted.and hNodup).imp ?_
  rintro a b ⟨hLess, hNe⟩
  rw [bitwiseLess_getPath_iff] at hLess
  exact hLess.resolve_left hNe

-- The Tree in Memory

/-
  A node in memory at depth `d` stands for a trie.  A node whose left part is deleted keeps the
  hash of a subtree that is completely stored, and has something on its right.
-/
inductive Depicts (hash : NodeValue12 → NodeKey)
    (store : NodeKey → Option NodeValue12) (vals : NodeKey → Option NodeValue8) :
    Nat → Tree → SmtNode → Prop
  | empty (d : Nat) :
      Depicts hash store vals d .empty .nil
  | leaf (d : Nat) (key : NodeKey) (v : NodeValue8) (hVal : vals key = some v) :
      Depicts hash store vals d (.leaf key v.toUintArray) (SmtNode.leaf (key.getPath.drop d))
  | inner (d : Nat) (left right : Tree) (node0 node1 : SmtNode)
      (hLeft : Depicts hash store vals (d + 1) left node0)
      (hRight : Depicts hash store vals (d + 1) right node1) :
      Depicts hash store vals d (.branch left right) (.node [] NodeKey.zero node0 node1)
  | half (d : Nat) (left right : Tree) (node1 : SmtNode)
      (hStored : (scheme hash).Stored store (d + 1) left) (hSome : right ≠ .empty)
      (hRight : Depicts hash store vals (d + 1) right node1) :
      Depicts hash store vals d (.branch left right)
        (.node [] ((scheme hash).root (d + 1) left) .nil node1)

variable {hash : NodeValue12 → NodeKey} {store store' : NodeKey → Option NodeValue12}
  {vals vals' : NodeKey → Option NodeValue8} {d : Nat} {t left right : Tree} {n : SmtNode}

namespace Depicts

theorem isNil_iff (hRep : Depicts hash store vals d t n) : n.isNil = true ↔ t = .empty := by
  cases hRep with
  | empty => exact iff_of_true rfl rfl
  | leaf _ key v hVal => exact iff_of_false Bool.false_ne_true (by simp)
  | inner _ _ _ node0 node1 hLeft hRight => exact iff_of_false Bool.false_ne_true (by simp)
  | half _ _ _ node1 hStored hSome hRight => exact iff_of_false Bool.false_ne_true (by simp)

theorem ne_empty (hRep : Depicts hash store vals d t n) (hSome : n.isNil = false) : t ≠ .empty := by
  intro hEmpty
  rw [hRep.isNil_iff.mpr hEmpty] at hSome
  cases hSome

theorem eq_nil (hRep : Depicts hash store vals d .empty n) : n = .nil := by
  cases hRep
  rfl

theorem isLeaf_leaf {key : NodeKey} {value : Value}
    (hRep : Depicts hash store vals d (.leaf key value) n) :
    n = SmtNode.leaf (key.getPath.drop d) ∧ n.isLeaf = true := by
  cases hRep with
  | leaf _ _ v hVal => exact ⟨rfl, NodeKey.isZero_zero⟩

theorem isLeaf_of_children {rKey : List Bool} {h : NodeKey} {node0 node1 : SmtNode}
    (hSome : node0.isNil = false ∨ node1.isNil = false) :
    (SmtNode.node rKey h node0 node1).isLeaf = false := by
  cases node0 with
  | nil =>
    cases node1 with
    | nil => rcases hSome with hSome | hSome <;> cases hSome
    | node _ _ _ _ => rfl
  | node _ _ _ _ => rfl

theorem isLeaf_branch (hRep : Depicts hash store vals d (.branch left right) n)
    (hSome : left ≠ .empty ∨ right ≠ .empty) : n.isLeaf = false := by
  cases hRep with
  | inner _ _ _ node0 node1 hLeft hRight =>
    apply isLeaf_of_children
    rw [Bool.eq_false_iff, Bool.eq_false_iff, Ne, Ne, hLeft.isNil_iff, hRight.isNil_iff]
    exact hSome
  | half _ _ _ node1 hStored hSome' hRight =>
    apply isLeaf_of_children
    rw [Bool.eq_false_iff, Bool.eq_false_iff, Ne, Ne, hRight.isNil_iff]
    exact Or.inr hSome'

/- Only the values and the finished nodes matter. -/
theorem mono (hRep : Depicts hash store vals d t n)
    (hVals : ∀ key value, Trie.Tree.Mem key value t → vals' key = vals key)
    (hStore : ∀ node ∈ (scheme hash).doneNodes d t, store (hash node) = some node →
      store' (hash node) = some node) : Depicts hash store' vals' d t n := by
  induction hRep with
  | empty d => exact .empty d
  | leaf d key v hVal =>
    refine .leaf d key v ?_
    rw [hVals key _ ⟨rfl, rfl⟩, hVal]
  | inner d left right node0 node1 hLeft hRight ihL ihR =>
    refine .inner d left right node0 node1 ?_ ?_
    · exact ihL (fun key value hMem => hVals key value (Or.inl hMem)) (fun node hn =>
        hStore node (Trie.Scheme.doneNodes_subset_left _ _ _ hn))
    · exact ihR (fun key value hMem => hVals key value (Or.inr hMem)) (fun node hn =>
        hStore node (Trie.Scheme.doneNodes_subset_right _ _ _ hn))
  | half d left right node1 hStored hSome hRight ihR =>
    refine .half d left right node1 ?_ hSome ?_
    · intro node hn
      refine hStore node ?_ (hStored node hn)
      rw [Trie.Scheme.doneNodes_right d left hSome]
      exact Or.inl hn
    · exact ihR (fun key value hMem => hVals key value (Or.inr hMem)) (fun node hn =>
        hStore node (Trie.Scheme.doneNodes_subset_right _ _ _ hn))

end Depicts

-- Deleting a Tree

/-
  Deleting a subtree gives up the values of its leaves only, and saves those of its nodes that
  were not yet stored.
-/
structure Deleted (hash : NodeValue12 → NodeKey)
    (store : NodeKey → Option NodeValue12) (d : Nat) (t : Tree) (st st' : Deletes) : Prop where
  vals : ∀ key, (∀ value, ¬ Trie.Tree.Mem key value t) → st'.leafValueMap key = st.leafValueMap key
  kvMap : ∃ ns : List NodeValue12, st'.kvMap = st.kvMap ++ ns.map (fun n => (hash n, n)) ∧
      (∀ n ∈ ns, n ∈ (scheme hash).nodes d t) ∧
      ∀ n ∈ (scheme hash).nodes d t, store (hash n) = some n ∨ n ∈ ns

variable {k : NodeKey} {keyPath : List Bool}

theorem deleted_empty (st : Deletes) :
    Deleted hash store d .empty st st where
  vals := fun _ _ => rfl
  kvMap := ⟨[], by simp, by simp, fun n hn => hn.elim⟩

/- The two sides of a branch, and then the branch itself. -/
theorem Deleted.branch {st st₁ st₂ : Deletes} (hLeft : Deleted hash store (d + 1) left st st₁)
    (hRight : Deleted hash store (d + 1) right st₁ st₂) :
    Deleted hash store d (.branch left right) st
      { st₂ with
        kvMap := st₂.kvMap ++
            [(hash (branchNode ((scheme hash).root (d + 1) left)
                ((scheme hash).root (d + 1) right)), branchNode ((scheme hash).root (d + 1) left)
                ((scheme hash).root (d + 1) right))] } where
  vals := by
    intro key hOther
    have hFirst := hLeft.vals key (fun value hMem => hOther value (Or.inl hMem))
    have hSecond := hRight.vals key (fun value hMem => hOther value (Or.inr hMem))
    exact hSecond.trans hFirst
  kvMap := by
    rcases hLeft.kvMap with ⟨ns₁, hEq₁, hIn₁, hAll₁⟩
    rcases hRight.kvMap with ⟨ns₂, hEq₂, hIn₂, hAll₂⟩
    refine
      ⟨ns₁ ++ ns₂ ++
          [branchNode ((scheme hash).root (d + 1) left) ((scheme hash).root (d + 1) right)],
        ?_, ?_, ?_⟩
    · rw [hEq₂, hEq₁, List.map_append, List.map_append, List.append_assoc, List.append_assoc,
        List.append_assoc]
      rfl
    · intro node hn
      simp only [List.mem_append, List.mem_singleton] at hn
      rcases hn with (hn | hn) | hn
      · exact Or.inr (Or.inl (hIn₁ node hn))
      · exact Or.inr (Or.inr (hIn₂ node hn))
      · exact Or.inl hn
    · intro node hn
      simp only [List.mem_append, List.mem_singleton]
      rcases hn with hn | hn | hn
      · exact Or.inr (Or.inr hn)
      · exact (hAll₁ node hn).imp_right (fun hMem => Or.inl (Or.inl hMem))
      · exact (hAll₂ node hn).imp_right (fun hMem => Or.inl (Or.inr hMem))

/- A trie that sits at the end of a path. -/
structure Placed (keyPath : List Bool) (t : Tree) : Prop where
  proper : Trie.Tree.Proper NodeKey.pathBit keyPath.length t
  along : ∀ key value, Trie.Tree.Mem key value t → keyPath <+: key.getPath
  height : keyPath.length + t.height ≤ 256

/- The two sides of a branch at the end of a path. -/
structure Parted (keyPath : List Bool) (left right : Tree) : Prop where
  halves : Trie.Halves NodeKey.pathBit keyPath.length left right
  along : ∀ key value, Trie.Tree.Mem key value (.branch left right) → keyPath <+: key.getPath
  height : keyPath.length + (Trie.Tree.branch left right).height ≤ 256

theorem Placed.parted (hPlaced : Placed keyPath (.branch left right)) : Parted keyPath left right :=
  ⟨hPlaced.proper.halves, hPlaced.along, hPlaced.height⟩

/- The side of a branch is placed one bit further. -/
theorem Parted.side (hParted : Parted keyPath left right) (bit : Bool) :
    Placed (keyPath ++ [bit]) (if bit then right else left) := by
  have hHeight := hParted.height
  have hSide := Trie.Tree.height_side bit left right
  rcases hParted.halves.side bit with ⟨hProper, hBit⟩
  refine ⟨by rwa [List.length_append], ?_, by rw [List.length_append, List.length_singleton]; omega⟩
  intro key value hMem
  rw [NodeKey.append_isPrefix_getPath_iff
    (hParted.along key value (Trie.Tree.mem_side hMem)) (by omega)]
  exact (hBit key value hMem).symm

/- A leaf is hashed with its value under its own key. -/
theorem deleteLeaf_spec {key : NodeKey} {v : NodeValue8} {st : Deletes}
    (hAlong : keyPath <+: key.getPath) (hVal : st.leafValueMap key = some v) :
    ∃ st', deleteLeaf hash keyPath (key.getPath.drop keyPath.length) st =
          .ok ((scheme hash).root keyPath.length (.leaf key v.toUintArray), st') ∧
        Deleted hash store keyPath.length (.leaf key v.toUintArray) st st' := by
  have hPath : keyPath ++ key.getPath.drop keyPath.length = key.getPath :=
    List.prefix_iff_eq_append.mp hAlong
  rw [deleteLeaf, hPath, NodeKey.nodeKeyFromPath_getPath]
  dsimp only
  rw [hVal]
  refine ⟨_, rfl, ?_, ?_⟩
  · intro key' hOther
    have hNe : key' ≠ key := by
      rintro rfl
      exact hOther _ ⟨rfl, rfl⟩
    exact if_neg hNe
  · refine
      ⟨[valueNode v.toUintArray, leafNode (key.removeKeyBits keyPath.length)
        (hash (valueNode v.toUintArray))], rfl, ?_, ?_⟩
    · intro node hn
      rcases List.mem_pair.mp hn with rfl | rfl
      · exact Or.inr rfl
      · exact Or.inl rfl
    · intro node hn
      rcases hn with rfl | rfl
      · exact Or.inr (List.mem_pair.mpr (Or.inr rfl))
      · exact Or.inr (List.mem_pair.mpr (Or.inl rfl))

/- A side that is not there has the hash zero. -/
theorem deleteSide_spec {st : Deletes} (hRep : Depicts hash store st.leafValueMap d t n)
    (hSpec : t ≠ .empty → ∃ st', deleteTreeNoSave hash keyPath n st =
      .ok ((scheme hash).root d t, st') ∧ Deleted hash store d t st st') :
    ∃ st', (if n.isNil then .ok (NodeKey.zero, st)
        else deleteTreeNoSave hash keyPath n st) = .ok ((scheme hash).root d t, st') ∧
        Deleted hash store d t st st' := by
  by_cases hEmpty : t = .empty
  · subst hEmpty
    rw [if_pos (hRep.isNil_iff.mpr rfl)]
    exact ⟨st, rfl, deleted_empty st⟩
  · rw [if_neg (fun hNil => hEmpty (hRep.isNil_iff.mp hNil))]
    exact hSpec hEmpty

/- The right side is still there after the left is deleted. -/
theorem Deleted.rep_right {st st' : Deletes} {node1 : SmtNode}
    (hDeleted : Deleted hash store (d + 1) left st st')
    (hHalves : Trie.Halves NodeKey.pathBit d left right)
    (hRep : Depicts hash store st.leafValueMap (d + 1) right node1) :
    Depicts hash store st'.leafValueMap (d + 1) right node1 := by
  refine hRep.mono ?_ (fun node hn hStored => hStored)
  intro key value hMem
  apply hDeleted.vals
  intro value' hMem'
  have hTrue := hHalves.right_bit key value hMem
  rw [hHalves.left_bit key value' hMem'] at hTrue
  cases hTrue

/- The node of a branch is the last one to be hashed. -/
theorem deleteTreeNoSave_spec {keyPath : List Bool} {st : Deletes} (hDepth : keyPath.length = d)
    (hRep : Depicts hash store st.leafValueMap d t n) (hPlaced : Placed keyPath t)
    (hSome : t ≠ .empty) :
    ∃ st', deleteTreeNoSave hash keyPath n st = .ok ((scheme hash).root d t, st') ∧
        Deleted hash store d t st st' := by
  induction t generalizing n keyPath st d with
  | empty => exact absurd rfl hSome
  | leaf key value =>
    have hLeaf := hRep.isLeaf_leaf.2
    cases hRep with
    | leaf _ _ v hVal =>
      rw [SmtNode.leaf] at hLeaf ⊢
      rw [deleteTreeNoSave, if_pos hLeaf, ← hDepth]
      exact deleteLeaf_spec (hPlaced.along key _ ⟨rfl, rfl⟩) hVal
  | branch left right ihLeft ihRight =>
    have hLeaf := hRep.isLeaf_branch hPlaced.proper.ne_empty
    have hNext : ∀ bit, (keyPath ++ [bit]).length = d + 1 :=
      fun bit => by rw [List.length_append, hDepth, List.length_singleton]
    cases hRep with
    | inner _ _ _ node0 node1 hLeft hRight =>
      rcases deleteSide_spec hLeft (ihLeft (hNext false) hLeft (hPlaced.parted.side false)) with
        ⟨st₁, hRun₁, hDeleted₁⟩
      have hHalves := hPlaced.proper.halves
      rw [hDepth] at hHalves
      have hRight₁ := hDeleted₁.rep_right hHalves hRight
      rcases deleteSide_spec hRight₁ (ihRight (hNext true) hRight₁ (hPlaced.parted.side true)) with
        ⟨st₂, hRun₂, hDeleted₂⟩
      refine ⟨_, ?_, hDeleted₁.branch hDeleted₂⟩
      rw [deleteTreeNoSave, if_neg (by simp [hLeaf]), if_pos NodeKey.isZero_zero, hRun₁]
      dsimp only
      rw [hRun₂]
      rfl
    | half _ _ _ node1 hStored hSome' hRight =>
      have hDeleted₁ : Deleted hash store (d + 1) left st st :=
        ⟨fun _ _ => rfl, [], by simp, by simp, fun node hn => Or.inl (hStored node hn)⟩
      rcases deleteSide_spec hRight (ihRight (hNext true) hRight (hPlaced.parted.side true)) with
        ⟨st₂, hRun₂, hDeleted₂⟩
      refine ⟨_, ?_, hDeleted₁.branch hDeleted₂⟩
      rw [deleteTreeNoSave, if_neg (by simp [hLeaf]), if_pos (by rfl)]
      dsimp only
      rw [hRun₂]
      rfl

-- The Walk to the Last Node

/- A node above a place stands for the frame there. -/
inductive FrameDepicts (hash : NodeValue12 → NodeKey)
    (store : NodeKey → Option NodeValue12) (vals : NodeKey → Option NodeValue8) (d : Nat) :
    Frame → Bool × SmtNode → Prop
  | left (sibling : Tree) (node0 node1 : SmtNode)
      (hRight : Depicts hash store vals (d + 1) sibling node1) :
      FrameDepicts hash store vals d ⟨false, sibling⟩ (false, .node [] NodeKey.zero node0 node1)
  | right (sibling : Tree) (node0 node1 : SmtNode)
      (hLeft : Depicts hash store vals (d + 1) sibling node0) :
      FrameDepicts hash store vals d ⟨true, sibling⟩ (true, .node [] NodeKey.zero node0 node1)
  | half (sibling : Tree) (node1 : SmtNode) (hStored : (scheme hash).Stored store (d + 1) sibling) :
      FrameDepicts hash store vals d ⟨true, sibling⟩
        (true, .node [] ((scheme hash).root (d + 1) sibling) .nil node1)

inductive UpDepicts (hash : NodeValue12 → NodeKey)
    (store : NodeKey → Option NodeValue12) (vals : NodeKey → Option NodeValue8) :
    List Frame → Uppers → Prop
  | nil : UpDepicts hash store vals [] []
  | cons (f : Frame) (upper : Bool × SmtNode) (up : List Frame) (uppers : Uppers)
      (hFrame : FrameDepicts hash store vals up.length f upper)
      (hUp : UpDepicts hash store vals up uppers) :
      UpDepicts hash store vals (f :: up) (upper :: uppers)

theorem FrameDepicts.plug {f : Frame} {upper : Bool × SmtNode}
    (hFrame : FrameDepicts hash store vals d f upper) (hRep : Depicts hash store vals (d + 1) t n)
    (hSome : t ≠ .empty) : Depicts hash store vals d (f.plug t) (upper.2.setChild upper.1 n) := by
  cases hFrame with
  | left sibling node0 node1 hRight => exact .inner d t sibling n node1 hRep hRight
  | right sibling node0 node1 hLeft => exact .inner d sibling t node0 n hLeft hRep
  | half sibling node1 hStored => exact .half d sibling t n hStored hSome hRep

theorem UpDepicts.plug {up : List Frame} {uppers : Uppers}
    (hUp : UpDepicts hash store vals up uppers) (hRep : Depicts hash store vals up.length t n)
    (hSome : t ≠ .empty) : Depicts hash store vals 0 (Trie.plug up t) (Uppers.plug uppers n) := by
  induction hUp generalizing t n with
  | nil => exact hRep
  | cons f upper up uppers hFrame hUp ih =>
    exact ih (hFrame.plug hRep hSome) (Trie.Scheme.Frame.plug_ne_empty f t)

/- The side of a branch that a later key takes. -/
theorem Depicts.side (hRep : Depicts hash store vals d (.branch left right) n)
    (hHalves : Trie.Halves NodeKey.pathBit d left right)
    (hAfter : Trie.AllBefore NodeKey.pathBit k (.branch left right))
    (hAgree : Trie.Tree.AgreeWith NodeKey.pathBit d k (.branch left right)) :
    FrameDepicts hash store vals d ⟨k.pathBit d, if k.pathBit d then left else right⟩
        (k.pathBit d, n) ∧
      Depicts hash store vals (d + 1) (if k.pathBit d then right else left)
        (n.child (k.pathBit d)) ∧
      n.setChild (k.pathBit d) (n.child (k.pathBit d)) = n := by
  cases hBit : k.pathBit d with
  | true =>
    cases hRep with
    | inner _ _ _ node0 node1 hLeft hRight => exact ⟨.right left node0 node1 hLeft, hRight, rfl⟩
    | half _ _ _ node1 hStored hSome hRight => exact ⟨.half left node1 hStored, hRight, rfl⟩
  | false =>
    cases hRep with
    | inner _ _ _ node0 node1 hLeft hRight => exact ⟨.left right node0 node1 hRight, hLeft, rfl⟩
    | half _ _ _ node1 hStored hSome hRight =>
      exact absurd (hHalves.right_eq_empty hAfter hAgree hBit) hSome

/- A branch on the path of a key after all keys below it. -/
structure Ahead (k : NodeKey) (d : Nat) (left right : Tree) : Prop where
  halves : Trie.Halves NodeKey.pathBit d left right
  after : Trie.AllBefore NodeKey.pathBit k (.branch left right)
  agree :
    ∀ key value, Trie.Tree.Mem key value (.branch left right) → ∀ i < d, key.pathBit i = k.pathBit i
  height : d + (Trie.Tree.branch left right).height ≤ 256
  some : 0 < d → left ≠ .empty ∨ right ≠ .empty

theorem Ahead.depth_lt (hAhead : Ahead k d left right) : d < 256 := by
  have hHeight := hAhead.height
  rw [Trie.Tree.height] at hHeight
  omega

theorem Ahead.onPath (hAhead : Ahead k d left right) :
    Trie.OnPath NodeKey.pathBit k (d + 1) (if k.pathBit d then right else left) :=
  hAhead.halves.onPath hAhead.agree

/- The branch below, on the side of the key. -/
theorem Ahead.next {left' right' : Tree} (hAhead : Ahead k d left right)
    (hSide : (if k.pathBit d then right else left) = .branch left' right') :
    Ahead k (d + 1) left' right' := by
  have hOn := hAhead.onPath
  have hHeight := hAhead.height
  have hLess := Trie.Tree.height_side (k.pathBit d) left right
  rw [hSide] at hOn hLess
  refine ⟨hOn.proper.halves, ?_, hOn.agree, by omega, fun _ => hOn.proper.ne_empty⟩
  intro key value hMem
  rw [← hSide] at hMem
  exact hAhead.after key value (Trie.Tree.mem_side hMem)

/-
  What the walk of a later key finds.  Below the root, a place without anything has something
  beside it.
-/
structure Reached (hash : NodeValue12 → NodeKey) (store : NodeKey → Option NodeValue12)
    (vals : NodeKey → Option NodeValue8) (k : NodeKey) (up : List Frame)
    (tip : Tree) (rootNode : SmtNode) (uppers : Uppers) (found : SmtNode) : Prop where
  frames : UpDepicts hash store vals up uppers
  place : Depicts hash store vals up.length tip found
  root : Uppers.plug uppers found = rootNode
  after : Trie.AllBefore NodeKey.pathBit k tip
  agree : ∀ key value, Trie.Tree.Mem key value tip → ∀ i < up.length, key.pathBit i = k.pathBit i
  beside : ∀ f f' up', up = f :: f' :: up' → tip = .empty → f.sibling ≠ .empty
  below : ∀ bit upper uppers', uppers = (bit, upper) :: uppers' → upper.child bit = found

theorem findLastNode_spec {up : List Frame} {uppers : Uppers} {rootNode : SmtNode}
    (hFound : Reached hash store vals k up t rootNode uppers n) (hBranch : t = .branch left right)
    (hAhead : Ahead k up.length left right) :
    ∃ uppers' found, findLastNode (k.getPath.drop up.length) uppers n =
          .ok (uppers', found) ∧
        Reached hash store vals k (Trie.focus NodeKey.pathBit k up t).1
          (Trie.focus NodeKey.pathBit k up t).2 rootNode uppers' found := by
  induction t using Trie.Tree.side_induction generalizing up uppers n left right with
  | empty => cases hBranch
  | leaf key value => cases hBranch
  | branch left right ih =>
    cases hBranch
    rcases hFound.place.side hAhead.halves hAhead.after hAhead.agree with ⟨hFrame, hSide, hSame⟩
    have hNext : Reached hash store vals k
          (⟨k.pathBit up.length, if k.pathBit up.length then left else right⟩ :: up)
          (if k.pathBit up.length then right else left)
          rootNode ((k.pathBit up.length, n) :: uppers) (n.child (k.pathBit up.length)) := by
      refine ⟨.cons _ _ up uppers hFrame hFound.frames, hSide, ?_, ?_, hAhead.onPath.agree, ?_, ?_⟩
      · rw [Uppers.plug, hSame, hFound.root]
      · exact fun key value hMem => hAhead.after key value (Trie.Tree.mem_side hMem)
      · intro f f' up' hUp hEmpty
        rcases List.cons.inj hUp with ⟨hHead, hTail⟩
        have hSome := hAhead.some (by simp [hTail])
        rw [← hHead]
        revert hEmpty
        cases k.pathBit up.length with
        | true => exact fun hEmpty => hSome.resolve_right (not_not.mpr hEmpty)
        | false => exact fun hEmpty => hSome.resolve_left (not_not.mpr hEmpty)
      · rintro bit upper uppers' hUppers
        cases hUppers
        rfl
    rw [NodeKey.drop_getPath k hAhead.depth_lt, findLastNode, Trie.focus_branch]
    cases hTree : (if k.pathBit up.length then right else left) with
    | empty =>
      rw [hTree] at hNext
      have hNil := hNext.place.isNil_iff.mpr rfl
      rw [if_pos (by rw [hNil]; rfl)]
      exact ⟨_, _, rfl, hNext⟩
    | leaf key value =>
      rw [hTree] at hNext
      have hLeaf := hNext.place.isLeaf_leaf.2
      rw [if_pos (by rw [hLeaf]; exact Bool.or_true _)]
      exact ⟨_, _, rfl, hNext⟩
    | branch left' right' =>
      have hAheadNext := hAhead.next hTree
      have hRest := ih (k.pathBit up.length) hNext hTree hAheadNext
      rw [hTree] at hNext hRest
      have hLeaf := hNext.place.isLeaf_branch (hAheadNext.some (Nat.succ_pos _))
      have hNil : (n.child (k.pathBit up.length)).isNil = false := by
        rw [Bool.eq_false_iff, Ne, hNext.place.isNil_iff]
        simp
      rw [if_neg (by rw [hLeaf, hNil]; exact Bool.false_ne_true)]
      exact hRest

end XLayerErigon.Smt
