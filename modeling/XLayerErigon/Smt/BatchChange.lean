import XLayerErigon.Smt.BatchWalk

/-
  The change at the end of a batch entry's walk.

  An insertion leaves the new leaf, or the two leaves under a spine, where the trie has them.  A
  deletion pulls the last leaf up as the trie does, unless it mistakes a branch for the leaf of
  the key.

  Main results:
    * `insertAtPoint_spec`
    * `deleteAtPoint_spec`
-/

namespace XLayerErigon.Smt

variable {hash : NodeValue12 → NodeKey} {db : Db} {old : Tree}

-- Results of a Change

/- The tree around the new pointer stands for `t`, and what `o` kept is still kept. -/
def Becomes (hash : NodeValue12 → NodeKey) (db : Db) (old : Tree) (o : Overlay) (t : Tree)
    (bup : List BatchFrame) (cur : SmtBatchNode) : Prop :=
  ∃ o', Rep hash db 0 old NodeKey.zero (plugAll bup cur) o' ∧ o'.toTree = t ∧ o'.SameKept o

variable {d : Nat} {l r : SmtBatchNode} {f : OverFrame} {value : Value} {key : NodeKey}
  {up : List OverFrame} {bf : BatchFrame} {cur : SmtBatchNode} {bup : List BatchFrame}

theorem becomes_plug {bup : List BatchFrame} {cur : SmtBatchNode} {up : List OverFrame}
    {o tip : Overlay} {t : Tree} (hUp : RepUp hash db old bup up)
    (hCur : ∀ h, Rep hash db up.length (oldAt old up) h cur tip)
    (hTree : Trie.plug (frames up) tip.toTree = t)
    (hKept : (Trie.Overlay.plug up tip).SameKept o) : Becomes hash db old o t bup cur :=
  ⟨Trie.Overlay.plug up tip,
    rep_plugAll hUp hCur NodeKey.zero, (Trie.Overlay.toTree_plug up tip).trans hTree, hKept⟩

-- Insertion

/- A leaf one level further down keeps the rest of its key. -/
theorem expandedKey_removeKeyBits {key key' : NodeKey} (hd : d ≤ 256)
    (hAgree : ∀ i < d, key.pathBit i = key'.pathBit i) :
    expandedKey key.getPath d (key'.removeKeyBits d) = key'.removeKeyBits (d + 1) := by
  unfold expandedKey
  rw [NodeKey.take_getPath_congr hAgree, NodeKey.joinKey_removeKeyBits key' hd]

/- The branches that are made while the paths agree. -/
def spineFrames (key : NodeKey) (d j : Nat) : List BatchFrame :=
  ((List.range j).map (fun i => ⟨NodeKey.zero, NodeKey.zero, key.pathBit (d + i), .nil⟩)).reverse

theorem length_spineFrames_append (key : NodeKey) (d j : Nat) (bup : List BatchFrame) :
    (spineFrames key d j ++ bup).length = bup.length + j := by
  simp [spineFrames, Nat.add_comm]

theorem spineFrames_succ (key : NodeKey) (d j : Nat) :
    spineFrames key d (j + 1) =
      spineFrames key (d + 1) j ++ [⟨NodeKey.zero, NodeKey.zero, key.pathBit d, .nil⟩] := by
  unfold spineFrames
  rw [List.range_succ_eq_map, List.map_cons, List.reverse_cons, List.map_map]
  congr 2
  apply List.map_congr_left
  intro i _
  have hShift : d + (i + 1) = d + 1 + i := by omega
  rw [Function.comp_apply, Nat.succ_eq_add_one, hShift]

/- A leaf is pushed down to the first different bit. -/
theorem expandWhileEqual_spec {key key' : NodeKey} {j : Nat} (hLt : bup.length + j < 256)
    (hAgree : ∀ i < bup.length + j, key.pathBit i = key'.pathBit i)
    (hDiff : key.pathBit (bup.length + j) ≠ key'.pathBit (bup.length + j)) :
    expandWhileEqual key.getPath (key.getPath.drop bup.length) (key'.getPath.drop bup.length) bup
        (key'.removeKeyBits bup.length) =
      .ok (spineFrames key bup.length j ++ bup, key'.removeKeyBits (bup.length + j)) := by
  induction j generalizing bup with
  | zero =>
    rw [Nat.add_zero] at hDiff hLt
    rw [NodeKey.drop_getPath key hLt, NodeKey.drop_getPath key' hLt, expandWhileEqual, if_neg hDiff]
    rfl
  | succ j ih =>
    have hShift : bup.length + 1 + j = bup.length + (j + 1) := by omega
    rw [NodeKey.drop_getPath key (by omega), NodeKey.drop_getPath key' (by omega), expandWhileEqual,
      if_pos (hAgree bup.length (by omega)), expandedKey_removeKeyBits (by omega)
      (fun i hi => hAgree i (by omega))]
    have hRest := @ih (⟨NodeKey.zero, NodeKey.zero, key.pathBit bup.length, .nil⟩ :: bup)
    rw [List.length_cons, hShift] at hRest
    rw [hRest hLt hAgree hDiff, spineFrames_succ, List.append_assoc]
    rfl

/- The new branches stand for a spine. -/
theorem repUp_spineFrames (hUp : RepUp hash db old bup up) (bits : List Bool) :
    RepUp hash db old (bits.map (fun b => ⟨NodeKey.zero, NodeKey.zero, b, .nil⟩) ++ bup)
      (bits.map (fun b => ⟨b, .kept .empty⟩) ++ up) := by
  induction bits with
  | nil => exact hUp
  | cons b bits ih =>
    refine ⟨⟨rfl, Or.inl rfl⟩, ?_, ih⟩
    cases b <;> exact rep_nil _

/- The new leaf takes the place of the tip. -/
theorem becomes_leaf {m : Entries} {tip : Overlay} (hUp : RepUp hash db old bup up)
    (hWalk : Walk m key (frames up) tip.toTree)
    (hTip : Trie.insertTip NodeKey.pathBit 256 key value up.length tip.toTree = .leaf key value)
    (hHand : tip.AtHand)
    (hCur : ∀ h, Rep hash db up.length (oldAt old up) h cur (.leaf key value)) :
    Becomes hash db old (Trie.Overlay.plug up tip) (canonical (Function.update m key (some value)))
      bup cur := by
  have hInsert := hWalk.insert value
  rw [List.length_map, hTip] at hInsert
  have hLeaf := Trie.Overlay.atHand_leaf key value
  exact becomes_plug hUp hCur hInsert ((hLeaf.sameKept hHand).plug up)

/- At a branch the new leaf goes into the free place. -/
theorem insertAtPoint_gap {key valueHash : NodeKey} (hSide : bf.side = key.pathBit bup.length)
    (hLt : bup.length < 256) :
    insertAtPoint key valueHash bup (bf.plug .nil) =
      .ok (bf :: bup, .newLeaf (key.removeKeyBits (bup.length + 1)) valueHash) := by
  have hBit := NodeKey.getPath_getElem? key hLt
  rw [← hSide] at hBit
  rcases bf with ⟨lh, rh, _ | _, sibling⟩
  all_goals
    simp only [BatchFrame.plug, insertAtPoint, createALeafInEmptyDirection, hBit]
    rfl

/- A leaf of another key is moved down to the branch where the keys part. -/
theorem insertAtPoint_fork {m : Entries} {key key' : NodeKey} {value' : Value}
    {bup : List BatchFrame} {up : List OverFrame} (hUp : RepUp hash db old bup up)
    (hWalk : Walk m key (frames up) (.leaf key' value')) (hNe : key' ≠ key) (value : Value) :
    ∃ bup' cur', insertAtPoint key (hash (valueNode value)) bup
          (.node (key'.removeKeyBits up.length) (hash (valueNode value')) true l r) =
          .ok (bup', cur') ∧
        Becomes hash db old (Trie.Overlay.plug up (.leaf key' value'))
          (canonical (Function.update m key (some value))) bup' cur' := by
  have hDepth := hWalk.depth
  have hAgree := hWalk.agree key' value' ⟨rfl, rfl⟩
  have hInsert := hWalk.insert value
  rw [List.length_map] at hDepth hAgree hInsert
  rcases divergence_spec (Ne.symm hNe) (fun i hi => (hAgree i hi).symm) hDepth up.length with
    ⟨j, hLt, hSame, hDiff, _⟩
  rw [Trie.insertTip, if_neg hNe, Trie.fork_eq_plug hSame hDiff (by omega)] at hInsert
  refine ⟨⟨NodeKey.zero, NodeKey.zero, key.pathBit (up.length + j),
      .newLeaf (key'.removeKeyBits (up.length + j + 1)) (hash (valueNode value'))⟩ ::
        (spineFrames key up.length j ++ bup),
    .newLeaf (key.removeKeyBits (up.length + j + 1)) (hash (valueNode value)), ?_, ?_⟩
  · have hRem : key'.removeKeyBits up.length ≠ key.removeKeyBits up.length := by
      intro hEq
      exact hNe (NodeKey.eq_of_removeKeyBits_eq hDepth hAgree hEq)
    have hBelow : ∀ i < up.length + j, key.pathBit i = key'.pathBit i := by
      intro i hi
      rcases Nat.lt_or_ge i up.length with hAbove | hGe
      · exact (hAgree i hAbove).symm
      · rw [← Nat.add_sub_cancel' hGe]
        exact hSame _ (by omega)
    have hPath : (NodeKey.joinKey (key.getPath.take up.length)
          (key'.removeKeyBits up.length)).getPath = key'.getPath := by
      rw [NodeKey.take_getPath_congr (fun i hi => hBelow i (by omega)),
          NodeKey.joinKey_removeKeyBits key' (by omega)]
    rw [← hUp.length_eq] at hRem hLt hBelow hDiff hPath ⊢
    rw [insertAtPoint, if_neg (fun hEq => hRem ((NodeKey.isEqualTo_iff _ _).mp hEq)), expandLeaf,
      hPath]
    dsimp only
    rw [expandWhileEqual_spec hLt hBelow hDiff]
    simp only [bind, Except.bind, pure, Except.pure]
    rw [length_spineFrames_append, NodeKey.getPath_getElem? key' hLt,
      expandedKey_removeKeyBits (by omega) (fun i _ => rfl)]
    unfold createALeafInEmptyDirection
    rw [NodeKey.getPath_getElem? key hLt]
    cases hBit : key.pathBit (bup.length + j) <;> cases hBit' : key'.pathBit (bup.length + j) <;>
      first
      | exact absurd (hBit.trans hBit'.symm) hDiff
      | simp [SmtBatchNode.isNil, spineFrames, Nat.add_comm j]
  have hBits :=
    repUp_spineFrames hUp ((List.range j).map (fun i => key.pathBit (up.length + i))).reverse
  rw [List.map_reverse, List.map_map, List.map_reverse, List.map_map] at hBits
  have hLength : (((List.range j).map
          ((fun b => (⟨b, .kept .empty⟩ : OverFrame)) ∘
            (fun i => key.pathBit (up.length + i)))).reverse ++
        up).length = up.length + j := by
    rw [List.length_append, List.length_reverse, List.length_map, List.length_range, Nat.add_comm]
  refine
    @becomes_plug hash db old _ _ (⟨key.pathBit (up.length + j), .leaf key' value'⟩ :: _)
      _ (.leaf key value) _ ⟨⟨rfl, Or.inl rfl⟩, ?_, hBits⟩ ?_ ?_ ?_
  · rw [hLength]
    exact rep_newLeaf _ _ key' value'
  · intro h
    rw [List.length_cons, hLength]
    exact rep_newLeaf _ h key value
  · rw [frames, List.map_cons, List.map_append, Trie.plug, Trie.plug_append, ← hInsert]
    simp only [Trie.spine, List.map_reverse, List.map_map]
    rfl
  · rw [Trie.Overlay.plug, Trie.Overlay.plug_append]
    have hLeaf := @Trie.Overlay.atHand_leaf NodeKey Value
    refine (Trie.Overlay.AtHand.sameKept ?_ (hLeaf _ _)).plug up
    refine ((hLeaf _ _).frame (hLeaf _ _)).plug ?_
    intro f hf
    rw [List.mem_reverse, List.mem_map] at hf
    rcases hf with ⟨i, _, rfl⟩
    exact Trie.Overlay.atHand_empty

/- An insertion makes the trie of the changed entries. -/
theorem insertAtPoint_spec {m : Entries} {tip : Overlay}
    (hPoint : AtPoint hash db old bup cur up tip)
    (hWalk : Walk m key (frames up) tip.toTree) (value : Value) :
    ∃ bup' cur', insertAtPoint key (hash (valueNode value)) bup cur =
          .ok (bup', cur') ∧
        Becomes hash db old (Trie.Overlay.plug up tip)
          (canonical (Function.update m key (some value))) bup' cur' := by
  cases hPoint with
  | root =>
    refine ⟨[], _, rfl, ?_⟩
    refine becomes_leaf trivial hWalk rfl Trie.Overlay.atHand_empty ?_
    intro h
    exact ⟨(NodeKey.removeKeyBits_zero key).symm, rfl⟩
  | @gap bf bup f up hUp hZero =>
    have hLength : bup.length = up.length := hUp.2.2.length_eq
    have hDepth := hWalk.depth
    rw [List.length_map, List.length_cons] at hDepth
    have hSide : bf.side = key.pathBit bup.length := by
      have hFollows := hWalk.follows.1
      rw [List.length_map] at hFollows
      rw [hUp.1.1, hLength]
      exact hFollows
    refine ⟨bf :: bup, _, insertAtPoint_gap hSide (by omega), ?_⟩
    refine becomes_leaf hUp hWalk rfl Trie.Overlay.atHand_empty ?_
    intro h
    rw [hLength]
    exact rep_newLeaf _ h key value
  | @leaf bup up rem val l r key' value' hUp hRem hVal =>
    subst hRem hVal
    by_cases hKey : key' = key
    · subst hKey
      refine ⟨bup, _, if_pos ?_, ?_⟩
      · rw [hUp.length_eq]
        exact (NodeKey.isEqualTo_iff _ _).mpr rfl
      · exact
          becomes_leaf hUp hWalk (if_pos rfl) (Trie.Overlay.atHand_leaf _ _) (fun h => ⟨rfl, rfl⟩)
    · exact insertAtPoint_fork hUp hWalk hKey value

-- Deletion

theorem Becomes.congr {o o' : Overlay} {t : Tree} (hBecomes : Becomes hash db old o t bup cur)
    (hSame : o.SameKept o') : Becomes hash db old o' t bup cur := by
  rcases hBecomes with ⟨o₁, hRep, hTree, hKept⟩
  exact ⟨o₁, hRep, hTree, hKept.trans hSame⟩

/- A pointer that is one level higher. -/
theorem becomes_frame {o : Overlay} {t : Tree}
    (hBecomes : Becomes hash db old o t (bf :: bup) cur) :
    Becomes hash db old o t bup (bf.plug cur) :=
  hBecomes

/- A leaf one level up gets back the bit it had lost. -/
theorem collapsedKey_eq {key key' : NodeKey} {b : Bool} (hd : d < 256)
    (hAgree : ∀ i < d, key.pathBit i = key'.pathBit i) (hBit : b = key'.pathBit d) :
    (NodeKey.joinKey (key.getPath.take d ++ [b]) (key'.removeKeyBits (d + 1))).removeKeyBits d =
      key'.removeKeyBits d := by
  rw [NodeKey.take_getPath_congr hAgree, hBit, ← NodeKey.take_succ_getPath key' hd,
    NodeKey.joinKey_removeKeyBits key' hd]

/- The only child of a branch, when it is a leaf. -/
theorem collapseLoop_lone {rem val : NodeKey} (path : List Bool) (bup : List BatchFrame)
    (hSibling : bf.sibling = .nil) : collapseLoop path bup (bf.plug (.node rem val true l r)) =
      let leaf := SmtBatchNode.newLeaf
        ((NodeKey.joinKey (path.take bup.length ++ [bf.side]) rem).removeKeyBits bup.length) val
      match bup with
      | [] => ([], leaf)
      | f :: up => collapseLoop path up (f.plug leaf) := by
  rcases bf with ⟨lh, rh, side, sibling⟩
  dsimp only at hSibling
  subst hSibling
  cases bup <;> cases side <;> rfl

/- A branch with two children stays. -/
theorem collapseLoop_stay (path : List Bool) (bup : List BatchFrame) (hCur : cur.isNil = false)
    (hSibling : bf.sibling.isNil = false) :
    collapseLoop path bup (bf.plug cur) = (bup, bf.plug cur) := by
  rcases bf with ⟨lh, rh, side, sibling⟩
  cases cur with
  | nil => contradiction
  | node lh' rh' leaf l r =>
    cases sibling with
    | nil => contradiction
    | node lh₁ rh₁ leaf₁ l₁ r₁ =>
      cases side <;> cases leaf <;> cases leaf₁ <;> cases bup <;> rfl

/- Only a missing node is not in memory. -/
theorem isNil_of_rep {h : NodeKey} {o : Overlay} (hRep : Rep hash db d old h cur o)
    (hLoaded : o.Loaded) (hSome : o.toTree ≠ .empty) : cur.isNil = false := by
  rcases hRep.cases with ⟨t, rfl, rfl, -⟩ | ⟨key, value, l, r, rfl, rfl⟩ |
    ⟨lh, rh, l, r, left, right, rfl, rfl⟩
  · exact absurd (hLoaded t rfl) hSome
  · rfl
  · rfl

/- Joining with a non-empty side makes a branch. -/
theorem collapse_leaf_of_sibling {f : Frame} (up : List Frame) (hSome : f.sibling ≠ .empty) :
    Trie.collapse (f :: up) (.leaf key value) = Trie.plug (f :: up) (.leaf key value) := by
  rw [Trie.collapse_leaf, List.dropWhile_cons_of_neg]
  rw [Trie.Tree.isEmpty_iff]
  exact hSome

theorem collapse_empty_of_sibling {f : Frame} {left right : Tree} (up : List Frame)
    (hBranch : f.sibling = .branch left right) :
    Trie.collapse (f :: up) .empty = Trie.plug up (f.plug .empty) := by
  rcases f with ⟨side, sibling⟩
  dsimp only at hBranch
  subst hBranch
  cases side <;> exact Trie.collapse_branch up _ _

/- A lone leaf keeps as much as its branch does. -/
theorem sameKept_lone (hEmpty : f.sibling = .kept .empty) :
    (Trie.Overlay.leaf key value).SameKept (f.plug (.leaf key value)) := by
  have hLeaf := Trie.Overlay.atHand_leaf key value
  apply hLeaf.sameKept
  apply hLeaf.frame
  rw [hEmpty]
  exact Trie.Overlay.atHand_empty

theorem join_lone (hEmpty : f.sibling = .kept .empty) :
    f.toFrame.join (.leaf key value) = .leaf key value := by
  rcases f with ⟨side, sibling⟩
  dsimp only at hEmpty
  subst hEmpty
  cases side <;> rfl

/-
  The loop pulls a leaf up as the trie does.  The induction is on the branches above; at each of
  them either the leaf takes the place of the branch, or the loop stops.
-/
theorem collapseLoop_becomes {key key' : NodeKey} {value' : Value} {bf : BatchFrame}
    {bup : List BatchFrame} {f : OverFrame} {up : List OverFrame} {cur : SmtBatchNode}
    (hUp : RepUp hash db old (bf :: bup) (f :: up)) (hLoaded : ∀ g ∈ f :: up, g.sibling.Loaded)
    (hCur : ∀ h, Rep hash db (up.length + 1) (oldAt old (f :: up)) h cur (.leaf key' value'))
    (hDepth : up.length < 256) (hAgree : ∀ i < up.length, key.pathBit i = key'.pathBit i)
    (hFollows : Trie.Follows NodeKey.pathBit key' (frames (f :: up))) :
    Becomes hash db old (Trie.Overlay.plug (f :: up) (.leaf key' value'))
      (Trie.collapse (frames (f :: up)) (.leaf key' value'))
      (collapseLoop key.getPath bup (bf.plug cur)).1
      (collapseLoop key.getPath bup (bf.plug cur)).2 := by
  induction bup generalizing bf f up cur with
  | nil => ?_
  | cons bf' bup ih => ?_
  all_goals
    rcases rep_leaf (hCur NodeKey.zero) with ⟨l, r, rfl⟩
    by_cases hSome : f.sibling.toTree ≠ .empty
    · -- the loop stops where the branch has another side
      rw [collapseLoop_stay key.getPath _ rfl
        (isNil_of_rep hUp.2.1 (hLoaded f List.mem_cons_self) hSome)]
      apply becomes_frame
      refine becomes_plug hUp hCur ?_ (fun _ _ => Iff.rfl)
      exact (collapse_leaf_of_sibling (frames up) hSome).symm
    have hEmpty := Trie.Overlay.Loaded.eq_kept (not_not.mp hSome)
    have hSibling := hUp.2.1
    rw [hEmpty] at hSibling
    have hSide := hUp.1.1.trans hFollows.1
    rw [List.length_map] at hSide
    rw [collapseLoop_lone key.getPath _ (rep_kept hSibling).1, hUp.2.2.length_eq,
      collapsedKey_eq hDepth hAgree hSide]
  · obtain rfl : up = [] := List.length_eq_zero_iff.mp hUp.2.2.length_eq.symm
    refine Becomes.congr ?_ (sameKept_lone hEmpty)
    exact
      ⟨.leaf key' value', rep_newLeaf 0 _ key' value',
        (join_lone hEmpty).symm, fun _ _ => Iff.rfl⟩
  · cases up with
    | nil => exact hUp.2.2.elim
    | cons f' up =>
      refine Becomes.congr ?_ ((sameKept_lone hEmpty).plug (f' :: up))
      rw [frames, List.map_cons, Trie.collapse, join_lone hEmpty]
      rw [List.length_cons] at hDepth
      exact ih hUp.2.2 (fun g hg => hLoaded g (List.mem_cons_of_mem f hg))
        (fun h => rep_newLeaf _ h key' value') (by omega)
        (fun i hi => hAgree i (Nat.lt_succ_of_lt hi)) hFollows.2

/- The branch seen from its other child. -/
theorem plug_nil_eq_flip (bf : BatchFrame) :
    bf.plug .nil = BatchFrame.plug ⟨bf.leftHash, bf.rightHash, !bf.side, .nil⟩ bf.sibling := by
  rcases bf with ⟨lh, rh, side, sibling⟩
  cases side <;> rfl

/- A branch of branches stays. -/
theorem collapseLoop_branch {lh rh : NodeKey} (path : List Bool) (bup : List BatchFrame)
    (hSibling : bf.sibling = .node lh rh false l r) :
    collapseLoop path bup (bf.plug .nil) = (bup, bf.plug .nil) := by
  rcases bf with ⟨lh', rh', side, sibling⟩
  dsimp only at hSibling
  subst hSibling
  cases side <;> cases bup <;> rfl

theorem repUp_flip (hUp : RepUp hash db old (bf :: bup) (f :: up))
    (hZero : bf.childHash = NodeKey.zero) :
    RepUp hash db old (⟨bf.leftHash, bf.rightHash, !bf.side, .nil⟩ :: bup)
      (⟨!f.side, .kept .empty⟩ :: up) := by
  refine ⟨⟨congrArg not hUp.1.1, hUp.1.2⟩, ?_, hUp.2.2⟩
  unfold BatchFrame.childHash at hZero
  rw [hUp.1.1] at hZero
  cases hSide : f.side <;> rw [hSide] at hZero <;> exact ⟨hZero, kept_empty _, Or.inl rfl⟩

namespace Walk

variable {m : Entries} {key : NodeKey} {tip : Tree} {f : Frame} {up : List Frame}

theorem length_lt (hWalk : Walk m key (f :: up) tip) : up.length < 256 := hWalk.depth

/- A leaf beside the path leaves it at the last branch. -/
theorem sibling_leaf {key' : NodeKey} {value' : Value} (hWalk : Walk m key (f :: up) tip)
    (hLeaf : f.sibling = .leaf key' value') :
    (∀ i < up.length, key'.pathBit i = key.pathBit i) ∧ key'.pathBit up.length = !f.side := by
  have hProper := canonical_proper m
  rw [← hWalk.plug] at hProper
  refine @Trie.sibling_agree _ _ _ _ _ _ _ key' value' hProper hWalk.follows ?_
  rw [hLeaf]
  exact ⟨rfl, rfl⟩

/- An empty place is beside a branch. -/
theorem sibling_of_empty (hWalk : Walk m key (f :: up) .empty) :
    ∃ left right, f.sibling = .branch left right := by
  have hTight := hWalk.tight
  rcases f with ⟨side, sibling⟩
  cases sibling with
  | branch left right => exact ⟨left, right, rfl⟩
  | _ => cases side <;> simp [Trie.Tight] at hTight

end Walk

variable {l r : SmtBatchNode} {up : List OverFrame} {key rem val : NodeKey} {bf : BatchFrame}
  {bup : List BatchFrame}

/- The loop above a place that is empty. -/
theorem collapseLoop_gap {m : Entries} {key : NodeKey} {tip : Tree} {f : OverFrame}
    (hUp : RepUp hash db old (bf :: bup) (f :: up)) (hZero : bf.childHash = NodeKey.zero)
    (hLoaded : ∀ g ∈ f :: up, g.sibling.Loaded)
    (hWalk : Walk m key (frames (f :: up)) tip)
    (hSome : f.sibling.toTree ≠ .empty) :
    Becomes hash db old (Trie.Overlay.plug (f :: up) (.kept .empty))
      (Trie.collapse (frames (f :: up)) .empty)
      (collapseLoop key.getPath bup (bf.plug .nil)).1
      (collapseLoop key.getPath bup (bf.plug .nil)).2 := by
  have hTop := hLoaded f List.mem_cons_self
  cases hTree : f.sibling.toTree with
  | empty => exact absurd hTree hSome
  | leaf key' value' =>
    -- The loop starts from the leaf on the other side.
    have hLeaf := hTop.eq_leaf hTree
    have hChild := hUp.2.1
    rw [hLeaf] at hChild
    rcases hWalk.sibling_leaf hTree with ⟨hAgree, hBit⟩
    have hDepth := hWalk.length_lt
    rw [List.length_map] at hAgree hBit hDepth
    have hPoint :=
      @collapseLoop_becomes hash db old key key' value' _ bup ⟨!f.side, .kept .empty⟩ up bf.sibling
        (repUp_flip hUp hZero) ?_ ?_ hDepth (fun i hi => (hAgree i hi).symm) ⟨?_, ?_⟩
    · rw [← plug_nil_eq_flip] at hPoint
      rcases f with ⟨side, sibling⟩
      dsimp only at hLeaf
      subst hLeaf
      cases side <;> exact hPoint
    · intro g hg
      rcases List.mem_cons.mp hg with rfl | hg
      · exact Trie.Overlay.loaded_load (.kept .empty)
      · exact hLoaded g (List.mem_cons_of_mem f hg)
    · intro h
      rcases rep_leaf hChild with ⟨l, r, hCur⟩
      rw [hCur]
      exact ⟨rfl, rfl⟩
    · rw [List.length_map]
      exact hBit.symm
    · apply hWalk.follows.2.congr
      rw [List.length_map]
      exact hAgree
  | branch left right =>
    rcases hTop.eq_branch hTree with ⟨left', right', hBranch⟩
    have hChild := hUp.2.1
    rw [hBranch] at hChild
    rcases rep_branch hChild with ⟨lh, rh, l, r, hCur⟩
    rw [collapseLoop_branch key.getPath bup hCur]
    have hNil :
        Rep hash db (up.length + 1) (oldAt old (f :: up)) bf.childHash .nil (.kept .empty) := by
      rw [hZero]
      exact rep_nil _
    refine becomes_plug hUp.2.2 (rep_frame hUp hNil) ?_ (fun _ _ => Iff.rfl)
    rw [Trie.Overlay.OverFrame.toTree_plug]
    exact (collapse_empty_of_sibling _ hTree).symm

theorem plug_nil_eq (bf : BatchFrame) :
    bf.plug .nil =
      .node bf.leftHash bf.rightHash false (if bf.side then bf.sibling else .nil)
        (if bf.side then .nil else bf.sibling) := by
  rcases bf with ⟨lh, rh, side, sibling⟩
  cases side <;> rfl

theorem deleteAtPoint_gap {key : NodeKey} (hTold : bf.leftHash ≠ key.removeKeyBits bup.length) :
    deleteAtPoint key bup (bf.plug .nil) = collapseLoop key.getPath bup (bf.plug .nil) := by
  rw [plug_nil_eq]
  exact if_neg (fun hEq => hTold ((NodeKey.isEqualTo_iff _ _).mp hEq))

theorem deleteAtPoint_other (hRem : rem ≠ key.removeKeyBits bup.length) :
    deleteAtPoint key bup (.node rem val true l r) = (bup, .node rem val true l r) := by
  refine (if_neg (fun hEq => hRem ((NodeKey.isEqualTo_iff _ _).mp hEq))).trans ?_
  cases bup <;> rfl

/- The branch above a deleted leaf. -/
def BatchFrame.cleared (bf : BatchFrame) : BatchFrame where
  leftHash := if bf.side then bf.leftHash else NodeKey.zero
  rightHash := if bf.side then NodeKey.zero else bf.rightHash
  side := bf.side
  sibling := bf.sibling

theorem updateHashesAfterDelete_plug (hSibling : bf.sibling.isNil = false) :
    updateHashesAfterDelete (bf.plug .nil) = bf.cleared.plug .nil := by
  rcases bf with ⟨lh, rh, side, sibling⟩
  cases sibling with
  | nil => contradiction
  | node lh' rh' leaf l r => cases side <;> rfl

theorem childHash_cleared (bf : BatchFrame) : bf.cleared.childHash = NodeKey.zero := by
  rcases bf with ⟨lh, rh, side, sibling⟩
  cases side <;> rfl

theorem repUp_cleared {f : OverFrame} (hUp : RepUp hash db old (bf :: bup) (f :: up)) :
    RepUp hash db old (bf.cleared :: bup) (f :: up) := by
  rcases hUp with ⟨⟨hSide, hNoted⟩, hSibling, hUp⟩
  rcases bf with ⟨lh, rh, side, sibling⟩
  rcases f with ⟨side', sibling'⟩
  dsimp only at hSide
  subst hSide
  cases side with
  | false => exact ⟨⟨rfl, Or.inl rfl⟩, hSibling, hUp⟩
  | true => exact ⟨⟨rfl, hNoted⟩, hSibling, hUp⟩

theorem deleteAtPoint_root (hRem : rem = key.removeKeyBits 0) :
    deleteAtPoint key [] (.node rem val true l r) = ([], .nil) :=
  if_pos ((NodeKey.isEqualTo_iff _ _).mpr hRem)

theorem deleteAtPoint_found (hRem : rem = key.removeKeyBits (bf :: bup).length)
    (hSibling : bf.sibling.isNil = false) :
    deleteAtPoint key (bf :: bup) (.node rem val true l r) =
      collapseLoop key.getPath bup (bf.cleared.plug .nil) := by
  rw [← updateHashesAfterDelete_plug hSibling]
  exact if_pos ((NodeKey.isEqualTo_iff _ _).mpr hRem)

/-
  A deletion makes the trie of the changed entries, unless the first hash of a branch is the rest
  of the key.
-/
theorem deleteAtPoint_spec {m : Entries} {key : NodeKey} {cur : SmtBatchNode} {tip : Overlay}
    (hPoint : AtPoint hash db old bup cur up tip)
    (hWalk : Walk m key (frames up) tip.toTree)
    (hLoaded : ∀ f ∈ up, f.sibling.Loaded)
    (hTold : ∀ lh rh l r, cur = .node lh rh false l r → lh ≠ key.removeKeyBits bup.length) :
    Becomes hash db old (Trie.Overlay.plug up tip) (canonical (Function.update m key none))
      (deleteAtPoint key bup cur).1 (deleteAtPoint key bup cur).2 := by
  cases hPoint with
  | root =>
    rw [update_none_of_absent (hWalk.absent (fun value => by simp [Trie.Overlay.toTree]))]
    exact ⟨.kept .empty, rep_nil 0, hWalk.plug, fun _ _ => Iff.rfl⟩
  | @gap bf bup f up hUp hZero =>
    rcases hWalk.sibling_of_empty with ⟨left, right, hBranch⟩
    have hGap := collapseLoop_gap hUp hZero hLoaded hWalk (by
        change f.toFrame.sibling ≠ .empty
        rw [hBranch]
        exact fun hEmpty => by contradiction)
    rw [frames, List.map_cons, collapse_empty_of_sibling _ hBranch] at hGap
    rw [update_none_of_absent (hWalk.absent (fun value => by simp [Trie.Overlay.toTree])),
        deleteAtPoint_gap (hTold _ _ _ _ (plug_nil_eq bf)), ← hWalk.plug]
    exact hGap
  | @leaf bup up rem val l r key' value' hUp hRem hVal =>
    have hLength : bup.length = up.length := hUp.length_eq
    have hDepth := hWalk.depth
    have hAgree := hWalk.agree key' value' ⟨rfl, rfl⟩
    rw [List.length_map] at hDepth hAgree
    subst hRem hVal
    by_cases hKey : key' = key
    · subst hKey
      rw [← hWalk.delete value' hWalk.entry]
      have hSame := Trie.Overlay.atHand_empty.sameKept (Trie.Overlay.atHand_leaf key' value')
      cases bup with
      | nil =>
        rw [List.length_eq_zero_iff.mp hLength.symm, List.length_nil, deleteAtPoint_root rfl]
        exact ⟨.kept .empty, rep_nil 0, rfl, hSame⟩
      | cons bf bup =>
        cases up with
        | nil => exact hUp.elim
        | cons f up =>
          have hSome := hWalk.tight.sibling_ne_empty
          have hNode := isNil_of_rep hUp.2.1 (hLoaded f List.mem_cons_self) hSome
          rw [deleteAtPoint_found (by rw [hLength]) hNode]
          exact
            (collapseLoop_gap (repUp_cleared hUp)
              (childHash_cleared bf) hLoaded hWalk hSome).congr (hSame.plug (f :: up))
    · have hRem : key'.removeKeyBits up.length ≠ key.removeKeyBits bup.length := by
        rw [hLength]
        intro hEq
        exact hKey (NodeKey.eq_of_removeKeyBits_eq hDepth hAgree hEq)
      rw [update_none_of_absent (hWalk.absent (fun value => by simp [Trie.Overlay.toTree, hKey])),
        deleteAtPoint_other hRem]
      refine becomes_plug hUp ?_ hWalk.plug (fun _ _ => Iff.rfl)
      exact fun h => ⟨rfl, rfl⟩

end XLayerErigon.Smt
