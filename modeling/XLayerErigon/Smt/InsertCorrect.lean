import XLayerErigon.Smt.Insert

/-
  Sequential insertion keeps the canonical tree.

  Every step of an insertion writes some nodes under their hashes and nothing else that the tree
  reads; `Wrote` says which ones.  The walk of the source is the walk of the trie
  (`descend_focus`), each mode computes the hash of the subtree that belongs at its end, and
  `rehash` computes the new root from it.

  Main results:
    * `descend_focus`
    * `insert_step`
    * `insertAll_run`
-/

namespace XLayerErigon.Smt

variable {hash : NodeValue12 → NodeKey}

-- What a Step Writes

/- From `s` to `s'` exactly the nodes `ns` were saved. -/
structure Wrote
    (hash : NodeValue12 → NodeKey) (s : SMT) (ns : List NodeValue12) (s' : SMT) : Prop where
  save : s'.noSaveOnInsert = false
  nodes : s'.db.nodes = (scheme hash).putAll s.db.nodes ns

theorem Wrote.trans {s s₁ s₂ : SMT} {ns ns' : List NodeValue12} (hFirst : Wrote hash s ns s₁)
    (hSecond : Wrote hash s₁ ns' s₂) : Wrote hash s (ns ++ ns') s₂ := by
  refine ⟨hSecond.save, ?_⟩
  rw [Trie.Scheme.putAll_append, ← hFirst.nodes]
  exact hSecond.nodes

/- A result whose hash is known. -/
theorem eq_pair {α β : Type} {p : α × β} {b : β} (hSnd : p.2 = b) : p = (p.1, b) :=
  Prod.ext rfl hSnd

variable {s : SMT}

section

variable (hSave : s.noSaveOnInsert = false)

include hSave

theorem Wrote.refl : Wrote hash s [] s := ⟨hSave, rfl⟩

theorem wrote_hashSave (hash : NodeValue12 → NodeKey)
    (node : NodeValue12) : Wrote hash s [node] (s.hashSave node (hash node)) := by
  refine ⟨by rw [SMT.hashSave_noSave, hSave], ?_⟩
  exact SMT.hashSave_nodes hash hSave node

theorem wrote_updateDepth (newDepth : Nat) : Wrote hash s [] (s.updateDepth newDepth) :=
  ⟨by rw [SMT.updateDepth_noSave, hSave], by rw [SMT.updateDepth_nodes]; rfl⟩

/- A given value hash has to be the hash of the value. -/
def ValueHash (hash : NodeValue12 → NodeKey) (v : Value) (newValH : NodeKey) : Prop :=
  newValH = NodeKey.zero ∨ newValH = hash (valueNode v)

theorem saveValue_spec {v : Value} {newValH : NodeKey} (hVal : ValueHash hash v newValH) :
    Wrote hash s [valueNode v] (saveValue hash s v newValH).1 ∧
      (saveValue hash s v newValH).2 = hash (valueNode v) := by
  unfold saveValue
  split
  · exact ⟨wrote_hashSave hSave hash _, rfl⟩
  · next hNe =>
      rcases hVal with hZero | hHash
      · exact absurd hZero hNe
      · rw [hHash]
        exact ⟨wrote_hashSave hSave hash _, rfl⟩

theorem saveLeaf_spec (hash : NodeValue12 → NodeKey) (k rKey valH : NodeKey) :
    Wrote hash s [leafNode rKey valH] (saveLeaf hash s k rKey valH).1 ∧
      (saveLeaf hash s k rKey valH).2 = hash (leafNode rKey valH) := by
  have hWrote := wrote_hashSave hSave hash (leafNode rKey valH)
  exact ⟨⟨hWrote.save, hWrote.nodes⟩, rfl⟩

theorem chain_spec (hash : NodeValue12 → NodeKey) (r2 : NodeKey) (bits : List Bool) :
    Wrote hash s ((scheme hash).pathNodes (Trie.spine bits) r2) (chain hash s r2 bits).1 ∧
      (chain hash s r2 bits).2 = (scheme hash).rootUp (Trie.spine bits) r2 := by
  induction bits generalizing s r2 with
  | nil => exact ⟨Wrote.refl hSave, rfl⟩
  | cons bit bits ih =>
    have hNode : emptyBranch.setChild bit r2 =
          (scheme hash).frameNode (Trie.spine bits : List Frame).length ⟨bit, .empty⟩ r2 := by
      rw [Trie.Scheme.frameNode_empty]
      cases bit <;> rfl
    have hWrote := wrote_hashSave hSave hash (emptyBranch.setChild bit r2)
    have hRest := ih hWrote.save (hash (emptyBranch.setChild bit r2))
    rw [chain]
    rw [hNode] at hWrote hRest ⊢
    exact ⟨hWrote.trans hRest.1, hRest.2⟩

end

-- The Kept Branches

/- The branches of the frames, over the hash below them. -/
def siblingsOf (hash : NodeValue12 → NodeKey) :
    List Frame → NodeKey → Siblings
  | [], _ => []
  | f :: up, h =>
      (f.side, (scheme hash).frameNode up.length f h) ::
        siblingsOf hash up (hash ((scheme hash).frameNode up.length f h))

/- Branches that are the frames, up to the child taken. -/
def Fits (hash : NodeValue12 → NodeKey) :
    Siblings → List Frame → Prop
  | [], [] => True
  | (bit, node) :: siblings, f :: up =>
      bit = f.side ∧
        (∀ h, node.setChild bit h = (scheme hash).frameNode up.length f h) ∧ Fits hash siblings up
  | _, _ => False

theorem setChild_frameNode (d : Nat) (f : Frame) (h h' : NodeKey) :
    ((scheme hash).frameNode d f h).setChild f.side h' = (scheme hash).frameNode d f h' := by
  obtain ⟨side, sibling⟩ := f
  cases side <;> rfl

theorem fits_siblingsOf (up : List Frame) (h : NodeKey) : Fits hash (siblingsOf hash up h) up := by
  induction up generalizing h with
  | nil => trivial
  | cons f up ih => exact ⟨rfl, setChild_frameNode up.length f h, ih _⟩

@[simp] theorem length_siblingsOf (up : List Frame) (h : NodeKey) :
    (siblingsOf hash up h).length = up.length := by
  induction up generalizing h with
  | nil => rfl
  | cons f up ih => simp [siblingsOf, ih]

theorem rehash_spec {siblings : Siblings} {up : List Frame} (hSave : s.noSaveOnInsert = false)
    (hFits : Fits hash siblings up) (h : NodeKey) :
    Wrote hash s ((scheme hash).pathNodes up h) (rehash hash s h siblings).1 ∧
      (rehash hash s h siblings).2 = (scheme hash).rootUp up h := by
  fun_induction Fits hash siblings up generalizing s h with
  | case1 => exact ⟨Wrote.refl hSave, rfl⟩
  | case2 bit node siblings f up ih =>
    obtain ⟨_, hNode, hRest⟩ := hFits
    have hWrote := wrote_hashSave hSave hash ((scheme hash).frameNode up.length f h)
    have hUp := ih hWrote.save hRest (hash ((scheme hash).frameNode up.length f h))
    rw [rehash, hNode h]
    exact ⟨hWrote.trans hUp.1, hUp.2⟩
  | case3 => exact hFits.elim

/- The bits taken spell the start of the key's path. -/
theorem usedKey_siblingsOf {k : NodeKey} {up : List Frame}
    (hFollows : Trie.Follows NodeKey.pathBit k up) (hDepth : up.length ≤ 256) (h : NodeKey) :
    usedKey (siblingsOf hash up h) = k.getPath.take up.length := by
  induction up generalizing h with
  | nil => rfl
  | cons f up ih =>
    have hUp :=
      ih hFollows.2 (Nat.le_of_succ_le hDepth) (hash ((scheme hash).frameNode up.length f h))
    rw [List.length_cons, NodeKey.take_succ_getPath k hDepth, ← hUp, ← hFollows.1]
    simp [usedKey, siblingsOf]

-- The Walk

/- What the walk reports at the end of a descent. -/
def descentOf (hash : NodeValue12 → NodeKey) (end_ : List Frame × Tree) : Descent where
  siblings := siblingsOf hash end_.1 ((scheme hash).root end_.1.length end_.2)
  oldRoot := (scheme hash).root end_.1.length end_.2
  found :=
    match end_.2 with
    | .leaf key value =>
      some
        { foundKey := key
          foundRKey := key.removeKeyBits end_.1.length
          foundOldValHash := hash (valueNode value) }
    | _ => none

theorem get_of_nodes {db : Db} {h : NodeKey} {node : NodeValue12} (hNode : db.nodes h = some node) :
    db.get h = node := by
  rw [Db.get, hNode]
  rfl

theorem descend_of_zero {db : Db} {keys : List Bool} {siblings : Siblings} {oldRoot : NodeKey}
    (hZero : oldRoot = NodeKey.zero) :
    descend db keys siblings oldRoot = .ok ⟨siblings, oldRoot, none⟩ := by
  unfold descend
  rw [if_pos ((NodeKey.isZero_iff oldRoot).mpr hZero)]

/- Over a stored tree the walk of the source is the descent of the trie. -/
theorem descend_focus {db : Db} {k : NodeKey} {up : List Frame} {t : Tree}
    (hStored : (scheme hash).Stored db.nodes up.length t)
    (hFree : (scheme hash).CollisionFree ((scheme hash).nodes up.length t))
    (hHeight : t.height + up.length ≤ 256) (hFollows : Trie.Follows NodeKey.pathBit k up)
    (hOn : Trie.OnPath NodeKey.pathBit k up.length t) :
    descend db (k.getPath.drop up.length) (siblingsOf hash up ((scheme hash).root up.length t))
        ((scheme hash).root up.length t) =
      .ok (descentOf hash (Trie.focus NodeKey.pathBit k up t)) := by
  induction t using Trie.Tree.side_induction generalizing up with
  | empty => exact descend_of_zero rfl
  | leaf key value =>
    have hNonzero : (scheme hash).root up.length (.leaf key value) ≠ NodeKey.zero :=
      hFree.root_eq_zero_iff.not.mpr (by simp)
    have hUsed : usedKey (siblingsOf hash up ((scheme hash).root up.length (.leaf key value))) =
          key.getPath.take up.length := by
      rw [usedKey_siblingsOf hFollows (by omega)]
      apply NodeKey.take_getPath_congr
      intro i hi
      exact (hOn.agree key value ⟨rfl, rfl⟩ i hi).symm
    have hKey : NodeKey.joinKey (key.getPath.take up.length)
        ((scheme hash).leafNode up.length key value).get0to4 = key :=
      NodeKey.joinKey_removeKeyBits key (by omega)
    unfold descend
    rw [if_neg (mt (NodeKey.isZero_iff _).mp hNonzero), get_of_nodes hStored.leafNode, hUsed, hKey]
    rfl
  | branch left right ih =>
    have hNonzero : (scheme hash).root up.length (.branch left right) ≠ NodeKey.zero :=
      hFree.root_eq_zero_iff.not.mpr (by simp)
    have hSide := Trie.Tree.height_side (k.pathBit up.length) left right
    have hRest := @ih (k.pathBit up.length)
      (⟨k.pathBit up.length, if k.pathBit up.length then left else right⟩ :: up)
      (fun n hn => hStored n (Trie.Scheme.nodes_side hn)) (hFree.mono Trie.Scheme.nodes_side)
      (by simp only [List.length_cons]; omega) ⟨rfl, hFollows⟩
      (hOn.proper.halves.onPath hOn.agree)
    rw [NodeKey.drop_getPath k (by omega), Trie.focus_branch, ← hRest]
    conv_lhs => unfold descend
    rw [if_neg (mt (NodeKey.isZero_iff _).mp hNonzero), get_of_nodes hStored.branchNode]
    cases k.pathBit up.length <;> rfl

-- What a Mode Has to Leave

/-
  The outcome of a mode leads to the tree `t`: its hash and branches are those of `t` opened at
  `tip`, and every node of `t` off the path is already stored.
-/
structure Leads (hash : NodeValue12 → NodeKey) (s : SMT)
    (t : Tree) (o : Outcome) (up : List Frame) (tip : Tree) (ns : List NodeValue12) : Prop where
  fits : Fits hash o.siblings up
  newRoot : o.newRoot = (scheme hash).root up.length tip
  tree : Trie.plug up tip = t
  wrote : Wrote hash s ns o.smt
  fresh : ∀ n ∈ ns, n ∈ (scheme hash).nodes up.length tip
  tipHeld : ∀ n ∈ (scheme hash).nodes up.length tip, s.db.nodes (hash n) = some n ∨ n ∈ ns
  sideHeld : ∀ n ∈ (scheme hash).siblingNodes up, s.db.nodes (hash n) = some n

/- Hashing the kept branches again completes the tree. -/
theorem Leads.finish {t : Tree} {o : Outcome} {up : List Frame} {tip : Tree} {ns : List NodeValue12}
    (hLeads : Leads hash s t o up tip ns)
    (hFree : (scheme hash).CollisionFree ((scheme hash).nodes 0 t)) (newDepth : Nat) :
    (rehash hash (o.smt.updateDepth newDepth) o.newRoot o.siblings).2 = (scheme hash).root 0 t ∧
      (rehash hash (o.smt.updateDepth newDepth) o.newRoot o.siblings).1.noSaveOnInsert = false ∧
      (scheme hash).Stored
        (rehash hash (o.smt.updateDepth newDepth) o.newRoot o.siblings).1.db.nodes 0 t := by
  have hDepth := hLeads.wrote.trans (wrote_updateDepth hLeads.wrote.save newDepth)
  have hRehash := rehash_spec hDepth.save hLeads.fits o.newRoot
  have hWrote := hDepth.trans hRehash.1
  have hNodes : ∀ n, n ∈ (scheme hash).nodes 0 t ↔
          n ∈ (scheme hash).pathNodes up o.newRoot ∨
            n ∈ (scheme hash).siblingNodes up ∨ n ∈ (scheme hash).nodes up.length tip := by
    intro n
    rw [← hLeads.tree, Trie.Scheme.mem_nodes_plug_iff, hLeads.newRoot]
  refine ⟨?_, hWrote.save, ?_⟩
  · rw [hRehash.2, ← hLeads.tree, Trie.Scheme.root_plug, hLeads.newRoot]
  · rw [hWrote.nodes, List.append_nil]
    apply Trie.Scheme.stored_putAll hFree subset_rfl
    · have hFresh := hLeads.fresh
      grind
    · have hTip := hLeads.tipHeld
      have hSide := hLeads.sideHeld
      change ∀ n ∈ _, s.db.nodes (hash n) = some n ∨ _
      grind

section Modes

variable {m : Entries} {k : NodeKey} {up : List Frame} {tip : Tree}

/- The scan finds the first bit where two keys differ. -/
theorem divergence_spec {k' : NodeKey} {d : Nat} (hNe : k ≠ k')
    (hAgree : ∀ i < d, k.pathBit i = k'.pathBit i) (hd : d ≤ 256) (level2 : Nat) :
    ∃ j, d + j < 256 ∧
        (∀ i < j, k.pathBit (d + i) = k'.pathBit (d + i)) ∧ k.pathBit (d + j) ≠ k'.pathBit (d + j) ∧
        divergence (k.getPath.drop d) (k'.getPath.drop d) level2 = level2 + j := by
  obtain ⟨n, hn⟩ : ∃ n, n + d = 256 := ⟨256 - d, by omega⟩
  induction n generalizing d level2 with
  | zero => exact absurd (NodeKey.separates_pathBit k k' (fun i hi => hAgree i (by omega))) hNe
  | succ n ih =>
    have hBit : d < 256 := by omega
    rw [NodeKey.drop_getPath k hBit, NodeKey.drop_getPath k' hBit]
    by_cases hEq : k.pathBit d = k'.pathBit d
    · have hNext : ∀ i < d + 1, k.pathBit i = k'.pathBit i := by
        intro i hi
        rcases Nat.lt_succ_iff_lt_or_eq.mp hi with hLt | rfl
        · exact hAgree i hLt
        · exact hEq
      obtain ⟨j, hLt, hSame, hDiff, hScan⟩ := ih hNext (by omega) (level2 + 1) (by omega)
      refine ⟨j + 1, by omega, ?_, ?_, ?_⟩
      · rintro (_ | i) hi
        · exact hEq
        · simpa only [Nat.add_assoc, Nat.add_comm 1] using hSame i (by omega)
      · simpa only [Nat.add_assoc, Nat.add_comm 1] using hDiff
      · rw [divergence, if_neg (by simpa using hEq), hScan]
        omega
    · refine ⟨0, hBit, by simp, hEq, ?_⟩
      rw [divergence, if_pos hEq]
      rfl

/- The bits of a path between two levels. -/
theorem drop_take_getPath (k : NodeKey) {d j : Nat} (hj : d + j ≤ 256) :
    (k.getPath.take (d + j)).drop d = (List.range j).map (fun i => k.pathBit (d + i)) := by
  apply List.ext_getElem?
  intro i
  by_cases hi : i < j
  · rw [List.getElem?_drop, List.getElem?_take, if_pos (by omega),
      NodeKey.getPath_getElem? k (by omega)]
    simp [hi]
  · rw [List.getElem?_drop, List.getElem?_take, if_neg (by omega)]
    simp [hi]

/- The node that holds both leaves, at depth `d`. -/
def forkNode (hash : NodeValue12 → NodeKey) (k k' : NodeKey) (v v' : Value)
    (d : Nat) : NodeValue12 :=
  (scheme hash).frameNode d ⟨k.pathBit d, .leaf k' v'⟩ ((scheme hash).root (d + 1) (.leaf k v))

/- The frames between two levels of a path, with nothing beside them. -/
def stem (k : NodeKey) (d j : Nat) : List Frame :=
  Trie.spine ((List.range j).map (fun i => k.pathBit (d + i))).reverse

/- The subtree of a fork, opened down to its two leaves. -/
def forkTip (k k' : NodeKey) (v v' : Value) (d j : Nat) : Tree :=
  Trie.plug (Trie.spine ((List.range j).map (fun i => k.pathBit (d + i))).reverse)
    (Trie.Frame.plug ⟨k.pathBit (d + j), .leaf k' v'⟩ (.leaf k v))

theorem root_forkTip (k k' : NodeKey) (v v' : Value) (d j : Nat) :
    (scheme hash).root d (forkTip k k' v v' d j) =
      (scheme hash).rootUp (stem k d j) (hash (forkNode hash k k' v v' (d + j))) := by
  rw [forkTip, Trie.Scheme.root_plug_spine, Trie.Scheme.root_frame_plug]
  simp only [List.length_reverse, List.length_map, List.length_range]
  rfl

theorem mem_nodes_forkTip_iff (k k' : NodeKey) (v v' : Value) (d j : Nat) (n : NodeValue12) :
    n ∈ (scheme hash).nodes d (forkTip k k' v v' d j) ↔
      n ∈ (scheme hash).pathNodes (stem k d j) (hash (forkNode hash k k' v v' (d + j))) ∨
        n = forkNode hash k k' v v' (d + j) ∨ n ∈ (scheme hash).nodes (d + j + 1) (.leaf k' v') ∨
        n ∈ (scheme hash).nodes (d + j + 1) (.leaf k v) := by
  rw [forkTip, Trie.Scheme.mem_nodes_plug_spine_iff, Trie.Scheme.root_frame_plug,
    Trie.Scheme.mem_nodes_frame_plug_iff]
  simp only [List.length_reverse, List.length_map, List.length_range]
  rfl

/- The child of a frame that is not on the path. -/
theorem isUniqueSibling_frameNode {d : Nat} {f : Frame} {h : NodeKey} :
    ((scheme hash).frameNode d f h).isUniqueSibling = if h.isZero then
        if ((scheme hash).root (d + 1) f.sibling).isZero then none
        else some (if f.side then 0 else 1)
      else if ((scheme hash).root (d + 1) f.sibling).isZero then some (if f.side then 1 else 0)
        else none := by
  obtain ⟨side, sibling⟩ := f
  cases side with
  | false =>
    refine (NodeValue12.isUniqueSibling_branch h ((scheme hash).root (d + 1) sibling)).trans ?_
    rfl
  | true =>
    refine (NodeValue12.isUniqueSibling_branch ((scheme hash).root (d + 1) sibling) h).trans ?_
    cases h.isZero <;> cases ((scheme hash).root (d + 1) sibling).isZero <;> rfl

theorem group_frameNode_sibling (d : Nat) (f : Frame) (h : NodeKey) :
    ((scheme hash).frameNode d f h).group (if f.side then 0 else 1) =
      (scheme hash).root (d + 1) f.sibling := by
  obtain ⟨side, sibling⟩ := f
  cases side <;> rfl

theorem isZero_root {d : Nat} {t : Tree}
    (hFree : (scheme hash).CollisionFree ((scheme hash).nodes d t)) :
    ((scheme hash).root d t).isZero = t.isEmpty := by
  rw [Bool.eq_iff_iff, NodeKey.isZero_iff, Trie.Tree.isEmpty_iff]
  exact hFree.root_eq_zero_iff

/- The climb of the source passes the branches that have nothing beside the path. -/
theorem dropWhile_siblingsOf {A : Set NodeValue12} {h : NodeKey}
    (hFree : (scheme hash).CollisionFree A) (hNonzero : h ≠ NodeKey.zero)
    (hPath : ∀ n ∈ (scheme hash).pathNodes up h, n ∈ A)
    (hSide : (scheme hash).siblingNodes up ⊆ A) :
    ∃ h', (siblingsOf hash up h).dropWhile (fun parent => parent.2.isUniqueSibling.isSome) =
        siblingsOf hash (up.dropWhile (fun f => f.sibling.isEmpty)) h' := by
  induction up generalizing h with
  | nil => exact ⟨h, rfl⟩
  | cons f up ih =>
    have hNode := hFree.ne_zero _ (hPath _ List.mem_cons_self)
    have hUnique : ((scheme hash).frameNode up.length f h).isUniqueSibling.isSome =
          f.sibling.isEmpty := by
      rw [isUniqueSibling_frameNode, if_neg (fun hZero =>
        hNonzero ((NodeKey.isZero_iff h).mp hZero)),
        isZero_root (hFree.mono (fun n hn => hSide (Or.inl hn)))]
      cases f.sibling.isEmpty <;> rfl
    rw [siblingsOf, List.dropWhile_cons, List.dropWhile_cons, hUnique]
    split
    · exact ih hNode (fun n hn =>
        hPath n (List.mem_cons_of_mem _ hn)) (fun n hn => hSide (Or.inr hn))
    · exact ⟨h, rfl⟩

theorem siblingNodes_dropWhile_subset (p : Frame → Bool) :
    (scheme hash).siblingNodes (up.dropWhile p) ⊆ (scheme hash).siblingNodes up := by
  induction up with
  | nil => exact subset_rfl
  | cons f up ih =>
    rw [List.dropWhile_cons]
    split
    · exact fun n hn => Or.inr (ih hn)
    · exact subset_rfl

theorem entry_of_isZero {v : NodeValue8} (hZero : v.isZero = true) : v.entry = none := by
  rw [NodeValue8.entry, if_pos hZero]

theorem entry_of_not_isZero {v : NodeValue8} (hZero : v.isZero = false) :
    v.entry = some v.toUintArray := by
  rw [NodeValue8.entry, if_neg (by simp [hZero])]

/- Deleting a key that is absent changes nothing. -/
theorem update_none_of_absent (hAbsent : m k = none) : Function.update m k none = m := by
  rw [← hAbsent, Function.update_eq_self]

variable (hStored : (scheme hash).Stored s.db.nodes 0 (canonical m))

include hStored

theorem side_held (hWalk : Walk m k up tip) :
    ∀ n ∈ (scheme hash).siblingNodes up, s.db.nodes (hash n) = some n := by
  intro n hn
  apply hStored n
  rw [← hWalk.plug, Trie.Scheme.mem_nodes_plug_iff]
  exact Or.inr (Or.inl hn)

theorem tip_held (hWalk : Walk m k up tip) :
    ∀ n ∈ (scheme hash).nodes up.length tip, s.db.nodes (hash n) = some n := by
  intro n hn
  apply hStored n
  rw [← hWalk.plug, Trie.Scheme.mem_nodes_plug_iff]
  exact Or.inr (Or.inr hn)

variable (hSave : s.noSaveOnInsert = false)

include hSave

/- Doing nothing leads to the tree that is there. -/
theorem leads_unchanged (hWalk : Walk m k up tip) (mode : Mode) :
    Leads hash s (canonical m)
      ⟨s, (descentOf hash (up, tip)).siblings, (descentOf hash (up, tip)).oldRoot, mode⟩
      up tip [] where
  fits := fits_siblingsOf up _
  newRoot := rfl
  tree := hWalk.plug
  wrote := Wrote.refl hSave
  fresh := by simp
  tipHeld := fun n hn => Or.inl (tip_held hStored hWalk n hn)
  sideHeld := side_held hStored hWalk

omit hStored hSave in
theorem mem_nodes_leaf_iff {d : Nat} {v : Value} {n : NodeValue12} :
    n ∈ (scheme hash).nodes d (.leaf k v) ↔
      n = leafNode (k.removeKeyBits d) (hash (valueNode v)) ∨ n = valueNode v :=
  Iff.rfl

/- A new leaf at the end of the walk. -/
theorem leads_leaf {v : Value} {newValH : NodeKey} (hVal : ValueHash hash v newValH)
    (hWalk : Walk m k up tip)
    (hTip : Trie.insertTip NodeKey.pathBit 256 k v up.length tip = .leaf k v) (h : NodeKey)
    (mode : Mode) : Leads hash s (canonical (Function.update m k (some v)))
      ⟨(saveLeaf hash (saveValue hash s v newValH).1 k
          (k.removeKeyBits up.length) (saveValue hash s v newValH).2).1,
        siblingsOf hash up h,
        (saveLeaf hash (saveValue hash s v newValH).1 k
          (k.removeKeyBits up.length) (saveValue hash s v newValH).2).2,
        mode⟩
      up (.leaf k v) [valueNode v, leafNode (k.removeKeyBits up.length) (hash (valueNode v))] := by
  have hValue := saveValue_spec hSave hVal
  have hLeaf :=
    saveLeaf_spec hValue.1.save hash k (k.removeKeyBits up.length) (saveValue hash s v newValH).2
  rw [hValue.2] at hLeaf ⊢
  have hTree := hWalk.insert v
  rw [hTip] at hTree
  refine
    ⟨fits_siblingsOf up h, hLeaf.2, hTree, hValue.1.trans hLeaf.1, ?_, ?_, side_held hStored hWalk⟩
  · intro n hn
    rw [mem_nodes_leaf_iff]
    simp only [List.mem_cons, List.not_mem_nil, or_false] at hn
    exact hn.symm
  · intro n hn
    rw [mem_nodes_leaf_iff] at hn
    exact Or.inr (by simp [hn.symm])

/- A new leaf beside the leaf of another key. -/
theorem leads_insertFound {k' : NodeKey} {v v' : Value} {newValH : NodeKey}
    (hVal : ValueHash hash v newValH) (hWalk : Walk m k up (.leaf k' v')) (hNe : k' ≠ k) :
    ∃ o tip ns, insertFound hash s k v newValH
          (siblingsOf hash up ((scheme hash).root up.length (.leaf k' v')))
          ⟨k', k'.removeKeyBits up.length, hash (valueNode v')⟩ = .ok o ∧
        Leads hash s (canonical (Function.update m k (some v))) o up tip ns := by
  obtain ⟨j, hLt, hSame, hDiff, hScan⟩ := divergence_spec (Ne.symm hNe) (fun i hi =>
      (hWalk.agree k' v' ⟨rfl, rfl⟩ i hi).symm) hWalk.depth up.length
  generalize (scheme hash).root up.length (.leaf k' v') = h
  have hFork : Trie.insertTip NodeKey.pathBit 256 k v up.length (.leaf k' v') =
        forkTip k k' v v' up.length j := by
    rw [Trie.insertTip, if_neg hNe]
    exact Trie.fork_eq_plug hSame hDiff (by omega)
  have hTree := hWalk.insert v
  rw [hFork] at hTree
  -- The saves of the source, in its order.
  have hOld :=
    saveLeaf_spec hSave hash k' (k'.removeKeyBits (up.length + j + 1)) (hash (valueNode v'))
  have hValue := saveValue_spec hOld.1.save hVal
  have hNew := saveLeaf_spec hValue.1.save hash k (k.removeKeyBits (up.length + j + 1))
    (hash (valueNode v))
  have hNode := wrote_hashSave hNew.1.save hash (forkNode hash k k' v v' (up.length + j))
  have hChain := chain_spec hNode.save hash (hash (forkNode hash k k' v v' (up.length + j)))
    ((List.range j).map (fun i => k.pathBit (up.length + i))).reverse
  have hWrote := hOld.1.trans (hValue.1.trans (hNew.1.trans (hNode.trans hChain.1)))
  have hFilled : (emptyBranch.setChild (k.pathBit (up.length + j))
      (hash (leafNode (k.removeKeyBits (up.length + j + 1)) (hash (valueNode v))))).setChild
        (k'.pathBit (up.length + j))
        (hash (leafNode (k'.removeKeyBits (up.length + j + 1)) (hash (valueNode v')))) =
      forkNode hash k k' v v' (up.length + j) := by
    unfold forkNode
    cases hBit : k.pathBit (up.length + j) <;> cases hBit' : k'.pathBit (up.length + j)
    · exact absurd (hBit.trans hBit'.symm) hDiff
    · rfl
    · rfl
    · exact absurd (hBit.trans hBit'.symm) hDiff
  refine
    ⟨⟨_, _, _, .insertFound⟩, forkTip k k' v v' up.length j, _, ?_,
      fits_siblingsOf up h, (root_forkTip ..).symm, hTree, hWrote, ?_, ?_, side_held hStored hWalk⟩
  · unfold insertFound
    dsimp only
    rw [length_siblingsOf, hScan, NodeKey.getPath_getElem? k hLt, NodeKey.getPath_getElem? k' hLt,
      drop_take_getPath k (Nat.le_of_lt hLt), eq_pair hOld.2]
    dsimp only
    rw [eq_pair hValue.2]
    dsimp only
    rw [eq_pair hNew.2]
    dsimp only
    rw [hFilled, stem, ← hChain.2]
    rfl
  · intro n hn
    rw [mem_nodes_forkTip_iff, mem_nodes_leaf_iff, mem_nodes_leaf_iff]
    simp only [List.mem_append, List.mem_cons, List.not_mem_nil, or_false] at hn
    tauto
  · intro n hn
    -- The value of the other leaf is stored already.
    have hHeld := tip_held hStored hWalk n
    rw [mem_nodes_leaf_iff] at hHeld
    rw [mem_nodes_forkTip_iff, mem_nodes_leaf_iff, mem_nodes_leaf_iff] at hn
    simp only [List.mem_append, List.mem_cons, List.not_mem_nil, or_false]
    tauto

/- Above a branch the deleted leaf only leaves a gap. -/
theorem leads_gap {f : Frame} {left right : Tree} (hWalk : Walk m k (f :: up) tip)
    (hSibling : f.sibling = .branch left right) (h : NodeKey) :
    Leads hash s (Trie.collapse (f :: up) .empty)
      ⟨s,
        (f.side, (scheme hash).frameNode up.length f NodeKey.zero) :: siblingsOf hash up h,
        NodeKey.zero, .deleteNotFound⟩
      (f :: up) .empty [] where
  fits := ⟨rfl, setChild_frameNode up.length f _, fits_siblingsOf up h⟩
  newRoot := rfl
  tree := by
    obtain ⟨side, sibling⟩ := f
    subst hSibling
    cases side <;> simp [Trie.plug, Trie.collapse, Trie.collapse_branch]
  wrote := Wrote.refl hSave
  fresh := by simp
  tipHeld := fun n hn => hn.elim
  sideHeld := side_held hStored hWalk

/- A lone leaf moves up to the last branch it needs. -/
theorem leads_moved {f : Frame} {k' : NodeKey} {v' : Value} {rest : List Frame}
    (hWalk : Walk m k (f :: up) tip) (hSibling : f.sibling = .leaf k' v')
    (hRest : up.dropWhile (fun f => f.sibling.isEmpty) = rest) (h : NodeKey) :
    Leads hash s (Trie.collapse (f :: up) .empty)
      ⟨(saveLeaf hash s k' (k'.removeKeyBits rest.length) (hash (valueNode v'))).1,
        siblingsOf hash rest h,
        (saveLeaf hash s k' (k'.removeKeyBits rest.length) (hash (valueNode v'))).2, .deleteFound⟩
      rest (.leaf k' v') [leafNode (k'.removeKeyBits rest.length) (hash (valueNode v'))] := by
  have hLeaf := saveLeaf_spec hSave hash k' (k'.removeKeyBits rest.length) (hash (valueNode v'))
  subst hRest
  have hHeld := side_held hStored hWalk
  refine ⟨fits_siblingsOf _ h, hLeaf.2, ?_, hLeaf.1, ?_, ?_, ?_⟩
  · rw [← Trie.collapse_leaf]
    obtain ⟨side, sibling⟩ := f
    subst hSibling
    cases side <;> rfl
  · intro n hn
    rw [List.mem_singleton] at hn
    exact Or.inl hn
  · intro n hn
    rcases hn with hn | hn
    · exact Or.inr (List.mem_singleton.mpr hn)
    · refine Or.inl (hHeld n (Or.inl ?_))
      rw [hSibling]
      exact Or.inr hn
  · intro n hn
    exact hHeld n (Or.inr (siblingNodes_dropWhile_subset _ hn))

/- Deleting leaves the collapsed tree without the leaf. -/
theorem leads_deleteFound {v : Value} (hFree : (scheme hash).CollisionFree (canonicalNodes hash m))
    (hWalk : Walk m k up (.leaf k v)) :
    ∃ up' tip ns, Leads hash s (canonical (Function.update m k none))
        (deleteFound hash s (siblingsOf hash up ((scheme hash).root up.length (.leaf k v))))
        up' tip ns := by
  rw [← hWalk.delete v hWalk.entry]
  cases up with
  | nil =>
    refine ⟨[], .empty, [], trivial, rfl, rfl, Wrote.refl hSave, ?_, ?_, ?_⟩
    · simp
    · exact fun n hn => hn.elim
    · exact fun n hn => hn.elim
  | cons f up =>
    have hNodes : ∀ n,
          n ∈ (scheme hash).pathNodes (f :: up) ((scheme hash).root (f :: up).length (.leaf k v)) ∨
              n ∈ (scheme hash).siblingNodes (f :: up) →
            n ∈ canonicalNodes hash m := by
      intro n hn
      rw [canonicalNodes, ← hWalk.plug, Trie.Scheme.mem_nodes_plug_iff]
      tauto
    have hSiblingFree :
        (scheme hash).CollisionFree ((scheme hash).nodes (up.length + 1) f.sibling) :=
      hFree.mono (fun n hn => hNodes n (Or.inr (Or.inl hn)))
    have hSiblingStored : (scheme hash).Stored s.db.nodes (up.length + 1) f.sibling :=
      fun n hn => side_held hStored hWalk n (Or.inl hn)
    have hZeroed : ∀ h, ((scheme hash).frameNode up.length f h).setChild f.side NodeKey.zero = _ :=
      fun h => setChild_frameNode up.length f h NodeKey.zero
    have hUnique : ((scheme hash).frameNode up.length f NodeKey.zero).isUniqueSibling =
        some (if f.side then 0 else 1) := by
      rw [isUniqueSibling_frameNode, if_pos NodeKey.isZero_zero, isZero_root hSiblingFree, if_neg]
      rw [Trie.Tree.isEmpty_iff]
      exact hWalk.tight.sibling_ne_empty
    rw [siblingsOf, deleteFound]
    simp only [hZeroed, hUnique, group_frameNode_sibling]
    cases hSibling : f.sibling with
    | empty => exact absurd hSibling hWalk.tight.sibling_ne_empty
    | branch left right =>
      rw [hSibling] at hSiblingStored
      rw [get_of_nodes hSiblingStored.branchNode]
      exact ⟨_, _, _, leads_gap hStored hSave hWalk hSibling _⟩
    | leaf k' v' =>
      rw [hSibling] at hSiblingStored
      -- The bits taken, with the last one turned round,
      -- are the path of the leaf on the other side.
      have hAgree := Trie.sibling_agree (hWalk.plug ▸ canonical_proper m) hWalk.follows
          (show Trie.Tree.Mem k' v' f.sibling by
            rw [hSibling]
            exact ⟨rfl, rfl⟩)
      have hDepth := hWalk.depth
      have hKey : ∀ h, NodeKey.joinKey (usedKey (siblingsOf hash up h) ++
          [(if f.side then (0 : Fin 3) else 1) == 1])
            ((scheme hash).leafNode (up.length + 1) k' v').get0to4 = k' := by
        intro h
        have hSide : ((if f.side then (0 : Fin 3) else 1) == 1) = k'.pathBit up.length := by
          rw [hAgree.2]
          cases f.side <;> rfl
        rw [usedKey_siblingsOf hWalk.follows.2 (Nat.le_of_succ_le hDepth), hSide,
            NodeKey.take_getPath_congr (fun i hi => (hAgree.1 i hi).symm),
            ← NodeKey.take_succ_getPath k' hDepth]
        exact NodeKey.joinKey_removeKeyBits k' hDepth
      have hTop : hash
              ((scheme hash).frameNode up.length f
                ((scheme hash).root (f :: up).length (.leaf k v))) ≠ NodeKey.zero :=
        hFree.ne_zero _ (hNodes _ (Or.inl List.mem_cons_self))
      obtain ⟨h', hClimb⟩ := dropWhile_siblingsOf hFree hTop (fun n hn =>
          hNodes n (Or.inl (List.mem_cons_of_mem _ hn))) (fun n hn => hNodes n (Or.inr (Or.inr hn)))
      rw [get_of_nodes hSiblingStored.leafNode, hClimb, hKey, length_siblingsOf]
      exact ⟨_, _, _, leads_moved hStored hSave hWalk hSibling rfl h'⟩

theorem applyMode_leads {v : NodeValue8} {newValH : NodeKey}
    (hFree : (scheme hash).CollisionFree (canonicalNodes hash m))
    (hVal : ValueHash hash v.toUintArray newValH) (hWalk : Walk m k up tip) :
    ∃ o up' tip' ns, applyMode hash s k v newValH (descentOf hash (up, tip)) = .ok o ∧
        Leads hash s (canonical (Function.update m k v.entry)) o up' tip' ns := by
  cases hZero : v.isZero with
  | false =>
    rw [entry_of_not_isZero hZero]
    cases tip with
    | branch left right => exact absurd rfl (hWalk.tip_ne_branch left right)
    | empty =>
      have hLeads := leads_leaf hStored hSave hVal hWalk rfl NodeKey.zero .insertNotFound
      refine ⟨_, _, _, _, ?_, hLeads⟩
      simp only [applyMode, hZero, descentOf, insertNotFound, length_siblingsOf]
      rfl
    | leaf k' v' =>
      by_cases hEq : k' = k
      · subst hEq
        have hLeads := leads_leaf hStored hSave hVal hWalk (by simp [Trie.insertTip])
            ((scheme hash).root up.length (.leaf k' v')) .update
        refine ⟨_, _, _, _, ?_, hLeads⟩
        simp only [applyMode, hZero, descentOf, (NodeKey.isEqualTo_iff k' k').mpr rfl]
        rfl
      · obtain ⟨o, tip', ns, hRun, hLeads⟩ := leads_insertFound hStored hSave hVal hWalk hEq
        refine ⟨o, up, tip', ns, ?_, hLeads⟩
        simp only [applyMode, hZero, descentOf, NodeKey.isEqualTo_iff, hEq, if_false]
        exact hRun
  | true =>
    rw [entry_of_isZero hZero]
    cases tip with
    | branch left right => exact absurd rfl (hWalk.tip_ne_branch left right)
    | empty =>
      rw [update_none_of_absent (hWalk.absent (fun value => by simp))]
      refine ⟨_, _, _, _, ?_, leads_unchanged hStored hSave hWalk .zeroToZero⟩
      simp only [applyMode, hZero, descentOf]
    | leaf k' v' =>
      by_cases hEq : k' = k
      · subst hEq
        obtain ⟨up', tip', ns, hLeads⟩ := leads_deleteFound hStored hSave hFree hWalk
        refine ⟨_, up', tip', ns, ?_, hLeads⟩
        simp only [applyMode, hZero, descentOf, (NodeKey.isEqualTo_iff k' k').mpr rfl, if_true]
      · rw [update_none_of_absent (hWalk.absent (fun value => by simp [hEq]))]
        refine ⟨_, _, _, _, ?_, leads_unchanged hStored hSave hWalk .zeroToZero⟩
        simp only [applyMode, hZero, descentOf, NodeKey.isEqualTo_iff, hEq, if_false]

end Modes

/- The database holds the canonical tree of the map. -/
structure Holds (hash : NodeValue12 → NodeKey) (s : SMT) (m : Entries) : Prop where
  save : s.noSaveOnInsert = false
  stored : (scheme hash).Stored s.db.nodes 0 (canonical m)
  lastRoot : s.getLastRoot = canonicalRoot hash m

/- One insertion takes the tree of a map to the next one. -/
theorem insert_step {m : Entries} {k newValH : NodeKey} {v : NodeValue8}
    (hSave : s.noSaveOnInsert = false) (hStored : (scheme hash).Stored s.db.nodes 0 (canonical m))
    (hFree : (scheme hash).CollisionFree (canonicalNodes hash m))
    (hFree' : (scheme hash).CollisionFree (canonicalNodes hash (Function.update m k v.entry)))
    (hVal : ValueHash hash v.toUintArray newValH) :
    ∃ s' mode, s.insert hash k v newValH (canonicalRoot hash m) =
          .ok (s', ⟨canonicalRoot hash (Function.update m k v.entry), mode⟩) ∧
        s'.noSaveOnInsert = false ∧
        (scheme hash).Stored s'.db.nodes 0 (canonical (Function.update m k v.entry)) := by
  have hDescend := @descend_focus hash s.db k [] (canonical m) hStored hFree
      (height_canonical_le m) trivial (canonical_proper m).onPath
  obtain ⟨o, up, tip, ns, hMode, hLeads⟩ :=
    applyMode_leads hStored hSave hFree hVal (walk_canonical m k)
  have hFinish := hLeads.finish hFree' o.siblings.length
  refine ⟨_, o.mode, ?_, hFinish.2⟩
  have hRoot : canonicalRoot hash (Function.update m k v.entry) = _ := hFinish.1.symm
  rw [hRoot]
  unfold SMT.insert
  rw [show descend s.db k.getPath [] (canonicalRoot hash m) = _ from hDescend]
  change (applyMode hash s k v newValH _ >>= fun o => _) = _
  rw [hMode]
  rfl

theorem insertSingle_step {m : Entries} {k newValH : NodeKey} {v : NodeValue8}
    (hHolds : Holds hash s m) (hFree : (scheme hash).CollisionFree (canonicalNodes hash m))
    (hFree' : (scheme hash).CollisionFree (canonicalNodes hash (Function.update m k v.entry)))
    (hVal : ValueHash hash v.toUintArray newValH) : ∃ s' mode, s.insertSingle hash k v newValH =
          .ok (s', ⟨canonicalRoot hash (Function.update m k v.entry), mode⟩) ∧
        Holds hash s' (Function.update m k v.entry) := by
  obtain ⟨s', mode, hRun, hSave, hStored⟩ := insert_step hHolds.save hHolds.stored hFree hFree' hVal
  refine
    ⟨s'.setLastRoot (canonicalRoot hash (Function.update m k v.entry)),
      mode, ?_, hSave, hStored, SMT.getLastRoot_setLastRoot s' _⟩
  unfold SMT.insertSingle
  rw [hHolds.lastRoot, hRun]
  rfl

-- Runs of Insertions

/- The map after some pairs; a zero value deletes. -/
def entriesAfter (m : Entries) :
    List (NodeKey × NodeValue8) → Entries
  | [] => m
  | (k, v) :: kvs =>
      entriesAfter (Function.update m k v.entry) kvs

theorem entriesAfter_append (m : Entries) (kvs kvs' : List (NodeKey × NodeValue8)) :
    entriesAfter m (kvs ++ kvs') = entriesAfter (entriesAfter m kvs) kvs' := by
  induction kvs generalizing m with
  | nil => rfl
  | cons kv kvs ih => exact ih _

def noEntries : Entries := fun _ => none

theorem canonical_noEntries : canonical noEntries = .empty :=
  canonical_eq_empty_iff.mpr (fun _ => rfl)

theorem canonical_update_noEntries {k : NodeKey} {v : NodeValue8} (hZero : v.isZero = false) :
    canonical (Function.update noEntries k v.entry) = .leaf k v.toUintArray := by
  rw [entry_of_not_isZero hZero]
  apply canonical_of_single
  refine ⟨Function.update_self .., ?_⟩
  intro key hKey
  rw [Function.update_of_ne hKey]
  rfl

theorem holds_empty (hash : NodeValue12 → NodeKey) : Holds hash SMT.empty noEntries := by
  refine ⟨rfl, ?_, ?_⟩
  · rw [canonical_noEntries]
    exact fun n hn => hn.elim
  · rw [canonicalRoot, canonical_noEntries]
    funext i
    simp [SMT.getLastRoot, SMT.empty, Db.empty, NodeKey.scalarToRoot, scheme, Trie.Scheme.root,
      NodeKey.zero]

/- No tree on the way has two nodes with one hash. -/
def RunFree (hash : NodeValue12 → NodeKey) (m : Entries)
    (kvs : List (NodeKey × NodeValue8)) : Prop :=
  ∀ n, (scheme hash).CollisionFree (canonicalNodes hash (entriesAfter m (kvs.take n)))

/- Every run of insertions keeps the canonical tree. -/
theorem insertAll_run {m : Entries} {kvs : List (NodeKey × NodeValue8)} (hHolds : Holds hash s m)
    (hFree : RunFree hash m kvs) :
    ∃ s', s.insertAll hash kvs = .ok s' ∧ Holds hash s' (entriesAfter m kvs) := by
  induction kvs generalizing s m with
  | nil => exact ⟨s, rfl, hHolds⟩
  | cons kv kvs ih =>
    obtain ⟨k, v⟩ := kv
    have hStart : (scheme hash).CollisionFree (canonicalNodes hash m) := hFree 0
    have hNext : (scheme hash).CollisionFree
        (canonicalNodes hash (Function.update m k v.entry)) := hFree 1
    obtain ⟨s₁, mode, hRun, hHolds₁⟩ := insertSingle_step hHolds hStart hNext (Or.inl rfl)
    obtain ⟨s', hRest, hHolds'⟩ := ih hHolds₁ (fun n => hFree (n + 1))
    refine ⟨s', ?_, hHolds'⟩
    unfold SMT.insertAll
    rw [hRun]
    exact hRest

/-
  From the empty tree, after any insertions, the last one returns the root of the canonical tree
  of the final map.
-/
theorem insertSingle_root_canonical (hash : NodeValue12 → NodeKey)
    (kvs : List (NodeKey × NodeValue8)) (k : NodeKey) (v : NodeValue8)
    (hFree : RunFree hash noEntries (kvs ++ [(k, v)])) :
    ∃ s s' mode, SMT.empty.insertAll hash kvs = .ok s ∧
        s.insertSingle hash k v NodeKey.zero =
          .ok (s', ⟨canonicalRoot hash (entriesAfter noEntries (kvs ++ [(k, v)])), mode⟩) := by
  have hBefore : RunFree hash noEntries kvs := by
    intro n
    by_cases hn : n ≤ kvs.length
    · have hTake := hFree n
      rwa [List.take_append_of_le_length hn] at hTake
    · have hTake := hFree kvs.length
      rw [List.take_left' rfl] at hTake
      rwa [List.take_of_length_le (Nat.le_of_not_le hn)]
  obtain ⟨s, hRun, hHolds⟩ := insertAll_run (holds_empty hash) hBefore
  have hStart := hBefore kvs.length
  rw [List.take_length] at hStart
  have hNext := hFree (kvs.length + 1)
  rw [List.take_of_length_le (by simp)] at hNext
  rw [entriesAfter_append] at hNext ⊢
  obtain ⟨s', mode, hLast, _⟩ := insertSingle_step hHolds hStart hNext (Or.inl rfl)
  exact ⟨s, s', mode, hRun, hLast⟩

/- The nodes of the trees with the sample keys 0 and 1. -/
def sampleNodes : List NodeValue12 :=
  let leaf (d key value : Nat) : NodeValue12 :=
    (scheme sampleHash).leafNode d (sampleKey key) (sampleValue value).toUintArray
  [valueNode (sampleValue 1).toUintArray, valueNode (sampleValue 2).toUintArray,
    leaf 0 0 1, leaf 1 0 1, leaf 0 1 2, leaf 1 1 2, branchNode (sampleHash (leaf 1 0 1))
    (sampleHash (leaf 1 1 2))]

/- A call that returns, from an evaluation of its result. -/
theorem exists_ok_of_toOption {α β : Type} {call : Except Failure α} {f : α → β} {b : β}
    (hResult : call.toOption.map f = some b) : ∃ a, call = .ok a ∧ f a = b := by
  cases call with
  | error failure => contradiction
  | ok a => exact ⟨a, rfl, Option.some.inj hResult⟩

/- Insert two keys, then delete the first one again. -/
def sampleRun : List (NodeKey × NodeValue8) :=
  [(sampleKey 0, sampleValue 1), (sampleKey 1, sampleValue 2), (sampleKey 0, sampleValue 0)]

theorem collisionFree_sampleNodes : (scheme sampleHash).CollisionFree {n | n ∈ sampleNodes} :=
  collisionFree_of_list sampleNodes (fun _ hn => hn) (by decide +kernel) (by decide +kernel)

/- All trees of the run are made of these nodes. -/
theorem mem_sampleNodes (n : Nat) :
    canonicalNodes sampleHash (entriesAfter noEntries (sampleRun.take n)) ⊆
      {node | node ∈ sampleNodes} := by
  have hEntry : (sampleValue 1).entry = some (sampleValue 1).toUintArray :=
    entry_of_not_isZero (by decide)
  have hEntry' : (sampleValue 2).entry = some (sampleValue 2).toUintArray :=
    entry_of_not_isZero (by decide)
  have hNe : sampleKey 1 ≠ sampleKey 0 := by decide
  have hFirst := @canonical_update_noEntries (sampleKey 0) (sampleValue 1) (by decide)
  have hBoth : canonical
          (Function.update (Function.update noEntries (sampleKey 0) (sampleValue 1).entry)
            (sampleKey 1) (sampleValue 2).entry) =
        .branch (.leaf (sampleKey 0) (sampleValue 1).toUintArray)
          (.leaf (sampleKey 1) (sampleValue 2).toUintArray) := by
    rw [hEntry, hEntry', canonical_of_pair (Function.update_self ..) (by
      rw [Function.update_of_ne hNe.symm, Function.update_self]) hNe (by
          intro key hKey hKey'
          rw [Function.update_of_ne hKey, Function.update_of_ne hKey']
          rfl),
      Trie.fork, if_neg (by decide), if_pos (by decide)]
  have hLast : canonical
          (Function.update
            (Function.update (Function.update noEntries (sampleKey 0) (sampleValue 1).entry)
              (sampleKey 1) (sampleValue 2).entry)
            (sampleKey 0) (sampleValue 0).entry) =
        .leaf (sampleKey 1) (sampleValue 2).toUintArray := by
    apply canonical_of_single
    constructor
    · rw [Function.update_of_ne hNe, Function.update_self, hEntry']
    · intro key hKey
      by_cases hZero : key = sampleKey 0
      · rw [hZero, Function.update_self]
        decide
      · rw [Function.update_of_ne hZero, Function.update_of_ne hKey, Function.update_of_ne hZero]
        rfl
  intro node hNode
  rw [canonicalNodes] at hNode
  rcases n with _ | _ | _ | n
  · rw [List.take_zero, entriesAfter, canonical_noEntries] at hNode
    exact hNode.elim
  all_goals simp only [sampleRun, List.take_succ_cons, List.take_zero, List.take_nil, entriesAfter,
    hFirst, hBoth, hLast] at hNode
  · rcases hNode with rfl | rfl <;> decide +kernel
  · rcases hNode with rfl | (rfl | rfl) | (rfl | rfl) <;> decide +kernel
  · rcases hNode with rfl | rfl <;> decide +kernel

theorem runFree_sampleRun : RunFree sampleHash noEntries sampleRun :=
  fun n => collisionFree_sampleNodes.mono (mem_sampleNodes n)

theorem runFree_single : RunFree sampleHash noEntries [(sampleKey 0, sampleValue 1)] := by
  intro n
  cases n with
  | zero => exact runFree_sampleRun 0
  | succ n =>
    rw [List.take_of_length_le (by simp)]
    exact runFree_sampleRun 1

theorem insertSingle_root_canonical_sampleRun :
    RunFree sampleHash noEntries sampleRun ∧
      ∃ s s' mode, SMT.empty.insertAll sampleHash
            [(sampleKey 0, sampleValue 1), (sampleKey 1, sampleValue 2)] = .ok s ∧
          s.insertSingle sampleHash (sampleKey 0) (sampleValue 0) NodeKey.zero =
            .ok (s', ⟨canonicalRoot sampleHash (entriesAfter noEntries sampleRun), mode⟩) :=
  ⟨runFree_sampleRun,
    insertSingle_root_canonical sampleHash
      [(sampleKey 0, sampleValue 1), (sampleKey 1, sampleValue 2)]
      (sampleKey 0) (sampleValue 0) runFree_sampleRun⟩

end XLayerErigon.Smt
