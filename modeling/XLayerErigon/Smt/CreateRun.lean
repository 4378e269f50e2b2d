import XLayerErigon.Smt.CreateCorrect

/-
  Correctness of building the tree at once.

  A key that comes after all keys so far goes to the right of everything in memory, so a queued
  job keeps its node while keys are added, and jobs can run at any time.  The tree that remains at
  the end is the one that insertions of the keys one by one give.

  Main results:
    * `insertKey_spec`
    * `runJob_spec`
    * `generateFromKVBulk_iff`
-/

namespace XLayerErigon.Smt

variable {hash : NodeValue12 → NodeKey} {store store' : NodeKey → Option NodeValue12}
  {vals vals' : NodeKey → Option NodeValue8} {d : Nat} {t left right : Tree} {n n' : SmtNode}

-- Queued Jobs

/- The node at the path has both sides, nothing deleted. -/
def Pending : List Bool → SmtNode → Prop
  | [], .nil => False
  | [], .node _ leftHash node0 node1 =>
      leftHash = NodeKey.zero ∧ node0.isNil = false ∧ node1.isNil = false
  | bit :: path, n => Pending path (n.child bit)

variable {b : Build} {k : NodeKey} {m : Entries} {keys : List NodeKey}
  {value : NodeKey → NodeValue8}

theorem not_pending_nil (path : List Bool) : ¬ Pending path .nil := by
  induction path with
  | nil => exact id
  | cons bit path ih => exact ih

theorem not_pending_leaf (rKey : List Bool) (path : List Bool) :
    ¬ Pending path (SmtNode.leaf rKey) := by
  cases path with
  | nil => exact fun hPending => Bool.noConfusion hPending.2.1
  | cons bit path =>
    cases bit <;> exact not_pending_nil path

/- What keeps every queued job at its node. -/
structure Grows (n n' : SmtNode) : Prop where
  some : n.isNil = false → n'.isNil = false
  pending : ∀ path, Pending path n → Pending path n'

theorem SmtNode.child_setChild_same (bit : Bool) (hNode : n.isNil = false) :
    (n.setChild bit n').child bit = n' := by
  cases n with
  | nil => cases hNode
  | node rKey h node0 node1 => cases bit <;> rfl

theorem SmtNode.child_setChild_other {bit bit' : Bool} (hOther : bit' ≠ bit) :
    (n.setChild bit n').child bit' = n.child bit' := by
  cases n with
  | nil => rfl
  | node rKey h node0 node1 =>
    cases bit <;> cases bit' <;> first | rfl | exact absurd rfl hOther

theorem SmtNode.isNil_setChild (bit : Bool) : (n.setChild bit n').isNil = n.isNil := by
  cases n with
  | nil => rfl
  | node rKey h node0 node1 => cases bit <;> rfl

theorem SmtNode.setChild_child (n : SmtNode) (bit : Bool) : n.setChild bit (n.child bit) = n := by
  cases n with
  | nil => rfl
  | node rKey h node0 node1 => cases bit <;> rfl

/- Another child in place of one on the path of the job. -/
theorem Pending.setChild {c c' : SmtNode} {bit : Bool} {path : List Bool}
    (hPending : Pending path (n.setChild bit c)) (hSome : c.isNil = false → c'.isNil = false)
    (hBelow : ∀ rest, path = bit :: rest → Pending rest c → Pending rest c') :
    Pending path (n.setChild bit c') := by
  cases n with
  | nil => exact hPending
  | node rKey h node0 node1 =>
    cases path with
    | nil =>
      cases bit with
      | true => exact ⟨hPending.1, hPending.2.1, hSome hPending.2.2⟩
      | false => exact ⟨hPending.1, hSome hPending.2.1, hPending.2.2⟩
    | cons bit' rest =>
      rw [Pending] at hPending ⊢
      by_cases hBit : bit' = bit
      · subst hBit
        rw [SmtNode.child_setChild_same _ (by rfl)] at hPending ⊢
        exact hBelow rest rfl hPending
      · rw [SmtNode.child_setChild_other hBit] at hPending ⊢
        exact hPending

/- A child in place of another that it can stand for. -/
theorem Grows.setChild {c c' : SmtNode} (bit : Bool) (hGrows : Grows c c') :
    Grows (n.setChild bit c) (n.setChild bit c') where
  some := by
    rw [SmtNode.isNil_setChild, SmtNode.isNil_setChild]
    exact id
  pending := fun _ hPending => hPending.setChild hGrows.some (fun rest _ => hGrows.pending rest)

theorem Grows.plug (uppers : Uppers) (hGrows : Grows n n') :
    Grows (Uppers.plug uppers n) (Uppers.plug uppers n') := by
  induction uppers generalizing n n' with
  | nil => exact hGrows
  | cons upper uppers ih => exact ih (hGrows.setChild upper.1)

theorem FrameDepicts.isNil {f : Frame} {upper : Bool × SmtNode}
    (hFrame : FrameDepicts hash store vals d f upper) : upper.2.isNil = false := by
  cases hFrame <;> rfl

theorem FrameDepicts.side {f : Frame} {upper : Bool × SmtNode}
    (hFrame : FrameDepicts hash store vals d f upper) : upper.1 = f.side := by
  cases hFrame <;> rfl

/- A path below the frames of a key, seen from the root. -/
theorem UpDepicts.pending_iff {k : NodeKey} {up : List Frame} {uppers : Uppers}
    (hUp : UpDepicts hash store vals up uppers) (hFollows : Trie.Follows NodeKey.pathBit k up)
    (hDepth : up.length ≤ 256) (path : List Bool) :
    Pending (k.getPath.take up.length ++ path) (Uppers.plug uppers n) ↔ Pending path n := by
  induction hUp generalizing path n with
  | nil => exact Iff.rfl
  | cons f upper up uppers hFrame hUp ih =>
    rw [List.length_cons] at hDepth ⊢
    have hTake :
        k.getPath.take (up.length + 1) ++ path = k.getPath.take up.length ++ (f.side :: path) := by
      rw [NodeKey.take_succ_getPath k (by omega),
        hFollows.1, List.append_assoc, List.singleton_append]
    rw [hTake, Uppers.plug, ih hFollows.2 (by omega), Pending, hFrame.side,
      SmtNode.child_setChild_same _ hFrame.isNil]

/- A node with a job below it stands for a branch. -/
theorem Depicts.branch_of_pending {t : Tree} {path : List Bool}
    (hRep : Depicts hash store vals d t n) (hPending : Pending path n) :
    ∃ left right, t = .branch left right := by
  cases t with
  | empty => exact absurd (hRep.eq_nil ▸ hPending) (not_pending_nil path)
  | leaf key value => exact absurd (hRep.isLeaf_leaf.1 ▸ hPending) (not_pending_leaf _ path)
  | branch left right => exact ⟨left, right, rfl⟩

/- A later key turns right at the node of a queued job. -/
theorem Depicts.not_isPrefix {path : List Bool}
    (hRep : Depicts hash store vals d (.branch left right) n) (hAhead : Ahead k d left right)
    (hPending : Pending path n) : ¬ path ++ [false] <+: k.getPath.drop d := by
  rw [NodeKey.drop_getPath k hAhead.depth_lt]
  induction path generalizing d left right n with
  | nil =>
    intro hLeft
    have hBit : k.pathBit d = false := (List.cons_prefix_cons.mp hLeft).1.symm
    have hEmpty := hAhead.halves.right_eq_empty hAhead.after hAhead.agree hBit
    cases hRep with
    | inner _ _ _ node0 node1 _ hRight => exact hRight.ne_empty hPending.2.2 hEmpty
    | half _ _ _ node1 _ hSome _ => exact hSome hEmpty
  | cons bit path ih =>
    intro hLeft
    rcases List.cons_prefix_cons.mp hLeft with ⟨rfl, hRest⟩
    rcases hRep.side hAhead.halves hAhead.after hAhead.agree with ⟨_, hSide, _⟩
    rcases hSide.branch_of_pending hPending with ⟨left', right', hTree⟩
    have hNext := hAhead.next hTree
    rw [hTree] at hSide
    rw [NodeKey.drop_getPath k hNext.depth_lt] at hRest
    exact ih hSide hNext hPending hRest

-- Adding a Key

theorem commonBits_isPrefix (rKey keys : List Bool) : commonBits rKey keys <+: keys := by
  fun_induction commonBits rKey keys with
  | case1 rKey b keys ih => exact (List.prefix_cons_inj b).mpr ih
  | case2 | case3 => exact List.nil_prefix

theorem pending_chainNodes (bits : List Bool) (hPending : Pending [] n) :
    Pending bits (chainNodes bits n) := by
  induction bits with
  | nil => exact hPending
  | cons bit bits ih =>
    rw [Pending, chainNodes, SmtNode.child_setChild_same _ (by rfl)]
    exact ih

theorem isNil_chainNodes (bits : List Bool) (hSome : n.isNil = false) :
    (chainNodes bits n).isNil = false := by
  cases bits with
  | nil => exact hSome
  | cons bit bits =>
    rw [chainNodes, SmtNode.isNil_setChild]
    rfl

def partNode (key' k : NodeKey) (i : Nat) : SmtNode :=
  .node [] NodeKey.zero (SmtNode.leaf (key'.getPath.drop (i + 1)))
    (SmtNode.leaf (k.getPath.drop (i + 1)))

def forkChain (key' k : NodeKey) (d j : Nat) : SmtNode :=
  chainNodes (commonBits (key'.getPath.drop d) (k.getPath.drop d)) (partNode key' k (d + j))

theorem rep_fork {k key' : NodeKey} {v v' : NodeValue8} {j : Nat} (hVal : vals k = some v)
    (hVal' : vals key' = some v') (hDepth : d + j < 256)
    (hSame : ∀ i < j, key'.pathBit (d + i) = k.pathBit (d + i))
    (hFalse : key'.pathBit (d + j) = false) (hTrue : k.pathBit (d + j) = true) :
    (commonBits (key'.getPath.drop d) (k.getPath.drop d)).length = j ∧
      Depicts hash store vals d
        (Trie.fork NodeKey.pathBit k v.toUintArray key' v'.toUintArray (256 - d) d)
        (forkChain key' k d j) := by
  unfold forkChain
  induction j generalizing d with
  | zero =>
    rw [Nat.add_zero] at hDepth hFalse hTrue
    rw [NodeKey.drop_getPath k hDepth, NodeKey.drop_getPath key' hDepth,
      show 256 - d = (255 - d) + 1 by omega, Trie.fork, commonBits]
    rw [hFalse, hTrue, if_neg (by simp), if_neg (by simp), if_pos rfl]
    exact ⟨rfl, .inner d _ _ _ _ (.leaf (d + 1) key' v' hVal') (.leaf (d + 1) k v hVal)⟩
  | succ j ih =>
    have hHead : key'.pathBit d = k.pathBit d := hSame 0 (Nat.succ_pos j)
    have hIndex (i : Nat) : d + (i + 1) = d + 1 + i := by omega
    rw [hIndex] at hDepth hFalse hTrue ⊢
    have hRest := ih hDepth (fun i hi => hIndex i ▸ hSame (i + 1) (by omega)) hFalse hTrue
    rw [NodeKey.drop_getPath k (by omega), NodeKey.drop_getPath key' (by omega),
      show 256 - d = (256 - (d + 1)) + 1 by omega, Trie.fork, commonBits, if_pos hHead,
      if_pos hHead.symm, List.length_cons, hRest.1]
    refine ⟨rfl, ?_⟩
    rw [chainNodes]
    cases hBit : k.pathBit d with
    | true => exact .inner d _ _ _ _ (.empty (d + 1)) hRest.2
    | false => exact .inner d _ _ _ _ hRest.2 (.empty (d + 1))

/-
  What adding a key does to the build: the tree grows, and at most one job is queued, for a node
  on the key's path.
-/
structure Added (k : NodeKey) (b b' : Build) : Prop where
  db : b'.db = b.db
  leafValueMap : b'.leafValueMap = b.leafValueMap
  grows : Grows b.rootNode b'.rootNode
  jobs : ∃ news : List (List Bool), b'.jobs = b.jobs ++ news ∧
      news.length ≤ 1 ∧
      ∀ path ∈ news, path <+: k.getPath ∧ ¬ Pending path b.rootNode ∧ Pending path b'.rootNode

theorem UpDepicts.length_eq {up : List Frame} {uppers : Uppers}
    (hUp : UpDepicts hash store vals up uppers) : uppers.length = up.length := by
  induction hUp with
  | nil => rfl
  | cons f upper up uppers hFrame hUp ih => rw [List.length_cons, List.length_cons, ih]

/- A new leaf next to the leaf of an earlier key. -/
theorem insertAtLeaf_spec {k key' : NodeKey} {v : NodeValue8} {value' : Value} {up : List Frame}
    {uppers : Uppers} {found : SmtNode}
    (hReached : Reached hash store vals k up (.leaf key' value') b.rootNode uppers found)
    (hFollows : Trie.Follows NodeKey.pathBit k up) (hVal : vals k = some v) :
    ∃ b', insertAtLeaf b k.getPath (key'.getPath.drop up.length) uppers = .ok b' ∧
        Added k b b' ∧
        Depicts hash store vals 0
          (Trie.plug up
            (Trie.fork NodeKey.pathBit k v.toUintArray key' value' (256 - up.length) up.length))
          b'.rootNode := by
  have hUpRep := hReached.frames
  have hLevel := hUpRep.length_eq
  rcases hReached.after key' value' ⟨rfl, rfl⟩ with ⟨i, hSame, hFalse, hTrue⟩
  have hi : i < 256 := by
    by_contra hGe
    rw [NodeKey.pathBit_of_le k (by omega)] at hTrue
    cases hTrue
  have hLe : up.length ≤ i := by
    by_contra hGt
    rw [hReached.agree key' value' ⟨rfl, rfl⟩ i (by omega), hTrue] at hFalse
    cases hFalse
  rcases Nat.exists_eq_add_of_le hLe with ⟨j, rfl⟩
  cases hReached.place with
  | leaf _ _ v' hVal' =>
    have hFork := @rep_fork hash store vals up.length k key' v v' j hVal
        hVal' hi (fun i hi => hSame _ (by omega)) hFalse hTrue
    have hSome : (forkChain key' k up.length j).isNil = false := isNil_chainNodes _ rfl
    have hPath : k.getPath.take (up.length + j) =
          k.getPath.take up.length ++
            commonBits (key'.getPath.drop up.length) (k.getPath.drop up.length) := by
      have hCommon := List.prefix_iff_eq_take.mp
          (commonBits_isPrefix (key'.getPath.drop up.length) (k.getPath.drop up.length))
      rw [hFork.1] at hCommon
      rw [List.take_add, ← hCommon]
    have hGrows : Grows b.rootNode (Uppers.plug uppers (forkChain key' k up.length j)) := by
      rw [← hReached.root]
      apply Grows.plug
      exact ⟨fun _ => hSome, fun path hPending => absurd hPending (not_pending_leaf _ path)⟩
    have hRun : insertAtLeaf b k.getPath (key'.getPath.drop up.length) uppers =
          .ok
            { b with
              rootNode := Uppers.plug uppers (forkChain key' k up.length j)
              jobs := b.jobs ++ [k.getPath.take (up.length + j)]
              maxReachedLevel := max b.maxReachedLevel (up.length + j + 1) } := by
      rw [insertAtLeaf]
      dsimp only
      rw [hLevel, hFork.1, List.getElem?_drop, NodeKey.getPath_getElem? key' hi,
        NodeKey.getPath_getElem? k hi, hFalse, hTrue, List.drop_drop]
      rfl
    refine ⟨_, hRun, ⟨rfl, rfl, hGrows, ?_⟩, hUpRep.plug hFork.2 (hFork.2.ne_empty hSome)⟩
    refine ⟨_, rfl, Nat.le_refl 1, ?_⟩
    intro path hMem
    rw [List.mem_singleton.mp hMem]
    refine ⟨List.take_prefix _ _, ?_, ?_⟩
    · rw [← hReached.root, hPath, hUpRep.pending_iff hFollows (by omega)]
      exact not_pending_leaf _ _
    · rw [hPath, hUpRep.pending_iff hFollows (by omega)]
      exact pending_chainNodes _ ⟨rfl, rfl, rfl⟩

/- A new leaf where there is nothing yet. -/
theorem insertAtNil_spec {v : NodeValue8} {f : Frame} {up : List Frame} {uppers : Uppers}
    (hReached : Reached hash store vals k (f :: up) .empty b.rootNode uppers .nil)
    (hFree : Trie.Scheme.RightFree (f :: up)) (hFollows : Trie.Follows NodeKey.pathBit k (f :: up))
    (hDepth : up.length < 256) (hVal : vals k = some v) :
    ∃ b', insertAtNil b k.getPath uppers = .ok b' ∧
        Added k b b' ∧
        Depicts hash store vals 0 (Trie.plug (f :: up) (.leaf k v.toUintArray)) b'.rootNode := by
  have hUpRep := hReached.frames
  have hRep := hUpRep.plug (.leaf (up.length + 1) k v hVal) (Trie.Tree.leaf_ne_empty _ _)
  have hHead := hFree f List.mem_cons_self
  cases hUpRep with
  | cons _ upper _ uppers hFrame hUp =>
    have hLevel := hUp.length_eq
    have hGrows : Grows b.rootNode
          (Uppers.plug (upper :: uppers) (SmtNode.leaf (k.getPath.drop (up.length + 1)))) := by
      rw [← hReached.root]
      apply Grows.plug
      exact ⟨(fun hNil => Bool.noConfusion hNil), fun path hPending =>
        absurd hPending (not_pending_nil path)⟩
    rcases upper with ⟨bit, upperNode⟩
    have hBelow : upperNode.child bit = .nil := hReached.below bit upperNode uppers rfl
    rw [insertAtNil]
    dsimp only
    rw [hLevel]
    have hQuiet : Added k b
          { b with
            rootNode := Uppers.plug ((bit, upperNode) :: uppers)
                (SmtNode.leaf (k.getPath.drop (up.length + 1)))
            maxReachedLevel := max b.maxReachedLevel (up.length + 1) } :=
      ⟨rfl, rfl, hGrows, [], (List.append_nil _).symm, Nat.zero_le 1, by simp⟩
    cases bit with
    | false =>
      -- Below the root the place would have to be right.
      have hUpNil : up = [] := by
        rcases up with _ | ⟨f', up⟩
        · rfl
        · exact absurd (hHead hFrame.side.symm) (hReached.beside f f' up rfl rfl)
      subst hUpNil
      rw [if_pos (by rfl), hBelow, if_pos (by rfl)]
      exact ⟨_, rfl, hQuiet, hRep⟩
    | true =>
      rw [if_neg (by simp), hBelow, if_neg (by simp [SmtNode.isNil])]
      split_ifs with hNone
      · exact ⟨_, rfl, hQuiet, hRep⟩
      · refine ⟨_, rfl, ⟨rfl, rfl, hGrows, _, rfl, Nat.le_refl 1, ?_⟩, hRep⟩
        intro path hMem
        rw [List.mem_singleton.mp hMem]
        have hAt (n : SmtNode) :
            Pending (k.getPath.take up.length) (Uppers.plug ((true, upperNode) :: uppers) n) ↔
              Pending [] (upperNode.setChild true n) := by
          rw [← List.append_nil (k.getPath.take _)]
          exact hUp.pending_iff hFollows.2 (by omega) []
        refine ⟨List.take_prefix _ _, ?_, ?_⟩
        · rw [← hReached.root, hAt]
          cases hFrame <;> exact fun hPending => Bool.noConfusion hPending.2.2
        · rw [hAt]
          cases hFrame with
          | right sibling node0 node1 hLeft => exact ⟨rfl, Bool.eq_false_iff.mpr hNone, rfl⟩
          | half sibling node1 hStored => exact absurd rfl hNone

-- The State of the Build

/- The trie in memory, which always has a node at its top. -/
noncomputable abbrev openTree (m : Entries) : Tree := Trie.halved NodeKey.pathBit 255 m

noncomputable abbrev half (m : Entries) (b : Bool) : Tree :=
  Trie.compressed NodeKey.pathBit 255 1 (Trie.restrict NodeKey.pathBit 0 b m)

theorem openTree_eq (m : Entries) : openTree m = .branch (half m false) (half m true) :=
  rfl

theorem height_half_le (m : Entries) (b : Bool) : (half m b).height ≤ 255 :=
  Trie.height_compressed_le _ _ _

theorem half_eq_empty (hEmpty : ∀ key, m key = none) (b : Bool) : half m b = .empty := by
  apply Trie.compressed_of_empty
  intro key
  rw [Trie.restrict, hEmpty, ite_self]

/- The build holds the keys of a map.  A queued job does not touch the node of a later one. -/
structure Built (hash : NodeValue12 → NodeKey) (m : Entries) (b : Build) : Prop where
  rep : Depicts hash b.db.nodes b.leafValueMap 0 (openTree m) b.rootNode
  pending : ∀ path ∈ b.jobs, Pending path b.rootNode
  order : b.jobs.Pairwise (fun path path' => path ≠ path' ∧ ¬ path ++ [false] <+: path')

theorem mem_openTree_iff {key : NodeKey} {value : Value} :
    Trie.Tree.Mem key value (openTree m) ↔ m key = some value :=
  Trie.mem_halved_iff NodeKey.separates_pathBit rfl

/- A key after all keys of the map meets them in order. -/
theorem ahead_openTree
    (hAfter : ∀ key value, m key = some value → Trie.Before NodeKey.pathBit key k) :
    Ahead k 0 (half m false) (half m true) where
  halves := Trie.halves_halved NodeKey.separates_pathBit rfl m
  after := fun key value hMem => hAfter key value (mem_openTree_iff.mp hMem)
  agree := fun _ _ _ i hi => absurd hi (Nat.not_lt_zero i)
  height := by
    have hLeft := height_half_le m false
    have hRight := height_half_le m true
    rw [Trie.Tree.height]
    omega
  some := fun hPos => absurd hPos (Nat.lt_irrefl 0)

/- The jobs stay in order with the new one at the end. -/
theorem Added.built {b b' : Build} {m m' : Entries} (hAdded : Added k b b')
    (hPending : ∀ path ∈ b.jobs, Pending path b.rootNode)
    (hOrder : b.jobs.Pairwise (fun path path' => path ≠ path' ∧ ¬ path ++ [false] <+: path'))
    (hRep : Depicts hash store vals 0 (openTree m) b.rootNode)
    (hAhead : ∀ key value, m key = some value → Trie.Before NodeKey.pathBit key k)
    (hRep' : Depicts hash b'.db.nodes b'.leafValueMap 0 (openTree m') b'.rootNode) :
    Built hash m' b' := by
  rcases hAdded.jobs with ⟨news, hJobs, hOne, hNews⟩
  refine ⟨hRep', ?_, ?_⟩
  · intro path hMem
    rw [hJobs, List.mem_append] at hMem
    rcases hMem with hMem | hMem
    · exact hAdded.grows.pending path (hPending path hMem)
    · exact (hNews path hMem).2.2
  · rw [hJobs, List.pairwise_append]
    refine ⟨hOrder, ?_, ?_⟩
    · rcases news with _ | ⟨path, _ | ⟨path', news⟩⟩
      · exact List.Pairwise.nil
      · exact List.pairwise_singleton _ _
      · rw [List.length_cons, List.length_cons] at hOne
        omega
    · intro path hOld path' hNew
      rcases hNews path' hNew with ⟨hOnPath, hFresh, _⟩
      refine ⟨?_, ?_⟩
      · rintro rfl
        exact hFresh (hPending path hOld)
      · intro hLeft
        exact hRep.not_isPrefix (ahead_openTree hAhead) (hPending path hOld) (hLeft.trans hOnPath)

/- A later key takes the build of a map to the next one. -/
theorem insertKey_spec (v : NodeValue8) (hBuilt : Built hash m b)
    (hAfter : ∀ key value, m key = some value → Trie.Before NodeKey.pathBit key k) :
    ∃ b', insertKey b k v = .ok b' ∧
        b'.db = b.db ∧ Built hash (Function.update m k (some v.toUintArray)) b' := by
  have hAhead := ahead_openTree hAfter
  let vals := fun key => if key = k then some v else b.leafValueMap key
  have hRep : Depicts hash b.db.nodes vals 0 (openTree m) b.rootNode :=
    hBuilt.rep.mono (fun key value hMem => if_neg (hAhead.after key value hMem).ne)
      (fun node hn hStored => hStored)
  have hStart : Reached hash b.db.nodes vals k [] (openTree m) b.rootNode [] b.rootNode :=
    { frames := .nil
      place := hRep
      root := rfl
      after := hAhead.after
      agree := hAhead.agree
      beside := fun _ _ _ hUp => absurd hUp.symm (List.cons_ne_nil _ _)
      below := fun _ _ _ hUppers => absurd hUppers.symm (List.cons_ne_nil _ _) }
  rcases findLastNode_spec hStart rfl hAhead with ⟨uppers, found, hRun, hReached⟩
  have hTree := @Trie.plug_insertTip_halved _ _ NodeKey.pathBit 255 256 m
      k v.toUintArray NodeKey.separates_pathBit rfl _
  have hFollows := @Trie.Follows.focus _ _ NodeKey.pathBit k [] trivial (openTree m)
  have hFree := @Trie.Scheme.rightFree_focus_halved _ _ NodeKey.pathBit
      255 256 m k NodeKey.separates_pathBit rfl hAfter
  have hDepth := @Trie.length_focus_le _ _ NodeKey.pathBit k [] (openTree m)
  have hHeight := hAhead.height
  have hBranch := @Trie.focus_ne_branch _ _ NodeKey.pathBit k [] (openTree m)
  have hPlug := @Trie.plug_focus _ _ NodeKey.pathBit k [] (openTree m)
  rcases hFocus : Trie.focus NodeKey.pathBit k [] (openTree m) with ⟨up, tip⟩
  rw [hFocus] at hReached hTree hFollows hFree hDepth hBranch hPlug
  dsimp only at hReached hTree hFollows hFree hDepth hBranch hPlug
  have hUp : up ≠ [] := by
    rintro rfl
    exact hBranch _ _ hPlug
  have hVal : vals k = some v := if_pos rfl
  have hInserted : ∃ b', insertAt { b with leafValueMap := vals } k.getPath uppers found = .ok b' ∧
      Added k { b with leafValueMap := vals } b' ∧
      Depicts hash b.db.nodes vals 0 (openTree (Function.update m k (some v.toUintArray)))
        b'.rootNode := by
    rw [openTree, ← hTree]
    cases tip with
    | empty =>
      obtain rfl := hReached.place.eq_nil
      rcases up with _ | ⟨f, up⟩
      · exact absurd rfl hUp
      · exact insertAtNil_spec hReached hFree hFollows (Nat.le_trans hDepth hHeight) hVal
    | leaf key' value' =>
      obtain rfl := hReached.place.isLeaf_leaf.1
      rw [Trie.insertTip, if_neg (hReached.after key' value' ⟨rfl, rfl⟩).ne]
      exact insertAtLeaf_spec hReached hFollows hVal
    | branch left right => exact absurd rfl (hBranch left right)
  rcases hInserted with ⟨b', hInsert, hAdded, hRep'⟩
  refine ⟨b', ?_, hAdded.db, ?_⟩
  · rw [insertKey]
    dsimp only
    rw [show findLastNode k.getPath [] b.rootNode = .ok (uppers, found) from hRun]
    exact hInsert
  · refine hAdded.built hBuilt.pending hBuilt.order hRep hAfter ?_
    rw [hAdded.db, hAdded.leafValueMap]
    exact hRep'

-- Running a Job

theorem Pending.isNil {path : List Bool} (hPending : Pending path n) : n.isNil = false := by
  cases n with
  | nil => exact absurd hPending (not_pending_nil path)
  | node rKey h node0 node1 => rfl

/- A child that is there stands for its side. -/
theorem Depicts.child {bit : Bool} (hRep : Depicts hash store vals d (.branch left right) n)
    (hSome : (n.child bit).isNil = false) :
    Depicts hash store vals (d + 1) (if bit then right else left) (n.child bit) := by
  cases hRep with
  | inner _ _ _ node0 node1 hLeft hRight =>
    cases bit with
    | true => exact hRight
    | false => exact hLeft
  | half _ _ _ node1 hStored hSome' hRight =>
    cases bit with
    | true => exact hRight
    | false => cases hSome

/- Another node for the same side. -/
theorem Depicts.setChild {bit : Bool} {c : SmtNode}
    (hRep : Depicts hash store vals d (.branch left right) n) (hSome : (n.child bit).isNil = false)
    (hSide : Depicts hash store' vals' (d + 1) (if bit then right else left) c)
    (hVals : ∀ key value, Trie.Tree.Mem key value (if bit then left else right) →
      vals' key = vals key)
    (hStore : ∀ node ∈ (scheme hash).doneNodes d (.branch left right),
      store (hash node) = some node → store' (hash node) = some node) :
    Depicts hash store' vals' d (.branch left right) (n.setChild bit c) := by
  have hStoreLeft := fun node hn => hStore node (Trie.Scheme.doneNodes_subset_left d left right hn)
  have hStoreRight :=
    fun node hn => hStore node (Trie.Scheme.doneNodes_subset_right d left right hn)
  cases hRep with
  | inner _ _ _ node0 node1 hLeft hRight =>
    cases bit with
    | true => exact .inner d left right node0 c (hLeft.mono hVals hStoreLeft) hSide
    | false => exact .inner d left right c node1 hSide (hRight.mono hVals hStoreRight)
  | half _ _ _ node1 hStored hSome' hRight =>
    cases bit with
    | true =>
      refine .half d left right c ?_ hSome' hSide
      intro node hn
      refine hStore node ?_ (hStored node hn)
      rw [Trie.Scheme.doneNodes_right d left hSome']
      exact Or.inl hn
    | false => cases hSome

/-
  Deleting the left part of the node at a path: the node still stands for the same trie in every
  store that keeps the finished nodes and has the saved ones.
-/
structure Trimmed (hash : NodeValue12 → NodeKey) (store : NodeKey → Option NodeValue12)
    (d : Nat) (t : Tree) (path : List Bool) (n n' : SmtNode) (st st' : Deletes) : Prop where
  isNode : n'.isNil = false
  vals : ∀ key, (∀ value, ¬ Trie.Tree.Mem key value t) → st'.leafValueMap key = st.leafValueMap key
  saved : ∃ ns : List NodeValue12, st'.kvMap = st.kvMap ++ ns.map (fun n => (hash n, n)) ∧
      (∀ node ∈ ns, node ∈ (scheme hash).doneNodes d t) ∧
      ∀ store', (∀ node ∈ (scheme hash).doneNodes d t,
          store (hash node) = some node ∨ node ∈ ns → store' (hash node) = some node) →
          Depicts hash store' st'.leafValueMap d t n'
  pending : ∀ path', Pending path' n → path ≠ path' → ¬ path ++ [false] <+: path' → Pending path' n'

/- At the node itself the left part becomes a hash. -/
theorem deleteLeft_here {nodePath : List Bool} {st : Deletes}
    (hRep : Depicts hash store st.leafValueMap nodePath.length (.branch left right) n)
    (hParted : Parted nodePath left right) (hPending : Pending [] n) :
    ∃ n' st', deleteLeft hash nodePath [] n st = .ok (n', st') ∧
        Trimmed hash store nodePath.length (.branch left right) [] n n' st st' := by
  cases hRep with
  | half _ _ _ node1 hStored hSome hRight => exact Bool.noConfusion hPending.2.1
  | inner _ _ _ node0 node1 hLeft hRight =>
    have hRightSome := hRight.ne_empty hPending.2.2
    have hDone :=
      @Trie.Scheme.doneNodes_right _ _ _ _ right (scheme hash) nodePath.length left hRightSome
    rcases deleteTreeNoSave_spec List.length_append hLeft (hParted.side false)
      (hLeft.ne_empty hPending.2.1) with ⟨st', hRun, hDeleted⟩
    have hRight' := hDeleted.rep_right hParted.halves hRight
    refine
      ⟨.node [] ((scheme hash).root (nodePath.length + 1) left) .nil node1,
        st', ?_, rfl, ?_, ?_, ?_⟩
    · rw [deleteLeft, hRun]
      rfl
    · intro key hOther
      exact hDeleted.vals key (fun value hMem => hOther value (Or.inl hMem))
    · rcases hDeleted.kvMap with ⟨ns, hEq, hIn, hAll⟩
      refine ⟨ns, hEq, ?_, ?_⟩
      · intro node hn
        rw [hDone]
        exact Or.inl (hIn node hn)
      · intro store' hKeep
        rw [hDone] at hKeep
        refine .half _ _ _ _ ?_ hRightSome ?_
        · intro node hn
          exact hKeep node (Or.inl hn) (hAll node hn)
        · exact hRight'.mono (fun _ _ _ => rfl) (fun node hn hStored =>
            hKeep node (Or.inr hn) (Or.inl hStored))
    · intro path' hPending' hNe hNot
      rcases path' with _ | ⟨_ | _, path'⟩
      · exact absurd rfl hNe
      · exact absurd (List.prefix_append [false] path') hNot
      · exact hPending'

/- One level up, the trimmed child takes its place. -/
theorem Trimmed.setChild {bit : Bool} {path : List Bool} {c' : SmtNode} {st st' : Deletes}
    (hTrimmed : Trimmed hash store (d + 1) (if bit then right else left)
      path (n.child bit) c' st st')
    (hRep : Depicts hash store st.leafValueMap d (.branch left right) n)
    (hHalves : Trie.Halves NodeKey.pathBit d left right) (hSome : (n.child bit).isNil = false) :
    Trimmed hash store d (.branch left right) (bit :: path) n (n.setChild bit c') st st' := by
  have hNode : n.isNil = false := by
    cases n with
    | nil => cases hSome
    | node rKey h node0 node1 => rfl
  have hDone := @Trie.Scheme.doneNodes_subset_side _ _ _ _ (scheme hash) d left right bit
  refine ⟨?_, ?_, ?_, ?_⟩
  · rw [SmtNode.isNil_setChild, hNode]
  · intro key hOther
    exact hTrimmed.vals key (fun value hMem => hOther value (Trie.Tree.mem_side hMem))
  · rcases hTrimmed.saved with ⟨ns, hEq, hIn, hKeep⟩
    refine ⟨ns, hEq, fun node hn => hDone (hIn node hn), ?_⟩
    intro store' hStore'
    refine
      hRep.setChild hSome (hKeep store' (fun node hn => hStore' node (hDone hn))) ?_
        (fun node hn hStored => hStore' node hn (Or.inl hStored))
    intro key value hMem
    apply hTrimmed.vals
    intro value' hMem'
    cases bit with
    | true => cases (hHalves.left_bit key value hMem).symm.trans (hHalves.right_bit key _ hMem')
    | false => cases (hHalves.right_bit key value hMem).symm.trans (hHalves.left_bit key _ hMem')
  · intro path' hPending hNe hNot
    rw [← n.setChild_child bit] at hPending
    refine hPending.setChild (fun _ => hTrimmed.isNode) ?_
    rintro rest rfl hRest
    refine hTrimmed.pending rest hRest (fun hSame => hNe (congrArg (List.cons bit) hSame)) ?_
    exact fun hLeft => hNot ((List.prefix_cons_inj bit).mpr hLeft)

/- The job of a node somewhere below. -/
theorem deleteLeft_spec {nodePath above path : List Bool} {st : Deletes}
    (hPath : above ++ path = nodePath) (hDepth : above.length = d)
    (hRep : Depicts hash store st.leafValueMap d (.branch left right) n)
    (hParted : Parted above left right) (hPending : Pending path n) :
    ∃ n' st', deleteLeft hash nodePath path n st = .ok (n', st') ∧
        Trimmed hash store d (.branch left right) path n n' st st' := by
  induction path generalizing above left right n d with
  | nil =>
    rw [List.append_nil] at hPath
    subst hPath hDepth
    exact deleteLeft_here hRep hParted hPending
  | cons bit path ih =>
    subst hDepth
    have hSome : (n.child bit).isNil = false := Pending.isNil hPending
    have hSide := hRep.child hSome
    have hPlaced := hParted.side bit
    rcases hSide.branch_of_pending hPending with ⟨left', right', hTree⟩
    rw [hTree] at hSide hPlaced
    rcases ih (by rw [List.append_assoc]; exact hPath) List.length_append hSide hPlaced.parted
      hPending with ⟨c', st', hRun, hTrimmed⟩
    rw [← hTree] at hTrimmed
    refine ⟨n.setChild bit c', st', ?_, hTrimmed.setChild hRep hParted.halves hSome⟩
    cases n with
    | nil => cases hSome
    | node rKey h node0 node1 =>
      rw [deleteLeft]
      rw [SmtNode.child] at hRun
      rw [hRun]
      rfl

/- The account values and the last root are not touched. -/
structure Db.Keeps (db db' : Db) : Prop where
  accountValues : db'.accountValues = db.accountValues
  lastRoot : db'.lastRoot = db.lastRoot

theorem Db.Keeps.refl (db : Db) : db.Keeps db := ⟨rfl, rfl⟩

theorem Db.Keeps.trans {db db₁ db₂ : Db} (hFirst : db.Keeps db₁) (hSecond : db₁.Keeps db₂) :
    db.Keeps db₂ :=
  ⟨hSecond.accountValues.trans hFirst.accountValues, hSecond.lastRoot.trans hFirst.lastRoot⟩

theorem Db.foldl_insertHashKey (db : Db) (kvs : List (NodeKey × NodeKey)) :
    (kvs.foldl (fun db kv => db.insertHashKey kv.1 kv.2) db).nodes = db.nodes ∧
      db.Keeps (kvs.foldl (fun db kv => db.insertHashKey kv.1 kv.2) db) := by
  induction kvs generalizing db with
  | nil => exact ⟨rfl, .refl db⟩
  | cons kv kvs ih =>
    have hKeep : db.Keeps (db.insertHashKey kv.1 kv.2) := ⟨rfl, rfl⟩
    have hRest := ih (db.insertHashKey kv.1 kv.2)
    exact ⟨hRest.1, hKeep.trans hRest.2⟩

theorem Db.foldl_insert (hash : NodeValue12 → NodeKey) (db : Db) (ns : List NodeValue12) :
    ((ns.map (fun n => (hash n, n))).foldl
        (fun db kv => db.insert kv.1 kv.2) db).nodes = (scheme hash).putAll db.nodes ns ∧
      db.Keeps ((ns.map (fun n => (hash n, n))).foldl (fun db kv => db.insert kv.1 kv.2) db) := by
  induction ns generalizing db with
  | nil => exact ⟨rfl, .refl db⟩
  | cons node ns ih =>
    have hPut : (db.insert (hash node) node).nodes = (scheme hash).put db.nodes node := by
      funext key
      rw [Trie.Scheme.put, Function.update_apply]
      rfl
    have hKeep : db.Keeps (db.insert (hash node) node) := ⟨rfl, rfl⟩
    have hRest := ih (db.insert (hash node) node)
    rw [hPut] at hRest
    exact ⟨hRest.1, hKeep.trans hRest.2⟩

/- A finished job stores the nodes it saved. -/
theorem Db.saveJob_spec (db : Db) {st : Deletes} {ns : List NodeValue12}
    (hSaved : st.kvMap = ns.map (fun n => (hash n, n))) :
    (db.saveJob st).nodes = (scheme hash).putAll db.nodes ns ∧ db.Keeps (db.saveJob st) := by
  have hKeys := db.foldl_insertHashKey st.leafsKvMap
  rw [Db.saveJob, hSaved]
  have hNodes :=
    Db.foldl_insert hash (st.leafsKvMap.foldl (fun db kv => db.insertHashKey kv.1 kv.2) db) ns
  rw [hKeys.1] at hNodes
  exact ⟨hNodes.1, hKeys.2.trans hNodes.2⟩

theorem parted_openTree (m : Entries) :
    Parted [] (half m false) (half m true) where
  halves := Trie.halves_halved NodeKey.separates_pathBit rfl m
  along := fun _ _ _ => List.nil_prefix
  height := by
    have hLeft := height_half_le m false
    have hRight := height_half_le m true
    simp only [List.length_nil, Trie.Tree.height]
    omega

/- A job leaves the build of the same map. -/
theorem runJob_spec {A : Set NodeValue12} (hBuilt : Built hash m b)
    (hFree : (scheme hash).CollisionFree A) (hDone : (scheme hash).doneNodes 0 (openTree m) ⊆ A) :
    ∃ b', runJob hash b = .ok b' ∧ Built hash m b' ∧ b.db.Keeps b'.db := by
  rcases hJobs : b.jobs with _ | ⟨path, jobs⟩
  · refine ⟨b, ?_, hBuilt, .refl b.db⟩
    rw [runJob, hJobs]
  · have hPending := hBuilt.pending
    have hOrder := hBuilt.order
    rw [hJobs] at hPending hOrder
    rcases
      @deleteLeft_spec hash b.db.nodes _ _ _ b.rootNode path []
        path ⟨b.leafValueMap, [], []⟩ rfl rfl hBuilt.rep (parted_openTree m)
        (hPending path List.mem_cons_self) with
      ⟨rootNode, st, hRun, hTrimmed⟩
    rcases hTrimmed.saved with ⟨ns, hEq, hIn, hKeep⟩
    rw [List.nil_append] at hEq
    have hSave := b.db.saveJob_spec hEq
    refine
      ⟨{ b with
        rootNode := rootNode
        leafValueMap := st.leafValueMap
        jobs := jobs
        db := b.db.saveJob st }, ?_, ⟨?_, ?_, hOrder.of_cons⟩, hSave.2⟩
    · rw [runJob, hJobs]
      dsimp only
      rw [hRun]
      rfl
    · apply hKeep
      intro node hn hHolds
      dsimp only
      rw [hSave.1]
      exact
        Trie.Scheme.putAll_holds hFree (hDone hn) (fun node' hn' => hDone (hIn node' hn')) hHolds
    · intro path' hMem
      have hNext := List.rel_of_pairwise_cons hOrder hMem
      exact hTrimmed.pending path' (hPending path' (List.mem_cons_of_mem _ hMem)) hNext.1 hNext.2

theorem runJobs_spec {A : Set NodeValue12} (count : Nat) (hBuilt : Built hash m b)
    (hFree : (scheme hash).CollisionFree A) (hDone : (scheme hash).doneNodes 0 (openTree m) ⊆ A) :
    ∃ b', runJobs hash count b = .ok b' ∧ Built hash m b' ∧ b.db.Keeps b'.db := by
  induction count generalizing b with
  | zero => exact ⟨b, rfl, hBuilt, .refl b.db⟩
  | succ count ih =>
    rcases runJob_spec hBuilt hFree hDone with ⟨b₁, hRun, hBuilt₁, hKeeps₁⟩
    rcases ih hBuilt₁ with ⟨b', hRest, hBuilt', hKeeps'⟩
    refine ⟨b', ?_, hBuilt', hKeeps₁.trans hKeeps'⟩
    rw [runJobs, hRun]
    exact hRest

-- The Loop over the Keys

/- The map of some keys, each with its value. -/
def entriesOf (value : NodeKey → NodeValue8) (keys : List NodeKey) : Entries := fun key =>
    if key ∈ keys then some (value key).toUintArray else none

theorem entriesOf_concat (value : NodeKey → NodeValue8) (keys : List NodeKey) (k : NodeKey) :
    entriesOf value (keys ++ [k]) =
      Function.update (entriesOf value keys) k (some (value k).toUintArray) := by
  funext key
  simp only [entriesOf, Function.update_apply, List.mem_append, List.mem_singleton]
  grind

theorem entriesOf_eq_some_iff {key : NodeKey} {v : Value} :
    entriesOf value keys key = some v ↔ key ∈ keys ∧ (value key).toUintArray = v := by
  rw [entriesOf, Option.ite_none_right_eq_some, Option.some.injEq]

/- Insertions one by one lead to the same map. -/
theorem entriesAfter_map (hValues : ∀ k ∈ keys, (value k).isZero = false) (m : Entries) :
    entriesAfter m (keys.map (fun k => (k, value k))) = fun key =>
        if key ∈ keys then some (value key).toUintArray else m key := by
  induction keys generalizing m with
  | nil => rfl
  | cons k keys ih =>
    rw [List.map_cons, entriesAfter, ih (fun k' hMem =>
      hValues k' (List.mem_cons_of_mem _ hMem)), entry_of_not_isZero (hValues k List.mem_cons_self)]
    funext key
    simp only [Function.update_apply, List.mem_cons]
    grind

/- A later key of a sorted list comes after the others. -/
theorem entriesOf_after {value : NodeKey → NodeValue8} {before rest : List NodeKey} {k : NodeKey}
    (hSorted : (before ++ k :: rest).Pairwise (Trie.Before NodeKey.pathBit)) :
    ∀ key v, entriesOf value before key = some v → Trie.Before NodeKey.pathBit key k := by
  intro key v hKey
  rw [entriesOf_eq_some_iff] at hKey
  exact (List.pairwise_append.mp hSorted).2.2 key hKey.1 k List.mem_cons_self

/- What is finished on the way is finished at the end. -/
theorem doneNodes_entriesOf {before rest : List NodeKey}
    (hSorted : (before ++ rest).Pairwise (Trie.Before NodeKey.pathBit)) :
    (scheme hash).doneNodes 0 (openTree (entriesOf value before)) ⊆
      (scheme hash).doneNodes 0 (openTree (entriesOf value (before ++ rest))) := by
  induction rest generalizing before with
  | nil => rw [List.append_nil]
  | cons k rest ih =>
    have hNext := @entriesOf_after value before rest k hSorted
    rw [List.append_cons] at hSorted ⊢
    refine Set.Subset.trans ?_ (ih hSorted)
    rw [entriesOf_concat]
    exact Trie.Scheme.doneNodes_halved_update NodeKey.separates_pathBit rfl hNext

theorem runBuildSmtLoop_spec {b : Build} {value : NodeKey → NodeValue8} {before rest : List NodeKey}
    {A : Set NodeValue12} (sched : List NodeKey → Nat)
    (hBuilt : Built hash (entriesOf value before) b) (hValue : b.db.getAccountValue = value)
    (hSorted : (before ++ rest).Pairwise (Trie.Before NodeKey.pathBit))
    (hFree : (scheme hash).CollisionFree A)
    (hDone : (scheme hash).doneNodes 0 (openTree (entriesOf value (before ++ rest))) ⊆ A) :
    ∃ b', runBuildSmtLoop hash sched rest b = .ok b' ∧
        Built hash (entriesOf value (before ++ rest)) b' ∧ b.db.Keeps b'.db := by
  induction rest generalizing before b with
  | nil =>
    rw [List.append_nil]
    exact ⟨b, rfl, hBuilt, .refl b.db⟩
  | cons k rest ih =>
    rcases insertKey_spec (value k) hBuilt (entriesOf_after hSorted) with
      ⟨b₁, hInsert, hDb₁, hBuilt₁⟩
    rw [← entriesOf_concat] at hBuilt₁
    rw [List.append_cons] at hSorted hDone ⊢
    rcases runJobs_spec (sched rest) hBuilt₁ hFree ((doneNodes_entriesOf hSorted).trans hDone) with
      ⟨b₂, hJobs, hBuilt₂, hKeeps₂⟩
    rw [hDb₁] at hKeeps₂
    have hValue₂ : b₂.db.getAccountValue = value := by
      rw [← hValue]
      funext key
      rw [Db.getAccountValue, Db.getAccountValue, hKeeps₂.accountValues]
    rcases ih hBuilt₂ hValue₂ hSorted hDone with ⟨b', hRest, hBuilt', hKeeps'⟩
    refine ⟨b', ?_, hBuilt', hKeeps₂.trans hKeeps'⟩
    rw [runBuildSmtLoop, hValue, hInsert]
    change (runJobs hash (sched rest) b₁ >>= fun b => _) = _
    rw [hJobs]
    exact hRest

-- The Final Root

/- A leaf with its whole path stands at the root. -/
theorem Depicts.leaf_top {value : Value} (hRep : Depicts hash store vals d (.leaf k value) n) :
    Depicts hash store vals 0 (.leaf k value) (SmtNode.leaf k.getPath) := by
  cases hRep with
  | leaf _ _ v hVal => exact .leaf 0 k v hVal

/- A single key has its leaf on the side of its first bit. -/
theorem openTree_of_single {value : Value} (hSingle : Trie.Single m k value) :
    openTree m =
      if k.pathBit 0 then .branch .empty (.leaf k value) else .branch (.leaf k value) .empty := by
  have hSame : half m (k.pathBit 0) = .leaf k value :=
    Trie.compressed_of_single hSingle.restrict_same
  have hOther : half m (!k.pathBit 0) = .empty := Trie.compressed_of_empty hSingle.restrict_other
  rw [openTree_eq, Trie.Frame.plug_sides (half m) (k.pathBit 0), hSame, hOther]
  cases k.pathBit 0 <;> rfl

theorem finalRootNode_single {m : Entries} {k : NodeKey} {value : Value}
    (hSingle : Trie.Single m k value) (hRep : Depicts hash store vals 0 (openTree m) n) :
    n.isLeaf = false ∧
      ∃ n', finalRootNode [k] n = .ok (n', []) ∧ Depicts hash store vals 0 (canonical m) n' := by
  have hPath : k.getPath = k.pathBit 0 :: k.getPath.drop 1 := @NodeKey.drop_getPath k 0 (by omega)
  rw [openTree_of_single hSingle] at hRep
  rw [canonical_of_single hSingle]
  cases hBit : k.pathBit 0 with
  | true =>
    rw [hBit] at hRep hPath
    refine ⟨hRep.isLeaf_branch (Or.inr (Trie.Tree.leaf_ne_empty _ _)), ?_⟩
    cases hRep with
    | inner _ _ _ node0 node1 hLeft hRight =>
      rw [hLeft.eq_nil, hRight.isLeaf_leaf.1]
      exact ⟨_, by rw [hPath]; rfl, hRight.leaf_top⟩
    | half _ _ _ node1 hStored hSome hRight =>
      rw [hRight.isLeaf_leaf.1]
      exact ⟨_, by rw [hPath]; rfl, hRight.leaf_top⟩
  | false =>
    rw [hBit] at hRep hPath
    refine ⟨hRep.isLeaf_branch (Or.inl (Trie.Tree.leaf_ne_empty _ _)), ?_⟩
    cases hRep with
    | inner _ _ _ node0 node1 hLeft hRight =>
      rw [hRight.eq_nil, hLeft.isLeaf_leaf.1]
      exact ⟨_, by rw [hPath]; rfl, hLeft.leaf_top⟩
    | half _ _ _ node1 hStored hSome hRight => exact absurd rfl hSome

theorem finalRootNode_several {key key' : NodeKey} {value value' : Value}
    (hKey : m key = some value) (hKey' : m key' = some value') (hNe : key ≠ key')
    (hLength : keys.length ≠ 1) (hRep : Depicts hash store vals 0 (openTree m) n) :
    n.isLeaf = false ∧
      ∃ n', finalRootNode keys n = .ok (n', []) ∧ Depicts hash store vals 0 (canonical m) n' := by
  have hTree : canonical m = openTree m := Trie.compressed_eq_halved hKey hKey' hNe
  have hProper := canonical_proper m
  rw [hTree] at hProper
  have hLeaf := hRep.isLeaf_branch hProper.ne_empty
  refine ⟨hLeaf, n, ?_, by rw [hTree]; exact hRep⟩
  rw [finalRootNode, onlyChild, if_neg hLength]
  cases n with
  | nil => exact absurd (hRep.isNil_iff.mp rfl) (Trie.Tree.branch_ne_empty _ _)
  | node rKey h node0 node1 =>
    dsimp only
    rw [if_neg (by rw [hLeaf]; exact Bool.false_ne_true)]

theorem finalRootNode_spec (hDistinct : keys.Nodup) (hSome : keys ≠ [])
    (hRep : Depicts hash store vals 0 (openTree (entriesOf value keys)) n) :
    n.isLeaf = false ∧
      ∃ n', finalRootNode keys n = .ok (n', []) ∧
          Depicts hash store vals 0 (canonical (entriesOf value keys)) n' := by
  rcases keys with _ | ⟨k, _ | ⟨k', keys⟩⟩
  · exact absurd rfl hSome
  · refine @finalRootNode_single hash store vals n _ k (value k).toUintArray ⟨?_, ?_⟩ hRep
    · rw [entriesOf_eq_some_iff]
      exact ⟨List.mem_singleton_self k, rfl⟩
    · intro key hNe
      rw [entriesOf, if_neg (by simpa using hNe)]
  · refine
      finalRootNode_several (entriesOf_eq_some_iff.mpr ⟨List.mem_cons_self, rfl⟩)
        (entriesOf_eq_some_iff.mpr ⟨List.mem_cons_of_mem k List.mem_cons_self, rfl⟩)
        ?_ (by simp) hRep
    rintro rfl
    exact (List.nodup_cons.mp hDistinct).1 List.mem_cons_self

theorem built_nil (value : NodeKey → NodeValue8) (db : Db) :
    Built hash (entriesOf value [])
      ⟨.node [] NodeKey.zero .nil .nil, fun _ => none, [], db, 0⟩ where
  rep := by
    have hNone : ∀ key, entriesOf value [] key = none := fun key => if_neg List.not_mem_nil
    rw [openTree_eq, half_eq_empty hNone, half_eq_empty hNone]
    exact .inner 0 _ _ _ _ (.empty 1) (.empty 1)
  pending := fun _ hMem => absurd hMem List.not_mem_nil
  order := List.Pairwise.nil

/- The finished nodes are nodes of the canonical tree. -/
theorem doneNodes_openTree_subset (m : Entries) :
    (scheme hash).doneNodes 0 (openTree m) ⊆ canonicalNodes hash m := by
  rcases Trie.empty_or_single_or_two m with
    hEmpty | ⟨k, value, hSingle⟩ | ⟨k, value, k', value', hKey, hKey', hNe⟩
  · rw [openTree_eq, half_eq_empty hEmpty, half_eq_empty hEmpty, Trie.Scheme.doneNodes_left]
    exact Set.empty_subset _
  · rw [openTree_of_single hSingle]
    split_ifs
    · have hSome : (Trie.Tree.leaf k value : Tree) ≠ .empty := Trie.Tree.leaf_ne_empty k value
      rw [Trie.Scheme.doneNodes_right _ _ hSome]
      exact Set.union_subset (Set.empty_subset _) (Set.empty_subset _)
    · rw [Trie.Scheme.doneNodes_left]
      exact Set.empty_subset _
  · have hTree : canonical m = openTree m := Trie.compressed_eq_halved hKey hKey' hNe
    rw [canonicalNodes, hTree]
    exact Trie.Scheme.doneNodes_subset 0 _

theorem placed_canonical (m : Entries) :
    Placed [] (canonical m) where
  proper := canonical_proper m
  along := fun _ _ _ => List.nil_prefix
  height := Nat.le_trans (Nat.le_of_eq (Nat.zero_add _)) (height_canonical_le m)

theorem SMT.getLastRoot_updateDepth (s : SMT) (newDepth : Nat) :
    (s.updateDepth newDepth).getLastRoot = s.getLastRoot := by
  unfold SMT.updateDepth
  dsimp only
  split_ifs <;> rfl

/-
  From a list of keys that is not empty: the root of their tree is returned, recorded, and every
  node is stored.
-/
theorem generateFromKVBulk_spec {s : SMT} (sched : List NodeKey → Nat) (hDistinct : keys.Nodup)
    (hSome : keys ≠ [])
    (hFree : (scheme hash).CollisionFree (canonicalNodes hash
      (entriesOf s.db.getAccountValue keys))) :
    ∃ s', generateFromKVBulk hash sched s keys =
          .ok (s', canonicalRoot hash (entriesOf s.db.getAccountValue keys)) ∧
        s'.getLastRoot = canonicalRoot hash (entriesOf s.db.getAccountValue keys) ∧
        (scheme hash).Stored s'.db.nodes 0 (canonical (entriesOf s.db.getAccountValue keys)) := by
  have hPerm := sortNodeKeysBitwiseAsc_perm keys
  have hSorted := sortNodeKeysBitwiseAsc_pairwise hDistinct
  have hSame : entriesOf s.db.getAccountValue (sortNodeKeysBitwiseAsc keys) =
      entriesOf s.db.getAccountValue keys := by
    funext key
    simp only [entriesOf, hPerm.mem_iff]
  rw [← hSame] at hFree ⊢
  rw [generateFromKVBulk]
  dsimp only
  generalize sortNodeKeysBitwiseAsc keys = sorted at hPerm hSorted hFree ⊢
  have hDone := @doneNodes_openTree_subset hash (entriesOf s.db.getAccountValue sorted)
  rcases @runBuildSmtLoop_spec hash _ s.db.getAccountValue [] sorted _ sched (built_nil _ s.db) rfl
    hSorted hFree hDone with ⟨b₁, hLoop, hBuilt₁, hKeeps₁⟩
  rw [List.nil_append] at hBuilt₁
  rcases runJobs_spec b₁.jobs.length hBuilt₁ hFree hDone with ⟨b₂, hJobs, hBuilt₂, hKeeps₂⟩
  rcases finalRootNode_spec (hPerm.nodup_iff.mpr hDistinct)
    (fun hNil => hSome (hNil ▸ hPerm).symm.eq_nil) hBuilt₂.rep with ⟨hLeaf, rootNode, hFinal, hRep⟩
  have hFull : canonical (entriesOf s.db.getAccountValue sorted) ≠ .empty := by
    intro hEmpty
    rcases List.exists_mem_of_ne_nil keys hSome with ⟨k, hMem⟩
    have hNone := canonical_eq_empty_iff.mp hEmpty k
    rw [entriesOf, if_pos (hPerm.mem_iff.mpr hMem)] at hNone
    cases hNone
  rcases @deleteTreeNoSave_spec hash b₂.db.nodes _ _ rootNode [] ⟨b₂.leafValueMap, [], []⟩ rfl hRep
    (placed_canonical _) hFull with ⟨st, hDelete, hDeleted⟩
  rcases hDeleted.kvMap with ⟨ns, hEq, hIn, hAll⟩
  rw [List.nil_append] at hEq
  refine ⟨((SMT.setLastRoot { s with db := b₂.db.saveJob st } (canonicalRoot hash
    (entriesOf s.db.getAccountValue sorted))).updateDepth b₂.maxReachedLevel), ?_, ?_, ?_⟩
  · rw [hLoop]
    change (runJobs hash b₁.jobs.length b₁ >>= fun b => _) = _
    rw [hJobs]
    change (if b₂.rootNode.isLeaf then _ else _) = _
    rw [if_neg (by rw [hLeaf]; exact Bool.false_ne_true), hFinal]
    change (deleteTreeNoSave hash [] rootNode ⟨b₂.leafValueMap, [], []⟩ >>= fun r => _) = _
    rw [hDelete]
    rfl
  · rw [SMT.getLastRoot_updateDepth]
    exact SMT.getLastRoot_setLastRoot _ _
  · rw [SMT.updateDepth_nodes, SMT.setLastRoot_nodes]
    dsimp only
    rw [(b₂.db.saveJob_spec hEq).1]
    exact Trie.Scheme.stored_putAll hFree (Set.Subset.refl _) hIn hAll

/- Without keys nothing is built and nothing is recorded. -/
theorem generateFromKVBulk_nil (hash : NodeValue12 → NodeKey) (sched : List NodeKey → Nat)
    (s : SMT) : generateFromKVBulk hash sched s [] = .ok (s, NodeKey.zero) := by
  have hSort : sortNodeKeysBitwiseAsc [] = [] := (sortNodeKeysBitwiseAsc_perm []).eq_nil
  rw [generateFromKVBulk]
  dsimp only
  rw [hSort]
  rfl

/-
  Building at once returns the root that insertions one by one into the empty tree give; the root
  is recorded and the tree is stored, except that a build without keys leaves the last root of the
  database as it was.
-/
theorem generateFromKVBulk_iff (hash : NodeValue12 → NodeKey) (sched : List NodeKey → Nat) (s : SMT)
    (keys : List NodeKey) (hDistinct : keys.Nodup)
    (hValues : ∀ k ∈ keys, (s.db.getAccountValue k).isZero = false)
    (hFree : RunFree hash noEntries (keys.map (fun k => (k, s.db.getAccountValue k)))) :
    ∃ s' root s₁, generateFromKVBulk hash sched s keys = .ok (s', root) ∧
        SMT.empty.insertAll hash (keys.map (fun k => (k, s.db.getAccountValue k))) = .ok s₁ ∧
        ((root = s₁.getLastRoot ∧
            s'.getLastRoot = root ∧
            (scheme hash).Stored s'.db.nodes 0
              (canonical (entriesAfter noEntries (keys.map (fun k =>
                  (k, s.db.getAccountValue k)))))) ↔
          keys ≠ [] ∨ s.getLastRoot = NodeKey.zero) := by
  rcases insertAll_run (holds_empty hash) hFree with ⟨s₁, hInsert, hHolds⟩
  have hLast := hHolds.lastRoot
  have hFinal := hFree keys.length
  rw [List.take_of_length_le (by simp)] at hFinal
  rw [entriesAfter_map hValues] at hLast hFinal ⊢
  by_cases hNil : keys = []
  · subst hNil
    refine ⟨s, NodeKey.zero, s₁, generateFromKVBulk_nil hash sched s, hInsert, ?_⟩
    have hTree : canonical (fun key =>
      if key ∈ ([] : List NodeKey) then some (s.db.getAccountValue key).toUintArray
      else noEntries key) = .empty :=
      canonical_eq_empty_iff.mpr (fun key => if_neg List.not_mem_nil)
    rw [canonicalRoot, hTree] at hLast
    rw [hTree]
    constructor
    · exact fun hAll => Or.inr hAll.2.1
    · rintro (hSome | hZero)
      · exact absurd rfl hSome
      · exact ⟨hLast.symm, hZero, fun node hn => hn.elim⟩
  · rcases generateFromKVBulk_spec sched hDistinct hNil hFinal with ⟨s', hRun, hRecorded, hStored⟩
    exact ⟨s', _, s₁, hRun, hInsert, iff_of_true ⟨hLast.symm, hRecorded, hStored⟩ (Or.inl hNil)⟩

/- A database with two account values and an older last root. -/
def sampleBulk : SMT := ⟨false,
    { Db.empty with
      accountValues := fun k =>
        if k = sampleKey 0 then some (sampleValue 1)
        else some (sampleValue 2)
      lastRoot := 1 }⟩

theorem runFree_pair :
    RunFree sampleHash noEntries [(sampleKey 0, sampleValue 1), (sampleKey 1, sampleValue 2)] := by
  intro n
  rcases n with _ | _ | n
  · exact runFree_sampleRun 0
  · exact runFree_sampleRun 1
  · rw [List.take_of_length_le (by simp)]
    exact runFree_sampleRun 2

theorem generateFromKVBulk_iff_sample :
    ∃ s' root s₁, generateFromKVBulk sampleHash (fun _ => 0) sampleBulk
          [sampleKey 0, sampleKey 1] = .ok (s', root) ∧
        SMT.empty.insertAll sampleHash
            [(sampleKey 0, sampleValue 1), (sampleKey 1, sampleValue 2)] = .ok s₁ ∧
        root = s₁.getLastRoot ∧ s'.getLastRoot = root := by
  have hNe : sampleKey 0 ≠ sampleKey 1 := by decide
  rcases
    generateFromKVBulk_iff sampleHash (fun _ => 0) sampleBulk [sampleKey 0, sampleKey 1]
      (List.nodup_cons.mpr ⟨fun hMem => hNe (List.mem_singleton.mp hMem), List.nodup_singleton _⟩)
      (by
        intro k hMem
        rcases List.mem_pair.mp hMem with rfl | rfl
        · decide
        · decide)
      runFree_pair with
    ⟨s', root, s₁, hRun, hInsert, hIff⟩
  have hAll := hIff.mpr (Or.inl (List.cons_ne_nil _ _))
  exact ⟨s', root, s₁, hRun, hInsert, hAll.1, hAll.2.1⟩

/- The last root stays the old one when there are no keys. -/
theorem generateFromKVBulk_stale_root :
    ∃ s', generateFromKVBulk sampleHash (fun _ => 0) sampleBulk [] = .ok (s', NodeKey.zero) ∧
        s'.getLastRoot ≠ NodeKey.zero := by
  refine ⟨sampleBulk, generateFromKVBulk_nil _ _ sampleBulk, ?_⟩
  decide

end XLayerErigon.Smt
