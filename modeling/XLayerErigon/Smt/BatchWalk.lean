import XLayerErigon.Smt.Batch
import XLayerErigon.Smt.InsertCorrect
import XLayerErigon.Trie.OverlayNodes

/-
  Batch insertion works on an overlay of the stored tree.

  `Rep` says which overlay a node in memory stands for: a missing child is a subtree kept in the
  database under its recorded hash.  The walk of a batch entry opens the path of its key
  (`findInsertingPoint_spec`), and the change at its end is the change of the trie.

  Main results:
    * `findInsertingPoint_spec`
-/

namespace XLayerErigon.Smt

variable {hash : NodeValue12 → NodeKey} {db : Db} {old : Tree}

abbrev Overlay := Trie.Overlay NodeKey Value

abbrev OverFrame := Trie.Overlay.OverFrame NodeKey Value

/- The frames of the trie that those of the overlay stand for. -/
abbrev frames (up : List OverFrame) : List Frame := up.map Trie.Overlay.OverFrame.toFrame

-- What a Node in Memory Stands For

/- A subtree that can be loaded from the database. -/
structure Kept (hash : NodeValue12 → NodeKey) (db : Db) (d : Nat) (t : Tree) : Prop where
  stored : (scheme hash).Stored db.nodes d t
  free : (scheme hash).CollisionFree ((scheme hash).nodes d t)

variable {sib : Bool} {h : NodeKey} {d : Nat} {o : Overlay} {up : List OverFrame}
  {visited visited' : List NodeKey} {cur : SmtBatchNode} {bup : List BatchFrame}

theorem Kept.left {left right : Tree} (hKept : Kept hash db d (.branch left right)) :
    Kept hash db (d + 1) left :=
  ⟨hKept.stored.left, hKept.free.mono (fun _ hn => Or.inr (Or.inl hn))⟩

theorem Kept.right {left right : Tree} (hKept : Kept hash db d (.branch left right)) :
    Kept hash db (d + 1) right :=
  ⟨hKept.stored.right, hKept.free.mono (fun _ hn => Or.inr (Or.inr hn))⟩

theorem kept_empty (d : Nat) : Kept hash db d .empty :=
  ⟨fun _ hn => hn.elim, ⟨fun _ hn => hn.elim, fun _ hn => hn.elim⟩⟩

/- A hash that a branch at `d` may have for its left child. -/
def Noted (hash : NodeValue12 → NodeKey) (d : Nat) (old : Tree) (lh : NodeKey) : Prop :=
  lh = NodeKey.zero ∨ lh = (scheme hash).root (d + 1) (old.child false)

/-
  The node in memory at depth `d`, with the hash its parent has recorded for it, stands for the
  overlay.  The recorded hash matters only when the node is not in memory.  A hash that is
  recorded comes from the stored tree, which has `old` in this place.
-/
def Rep (hash : NodeValue12 → NodeKey) (db : Db) :
    Nat → Tree → NodeKey → SmtBatchNode → Overlay → Prop
  | d, old, h, .nil, .kept t =>
      h = (scheme hash).root d t ∧ Kept hash db d t ∧ (t = .empty ∨ t = old)
  | d, _, _, .node rem val true _ _, .leaf key value =>
      rem = key.removeKeyBits d ∧ val = hash (valueNode value)
  | d, old, _, .node lh rh false l r, .branch left right =>
      Noted hash d old lh ∧
        Rep hash db (d + 1) (old.child false) lh l left ∧
        Rep hash db (d + 1) (old.child true) rh r right
  | _, _, _, _, _ => False

/- The part of the stored tree in the place of a pointer. -/
def oldAt (old : Tree) : List OverFrame → Tree
  | [] => old
  | f :: up => (oldAt old up).child f.side

/- The branches above a pointer stand for the frames. -/
def RepUp (hash : NodeValue12 → NodeKey) (db : Db) (old : Tree) :
    List BatchFrame → List OverFrame → Prop
  | [], [] => True
  | bf :: bup, f :: up =>
      (bf.side = f.side ∧
          Noted hash up.length (oldAt old up) bf.leftHash) ∧
        Rep hash db (up.length + 1) ((oldAt old up).child (!f.side))
          (if f.side then bf.leftHash else bf.rightHash) bf.sibling f.sibling ∧
        RepUp hash db old bup up
  | _, _ => False

theorem RepUp.length_eq (hUp : RepUp hash db old bup up) : bup.length = up.length := by
  fun_induction RepUp hash db old bup up with
  | case1 => rfl
  | case2 bf bup f up ih => rw [List.length_cons, List.length_cons, ih hUp.2.2]
  | case3 => exact hUp.elim

theorem Rep.cases (hRep : Rep hash db d old h cur o) :
    (∃ t, cur = .nil ∧ o = .kept t ∧ h = (scheme hash).root d t ∧ Kept hash db d t ∧
      (t = .empty ∨ t = old)) ∨
    (∃ key value l r, cur = .node (key.removeKeyBits d) (hash (valueNode value)) true l r ∧
      o = .leaf key value) ∨
    (∃ lh rh l r left right, cur = .node lh rh false l r ∧ o = .branch left right) := by
  revert hRep
  fun_cases Rep hash db d old h cur o with
  | case1 d old h t => exact fun hRep => Or.inl ⟨t, rfl, rfl, hRep⟩
  | case2 d old h rem val l r key value =>
    rintro ⟨rfl, rfl⟩
    exact Or.inr (Or.inl ⟨key, value, l, r, rfl, rfl⟩)
  | case3 d old h lh rh l r left right =>
    exact fun _ => Or.inr (Or.inr ⟨lh, rh, l, r, left, right, rfl, rfl⟩)
  | case4 => exact False.elim

/- A node that is in memory does not need its hash. -/
theorem Rep.any_hash {h h' lh rh : NodeKey} {leaf : Bool} {l r : SmtBatchNode}
    (hRep : Rep hash db d old h (.node lh rh leaf l r) o) :
    Rep hash db d old h' (.node lh rh leaf l r) o := by
  cases o <;> cases leaf <;> exact hRep

theorem rep_newLeaf (d : Nat) (h : NodeKey) (key : NodeKey) (value : Value) :
    Rep hash db d old h (.newLeaf (key.removeKeyBits d) (hash (valueNode value)))
      (.leaf key value) :=
  ⟨rfl, rfl⟩

theorem rep_nil (d : Nat) : Rep hash db d old NodeKey.zero .nil (.kept .empty) :=
  ⟨rfl, kept_empty d, Or.inl rfl⟩

/- Only a missing node stands for a kept subtree. -/
theorem rep_kept {t : Tree} (hRep : Rep hash db d old h cur (.kept t)) :
    cur = .nil ∧ h = (scheme hash).root d t := by
  rcases hRep.cases with ⟨t, hNil, ⟨⟩, hRoot, -⟩ | ⟨_, _, _, _, _, ⟨⟩⟩ | ⟨_, _, _, _, _, _, _, ⟨⟩⟩
  exact ⟨hNil, hRoot⟩

theorem rep_leaf {key : NodeKey} {value : Value}
    (hRep : Rep hash db d old h cur (.leaf key value)) :
    ∃ l r, cur = .node (key.removeKeyBits d) (hash (valueNode value)) true l r := by
  rcases hRep.cases with ⟨_, _, ⟨⟩, _⟩ | ⟨key, value, l, r, rfl, ⟨⟩⟩ | ⟨_, _, _, _, _, _, _, ⟨⟩⟩
  exact ⟨l, r, rfl⟩

theorem rep_branch {left right : Overlay} (hRep : Rep hash db d old h cur (.branch left right)) :
    ∃ lh rh l r, cur = .node lh rh false l r := by
  rcases hRep.cases with ⟨_, _, ⟨⟩, _⟩ | ⟨_, _, _, _, _, ⟨⟩⟩ | ⟨lh, rh, l, r, _, _, rfl, ⟨⟩⟩
  exact ⟨lh, rh, l, r, rfl⟩

/- The hash that is recorded for the child at the pointer. -/
def BatchFrame.childHash (f : BatchFrame) : NodeKey :=
  if f.side then f.rightHash else f.leftHash

/- A branch stands for its two sides. -/
theorem rep_frame {bf : BatchFrame} {f : OverFrame} (hUp : RepUp hash db old (bf :: bup) (f :: up))
    (hCur : Rep hash db (up.length + 1) (oldAt old (f :: up)) bf.childHash cur o) (h : NodeKey) :
    Rep hash db up.length (oldAt old up) h (bf.plug cur) (f.plug o) := by
  rcases hUp with ⟨⟨hSide, hNoted⟩, hSibling, _⟩
  rcases bf with ⟨lh, rh, side, sibling⟩
  rcases f with ⟨side', sibling'⟩
  dsimp only at hSide
  subst hSide
  cases side with
  | false => exact ⟨hNoted, hCur, hSibling⟩
  | true => exact ⟨hNoted, hSibling, hCur⟩

/- Writing through the pointer changes the whole tree. -/
theorem rep_plugAll (hUp : RepUp hash db old bup up)
    (hCur : ∀ h, Rep hash db up.length (oldAt old up) h cur o) (h : NodeKey) :
    Rep hash db 0 old h (plugAll bup cur) (Trie.Overlay.plug up o) := by
  fun_induction RepUp hash db old bup up generalizing cur o with
  | case1 => exact hCur h
  | case2 bf bup f up ih => exact ih hUp.2.2 (rep_frame hUp (hCur bf.childHash))
  | case3 => exact hUp.elim

-- Loading

/- Which nodes the visited hashes have come to include. -/
def Visits (hash : NodeValue12 → NodeKey) (visited visited' : List NodeKey)
    (A : Set NodeValue12) : Prop :=
  ∀ h, h ≠ NodeKey.zero → (h ∈ visited' ↔ h ∈ visited ∨ ∃ n ∈ A, h = hash n)

theorem Visits.refl (visited : List NodeKey) : Visits hash visited visited ∅ := by
  intro h _
  simp

theorem Visits.trans {visited visited₁ visited₂ : List NodeKey} {A B : Set NodeValue12}
    (hFirst : Visits hash visited visited₁ A) (hSecond : Visits hash visited₁ visited₂ B) :
    Visits hash visited visited₂ (A ∪ B) := by
  intro h hh
  simp only [hSecond h hh, hFirst h hh, or_assoc, Set.mem_union, or_and_right, exists_or]

theorem visits_root (visited : List NodeKey) (d : Nat) (t : Tree) :
    Visits hash visited (visited ++ [(scheme hash).root d t]) ((scheme hash).top d t) := by
  intro h hh
  rw [List.mem_append, List.mem_singleton]
  cases t with
  | empty =>
    simp only [Trie.Scheme.top, Set.mem_empty_iff_false,
      false_and, exists_false, or_false, or_iff_left_iff_imp]
    intro hZero
    exact absurd hZero hh
  | leaf key value => simp [Trie.Scheme.top]; rfl
  | branch left right => simp [Trie.Scheme.top]; rfl

/- Fetching a node loads the top of its subtree. -/
theorem rep_fetch {t : Tree} (hKept : Kept hash db d t) (hOld : t = .empty ∨ t = old) :
    Rep hash db d old ((scheme hash).root d t) (fetchNodeDataFromDb db ((scheme hash).root d t))
      (Trie.Overlay.load (.kept t)) := by
  unfold fetchNodeDataFromDb
  rw [isZero_root hKept.free]
  cases t with
  | empty => exact rep_nil d
  | leaf key value =>
    rw [if_neg (by simp [Trie.Tree.isEmpty]), get_of_nodes hKept.stored.leafNode]
    exact ⟨rfl, rfl⟩
  | branch left right =>
    rw [if_neg (by simp [Trie.Tree.isEmpty]), get_of_nodes hKept.stored.branchNode]
    rcases hOld with hEmpty | hOld
    · contradiction
    · subst hOld
      exact ⟨Or.inr rfl, ⟨rfl, hKept.left, Or.inr rfl⟩, ⟨rfl, hKept.right, Or.inr rfl⟩⟩

theorem fetchChild_spec (hRep : Rep hash db d old h cur o) (visited : List NodeKey) :
    Rep hash db d old h (fetchChild db h cur visited).1 o.load ∧
      Visits hash visited (fetchChild db h cur visited).2 ((scheme hash).loadedNode d o) := by
  rcases hRep.cases with ⟨t, rfl, rfl, rfl, hKept, hOld⟩ | ⟨key, value, l, r, rfl, rfl⟩ |
    ⟨lh, rh, l, r, left, right, rfl, rfl⟩
  · exact ⟨rep_fetch hKept hOld, visits_root visited d t⟩
  · exact ⟨hRep, Visits.refl visited⟩
  · exact ⟨hRep, Visits.refl visited⟩

theorem loadPoint_spec (hRep : Rep hash db d old h cur o) (hTop : bup ≠ [] → o.toTree ≠ .empty)
    (visited : List NodeKey) :
    ∃ cur' visited', loadPoint db bup h visited cur = .ok (cur', visited') ∧
        Rep hash db d old h cur' o.load ∧
        Visits hash visited visited' ((scheme hash).loadedNode d o) := by
  rcases hRep.cases with ⟨t, rfl, rfl, rfl, hKept, hOld⟩ | ⟨key, value, l, r, rfl, rfl⟩ |
    ⟨lh, rh, l, r, left, right, rfl, rfl⟩
  · unfold loadPoint
    rw [isZero_root hKept.free]
    cases t with
    | empty =>
      have hRoot : bup = [] := by
        by_contra hBelow
        exact hTop hBelow rfl
      subst hRoot
      exact ⟨.nil, visited, rfl, rep_nil d, Visits.refl visited⟩
    | leaf key value => exact ⟨_, _, rfl, rep_fetch hKept hOld, visits_root visited d _⟩
    | branch left right => exact ⟨_, _, rfl, rep_fetch hKept hOld, visits_root visited d _⟩
  · exact ⟨_, visited, rfl, hRep, Visits.refl visited⟩
  · exact ⟨_, visited, rfl, hRep, Visits.refl visited⟩

def sideChild (db : Db) (fetchDirectSiblings : Bool) (h : NodeKey) (cur : SmtBatchNode)
    (visited : List NodeKey) : SmtBatchNode × List NodeKey :=
  if fetchDirectSiblings then fetchChild db h cur visited
  else (cur, visited)

theorem sideChild_spec {fetchDirectSiblings : Bool} {d : Nat} {h : NodeKey} {cur : SmtBatchNode}
    {o : Overlay} (hRep : Rep hash db d old h cur o) (visited : List NodeKey) :
    Rep hash db d old h (sideChild db fetchDirectSiblings h cur visited).1
        (Trie.Overlay.side fetchDirectSiblings o) ∧
      Visits hash visited (sideChild db fetchDirectSiblings h cur visited).2
        ((scheme hash).besideNode fetchDirectSiblings d o) := by
  cases fetchDirectSiblings with
  | false => exact ⟨hRep, Visits.refl visited⟩
  | true => exact fetchChild_spec hRep visited

/- There is no child exactly where the subtree is empty. -/
theorem isZero_and_isNil (hRep : Rep hash db d old h cur o) :
    (h.isZero && cur.isNil) = o.toTree.isEmpty := by
  rcases hRep.cases with ⟨t, rfl, rfl, rfl, hKept, -⟩ | ⟨key, value, l, r, rfl, rfl⟩ |
    ⟨lh, rh, l, r, left, right, rfl, rfl⟩
  · rw [isZero_root hKept.free]
    exact Bool.and_true _
  · exact Bool.and_false _
  · exact Bool.and_false _

-- The Inserting Point

/- The branch at the pointer and the child it leads to. -/
theorem findInsertingPoint_branch {h lh rh : NodeKey} {cur l r : SmtBatchNode} (b : Bool)
    (path : List Bool)
    (hLoad : loadPoint db bup h visited cur = .ok (.node lh rh false l r, visited')) :
    findInsertingPoint db sib (b :: path) bup h cur visited =
      let left := sideChild db sib lh l visited'
      let right := sideChild db sib rh r left.2
      let f : BatchFrame := ⟨lh, rh, b, if b then left.1 else right.1⟩
      let child := if b then right.1 else left.1
      let childHash := if b then rh else lh
      if childHash.isZero && child.isNil then .ok ⟨bup, f.plug child, right.2⟩
      else findInsertingPoint db sib path (f :: bup) childHash child right.2 := by
  rw [findInsertingPoint, hLoad]
  cases b <;> rfl

/-
  Where a walk ends: at a leaf, at the missing root, or at a branch with nothing in the next
  direction.  In the last case the code stops one level above the end of the trie's own descent.
-/
inductive AtPoint (hash : NodeValue12 → NodeKey) (db : Db) (old : Tree) :
    List BatchFrame → SmtBatchNode → List OverFrame → Overlay → Prop
  | leaf {bup : List BatchFrame} {up : List OverFrame} {rem val : NodeKey} {l r : SmtBatchNode}
      {key : NodeKey} {value : Value} (hUp : RepUp hash db old bup up)
      (hRem : rem = key.removeKeyBits up.length) (hVal : val = hash (valueNode value)) :
      AtPoint hash db old bup (.node rem val true l r) up (.leaf key value)
  | root : AtPoint hash db old [] .nil [] (.kept .empty)
  | gap {bf : BatchFrame} {bup : List BatchFrame} {f : OverFrame} {up : List OverFrame}
      (hUp : RepUp hash db old (bf :: bup) (f :: up)) (hZero : bf.childHash = NodeKey.zero) :
      AtPoint hash db old bup (bf.plug .nil) (f :: up) (.kept .empty)

/- What one branch of the walk reads, on and off the path. -/
theorem openedNodes_step {key : NodeKey} {o left right : Overlay}
    (hLoad : o.load = .branch left right) :
    (scheme hash).openedNodes NodeKey.pathBit key sib d o =
      (scheme hash).loadedNode d o ∪
        ((scheme hash).besideNode sib (d + 1) left ∪ (scheme hash).besideNode sib (d + 1) right) ∪
        (scheme hash).openedNodes NodeKey.pathBit key sib (d + 1)
          (Trie.Overlay.side sib (if key.pathBit d then right else left)) := by
  rw [Trie.Scheme.openedNodes_eq_union, hLoad, Trie.Scheme.openedNodes_branch, Set.union_assoc]
  congr 1
  cases key.pathBit d with
  | false =>
    rw [if_neg (by decide), if_neg (by decide),
      Trie.Scheme.openedNodes_eq_beside, ← Set.union_assoc,
      Set.union_comm ((scheme hash).besideNode sib _ right)]
  | true => rw [if_pos rfl, if_pos rfl, Trie.Scheme.openedNodes_eq_beside, ← Set.union_assoc]

theorem toTree_height_child {o left right : Overlay} (hLoad : o.load = .branch left right)
    (b : Bool) : (if b then right else left).toTree.height < o.toTree.height := by
  rw [← Trie.Overlay.toTree_load o, hLoad]
  cases b with
  | false => exact Nat.lt_succ_of_le (le_max_left _ _)
  | true => exact Nat.lt_succ_of_le (le_max_right _ _)

/- The walk opens the path of the key and ends where the descent of the trie does. -/
def Finds (hash : NodeValue12 → NodeKey) (db : Db) (old : Tree) (sib : Bool) (key : NodeKey)
    (visited : List NodeKey) (up : List OverFrame) (o : Overlay)
    (result : Except Failure InsertingPoint) : Prop :=
  ∃ p, result = .ok p ∧
    AtPoint hash db old p.up p.cur
      (Trie.Overlay.focus NodeKey.pathBit key up
        (Trie.Overlay.openPath NodeKey.pathBit key sib up.length o)).1
      (Trie.Overlay.focus NodeKey.pathBit key up
        (Trie.Overlay.openPath NodeKey.pathBit key sib up.length o)).2 ∧
    Visits hash visited p.visitedNodeHashes
      ((scheme hash).openedNodes NodeKey.pathBit key sib up.length o)

theorem findInsertingPoint_tip {key : NodeKey} {path : List Bool} (hUp : RepUp hash db old bup up)
    (hRep : Rep hash db up.length (oldAt old up) h cur o) (hTop : bup ≠ [] → o.toTree ≠ .empty)
    (hTip : ∀ left right, o.load ≠ .branch left right) (visited : List NodeKey) :
    Finds hash db old sib key visited up o (findInsertingPoint db sib path bup h cur visited) := by
  rcases loadPoint_spec hRep hTop visited with ⟨cur', visited', hLoad, hCur, hVisits⟩
  have hLoaded := Trie.Overlay.loaded_load o
  unfold Finds
  rw [← Trie.Overlay.openPath_load up.length o, Trie.Scheme.openedNodes_eq_union]
  cases hTree : o.load with
  | kept t =>
    have hEmpty := hLoaded t hTree
    subst hEmpty
    have hRoot : bup = [] := by
      by_contra hBelow
      apply hTop hBelow
      rw [← Trie.Overlay.toTree_load o, hTree]
      rfl
    subst hRoot
    have hFrames : up = [] := List.length_eq_zero_iff.mp hUp.length_eq.symm
    subst hFrames
    rw [hTree] at hCur
    rcases rep_kept hCur with ⟨rfl, -⟩
    refine ⟨⟨[], .nil, visited'⟩, by rw [findInsertingPoint, hLoad]; rfl, .root, ?_⟩
    exact hVisits.trans (Visits.refl visited')
  | leaf key' value =>
    rw [hTree] at hCur
    rcases rep_leaf hCur with ⟨l, r, rfl⟩
    refine ⟨⟨bup, _, visited'⟩, by rw [findInsertingPoint, hLoad]; rfl, .leaf hUp rfl rfl, ?_⟩
    exact hVisits.trans (Visits.refl visited')
  | branch left right => exact absurd hTree (hTip left right)

/- The walk, by induction on the rest of the path. -/
theorem findInsertingPoint_spec {sib : Bool} {key : NodeKey} {path : List Bool}
    {bup : List BatchFrame} {up : List OverFrame} {h : NodeKey} {cur : SmtBatchNode} {o : Overlay}
    (hPath : key.getPath.drop up.length = path) (hUp : RepUp hash db old bup up)
    (hRep : Rep hash db up.length (oldAt old up) h cur o) (hTop : bup ≠ [] → o.toTree ≠ .empty)
    (hHeight : o.toTree.height + up.length ≤ 256) (visited : List NodeKey) :
    Finds hash db old sib key visited up o (findInsertingPoint db sib path bup h cur visited) := by
  induction path generalizing bup up h cur o visited with
  | nil =>
    apply findInsertingPoint_tip hUp hRep hTop
    intro left right hBranch
    have hLess := toTree_height_child hBranch false
    have hDeep := List.drop_eq_nil_iff.mp hPath
    rw [NodeKey.length_getPath] at hDeep
    omega
  | cons b path ih =>
    by_cases hTip : ∀ left right, o.load ≠ .branch left right
    · exact findInsertingPoint_tip hUp hRep hTop hTip visited
    push Not at hTip
    rcases hTip with ⟨left, right, hBranch⟩
    rcases loadPoint_spec hRep hTop visited with ⟨cur', visited', hLoad, hCur, hVisits⟩
    have hLess := toTree_height_child hBranch (key.pathBit up.length)
    rw [NodeKey.drop_getPath key (by omega)] at hPath
    injection hPath with hBit hPath
    rw [hBranch] at hCur
    rcases rep_branch hCur with ⟨lh, rh, l, r, rfl⟩
    have hLeft := @sideChild_spec _ _ _ sib _ _ _ _ hCur.2.1 visited'
    have hRight := @sideChild_spec _ _ _ sib _ _ _ _ hCur.2.2 (sideChild db sib lh l visited').2
    have hSides := hVisits.trans (hLeft.2.trans hRight.2)
    have hNext : RepUp hash db old (⟨lh, rh, b, if b then (sideChild db sib lh l visited').1
        else (sideChild db sib rh r (sideChild db sib lh l visited').2).1⟩ :: bup)
        (⟨b, Trie.Overlay.side sib (if b then left else right)⟩ :: up) := by
      cases b with
      | false => exact ⟨⟨rfl, hCur.1⟩, hRight.1, hUp⟩
      | true => exact ⟨⟨rfl, hCur.1⟩, hLeft.1, hUp⟩
    have hChild : Rep hash db (up.length + 1) ((oldAt old up).child b) (if b then rh else lh)
          (if b then (sideChild db sib rh r (sideChild db sib lh l visited').2).1
          else (sideChild db sib lh l visited').1)
          (Trie.Overlay.side sib (if b then right else left)) := by
      cases b with
      | false => exact hLeft.1
      | true => exact hRight.1
    rw [findInsertingPoint_branch b path hLoad]
    dsimp only
    rw [isZero_and_isNil hChild]
    unfold Finds
    rw [← Trie.Overlay.openPath_load up.length o, hBranch, Trie.Overlay.focus_openPath_branch,
      ← Trie.Overlay.openPath_side, openedNodes_step hBranch, hBit]
    cases hEmpty : (Trie.Overlay.side sib (if b then right else left)).toTree.isEmpty with
    | true =>
      have hKept := Trie.Overlay.Loaded.eq_kept (Trie.Tree.isEmpty_iff.mp hEmpty)
      rw [hKept] at hChild ⊢
      rcases rep_kept hChild with ⟨hNil, hZero⟩
      rw [hNil]
      exact ⟨_, rfl, .gap hNext hZero, hSides.trans (Visits.refl _)⟩
    | false =>
      have hSome := mt Trie.Tree.isEmpty_iff.mpr (by rw [hEmpty]; decide)
      rw [hBit] at hLess
      rcases @ih _ (_ :: up) _ _ _ hPath hNext hChild (fun _ => hSome) (by
        rw [Trie.Overlay.toTree_side, List.length_cons]
        omega) _ with ⟨p, hFind, hPoint, hMore⟩
      exact ⟨p, hFind, hPoint, hSides.trans hMore⟩

end XLayerErigon.Smt
