import XLayerErigon.Trie.Merkle
import XLayerErigon.Trie.Overlay

/-
  The nodes behind an overlay.

  Opening a path reads nodes of the kept subtrees.  What is read depends only on what is kept, and
  so does which nodes of the trie are at hand.

  Main results:
    * `Scheme.openedNodes_sameKept`
    * `Scheme.openedNodes_subset`
    * `Scheme.mem_nodes_toTree`
    * `Scheme.mem_handNodes_iff`
-/

namespace Trie

-- Nodes that are Loaded

namespace Scheme

variable {K V N H : Type}

/- The node at the top of a trie, if there is one. -/
def top (S : Scheme K V N H) (d : Nat) : Tree K V → Set N
  | .empty => ∅
  | .leaf key value => {S.leafNode d key value}
  | .branch left right =>
      {S.branchNode (S.root (d + 1) left) (S.root (d + 1) right)}

def loadedNode (S : Scheme K V N H) (d : Nat) : Overlay K V → Set N
  | .kept t => S.top d t
  | .leaf _ _ => ∅
  | .branch _ _ => ∅

section Opened

variable (S : Scheme K V N H) (bit : K → Nat → Bool) (key : K) (beside : Bool)

def besideNode (d : Nat) (o : Overlay K V) : Set N :=
  if beside then S.loadedNode d o else ∅

/- The nodes that opening a kept subtree reads. -/
def openedTree : Nat → Tree K V → Set N
  | _, .empty => ∅
  | d, .leaf key' value => {S.leafNode d key' value}
  | d, .branch left right =>
      {S.branchNode (S.root (d + 1) left) (S.root (d + 1) right)} ∪
        if bit key d then
          S.besideNode beside (d + 1) (.kept left) ∪ openedTree (d + 1) right
        else
          openedTree (d + 1) left ∪ S.besideNode beside (d + 1) (.kept right)

def openedNodes : Nat → Overlay K V → Set N
  | d, .kept t => openedTree S bit key beside d t
  | _, .leaf _ _ => ∅
  | d, .branch left right =>
      if bit key d then
        S.besideNode beside (d + 1) left ∪ openedNodes (d + 1) right
      else
        openedNodes (d + 1) left ∪ S.besideNode beside (d + 1) right

end Opened

variable {S : Scheme K V N H} {bit : K → Nat → Bool} {key : K} {beside : Bool}

variable (d : Nat) (o : Overlay K V)

/- Opening a path reads the top first. -/
theorem openedNodes_eq_union :
    S.openedNodes bit key beside d o =
      S.loadedNode d o ∪ S.openedNodes bit key beside d o.load := by
  rcases o with t | _ | _
  · cases t with
    | empty => exact (Set.empty_union _).symm
    | leaf key' value => exact (Set.union_empty _).symm
    | branch left right => rfl
  · exact (Set.empty_union _).symm
  · exact (Set.empty_union _).symm

/- What is read below a branch: beside the path and on it. -/
theorem openedNodes_branch (left right : Overlay K V) :
    S.openedNodes bit key beside d (.branch left right) =
      S.besideNode beside (d + 1) (if bit key d then left else right) ∪
        S.openedNodes bit key beside (d + 1) (if bit key d then right else left) := by
  cases hBit : bit key d with
  | false =>
    simp only [openedNodes, hBit, if_false, Bool.false_eq_true]
    exact Set.union_comm _ _
  | true => simp only [openedNodes, hBit, if_true]

/- A side that was loaded already is not read again. -/
theorem openedNodes_eq_beside :
    S.openedNodes bit key beside d o =
      S.besideNode beside d o ∪ S.openedNodes bit key beside d (Overlay.side beside o) := by
  unfold besideNode Overlay.side
  split
  · exact openedNodes_eq_union d o
  · exact (Set.empty_union _).symm

theorem loadedNode_atHand {o : Overlay K V} (hHand : o.AtHand) (d : Nat) :
    S.loadedNode d o = ∅ := by
  cases o with
  | kept t =>
    rw [hHand.kept_eq]
    rfl
  | leaf key value => rfl
  | branch left right => rfl

theorem besideNode_atHand {o : Overlay K V} (hHand : o.AtHand) (d : Nat) :
    S.besideNode beside d o = ∅ := by
  unfold besideNode
  rw [loadedNode_atHand hHand, ite_self]

theorem openedNodes_atHand {o : Overlay K V} (hHand : o.AtHand) (d : Nat) :
    S.openedNodes bit key beside d o = ∅ := by
  induction o generalizing d with
  | kept t =>
    rw [hHand.kept_eq]
    rfl
  | leaf key value => rfl
  | branch left right ihLeft ihRight =>
    unfold openedNodes
    rw [ihLeft hHand.left, ihRight hHand.right, besideNode_atHand hHand.left,
      besideNode_atHand hHand.right, ite_self, Set.empty_union]

theorem besideNode_sameKept {o o' : Overlay K V} (hSame : o.SameKept o') (d : Nat) :
    S.besideNode beside d o = S.besideNode beside d o' := by
  refine hSame.induction ?_ (fun t => rfl) (fun left right left' right' _ _ _ _ => rfl)
  intro o o' hHand hHand'
  rw [besideNode_atHand hHand, besideNode_atHand hHand']

/- What is read depends only on what is kept. -/
theorem openedNodes_sameKept {o o' : Overlay K V} (hSame : o.SameKept o') (d : Nat) :
    S.openedNodes bit key beside d o = S.openedNodes bit key beside d o' := by
  revert d
  refine hSame.induction ?_ (fun t d => rfl) ?_
  · intro o o' hHand hHand' d
    rw [openedNodes_atHand hHand, openedNodes_atHand hHand']
  · intro left right left' right' hLeft hRight ihLeft ihRight d
    unfold openedNodes
    rw [ihLeft, ihRight, besideNode_sameKept hLeft, besideNode_sameKept hRight]

-- Nodes Kept and Nodes at Hand

def keptNodes (S : Scheme K V N H) (d : Nat) (o : Overlay K V) : Set N :=
  {n | ∃ q t, o.Keeps q t ∧ n ∈ S.nodes (d + q.length) t}

/- The nodes at hand, without the values of the leaves. -/
def handNodes (S : Scheme K V N H) : Nat → Overlay K V → Set N
  | _, .kept _ => ∅
  | d, .leaf key value => {S.leafNode d key value}
  | d, .branch left right =>
      {S.branchNode (S.root (d + 1) left.toTree) (S.root (d + 1) right.toTree)} ∪
        (S.handNodes (d + 1) left ∪ S.handNodes (d + 1) right)

theorem keptNodes_branch (left right : Overlay K V) :
    S.keptNodes d (.branch left right) = S.keptNodes (d + 1) left ∪ S.keptNodes (d + 1) right := by
  have hShift : ∀ l : Nat, d + (l + 1) = d + 1 + l := by
    intro l
    omega
  ext n
  constructor
  · rintro ⟨q, t, hKeeps, hn⟩
    cases q with
    | nil => exact hKeeps.elim
    | cons b q =>
      rw [List.length_cons, hShift] at hn
      cases b with
      | false => exact Or.inl ⟨q, t, hKeeps, hn⟩
      | true => exact Or.inr ⟨q, t, hKeeps, hn⟩
  · rintro (⟨q, t, hKeeps, hn⟩ | ⟨q, t, hKeeps, hn⟩)
    · refine ⟨false :: q, t, hKeeps, ?_⟩
      rw [List.length_cons, hShift]
      exact hn
    · refine ⟨true :: q, t, hKeeps, ?_⟩
      rw [List.length_cons, hShift]
      exact hn

theorem keptNodes_kept (t : Tree K V) : S.keptNodes d (.kept t) = S.nodes d t := by
  ext n
  constructor
  · rintro ⟨q, t', ⟨rfl, rfl, _⟩, hn⟩
    exact hn
  · intro hn
    refine ⟨[], t, ⟨rfl, rfl, ?_⟩, hn⟩
    rintro rfl
    exact hn

theorem keptNodes_leaf (key : K) (value : V) : S.keptNodes d (.leaf key value) = ∅ := by
  rw [Set.eq_empty_iff_forall_notMem]
  rintro n ⟨q, t, hKeeps, _⟩
  exact hKeeps

theorem keptNodes_sameKept {o o' : Overlay K V} (hSame : o.SameKept o') (d : Nat) :
    S.keptNodes d o = S.keptNodes d o' := by
  ext n
  constructor
  · rintro ⟨q, t, hKeeps, hn⟩
    exact ⟨q, t, (hSame q t).mp hKeeps, hn⟩
  · rintro ⟨q, t, hKeeps, hn⟩
    exact ⟨q, t, (hSame q t).mpr hKeeps, hn⟩

/-
  The nodes of an overlay: those at hand, the values of the leaves at hand, and those of the kept
  subtrees.
-/
theorem mem_nodes_toTree {d : Nat} {o : Overlay K V} {n : N} (hn : n ∈ S.nodes d o.toTree) :
    n ∈ S.handNodes d o ∨ n ∈ S.keptNodes d o ∨
      ∃ key value, Tree.Mem key value o.toTree ∧ n = S.valueNode value := by
  induction o generalizing d with
  | kept t => exact Or.inr (Or.inl ((keptNodes_kept d t).symm ▸ hn))
  | leaf key value =>
    rcases hn with hn | hn
    · exact Or.inl hn
    · exact Or.inr (Or.inr ⟨key, value, ⟨rfl, rfl⟩, hn⟩)
  | branch left right ihLeft ihRight =>
    rw [keptNodes_branch]
    rcases hn with hn | hn | hn
    · exact Or.inl (Or.inl hn)
    · rcases ihLeft hn with hHand | hKept | ⟨key, value, hMem, hEq⟩
      · exact Or.inl (Or.inr (Or.inl hHand))
      · exact Or.inr (Or.inl (Or.inl hKept))
      · exact Or.inr (Or.inr ⟨key, value, Or.inl hMem, hEq⟩)
    · rcases ihRight hn with hHand | hKept | ⟨key, value, hMem, hEq⟩
      · exact Or.inl (Or.inr (Or.inr hHand))
      · exact Or.inr (Or.inl (Or.inr hKept))
      · exact Or.inr (Or.inr ⟨key, value, Or.inr hMem, hEq⟩)

theorem handNodes_subset : S.handNodes d o ⊆ S.nodes d o.toTree := by
  induction o generalizing d with
  | kept t => exact Set.empty_subset _
  | leaf key value => exact fun n hn => Or.inl hn
  | branch left right ihLeft ihRight =>
    exact Set.union_subset_union subset_rfl (Set.union_subset_union (ihLeft _) (ihRight _))

theorem keptNodes_subset : S.keptNodes d o ⊆ S.nodes d o.toTree := by
  induction o generalizing d with
  | kept t => exact (keptNodes_kept d t).subset
  | leaf key value =>
    rw [keptNodes_leaf]
    exact Set.empty_subset _
  | branch left right ihLeft ihRight =>
    rw [keptNodes_branch]
    exact Set.subset_union_of_subset_right (Set.union_subset_union (ihLeft _) (ihRight _)) _

theorem keptNodes_load : S.keptNodes d o.load ⊆ S.keptNodes d o := by
  rcases o with t | _ | _
  · cases t with
    | empty => exact subset_rfl
    | leaf key value =>
      rw [Overlay.load, keptNodes_leaf]
      exact Set.empty_subset _
    | branch left right =>
      rw [Overlay.load, keptNodes_branch, keptNodes_kept, keptNodes_kept, keptNodes_kept]
      exact Set.subset_union_right
  · exact subset_rfl
  · exact subset_rfl

theorem keptNodes_side : S.keptNodes d (Overlay.side beside o) ⊆ S.keptNodes d o := by
  unfold Overlay.side
  split
  · exact keptNodes_load d o
  · exact subset_rfl

theorem keptNodes_openPath :
    S.keptNodes d (Overlay.openPath bit key beside d o) ⊆ S.keptNodes d o := by
  induction o using Overlay.induction_load generalizing d with
  | hLoad o ih =>
    rw [← Overlay.openPath_load]
    exact (ih d).trans (keptNodes_load d o)
  | hEmpty => exact subset_rfl
  | hLeaf key' value => exact subset_rfl
  | hBranch left right ihLeft ihRight =>
    unfold Overlay.openPath
    split
    · rw [keptNodes_branch, keptNodes_branch]
      exact Set.union_subset_union (keptNodes_side _ _) (ihRight _)
    · rw [keptNodes_branch, keptNodes_branch]
      exact Set.union_subset_union (ihLeft _) (keptNodes_side _ _)

theorem loadedNode_subset : S.loadedNode d o ⊆ S.keptNodes d o := by
  intro n hn
  rcases o with t | _ | _
  · rw [keptNodes_kept]
    cases t with
    | empty => exact hn
    | leaf key value => exact Or.inl hn
    | branch left right => exact Or.inl hn
  · exact hn.elim
  · exact hn.elim

theorem besideNode_subset : S.besideNode beside d o ⊆ S.keptNodes d o := by
  unfold besideNode
  split
  · exact loadedNode_subset d o
  · exact Set.empty_subset _

/- Only kept nodes are read. -/
theorem openedNodes_subset : S.openedNodes bit key beside d o ⊆ S.keptNodes d o := by
  induction o using Overlay.induction_load generalizing d with
  | hLoad o ih =>
    rw [openedNodes_eq_union]
    exact Set.union_subset (loadedNode_subset d o) ((ih d).trans (keptNodes_load d o))
  | hEmpty => exact Set.empty_subset _
  | hLeaf key' value => exact Set.empty_subset _
  | hBranch left right ihLeft ihRight =>
    unfold openedNodes
    rw [keptNodes_branch]
    split
    · exact Set.union_subset_union (besideNode_subset _ _) (ihRight _)
    · exact Set.union_subset_union (ihLeft _) (besideNode_subset _ _)

/- The node `n` is at the end of the way `q`. -/
def NodeAt (S : Scheme K V N H) :
    Nat → Tree K V → List Bool → N → Prop
  | d, .leaf key value, [], n => n = S.leafNode d key value
  | d, .branch left right, [], n =>
      n = S.branchNode (S.root (d + 1) left) (S.root (d + 1) right)
  | d, .branch left right, b :: q, n =>
      S.NodeAt (d + 1) (if b then right else left) q n
  | _, _, _, _ => False

/- A way below one child meets only what that child keeps. -/
theorem outside_cons {left right : Overlay K V} {b : Bool} {q : List Bool}
    (hOutside : ∀ q' t, (if b then right else left).Keeps q' t → ¬ q' <+: q) :
    ∀ q' t, (Overlay.branch left right).Keeps q' t → ¬ q' <+: b :: q := by
  intro q' t hKeeps hPrefix
  cases q' with
  | nil => exact hKeeps
  | cons b' q' =>
    rcases List.cons_prefix_cons.mp hPrefix with ⟨rfl, hRest⟩
    apply hOutside q' t _ hRest
    cases b' <;> exact hKeeps

theorem mem_handNodes_iff {d : Nat} {o : Overlay K V} {n : N} :
    n ∈ S.handNodes d o ↔ ∃ q, S.NodeAt d o.toTree q n ∧ ∀ q' t, o.Keeps q' t → ¬ q' <+: q := by
  induction o generalizing d with
  | kept t =>
    refine iff_of_false (fun hn => hn) ?_
    rintro ⟨q, hAt, hOutside⟩
    refine hOutside [] t ⟨rfl, rfl, ?_⟩ List.nil_prefix
    rintro rfl
    cases q <;> exact hAt
  | leaf key value =>
    constructor
    · rintro rfl
      exact ⟨[], rfl, fun q' t hKeeps => hKeeps.elim⟩
    · rintro ⟨q, hAt, _⟩
      cases q with
      | nil => exact hAt
      | cons b q => exact hAt.elim
  | branch left right ihLeft ihRight =>
    constructor
    · rintro (rfl | hn | hn)
      · refine ⟨[], rfl, ?_⟩
        rintro q' t hKeeps hPrefix
        rw [List.prefix_nil.mp hPrefix] at hKeeps
        exact hKeeps
      · rcases ihLeft.mp hn with ⟨q, hAt, hOutside⟩
        refine ⟨false :: q, hAt, ?_⟩
        exact outside_cons hOutside
      · rcases ihRight.mp hn with ⟨q, hAt, hOutside⟩
        refine ⟨true :: q, hAt, ?_⟩
        exact outside_cons hOutside
    · rintro ⟨q, hAt, hOutside⟩
      cases q with
      | nil => exact Or.inl hAt
      | cons b q =>
        have hBelow : ∀ q' t, (if b then right else left).Keeps q' t → ¬ q' <+: q := by
          intro q' t hKeeps hPrefix
          apply hOutside (b :: q') t
          · cases b <;> exact hKeeps
          · exact List.prefix_cons_inj b |>.mpr hPrefix
        cases b with
        | false => exact Or.inr (Or.inl (ihLeft.mpr ⟨q, hAt, hBelow⟩))
        | true => exact Or.inr (Or.inr (ihRight.mpr ⟨q, hAt, hBelow⟩))

end Scheme

end Trie
