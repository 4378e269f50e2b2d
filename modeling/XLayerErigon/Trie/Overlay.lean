import XLayerErigon.Trie.Zipper

/-
  Tries that are loaded piece by piece.

  An overlay is a trie of which some subtrees are kept as they are somewhere else and the rest is
  at hand.  Opening a path loads the kept subtrees along the bits of one key, and on request the
  tops of the subtrees beside it.

  Main results:
    * `Overlay.toTree_openPath`
    * `Overlay.focus_toTree`
    * `Overlay.SameKept.openPath`
-/

-- Overlays

namespace Trie

variable {K V : Type}

inductive Overlay (K V : Type) where
  | kept (t : Tree K V) : Overlay K V
  | leaf (key : K) (value : V) : Overlay K V
  | branch (left right : Overlay K V) : Overlay K V

namespace Overlay

def toTree : Overlay K V → Tree K V
  | .kept t => t
  | .leaf key value => .leaf key value
  | .branch left right => .branch left.toTree right.toTree

def load : Overlay K V → Overlay K V
  | .kept .empty => .kept .empty
  | .kept (.leaf key value) => .leaf key value
  | .kept (.branch left right) =>
      .branch (.kept left) (.kept right)
  | .leaf key value => .leaf key value
  | .branch left right => .branch left right

/- Only the empty trie may be kept at the top. -/
def Loaded (o : Overlay K V) : Prop := ∀ t, o = .kept t → t = .empty

theorem toTree_load (o : Overlay K V) : o.load.toTree = o.toTree := by
  rcases o with t | _ | _
  · cases t <;> rfl
  · rfl
  · rfl

/- An overlay is followed into what it keeps by loading. -/
theorem induction_load {P : Overlay K V → Prop} (hLoad : ∀ o, P o.load → P o)
    (hEmpty : P (.kept .empty)) (hLeaf : ∀ key value, P (.leaf key value))
    (hBranch : ∀ left right, P left → P right → P (.branch left right)) (o : Overlay K V) :
    P o := by
  induction o with
  | kept t =>
    induction t with
    | empty => exact hEmpty
    | leaf key value => exact hLoad (.kept (.leaf key value)) (hLeaf key value)
    | branch left right ihLeft ihRight =>
      exact hLoad (.kept (.branch left right)) (hBranch _ _ ihLeft ihRight)
  | leaf key value => exact hLeaf key value
  | branch left right ihLeft ihRight => exact hBranch left right ihLeft ihRight

theorem loaded_load (o : Overlay K V) :
    o.load.Loaded := by
  intro t hKept
  rcases o with t' | _ | _
  · cases t' with
    | empty =>
      injection hKept with hEmpty
      exact hEmpty.symm
    | leaf key value => contradiction
    | branch left right => contradiction
  · contradiction
  · contradiction

theorem Loaded.eq_leaf {o : Overlay K V} {key : K} {value : V} (hLoaded : o.Loaded)
    (hTree : o.toTree = .leaf key value) : o = .leaf key value := by
  cases o with
  | kept t =>
    have hEmpty := hLoaded t rfl
    subst hEmpty
    contradiction
  | leaf key' value' =>
    injection hTree with hKey hValue
    rw [hKey, hValue]
  | branch left right => contradiction

theorem Loaded.eq_branch {o : Overlay K V} {left right : Tree K V} (hLoaded : o.Loaded)
    (hTree : o.toTree = .branch left right) : ∃ left' right', o = .branch left' right' := by
  cases o with
  | kept t =>
    have hEmpty := hLoaded t rfl
    subst hEmpty
    contradiction
  | leaf key value => contradiction
  | branch left' right' => exact ⟨left', right', rfl⟩

theorem Loaded.eq_kept {o : Overlay K V} (hTree : o.toTree = .empty) : o = .kept .empty := by
  cases o with
  | kept t => exact congrArg Overlay.kept hTree
  | leaf key value => contradiction
  | branch left right => contradiction

-- Opening a Path

section OpenPath

variable (bit : K → Nat → Bool) (key : K) (beside : Bool)

/- A subtree beside the path, loaded on request. -/
def side (o : Overlay K V) : Overlay K V :=
  if beside then o.load else o

/- Open a path through a kept subtree. -/
def openTree : Nat → Tree K V → Overlay K V
  | _, .empty => .kept .empty
  | _, .leaf key' value => .leaf key' value
  | d, .branch left right =>
      if bit key d then
        .branch (side beside (.kept left)) (openTree (d + 1) right)
      else
        .branch (openTree (d + 1) left) (side beside (.kept right))

def openPath : Nat → Overlay K V → Overlay K V
  | d, .kept t => openTree bit key beside d t
  | _, .leaf key' value => .leaf key' value
  | d, .branch left right =>
      if bit key d then
        .branch (side beside left) (openPath (d + 1) right)
      else
        .branch (openPath (d + 1) left) (side beside right)

end OpenPath

variable {bit : K → Nat → Bool} {key : K} {beside : Bool}

theorem toTree_side (o : Overlay K V) : (side beside o).toTree = o.toTree := by
  unfold side
  split
  · exact toTree_load o
  · rfl

/- Loading the top first makes no difference. -/
theorem openPath_load (d : Nat) (o : Overlay K V) :
    openPath bit key beside d o.load = openPath bit key beside d o := by
  rcases o with t | _ | _
  · cases t <;> rfl
  · rfl
  · rfl

theorem openPath_side (d : Nat) (o : Overlay K V) :
    openPath bit key beside d (side beside o) = openPath bit key beside d o := by
  unfold side
  split
  · exact openPath_load d o
  · rfl

theorem toTree_openPath (d : Nat) (o : Overlay K V) :
    (openPath bit key beside d o).toTree = o.toTree := by
  induction o using induction_load generalizing d with
  | hLoad o ih => rw [← openPath_load, ih, toTree_load]
  | hEmpty => rfl
  | hLeaf key' value => rfl
  | hBranch left right ihLeft ihRight =>
    unfold openPath
    split
    · simp [toTree, toTree_side, ihRight]
    · simp [toTree, toTree_side, ihLeft]

-- Frames of an Overlay

/- A branch of an overlay on the way down. -/
structure OverFrame (K V : Type) where
  side : Bool
  sibling : Overlay K V

namespace OverFrame

def plug (f : OverFrame K V) (o : Overlay K V) : Overlay K V :=
  if f.side then .branch f.sibling o
  else .branch o f.sibling

def toFrame (f : OverFrame K V) : Frame K V := ⟨f.side, f.sibling.toTree⟩

theorem toTree_plug (f : OverFrame K V) (o : Overlay K V) :
    (f.plug o).toTree = f.toFrame.plug o.toTree := by
  rcases f with ⟨side, sibling⟩
  cases side <;> rfl

end OverFrame

def plug :
    List (OverFrame K V) → Overlay K V → Overlay K V
  | [], o => o
  | f :: up, o => plug up (f.plug o)

variable (up : List (OverFrame K V)) {o o' : Overlay K V}

theorem plug_append (up up' : List (OverFrame K V)) (o : Overlay K V) :
    plug (up ++ up') o = plug up' (plug up o) := by
  induction up generalizing o with
  | nil => rfl
  | cons f up ih => exact ih _

theorem toTree_plug (o : Overlay K V) :
    (plug up o).toTree = Trie.plug (up.map OverFrame.toFrame) o.toTree := by
  induction up generalizing o with
  | nil => rfl
  | cons f up ih =>
    rw [plug, ih, OverFrame.toTree_plug]
    rfl

/- Descend along the bits of `key`, loading nothing. -/
def focus (bit : K → Nat → Bool) (key : K) :
    List (OverFrame K V) → Overlay K V → List (OverFrame K V) × Overlay K V
  | up, .kept t => (up, .kept t)
  | up, .leaf key' value => (up, .leaf key' value)
  | up, .branch left right =>
      if bit key up.length then
        focus bit key (⟨true, left⟩ :: up) right
      else
        focus bit key (⟨false, right⟩ :: up) left

theorem plug_focus (up : List (OverFrame K V)) (o : Overlay K V) :
    plug (focus bit key up o).1 (focus bit key up o).2 = plug up o := by
  induction o generalizing up with
  | kept t => rfl
  | leaf key' value => rfl
  | branch left right ihLeft ihRight =>
    unfold focus
    split
    · rw [ihRight]
      rfl
    · rw [ihLeft]
      rfl

theorem focus_openPath_branch (left right : Overlay K V) :
    focus bit key up (openPath bit key beside up.length (.branch left right)) =
      focus bit key
        (⟨bit key up.length, side beside (if bit key up.length then left else right)⟩ :: up)
        (openPath bit key beside (up.length + 1) (if bit key up.length then right else left)) := by
  cases hBit : bit key up.length with
  | false => simp only [openPath, focus, hBit, if_false, Bool.false_eq_true]
  | true => simp only [openPath, focus, hBit, if_true]

/- At the end of an opened path nothing is left to load. -/
theorem loaded_focus_openPath (o : Overlay K V) :
    (focus bit key up (openPath bit key beside up.length o)).2.Loaded := by
  induction o using induction_load generalizing up with
  | hLoad o ih =>
    rw [← openPath_load]
    exact ih up
  | hEmpty =>
    intro t' hKept
    injection hKept with hEmpty
    exact hEmpty.symm
  | hLeaf key' value =>
    intro t' hKept
    contradiction
  | hBranch left right ihLeft ihRight =>
    rw [focus_openPath_branch]
    cases bit key up.length with
    | false => exact ihLeft (_ :: up)
    | true => exact ihRight (_ :: up)

/- Where nothing is left to load, the descent of the overlay is the descent of its trie. -/
theorem focus_toTree (o : Overlay K V) (hLoaded : (focus bit key up o).2.Loaded) :
    Trie.focus bit key (up.map OverFrame.toFrame) o.toTree =
      ((focus bit key up o).1.map OverFrame.toFrame, (focus bit key up o).2.toTree) := by
  induction o generalizing up with
  | kept t =>
    have hEmpty := hLoaded t rfl
    subst hEmpty
    rfl
  | leaf key' value => rfl
  | branch left right ihLeft ihRight =>
    change Trie.focus bit key (up.map OverFrame.toFrame) (.branch left.toTree right.toTree) = _
    unfold focus at hLoaded ⊢
    unfold Trie.focus
    rw [List.length_map]
    cases hBit : bit key up.length with
    | false =>
      simp only [hBit, Bool.false_eq_true, if_false] at hLoaded ⊢
      exact ihLeft (⟨false, right⟩ :: up) hLoaded
    | true =>
      simp only [hBit, if_true] at hLoaded ⊢
      exact ihRight (⟨true, left⟩ :: up) hLoaded

/- With the subtrees beside it, every frame is loaded. -/
theorem loaded_sibling_openPath (o : Overlay K V) (hUp : ∀ f ∈ up, f.sibling.Loaded) :
    ∀ f ∈ (focus bit key up (openPath bit key true up.length o)).1, f.sibling.Loaded := by
  have hCons : ∀ (b : Bool) (o : Overlay K V) (up : List (OverFrame K V)),
        (∀ f ∈ up, f.sibling.Loaded) →
          ∀ f ∈ (⟨b, side true o⟩ : OverFrame K V) :: up, f.sibling.Loaded := by
    intro b o up hUp f hf
    rcases List.mem_cons.mp hf with rfl | hf
    · exact loaded_load o
    · exact hUp f hf
  induction o using induction_load generalizing up with
  | hLoad o ih =>
    rw [← openPath_load]
    exact ih up hUp
  | hEmpty => exact hUp
  | hLeaf key' value => exact hUp
  | hBranch left right ihLeft ihRight =>
    rw [focus_openPath_branch]
    cases bit key up.length with
    | false => exact ihLeft _ (hCons false right up hUp)
    | true => exact ihRight _ (hCons true left up hUp)

-- Kept Subtrees

/- The subtree `t` is kept at the end of the way `q`. -/
def Keeps :
    Overlay K V → List Bool → Tree K V → Prop
  | .kept t', q, t => q = [] ∧ t = t' ∧ t ≠ .empty
  | .leaf _ _, _, _ => False
  | .branch _ _, [], _ => False
  | .branch left right, b :: q, t =>
      if b then right.Keeps q t else left.Keeps q t

def SameKept (o o' : Overlay K V) : Prop := ∀ q t, o.Keeps q t ↔ o'.Keeps q t

theorem SameKept.trans {o o₁ o₂ : Overlay K V} (hFirst : o.SameKept o₁) (hSecond : o₁.SameKept o₂) :
    o.SameKept o₂ :=
  fun q t => (hFirst q t).trans (hSecond q t)

/- Nothing is kept. -/
def AtHand (o : Overlay K V) : Prop := ∀ q t, ¬ o.Keeps q t

theorem atHand_empty : (.kept .empty : Overlay K V).AtHand := by
  rintro q t ⟨_, hEmpty, hSome⟩
  exact hSome hEmpty

theorem atHand_leaf (key : K) (value : V) : (.leaf key value : Overlay K V).AtHand :=
  fun _ _ hKeeps => hKeeps

theorem AtHand.sameKept (hHand : o.AtHand) (hHand' : o'.AtHand) : o.SameKept o' :=
  fun q t => iff_of_false (hHand q t) (hHand' q t)

/- What is changed under a frame is changed below it. -/
theorem SameKept.frame (hSame : o.SameKept o') (f : OverFrame K V) :
    (f.plug o).SameKept (f.plug o') := by
  rcases f with ⟨side, sibling⟩
  intro q t
  cases q with
  | nil => cases side <;> exact Iff.rfl
  | cons b q =>
    cases side <;> cases b
    · exact hSame q t
    · exact Iff.rfl
    · exact Iff.rfl
    · exact hSame q t

theorem SameKept.plug (hSame : o.SameKept o') (up : List (OverFrame K V)) :
    (Overlay.plug up o).SameKept (Overlay.plug up o') := by
  induction up generalizing o o' with
  | nil => exact hSame
  | cons f up ih => exact ih (hSame.frame f)

theorem AtHand.frame {o : Overlay K V} {f : OverFrame K V} (hHand : o.AtHand)
    (hSibling : f.sibling.AtHand) : (f.plug o).AtHand := by
  rcases f with ⟨side, sibling⟩
  intro q t
  cases q with
  | nil => cases side <;> exact not_false
  | cons b q =>
    cases side <;> cases b
    · exact hHand q t
    · exact hSibling q t
    · exact hSibling q t
    · exact hHand q t

theorem AtHand.plug {o : Overlay K V} {up : List (OverFrame K V)} (hHand : o.AtHand)
    (hSiblings : ∀ f ∈ up, f.sibling.AtHand) : (Overlay.plug up o).AtHand := by
  induction up generalizing o with
  | nil => exact hHand
  | cons f up ih =>
    exact ih (hHand.frame (hSiblings f List.mem_cons_self)) (fun f' hf' =>
      hSiblings f' (List.mem_cons_of_mem f hf'))

/- A kept subtree at the top is the whole overlay. -/
theorem Keeps.eq_kept {o : Overlay K V} {t : Tree K V} (hKeeps : o.Keeps [] t) : o = .kept t := by
  cases o with
  | kept t' => rw [hKeeps.2.1]
  | leaf key value => exact hKeeps.elim
  | branch left right => exact hKeeps.elim

theorem SameKept.atHand (hSame : o.SameKept o') (hHand : o.AtHand) : o'.AtHand :=
  fun q t hKeeps => hHand q t ((hSame q t).mpr hKeeps)

/- Where two overlays keep the same, they look the same. -/
@[elab_as_elim]
theorem SameKept.induction {P : Overlay K V → Overlay K V → Prop} (hSame : o.SameKept o')
    (hHand : ∀ o o', o.AtHand → o'.AtHand → P o o') (hKept : ∀ t, P (.kept t) (.kept t))
    (hBranch : ∀ left right left' right', left.SameKept left' → right.SameKept right' →
      P left left' → P right right' → P (.branch left right) (.branch left' right')) : P o o' := by
  induction o generalizing o' with
  | kept t =>
    by_cases hEmpty : t = .empty
    · subst hEmpty
      exact hHand _ _ atHand_empty (hSame.atHand atHand_empty)
    · rw [((hSame [] t).mp ⟨rfl, rfl, hEmpty⟩).eq_kept]
      exact hKept t
  | leaf key value => exact hHand _ _ (atHand_leaf key value) (hSame.atHand (atHand_leaf key value))
  | branch left right ihLeft ihRight =>
    have hBack : o'.SameKept (.branch left right) := fun q t => (hSame q t).symm
    cases o' with
    | kept t =>
      by_cases hEmpty : t = .empty
      · subst hEmpty
        exact hHand _ _ (hBack.atHand atHand_empty) atHand_empty
      · exact ((hSame [] t).mpr ⟨rfl, rfl, hEmpty⟩).elim
    | leaf key value =>
      exact hHand _ _ (hBack.atHand (atHand_leaf key value)) (atHand_leaf key value)
    | branch left' right' =>
      have hLeft : left.SameKept left' := fun q t => hSame (false :: q) t
      have hRight : right.SameKept right' := fun q t => hSame (true :: q) t
      exact hBranch left right left' right' hLeft hRight (ihLeft hLeft) (ihRight hRight)

theorem AtHand.left {left right : Overlay K V} (hHand : (Overlay.branch left right).AtHand) :
    left.AtHand :=
  fun q t => hHand (false :: q) t

theorem AtHand.right {left right : Overlay K V} (hHand : (Overlay.branch left right).AtHand) :
    right.AtHand :=
  fun q t => hHand (true :: q) t

theorem sameKept_branch {left right left' right' : Overlay K V} (hLeft : left.SameKept left')
    (hRight : right.SameKept right') :
    (Overlay.branch left right).SameKept (.branch left' right') :=
  (hLeft.frame ⟨false, right⟩).trans (hRight.frame ⟨true, left'⟩)

/- There is nothing to load where nothing is kept. -/
theorem AtHand.kept_eq {t : Tree K V} (hHand : (.kept t : Overlay K V).AtHand) : t = .empty := by
  by_contra hSome
  exact hHand [] t ⟨rfl, rfl, hSome⟩

theorem AtHand.side_eq {o : Overlay K V} (hHand : o.AtHand) : side beside o = o := by
  cases o with
  | kept t =>
    rw [hHand.kept_eq]
    cases beside <;> rfl
  | leaf key value => cases beside <;> rfl
  | branch left right => cases beside <;> rfl

theorem AtHand.openPath_eq {o : Overlay K V} (hHand : o.AtHand) (d : Nat) :
    openPath bit key beside d o = o := by
  induction o generalizing d with
  | kept t =>
    rw [hHand.kept_eq]
    rfl
  | leaf key value => rfl
  | branch left right ihLeft ihRight =>
    unfold openPath
    rw [ihLeft hHand.left, ihRight hHand.right, hHand.left.side_eq, hHand.right.side_eq, ite_self]

theorem SameKept.refl (o : Overlay K V) : o.SameKept o := fun _ _ => Iff.rfl

theorem SameKept.side (hSame : o.SameKept o') : (side beside o).SameKept (side beside o') := by
  refine hSame.induction ?_ (fun t => .refl _) ?_
  · intro o o' hHand hHand'
    rw [hHand.side_eq, hHand'.side_eq]
    exact hHand.sameKept hHand'
  · intro left right left' right' hLeft hRight _ _
    cases beside <;> exact sameKept_branch hLeft hRight

/- Opening a path treats the kept subtrees alike. -/
theorem SameKept.openPath (hSame : o.SameKept o') (d : Nat) :
    (openPath bit key beside d o).SameKept (openPath bit key beside d o') := by
  revert d
  refine hSame.induction ?_ (fun t d => .refl _) ?_
  · intro o o' hHand hHand' d
    rw [hHand.openPath_eq, hHand'.openPath_eq]
    exact hHand.sameKept hHand'
  · intro left right left' right' hLeft hRight ihLeft ihRight d
    unfold Overlay.openPath
    split
    · exact sameKept_branch hLeft.side (ihRight _)
    · exact sameKept_branch (ihLeft _) hRight.side

end Overlay

end Trie
