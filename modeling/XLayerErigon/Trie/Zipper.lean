import XLayerErigon.Trie.Compressed

/-
  Walking a compressed trie along the bits of one key.

  `focus` descends until it meets an empty subtree or a leaf, and keeps the branches it passed as
  frames, deepest first.  `plug` puts a subtree back under the frames as they are; `collapse` puts
  it back and pulls a lone leaf up.

  Main results:
    * `focus_induction`
    * `plug_focus`
    * `plug_insertTip_focus`
    * `focus_of_mem`
    * `collapse_leaf`
-/

namespace Trie

variable {K V : Type}

/- Put a subtree back under the frames, deepest first. -/
def plug : List (Frame K V) → Tree K V → Tree K V
  | [], t => t
  | f :: up, t => plug up (f.plug t)

theorem plug_append (up up' : List (Frame K V)) (t : Tree K V) :
    plug (up ++ up') t = plug up' (plug up t) := by
  induction up generalizing t with
  | nil => rfl
  | cons f up ih => exact ih _

/- As `plug`, pulling a lone leaf up as far as it goes. -/
def collapse : List (Frame K V) → Tree K V → Tree K V
  | [], t => t
  | f :: up, t => collapse up (f.join t)

/-
  Descend along the bits of `key` to the first subtree that is not a branch.  The depth is the
  number of frames.
-/
def focus (bit : K → Nat → Bool) (key : K) :
    List (Frame K V) → Tree K V → List (Frame K V) × Tree K V
  | up, .empty => (up, .empty)
  | up, .leaf key' value => (up, .leaf key' value)
  | up, .branch left right =>
      if bit key up.length then
        focus bit key (⟨true, left⟩ :: up) right
      else
        focus bit key (⟨false, right⟩ :: up) left

variable {bit : K → Nat → Bool} {n d len : Nat} {m : K → Option V} {key key' : K} {value : V}
  {up : List (Frame K V)} {t : Tree K V}

-- The side of a branch that a bit chooses

theorem Tree.mem_side {b : Bool} {left right : Tree K V}
    (hMem : Tree.Mem key value (if b then right else left)) :
    Tree.Mem key value (.branch left right) := by
  cases b with
  | true => exact Or.inr hMem
  | false => exact Or.inl hMem

theorem Tree.height_side (b : Bool) (left right : Tree K V) :
    (if b then right else left).height < (Tree.branch left right).height := by
  rw [Tree.height]
  cases b <;> simp only [if_true, Bool.false_eq_true, if_false] <;> omega

/- Induction over a tree, for an argument that goes down on one side only. -/
theorem Tree.side_induction {motive : Tree K V → Prop} (t : Tree K V) (empty : motive .empty)
    (leaf : ∀ key value, motive (.leaf key value))
    (branch : ∀ left right, (∀ b : Bool, motive (if b then right else left)) →
      motive (.branch left right)) : motive t := by
  induction t with
  | empty => exact empty
  | leaf key value => exact leaf key value
  | branch left right ihLeft ihRight =>
    refine branch left right fun b => ?_
    cases b with
    | true => exact ihRight
    | false => exact ihLeft

theorem focus_branch (up : List (Frame K V)) (left right : Tree K V) :
    focus bit key up (.branch left right) =
      focus bit key (⟨bit key up.length, if bit key up.length then left else right⟩ :: up)
        (if bit key up.length then right else left) := by
  rw [focus]
  cases bit key up.length <;> rfl

/- What holds at the end of the descent if one step keeps it. -/
theorem focus_induction {motive : List (Frame K V) → Tree K V → Prop} (hStart : motive up t)
    (hStep : ∀ up f t, f.side = bit key up.length → motive up (f.plug t) → motive (f :: up) t) :
    motive (focus bit key up t).1 (focus bit key up t).2 := by
  induction t using Tree.side_induction generalizing up with
  | empty => exact hStart
  | leaf key' value => exact hStart
  | branch left right ih =>
    rw [focus_branch]
    refine ih _ (hStep up _ _ rfl ?_)
    cases bit key up.length <;> exact hStart

/- Descending does not change the tree. -/
theorem plug_focus (up : List (Frame K V)) (t : Tree K V) :
    plug (focus bit key up t).1 (focus bit key up t).2 = plug up t :=
  @focus_induction _ _ bit key up t (fun up' t' => plug up' t' = plug up t) rfl
    (fun _ _ _ _ hSame => hSame)

/- The descent stops only off a branch. -/
theorem focus_ne_branch (up : List (Frame K V)) (t left right : Tree K V) :
    (focus bit key up t).2 ≠ .branch left right := by
  induction t using Tree.side_induction generalizing up with
  | empty => simp [focus]
  | leaf key' value => simp [focus]
  | branch l r ih =>
    rw [focus_branch]
    exact ih _ _

/- Every frame took the side of the key's bit there. -/
def Follows (bit : K → Nat → Bool) (key : K) : List (Frame K V) → Prop
  | [] => True
  | f :: up =>
      f.side = bit key up.length ∧ Follows bit key up

def Tree.child : Tree K V → Bool → Tree K V
  | .branch left right, b => if b then right else left
  | .empty, _ => .empty
  | .leaf _ _, _ => .empty

/- The subtree of `t` where the path of `key` has depth `d`. -/
def Tree.subtreeAt (bit : K → Nat → Bool) (key : K) (t : Tree K V) : Nat → Tree K V
  | 0 => t
  | d + 1 => (Tree.subtreeAt bit key t d).child (bit key d)

/- Only the bits above matter. -/
theorem Follows.congr {key' : K} (hUp : Follows bit key up)
    (hAgree : ∀ i < up.length, bit key' i = bit key i) : Follows bit key' up := by
  induction up with
  | nil => trivial
  | cons f up ih =>
    refine ⟨?_, ih hUp.2 ?_⟩
    · rw [hUp.1, hAgree up.length (Nat.lt_succ_self _)]
    · intro i hi
      exact hAgree i (Nat.lt_succ_of_lt hi)

theorem Follows.focus (hUp : Follows bit key up) (t : Tree K V) :
    Follows bit key (Trie.focus bit key up t).1 :=
  @focus_induction _ _ bit key up t (fun up _ => Follows bit key up) hUp
    (fun _ _ _ hSide hUp => ⟨hSide, hUp⟩)

/- The descent adds at most one frame per level. -/
theorem length_focus_le (up : List (Frame K V)) (t : Tree K V) :
    (focus bit key up t).1.length ≤ up.length + t.height := by
  have hSum := @focus_induction _ _ bit key up t
    (fun up' t' => up'.length + t'.height ≤ up.length + t.height) (Nat.le_refl _) (by
      rintro up' ⟨_ | _, sibling⟩ t' _ hLe <;>
        simp only [Frame.plug_true, Frame.plug_false, Tree.height, List.length_cons] at hLe ⊢ <;>
        omega)
  omega

/- The two sides of a branch at depth `d`. -/
structure Halves (bit : K → Nat → Bool) (d : Nat) (left right : Tree K V) : Prop where
  left_bit : ∀ key value, Tree.Mem key value left → bit key d = false
  right_bit : ∀ key value, Tree.Mem key value right → bit key d = true
  left_proper : Tree.Proper bit (d + 1) left
  right_proper : Tree.Proper bit (d + 1) right

theorem Tree.Proper.halves {left right : Tree K V}
    (hProper : Tree.Proper bit d (.branch left right)) : Halves bit d left right :=
  ⟨hProper.2.1, hProper.2.2.1, hProper.2.2.2.1, hProper.2.2.2.2⟩

/- The keys of the tree agree with `key` on the first bits. -/
def Tree.AgreeWith (bit : K → Nat → Bool) (d : Nat) (key : K) (t : Tree K V) : Prop :=
  ∀ key' value, Tree.Mem key' value t → ∀ i < d, bit key' i = bit key i

/- A proper tree at depth `d` on the path of a key. -/
structure OnPath (bit : K → Nat → Bool) (key : K) (d : Nat) (t : Tree K V) : Prop where
  proper : Tree.Proper bit d t
  agree : t.AgreeWith bit d key

theorem Tree.Proper.onPath (hProper : Tree.Proper bit 0 t) : OnPath bit key 0 t :=
  ⟨hProper, fun _ _ _ i hi => absurd hi (Nat.not_lt_zero i)⟩

theorem Halves.side {left right : Tree K V} (hHalves : Halves bit d left right) (b : Bool) :
    Tree.Proper bit (d + 1) (if b then right else left) ∧
      ∀ key value, Tree.Mem key value (if b then right else left) → bit key d = b := by
  cases b with
  | true => exact ⟨hHalves.right_proper, hHalves.right_bit⟩
  | false => exact ⟨hHalves.left_proper, hHalves.left_bit⟩

/- One level further down on the side of the key. -/
theorem Halves.onPath {left right : Tree K V} (hHalves : Halves bit d left right)
    (hAgree : (Tree.branch left right).AgreeWith bit d key) :
    OnPath bit key (d + 1) (if bit key d then right else left) := by
  rcases hHalves.side (bit key d) with ⟨hProper, hBit⟩
  refine ⟨hProper, ?_⟩
  intro key' value hMem i hi
  rcases Nat.lt_succ_iff_lt_or_eq.mp hi with hLt | rfl
  · exact hAgree key' value (Tree.mem_side hMem) i hLt
  · exact hBit key' value hMem

theorem OnPath.of_plug {f : Frame K V} (hSide : f.side = bit key d)
    (hOn : OnPath bit key d (f.plug t)) : OnPath bit key (d + 1) t := by
  rcases f with ⟨_ | _, sibling⟩
  all_goals
    have hNext := Halves.onPath (Tree.Proper.halves hOn.proper) hOn.agree
    rwa [← hSide] at hNext

/-
  In a proper tree every leaf met at the end of the descent agrees with the key on all bits read
  so far.
-/
theorem OnPath.focus (hOn : OnPath bit key up.length t) :
    OnPath bit key (Trie.focus bit key up t).1.length (Trie.focus bit key up t).2 :=
  @focus_induction _ _ bit key up t (fun up t => OnPath bit key up.length t) hOn
    (fun _ _ _ hSide hOn => hOn.of_plug hSide)

/- Opening a proper tree along a key leaves a proper subtree on its path. -/
theorem onPath_of_plug (hProper : Tree.Proper bit 0 (plug up t)) (hFollows : Follows bit key up) :
    OnPath bit key up.length t := by
  induction up generalizing t with
  | nil => exact hProper.onPath
  | cons f up ih => exact (ih hProper hFollows.2).of_plug hFollows.1

/- The keys beside the path leave it at their branch. -/
theorem sibling_agree {f : Frame K V} {key₀ : K} {value₀ : V}
    (hProper : Tree.Proper bit 0 (plug (f :: up) t)) (hFollows : Follows bit key (f :: up))
    (hMem : Tree.Mem key₀ value₀ f.sibling) :
    (∀ i < up.length, bit key₀ i = bit key i) ∧ bit key₀ up.length = !f.side := by
  have hUp : Tree.Mem key₀ value₀ (f.plug t) :=
    (Frame.mem_plug_iff f t key₀ value₀).mpr (Or.inl hMem)
  have hOn := @onPath_of_plug _ _ _ _ up (f.plug t) hProper hFollows.2
  refine ⟨hOn.agree key₀ value₀ hUp, ?_⟩
  obtain ⟨side, sibling⟩ := f
  cases side with
  | false => exact hOn.proper.halves.right_bit key₀ value₀ hMem
  | true => exact hOn.proper.halves.left_bit key₀ value₀ hMem

/- The last branch passed cannot be collapsed around `t`. -/
def Tight (t : Tree K V) : List (Frame K V) → Prop
  | [] => True
  | f :: _ => f.join t = f.plug t

theorem Tight.focus (hTight : Tight t up) (hProper : Tree.Proper bit up.length t) :
    Tight (Trie.focus bit key up t).2 (Trie.focus bit key up t).1 := by
  refine (@focus_induction _ _ bit key up t
    (fun up t => Tight t up ∧ Tree.Proper bit up.length t) ⟨hTight, hProper⟩ ?_).1
  rintro up ⟨_ | _, sibling⟩ t _ ⟨_, hProper⟩
  · exact ⟨hProper.1, hProper.halves.left_proper⟩
  · exact ⟨hProper.1, hProper.halves.right_proper⟩

/- Above a leaf, a tight last branch has another side. -/
theorem Tight.sibling_ne_empty {f : Frame K V} (hTight : Tight (.leaf key value) (f :: up)) :
    f.sibling ≠ .empty := by
  intro hEmpty
  obtain ⟨side, sibling⟩ := f
  cases side <;> simp_all [Tight]

/- The descent enters a frame on the side of the key's bit. -/
theorem focus_plug (up : List (Frame K V)) (sibling t : Tree K V) :
    focus bit key up (Frame.plug ⟨bit key up.length, sibling⟩ t) =
      focus bit key (⟨bit key up.length, sibling⟩ :: up) t := by
  cases hBit : bit key up.length <;> simp [focus, hBit]

-- Insertion

/- What an insertion leaves at the end of the descent. -/
def insertTip [DecidableEq K] (bit : K → Nat → Bool) (len : Nat) (key : K) (value : V)
    (d : Nat) : Tree K V → Tree K V
  | .empty => .leaf key value
  | .leaf key' value' =>
      if key' = key then
        .leaf key value
      else
        fork bit key value key' value' (len - d) d
  | .branch left right => .branch left right

/- Frames with nothing beside the path, deepest first. -/
def spine (bits : List Bool) : List (Frame K V) := bits.map (fun b => ⟨b, .empty⟩)

/-
  A fork is a spine down to the first bit where the keys differ, with one leaf on each side below
  it.
-/
theorem fork_eq_plug {value' : V} {j : Nat} (hSame : ∀ i < j, bit key (d + i) = bit key' (d + i))
    (hDiff : bit key (d + j) ≠ bit key' (d + j)) (hFuel : j < n) :
    fork bit key value key' value' n d =
      plug (spine ((List.range j).map (fun i => bit key (d + i))).reverse)
        (Frame.plug ⟨bit key (d + j), .leaf key' value'⟩ (.leaf key value)) := by
  induction j generalizing n d with
  | zero =>
    cases n with
    | zero => contradiction
    | succ n =>
      rw [Nat.add_zero] at hDiff
      rw [fork, if_neg hDiff, Nat.add_zero]
      cases hBit : bit key d <;> rfl
  | succ j ih =>
    cases n with
    | zero => contradiction
    | succ n =>
      have hHead : bit key d = bit key' d := hSame 0 (Nat.succ_pos j)
      have hShift (i : Nat) : d + (i + 1) = d + 1 + i := by omega
      have hStep : fork bit key value key' value' (n + 1) d =
            Frame.plug ⟨bit key d, .empty⟩ (fork bit key value key' value' n (d + 1)) := by
        rw [fork, if_pos hHead]
        cases hBit : bit key d <;> rfl
      have hBits : (fun i => bit key (d + i)) ∘ Nat.succ = fun i => bit key (d + 1 + i) :=
        funext fun i => congrArg (bit key) (hShift i)
      rw [hShift] at hDiff ⊢
      rw [hStep, ih (fun i hi => hShift i ▸ hSame (i + 1) (Nat.succ_lt_succ hi)) hDiff
        (Nat.lt_of_succ_lt_succ hFuel), List.range_succ_eq_map, List.map_cons, List.map_map, hBits,
        List.reverse_cons, spine, spine, List.map_append, plug_append, Nat.add_zero]
      rfl

/- The keys of the map agree with `key` on the first bits. -/
def AgreeWith (bit : K → Nat → Bool) (d : Nat) (key : K) (m : K → Option V) : Prop :=
  ∀ key', m key' ≠ none → ∀ i < d, bit key' i = bit key i

theorem AgreeWith.agreeBelow (hWith : AgreeWith bit d key m) : AgreeBelow bit d m := by
  intro key₁ key₂ hKey₁ hKey₂ i hi
  rw [hWith key₁ hKey₁ i hi, hWith key₂ hKey₂ i hi]

theorem AgreeWith.update [DecidableEq K] (hWith : AgreeWith bit d key m) (o : Option V) :
    AgreeWith bit d key (Function.update m key o) := by
  intro key' hKey' i hi
  by_cases hEq : key' = key
  · rw [hEq]
  · rw [Function.update_of_ne hEq] at hKey'
    exact hWith key' hKey' i hi

theorem AgreeWith.restrict (hWith : AgreeWith bit d key m) :
    AgreeWith bit (d + 1) key (Trie.restrict bit d (bit key d) m) := by
  intro key' hKey' i hi
  rcases Option.ne_none_iff_exists'.mp hKey' with ⟨value', hValue'⟩
  rw [restrict_eq_some_iff] at hValue'
  rcases Nat.lt_succ_iff_lt_or_eq.mp hi with hLt | hEq
  · exact hWith key' (by simp [hValue'.2]) i hLt
  · rw [hEq, hValue'.1]

/- Updating a map updates the half that holds the key. -/
theorem restrict_update_same [DecidableEq K] (o : Option V) :
    restrict bit d (bit key d) (Function.update m key o) =
      Function.update (restrict bit d (bit key d) m) key o := by
  funext key'
  by_cases hEq : key' = key
  · subst hEq
    simp [restrict]
  · simp [restrict, Function.update_of_ne hEq]

theorem restrict_update_other [DecidableEq K] {b : Bool} (o : Option V) (hBit : bit key d ≠ b) :
    restrict bit d b (Function.update m key o) = restrict bit d b m := by
  funext key'
  by_cases hEq : key' = key
  · subst hEq
    simp [restrict, hBit]
  · simp [restrict, Function.update_of_ne hEq]

/- Setting a key keeps the keys of the map. -/
theorem exists_update_some [DecidableEq K] (key : K) (value : V) {key₀ : K} {value₀ : V}
    (hKey : m key₀ = some value₀) :
    ∃ value', Function.update m key (some value) key₀ = some value' := by
  rw [Function.update_apply]
  split_ifs
  · exact ⟨value, rfl⟩
  · exact ⟨value₀, hKey⟩

/- When all bits are read, only the key itself can be there. -/
theorem AgreeWith.only (hWith : AgreeWith bit len key m) (hSep : Separates bit len) :
    ∀ key', key' ≠ key → m key' = none := by
  intro key' hNe
  by_contra hSome
  exact hNe (hSep key' key (hWith key' hSome))

theorem single_update [DecidableEq K] (value : V) (hOnly : ∀ key', key' ≠ key → m key' = none) :
    Single (Function.update m key (some value)) key value := by
  refine ⟨by simp, ?_⟩
  intro key' hNe
  rw [Function.update_of_ne hNe]
  exact hOnly key' hNe

theorem update_none_empty [DecidableEq K] (hOnly : ∀ key', key' ≠ key → m key' = none) :
    ∀ key', Function.update m key none key' = none := by
  intro key'
  rw [Function.update_apply]
  split_ifs with hEq
  · rfl
  · exact hOnly key' hEq

/- The insertion into a map that has at most the key. -/
theorem plug_insertTip_only [DecidableEq K] (hOnly : ∀ key', key' ≠ key → m key' = none) :
    plug (focus bit key up (compressed bit n up.length m)).1
        (insertTip bit len key value (focus bit key up (compressed bit n up.length m)).1.length
          (focus bit key up (compressed bit n up.length m)).2) =
      plug up (compressed bit n up.length (Function.update m key (some value))) := by
  rw [compressed_of_single (single_update value hOnly)]
  cases hKey : m key with
  | none =>
    have hEmpty : ∀ key', m key' = none := by
      intro key'
      by_cases hEq : key' = key
      · rw [hEq, hKey]
      · exact hOnly key' hEq
    rw [compressed_of_empty hEmpty]
    rfl
  | some value₀ =>
    rw [compressed_of_single ⟨hKey, hOnly⟩]
    simp [focus, insertTip]

/- Replacing the end of the descent by `insertTip` gives the compressed trie of the updated map. -/
theorem plug_insertTip_focus [DecidableEq K] (hSep : Separates bit len)
    (hDepth : n + up.length = len) (hWith : AgreeWith bit up.length key m) :
    plug (focus bit key up (compressed bit n up.length m)).1
        (insertTip bit len key value (focus bit key up (compressed bit n up.length m)).1.length
          (focus bit key up (compressed bit n up.length m)).2) =
      plug up (compressed bit n up.length (Function.update m key (some value))) := by
  induction n generalizing up m with
  | zero =>
    obtain rfl : up.length = len := by omega
    exact plug_insertTip_only (hWith.only hSep)
  | succ n ih =>
    rcases empty_or_single_or_two m with
      hEmpty | ⟨key₀, value₀, hSingle⟩ | ⟨key₁, value₁, key₂, value₂, hKey₁, hKey₂, hNe⟩
    · exact plug_insertTip_only fun key' _ => hEmpty key'
    · by_cases hEq : key₀ = key
      · subst hEq
        exact plug_insertTip_only hSingle.2
      · have hPair :
            compressed bit (n + 1) up.length (Function.update m key (some value)) =
              fork bit key value key₀ value₀ (n + 1) up.length := by
          apply compressed_of_pair hSep hDepth (hWith.update (some value)).agreeBelow
          · simp
          · rw [Function.update_of_ne hEq]
            exact hSingle.1
          · exact Ne.symm hEq
          · intro key' hNe hNe'
            rw [Function.update_of_ne hNe]
            exact hSingle.2 key' hNe'
        rw [compressed_of_single hSingle, hPair]
        have hFuel : len - up.length = n + 1 := by omega
        simp [focus, insertTip, hEq, hFuel]
    · -- The updated map keeps two keys, so both tries are
      -- a branch and only the half of `key` changes.
      obtain ⟨valueA, hA⟩ := exists_update_some key value hKey₁
      obtain ⟨valueB, hB⟩ := exists_update_some key value hKey₂
      rw [compressed_of_two_plug (bit key up.length) hKey₁ hKey₂ hNe,
          compressed_of_two_plug (bit key up.length) hA hB hNe, restrict_update_same,
          restrict_update_other (some value) (by simp), focus_plug]
      exact @ih _ (_ :: up) (by simp only [List.length_cons]; omega) hWith.restrict

-- Deletion

/-
  An entry of the map is found at the end of its descent.  Emptying the end and collapsing gives
  the compressed trie of the map without the key.
-/
theorem focus_of_mem [DecidableEq K] (hSep : Separates bit len) (hDepth : n + up.length = len)
    (hWith : AgreeWith bit up.length key m) (hKey : m key = some value) :
    (focus bit key up (compressed bit n up.length m)).2 = .leaf key value ∧
      collapse (focus bit key up (compressed bit n up.length m)).1 .empty =
        collapse up (compressed bit n up.length (Function.update m key none)) := by
  have hAlone {n : Nat} {up : List (Frame K V)} {m : K → Option V} (hSingle : Single m key value) :
      (focus bit key up (compressed bit n up.length m)).2 = .leaf key value ∧
        collapse (focus bit key up (compressed bit n up.length m)).1 .empty =
          collapse up (compressed bit n up.length (Function.update m key none)) := by
    rw [compressed_of_single hSingle, compressed_of_empty (update_none_empty hSingle.2)]
    exact ⟨rfl, rfl⟩
  induction n generalizing up m with
  | zero =>
    obtain rfl : up.length = len := by omega
    exact hAlone ⟨hKey, hWith.only hSep⟩
  | succ n ih =>
    rcases empty_or_single_or_two m with
      hEmpty | ⟨key₀, value₀, hSingle⟩ | ⟨key₁, value₁, key₂, value₂, hKey₁, hKey₂, hNe⟩
    · cases (hEmpty key).symm.trans hKey
    · obtain ⟨rfl, rfl⟩ := hSingle.key_eq hKey
      exact hAlone hSingle
    · rw [compressed_of_two_plug (bit key up.length) hKey₁ hKey₂ hNe,
          compressed_succ_join hSep (bit key up.length) hDepth (hWith.update none).agreeBelow,
          restrict_update_same, restrict_update_other none (by simp), focus_plug]
      apply @ih _ (_ :: up) (by simp only [List.length_cons]; omega) hWith.restrict
      rw [restrict, if_pos rfl, hKey]

/- A branch is never pulled up. -/
theorem collapse_branch (up : List (Frame K V)) (left right : Tree K V) :
    collapse up (.branch left right) = plug up (.branch left right) := by
  induction up generalizing left right with
  | nil => rfl
  | cons f up ih =>
    obtain ⟨side, sibling⟩ := f
    cases side <;> simp [collapse, plug, ih]

def Tree.isEmpty : Tree K V → Bool
  | .empty => true
  | _ => false

theorem Tree.isEmpty_iff : t.isEmpty = true ↔ t = .empty := by
  cases t <;> simp [Tree.isEmpty]

/- A lone leaf is pulled up through the frames whose other side is empty. -/
theorem collapse_leaf (up : List (Frame K V)) (key : K) (value : V) :
    collapse up (.leaf key value) = plug (up.dropWhile (·.sibling.isEmpty)) (.leaf key value) := by
  induction up with
  | nil => rfl
  | cons f up ih =>
    obtain ⟨side, sibling⟩ := f
    cases sibling with
    | empty =>
      cases side <;> simp [collapse, Tree.isEmpty, ih]
    | leaf key' value' =>
      cases side <;> simp [collapse, plug, Tree.isEmpty, collapse_branch]
    | branch left right =>
      cases side <;> simp [collapse, plug, Tree.isEmpty, collapse_branch]

end Trie
