import XLayerErigon.Trie.Merkle

/-
  Adding keys to a trie in ascending order.

  A key that comes after all keys of a trie meets nothing on the right of its path, so the left
  part of a branch whose right part is not empty has reached its final form.

  Main results:
    * `Halves.right_eq_empty`
    * `plug_insertTip_halved`
    * `Scheme.doneNodes_plug`
-/

namespace Trie

variable {K V N H : Type} {bit : K → Nat → Bool} {n d len : Nat} {m : K → Option V} {key key' : K}
  {value : V} {t left right : Tree K V}

-- The Order of the Keys

/- The first key has the smaller bit where they differ. -/
def Before (bit : K → Nat → Bool) (key key' : K) : Prop :=
  ∃ i, (∀ j < i, bit key j = bit key' j) ∧ bit key i = false ∧ bit key' i = true

theorem Before.ne (hBefore : Before bit key key') : key ≠ key' := by
  rcases hBefore with ⟨i, _, hFalse, hTrue⟩
  rintro rfl
  rw [hFalse] at hTrue
  cases hTrue

theorem Before.trans {key'' : K} (hFirst : Before bit key key') (hSecond : Before bit key' key'') :
    Before bit key key'' := by
  rcases hFirst with ⟨i, hSame, hFalse, hTrue⟩
  rcases hSecond with ⟨i', hSame', hFalse', hTrue'⟩
  rcases Nat.lt_trichotomy i i' with hLt | rfl | hGt
  · refine ⟨i, fun j hj => ?_, hFalse, ?_⟩
    · rw [hSame j hj, hSame' j (by omega)]
    · rw [← hSame' i hLt, hTrue]
  · rw [hTrue] at hFalse'
    cases hFalse'
  · refine ⟨i', fun j hj => ?_, ?_, hTrue'⟩
    · rw [hSame j (by omega), hSame' j hj]
    · rw [hSame i' hGt, hFalse']

/- A later key does not turn left where an earlier turned right. -/
theorem Before.bit_eq_true (hBefore : Before bit key key')
    (hAgree : ∀ i < d, bit key i = bit key' i) (hBit : bit key d = true) : bit key' d = true := by
  rcases hBefore with ⟨i, hSame, hFalse, hTrue⟩
  rcases Nat.lt_trichotomy i d with hLt | rfl | hGt
  · rw [hAgree i hLt, hTrue] at hFalse
    cases hFalse
  · exact hTrue
  · rw [← hSame d hGt, hBit]

def AllBefore (bit : K → Nat → Bool) (key : K) (t : Tree K V) : Prop :=
  ∀ key' value, Tree.Mem key' value t → Before bit key' key

-- The Two Halves of a Branch

theorem Tree.leaf_ne_empty (key : K) (value : V) : Tree.leaf key value ≠ .empty := by
  intro hEq
  cases hEq

theorem Tree.branch_ne_empty (left right : Tree K V) : Tree.branch left right ≠ .empty := by
  intro hEq
  cases hEq

/- A branch of a proper trie has something below it. -/
theorem Tree.Proper.ne_empty (hProper : Tree.Proper bit d (.branch left right)) :
    left ≠ .empty ∨ right ≠ .empty := by
  by_contra hBoth
  rw [not_or, not_not, not_not] at hBoth
  have hJoin := hProper.1
  rw [hBoth.1, hBoth.2] at hJoin
  cases hJoin

theorem Tree.Proper.exists_mem (hProper : Tree.Proper bit d t) (hSome : t ≠ .empty) :
    ∃ key value, Tree.Mem key value t := by
  induction t generalizing d with
  | empty => exact absurd rfl hSome
  | leaf key value => exact ⟨key, value, rfl, rfl⟩
  | branch left right ihLeft ihRight =>
    rcases hProper.ne_empty with hLeft | hRight
    · rcases ihLeft hProper.halves.left_proper hLeft with ⟨key, value, hMem⟩
      exact ⟨key, value, Or.inl hMem⟩
    · rcases ihRight hProper.halves.right_proper hRight with ⟨key, value, hMem⟩
      exact ⟨key, value, Or.inr hMem⟩

/- Nothing is on the right of a later key that goes left. -/
theorem Halves.right_eq_empty (hHalves : Halves bit d left right)
    (hAfter : AllBefore bit key (.branch left right))
    (hAgree : (Tree.branch left right).AgreeWith bit d key) (hBit : bit key d = false) :
    right = .empty := by
  by_contra hSome
  rcases hHalves.right_proper.exists_mem hSome with ⟨key', value, hMem⟩
  have hTrue := (hAfter key' value (Or.inr hMem)).bit_eq_true (hAgree key' value (Or.inr hMem))
      (hHalves.right_bit key' value hMem)
  rw [hBit] at hTrue
  cases hTrue

/- The trie of a map with a branch at its top in any case, even when the map has only one key. -/
noncomputable def halved (bit : K → Nat → Bool) (n : Nat) (m : K → Option V) : Tree K V :=
  .branch (compressed bit n 1 (restrict bit 0 false m)) (compressed bit n 1 (restrict bit 0 true m))

theorem agreeBelow_zero (bit : K → Nat → Bool) (m : K → Option V) : AgreeBelow bit 0 m :=
  fun _ _ _ _ i hi => absurd hi (Nat.not_lt_zero i)

/- Two keys make the branch at the top the real one. -/
theorem compressed_eq_halved {value' : V} (hKey : m key = some value) (hKey' : m key' = some value')
    (hNe : key ≠ key') : compressed bit (n + 1) 0 m = halved bit n m :=
  compressed_of_two hKey hKey' hNe

/- The descent starts on the side of the first bit. -/
theorem focus_halved (bit : K → Nat → Bool) (n : Nat) (m : K → Option V) (key : K) :
    focus bit key [] (halved bit n m) =
      focus bit key [⟨bit key 0, compressed bit n 1 (restrict bit 0 (!bit key 0) m)⟩]
        (compressed bit n 1 (restrict bit 0 (bit key 0) m)) := by
  rw [halved, focus, List.length_nil]
  cases bit key 0 <;> rfl

variable (hSep : Separates bit len) (hDepth : n + 1 = len)

include hSep hDepth

theorem mem_side_iff {b : Bool} :
    Tree.Mem key value (compressed bit n 1 (restrict bit 0 b m)) ↔
      bit key 0 = b ∧ m key = some value := by
  rw [mem_compressed_iff hSep hDepth ((agreeBelow_zero bit m).restrict b), restrict_eq_some_iff]

theorem halves_halved (m : K → Option V) :
    Halves bit 0 (compressed bit n 1 (restrict bit 0 false m))
      (compressed bit n 1 (restrict bit 0 true m)) := by
  have hSide : ∀ b key value,
        Tree.Mem key value (compressed bit n 1 (restrict bit 0 b m)) → bit key 0 = b := by
    intro b key value hMem
    rw [mem_side_iff hSep hDepth] at hMem
    exact hMem.1
  have hProper : ∀ b, Tree.Proper bit 1 (compressed bit n 1 (restrict bit 0 b m)) :=
    fun b => compressed_proper hSep hDepth ((agreeBelow_zero bit m).restrict b)
  exact ⟨hSide false, hSide true, hProper false, hProper true⟩

theorem mem_halved_iff : Tree.Mem key value (halved bit n m) ↔ m key = some value := by
  rw [halved, Tree.Mem, mem_side_iff hSep hDepth, mem_side_iff hSep hDepth]
  cases bit key 0 <;> simp

/- Inserting below the branch at the top. -/
theorem plug_insertTip_halved [DecidableEq K] :
    plug (focus bit key [] (halved bit n m)).1
        (insertTip bit len key value
          (focus bit key [] (halved bit n m)).1.length (focus bit key [] (halved bit n m)).2) =
      halved bit n (Function.update m key (some value)) := by
  have hWith : AgreeWith bit 0 key m := fun _ _ i hi => absurd hi (Nat.not_lt_zero i)
  have hSide := @plug_insertTip_focus K V bit n len (restrict bit 0 (bit key 0) m) key value
      [⟨bit key 0, compressed bit n 1 (restrict bit 0 (!bit key 0) m)⟩] _ hSep hDepth hWith.restrict
  have hOther := @restrict_update_other K V bit 0 m key _ (!bit key 0) (some value) (by simp)
  rw [focus_halved]
  refine hSide.trans ?_
  rw [← restrict_update_same, ← hOther, halved]
  cases bit key 0 <;> rfl

omit hSep hDepth

-- Finished Parts

namespace Scheme

variable {S : Scheme K V N H}

/- The nodes on the left of a branch whose right is not empty: later keys do not change them. -/
def doneNodes (S : Scheme K V N H) : Nat → Tree K V → Set N
  | _, .empty => ∅
  | _, .leaf _ _ => ∅
  | d, .branch left right =>
      if right.isEmpty then S.doneNodes (d + 1) left
      else S.nodes (d + 1) left ∪ S.doneNodes (d + 1) right

theorem doneNodes_right (d : Nat) (left : Tree K V) (hRight : right ≠ .empty) :
    S.doneNodes d (.branch left right) = S.nodes (d + 1) left ∪ S.doneNodes (d + 1) right := by
  rw [doneNodes, if_neg (fun h => hRight (Tree.isEmpty_iff.mp h))]

theorem doneNodes_left (d : Nat) (left : Tree K V) :
    S.doneNodes d (.branch left .empty) = S.doneNodes (d + 1) left := by
  rw [doneNodes, if_pos (by rfl)]

theorem doneNodes_subset (d : Nat) (t : Tree K V) : S.doneNodes d t ⊆ S.nodes d t := by
  induction t generalizing d with
  | empty => exact Set.empty_subset _
  | leaf key value => exact Set.empty_subset _
  | branch left right ihLeft ihRight =>
    intro n hn
    by_cases hRight : right = .empty
    · rw [hRight, doneNodes_left] at hn
      exact Or.inr (Or.inl (ihLeft _ hn))
    · rw [doneNodes_right d left hRight] at hn
      rcases hn with hn | hn
      · exact Or.inr (Or.inl hn)
      · exact Or.inr (Or.inr (ihRight _ hn))

theorem doneNodes_subset_left (d : Nat) (left right : Tree K V) :
    S.doneNodes (d + 1) left ⊆ S.doneNodes d (.branch left right) := by
  by_cases hRight : right = .empty
  · rw [hRight, doneNodes_left]
  · rw [doneNodes_right d left hRight]
    exact (doneNodes_subset (d + 1) left).trans Set.subset_union_left

theorem doneNodes_subset_right (d : Nat) (left right : Tree K V) :
    S.doneNodes (d + 1) right ⊆ S.doneNodes d (.branch left right) := by
  by_cases hRight : right = .empty
  · rw [hRight]
    exact Set.empty_subset _
  · rw [doneNodes_right d left hRight]
    exact Set.subset_union_right

theorem doneNodes_subset_side (d : Nat) (left right : Tree K V) (b : Bool) :
    S.doneNodes (d + 1) (if b then right else left) ⊆ S.doneNodes d (.branch left right) := by
  cases b with
  | true => exact doneNodes_subset_right d left right
  | false => exact doneNodes_subset_left d left right

theorem Frame.plug_ne_empty (f : Frame K V) (t : Tree K V) : f.plug t ≠ .empty := by
  rcases f with ⟨_ | _, sibling⟩ <;> exact Tree.branch_ne_empty _ _

/- Every frame that turns left has nothing on its right. -/
def RightFree (up : List (Frame K V)) : Prop := ∀ f ∈ up, f.side = false → f.sibling = .empty

/- One level up, more stays finished when the hole is filled. -/
theorem doneNodes_frame {t' : Tree K V} {f : Frame K V}
    (hFree : f.side = false → f.sibling = .empty)
    (hSub : S.doneNodes (d + 1) t ⊆ S.doneNodes (d + 1) t') (hSome : t' ≠ .empty) :
    S.doneNodes d (f.plug t) ⊆ S.doneNodes d (f.plug t') := by
  rcases f with ⟨_ | _, sibling⟩
  · have hNone : sibling = .empty := hFree rfl
    rw [hNone]
    change S.doneNodes d (.branch t .empty) ⊆ S.doneNodes d (.branch t' .empty)
    rw [doneNodes_left, doneNodes_left]
    exact hSub
  · change S.doneNodes d (.branch sibling t) ⊆ S.doneNodes d (.branch sibling t')
    rw [doneNodes_right d sibling hSome]
    by_cases hHole : t = .empty
    · rw [hHole, doneNodes_left]
      exact (doneNodes_subset (d + 1) sibling).trans Set.subset_union_left
    · rw [doneNodes_right d sibling hHole]
      exact Set.union_subset_union_right _ hSub

/- Filling the end of the path of a later key. -/
theorem doneNodes_plug {t' : Tree K V} (up : List (Frame K V)) (hFree : RightFree up)
    (hSub : S.doneNodes up.length t ⊆ S.doneNodes up.length t') (hSome : t' ≠ .empty) :
    S.doneNodes 0 (plug up t) ⊆ S.doneNodes 0 (plug up t') := by
  induction up generalizing t t' with
  | nil => exact hSub
  | cons f up ih =>
    apply ih
    · exact fun f' hf' => hFree f' (List.mem_cons_of_mem _ hf')
    · exact doneNodes_frame (hFree f List.mem_cons_self) hSub hSome
    · exact Frame.plug_ne_empty f t'

/- A later key turns left only where nothing is on the right. -/
theorem RightFree.focus {up : List (Frame K V)} (hFree : RightFree up)
    (hOn : OnPath bit key up.length t) (hAfter : AllBefore bit key t) :
    RightFree (Trie.focus bit key up t).1 := by
  refine (@focus_induction _ _ bit key up t
    (fun up t => RightFree up ∧ OnPath bit key up.length t ∧ AllBefore bit key t)
    ⟨hFree, hOn, hAfter⟩ ?_).1
  rintro up f t hTaken ⟨hFree, hOn, hAfter⟩
  refine ⟨List.forall_mem_cons.mpr ⟨?_, hFree⟩, hOn.of_plug hTaken, fun key' value hMem =>
    hAfter key' value ((Frame.mem_plug_iff f t key' value).mpr (Or.inr hMem))⟩
  rcases f with ⟨side, sibling⟩
  rintro rfl
  exact hOn.proper.halves.right_eq_empty hAfter hOn.agree hTaken.symm

include hSep hDepth

theorem onPath_halved_side (m : K → Option V) (key : K) :
    OnPath bit key 1 (compressed bit n 1 (restrict bit 0 (bit key 0) m)) where
  proper := compressed_proper hSep hDepth ((agreeBelow_zero bit m).restrict _)
  agree := by
    intro key' value' hMem i hi
    rw [mem_side_iff hSep hDepth] at hMem
    rw [Nat.lt_one_iff.mp hi, hMem.1]

theorem rightFree_focus_halved
    (hAfter : ∀ key' value', m key' = some value' → Before bit key' key) :
    RightFree (Trie.focus bit key [] (halved bit n m)).1 := by
  have hAll : AllBefore bit key (halved bit n m) :=
    fun key' value' hMem => hAfter key' value' ((mem_halved_iff hSep hDepth).mp hMem)
  rw [focus_halved]
  refine RightFree.focus ?_ (onPath_halved_side hSep hDepth m key) ?_
  · intro f hMem hLeft
    rw [List.mem_singleton] at hMem
    subst hMem
    have hBit : bit key 0 = false := hLeft
    rw [hBit]
    exact
      (halves_halved hSep hDepth m).right_eq_empty hAll
        (fun _ _ _ i hi => absurd hi (Nat.not_lt_zero i)) hBit
  · intro key' value' hMem
    rw [mem_side_iff hSep hDepth] at hMem
    exact hAfter key' value' hMem.2

/- Something is put at the end of the path of a new key. -/
theorem insertTip_focus_halved_ne_empty [DecidableEq K] :
    insertTip bit len key value (Trie.focus bit key [] (halved bit n m)).1.length
        (Trie.focus bit key [] (halved bit n m)).2 ≠
      .empty := by
  have hAgree := (@OnPath.focus K V bit key
    [⟨bit key 0, compressed bit n 1 (restrict bit 0 (!bit key 0) m)⟩] _
    (onPath_halved_side hSep hDepth m key)).agree
  rcases hFocus : Trie.focus bit key [] (halved bit n m) with ⟨up, tip⟩
  rw [focus_halved] at hFocus
  rw [show Trie.focus bit key _ _ = (up, tip) from hFocus] at hAgree
  cases tip with
  | empty => exact Tree.leaf_ne_empty _ _
  | branch left right => exact Tree.branch_ne_empty _ _
  | leaf key' value' =>
    dsimp only at hAgree ⊢
    rw [insertTip]
    split_ifs with hEq
    · exact Tree.leaf_ne_empty _ _
    · have hLt : up.length < len := by
        by_contra hGe
        refine hEq (hSep key' key ?_)
        intro i hi
        exact hAgree key' value' ⟨rfl, rfl⟩ i (by omega)
      rw [show len - up.length = (len - up.length - 1) + 1 by omega, fork]
      split_ifs <;> exact Tree.branch_ne_empty _ _

/- What is finished stays finished when a later key is added. -/
theorem doneNodes_halved_update [DecidableEq K]
    (hAfter : ∀ key' value', m key' = some value' → Before bit key' key) :
    S.doneNodes 0 (halved bit n m) ⊆
      S.doneNodes 0 (halved bit n (Function.update m key (some value))) := by
  have hPlug :
      plug (Trie.focus bit key [] (halved bit n m)).1 (Trie.focus bit key [] (halved bit n m)).2 =
        halved bit n m :=
    plug_focus [] _
  have hBranch := @focus_ne_branch K V bit key [] (halved bit n m)
  have hFree := rightFree_focus_halved hSep hDepth hAfter
  have hFull := @insertTip_focus_halved_ne_empty K V bit n len m key value hSep hDepth _
  rw [← @plug_insertTip_halved K V bit n len m key value hSep hDepth _]
  rcases hFocus : Trie.focus bit key [] (halved bit n m) with ⟨up, tip⟩
  rw [hFocus] at hPlug hBranch hFree hFull
  dsimp only at hPlug hBranch hFree hFull ⊢
  rw [← hPlug]
  refine doneNodes_plug up hFree ?_ hFull
  cases tip with
  | empty => exact Set.empty_subset _
  | leaf key' value' => exact Set.empty_subset _
  | branch left right => exact absurd rfl (hBranch left right)

end Scheme

end Trie
