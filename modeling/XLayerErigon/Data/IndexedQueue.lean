import Mathlib.Data.List.Sort
import Mathlib.Logic.Function.Basic

/-
  Queues whose items know their position.

  Every item carries the index of its place in the list, and items move by swaps that write the
  two indices they touch. The heap operations are those of a binary heap over such a list: sifting
  up and down, and from them inserting, taking the top, removing at a position and restoring the
  heap.

  Nothing is said about the heap order.  What is shown is that the operations only rearrange: the
  items stay the same and the indices stay the positions.

  Main results:
    * `heapPush_spec`
    * `heapPop_spec`
    * `heapRemove_spec`
    * `removeAt_spec`
    * `sortBy_spec`
-/

namespace IndexedQueue

-- Queues and Their Operations

structure Queue (α : Type) where
  items : List α
  index : α → Int

variable {α : Type} [DecidableEq α]

namespace Queue

/- Every item stands once, at the position it knows. -/
structure Placed (q : Queue α) : Prop where
  nodup : q.items.Nodup
  position : ∀ (k : Nat) (a : α), q.items[k]? = some a → q.index a = k

def lessAt (less : α → α → Bool) (q : Queue α) (i j : Nat) : Bool :=
  match q.items[i]?, q.items[j]? with
  | some a, some b => less a b
  | _, _ => false

def swap (q : Queue α) (i j : Nat) : Queue α :=
  match q.items[i]?, q.items[j]? with
  | some a, some b =>
    { items := (q.items.set i b).set j a
      index := Function.update (Function.update q.index b i) a j }
  | _, _ => q

def push (q : Queue α) (a : α) : Queue α :=
  { items := q.items ++ [a]
    index := Function.update q.index a q.items.length }

def pop (q : Queue α) : Option (α × Queue α) :=
  match q.items.getLast? with
  | none => none
  | some a =>
    some (a,
      { items := q.items.dropLast
        index := Function.update q.index a (-1) })

/- One round of `up` goes from a position to its parent. -/
def up (less : α → α → Bool) :
    Nat → Queue α → Nat → Queue α
| 0, q, _ => q
| rounds + 1, q, j =>
    if (j - 1) / 2 = j || !q.lessAt less j ((j - 1) / 2) then
      q
    else
      up less rounds (q.swap ((j - 1) / 2) j) ((j - 1) / 2)

/- The child `down` compares with its parent. -/
def downChild (less : α → α → Bool) (q : Queue α) (n i : Nat) : Nat :=
  if decide (2 * i + 2 < n) && q.lessAt less (2 * i + 2) (2 * i + 1) then
    2 * i + 2
  else
    2 * i + 1

/- The queue and the position where `down` ends. -/
def down (less : α → α → Bool) (n : Nat) :
    Nat → Queue α → Nat → Queue α × Nat
| 0, q, i => (q, i)
| rounds + 1, q, i =>
    if n ≤ 2 * i + 1 then
      (q, i)
    else if q.lessAt less (q.downChild less n i) i then
      down less n rounds (q.swap i (q.downChild less n i)) (q.downChild less n i)
    else
      (q, i)

def heapInit (less : α → α → Bool) (q : Queue α) : Queue α :=
  (List.range (q.items.length / 2)).reverse.foldl
    (fun queue i => (queue.down less q.items.length q.items.length i).1) q

def heapPush (less : α → α → Bool) (q : Queue α) (a : α) : Queue α :=
  (q.push a).up less q.items.length q.items.length

/- Down from a position, and up if that did not move it. -/
def settle (less : α → α → Bool) (n i : Nat) (q : Queue α) : Queue α :=
  if i < (q.down less n n i).2 then
    (q.down less n n i).1
  else
    (q.down less n n i).1.up less i i

def heapPop (less : α → α → Bool) (q : Queue α) : Option (α × Queue α) :=
  ((q.swap 0 (q.items.length - 1)).down less (q.items.length - 1) (q.items.length - 1) 0).1.pop

/- A position outside of the queue panics. -/
def heapRemove (less : α → α → Bool) (q : Queue α) (i : Nat) : Option (α × Queue α) :=
  if i < q.items.length then
    if q.items.length - 1 = i then
      q.pop
    else
      ((q.swap i (q.items.length - 1)).settle less (q.items.length - 1) i).pop
  else
    none

def heapFix (less : α → α → Bool) (q : Queue α) (i : Nat) : Option (Queue α) :=
  if i < q.items.length then
    some (q.settle less q.items.length i)
  else
    none

/- Remove by putting the last item in the place. -/
def removeAt (q : Queue α) (i : Nat) : Option (α × Queue α) :=
  if i < q.items.length then
    (q.swap i (q.items.length - 1)).pop
  else
    none

-- Swaps

variable {n : Nat} {a : α} {q : Queue α} (less : α → α → Bool)

theorem swap_of_getElem? {i j : Nat} {a b : α} (hFirst : q.items[i]? = some a)
    (hSecond : q.items[j]? = some b) :
    q.swap i j =
      { items := (q.items.set i b).set j a
        index := Function.update (Function.update q.index b i) a j } := by
  simp [swap, hFirst, hSecond]

/- A swap with a position that is not there does nothing. -/
theorem swap_cases (q : Queue α) (i j : Nat) :
    q.swap i j = q ∨ ∃ a b, q.items[i]? = some a ∧ q.items[j]? = some b := by
  unfold swap
  cases q.items[i]? with
  | none => exact Or.inl rfl
  | some a =>
    cases q.items[j]? with
    | none => exact Or.inl rfl
    | some b => exact Or.inr ⟨a, b, rfl, rfl⟩

@[simp]
theorem length_swap (q : Queue α) (i j : Nat) : (q.swap i j).items.length = q.items.length := by
  rcases q.swap_cases i j with hSame | ⟨a, b, hFirst, hSecond⟩
  · rw [hSame]
  · simp [swap_of_getElem? hFirst hSecond]

/- What stands where after a swap. -/
theorem getElem?_swap {i j : Nat} {a b : α} (hFirst : q.items[i]? = some a)
    (hSecond : q.items[j]? = some b) (k : Nat) :
    (q.swap i j).items[k]? = if k = j then some a else if k = i then some b else q.items[k]? := by
  have hi : i < q.items.length := (List.getElem?_eq_some_iff.mp hFirst).1
  have hj : j < q.items.length := (List.getElem?_eq_some_iff.mp hSecond).1
  rw [swap_of_getElem? hFirst hSecond]
  simp only [List.getElem?_set, List.length_set, eq_comm (b := k)]
  split_ifs <;> rfl

theorem getElem?_swap_of_ne (q : Queue α) {i j k : Nat} (hFirst : k ≠ i) (hSecond : k ≠ j) :
    (q.swap i j).items[k]? = q.items[k]? := by
  rcases q.swap_cases i j with hSame | ⟨a, b, hI, hJ⟩
  · rw [hSame]
  · simp [getElem?_swap hI hJ, hFirst, hSecond]

theorem swap_perm (q : Queue α) (i j : Nat) : (q.swap i j).items.Perm q.items := by
  rcases q.swap_cases i j with hSame | ⟨a, b, hFirst, hSecond⟩
  · rw [hSame]
  · rcases List.getElem?_eq_some_iff.mp hFirst with ⟨hi, rfl⟩
    rcases List.getElem?_eq_some_iff.mp hSecond with ⟨hj, rfl⟩
    rw [swap_of_getElem? hFirst hSecond]
    exact List.set_set_perm hi hj

/- An item stands at one position only. -/
omit [DecidableEq α] in
theorem Placed.injective (hPlaced : q.Placed) {i j : Nat} (hFirst : q.items[i]? = some a)
    (hSecond : q.items[j]? = some a) : i = j := by
  have hI := hPlaced.position i a hFirst
  have hJ := hPlaced.position j a hSecond
  omega

theorem Placed.swap (hPlaced : q.Placed) (i j : Nat) : (q.swap i j).Placed := by
  rcases q.swap_cases i j with hSame | ⟨a, b, hFirst, hSecond⟩
  · rwa [hSame]
  · refine ⟨(q.swap_perm i j).nodup_iff.mpr hPlaced.nodup, fun k c hAt => ?_⟩
    rw [getElem?_swap hFirst hSecond] at hAt
    have hIndex : (q.swap i j).index = Function.update (Function.update q.index b i) a j := by
      rw [swap_of_getElem? hFirst hSecond]
    rw [hIndex]
    split_ifs at hAt with hAtJ hAtI
    · cases hAt
      simp [hAtJ]
    · cases hAt
      have hOther : b ≠ a := fun hSame =>
        hAtJ (hAtI.trans (hPlaced.injective hFirst (hSame ▸ hSecond)))
      simp [hOther, hAtI]
    · have hNotA : c ≠ a := fun hSame => hAtI (hPlaced.injective (hSame ▸ hAt) hFirst)
      have hNotB : c ≠ b := fun hSame => hAtJ (hPlaced.injective (hSame ▸ hAt) hSecond)
      simp [hNotA, hNotB, hPlaced.position k c hAt]

-- Rearranging Below a Position

/- Reached by swaps of positions below `n`. -/
inductive Swapped (n : Nat) :
    Queue α → Queue α → Prop where
  | refl (q : Queue α) : Swapped n q q
  | swap {q final : Queue α} (i j : Nat) :
      i < n → j < n → Swapped n (q.swap i j) final → Swapped n q final

theorem Swapped.trans {q middle final : Queue α} (hFirst : Swapped n q middle)
    (hSecond : Swapped n middle final) : Swapped n q final := by
  induction hFirst with
  | refl q => exact hSecond
  | swap i j hI hJ hRest ih => exact .swap i j hI hJ (ih hSecond)

theorem Swapped.placed {q final : Queue α} (hSwapped : Swapped n q final)
    (hPlaced : q.Placed) : final.Placed := by
  induction hSwapped with
  | refl q => exact hPlaced
  | swap i j hI hJ hRest ih => exact ih (hPlaced.swap i j)

theorem Swapped.perm {q final : Queue α} (hSwapped : Swapped n q final) :
    final.items.Perm q.items := by
  induction hSwapped with
  | refl q => exact List.Perm.refl _
  | swap i j hI hJ hRest ih => exact ih.trans (swap_perm _ i j)

theorem Swapped.getElem?_of_le {q final : Queue α} (hSwapped : Swapped n q final) {k : Nat}
    (hAbove : n ≤ k) : final.items[k]? = q.items[k]? := by
  induction hSwapped with
  | refl q => rfl
  | swap i j hI hJ hRest ih =>
    rw [ih]
    exact getElem?_swap_of_ne _ (by omega) (by omega)

theorem swapped_up (rounds : Nat) (q : Queue α) (j : Nat) (hBelow : j < n) :
    Swapped n q (q.up less rounds j) := by
  fun_induction up less rounds q j with
  | case3 rounds q j hUp ih => exact .swap _ _ (by omega) hBelow (ih (by omega))
  | _ => exact .refl _

omit [DecidableEq α] in
theorem downChild_lt (q : Queue α) {n i : Nat} (hChild : 2 * i + 1 < n) :
    q.downChild less n i < n := by
  unfold downChild
  split <;> simp_all

theorem swapped_down (n rounds : Nat) (q : Queue α) (i : Nat) :
    Swapped n q (q.down less n rounds i).1 := by
  fun_induction down less n rounds q i with
  | case3 rounds q i hChild hLess ih =>
    exact .swap _ _ (by omega) (q.downChild_lt less (by omega)) ih
  | _ => exact .refl _

theorem swapped_settle {n i : Nat} (q : Queue α) (hBelow : i < n) :
    Swapped n q (q.settle less n i) := by
  unfold settle
  split
  · exact swapped_down less n n q i
  · exact (swapped_down less n n q i).trans (swapped_up less i _ i hBelow)

-- What the Operations Keep

section

variable (hPlaced : q.Placed)

include hPlaced

theorem Placed.push (hNew : a ∉ q.items) : (q.push a).Placed := by
  refine ⟨?_, fun k c hAt => ?_⟩
  · exact List.nodup_append'.mpr ⟨hPlaced.nodup, by simp, by simpa using hNew⟩
  · unfold Queue.push at hAt ⊢
    rw [List.getElem?_append] at hAt
    split at hAt
    · have hOther : c ≠ a := fun hSame => hNew (hSame ▸ List.mem_of_getElem? hAt)
      simp [hOther, hPlaced.position k c hAt]
    · rcases List.getElem?_eq_some_iff.mp hAt with ⟨hLt, hEq⟩
      have hEnd : k = q.items.length := by
        simp only [List.length_singleton] at hLt
        omega
      simp only [List.getElem_singleton] at hEq
      simp [← hEq, hEnd]

/- What is taken from the end, and what is left. -/
theorem pop_spec {k : Nat} (hEnd : q.items.length = k + 1) (hAt : q.items[k]? = some a) :
    ∃ rest, q.pop = some (a, rest) ∧ rest.Placed ∧
      rest.items = q.items.dropLast ∧ (a :: rest.items).Perm q.items ∧ rest.index a = -1 := by
  have hLast : q.items.getLast? = some a := by
    rw [List.getLast?_eq_getElem?, hEnd]
    exact hAt
  have hSplit : q.items = q.items.dropLast ++ [a] := (List.dropLast_append_getLast? a hLast).symm
  have hNodup : (q.items.dropLast ++ [a]).Nodup := hSplit ▸ hPlaced.nodup
  have hGone : a ∉ q.items.dropLast := by
    have hDisjoint := (List.nodup_append'.mp hNodup).2.2
    simpa using hDisjoint
  refine ⟨{ items := q.items.dropLast
            index := Function.update q.index a (-1) },
    by simp [pop, hLast], ⟨?_, fun i c hRest => ?_⟩, rfl, ?_, by simp⟩
  · exact (List.nodup_append'.mp hNodup).1
  · have hOther : c ≠ a := fun hSame => hGone (hSame ▸ List.mem_of_getElem? hRest)
    have hBefore : q.items[i]? = some c := by
      rw [hSplit, List.getElem?_append_left]
      · exact hRest
      · exact (List.getElem?_eq_some_iff.mp hRest).1
    simp [hOther, hPlaced.position i c hBefore]
  · nth_rewrite 2 [hSplit]
    exact (List.perm_append_singleton a _).symm

theorem heapPush_spec (hNew : a ∉ q.items) :
    (q.heapPush less a).Placed ∧ (q.heapPush less a).items.Perm (a :: q.items) := by
  have hSwapped : Swapped (q.items.length + 1) (q.push a) (q.heapPush less a) :=
    swapped_up less _ _ _ (by omega)
  refine ⟨hSwapped.placed (hPlaced.push hNew), ?_⟩
  exact hSwapped.perm.trans (List.perm_append_singleton a q.items)

theorem heapFix_spec {i : Nat} (hInside : i < q.items.length) :
    ∃ fixed, q.heapFix less i = some fixed ∧ fixed.Placed ∧ fixed.items.Perm q.items := by
  have hSwapped := swapped_settle less q hInside
  exact ⟨_, by simp [heapFix, hInside], hSwapped.placed hPlaced, hSwapped.perm⟩

theorem heapInit_spec : (q.heapInit less).Placed ∧ (q.heapInit less).items.Perm q.items := by
  have hRounds (rounds : List Nat) (start : Queue α) :
      Swapped q.items.length start (rounds.foldl (fun queue i =>
        (queue.down less q.items.length q.items.length i).1) start) := by
    induction rounds generalizing start with
    | nil => exact .refl start
    | cons i rounds ih => exact (swapped_down less _ _ start i).trans (ih _)
  have hSwapped : Swapped q.items.length q (q.heapInit less) := hRounds _ q
  exact ⟨hSwapped.placed hPlaced, hSwapped.perm⟩

/-
  An item brought to the end and taken from there, with any rearranging before the end in between.
-/
theorem pop_of_swapped {arranged : Queue α} {i : Nat} (hAt : q.items[i]? = some a)
    (hSwapped : Swapped (q.items.length - 1) (q.swap i (q.items.length - 1)) arranged) :
    ∃ rest, arranged.pop = some (a, rest) ∧ rest.Placed ∧
      rest.items = arranged.items.dropLast ∧
      (a :: rest.items).Perm q.items ∧ rest.index a = -1 := by
  have hInside : i < q.items.length := (List.getElem?_eq_some_iff.mp hAt).1
  have hLastAt : q.items[q.items.length - 1]? = some (q.items[q.items.length - 1]) :=
    List.getElem?_eq_getElem (by omega)
  have hBrought : (q.swap i (q.items.length - 1)).items[q.items.length - 1]? = some a := by
    simp [getElem?_swap hAt hLastAt]
  have hAllPerm : arranged.items.Perm q.items := hSwapped.perm.trans (q.swap_perm i _)
  have hEnd : arranged.items.length = (q.items.length - 1) + 1 := by
    rw [hAllPerm.length_eq]
    omega
  have hTaken : arranged.items[q.items.length - 1]? = some a := by
    rw [hSwapped.getElem?_of_le (Nat.le_refl _), hBrought]
  rcases pop_spec (hSwapped.placed (hPlaced.swap i _)) hEnd
    hTaken with ⟨rest, hPop, hRest, hItems, hPerm, hIndex⟩
  exact ⟨rest, hPop, hRest, hItems, hPerm.trans hAllPerm, hIndex⟩

/- The item at the top is what is taken. -/
theorem heapPop_spec (hTop : q.items[0]? = some a) :
    ∃ rest, q.heapPop less = some (a, rest) ∧ rest.Placed ∧ (a :: rest.items).Perm q.items := by
  rcases pop_of_swapped hPlaced hTop (swapped_down less _ (q.items.length - 1) _ 0)
    with ⟨rest, hPop, hRest, hItems, hPerm, hIndex⟩
  exact ⟨rest, hPop, hRest, hPerm⟩

theorem removeAt_spec {i : Nat} (hAt : q.items[i]? = some a) :
    ∃ rest, q.removeAt i = some (a, rest) ∧ rest.Placed ∧
      rest.items = (q.swap i (q.items.length - 1)).items.dropLast ∧
      (a :: rest.items).Perm q.items ∧ rest.index a = -1 := by
  have hInside : i < q.items.length := (List.getElem?_eq_some_iff.mp hAt).1
  unfold removeAt
  rw [if_pos hInside]
  exact pop_of_swapped hPlaced hAt (.refl _)

theorem heapRemove_spec {i : Nat} (hAt : q.items[i]? = some a) :
    ∃ rest, q.heapRemove less i = some (a, rest) ∧
      rest.Placed ∧ (a :: rest.items).Perm q.items := by
  have hInside : i < q.items.length := (List.getElem?_eq_some_iff.mp hAt).1
  unfold heapRemove
  rw [if_pos hInside]
  by_cases hLast : q.items.length - 1 = i
  · rw [if_pos hLast]
    rcases pop_spec hPlaced (by omega) hAt with ⟨rest, hPop, hRest, hItems, hPerm, hIndex⟩
    exact ⟨rest, hPop, hRest, hPerm⟩
  · rw [if_neg hLast]
    have hBefore : i < q.items.length - 1 := by omega
    rcases pop_of_swapped hPlaced hAt (swapped_settle less _ hBefore)
      with ⟨rest, hPop, hRest, hItems, hPerm, hIndex⟩
    exact ⟨rest, hPop, hRest, hPerm⟩

/- Removing the last item leaves the others in place. -/
omit hPlaced in
theorem swap_last_dropLast (q : Queue α) :
    (q.swap (q.items.length - 1) (q.items.length - 1)).items.dropLast = q.items.dropLast := by
  apply List.ext_getElem?
  intro k
  simp only [List.getElem?_dropLast, length_swap]
  split
  · exact getElem?_swap_of_ne _ (by omega) (by omega)
  · rfl

/- Where an item stands, by the index it knows. -/
omit [DecidableEq α] in
theorem Placed.getElem?_index (hMem : a ∈ q.items) :
    0 ≤ q.index a ∧ q.items[(q.index a).toNat]? = some a := by
  rcases List.getElem?_of_mem hMem with ⟨k, hAt⟩
  rw [hPlaced.position k a hAt]
  exact ⟨by omega, by simpa using hAt⟩

end

-- Sorting

end Queue

/- No item stands behind one it is less than. -/
def SortedBy (less : α → α → Bool) (items : List α) : Prop :=
  items.Pairwise fun a b => less b a = false

/- What a comparison has to be for a list to be sorted. -/
structure StrictWeakOn (less : α → α → Bool) (items : List α) : Prop where
  asymm : ∀ a ∈ items, ∀ b ∈ items, less a b = true → less b a = false
  split : ∀ a ∈ items, ∀ b ∈ items, ∀ c ∈ items, less a c = true → less a b = true ∨ less b c = true

/- A sorting routine: it rearranges the list, and sorts it whenever the comparison allows that. -/
structure Sorter (α : Type) where
  sort : (α → α → Bool) → List α → List α
  perm : ∀ less items, (sort less items).Perm items
  sorted : ∀ less items, StrictWeakOn less items → SortedBy less (sort less items)

/- A comparison of ranks is a strict weak order. -/
variable {less : α → α → Bool}

omit [DecidableEq α] in
theorem strictWeakOn_of_rank {ρ : Type} [LinearOrder ρ] (rank : α → ρ) {items : List α}
    (hRank : ∀ a ∈ items, ∀ b ∈ items, (less a b = true ↔ rank a < rank b)) :
    StrictWeakOn less items := by
  constructor
  · intro a ha b hb hLess
    rw [← Bool.not_eq_true, hRank b hb a ha]
    exact lt_asymm ((hRank a ha b hb).mp hLess)
  · intro a ha b hb c hc hLess
    rw [hRank a ha b hb, hRank b hb c hc]
    have hAC := (hRank a ha c hc).mp hLess
    rcases lt_or_ge (rank a) (rank b) with hAB | hBA
    · exact Or.inl hAB
    · exact Or.inr (lt_of_le_of_lt hBA hAC)

/- Not being behind is total and transitive on the list. -/
omit [DecidableEq α] in
theorem StrictWeakOn.total {items : List α} (hWeak : StrictWeakOn less items)
    (a b : { a // a ∈ items }) : less b.1 a.1 = false ∨ less a.1 b.1 = false := by
  cases hLess : less b.1 a.1 with
  | false => exact Or.inl rfl
  | true => exact Or.inr (hWeak.asymm _ b.2 _ a.2 hLess)

omit [DecidableEq α] in
theorem StrictWeakOn.trans {items : List α} (hWeak : StrictWeakOn less items)
    (a b c : { a // a ∈ items }) (hFirst : less b.1 a.1 = false) (hSecond : less c.1 b.1 = false) :
    less c.1 a.1 = false := by
  cases hLess : less c.1 a.1 with
  | false => rfl
  | true =>
    rcases hWeak.split _ c.2 _ b.2 _ a.2 hLess with hCB | hBA
    · cases hSecond.symm.trans hCB
    · cases hFirst.symm.trans hBA

/- Sorting by insertion. -/
def insertionSorter : Sorter α where
  sort less items := (items.attach.insertionSort fun a b => less b.1 a.1 = false).map Subtype.val
  perm less items := by
    have hPerm := (List.perm_insertionSort
      (fun a b : { a // a ∈ items } => less b.1 a.1 = false) items.attach).map Subtype.val
    rwa [List.attach_map_subtype_val] at hPerm
  sorted less items hWeak := by
    have hTotal : Std.Total fun a b : { a // a ∈ items } => less b.1 a.1 = false := ⟨hWeak.total⟩
    have hTrans : IsTrans _ fun a b : { a // a ∈ items } => less b.1 a.1 = false := ⟨hWeak.trans⟩
    exact List.pairwise_map.mpr (List.pairwise_insertionSort _ items.attach)

namespace Queue

/- Sorting by swaps leaves every item with its position. -/
def sortBy (sorter : Sorter α) (less : α → α → Bool) (q : Queue α) : Queue α :=
  { items := sorter.sort less q.items
    index := fun a =>
      if a ∈ q.items then
        (sorter.sort less q.items).idxOf a
      else
        q.index a }

theorem sortBy_spec (sorter : Sorter α) (less : α → α → Bool) {q : Queue α} (hPlaced : q.Placed) :
    (q.sortBy sorter less).Placed ∧ (q.sortBy sorter less).items.Perm q.items := by
  have hPerm := sorter.perm less q.items
  refine ⟨⟨hPerm.nodup_iff.mpr hPlaced.nodup, fun k a hAt => ?_⟩, hPerm⟩
  rcases List.getElem?_eq_some_iff.mp hAt with ⟨hLt, hEq⟩
  have hMem : a ∈ q.items := hPerm.mem_iff.mp (List.mem_of_getElem? hAt)
  have hNodup : (sorter.sort less q.items).Nodup := hPerm.nodup_iff.mpr hPlaced.nodup
  have hIdx : (sorter.sort less q.items).idxOf a = k := by
    rw [← hEq]
    exact hNodup.idxOf_getElem k hLt
  simp [sortBy, hMem, hIdx]

end Queue

end IndexedQueue
