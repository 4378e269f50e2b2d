import Mathlib

/-
  What the model keeps of Go itself: how a call ends that does not return a result, and slices
  indexed out of range.

  Key definitions include:
    * `Failure`
    * `Slice`
    * `sliceIndex`
    * `sliceSet`
    * `sliceRange`
-/

namespace XLayerErigon

/- How a Go call ends when it does not return a result. -/
inductive Failure where
  | panic : Failure
  | error (message : String) : Failure
  deriving DecidableEq, Repr

/- An error that a caller passes on under its own name. -/
def Failure.wrap (caller : String) : Failure → Failure
  | .panic => .panic
  | .error message => .error (caller ++ ": " ++ message)

variable {α β : Type}

/- A call that returns hands its result on. -/
@[simp] theorem ok_bind (a : α) (f : α → Except Failure β) : (Except.ok a >>= f) = f a := rfl

@[simp] theorem error_bind (failure : Failure) (f : α → Except Failure β) :
    (Except.error failure >>= f) = .error failure :=
  rfl

/- What returns a result has returned one on the way. -/
theorem except_bind_eq_ok {ε : Type} {r : Except ε α} {next : α → Except ε β} {value : β}
    (hOk : r >>= next = .ok value) : ∃ a, r = .ok a ∧ next a = .ok value := by
  cases r with
  | ok a => exact ⟨a, rfl, hOk⟩
  | error e => cases hOk

/- A whole slice.  The length of a slice is an `int`. -/
abbrev Slice (α : Type) := { xs : List α // xs.length < 2 ^ 63 }

/- Reading a slice out of range panics. -/
def sliceIndex (xs : List α) (i : Nat) : Except Failure α :=
  match xs[i]? with
  | some x => .ok x
  | none => .error .panic

/- Writing to a slice out of range panics. -/
def sliceSet (xs : List α) (i : Nat) (x : α) : Except Failure (List α) :=
  if i < xs.length then .ok (xs.set i x)
  else .error .panic

/-
  The part of a slice from `low` up to `high`.  The slices of the model have no capacity beyond
  their length.
-/
def sliceRange (xs : List α) (low high : Nat) : Except Failure (List α) :=
  if low ≤ high ∧ high ≤ xs.length then
    .ok ((xs.take high).drop low)
  else .error .panic

@[simp] theorem sliceIndex_of_some {xs : List α} {i : Nat} {x : α} (hAt : xs[i]? = some x) :
    sliceIndex xs i = .ok x := by
  simp [sliceIndex, hAt]

@[simp] theorem sliceSet_of_lt {xs : List α} {i : Nat} (x : α) (hLt : i < xs.length) :
    sliceSet xs i x = .ok (xs.set i x) :=
  if_pos hLt

/- A part is there if the slice goes on with it. -/
theorem sliceRange_next {xs part rest : List α} {low high : Nat}
    (hDrop : xs.drop low = part ++ rest) (hLow : low ≤ xs.length)
    (hHigh : high = low + part.length) :
    sliceRange xs low high = .ok part ∧ xs.drop high = rest ∧ high ≤ xs.length := by
  have hLength := congrArg List.length hDrop
  rw [List.length_drop, List.length_append] at hLength
  refine ⟨?_, ?_, by omega⟩
  · rw [sliceRange, if_pos (by omega), List.drop_take, hDrop, hHigh, Nat.add_sub_cancel_left,
      List.take_left]
  · rw [hHigh, ← List.drop_drop, hDrop, List.drop_left]

theorem sliceRange_ok_or_panic (xs : List α) (low high : Nat) :
    (∃ part, sliceRange xs low high = .ok part) ∨ sliceRange xs low high = .error .panic := by
  by_cases hBounds : low ≤ high ∧ high ≤ xs.length
  · exact Or.inl ⟨_, if_pos hBounds⟩
  · exact Or.inr (if_neg hBounds)

/- A part that would end behind the slice panics. -/
theorem sliceRange_of_length_lt {xs : List α} {low high : Nat} (hShort : xs.length < high) :
    sliceRange xs low high = .error .panic :=
  if_neg (by omega)

end XLayerErigon
