import XLayerErigon.Data.Bytes
import XLayerErigon.Go
import XLayerErigon.Kv.Table

/-
  Numbers in the tables of the node, and loops over a range of keys.

  Main results:
    * `bytesToUint64_uint64ToBytes`
    * `parse_concatenateBlockNumbers`
    * `forRange_eq`
    * `forRange_max`
-/

namespace XLayerErigon.HermezDb

abbrev Uint64 := BitVec 64

-- Numbers

def bytesToUint64 (b : Bytes) : Uint64 :=
  if b.length < 8 then 0
  else BitVec.ofNat 64 (Bytes.toNat (b.take 8))

def uint64ToBytes (i : Uint64) : Bytes := Bytes.fill 8 i.toNat

def concatenateBlockNumbers (blocks : List Uint64) : Bytes := blocks.flatMap uint64ToBytes

def parseConcatenatedBlockNumbers (v : Bytes) : List Uint64 :=
  (List.range (v.length / 8)).map (fun i => bytesToUint64 ((v.drop (8 * i)).take 8))

variable (blocks : List Uint64)

theorem length_uint64ToBytes (i : Uint64) : (uint64ToBytes i).length = 8 :=
  Bytes.length_fill i.isLt

@[simp] theorem bytesToUint64_uint64ToBytes (i : Uint64) : bytesToUint64 (uint64ToBytes i) = i := by
  have hLength := length_uint64ToBytes i
  rw [bytesToUint64, if_neg (by omega), List.take_of_length_le (by omega), uint64ToBytes,
    Bytes.toNat_fill]
  simp

theorem length_concatenateBlockNumbers :
    (concatenateBlockNumbers blocks).length = 8 * blocks.length := by
  induction blocks with
  | nil => rfl
  | cons block blocks ih =>
    rw [concatenateBlockNumbers, List.flatMap_cons, List.length_append, length_uint64ToBytes,
      ← concatenateBlockNumbers, ih, List.length_cons]
    omega

theorem parse_cons (block : Uint64) (v : Bytes) :
    parseConcatenatedBlockNumbers (uint64ToBytes block ++ v) =
      block :: parseConcatenatedBlockNumbers v := by
  have hLength := length_uint64ToBytes block
  have hCount : (uint64ToBytes block ++ v).length / 8 = v.length / 8 + 1 := by
    rw [List.length_append, hLength]
    omega
  rw [parseConcatenatedBlockNumbers, hCount, List.range_succ_eq_map, List.map_cons, List.map_map]
  refine congrArg₂ List.cons ?_ (List.map_congr_left ?_)
  · rw [Nat.mul_zero, List.drop_zero, List.take_left' hLength, bytesToUint64_uint64ToBytes]
  · intro i _
    have hDrop : (uint64ToBytes block ++ v).drop (8 * (i + 1)) = v.drop (8 * i) := by
      rw [show 8 * (i + 1) = (uint64ToBytes block).length + 8 * i by omega,
        List.drop_length_add_append]
    rw [Function.comp_apply, hDrop]

theorem parse_concatenateBlockNumbers :
    parseConcatenatedBlockNumbers (concatenateBlockNumbers blocks) = blocks := by
  induction blocks with
  | nil => rfl
  | cons block blocks ih =>
    rw [concatenateBlockNumbers, List.flatMap_cons, parse_cons, ← concatenateBlockNumbers, ih]

theorem concatenateBlockNumbers_append (block : Uint64) :
    concatenateBlockNumbers blocks ++ uint64ToBytes block =
      concatenateBlockNumbers (blocks ++ [block]) := by
  simp [concatenateBlockNumbers]

theorem concatenateBlockNumbers_eq_nil {blocks : List Uint64} :
    concatenateBlockNumbers blocks = [] ↔ blocks = [] := by
  rw [← List.length_eq_zero_iff, length_concatenateBlockNumbers, ← List.length_eq_zero_iff]
  omega

-- Loops over a range

/-
  `for i := from; i <= to; i++`.  The loop does not end if `to` is the greatest number: the index
  wraps around.
-/
def forRange {σ : Type} (body : σ → Uint64 → σ) (last : Uint64) : Nat → Uint64 → σ → Option σ
  | 0, _, _ => none
  | fuel + 1, i, s =>
      if i ≤ last then
        forRange body last fuel (i + 1) (body s i)
      else some s

def rangeOf (first last : Uint64) : List Uint64 :=
  (List.range' first.toNat (last.toNat + 1 - first.toNat)).map (BitVec.ofNat 64)

theorem mem_rangeOf {first last i : Uint64} : i ∈ rangeOf first last ↔ first ≤ i ∧ i ≤ last := by
  rw [rangeOf, List.mem_map]
  constructor
  · rintro ⟨n, hMem, rfl⟩
    have hLast := last.isLt
    rw [List.mem_range'_1] at hMem
    simp only [BitVec.le_def, BitVec.toNat_ofNat]
    rw [Nat.mod_eq_of_lt (by omega)]
    omega
  · rintro ⟨hFirst, hLast⟩
    rw [BitVec.le_def] at hFirst hLast
    exact ⟨i.toNat, List.mem_range'_1.2 (by omega), by simp⟩

theorem rangeOf_cons {first last : Uint64} (hLe : first ≤ last) (hLast : last.toNat + 1 < 2 ^ 64) :
    rangeOf first last = first :: rangeOf (first + 1) last := by
  rw [BitVec.le_def] at hLe
  have hNext : (first + 1).toNat = first.toNat + 1 := by
    rw [BitVec.toNat_add]
    exact Nat.mod_eq_of_lt (by simpa using (by omega))
  rw [rangeOf, rangeOf, hNext, show last.toNat + 1 - first.toNat =
    (last.toNat + 1 - (first.toNat + 1)) + 1 by omega, List.range'_succ, List.map_cons]
  simp

theorem rangeOf_nil {first last : Uint64} (hLess : ¬ first ≤ last) : rangeOf first last = [] := by
  rw [BitVec.le_def] at hLess
  rw [rangeOf, show last.toNat + 1 - first.toNat = 0 by omega]
  rfl

section Loop

variable {σ : Type} {body : σ → Uint64 → σ}

/- A range that does not end with the greatest number. -/
theorem forRange_eq {first last : Uint64} (hLast : last.toNat + 1 < 2 ^ 64) (s : σ) {fuel : Nat}
    (hFuel : last.toNat + 2 - first.toNat ≤ fuel) (hSome : 0 < fuel) :
    forRange body last fuel first s = some ((rangeOf first last).foldl body s) := by
  induction fuel generalizing first s with
  | zero => omega
  | succ fuel ih =>
    by_cases hLe : first ≤ last
    · rw [forRange, if_pos hLe, rangeOf_cons hLe hLast, List.foldl_cons]
      rw [BitVec.le_def] at hLe
      have hNext : (first + 1).toNat = first.toNat + 1 := by
        rw [BitVec.toNat_add]
        exact Nat.mod_eq_of_lt (by simpa using (by omega))
      exact ih (body s first) (by omega) (by omega)
    · rw [forRange, if_neg hLe, rangeOf_nil hLe]
      rfl

/- A loop up to the greatest number never ends. -/
theorem forRange_max {last : Uint64} (hLast : last.toNat + 1 = 2 ^ 64) (fuel : Nat) (first : Uint64)
    (s : σ) : forRange body last fuel first s = none := by
  induction fuel generalizing first s with
  | zero => rfl
  | succ fuel ih =>
    have hLe : first ≤ last := by
      have hLt := first.isLt
      rw [BitVec.le_def]
      omega
    rw [forRange, if_pos hLe]
    exact ih (first + 1) (body s first)

/- What a loop that ends has done. -/
theorem forRange_some {first last : Uint64} {fuel : Nat} {s t : σ}
    (hEnds : forRange body last fuel first s = some t) : t = (rangeOf first last).foldl body s := by
  have hLt := last.isLt
  by_cases hMax : last.toNat + 1 = 2 ^ 64
  · rw [forRange_max hMax] at hEnds
    cases hEnds
  · have hLast : last.toNat + 1 < 2 ^ 64 := by omega
    induction fuel generalizing first s with
    | zero => cases hEnds
    | succ fuel ih =>
      by_cases hLe : first ≤ last
      · rw [forRange, if_pos hLe] at hEnds
        rw [rangeOf_cons hLe hLast, List.foldl_cons]
        exact ih hEnds
      · rw [forRange, if_neg hLe] at hEnds
        rw [rangeOf_nil hLe]
        exact (Option.some.inj hEnds).symm

end Loop

end XLayerErigon.HermezDb
