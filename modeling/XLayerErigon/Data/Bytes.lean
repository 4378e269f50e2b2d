import Mathlib

/-
  Big-endian byte strings of natural numbers.

  `Bytes.toNat` reads a byte string as a number, `ofNat` writes a number without leading zeros,
  and `fill` writes it to a given width.

  Main results:
    * `Bytes.toNat_ofNat`
    * `Bytes.ofNat_toNat`
    * `Bytes.toNat_fill`
    * `Bytes.fill_toNat`
-/

-- Byte Strings

abbrev Byte := BitVec 8

abbrev Bytes := List Byte

namespace Bytes

def toNat (bs : Bytes) : Nat := bs.foldl (fun n b => 256 * n + b.toNat) 0

/- The digits of a number, the last one first. -/
def digits (n : Nat) : Bytes := (Nat.digits 256 n).map (BitVec.ofNat 8)

/- The shortest byte string of a number. -/
def ofNat (n : Nat) : Bytes := (digits n).reverse

/- A number in at least `width` bytes. -/
def fill (width n : Nat) : Bytes := List.replicate (width - (ofNat n).length) 0 ++ ofNat n

@[simp] theorem toNat_nil : toNat [] = 0 := rfl

theorem toNat_concat (bs : Bytes) (b : Byte) : toNat (bs ++ [b]) = 256 * toNat bs + b.toNat := by
  rw [toNat, List.foldl_append]
  rfl

theorem toNat_append (bs bs' : Bytes) :
    toNat (bs ++ bs') = 256 ^ bs'.length * toNat bs + toNat bs' := by
  induction bs' using List.reverseRecOn with
  | nil => simp
  | append_singleton bs' b ih =>
    rw [← List.append_assoc, toNat_concat, ih, toNat_concat, List.length_append,
      List.length_singleton]
    ring

theorem toNat_cons (b : Byte) (bs : Bytes) :
    toNat (b :: bs) = 256 ^ bs.length * b.toNat + toNat bs := by
  have hAppend := toNat_append [b] bs
  rw [List.singleton_append] at hAppend
  rw [hAppend]
  simp [toNat]

theorem toNat_lt (bs : Bytes) : toNat bs < 256 ^ bs.length := by
  induction bs using List.reverseRecOn with
  | nil => simp
  | append_singleton bs b ih =>
    have hByte := b.isLt
    rw [toNat_concat, List.length_append, List.length_singleton, pow_succ]
    omega

@[simp] theorem toNat_replicate_zero (count : Nat) : toNat (List.replicate count 0) = 0 := by
  induction count with
  | zero => rfl
  | succ count ih =>
    rw [List.replicate_succ', toNat_concat, ih]
    rfl

/- Strings of one length are told apart by their numbers. -/
theorem toNat_inj {bs bs' : Bytes} (hLength : bs.length = bs'.length)
    (hNat : toNat bs = toNat bs') : bs = bs' := by
  induction bs using List.reverseRecOn generalizing bs' with
  | nil => exact (List.length_eq_zero_iff.mp hLength.symm).symm
  | append_singleton bs b ih =>
    rcases List.eq_nil_or_concat' bs' with rfl | ⟨rest, b', rfl⟩
    · simp at hLength
    · have hByte := b.isLt
      have hByte' := b'.isLt
      rw [toNat_concat, toNat_concat] at hNat
      have hRest : bs = rest := by
        apply ih
        · simpa using hLength
        · omega
      have hLast : b = b' := by
        apply BitVec.eq_of_toNat_eq
        omega
      rw [hRest, hLast]

-- Shortest Byte Strings

@[simp] theorem ofNat_zero : ofNat 0 = [] := by simp [ofNat, digits]

theorem ofNat_pos {n : Nat} (hPos : 0 < n) : ofNat n = ofNat (n / 256) ++ [BitVec.ofNat 8 n] := by
  rw [ofNat, digits, Nat.digits_def' (by decide) hPos,
    List.map_cons, List.reverse_cons, ofNat, digits]
  congr 2
  apply BitVec.eq_of_toNat_eq
  simp

@[simp] theorem toNat_ofNat (n : Nat) : toNat (ofNat n) = n := by
  induction n using Nat.strongRecOn with
  | ind n ih =>
    rcases Nat.eq_zero_or_pos n with rfl | hPos
    · rfl
    · rw [ofNat_pos hPos, toNat_concat, ih (n / 256) (Nat.div_lt_self hPos (by decide)),
        BitVec.toNat_ofNat]
      omega

theorem length_ofNat_le {width n : Nat} (hWidth : n < 256 ^ width) : (ofNat n).length ≤ width := by
  rw [ofNat, List.length_reverse, digits, List.length_map]
  exact (Nat.digits_length_le_iff (by decide) n).mpr hWidth

theorem ofNat_eq_nil_iff {n : Nat} : ofNat n = [] ↔ n = 0 := by
  constructor
  · intro hNil
    rw [← toNat_ofNat n, hNil]
    rfl
  · rintro rfl
    exact ofNat_zero

/- The shortest string starts with a byte that is not zero. -/
theorem ofNat_head_ne_zero {n : Nat} {b : Byte} {bs : Bytes} (hCons : ofNat n = b :: bs) :
    b ≠ 0 := by
  induction n using Nat.strongRecOn generalizing b bs with
  | ind n ih =>
    rcases Nat.eq_zero_or_pos n with rfl | hPos
    · simp at hCons
    · rw [ofNat_pos hPos] at hCons
      cases hRest : ofNat (n / 256) with
      | nil =>
        rw [hRest, List.nil_append] at hCons
        injection hCons with hHead
        have hSmall := ofNat_eq_nil_iff.mp hRest
        intro hZero
        rw [hZero] at hHead
        have hNat := congrArg BitVec.toNat hHead
        rw [BitVec.toNat_ofNat] at hNat
        simp at hNat
        omega
      | cons b' rest =>
        rw [hRest, List.cons_append] at hCons
        injection hCons with hHead
        rw [← hHead]
        exact ih (n / 256) (Nat.div_lt_self hPos (by decide)) hRest

/- Reading a string without leading zeros loses nothing. -/
theorem ofNat_toNat {bs : Bytes} (hHead : ∀ b rest, bs = b :: rest → b ≠ 0) :
    ofNat (toNat bs) = bs := by
  cases bs with
  | nil => exact ofNat_zero
  | cons b rest =>
    have hByte : 0 < b.toNat := by
      rw [Nat.pos_iff_ne_zero]
      intro hZero
      exact hHead b rest rfl (BitVec.eq_of_toNat_eq hZero)
    apply toNat_inj _ (toNat_ofNat _)
    apply le_antisymm
    · exact length_ofNat_le (toNat_lt _)
    · by_contra hShort
      have hLt := toNat_lt (ofNat (toNat (b :: rest)))
      rw [toNat_ofNat, toNat_cons] at hLt
      have hPow :
          256 ^ (ofNat (256 ^ rest.length * b.toNat + toNat rest)).length ≤ 256 ^ rest.length := by
        apply Nat.pow_le_pow_right (by decide)
        rw [toNat_cons, List.length_cons] at hShort
        omega
      have hMul : 256 ^ rest.length * 1 ≤ 256 ^ rest.length * b.toNat := Nat.mul_le_mul_left _ hByte
      omega

@[simp] theorem toNat_fill (width n : Nat) : toNat (fill width n) = n := by
  rw [fill, toNat_append, toNat_replicate_zero, toNat_ofNat]
  simp

theorem length_fill {width n : Nat} (hWidth : n < 256 ^ width) : (fill width n).length = width := by
  have hLength := length_ofNat_le hWidth
  rw [fill, List.length_append, List.length_replicate]
  omega

theorem fill_toNat (bs : Bytes) : fill bs.length (toNat bs) = bs :=
  toNat_inj (length_fill (toNat_lt bs)) (toNat_fill _ _)

end Bytes
