import XLayerErigon.Data.Bytes

/-
  Numbers as texts of hexadecimal digits, the highest digit first.

  Digits are read in both cases, so that a text and its checksummed form have the same number.

  Main results:
    * `Hex.toNat_append`
    * `Hex.toNat_ofNat`
    * `Hex.toNat_ofBytes`
-/

namespace Hex

def digit (c : Char) : Nat :=
  if '0' ≤ c && c ≤ '9' then c.toNat - '0'.toNat
  else if 'a' ≤ c && c ≤ 'f' then c.toNat - 'a'.toNat + 10
  else if 'A' ≤ c && c ≤ 'F' then c.toNat - 'A'.toNat + 10
  else 0

/- The number that a text stands for. -/
def toNat (text : List Char) : Nat := text.foldl (fun n c => 16 * n + digit c) 0

/- The digits of a number, none for zero. -/
def ofNat (n : Nat) : List Char := ((Nat.digits 16 n).map Nat.digitChar).reverse

/- Two digits for each byte. -/
def ofBytes (bs : Bytes) : List Char :=
  bs.flatMap (fun b => [Nat.digitChar (b.toNat / 16), Nat.digitChar (b.toNat % 16)])

theorem digit_digitChar {d : Nat} (hDigit : d < 16) : digit (Nat.digitChar d) = d := by
  have hAll : ∀ d : Fin 16, digit (Nat.digitChar d.val) = d.val := by decide
  exact hAll ⟨d, hDigit⟩

@[simp] theorem toNat_nil : toNat [] = 0 := rfl

theorem toNat_concat (text : List Char) (c : Char) :
    toNat (text ++ [c]) = 16 * toNat text + digit c := by
  rw [toNat, List.foldl_append]
  rfl

theorem toNat_append (text text' : List Char) :
    toNat (text ++ text') = 16 ^ text'.length * toNat text + toNat text' := by
  induction text' using List.reverseRecOn with
  | nil => simp
  | append_singleton text' c ih =>
    rw [← List.append_assoc, toNat_concat, ih, toNat_concat, List.length_append,
      List.length_singleton]
    ring

theorem toNat_cons (c : Char) (text : List Char) :
    toNat (c :: text) = 16 ^ text.length * digit c + toNat text := by
  have hAppend := toNat_append [c] text
  rw [List.singleton_append] at hAppend
  rw [hAppend]
  simp [toNat]

/- Leading zeros do not count. -/
theorem toNat_zeros_append (count : Nat) (text : List Char) :
    toNat (List.replicate count '0' ++ text) = toNat text := by
  have hZeros : toNat (List.replicate count '0') = 0 := by
    induction count with
    | zero => rfl
    | succ count ih =>
      rw [List.replicate_succ', toNat_concat, ih]
      rfl
  rw [toNat_append, hZeros, Nat.mul_zero, Nat.zero_add]

theorem toNat_ofNat (n : Nat) : toNat (ofNat n) = n := by
  induction n using Nat.strongRecOn with
  | ind n ih =>
    rcases Nat.eq_zero_or_pos n with rfl | hPos
    · rfl
    · have hDigits : ofNat n = ofNat (n / 16) ++ [Nat.digitChar (n % 16)] := by
        rw [ofNat, Nat.digits_def' (by decide) hPos, List.map_cons, List.reverse_cons]
        rfl
      rw [hDigits, toNat_concat, ih (n / 16) (Nat.div_lt_self hPos (by decide)),
        digit_digitChar (Nat.mod_lt n (by decide))]
      omega

theorem length_ofNat_le {width n : Nat} (hWidth : n < 16 ^ width) : (ofNat n).length ≤ width := by
  rw [ofNat, List.length_reverse, List.length_map]
  exact (Nat.digits_length_le_iff (by decide) n).mpr hWidth

theorem ofBytes_concat (bs : Bytes) (b : Byte) :
    ofBytes (bs ++ [b]) =
      ofBytes bs ++ [Nat.digitChar (b.toNat / 16)] ++ [Nat.digitChar (b.toNat % 16)] := by
  simp [ofBytes]

theorem length_ofBytes (bs : Bytes) : (ofBytes bs).length = bs.length * 2 := by
  induction bs using List.reverseRecOn with
  | nil => rfl
  | append_singleton bs b ih =>
    rw [ofBytes_concat]
    simp only [List.length_append, List.length_singleton, ih]
    omega

theorem toNat_ofBytes (bs : Bytes) : toNat (ofBytes bs) = Bytes.toNat bs := by
  induction bs using List.reverseRecOn with
  | nil => rfl
  | append_singleton bs b ih =>
    have hByte := b.isLt
    rw [ofBytes_concat, toNat_concat, toNat_concat, ih, Bytes.toNat_concat,
      digit_digitChar (by omega), digit_digitChar (by omega)]
    omega

end Hex
