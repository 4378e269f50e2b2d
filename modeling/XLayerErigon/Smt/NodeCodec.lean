import XLayerErigon.Smt.NodeKey
import XLayerErigon.Tx.L2TxHashInput

/-
  The bytes under which the nodes of the tree are stored.

  Both databases write keys and values as hexadecimal texts without leading zeros.  The plain one
  goes through a big integer, the cached one reads the memory of the words; the texts are the same.

  Main results:
    * `arrayToHex_eq`
    * `convertHexToBigInt_text`
    * `node_stored_alike`
-/

namespace XLayerErigon.Smt

open Tx (trimPrefix formatInt formatUint encodeToString AllDigits)

-- Conversions

/- The words of the absolute value of a big integer, the lowest one first. -/
def bigBits (n : Int) : List Nat := Nat.digits (2 ^ 64) n.natAbs

def setBits (words : List Nat) : Nat := Nat.ofDigits (2 ^ 64) words

def convertBigIntToHex (n : Int) : List Char := '0' :: 'x' :: formatInt n

/- `hex.Decode`, which stops at the first pair that is not one of digits. -/
def decodePairs : List Char → Bytes
  | c :: c' :: rest =>
      if Tx.isHexDigit c && Tx.isHexDigit c' then
        BitVec.ofNat 8 (16 * Hex.digit c + Hex.digit c') :: decodePairs rest
      else []
  | _ => []

/- The digit in front of the pairs; other characters are taken as decimal digits. -/
def singleDigit (c : Char) : Byte :=
  if 'a' ≤ c && c ≤ 'f' then BitVec.ofNat 8 (c.toNat - 'a'.toNat + 10)
  else if 'A' ≤ c && c ≤ 'F' then BitVec.ofNat 8 (c.toNat - 'A'.toNat + 10)
  else BitVec.ofNat 8 c.toNat - BitVec.ofNat 8 '0'.toNat

def convertHexToBigInt (hexStr : List Char) : Nat :=
  let text := trimPrefix hexStr
  if text.length % 2 ≠ 0 then
    Bytes.toNat ((text.take 1).map singleDigit ++ decodePairs (text.drop 1))
  else Bytes.toNat (decodePairs text)

def arrayToScalar (array : List Word) : Nat := setBits (array.map BitVec.toNat)

def wordBytes (w : Word) : Bytes := (Bytes.fill 8 w.toNat).reverse

def arrayToHex (array : List Word) : List Char :=
  let byteArray := (array.flatMap wordBytes).reverse.dropWhile (· == 0)
  if byteArray = [] then ['0', 'x', '0']
  else
    let buf := encodeToString byteArray
    '0' :: 'x' :: if buf.head? = some '0' then buf.drop 1 else buf

/- The one word of a limb, if it has one word at most and is not negative. -/
def singleWord : Option Int → Option Nat
  | none => some 0
  | some n =>
      match bigBits n with
      | [] => some 0
      | word :: rest => if n < 0 ∨ rest.any (· != 0) then none else some word

def arrayToScalarBigFast (array : List (Option Int)) : Option Int :=
  if array = [] then none else (array.mapM singleWord).map fun words => (setBits words : Int)

def arrayToScalarBigSlow : List (Option Int) → Except Failure Int
  | [] => .ok 0
  | none :: _ => .error .panic
  | some limb :: rest => arrayToScalarBigSlow rest >>= fun scalar => .ok (scalar * 2 ^ 64 + limb)

def arrayToScalarBig (array : List (Option Int)) : Except Failure Int :=
  match arrayToScalarBigFast array with
  | some v => .ok v
  | none => arrayToScalarBigSlow array

/- Twelve limbs of a number; the slow way is taken for a negative one. -/
def scalarToNodeValue (scalarIn : Int) : Fin 12 → Nat := fun i =>
  if scalarIn < 0 then (scalarIn / 2 ^ (64 * i.val) % 2 ^ 64).toNat
  else (bigBits scalarIn).getD i 0

-- The Databases

abbrev Store := List Char → Option (List Char)

def EriDb.get (table : Store) (key : NodeKey) : Fin 12 → Nat :=
  match table (convertBigIntToHex (arrayToScalar (List.ofFn key))) with
  | none | some [] => fun _ => 0
  | some data => scalarToNodeValue (convertHexToBigInt data)

def EriDb.insert (table : Store) (key : NodeKey) (value : Fin 12 → Option Int) :
    Except Failure Store :=
  arrayToScalarBig (List.ofFn value) >>= fun vConc =>
  .ok (Function.update table (convertBigIntToHex (arrayToScalar (List.ofFn key)))
    (some (convertBigIntToHex vConc)))

def EriCacheDb.get (table : Store) (key : NodeKey) : Fin 12 → Nat :=
  match table (arrayToHex (List.ofFn key)) with
  | none | some [] => fun _ => 0
  | some data => scalarToNodeValue (convertHexToBigInt data)

def EriCacheDb.insert (table : Store) (key : NodeKey) (value : Fin 12 → Option Int) :
    Except Failure Store :=
  arrayToScalarBig (List.ofFn value) >>= fun vConc =>
  .ok (Function.update table (arrayToHex (List.ofFn key))
    (some (arrayToHex ((bigBits vConc).map (BitVec.ofNat 64)))))

-- The Memory of the Words

theorem toNat_dropWhile_zero (bs : Bytes) :
    Bytes.toNat (bs.dropWhile (· == 0)) = Bytes.toNat bs := by
  induction bs with
  | nil => rfl
  | cons b bs ih =>
    by_cases hZero : b = 0
    · rw [List.dropWhile_cons_of_pos (by simp [hZero]), ih, hZero, Bytes.toNat_cons]
      simp
    · rw [List.dropWhile_cons_of_neg (by simpa using hZero)]

/- Without its leading zeros a byte string is that of its number. -/
theorem dropWhile_zero_eq (bs : Bytes) : bs.dropWhile (· == 0) = Bytes.ofNat (Bytes.toNat bs) := by
  rw [← toNat_dropWhile_zero bs]
  refine (Bytes.ofNat_toNat ?_).symm
  intro b rest hCons hZero
  have hHead := List.head?_dropWhile_not (· == 0) bs
  rw [hCons] at hHead
  simp [hZero] at hHead

theorem toNat_memory (array : List Word) :
    Bytes.toNat (array.flatMap wordBytes).reverse = arrayToScalar array := by
  induction array with
  | nil => rfl
  | cons w array ih =>
    rw [List.flatMap_cons, List.reverse_append, wordBytes, List.reverse_reverse,
      Bytes.toNat_append, ih, Bytes.toNat_fill, Bytes.length_fill w.isLt]
    simp only [arrayToScalar, setBits, List.map_cons, Nat.ofDigits_cons]
    omega

theorem hexOfNat_pos {n : Nat} (hPos : 0 < n) :
    Hex.ofNat n = Hex.ofNat (n / 16) ++ [Nat.digitChar (n % 16)] := by
  rw [Hex.ofNat, Nat.digits_def' (by decide) hPos, List.map_cons, List.reverse_cons]
  rfl

/- The digits of the bytes of a number are its digits, behind a zero at most. -/
theorem encodeToString_ofNat {n : Nat} (hPos : 0 < n) :
    encodeToString (Bytes.ofNat n) = Hex.ofNat n ∨
      encodeToString (Bytes.ofNat n) = '0' :: Hex.ofNat n := by
  induction n using Nat.strongRecOn with
  | ind n ih =>
    have hLast : encodeToString (Bytes.ofNat n) = encodeToString (Bytes.ofNat (n / 256)) ++
        [Nat.digitChar (n / 16 % 16)] ++ [Nat.digitChar (n % 16)] := by
      rw [Bytes.ofNat_pos hPos]
      refine (Hex.ofBytes_concat _ _).trans ?_
      rw [BitVec.toNat_ofNat, show n % 2 ^ 8 / 16 = n / 16 % 16 by omega,
        show n % 2 ^ 8 % 16 = n % 16 by omega]
      rfl
    rw [hLast, hexOfNat_pos hPos]
    rcases Nat.eq_zero_or_pos (n / 16) with hSmall | hMore
    · rw [hSmall, show n / 256 = 0 by omega]
      exact Or.inr rfl
    · rw [hexOfNat_pos hMore, Nat.div_div_eq_div_mul]
      rcases Nat.eq_zero_or_pos (n / 256) with hByte | hByte
      · rw [hByte]
        exact Or.inl rfl
      · rcases ih (n / 256) (by omega) hByte with hEq | hEq
        · exact Or.inl (by rw [hEq])
        · exact Or.inr (by rw [hEq]; rfl)

theorem head?_hexOfNat {n : Nat} (hPos : 0 < n) : (Hex.ofNat n).head? ≠ some '0' := by
  have hNone : Nat.digits 16 n ≠ [] := by
    rw [Nat.digits_ne_nil_iff_ne_zero]
    omega
  rw [Hex.ofNat, List.head?_reverse, List.getLast?_map, List.getLast?_eq_getLast_of_ne_nil hNone]
  have hLast := Nat.getLast_digit_ne_zero 16 (show n ≠ 0 by omega)
  have hLess := Nat.digits_lt_base (b := 16) (by decide) (List.getLast_mem hNone)
  intro hZero
  have hAll : ∀ d : Fin 16, Nat.digitChar d.val = '0' → d = 0 := by decide
  exact hLast (congrArg Fin.val (hAll ⟨_, hLess⟩ (Option.some.inj hZero)))

/- The memory of the words has the text of their number. -/
theorem arrayToHex_eq (array : List Word) :
    arrayToHex array = convertBigIntToHex (arrayToScalar array) := by
  have hSign : formatInt (arrayToScalar array) = formatUint (arrayToScalar array) :=
    if_neg (by omega)
  unfold arrayToHex convertBigIntToHex
  rw [dropWhile_zero_eq, toNat_memory, hSign]
  rcases Nat.eq_zero_or_pos (arrayToScalar array) with hZero | hPos
  · rw [hZero]
    rfl
  · have hSome : Bytes.ofNat (arrayToScalar array) ≠ [] := by
      rw [Ne, Bytes.ofNat_eq_nil_iff]
      omega
    have hText : formatUint (arrayToScalar array) = Hex.ofNat (arrayToScalar array) :=
      if_neg (by omega)
    simp only [if_neg hSome, hText]
    rcases encodeToString_ofNat hPos with hEq | hEq
    · rw [hEq, if_neg (head?_hexOfNat hPos)]
    · rw [hEq]
      rfl

-- Reading back

variable {text : List Char}

/- A text of digits, with small letters. -/
def SmallDigits (text : List Char) : Prop := ∀ c ∈ text, ∃ d, d < 16 ∧ c = Nat.digitChar d

theorem smallDigits_formatUint (v : Nat) : SmallDigits (formatUint v) := by
  intro c hChar
  unfold formatUint at hChar
  split at hChar
  · exact ⟨0, by decide, List.mem_singleton.1 hChar⟩
  · rcases List.mem_map.1 (List.mem_reverse.1 hChar) with ⟨d, hMem, rfl⟩
    exact ⟨d, Nat.digits_lt_base (by decide) hMem, rfl⟩

theorem decodePairs_spec (hDigits : SmallDigits text) (hEven : text.length % 2 = 0) :
    (decodePairs text).length * 2 = text.length ∧
      Bytes.toNat (decodePairs text) = Hex.toNat text := by
  fun_induction decodePairs text with
  | case1 c c' rest hPair ih =>
    simp only [List.length_cons] at hEven
    rcases ih (fun c hc => hDigits c (by simp [hc])) (by omega) with ⟨hLength, hNat⟩
    rcases hDigits c (by simp) with ⟨d, hHigh, rfl⟩
    rcases hDigits c' (by simp) with ⟨d', hLow, rfl⟩
    refine ⟨by simp only [List.length_cons]; omega, ?_⟩
    rw [Bytes.toNat_cons, hNat, Hex.toNat_cons, Hex.toNat_cons, BitVec.toNat_ofNat,
      Hex.digit_digitChar hHigh, Hex.digit_digitChar hLow, Nat.mod_eq_of_lt (by omega),
      List.length_cons, ← hLength, Nat.pow_succ, Nat.mul_comm _ 2, Nat.pow_mul]
    ring
  | case2 c c' rest hPair =>
    rcases hDigits c (by simp) with ⟨d, hHigh, rfl⟩
    rcases hDigits c' (by simp) with ⟨d', hLow, rfl⟩
    exact absurd (by simp [Tx.isHexDigit_digitChar hHigh, Tx.isHexDigit_digitChar hLow]) hPair
  | case3 text hShort =>
    rcases text with _ | ⟨c, _ | ⟨c', rest⟩⟩
    · exact ⟨rfl, rfl⟩
    · cases hEven
    · exact absurd rfl (hShort c c' rest)

theorem toNat_singleDigit {d : Nat} (hDigit : d < 16) :
    (singleDigit (Nat.digitChar d)).toNat = d := by
  have hAll : ∀ d : Fin 16, (singleDigit (Nat.digitChar d.val)).toNat = d.val := by decide
  exact hAll ⟨d, hDigit⟩

theorem convertHexToBigInt_text (n : Nat) : convertHexToBigInt (convertBigIntToHex n) = n := by
  have hSign : formatInt n = formatUint n := if_neg (by omega)
  have hDigits := smallDigits_formatUint n
  have hNumber := Tx.toNat_formatUint n
  simp only [convertHexToBigInt, convertBigIntToHex, hSign, trimPrefix]
  generalize formatUint n = text at hDigits hNumber
  split
  · cases text with
    | nil => contradiction
    | cons c rest =>
      simp only [List.length_cons] at *
      rcases @decodePairs_spec rest (fun c hc => hDigits c (by simp [hc])) (by omega) with
        ⟨hLength, hNat⟩
      rcases hDigits c (by simp) with ⟨d, hDigit, rfl⟩
      rw [Hex.toNat_cons, Hex.digit_digitChar hDigit, ← hLength, Nat.mul_comm _ 2,
        Nat.pow_mul] at hNumber
      simp only [List.take_succ_cons, List.take_zero, List.map_cons, List.map_nil,
        List.singleton_append, List.drop_succ_cons, List.drop_zero, Bytes.toNat_cons,
        toNat_singleDigit hDigit, hNat]
      exact hNumber
  · rw [(decodePairs_spec hDigits (by omega)).2, hNumber]

-- Both Databases

theorem ofDigits_div_mod {b : Nat} {words : List Nat} (hWords : ∀ word ∈ words, word < b)
    (i : Nat) : Nat.ofDigits b words / b ^ i % b = words.getD i 0 := by
  induction words generalizing i with
  | nil => simp
  | cons word words ih =>
    have hWord := hWords word (by simp)
    rw [Nat.ofDigits_cons]
    cases i with
    | zero => simp [Nat.mod_eq_of_lt hWord]
    | succ i =>
      rw [Nat.pow_succ', ← Nat.div_div_eq_div_mul, Nat.add_mul_div_left _ _ (by omega),
        Nat.div_eq_of_lt hWord, Nat.zero_add, ih fun word hMem => hWords word (by simp [hMem])]
      rfl

theorem singleWord_word (w : Word) : singleWord (some (w.toNat : Int)) = some w.toNat := by
  have hWord := w.isLt
  simp only [singleWord, bigBits, Int.natAbs_natCast]
  rcases Nat.eq_zero_or_pos w.toNat with hZero | hPos
  · rw [hZero]
    rfl
  · rw [Nat.digits_of_lt _ _ (by omega) hWord]
    simp only [List.any_nil, Bool.false_eq_true, or_false]
    exact if_neg (by omega)

/- The limbs of a value, as the callers pass them. -/
def bigLimbs (value : Fin 12 → Word) : Fin 12 → Option Int := fun i => some ((value i).toNat : Int)

theorem mapM_singleWord (words : List Word) :
    (words.map fun w => some (w.toNat : Int)).mapM singleWord =
      some (words.map BitVec.toNat) := by
  induction words with
  | nil => rfl
  | cons w words ih =>
    rw [List.map_cons, List.mapM_cons, singleWord_word, ih]
    rfl

theorem arrayToScalarBig_bigLimbs (value : Fin 12 → Word) :
    arrayToScalarBig (List.ofFn (bigLimbs value)) =
      .ok (arrayToScalar (List.ofFn value) : Int) := by
  have hWords : (List.ofFn (bigLimbs value)).mapM singleWord =
      some ((List.ofFn value).map BitVec.toNat) := by
    rw [show bigLimbs value = (fun w => some (w.toNat : Int)) ∘ value from rfl, ← List.map_ofFn]
    exact mapM_singleWord (List.ofFn value)
  simp only [arrayToScalarBig, arrayToScalarBigFast, hWords]
  rfl

theorem arrayToHex_bigBits (n : Nat) :
    arrayToHex ((bigBits n).map (BitVec.ofNat 64)) = convertBigIntToHex n := by
  have hWords : ((bigBits n).map (BitVec.ofNat 64)).map BitVec.toNat = bigBits n := by
    rw [List.map_map]
    refine (List.map_congr_left fun word hMem => ?_).trans (List.map_id _)
    exact Nat.mod_eq_of_lt (Nat.digits_lt_base (by decide) hMem)
  rw [arrayToHex_eq, arrayToScalar, hWords, setBits, bigBits, Nat.ofDigits_digits,
    Int.natAbs_natCast]

theorem scalarToNodeValue_limbs (value : Fin 12 → Word) :
    scalarToNodeValue (arrayToScalar (List.ofFn value)) = fun i => (value i).toNat := by
  funext i
  simp only [scalarToNodeValue, bigBits, Int.natAbs_natCast]
  rw [if_neg (by omega), Nat.getD_digits _ _ (by decide), arrayToScalar, setBits,
    ofDigits_div_mod (List.forall_mem_map.2 fun w _ => w.isLt), List.map_ofFn,
    List.getD_eq_getElem _ _ (by simp), List.getElem_ofFn]
  rfl

/- A node is stored alike by both databases, and each reads back what was stored. -/
theorem node_stored_alike (table : Store) (key : NodeKey) (value : Fin 12 → Word) :
    ∃ table', EriDb.insert table key (bigLimbs value) = .ok table' ∧
      EriCacheDb.insert table key (bigLimbs value) = .ok table' ∧
      EriDb.get table' key = (fun i => (value i).toNat) ∧
      EriCacheDb.get table' key = fun i => (value i).toNat := by
  have hRead : scalarToNodeValue (convertHexToBigInt
      (convertBigIntToHex (arrayToScalar (List.ofFn value)))) = fun i => (value i).toNat := by
    rw [convertHexToBigInt_text, scalarToNodeValue_limbs]
  refine ⟨_, by rw [EriDb.insert, arrayToScalarBig_bigLimbs, ok_bind], ?_, ?_, ?_⟩
  · rw [EriCacheDb.insert, arrayToScalarBig_bigLimbs, ok_bind, arrayToHex_bigBits, arrayToHex_eq]
  · simp only [EriDb.get, Function.update_self]
    exact hRead
  · simp only [EriCacheDb.get, arrayToHex_eq, Function.update_self]
    exact hRead

end XLayerErigon.Smt
