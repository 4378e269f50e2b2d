import XLayerErigon.Data.Bytes
import XLayerErigon.Go

/-
  The hash of an L2 transaction in the block info tree.

  The fields are written as hexadecimal digits, one behind the other, and the text is hashed.
  Writing a field fails if it has a character that is not a digit; none of the fields of a
  transaction has one.

  Main results:
    * `allDigits_addressHex`
    * `AllDigits.isValid`
-/

namespace XLayerErigon.Tx

-- Hexadecimal Digits

/- The hash functions that texts go through. -/
structure Hashing where
  legacyKeccak256 : List Char → Fin 32 → Byte
  hashContractBytecodeBigInt : List Char → Nat

def isHexDigit (c : Char) : Bool :=
  ('0' ≤ c && c ≤ '9') || ('a' ≤ c && c ≤ 'f') || ('A' ≤ c && c ≤ 'F')

def trimPrefix : List Char → List Char
  | '0' :: 'x' :: rest => rest
  | text => text

def isValid (text : List Char) : Bool := (trimPrefix text).all isHexDigit

/- The digits of a number to the base 16. -/
def formatUint (v : Nat) : List Char :=
  if v = 0 then ['0']
  else ((Nat.digits 16 v).map Nat.digitChar).reverse

def formatInt (v : Int) : List Char :=
  if v < 0 then '-' :: formatUint v.natAbs
  else formatUint v.natAbs

def encodeToString (data : Bytes) : List Char :=
  data.flatMap (fun b => [Nat.digitChar (b.toNat / 16), Nat.digitChar (b.toNat % 16)])

def encodeToHex (data : Bytes) : List Char := '0' :: 'x' :: encodeToString data

/- Whether the hash raises the letter at a place. -/
def raised (hash : Fin 32 → Byte) (i : Nat) : Bool :=
  let hashByte := hash (Fin.ofNat 32 (i / 2))
  if i % 2 = 0 then 7 < hashByte.toNat / 16
  else 7 < hashByte.toNat % 16

def checksumDigit (hash : Fin 32 → Byte) (place : Char × Nat) : Char :=
  if '9' < place.1 && raised hash place.2 then
    Char.ofNat (place.1.toNat - 32)
  else place.1

/- The digits of an address, with the letters in upper case where the hash of the digits says so. -/
def addressHex (hashing : Hashing) (a : BitVec 160) : List Char :=
  let digits := encodeToString (Bytes.fill 20 a.toNat)
  '0' :: 'x' :: digits.zipIdx.map (checksumDigit (hashing.legacyKeccak256 digits))

/- The types that a field may have. -/
inductive Param where
  | int (v : Int)
  | uint (v : Nat)
  | bigInt (v : Int)
  | uint256 (v : Option (BitVec 256))
  | bytes (v : Bytes)
  | address (v : BitVec 160)
  | string (v : List Char)
  | other

def Param.text (hashing : Hashing) : Param → Option (List Char)
  | .int v => some (formatInt v)
  | .uint v => some (formatUint v)
  | .bigInt v => some (formatInt v)
  | .uint256 none => some ['0']
  | .uint256 (some v) =>
      some ('0' :: 'x' :: formatUint v.toNat)
  | .bytes v => some (encodeToHex v)
  | .address v => some (addressHex hashing v)
  | .string v => some v
  | .other => none

def padStart (text : List Char) (length : Nat) (pad : Char) : List Char :=
  if length ≤ text.length then text
  else List.replicate (length - text.length) pad ++ text

def evenDigits (text : List Char) : List Char :=
  if text.length % 2 = 1 then '0' :: text else text

def formatL2TxHashParam (hashing : Hashing) (param : Param)
    (paramLength : Nat) : Except Failure (List Char) :=
  match param.text hashing with
  | none => .error (.error "unsupported parameter type")
  | some text =>
    if isValid (evenDigits (trimPrefix text)) then
      .ok (padStart (evenDigits (trimPrefix text)) (paramLength * 2) '0')
    else .error (.error "invalid hex string")

/- A missing receiver means that a contract is deployed. -/
def toPart (hashing : Hashing) :
    Option (BitVec 160) → Except Failure (List Char)
  | none => .ok ['0', '1']
  | some toAddress =>
      formatL2TxHashParam hashing (.string (addressHex hashing toAddress)) 20 >>=
      fun part => .ok ('0' :: '0' :: part)

def dataPart (hashing : Hashing) (dataStr : List Char)
    (dataLength : Nat) : Except Failure (List Char) :=
  if 0 < dataLength then
    formatL2TxHashParam hashing (.string dataStr) dataLength
  else .ok []

def isChain (chainId : Option Int) : Bool :=
  match chainId with
  | none => false
  | some id => id != 0

def chainIDPart (hashing : Hashing) (chainId : Option Int) : Except Failure (List Char) :=
  match chainId with
  | none => .ok []
  | some id =>
    if id = 0 then .ok []
    else formatL2TxHashParam hashing (.bigInt id) 8

def computeL2TxHash (hashing : Hashing) (chainId : Option Int)
    (value gasPrice : Option (BitVec 256)) (nonce txGasLimit : BitVec 64)
    (toAddress : Option (BitVec 160)) (fromAddress : BitVec 160)
    (data : Bytes) : Except Failure (BitVec 256) :=
  let txType :=
    if isChain chainId then ['0', '1'] else ['0', '0']
  let dataStr := trimPrefix (encodeToHex data)
  let dataLength := (dataStr.length + 1) / 2
  formatL2TxHashParam hashing (.uint nonce.toNat) 8 >>= fun noncePart =>
  formatL2TxHashParam hashing (.uint256 gasPrice) 32 >>= fun gasPricePart =>
  formatL2TxHashParam hashing (.uint txGasLimit.toNat) 8 >>= fun gasLimitPart =>
  toPart hashing toAddress >>= fun receiver =>
  formatL2TxHashParam hashing (.uint256 value) 32 >>= fun valuePart =>
  formatL2TxHashParam hashing (.int dataLength) 3 >>= fun dataLengthPart =>
  dataPart hashing dataStr dataLength >>= fun content =>
  chainIDPart hashing chainId >>= fun chain =>
  formatL2TxHashParam hashing (.string (addressHex hashing fromAddress)) 20 >>= fun fromPart =>
  .ok (BitVec.ofNat 256
    (hashing.hashContractBytecodeBigInt
      (txType ++ noncePart ++ gasPricePart ++ gasLimitPart ++
        receiver ++ valuePart ++ dataLengthPart ++ content ++ chain ++ fromPart)))

-- Digits only

def AllDigits (text : List Char) : Prop := ∀ c ∈ text, isHexDigit c = true

variable (hashing : Hashing)

theorem isHexDigit_digitChar {d : Nat} (hDigit : d < 16) : isHexDigit (Nat.digitChar d) = true := by
  have hAll : ∀ d : Fin 16, isHexDigit (Nat.digitChar d.val) = true := by decide
  exact hAll ⟨d, hDigit⟩

theorem allDigits_formatUint (v : Nat) : AllDigits (formatUint v) := by
  intro c hChar
  unfold formatUint at hChar
  split at hChar
  · rw [List.mem_singleton.1 hChar]
    decide
  · rcases List.mem_map.1 (List.mem_reverse.1 hChar) with ⟨d, hMem, rfl⟩
    exact isHexDigit_digitChar (Nat.digits_lt_base (by decide) hMem)

theorem allDigits_encodeToString (data : Bytes) : AllDigits (encodeToString data) := by
  intro c hChar
  rcases List.mem_flatMap.1 hChar with ⟨b, _, hByte⟩
  have hLt := b.isLt
  simp only [List.mem_cons, List.not_mem_nil, or_false] at hByte
  rcases hByte with rfl | rfl
  · exact isHexDigit_digitChar (by omega)
  · exact isHexDigit_digitChar (by omega)

/- A lower-case digit stays one, in upper case or not. -/
theorem isHexDigit_checksumDigit (hash : Fin 32 → Byte) {d : Nat} (hDigit : d < 16) (i : Nat) :
    isHexDigit (checksumDigit hash (Nat.digitChar d, i)) = true := by
  have hUpper : ∀ d : Fin 16, '9' < Nat.digitChar d.val →
        isHexDigit (Char.ofNat ((Nat.digitChar d.val).toNat - 32)) = true := by
    decide
  unfold checksumDigit
  split
  · rename_i hCase
    have hLetter := (Bool.and_eq_true_iff.1 hCase).1
    exact hUpper ⟨d, hDigit⟩ (of_decide_eq_true hLetter)
  · exact isHexDigit_digitChar hDigit

theorem encodeToString_digitChar {data : Bytes} {c : Char} (hChar : c ∈ encodeToString data) :
    ∃ d, d < 16 ∧ c = Nat.digitChar d := by
  rcases List.mem_flatMap.1 hChar with ⟨b, _, hByte⟩
  have hLt := b.isLt
  simp only [List.mem_cons, List.not_mem_nil, or_false] at hByte
  rcases hByte with rfl | rfl
  · exact ⟨b.toNat / 16, by omega, rfl⟩
  · exact ⟨b.toNat % 16, by omega, rfl⟩

theorem allDigits_addressHex (a : BitVec 160) : AllDigits (trimPrefix (addressHex hashing a)) := by
  intro c hChar
  simp only [addressHex, trimPrefix] at hChar
  rcases List.mem_map.1 hChar with ⟨⟨low, i⟩, hMem, rfl⟩
  rcases encodeToString_digitChar (List.fst_mem_of_mem_zipIdx hMem) with ⟨d, hDigit, hLow⟩
  rw [show low = Nat.digitChar d from hLow]
  exact isHexDigit_checksumDigit _ hDigit i

theorem trimPrefix_sublist (text : List Char) : (trimPrefix text).Sublist text := by
  unfold trimPrefix
  split
  · exact ((List.Sublist.refl _).cons _).cons _
  · exact List.Sublist.refl _

theorem AllDigits.trimPrefix {text : List Char} (hDigits : AllDigits text) :
    AllDigits (trimPrefix text) :=
  fun c hChar => hDigits c ((trimPrefix_sublist text).subset hChar)

theorem AllDigits.evenDigits {text : List Char} (hDigits : AllDigits text) :
    AllDigits (evenDigits text) := by
  intro c hChar
  unfold Tx.evenDigits at hChar
  split at hChar
  · rcases List.mem_cons.1 hChar with rfl | hRest
    · decide
    · exact hDigits c hRest
  · exact hDigits c hChar

theorem AllDigits.isValid {text : List Char} (hDigits : AllDigits text) : isValid text = true :=
  List.all_eq_true.2 hDigits.trimPrefix

end XLayerErigon.Tx
