import XLayerErigon.Go
import XLayerErigon.Data.Bytes

/-
  The RLP encoding of a list of byte strings.

  `decodeBytes` is the stream decoder at the type of slices of byte slices.  Its error values are
  only logged by the callers, so a failed call is `none`.

  Main results:
    * `Rlp.decodeBytes_encodeToBytes`
    * `Rlp.spans_of_decodeBytes`
-/

namespace XLayerErigon.Rlp

-- Decoding

inductive Kind where
  | byte (byteval : Byte)
  | string
  | list
  deriving DecidableEq

/-
  A big-endian number of `size` bytes, with at least one.  A number of several bytes has no
  leading zero.
-/
def readUint (size : Nat) (input : Bytes) : Option (Nat × Bytes) :=
  if input.length < size then none
  else if 2 ≤ size ∧ input.head? = some 0 then none
  else some (Bytes.toNat (input.take size), input.drop size)

/- The size that follows the tag of a long value. -/
def readSize (kind : Kind) (sizeSize : Nat) (input : Bytes) : Option (Kind × Nat × Bytes) :=
  match readUint sizeSize input with
  | none => none
  | some (size, rest) =>
    if size < 56 then none else some (kind, size, rest)

/- The kind and the size of the next value. -/
def readKind : Bytes → Option (Kind × Nat × Bytes)
  | [] => none
  | b :: rest =>
      if b.toNat < 0x80 then some (.byte b, 0, rest)
      else if b.toNat < 0xB8 then
        some (.string, b.toNat - 0x80, rest)
      else if b.toNat < 0xC0 then
        readSize .string (b.toNat - 0xB7) rest
      else if b.toNat < 0xF8 then
        some (.list, b.toNat - 0xC0, rest)
      else readSize .list (b.toNat - 0xF7) rest

/- The value has to fit into the rest of the input, or of the list that it is read from. -/
def kind (input : Bytes) : Option (Kind × Nat × Bytes) :=
  match readKind input with
  | none => none
  | some (kind, size, rest) =>
    if rest.length < size then none
    else some (kind, size, rest)

/- One string, and the input behind it. -/
def decodeString (input : Bytes) : Option (Bytes × Bytes) :=
  match kind input with
  | some (.byte b, _, rest) => some ([b], rest)
  | some (.string, size, rest) =>
    if size = 1 ∧ (rest.headD 0).toNat < 128 then none
    else some (rest.take size, rest.drop size)
  | _ => none

/-
  The strings of a list, up to its end.  Each string takes a byte at least, so the length of the
  list is enough fuel.
-/
def decodeStrings :
    Nat → Bytes → Option (List Bytes)
  | _, [] => some []
  | 0, _ :: _ => none
  | fuel + 1, b :: input =>
      match decodeString (b :: input) with
      | none => none
      | some (first, rest) =>
          (decodeStrings fuel rest).map (first :: ·)

/- `DecodeBytes`, into a slice of byte slices. -/
def decodeBytes (b : Bytes) : Option (List Bytes) :=
  match kind b with
  | some (.list, size, rest) =>
    match decodeStrings size (rest.take size) with
    | none => none
    | some fields =>
      if 0 < (rest.drop size).length then none
      else some fields
  | _ => none

section Tags

variable {b : Byte} (rest : Bytes)

theorem readKind_byte (hLt : b.toNat < 0x80) : readKind (b :: rest) = some (.byte b, 0, rest) :=
  if_pos hLt

theorem readKind_shortString (hLe : 0x80 ≤ b.toNat) (hLt : b.toNat < 0xB8) :
    readKind (b :: rest) = some (.string, b.toNat - 0x80, rest) := by
  rw [readKind, if_neg (by omega), if_pos hLt]

theorem readKind_longString (hLe : 0xB8 ≤ b.toNat) (hLt : b.toNat < 0xC0) :
    readKind (b :: rest) = readSize .string (b.toNat - 0xB7) rest := by
  rw [readKind, if_neg (by omega), if_neg (by omega), if_pos hLt]

theorem readKind_shortList (hLe : 0xC0 ≤ b.toNat) (hLt : b.toNat < 0xF8) :
    readKind (b :: rest) = some (.list, b.toNat - 0xC0, rest) := by
  rw [readKind, if_neg (by omega), if_neg (by omega), if_neg (by omega), if_pos hLt]

theorem readKind_longList (hLe : 0xF8 ≤ b.toNat) :
    readKind (b :: rest) = readSize .list (b.toNat - 0xF7) rest := by
  rw [readKind, if_neg (by omega), if_neg (by omega), if_neg (by omega), if_neg (by omega)]

end Tags

variable {input rest : Bytes} {size : Nat}

theorem kind_of_readKind {k : Kind} (hRead : readKind input = some (k, size, rest))
    (hFits : size ≤ rest.length) : kind input = some (k, size, rest) := by
  simp [kind, hRead]
  exact hFits

def puthead (smalltag largetag size : Nat) : Bytes :=
  if size < 56 then [BitVec.ofNat 8 (smalltag + size)]
  else
    BitVec.ofNat 8 (largetag + (Bytes.ofNat size).length) :: Bytes.ofNat size

def encodeString (b : Bytes) : Bytes :=
  if b.length = 1 ∧ (b.headD 0).toNat ≤ 0x7F then b
  else puthead 0x80 0xB7 b.length ++ b

/- `EncodeToBytes`, of a slice of byte slices. -/
def encodeToBytes (fields : List Bytes) : Bytes :=
  puthead 0xC0 0xF7 (fields.flatMap encodeString).length ++ fields.flatMap encodeString

-- Round Trip

/- The number of bytes of a size below `2 ^ 64`. -/
theorem length_ofNat_size (hLong : 56 ≤ size) (hSize : size < 2 ^ 64) :
    1 ≤ (Bytes.ofNat size).length ∧ (Bytes.ofNat size).length ≤ 8 := by
  refine ⟨?_, Bytes.length_ofNat_le (by simpa using hSize)⟩
  rw [Nat.one_le_iff_ne_zero]
  intro hNil
  have hZero := Bytes.ofNat_eq_nil_iff.1 (List.eq_nil_of_length_eq_zero hNil)
  omega

theorem readUint_ofNat (hPos : 0 < size) (rest : Bytes) :
    readUint (Bytes.ofNat size).length (Bytes.ofNat size ++ rest) = some (size, rest) := by
  cases hCons : Bytes.ofNat size with
  | nil =>
    have hZero := Bytes.ofNat_eq_nil_iff.1 hCons
    omega
  | cons b bs =>
    have hHead := Bytes.ofNat_head_ne_zero hCons
    have hNat : Bytes.toNat (b :: bs) = size := by rw [← hCons, Bytes.toNat_ofNat]
    simp [readUint, hNat]
    exact fun _ => hHead

theorem readSize_ofNat (kind : Kind) (hLong : 56 ≤ size) (rest : Bytes) :
    readSize kind (Bytes.ofNat size).length (Bytes.ofNat size ++ rest) =
      some (kind, size, rest) := by
  have hShort : ¬ size < 56 := by omega
  simp [readSize, readUint_ofNat (by omega : 0 < size) rest, hShort]

theorem toNat_tag {tag : Nat} (hTag : tag < 256) : (BitVec.ofNat 8 tag).toNat = tag := by
  rw [BitVec.toNat_ofNat]
  exact Nat.mod_eq_of_lt hTag

theorem kind_puthead_list (hSize : size < 2 ^ 64) {rest : Bytes} (hFits : size ≤ rest.length) :
    kind (puthead 0xC0 0xF7 size ++ rest) = some (.list, size, rest) := by
  refine kind_of_readKind ?_ hFits
  by_cases hShort : size < 56
  · have hTag := @toNat_tag (0xC0 + size) (by omega)
    rw [puthead, if_pos hShort, List.singleton_append,
      readKind_shortList rest (by omega) (by omega), hTag, Nat.add_sub_cancel_left]
  · have hLong : 56 ≤ size := by omega
    have hBytes := length_ofNat_size hLong hSize
    have hTag := @toNat_tag (0xF7 + (Bytes.ofNat size).length) (by omega)
    rw [puthead, if_neg hShort, List.cons_append, readKind_longList _ (by omega), hTag,
      Nat.add_sub_cancel_left]
    exact readSize_ofNat .list hLong rest

theorem kind_puthead_string {size : Nat} (hSize : size < 2 ^ 64) {rest : Bytes}
    (hFits : size ≤ rest.length) :
    kind (puthead 0x80 0xB7 size ++ rest) = some (.string, size, rest) := by
  refine kind_of_readKind ?_ hFits
  by_cases hShort : size < 56
  · have hTag := @toNat_tag (0x80 + size) (by omega)
    rw [puthead, if_pos hShort, List.singleton_append,
      readKind_shortString rest (by omega) (by omega), hTag, Nat.add_sub_cancel_left]
  · have hLong : 56 ≤ size := by omega
    have hBytes := length_ofNat_size hLong hSize
    have hTag := @toNat_tag (0xB7 + (Bytes.ofNat size).length) (by omega)
    rw [puthead, if_neg hShort, List.cons_append, readKind_longString _ (by omega) (by omega), hTag,
      Nat.add_sub_cancel_left]
    exact readSize_ofNat .string hLong rest

theorem decodeString_encodeString (b rest : Bytes) (hSize : b.length < 2 ^ 64) :
    decodeString (encodeString b ++ rest) = some (b, rest) := by
  by_cases hByte : b.length = 1 ∧ (b.headD 0).toNat ≤ 0x7F
  · rcases List.length_eq_one_iff.1 hByte.1 with ⟨b, rfl⟩
    have hLt : b.toNat < 0x80 := by
      have hLe : b.toNat ≤ 0x7F := hByte.2
      omega
    have hKind : kind (b :: rest) = some (.byte b, 0, rest) :=
      kind_of_readKind (readKind_byte rest hLt) (Nat.zero_le _)
    rw [encodeString, if_pos hByte, List.singleton_append, decodeString, hKind]
  · have hKind := @kind_puthead_string b.length hSize (b ++ rest) (by simp)
    have hCanonical : ¬ (b.length = 1 ∧ ((b ++ rest).headD 0).toNat < 128) := by
      rintro ⟨hOne, hLt⟩
      rcases List.length_eq_one_iff.1 hOne with ⟨b, rfl⟩
      exact hByte ⟨rfl, Nat.le_of_lt_succ hLt⟩
    rw [encodeString, if_neg hByte, List.append_assoc, decodeString, hKind]
    simp only [if_neg hCanonical, List.take_left, List.drop_left]

theorem length_encodeString (b : Bytes) :
    1 ≤ (encodeString b).length ∧ b.length ≤ (encodeString b).length := by
  by_cases hByte : b.length = 1 ∧ (b.headD 0).toNat ≤ 0x7F
  · rw [encodeString, if_pos hByte]
    exact ⟨hByte.1.ge, le_rfl⟩
  · have hHead : 1 ≤ (puthead 0x80 0xB7 b.length).length := by
      unfold puthead
      split <;> simp
    rw [encodeString, if_neg hByte, List.length_append]
    omega

theorem decodeStrings_encode (fields : List Bytes) (fuel : Nat)
    (hSize : (fields.flatMap encodeString).length < 2 ^ 64)
    (hFuel : (fields.flatMap encodeString).length ≤ fuel) :
    decodeStrings fuel (fields.flatMap encodeString) = some fields := by
  induction fields generalizing fuel with
  | nil => cases fuel <;> rfl
  | cons b fields hFields =>
    have hLength := length_encodeString b
    rw [List.flatMap_cons] at hSize hFuel ⊢
    rw [List.length_append] at hSize hFuel
    have hString := decodeString_encodeString b (fields.flatMap encodeString) (by omega)
    cases hCons : encodeString b ++ fields.flatMap encodeString with
    | nil =>
      have hNil := (List.append_eq_nil_iff.1 hCons).1
      rw [hNil] at hLength
      simp at hLength
    | cons tag input =>
      rw [hCons] at hString
      cases fuel with
      | zero => omega
      | succ fuel => simp [decodeStrings, hString, hFields fuel (by omega) (by omega)]

theorem decodeBytes_encodeToBytes (fields : List Bytes)
    (hSize : (fields.flatMap encodeString).length < 2 ^ 64) :
    decodeBytes (encodeToBytes fields) = some fields := by
  have hKind := kind_puthead_list hSize (le_refl _)
  have hStrings := decodeStrings_encode fields _ hSize (le_refl _)
  rw [decodeBytes, encodeToBytes, hKind]
  simp only [List.take_length, hStrings, List.drop_length, List.length_nil, lt_irrefl, if_false]

-- The Span of a List

/-
  The tag of a list, with the size behind a long tag, gives the number of bytes that follow the
  tag.
-/
inductive Spans (tag : Byte) (rest : Bytes) : Prop where
  | short (hLe : 0xC0 ≤ tag.toNat) (hLt : tag.toNat < 0xF8)
      (hLength : rest.length = tag.toNat - 0xC0)
  | long (hLe : 0xF8 ≤ tag.toNat) (hSize : tag.toNat - 0xF7 ≤ rest.length)
      (hLength : rest.length = tag.toNat - 0xF7 + Bytes.toNat (rest.take (tag.toNat - 0xF7)))

theorem Spans.le_tag {tag : Byte} {rest : Bytes} (hSpans : Spans tag rest) : 0xC0 ≤ tag.toNat := by
  cases hSpans with
  | short hLe hLt hLength => exact hLe
  | long hLe hSize hLength => omega

theorem readSize_eq_some {k k' : Kind} {sizeSize size : Nat}
    (hRead : readSize k sizeSize input = some (k', size, rest)) :
    sizeSize ≤ input.length ∧
      size = Bytes.toNat (input.take sizeSize) ∧ rest = input.drop sizeSize ∧ k' = k := by
  unfold readSize readUint at hRead
  by_cases hShort : input.length < sizeSize
  · simp [hShort] at hRead
  · by_cases hZero : 2 ≤ sizeSize ∧ input.head? = some 0
    · simp [hShort, hZero] at hRead
    · rw [if_neg hShort, if_neg hZero] at hRead
      by_cases hSmall : Bytes.toNat (input.take sizeSize) < 56
      · simp [hSmall] at hRead
      · simp [hSmall] at hRead
        rcases hRead with ⟨rfl, rfl, rfl⟩
        exact ⟨by omega, rfl, rfl, rfl⟩

theorem readKind_of_kind {k : Kind} (hKind : kind input = some (k, size, rest)) :
    readKind input = some (k, size, rest) ∧ size ≤ rest.length := by
  cases hRead : readKind input with
  | none => simp [kind, hRead] at hKind
  | some head =>
    rcases head with ⟨k', size', rest'⟩
    by_cases hShort : rest'.length < size'
    · simp [kind, hRead, hShort] at hKind
    · simp [kind, hRead, hShort] at hKind
      rcases hKind with ⟨rfl, rfl, rfl⟩
      exact ⟨rfl, by omega⟩

/- The list that is decoded takes up the whole input. -/
theorem kind_of_decodeBytes {b : Bytes} {fields : List Bytes}
    (hDecode : decodeBytes b = some fields) :
    ∃ rest, readKind b = some (.list, rest.length, rest) := by
  cases hKind : kind b with
  | none => simp [decodeBytes, hKind] at hDecode
  | some head =>
    rcases head with ⟨k, size, rest⟩
    rcases readKind_of_kind hKind with ⟨hRead, hFits⟩
    cases k with
    | byte byteval => simp [decodeBytes, hKind] at hDecode
    | string => simp [decodeBytes, hKind] at hDecode
    | list =>
      cases hStrings : decodeStrings size (rest.take size) with
      | none => simp [decodeBytes, hKind, hStrings] at hDecode
      | some strings =>
        simp [decodeBytes, hKind, hStrings] at hDecode
        have hSize : size = rest.length := by omega
        exact ⟨rest, hSize ▸ hRead⟩

theorem readKind_ne_list {tag : Byte} {rest content : Bytes} (hString : tag.toNat < 0xC0) :
    readKind (tag :: rest) ≠ some (.list, size, content) := by
  intro hRead
  rcases Nat.lt_or_ge tag.toNat 0x80 with hByte | hGe
  · rw [readKind_byte rest hByte] at hRead
    simp at hRead
  · rcases Nat.lt_or_ge tag.toNat 0xB8 with hShort | hLong
    · rw [readKind_shortString rest hGe hShort] at hRead
      simp at hRead
    · rw [readKind_longString rest hLong hString] at hRead
      have hKind := (readSize_eq_some hRead).2.2.2
      cases hKind

/- A list that decodes is exactly as long as its head says. -/
theorem spans_of_decodeBytes {b : Bytes} {fields : List Bytes}
    (hDecode : decodeBytes b = some fields) : ∃ tag rest, b = tag :: rest ∧ Spans tag rest := by
  rcases kind_of_decodeBytes hDecode with ⟨content, hRead⟩
  cases b with
  | nil => simp [readKind] at hRead
  | cons tag rest =>
    refine ⟨tag, rest, rfl, ?_⟩
    rcases Nat.lt_or_ge tag.toNat 0xC0 with hString | hList
    · exact absurd hRead (readKind_ne_list hString)
    · rcases Nat.lt_or_ge tag.toNat 0xF8 with hLt | hLe
      · rw [readKind_shortList rest hList hLt] at hRead
        simp at hRead
        rcases hRead with ⟨hLength, rfl⟩
        exact .short hList hLt hLength.symm
      · rw [readKind_longList rest hLe] at hRead
        rcases readSize_eq_some hRead with ⟨hSize, hLength, hDrop, -⟩
        rw [hDrop, List.length_drop] at hLength
        exact .long hLe hSize (by omega)

end XLayerErigon.Rlp
