import Mathlib
import XLayerErigon.Trie.Compressed

/-
  Node keys of the sparse Merkle tree and the paths they spell.

  A key is four 64-bit words.  Its path takes one bit of each word in turn, lowest bits first, so
  bit `j` of the path is bit `j / 4` of word `j % 4`.  Go shifts a word by 64 or more to zero, as
  the shifts of `BitVec` do.

  Main results:
    * `NodeKey.getPath_eq_map`
    * `NodeKey.joinKey_removeKeyBits`
    * `NodeKey.nodeKeyFromPath_getPath`
    * `NodeKey.key_laws`
    * `NodeKey.scalarToRoot_toBigInt`
-/

-- Node Keys

namespace XLayerErigon.Smt

abbrev Word := BitVec 64

/- A key, or a hash, of the tree: four words. -/
abbrev NodeKey := Fin 4 → Word

namespace NodeKey

/- The all-zero key, which is also the empty root. -/
def zero : NodeKey := fun _ => 0

/- The word that marks a leaf in the capacity of a node. -/
def first (nk : NodeKey) : Word := nk 0

def print (nk : NodeKey) : String :=
  "[" ++ String.intercalate " " ((List.ofFn nk).map (fun w => toString w.toNat)) ++ "]"

def isZero (nk : NodeKey) : Bool := nk 0 == 0 && nk 1 == 0 && nk 2 == 0 && nk 3 == 0

def isEqualTo (nk nk2 : NodeKey) : Bool :=
  nk 0 == nk2 0 && nk 1 == nk2 1 && nk 2 == nk2 2 && nk 3 == nk2 3

variable {d : Nat} (k : NodeKey)

theorem isEqualTo_iff (nk nk2 : NodeKey) : nk.isEqualTo nk2 = true ↔ nk = nk2 := by
  simp [isEqualTo, funext_iff, Fin.forall_fin_succ, and_assoc]

theorem isZero_iff (nk : NodeKey) : nk.isZero = true ↔ nk = zero := isEqualTo_iff nk zero

@[simp] theorem isZero_zero : isZero zero = true := by rw [isZero_iff]

-- Paths

/- The word that holds bit `j` of a path. -/
def lane (j : Nat) : Fin 4 := ⟨j % 4, Nat.mod_lt _ (by decide)⟩

def pathBit (k : NodeKey) (j : Nat) : Bool := (k (lane j)).getLsbD (j / 4)

/-
  The rounds of `GetPath`: append the lowest bit of each word, then shift every word right by one.
-/
def getPathRounds : Nat → NodeKey → List Bool
  | 0, _ => []
  | j + 1, auxk =>
      [(auxk 0).getLsbD 0, (auxk 1).getLsbD 0, (auxk 2).getLsbD 0, (auxk 3).getLsbD 0] ++
        getPathRounds j (fun i => auxk i >>> 1)

/- The 256 bits of a key, from the root downwards. -/
def getPath (nk : NodeKey) : List Bool := getPathRounds 64 nk

theorem pathBit_shift (j : Nat) : pathBit (fun i => k i >>> 1) j = pathBit k (j + 4) := by
  have hLane : lane (j + 4) = lane j := by
    apply Fin.ext
    simp [lane]
  have hDiv : (j + 4) / 4 = 1 + j / 4 := by omega
  simp only [pathBit, hLane, hDiv, BitVec.getLsbD_ushiftRight]

theorem getPathRounds_eq_map (j : Nat) (k : NodeKey) :
    getPathRounds j k = (List.range (4 * j)).map (pathBit k) := by
  induction j generalizing k with
  | zero => rfl
  | succ j ih =>
    have hRange : List.range (4 * (j + 1)) = [0, 1, 2, 3] ++ (List.range (4 * j)).map (4 + ·) := by
      rw [Nat.mul_succ, Nat.add_comm, List.range_add]
      rfl
    rw [getPathRounds, ih, hRange, List.map_append, List.map_map]
    congr 1
    apply List.map_congr_left
    intro i _
    rw [pathBit_shift, Function.comp_apply, Nat.add_comm]

/- The path lists the bits of the key in order. -/
theorem getPath_eq_map : k.getPath = (List.range 256).map k.pathBit := getPathRounds_eq_map 64 k

@[simp] theorem length_getPath : k.getPath.length = 256 := by simp [getPath_eq_map]

theorem getPath_getElem? {j : Nat} (hj : j < 256) : k.getPath[j]? = some (k.pathBit j) := by
  simp [getPath_eq_map, hj]

/- The rest of a path starts with its next bit. -/
theorem drop_getPath (k : NodeKey) {d : Nat} (hd : d < 256) :
    k.getPath.drop d = k.pathBit d :: k.getPath.drop (d + 1) := by
  rw [List.drop_eq_getElem_cons (by simpa using hd)]
  congr 1
  simp [getPath_eq_map]

theorem take_succ_getPath (hd : d < 256) :
    k.getPath.take (d + 1) = k.getPath.take d ++ [k.pathBit d] := by
  rw [List.take_add_one, getPath_getElem? k hd]
  rfl

/- A path along a key goes on along it by the next bit. -/
theorem append_isPrefix_getPath_iff {k : NodeKey} {path : List Bool} {bit : Bool}
    (hPath : path <+: k.getPath) (hLength : path.length < 256) :
    path ++ [bit] <+: k.getPath ↔ bit = k.pathBit path.length := by
  have hTake := List.prefix_iff_eq_take.mp hPath
  rw [List.prefix_iff_eq_take, List.length_append,
    List.length_singleton, take_succ_getPath k hLength, ← hTake, List.append_cancel_left_eq]
  exact List.singleton_inj

/- Two paths agree below `d` when their bits do. -/
theorem take_getPath_congr {k k' : NodeKey} (hBits : ∀ i < d, k.pathBit i = k'.pathBit i) :
    k.getPath.take d = k'.getPath.take d := by
  rw [getPath_eq_map, getPath_eq_map, ← List.map_take, ← List.map_take, List.take_range]
  apply List.map_congr_left
  intro i hi
  exact hBits i (by
    rw [List.mem_range] at hi
    omega)

/- A word is read off the path at every fourth bit. -/
theorem pathBit_of_word (i : Fin 4) (b : Nat) : k.pathBit (4 * b + i) = (k i).getLsbD b := by
  have hLane : lane (4 * b + i) = i := by
    apply Fin.ext
    simp only [lane]
    omega
  have hDiv : (4 * b + i) / 4 = b := by omega
  rw [pathBit, hLane, hDiv]

/- Keys are determined by their 256 path bits. -/
theorem separates_pathBit : Trie.Separates pathBit 256 := by
  intro k k' hBits
  funext i
  apply BitVec.eq_of_getLsbD_eq
  intro b hb
  rw [← pathBit_of_word, ← pathBit_of_word]
  exact hBits _ (by omega)

-- Removing and Joining Path Bits

/- How many of the first `n` path bits lie in word `i`, as `RemoveKeyBits` computes it. -/
def laneCount (n : Nat) (i : Fin 4) : Nat :=
  if n / 4 * 4 + i < n then n / 4 + 1 else n / 4

theorem lt_laneCount_iff (n b : Nat) (i : Fin 4) : b < laneCount n i ↔ 4 * b + i < n := by
  unfold laneCount
  split <;> omega

/- Drop the first `nBits` path bits, each word by its share. -/
def removeKeyBits (k : NodeKey) (nBits : Nat) : NodeKey := fun i => k i >>> laneCount nBits i

/- The loop of `JoinKey`: the bits seen so far per word and the words they fill. -/
def joinKeyLoop :
    List Bool → Nat → (Fin 4 → Nat) → NodeKey → (Fin 4 → Nat) × NodeKey
  | [], _, n, accs => (n, accs)
  | bit :: usedBits, i, n, accs =>
      joinKeyLoop usedBits (i + 1) (Function.update n (lane i) (n (lane i) + 1)) (if bit then
          Function.update accs (lane i) (accs (lane i) ||| ((1 : Word) <<< n (lane i)))
        else
          accs)

/- Put used path bits back in front of a remaining key. -/
def joinKey (usedBits : List Bool) (remainingKey : NodeKey) : NodeKey :=
  let (n, accs) := joinKeyLoop usedBits 0 (fun _ => 0) zero
  fun i => (remainingKey i <<< n i) ||| accs i

/- The next path bit lands behind the ones of its word. -/
theorem laneCount_lane (n : Nat) : laneCount n (lane n) = n / 4 := by
  have hLane : (lane n).val = n % 4 := rfl
  unfold laneCount
  rw [hLane]
  split <;> omega

theorem laneCount_succ (n : Nat) :
    laneCount (n + 1) = Function.update (laneCount n) (lane n) (laneCount n (lane n) + 1) := by
  funext i
  by_cases hLane : i = lane n
  · rw [hLane, Function.update_self, laneCount_lane]
    have hVal : (lane n).val = n % 4 := rfl
    unfold laneCount
    rw [hVal]
    split <;> omega
  · rw [Function.update_of_ne hLane]
    have hNe : (i : Nat) ≠ n % 4 := fun hEq => hLane (Fin.ext hEq)
    unfold laneCount
    split_ifs <;> omega

/- One step of the loop places one bit. -/
theorem joinKeyStep_getLsbD (seen : List Bool) (bit : Bool) (accs : NodeKey)
    (hAccs : ∀ i b, b < 64 → (accs i).getLsbD b = (seen[4 * b + i.val]?).getD false) (i : Fin 4)
    (b : Nat) (hb : b < 64) :
    ((if bit then
        Function.update accs (lane seen.length)
          (accs (lane seen.length) ||| ((1 : Word) <<< laneCount seen.length (lane seen.length)))
      else accs) i).getLsbD b = ((seen ++ [bit])[4 * b + i.val]?).getD false := by
  rw [laneCount_lane]
  have hOld := hAccs i b hb
  have hLane : i = lane seen.length ↔ i.val = seen.length % 4 := Fin.ext_iff
  by_cases hPos : 4 * b + i.val = seen.length
  · have hDiv : seen.length / 4 = b := by omega
    rw [hPos, List.getElem?_eq_none (Nat.le_refl _)] at hOld
    rw [hPos, ← hLane.mpr (by omega), hDiv]
    cases bit with
    | false => simpa using hOld
    | true => simp [hb]
  · have hSeen : (seen ++ [bit])[4 * b + i.val]? = seen[4 * b + i.val]? := by
      rcases Nat.lt_or_gt_of_ne hPos with hLt | hGt
      · exact List.getElem?_append_left hLt
      · rw [List.getElem?_eq_none (by simp; omega), List.getElem?_eq_none (Nat.le_of_lt hGt)]
    rw [hSeen, ← hOld]
    split
    · rw [Function.update_apply]
      split_ifs with hEq
      · -- the new bit of this word is another one
        have hNe : b < seen.length / 4 ∨ b - seen.length / 4 ≠ 0 := by omega
        rw [← hEq, BitVec.getLsbD_or, BitVec.getLsbD_shiftLeft]
        rcases hNe with hLt | hGt
        · simp [hLt]
        · simp [hGt]
      · rfl
    · rfl

/-
  The loop counts the bits of each word and places bit `j` of the used bits where the path reads
  it.
-/
theorem joinKeyLoop_spec (seen rest : List Bool) (accs : NodeKey)
    (hAccs : ∀ i b, b < 64 → (accs i).getLsbD b = (seen[4 * b + i.val]?).getD false) :
    (joinKeyLoop rest seen.length (laneCount seen.length) accs).1 =
      laneCount (seen.length + rest.length) ∧
      ∀ i b, b < 64 →
        ((joinKeyLoop rest seen.length (laneCount seen.length) accs).2 i).getLsbD b =
          ((seen ++ rest)[4 * b + i.val]?).getD false := by
  induction rest generalizing seen accs with
  | nil => simpa [joinKeyLoop] using hAccs
  | cons bit rest ih =>
    have hLength : (seen ++ [bit]).length = seen.length + 1 := by simp
    have hStep := ih (seen ++ [bit]) _ (joinKeyStep_getLsbD seen bit accs hAccs)
    rw [hLength, laneCount_succ] at hStep
    simpa [joinKeyLoop, Nat.add_assoc, Nat.add_comm 1] using hStep

theorem laneCount_zero : laneCount 0 = fun _ => 0 := by
  funext i
  simp [laneCount]

theorem removeKeyBits_zero : k.removeKeyBits 0 = k := by
  funext i
  rw [removeKeyBits, laneCount_zero]
  exact BitVec.ushiftRight_zero (k i)

/- A key that goes right has bits left. -/
theorem removeKeyBits_ne_zero {k : NodeKey} (hBit : k.pathBit d = true) :
    k.removeKeyBits d ≠ zero := by
  intro hZero
  have hWord := congrFun hZero (lane d)
  have hLow := congrArg (fun w : Word => w.getLsbD 0) hWord
  simp only [removeKeyBits, laneCount_lane, zero, BitVec.getLsbD_ushiftRight, Nat.add_zero] at hLow
  rw [pathBit, hLow] at hBit
  simp at hBit

/- The words of a joined key, bit by bit. -/
theorem joinKey_getLsbD (usedBits : List Bool) (remainingKey : NodeKey) (i : Fin 4) {b : Nat}
    (hb : b < 64) :
    (joinKey usedBits remainingKey i).getLsbD b = if 4 * b + i.val < usedBits.length then
        (usedBits[4 * b + i.val]?).getD false
      else (remainingKey i).getLsbD (b - laneCount usedBits.length i) := by
  obtain ⟨hCount, hBits⟩ := joinKeyLoop_spec [] usedBits zero (by simp [zero])
  simp only [List.length_nil, laneCount_zero, Nat.zero_add, List.nil_append] at hCount hBits
  have hLt := lt_laneCount_iff usedBits.length b i
  simp only [joinKey, hCount, BitVec.getLsbD_or, BitVec.getLsbD_shiftLeft, hBits i b hb]
  by_cases hUsed : 4 * b + i.val < usedBits.length
  · simp [hUsed, hLt.mpr hUsed]
  · have hGe : ¬ b < laneCount usedBits.length i := fun hCount => hUsed (hLt.mp hCount)
    simp [hUsed, hb, hGe]

/- A key is joined back from its own first bits. -/
theorem joinKey_removeKeyBits (hd : d ≤ 256) :
    joinKey (k.getPath.take d) (k.removeKeyBits d) = k := by
  funext i
  apply BitVec.eq_of_getLsbD_eq
  intro b hb
  have hLength : (k.getPath.take d).length = d := by simp [hd]
  rw [joinKey_getLsbD _ _ _ hb, hLength]
  by_cases hUsed : 4 * b + i.val < d
  · rw [if_pos hUsed, List.getElem?_take_of_lt hUsed,
      getPath_getElem? k (by omega), pathBit_of_word]
    rfl
  · rw [if_neg hUsed, removeKeyBits, BitVec.getLsbD_ushiftRight]
    have hLt := lt_laneCount_iff d b i
    congr 1
    omega

/- Keys with the same first bits and the same remaining key are equal. -/
theorem eq_of_removeKeyBits_eq {k k' : NodeKey} (hd : d ≤ 256)
    (hBits : ∀ i < d, k.pathBit i = k'.pathBit i)
    (hRemaining : k.removeKeyBits d = k'.removeKeyBits d) : k = k' := by
  rw [← joinKey_removeKeyBits k hd, ← joinKey_removeKeyBits k' hd,
    take_getPath_congr hBits, hRemaining]

/- The loop of `NodeKeyFromPath` over one path bit each. -/
def nodeKeyFromPathLoop :
    List Bool → Nat → NodeKey → NodeKey
  | [], _, res => res
  | bit :: path, j, res =>
      nodeKeyFromPathLoop path (j + 1)
        (Function.update res (lane j)
          (res (lane j) ||| ((BitVec.ofBool bit).setWidth 64 <<< (j / 4))))

def nodeKeyFromPath (path : List Bool) : Except String NodeKey :=
  if path.length ≠ 256 then
    .error "path is not 256 bits"
  else
    .ok (nodeKeyFromPathLoop path 0 zero)

theorem nodeKeyFromPathLoop_getLsbD (seen rest : List Bool) (res : NodeKey)
    (hRes : ∀ i b, b < 64 → (res i).getLsbD b = (seen[4 * b + i.val]?).getD false) (i : Fin 4)
    {b : Nat} (hb : b < 64) :
    (nodeKeyFromPathLoop rest seen.length res i).getLsbD b =
      ((seen ++ rest)[4 * b + i.val]?).getD false := by
  induction rest generalizing seen res with
  | nil => simpa [nodeKeyFromPathLoop] using hRes i b hb
  | cons bit rest ih =>
    have hLength : (seen ++ [bit]).length = seen.length + 1 := by simp
    have hStep : Function.update res (lane seen.length)
            (res (lane seen.length) ||| ((BitVec.ofBool bit).setWidth 64 <<< (seen.length / 4))) =
          if bit then
            Function.update res (lane seen.length)
              (res (lane seen.length) ||| ((1 : Word) <<< laneCount seen.length (lane seen.length)))
          else res := by
      rw [laneCount_lane]
      cases bit with
      | false => simp [Function.update_eq_self]
      | true => rfl
    have hNext := ih (seen ++ [bit]) (if bit then
        Function.update res (lane seen.length)
          (res (lane seen.length) ||| ((1 : Word) <<< laneCount seen.length (lane seen.length)))
        else res) (joinKeyStep_getLsbD seen bit res hRes)
    rw [hLength, ← hStep] at hNext
    simpa [nodeKeyFromPathLoop] using hNext

/- The path of a key spells the key. -/
theorem nodeKeyFromPath_getPath : nodeKeyFromPath k.getPath = .ok k := by
  unfold nodeKeyFromPath
  rw [if_neg (by simp)]
  congr 1
  funext i
  apply BitVec.eq_of_getLsbD_eq
  intro b hb
  have hBits := nodeKeyFromPathLoop_getLsbD [] k.getPath zero (by simp [zero]) i hb
  rw [List.length_nil, List.nil_append, getPath_getElem? k (by omega), pathBit_of_word] at hBits
  exact hBits

/- Removing twice shifts each word by both shares. -/
theorem removeKeyBits_removeKeyBits (n m : Nat) (i : Fin 4) :
    (k.removeKeyBits n).removeKeyBits m i = k i >>> (laneCount n i + laneCount m i) :=
  (BitVec.shiftRight_add (k i) _ _).symm

/- Between two removals that both stop inside a round one word is left a bit short. -/
theorem exists_laneCount_short {n m : Nat} (hn : ¬ 4 ∣ n) (hm : ¬ 4 ∣ m) :
    ∃ i : Fin 4, laneCount n i + laneCount m i = n / 4 + m / 4 ∧
      laneCount (n + m) i = n / 4 + m / 4 + 1 := by
  refine ⟨⟨min (n % 4 + m % 4 - 1) 3, by omega⟩, ?_, ?_⟩ <;> simp only [laneCount] <;>
    split_ifs <;> omega

/-
  A key is joined back from its first bits and spelled by its path.  Removing starts each time at
  word 0, so it composes only where one of the removals takes whole rounds of the four words, or
  where the words are used up.
-/
theorem key_laws (n m : Nat) :
    (n ≤ 256 → joinKey (k.getPath.take n) (k.removeKeyBits n) = k) ∧
    nodeKeyFromPath k.getPath = .ok k ∧
    ((∀ key : NodeKey, (key.removeKeyBits n).removeKeyBits m = key.removeKeyBits (n + m)) ↔
      4 ∣ n ∨ 4 ∣ m ∨ 64 ≤ n / 4 + m / 4) := by
  refine ⟨joinKey_removeKeyBits k, nodeKeyFromPath_getPath k, ?_, ?_⟩
  · intro hLaw
    by_contra! ⟨hn, hm, hShort⟩
    obtain ⟨i, hTwice, hOnce⟩ := exists_laneCount_short hn hm
    -- the bit that the second removal leaves and the single one takes
    have hWord := congrFun (hLaw fun _ => (1 : Word) <<< (n / 4 + m / 4)) i
    rw [removeKeyBits_removeKeyBits, removeKeyBits, hTwice, hOnce] at hWord
    have hBit := congrArg (fun w : Word => w.getLsbD 0) hWord
    simp [BitVec.getLsbD_shiftLeft, hShort] at hBit
  · intro hWhole key
    funext i
    rw [removeKeyBits_removeKeyBits]
    have hTwice : laneCount n i + laneCount m i = laneCount (n + m) i ∨
        64 ≤ laneCount n i + laneCount m i ∧ 64 ≤ laneCount (n + m) i := by
      unfold laneCount
      split_ifs <;> omega
    rcases hTwice with hSame | ⟨hTwice, hOnce⟩
    · rw [removeKeyBits, hSame]
    · rw [removeKeyBits, BitVec.ushiftRight_eq_zero hTwice, BitVec.ushiftRight_eq_zero hOnce]

/- Two single removals both take from word 0, whose second bit is the fifth of the path. -/
theorem removed_twice_from_word_zero :
    let key : NodeKey := ![2, 0, 0, 0]
    (key.removeKeyBits 1).removeKeyBits 1 ≠ key.removeKeyBits 2 ∧
      joinKey (key.getPath.take 2) ((key.removeKeyBits 1).removeKeyBits 1) ≠ key := by
  decide +kernel
/- `ArrayToScalar`: the words as digits in base `2 ^ 64`. -/
def toBigInt (nk : NodeKey) : Nat :=
  (nk 0).toNat + 2 ^ 64 * (nk 1).toNat + 2 ^ 128 * (nk 2).toNat + 2 ^ 192 * (nk 3).toNat

/- `ScalarToRoot` of a non-negative scalar. -/
def scalarToRoot (s : Nat) : NodeKey := fun i => BitVec.ofNat 64 (s / 2 ^ (64 * i.val))

theorem scalarToRoot_toBigInt (nk : NodeKey) : scalarToRoot nk.toBigInt = nk := by
  have h0 := (nk 0).isLt
  have h1 := (nk 1).isLt
  have h2 := (nk 2).isLt
  have h3 := (nk 3).isLt
  funext i
  apply BitVec.eq_of_toNat_eq
  simp only [scalarToRoot, toBigInt, BitVec.toNat_ofNat]
  fin_cases i <;> simp <;> omega

end NodeKey

end XLayerErigon.Smt
