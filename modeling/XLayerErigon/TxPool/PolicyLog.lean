import Mathlib.Data.List.Lex
import Mathlib.Data.Set.List
import XLayerErigon.Data.Bytes
import XLayerErigon.Go
import XLayerErigon.Kv.Table

/-
  The log of the changes of policies.

  A change is stored under the address and the second of the change, and the log is read backwards
  from the last key.  So the keys decide what is recent, a second change of an address within a
  second replaces the first, and a read beyond the first key fails.

  Main results:
    * `lastPolicyTransactions_iff`
-/

namespace XLayerErigon.TxPool

open Kv

-- The Code

/- An entry of the log; the types of the list, the operation and the policy are bytes. -/
structure PolicyTransaction where
  addr : BitVec 160
  aclType : Byte
  policy : Byte
  operation : Byte
  timeTx : BitVec 64
  deriving DecidableEq

def modeChange : Byte := 3

def timestampToBytes (t : BitVec 64) : Bytes := Bytes.fill 8 t.toNat

/- What is logged; setting the mode has neither an address nor a policy. -/
structure Change extends PolicyTransaction where
  mode : operation = modeChange → addr = 0 ∧ policy = 0

namespace Change

def key (c : Change) : Bytes :=
  if c.operation = modeChange then c.aclType :: timestampToBytes c.timeTx
  else Bytes.fill 20 c.addr.toNat ++ timestampToBytes c.timeTx

def value (c : Change) : Bytes :=
  if c.operation = modeChange then c.aclType :: timestampToBytes c.timeTx
  else [c.aclType, c.operation, c.policy] ++ c.key

end Change

def logAfter (changes : List Change) : Table Bytes Bytes :=
  changes.foldl (fun table c => table.put c.key c.value) .empty

def byteToPolicyTransaction (value : Bytes) : Except Failure PolicyTransaction :=
  if value.length = 9 then
    .ok ⟨0, value.headD 0, 0, modeChange, BitVec.ofNat 64 (Bytes.toNat ((value.drop 1).take 8))⟩
  else if value.length ≠ 31 then .error (.error "invalid value length %d")
  else
    .ok ⟨BitVec.ofNat 160 (Bytes.toNat ((value.drop 3).take 20)), value.headD 0,
      (value.drop 2).headD 0, (value.drop 1).headD 0,
      BitVec.ofNat 64 (Bytes.toNat ((value.drop 23).take 8))⟩

/- The cursor gives no value in front of the first key. -/
def readBack : List (Bytes × Bytes) → Nat → Except Failure (List PolicyTransaction)
  | _, 0 => .ok []
  | [], _ + 1 => (byteToPolicyTransaction []).map fun pt => [pt]
  | e :: rest, count + 1 =>
      byteToPolicyTransaction e.2 >>= fun pt =>
      readBack rest count >>= fun pts => .ok (pt :: pts)

def lastPolicyTransactions (table : Table Bytes Bytes) (count : Nat) :
    Except Failure (List PolicyTransaction) :=
  readBack table.entries.reverse count

-- Reading Back

theorem length_timestampToBytes (t : BitVec 64) : (timestampToBytes t).length = 8 :=
  Bytes.length_fill t.isLt

theorem toNat_timestampToBytes (t : BitVec 64) :
    BitVec.ofNat 64 (Bytes.toNat (timestampToBytes t)) = t := by
  rw [timestampToBytes, Bytes.toNat_fill, BitVec.ofNat_toNat, BitVec.setWidth_eq]

theorem byteToPolicyTransaction_value (c : Change) :
    byteToPolicyTransaction c.value = .ok c.toPolicyTransaction := by
  have hTime := length_timestampToBytes c.timeTx
  by_cases hMode : c.operation = modeChange
  · rcases c.mode hMode with ⟨hAddr, hPolicy⟩
    rw [Change.value, if_pos hMode, byteToPolicyTransaction, if_pos (by simp [hTime]), ← hMode]
    simp [List.take_of_length_le hTime.le, toNat_timestampToBytes, ← hAddr, ← hPolicy]
  · have hAddr : (Bytes.fill 20 c.addr.toNat).length = 20 := Bytes.length_fill c.addr.isLt
    rw [Change.value, if_neg hMode, Change.key, if_neg hMode, byteToPolicyTransaction,
      if_neg (by simp [hTime, hAddr]), if_neg (by simp [hTime, hAddr])]
    simp [List.drop_append, hTime, hAddr, List.take_of_length_le,
      Bytes.toNat_fill, toNat_timestampToBytes]

theorem toPolicyTransaction_injective : Function.Injective Change.toPolicyTransaction := by
  rintro ⟨c, _⟩ ⟨d, _⟩ hSame
  cases hSame
  rfl

theorem value_injective : Function.Injective Change.value := by
  intro c d hSame
  have hRead := byteToPolicyTransaction_value c
  rw [hSame, byteToPolicyTransaction_value d, Except.ok.injEq] at hRead
  exact toPolicyTransaction_injective hRead.symm

abbrev Change.entry (c : Change) : Bytes × Bytes := (c.key, c.value)

theorem readBack_entries (ds : List Change) (n : Nat) :
    readBack (ds.map Change.entry) n =
      if n ≤ ds.length then .ok ((ds.take n).map Change.toPolicyTransaction)
      else .error (.error "invalid value length %d") := by
  induction ds generalizing n with
  | nil => cases n <;> simp [readBack, byteToPolicyTransaction, Except.map]
  | cons d ds ih =>
    cases n with
    | zero => simp [readBack]
    | succ n =>
      rw [List.map_cons, readBack, byteToPolicyTransaction_value, ok_bind, ih]
      split <;> simp_all [ok_bind, error_bind]

-- What the Log Holds

variable {changes : List Change}

theorem get_logAfter (changes : List Change) (k : Bytes) :
    (logAfter changes).get k = (changes.reverse.find? (fun c => c.key = k)).map Change.value := by
  induction changes using List.reverseRecOn with
  | nil => rfl
  | append_singleton changes c ih =>
    rw [logAfter, List.foldl_append, List.foldl_cons, List.foldl_nil, Table.get_put,
      List.reverse_append, List.reverse_singleton, List.singleton_append, List.find?_cons]
    rw [logAfter] at ih
    by_cases hKey : k = c.key
    · simp [hKey]
    · simp [hKey, Ne.symm hKey, ih]

/- Every key has the last change that was stored under it. -/
theorem exists_logged (changes : List Change) :
    ∃ ds : List Change, (logAfter changes).entries.reverse = ds.map Change.entry ∧
      ds.Pairwise (fun c d => d.key < c.key) ∧
      ∀ d, d ∈ ds ↔ changes.reverse.find? (fun c => c.key = d.key) = some d := by
  have hStored : ∀ e ∈ (logAfter changes).entries.reverse, e ∈ Set.range Change.entry := by
    intro e hMem
    have hGet := Table.get_eq_some_iff.mpr (List.mem_reverse.mp hMem)
    rw [get_logAfter, Option.map_eq_some_iff] at hGet
    rcases hGet with ⟨c, hFound, hValue⟩
    have hKey := List.find?_some hFound
    exact ⟨c, Prod.ext (of_decide_eq_true hKey) hValue⟩
  have hMap : (logAfter changes).entries.reverse ∈ Set.range (List.map Change.entry) := by
    rw [Set.range_list_map]
    exact hStored
  rcases hMap with ⟨ds, hEntries⟩
  refine ⟨ds, hEntries.symm, ?_, ?_⟩
  · have hSorted := List.pairwise_reverse.mpr (logAfter changes).sorted
    rw [← hEntries, List.pairwise_map] at hSorted
    exact hSorted
  · intro d
    have hEntry : d ∈ ds ↔ (d.key, d.value) ∈ (logAfter changes).entries := by
      have hInjective : Function.Injective Change.entry := fun c c' hSame =>
        value_injective (Prod.ext_iff.mp hSame).2
      rw [← List.mem_map_of_injective hInjective, hEntries, List.mem_reverse]
    rw [hEntry, ← Table.get_eq_some_iff, get_logAfter, Option.map_eq_some_iff]
    constructor
    · rintro ⟨c, hFound, hValue⟩
      rwa [value_injective hValue] at hFound
    · intro hFound
      exact ⟨d, hFound, rfl⟩

/- Sorted changes above all others that are stored come first. -/
theorem isPrefix_of_above {recent ds : List Change}
    (hRecent : recent.Pairwise (fun c d => d.key < c.key))
    (hSorted : ds.Pairwise (fun c d => d.key < c.key)) (hStored : ∀ c ∈ recent, c ∈ ds)
    (hAbove : ∀ d ∈ ds, d ∈ recent ∨ ∀ c ∈ recent, d.key < c.key) : recent <+: ds := by
  induction recent generalizing ds with
  | nil => exact List.nil_prefix
  | cons c recent ih =>
    cases ds with
    | nil => exact absurd (hStored c (by simp)) List.not_mem_nil
    | cons d ds =>
      rw [List.pairwise_cons] at hRecent hSorted
      have hFirst : d = c := by
        rcases List.mem_cons.mp (hStored c (by simp)) with hSame | hBelow
        · exact hSame.symm
        · have hLess := hSorted.1 c hBelow
          rcases hAbove d (by simp) with hMem | hAll
          · rcases List.mem_cons.mp hMem with hSame | hMem
            · exact hSame
            · exact absurd (hRecent.1 d hMem) hLess.asymm
          · exact absurd (hAll c (by simp)) hLess.asymm
      subst hFirst
      rw [List.cons_prefix_cons]
      refine ⟨rfl, ih hRecent.2 hSorted.2 ?_ ?_⟩
      · intro c hMem
        rcases List.mem_cons.mp (hStored c (by simp [hMem])) with rfl | hIn
        · exact absurd (hRecent.1 c hMem) (lt_irrefl _)
        · exact hIn
      · intro e hMem
        rcases hAbove e (by simp [hMem]) with hIn | hAll
        · rcases List.mem_cons.mp hIn with rfl | hIn
          · exact absurd (hSorted.1 e hMem) (lt_irrefl _)
          · exact Or.inl hIn
        · exact Or.inr fun c hc => hAll c (by simp [hc])

/-
  There are so many changes, the last ones have ascending keys, and an earlier one has the key of
  one of them or a lower key than all.
-/
def LastOnTop (changes : List Change) (n : Nat) : Prop :=
  n ≤ changes.length ∧ (changes.reverse.take n).Pairwise (fun c d => d.key < c.key) ∧
    ∀ c ∈ changes.reverse.drop n, (∃ d ∈ changes.reverse.take n, d.key = c.key) ∨
      ∀ d ∈ changes.reverse.take n, c.key < d.key

theorem lastOnTop_iff {ds : List Change} {n : Nat}
    (hSorted : ds.Pairwise (fun c d => d.key < c.key))
    (hMem : ∀ d, d ∈ ds ↔ changes.reverse.find? (fun c => c.key = d.key) = some d) :
    n ≤ ds.length ∧ ds.take n = changes.reverse.take n ↔ LastOnTop changes n := by
  rw [LastOnTop, ← (List.length_reverse : changes.reverse.length = _)]
  have hSplit := List.take_append_drop n changes.reverse
  generalize changes.reverse = all at *
  constructor
  · rintro ⟨hLong, hTop⟩
    have hBelow := hSorted
    rw [← List.take_append_drop n ds, List.pairwise_append] at hBelow
    rw [← hTop]
    refine ⟨?_, hBelow.1, ?_⟩
    · have hLength := congrArg List.length hTop
      simp only [List.length_take] at hLength
      omega
    · intro c hEarlier
      rcases hFound : all.find? (fun d => d.key = c.key) with _ | d
      · have hNone := List.find?_eq_none.mp hFound c (List.mem_of_mem_drop hEarlier)
        simp at hNone
      · have hKey : d.key = c.key := by simpa using List.find?_some hFound
        rw [← hKey, ← hMem, ← List.take_append_drop n ds, List.mem_append] at hFound
        rw [← hKey]
        rcases hFound with hRecent | hOld
        · exact Or.inl ⟨d, hRecent, rfl⟩
        · exact Or.inr fun e he => hBelow.2.2 e he d hOld
  · rintro ⟨hLong, hRecent, hEarlier⟩
    -- among the recent ones the first with a key is the only one
    have hFirst : ∀ e ∈ all.take n, ∃ d ∈ all.take n,
        d.key = e.key ∧ all.find? (fun c => c.key = e.key) = some d := by
      intro e hMem
      rcases hFound : (all.take n).find? (fun c => c.key = e.key) with _ | d
      · have hNone := List.find?_eq_none.mp hFound e hMem
        simp at hNone
      · refine ⟨d, List.mem_of_find?_eq_some hFound, by simpa using List.find?_some hFound, ?_⟩
        rw [← hSplit, List.find?_append, hFound]
        rfl
    have hDistinct : ((all.take n).map Change.key).Nodup :=
      List.pairwise_map.mpr (hRecent.imp fun hLess => hLess.ne')
    have hPrefix : all.take n <+: ds := by
      apply isPrefix_of_above hRecent hSorted
      · intro c hc
        rcases hFirst c hc with ⟨d, hd, hKey, hFound⟩
        rw [hMem, hFound, List.inj_on_of_nodup_map hDistinct hd hc hKey]
      · intro d hd
        rw [hMem] at hd
        have hIn := List.mem_of_find?_eq_some hd
        rw [← hSplit, List.mem_append] at hIn
        rcases hIn with hIn | hIn
        · exact Or.inl hIn
        · rcases hEarlier d hIn with ⟨e, he, hKey⟩ | hBelow
          · rcases hFirst e he with ⟨c, hc, _, hFound⟩
            rw [hKey, hd, Option.some.injEq] at hFound
            exact Or.inl (hFound ▸ hc)
          · exact Or.inr hBelow
    have hLength : (all.take n).length = n := List.length_take_of_le hLong
    have hTake := List.prefix_iff_eq_take.mp hPrefix
    rw [hLength] at hTake
    exact ⟨hLength ▸ hPrefix.length_le, hTake.symm⟩

/- The last changes are returned, the newest first, exactly if their keys are on top. -/
theorem lastPolicyTransactions_iff (changes : List Change) (n : Nat) :
    lastPolicyTransactions (logAfter changes) n =
        .ok ((changes.reverse.take n).map Change.toPolicyTransaction) ↔
      LastOnTop changes n := by
  rcases exists_logged changes with ⟨ds, hEntries, hSorted, hMem⟩
  rw [← lastOnTop_iff hSorted hMem, lastPolicyTransactions, hEntries, readBack_entries]
  split
  · rename_i hLong
    rw [Except.ok.injEq, toPolicyTransaction_injective.list_map.eq_iff, and_iff_right hLong]
  · rename_i hShort
    simp [hShort]

/- A policy is added for the address 2 in second 1 and for the address 1 in second 2. -/
def twoChanges : List Change :=
  [⟨⟨2, 0, 0, 0, 1⟩, fun hMode => absurd hMode (by decide)⟩,
    ⟨⟨1, 0, 0, 0, 2⟩, fun hMode => absurd hMode (by decide)⟩]

/- The older change is returned as the last one, and there is an error for a third one. -/
theorem older_change_returned :
    lastPolicyTransactions (logAfter twoChanges) 1 = .ok [⟨2, 0, 0, 0, 1⟩] ∧
      lastPolicyTransactions (logAfter twoChanges) 3 =
        .error (.error "invalid value length %d") := by
  decide +kernel

end XLayerErigon.TxPool
