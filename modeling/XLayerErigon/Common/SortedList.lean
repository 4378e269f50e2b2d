import XLayerErigon.Data.Bytes
import XLayerErigon.Data.IndexedQueue
import XLayerErigon.Kv.Table

/-
  Ordered lists and the address lists of the pool.

  An item is looked up by halving the list, also where the list was not sorted after the last
  addition: the answer of the linear search is dropped.

  Main results:
    * `OrderedList.contains_iff`
    * `OrderedList.ascending_sort`
    * `contains_added`
-/

namespace XLayerErigon.Common

open IndexedQueue

-- The Code

structure OrderedList (T : Type) where
  list : List T
  isOrdered : Bool
  compareFunc : T → T → Int

namespace OrderedList

variable {T : Type}

def add (l : OrderedList T) (item : T) : OrderedList T :=
  { l with isOrdered := false, list := l.list ++ [item] }

/- `slices.SortFunc` is one of the sorting routines. -/
def sort (sorter : Sorter T) (l : OrderedList T) : OrderedList T :=
  { l with list := sorter.sort (fun a b => l.compareFunc a b < 0) l.list, isOrdered := true }

/- The loop of `containsBinarySearch`. -/
def search (compareFunc : T → T → Int) (list : List T) (item : T) (lower upper : Nat)
    (hUpper : upper ≤ list.length) : Bool :=
  if hOpen : lower < upper then
    let cmp := compareFunc item (list.get ⟨(upper + lower) / 2, by omega⟩)
    if cmp = 0 then
      true
    else if cmp > 0 then
      search compareFunc list item ((upper + lower) / 2 + 1) upper hUpper
    else
      search compareFunc list item lower ((upper + lower) / 2) (by omega)
  else
    false
termination_by upper - lower

def containsBinarySearch (l : OrderedList T) (item : T) : Bool :=
  search l.compareFunc l.list item 0 l.list.length (Nat.le_refl _)

def containsLinear (l : OrderedList T) (item : T) : Bool :=
  l.list.any fun i => l.compareFunc i item = 0

def contains (l : OrderedList T) (item : T) : Bool :=
  let _ := if !l.isOrdered then l.containsLinear item else false
  l.containsBinarySearch item

end OrderedList

/- An address is 20 bytes. -/
abbrev Address := { bytes : Bytes // bytes.length = 20 }

/- The loop of `CompareAddressess`. -/
def compareBytes : Bytes → Bytes → Int
  | a :: as, b :: bs =>
      if a < b then
        (a.toNat : Int) - b.toNat
      else if a > b then
        (a.toNat : Int) - b.toNat
      else
        compareBytes as bs
  | _, _ => 0

def compareAddressess (a b : Address) : Int := compareBytes a.1 b.1

def newOrderedListOfAddresses : OrderedList Address := ⟨[], false, compareAddressess⟩

inductive Call (T : Type) where
  | add (item : T)
  | sort

def Call.apply {T : Type} (sorter : Sorter T) (l : OrderedList T) : Call T → OrderedList T
  | .add item => l.add item
  | .sort => l.sort sorter

def added {T : Type} : List (Call T) → List T
  | [] => []
  | .add item :: calls => item :: added calls
  | .sort :: calls => added calls

-- Halving a List

/- A comparison that tells the order of the items. -/
structure Lawful {T : Type} [LinearOrder T] (compareFunc : T → T → Int) : Prop where
  lt : ∀ {a b}, compareFunc a b < 0 → a < b
  eq : ∀ {a b}, compareFunc a b = 0 → a = b
  gt : ∀ {a b}, compareFunc a b > 0 → b < a

namespace OrderedList

variable {T : Type} [LinearOrder T] {l : OrderedList T}

/- No item stands behind a greater one. -/
def Ascending (l : OrderedList T) : Prop := l.list.Pairwise (· ≤ ·)

section Search

variable {compareFunc : T → T → Int} {list : List T} {item : T} {lower upper : Nat}
  {hUpper : upper ≤ list.length}

/- What is found stands in the list. -/
theorem mem_of_search (hLawful : Lawful compareFunc)
    (hFound : search compareFunc list item lower upper hUpper = true) : item ∈ list := by
  fun_induction search compareFunc list item lower upper hUpper with
  | case1 lower upper hUpper hOpen cmp hZero =>
    rw [hLawful.eq hZero]
    exact List.get_mem _ _
  | case2 | case3 => exact ‹_ → item ∈ list› hFound
  | case4 => cases hFound

/- In an ascending list every item is found. -/
theorem search_of_ascending (hLawful : Lawful compareFunc) (hSorted : list.Pairwise (· ≤ ·))
    (i : Fin list.length) (hLower : lower ≤ i) (hBelow : i < upper) :
    search compareFunc list (list.get i) lower upper hUpper = true := by
  generalize hItem : list.get i = item
  fun_induction search compareFunc list item lower upper hUpper with
  | case1 => rfl
  | case2 lower upper hUpper hOpen cmp hZero hPos ih =>
    refine ih (not_lt.mp fun hLeft => (hLawful.gt hPos).not_ge ?_) hBelow
    exact hItem ▸ hSorted.rel_get_of_le (Fin.mk_le_mk.mpr (Nat.lt_succ_iff.mp hLeft))
  | case3 lower upper hUpper hOpen cmp hZero hPos ih =>
    have hNeg : cmp < 0 := by omega
    refine ih hLower (not_le.mp fun hRight => (hLawful.lt hNeg).not_ge ?_)
    exact hItem ▸ hSorted.rel_get_of_le (Fin.mk_le_mk.mpr hRight)
  | case4 => omega

end Search

/- An ascending list contains what stands in it. -/
theorem contains_iff (hLawful : Lawful l.compareFunc) (hAscending : l.Ascending) (x : T) :
    l.contains x = true ↔ x ∈ l.list := by
  refine ⟨mem_of_search hLawful, fun hMem => ?_⟩
  obtain ⟨i, rfl⟩ := List.get_of_mem hMem
  exact search_of_ascending hLawful hAscending i (Nat.zero_le _) i.isLt

theorem ascending_sort (hLawful : Lawful l.compareFunc) (sorter : Sorter T) :
    (l.sort sorter).Ascending := by
  have hLess (a b : T) : l.compareFunc a b < 0 ↔ a < b := by
    refine ⟨hLawful.lt, fun hLt => ?_⟩
    rcases lt_trichotomy (l.compareFunc a b) 0 with hNeg | hZero | hPos
    · exact hNeg
    · exact (hLt.ne (hLawful.eq hZero)).elim
    · exact (hLt.not_gt (hLawful.gt hPos)).elim
  have hSorted := sorter.sorted (fun a b => l.compareFunc a b < 0) l.list
    (strictWeakOn_of_rank id fun a _ b _ => by simpa using hLess a b)
  exact hSorted.imp (by simp [hLess])

end OrderedList

-- Address Lists

theorem compareBytes_spec {as bs : Bytes} (hLength : as.length = bs.length) :
    (compareBytes as bs < 0 → as < bs) ∧ (compareBytes as bs = 0 → as = bs) ∧
      (compareBytes as bs > 0 → bs < as) := by
  fun_induction compareBytes as bs with
  | case1 a as b bs hLt =>
    have hVal := BitVec.lt_def.mp hLt
    exact ⟨fun _ => List.cons_lt_cons_iff.mpr (.inl hLt), by omega, by omega⟩
  | case2 a as b bs hNot hGt =>
    have hVal := BitVec.lt_def.mp hGt
    exact ⟨by omega, by omega, fun _ => List.cons_lt_cons_iff.mpr (.inl hGt)⟩
  | case3 a as b bs hNot hGt ih =>
    rw [le_antisymm (not_lt.mp hGt) (not_lt.mp hNot)]
    simpa [List.cons_lt_cons_iff] using ih (Nat.succ.inj hLength)
  | case4 as bs hShape =>
    cases as with
    | nil => simp [List.length_eq_zero_iff.mp hLength.symm]
    | cons a as =>
      cases bs with
      | nil => cases hLength
      | cons b bs => exact (hShape a as b bs rfl rfl).elim

theorem lawful_compareAddressess : Lawful compareAddressess where
  lt {a b} := (compareBytes_spec (a.2.trans b.2.symm)).1
  eq {a b} hZero := Subtype.ext ((compareBytes_spec (a.2.trans b.2.symm)).2.1 hZero)
  gt {a b} := (compareBytes_spec (a.2.trans b.2.symm)).2.2

/- A run keeps the comparison and what was added. -/
theorem run_spec {T : Type} (sorter : Sorter T) (calls : List (Call T)) (l : OrderedList T) :
    (calls.foldl (Call.apply sorter) l).compareFunc = l.compareFunc ∧
      (calls.foldl (Call.apply sorter) l).list.Perm (l.list ++ added calls) := by
  induction calls generalizing l with
  | nil => simp [added]
  | cons call calls ih =>
    obtain ⟨hCompare, hPerm⟩ := ih (call.apply sorter l)
    refine ⟨hCompare.trans (by cases call <;> rfl), hPerm.trans ?_⟩
    cases call with
    | add item => simp [Call.apply, OrderedList.add, added]
    | sort => exact (sorter.perm _ _).append_right _

/-
  After any additions and sorts, looking up is right where the list ascends, which it does after a
  sort.
-/
theorem contains_added (sorter : Sorter Address) (calls : List (Call Address)) :
    let l := calls.foldl (Call.apply sorter) newOrderedListOfAddresses
    (l.Ascending → ∀ x, l.contains x = true ↔ x ∈ added calls) ∧ (l.sort sorter).Ascending := by
  intro l
  obtain ⟨hCompare, hPerm⟩ := run_spec sorter calls newOrderedListOfAddresses
  have hLawful : Lawful l.compareFunc := hCompare ▸ lawful_compareAddressess
  exact ⟨fun hAscending x => (l.contains_iff hLawful hAscending x).trans hPerm.mem_iff,
    l.ascending_sort hLawful sorter⟩

/- Of two addresses added in descending order the first is not found. -/
theorem not_found_unsorted :
    let address (b : Byte) : Address := ⟨List.replicate 20 b, List.length_replicate⟩
    let l := [.add (address 2), .add (address 1)].foldl (Call.apply insertionSorter)
      newOrderedListOfAddresses
    l.contains (address 2) = false := by
  simp [newOrderedListOfAddresses, Call.apply, OrderedList.add, OrderedList.contains,
    OrderedList.containsBinarySearch, OrderedList.search, compareAddressess, compareBytes,
    List.replicate]

end XLayerErigon.Common
