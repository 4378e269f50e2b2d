import Mathlib.Order.Basic
import Mathlib.Data.List.Pairwise
import Mathlib.Data.List.Sort
import Mathlib.Data.BitVec

/-
  Tables that are kept sorted by key.

  A table is the list of its entries in the order of their keys, without a key twice.  Reading a
  key, writing it and deleting it are related by one lemma each; a walk visits the entries from a
  key on.

  Main results:
    * `Table.ext_get`
    * `Table.get_put`
    * `Table.get_delete`
    * `Table.mem_walk`
-/

namespace XLayerErigon.Kv

/- Numbers of a fixed width, and bytes, as keys. -/
instance bitVecLinearOrder (w : Nat) :
    LinearOrder (BitVec w) where
  le_refl := BitVec.le_refl
  le_trans _ _ _ := BitVec.le_trans
  le_antisymm _ _ := BitVec.le_antisymm
  le_total := BitVec.le_total
  lt_iff_le_not_ge a b := by
    simp only [BitVec.le_def, BitVec.lt_def]
    omega
  toDecidableLE := inferInstance

structure Table (κ ν : Type) [LinearOrder κ] where
  entries : List (κ × ν)
  sorted : entries.Pairwise (fun a b => a.1 < b.1)

namespace Table

variable {κ ν : Type} [LinearOrder κ]

def empty : Table κ ν := ⟨[], .nil⟩

def get (t : Table κ ν) (k : κ) : Option ν := (t.entries.find? (fun e => e.1 = k)).map Prod.snd

def has (t : Table κ ν) (k : κ) : Bool := (t.get k).isSome

/- The entries from a key on, in order. -/
def walk (t : Table κ ν) (start : κ) : List (κ × ν) := t.entries.filter (fun e => start ≤ e.1)

def put (t : Table κ ν) (k : κ) (v : ν) : Table κ ν where
  entries := t.entries.filter (fun e => e.1 < k) ++ (k, v) :: t.entries.filter (fun e => k < e.1)
  sorted := by
    refine List.pairwise_append.2
      ⟨t.sorted.filter _, List.pairwise_cons.2 ⟨?_, t.sorted.filter _⟩, ?_⟩
    · intro e hAbove
      exact of_decide_eq_true (List.mem_filter.1 hAbove).2
    · intro e hBelow e' hNotBelow
      have hLess : e.1 < k := of_decide_eq_true (List.mem_filter.1 hBelow).2
      rcases List.mem_cons.1 hNotBelow with rfl | hAbove
      · exact hLess
      · exact hLess.trans (of_decide_eq_true (List.mem_filter.1 hAbove).2)

def delete (t : Table κ ν) (k : κ) : Table κ ν where
  entries := t.entries.filter (fun e => e.1 ≠ k)
  sorted := t.sorted.filter _

-- Reading

variable (t : Table κ ν)

theorem nodup_keys : (t.entries.map Prod.fst).Nodup := by
  refine List.Pairwise.map _ ?_ t.sorted
  intro a b hLess
  exact hLess.ne

/- A key stands in one entry only. -/
theorem entry_unique {a b : κ × ν} (hA : a ∈ t.entries) (hB : b ∈ t.entries) (hKey : a.1 = b.1) :
    a = b :=
  List.inj_on_of_nodup_map t.nodup_keys hA hB hKey

theorem get_eq_some_iff {t : Table κ ν} {k : κ} {v : ν} :
    t.get k = some v ↔ (k, v) ∈ t.entries := by
  constructor
  · intro hGet
    rcases Option.map_eq_some_iff.1 hGet with ⟨e, hFind, rfl⟩
    have hKey : e.1 = k := by simpa using List.find?_some hFind
    rw [← hKey]
    exact List.mem_of_find?_eq_some hFind
  · intro hMem
    cases hFind : t.entries.find? (fun e => e.1 = k) with
    | none =>
      have hNone := List.find?_eq_none.1 hFind _ hMem
      simp at hNone
    | some e =>
      have hKey : e.1 = k := by simpa using List.find?_some hFind
      have hSame := t.entry_unique (List.mem_of_find?_eq_some hFind) hMem hKey
      rw [get, hFind, hSame]
      rfl

theorem get_eq_none_iff {t : Table κ ν} {k : κ} : t.get k = none ↔ ∀ v, (k, v) ∉ t.entries := by
  rw [Option.eq_none_iff_forall_ne_some]
  exact forall_congr' fun v => not_congr get_eq_some_iff

/- A table is known by what it reads. -/
theorem ext_get {t u : Table κ ν} (hGet : ∀ k, t.get k = u.get k) : t = u := by
  have hEntries : t.entries = u.entries := by
    have hAnti : Std.Antisymm (fun a b : κ × ν => a.1 < b.1) :=
      ⟨fun a b hLess hMore => absurd hLess (lt_asymm hMore)⟩
    have hIrrefl : Std.Irrefl (fun a b : κ × ν => a.1 < b.1) := ⟨fun a => lt_irrefl a.1⟩
    refine t.sorted.eq_of_mem_iff u.sorted ?_
    rintro ⟨k, v⟩
    rw [← get_eq_some_iff, ← get_eq_some_iff, hGet k]
  cases t
  cases u
  cases hEntries
  rfl

@[simp] theorem get_empty (k : κ) : (empty : Table κ ν).get k = none := rfl

theorem mem_walk {t : Table κ ν} {start : κ} {e : κ × ν} :
    e ∈ t.walk start ↔ t.get e.1 = some e.2 ∧ start ≤ e.1 := by
  rw [walk, List.mem_filter, get_eq_some_iff, decide_eq_true_iff]

theorem walk_sorted (start : κ) : (t.walk start).Pairwise (fun a b => a.1 < b.1) :=
  t.sorted.filter _

/- A key is the first one not below itself. -/
theorem head?_walk {k : κ} {v : ν} (hGet : t.get k = some v) : (t.walk k).head? = some (k, v) := by
  have hMem : (k, v) ∈ t.walk k := mem_walk.2 ⟨hGet, le_refl k⟩
  have hSorted := t.walk_sorted k
  have hAbove : ∀ e ∈ t.walk k, k ≤ e.1 := fun e hEntry => (mem_walk.1 hEntry).2
  cases hWalk : t.walk k with
  | nil =>
    rw [hWalk] at hMem
    cases hMem
  | cons e rest =>
    rw [hWalk] at hMem hSorted hAbove
    rcases List.mem_cons.1 hMem with hFirst | hRest
    · rw [hFirst]
      rfl
    · have hLess := (List.pairwise_cons.1 hSorted).1 _ hRest
      exact absurd (hAbove e List.mem_cons_self) (not_le.2 hLess)

theorem get_put (k k' : κ) (v : ν) : (t.put k v).get k' = if k' = k then some v else t.get k' := by
  refine Option.ext fun w => ?_
  rw [get_eq_some_iff]
  simp only [put, List.mem_append, List.mem_cons,
    List.mem_filter, decide_eq_true_iff, Prod.mk.injEq]
  by_cases hKey : k' = k
  · subst hKey
    simp [eq_comm]
  · rw [if_neg hKey, get_eq_some_iff]
    constructor
    · rintro (⟨hMem, _⟩ | ⟨hSame, _⟩ | ⟨hMem, _⟩)
      · exact hMem
      · exact absurd hSame hKey
      · exact hMem
    · intro hMem
      rcases lt_or_gt_of_ne hKey with hLess | hMore
      · exact Or.inl ⟨hMem, hLess⟩
      · exact Or.inr (Or.inr ⟨hMem, hMore⟩)

theorem get_delete (k k' : κ) : (t.delete k).get k' = if k' = k then none else t.get k' := by
  refine Option.ext fun w => ?_
  rw [get_eq_some_iff]
  simp only [delete, List.mem_filter, ne_eq, decide_not, Bool.not_eq_true', decide_eq_false_iff_not]
  by_cases hKey : k' = k
  · simp [hKey]
  · simp [hKey, get_eq_some_iff]

end Table

end XLayerErigon.Kv
