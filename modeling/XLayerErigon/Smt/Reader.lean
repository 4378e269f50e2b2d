import XLayerErigon.Smt.Traverse

/-
  Reading one value from the stored tree.

  The state reader traverses the tree along the path of a key and returns the value of the leaf it
  meets.  It does not compare the key of that leaf with its own.

  Main results:
    * `visit_readerAction`
    * `getValueInBytes_eq_iff`
-/

namespace XLayerErigon.Smt

-- The Reader

/- The action of the reader; its state is the value found. -/
def readerAction (db : Db) (keyPath : List Bool) : TraverseAction Bytes := fun path _ v value =>
    if path.isPrefixOf keyPath then
      if v.isFinalNode then
        .ok (false, (db.get v.get4to8).getNodeValue8.bytes)
      else .ok (true, value)
    else .ok (false, value)

def getValueInBytes (db : Db) (fuel : Nat) (nodeKey : NodeKey) : Option (Except Failure Bytes) :=
  traverse db (readerAction db nodeKey.getPath) fuel db.lastRoot []

-- What the Reader Finds

variable {hash : NodeValue12 → NodeKey} {db : Db}

/- The value after a walk that ended at a subtree. -/
def tipBytes (value : Bytes) : Tree → Bytes
  | .leaf _ found => found.bytes
  | _ => value

/- The walk along `k` in the tree of `m` ends at this leaf. -/
def Meets (m : Entries) (k key : NodeKey) (value : Value) : Prop :=
  (Trie.focus NodeKey.pathBit k [] (canonical m)).2 = .leaf key value

/- Along the key the reader ends with the leaf of its walk, and elsewhere it finds nothing. -/
theorem visit_readerAction {k : NodeKey} {t : Tree} {path : List Bool} (up : List Frame)
    (value : Bytes) (hLength : path.length = up.length) (hHeight : up.length + t.height ≤ 256)
    (hStored : (scheme hash).Stored db.nodes up.length t) :
    visit hash (readerAction db k.getPath) path t value =
      .ok (if path <+: k.getPath then tipBytes value (Trie.focus NodeKey.pathBit k up t).2
        else value) := by
  induction t generalizing path up value with
  | empty => simp [visit, Trie.focus, tipBytes]
  | leaf key found =>
    have hFound : (db.get ((scheme hash).leafNode path.length key found).get4to8).getNodeValue8 =
        found := congrArg NodeValue12.getNodeValue8 (get_valueNode hStored)
    have hFinal : ((scheme hash).leafNode path.length key found).isFinalNode = true := rfl
    rw [visit, readerAction, if_pos hFinal, hFound]
    simp only [List.isPrefixOf_iff_prefix, Trie.focus, tipBytes]
    split_ifs <;> rfl
  | branch left right ihLeft ihRight =>
    rw [Trie.Tree.height] at hHeight
    rw [visit, readerAction, Trie.focus, ← hLength]
    simp only [NodeValue12.isFinalNode_branchNode, List.isPrefixOf_iff_prefix, Bool.false_eq_true,
      if_false]
    by_cases hPath : path <+: k.getPath
    · -- Only the side of the key is on its path.
      have hGoes : ∀ bit, path ++ [bit] <+: k.getPath ↔ bit = k.pathBit path.length :=
        fun bit => NodeKey.append_isPrefix_getPath_iff hPath (by omega)
      simp only [hPath, if_true]
      rw [ihLeft (⟨false, right⟩ :: up) value (by simp [hLength]) (by simp; omega) hStored.left]
      refine (ihRight (⟨true, left⟩ :: up) _ (by simp [hLength]) (by simp; omega)
        hStored.right).trans ?_
      simp only [hGoes]
      cases k.pathBit path.length <;> rfl
    · simp only [hPath, if_false]

/- At the top the reader ends with the leaf of the walk. -/
theorem getValueInBytes_walk {m : Entries} (hRecords : db.Records hash m)
    (hNonzero : Nonzero hash m) (k : NodeKey) :
    ∃ steps, ∀ fuel ≥ steps, getValueInBytes db fuel k =
        some (.ok (tipBytes [] (Trie.focus NodeKey.pathBit k [] (canonical m)).2)) := by
  rcases traverse_root hRecords hNonzero (readerAction db k.getPath) [] with ⟨steps, hRun⟩
  refine ⟨steps, fun fuel hFuel => ?_⟩
  have hHeight := height_canonical_le m
  rw [getValueInBytes, hRun fuel hFuel, visit_readerAction [] [] rfl (by simpa using hHeight)
    hRecords.stored, if_pos List.nil_prefix]

/- A value that no leaf of another key can be mistaken for. -/
theorem tipBytes_eq_iff {m : Entries} {k : NodeKey} {up : List Frame} {tip : Tree}
    (hWalk : Walk m k up tip) :
    tipBytes [] tip = ((m k).map Value.bytes).getD [] ↔
      ∀ key value, tip = .leaf key value → key = k ∨ value.bytes = [] := by
  cases tip with
  | empty =>
    rw [hWalk.absent (fun value => by simp)]
    simp [tipBytes]
  | leaf key value =>
    by_cases hKey : key = k
    · subst hKey
      rw [hWalk.entry]
      simp [tipBytes]
    · rw [hWalk.absent (fun value' => by simp [hKey])]
      simp [tipBytes, hKey]
  | branch left right => exact absurd rfl (hWalk.tip_ne_branch left right)

/-
  The reader returns the stored value, or nothing for an absent key, unless the walk of an absent
  key ends at the leaf of another key.
-/
theorem getValueInBytes_eq_iff (hash : NodeValue12 → NodeKey) (db : Db) (m : Entries) (k : NodeKey)
    (hRecords : db.Records hash m) (hNonzero : Nonzero hash m) :
    ∃ value steps, (∀ fuel ≥ steps, getValueInBytes db fuel k = some (.ok value)) ∧
        (value = ((m k).map Value.bytes).getD [] ↔
          ∀ key other, Meets m k key other → key = k ∨ other.bytes = []) := by
  rcases getValueInBytes_walk hRecords hNonzero k with ⟨steps, hRun⟩
  exact ⟨_, steps, hRun, tipBytes_eq_iff (walk_canonical m k)⟩

theorem getValueInBytes_eq_iff_sample :
    ∃ s, SMT.empty.insertAll sampleHash sampleRun = .ok s ∧
        ∃ value steps, (∀ fuel ≥ steps,
              getValueInBytes s.db fuel (sampleKey 1) = some (.ok value)) ∧
            (value =
                ((entriesAfter noEntries sampleRun (sampleKey 1)).map Value.bytes).getD [] ↔
              ∀ key other, Meets (entriesAfter noEntries sampleRun) (sampleKey 1) key other →
                  key = sampleKey 1 ∨ other.bytes = []) := by
  rcases insertAll_records runFree_sampleRun with ⟨s, hRun, hRecords⟩
  refine ⟨s, hRun, ?_⟩
  apply
    getValueInBytes_eq_iff sampleHash s.db (entriesAfter noEntries sampleRun) (sampleKey 1) hRecords
  intro n hn
  have hFree := runFree_sampleRun 3
  exact hFree.ne_zero n hn

/- In the tree of the key 0 alone, the absent key 1 reads as the value of the key 0. -/
theorem getValueInBytes_other_key :
    ∃ s, SMT.empty.insertAll sampleHash [(sampleKey 0, sampleValue 1)] = .ok s ∧
        s.db.Records sampleHash (entriesAfter noEntries [(sampleKey 0, sampleValue 1)]) ∧
        entriesAfter noEntries [(sampleKey 0, sampleValue 1)] (sampleKey 1) = none ∧
        getValueInBytes s.db 1 (sampleKey 1) = some (.ok [1]) := by
  rcases insertAll_records runFree_single with ⟨s, hRun, hRecords⟩
  refine ⟨s, hRun, hRecords, by decide +kernel, ?_⟩
  have hRead :=
    @exists_ok_of_toOption _ _ (SMT.empty.insertAll sampleHash [(sampleKey 0, sampleValue 1)])
      (fun s => (getValueInBytes s.db 1 (sampleKey 1)).bind Except.toOption)
      (some [1]) (by decide +kernel)
  rcases hRead with ⟨s', hRun', hRead⟩
  rw [← Except.ok.inj (hRun.symm.trans hRun')] at hRead
  rcases Option.bind_eq_some_iff.mp hRead with ⟨result, hResult, hValue⟩
  rw [hResult]
  cases result with
  | error failure => cases hValue
  | ok value =>
    cases hValue
    rfl

end XLayerErigon.Smt
