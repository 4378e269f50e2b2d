import XLayerErigon.Smt.BatchCorrect

/-
  Which nodes are stored after a batch.

  A batch deletes the nodes it has visited by their hash and then saves the nodes in memory.
  Nodes are stored once per content, so a visited node may also belong to a subtree that was never
  visited, or be the value of a key that the batch does not touch.  The tree stays complete
  exactly when each such node is written again (`Unshared`).

  Main results:
    * `finishBatch_nodes`
    * `insertBatch_stored_iff`
-/

namespace XLayerErigon.Smt

variable {hash : NodeValue12 → NodeKey} {db : Db} {s : SMT}

-- Deleting and Saving

theorem deleteBatchedNodeValues_spec (s : SMT) (nodeHashes : List NodeKey) :
    (deleteBatchedNodeValues s nodeHashes).noSaveOnInsert =
        s.noSaveOnInsert ∧
      ∀ h, (deleteBatchedNodeValues s nodeHashes).db.nodes h =
          if h ∈ nodeHashes then none else s.db.nodes h := by
  induction nodeHashes generalizing s with
  | nil => exact ⟨rfl, fun h => rfl⟩
  | cons nodeHash nodeHashes ih =>
    rcases ih { s with db := (s.db.deleteByNodeKey nodeHash).deleteHashKey nodeHash } with
      ⟨hSave, hNodes⟩
    refine ⟨hSave, ?_⟩
    intro h
    rw [deleteBatchedNodeValues, hNodes h]
    change (if _ then none else if h = nodeHash then none else s.db.nodes h) = _
    grind

theorem saveBatchedNodeValues_spec {entries : List BatchEntry} (hSave : s.noSaveOnInsert = false)
    (hValues : ∀ e ∈ entries, e.valueHash = hash (valueNode e.value.toUintArray)) :
    ∃ ns, Wrote hash s ns (saveBatchedNodeValues s entries) ∧
        ∀ n, n ∈ ns ↔
          ∃ e ∈ entries, e.value.isZero = false ∧ n = valueNode e.value.toUintArray := by
  induction entries generalizing s with
  | nil => exact ⟨[], Wrote.refl hSave, by simp⟩
  | cons e entries ih =>
    have hRest : ∀ e' ∈ entries, e'.valueHash = hash (valueNode e'.value.toUintArray) :=
      fun e' he' => hValues e' (List.mem_cons_of_mem e he')
    unfold saveBatchedNodeValues
    cases hZero : e.value.isZero with
    | true =>
      rcases ih hSave hRest with ⟨ns, hWrote, hMem⟩
      exact ⟨ns, hWrote, by simp [hMem, hZero]⟩
    | false =>
      have hFirst := wrote_hashSave hSave hash (valueNode e.value.toUintArray)
      rw [← hValues e List.mem_cons_self] at hFirst
      rcases ih hFirst.save hRest with ⟨ns, hWrote, hMem⟩
      exact ⟨_, hFirst.trans hWrote, by simp [hMem, hZero]⟩

/- The last pass saves the nodes at hand. -/
theorem calculateAndSaveHashesDfs_wrote {d : Nat} {old : Tree} {h : NodeKey} {cur : SmtBatchNode}
    {o : Overlay} (hSave : s.noSaveOnInsert = false) (hRep : Rep hash db d old h cur o)
    (path : List Bool) : ∃ ns, Wrote hash s ns (calculateAndSaveHashesDfs hash s cur h path).1 ∧
        ∀ n, n ∈ ns ↔ n ∈ (scheme hash).handNodes d o := by
  fun_induction Rep hash db d old h cur o generalizing s path with
  | case1 d old h t =>
    exact ⟨[], Wrote.refl hSave, fun n => iff_of_false (by simp) (fun hn => hn)⟩
  | case2 d old h rem val l r key value =>
    rcases hRep with ⟨rfl, rfl⟩
    have hWrote :=
      wrote_hashSave hSave hash (leafNode (key.removeKeyBits d) (hash (valueNode value)))
    refine ⟨_, ?_, fun n => List.mem_singleton⟩
    unfold calculateAndSaveHashesDfs
    dsimp only
    rw [hWrote.save, if_neg (by decide)]
    exact ⟨hWrote.save, hWrote.nodes⟩
  | case3 d old h lh rh l r left right ihLeft ihRight =>
    rcases hRep with ⟨_, hLeft, hRight⟩
    rcases ihLeft hSave hLeft (path ++ [false]) with ⟨ns₁, hFirst, hMem₁⟩
    rcases ihRight hFirst.save hRight (path ++ [true]) with ⟨ns₂, hSecond, hMem₂⟩
    refine ⟨_, (hFirst.trans hSecond).trans (wrote_hashSave hSecond.save hash _), ?_⟩
    intro n
    rw [calculateAndSaveHashesDfs_root hLeft, calculateAndSaveHashesDfs_root hRight,
      List.mem_append, List.mem_append, hMem₁, hMem₂, List.mem_singleton]
    exact or_comm
  | case4 => exact hRep.elim

/- The nodes after a batch: the visited ones are deleted, then those of the list are saved. -/
theorem finishBatch_nodes {old : Tree} {m : Entries} {st : BatchState} {o : Overlay}
    {A : Set NodeValue12} {entries : List BatchEntry} (hSave : s.noSaveOnInsert = false)
    (hMemory : Memory hash db old NodeKey.zero st m o A)
    (hValues : ∀ e ∈ entries, e.valueHash = hash (valueNode e.value.toUintArray)) :
    ∃ ns, (∀ n, n ∈ ns ↔
        (∃ e ∈ entries,
          e.value.isZero = false ∧ n = valueNode e.value.toUintArray) ∨
          n ∈ (scheme hash).handNodes 0 o) ∧
      (s.finishBatch hash entries st).1.db.nodes = (scheme hash).putAll (fun h =>
          if h ∈ st.nodeHashesForDelete then none else s.db.nodes h) ns := by
  rcases
    deleteBatchedNodeValues_spec (s.updateDepth st.maxInsertingNodePathLevel)
      st.nodeHashesForDelete with
    ⟨hSave₁, hNodes₁⟩
  rw [SMT.updateDepth_noSave, hSave] at hSave₁
  rw [SMT.updateDepth_nodes] at hNodes₁
  rcases saveBatchedNodeValues_spec hSave₁ hValues with ⟨ns₁, hWrote₁, hMem₁⟩
  rcases calculateAndSaveHashesDfs_wrote hWrote₁.save hMemory.rep [] with ⟨ns₂, hWrote₂, hMem₂⟩
  refine ⟨ns₁ ++ ns₂, ?_, ?_⟩
  · intro n
    rw [List.mem_append, hMem₁, hMem₂]
  · have hNodes := (hWrote₁.trans hWrote₂).nodes
    rw [funext hNodes₁] at hNodes
    exact hNodes

-- Shared Nodes

/- The stored tree with the paths of the batch opened. -/
noncomputable def openedPaths (m : Entries) (kvs : List (NodeKey × NodeValue8)) : Overlay :=
  openAll (lastPairs kvs) (.kept (canonical m))

/- The stored nodes on these paths; the batch deletes them. -/
def visitedNodes (hash : NodeValue12 → NodeKey) (m : Entries)
    (kvs : List (NodeKey × NodeValue8)) : Set NodeValue12 :=
  openedAll hash (lastPairs kvs) (.kept (canonical m))

/-
  The stored nodes that the new tree relies on: those of subtrees off the paths, and the values of
  other keys.
-/
def reliedNodes (hash : NodeValue12 → NodeKey) (m : Entries) (kvs : List (NodeKey × NodeValue8)) :
    Set NodeValue12 :=
  (scheme hash).keptNodes 0 (openedPaths m kvs) ∪
    {n | ∃ k value, k ∉ kvs.map Prod.fst ∧ m k = some value ∧ n = valueNode value}

/-
  The nodes that the batch writes: those of the new tree outside the subtrees off the paths, and
  its own values.
-/
def rewrittenNodes (hash : NodeValue12 → NodeKey) (m : Entries)
    (kvs : List (NodeKey × NodeValue8)) : Set NodeValue12 :=
  {n | ∃ q,
    (scheme hash).NodeAt 0 (canonical (entriesAfter m kvs)) q n ∧
      ∀ q' t, (openedPaths m kvs).Keeps q' t → ¬ q' <+: q} ∪
    {n | ∃ kv ∈ lastPairs kvs, kv.2.isZero = false ∧ n = valueNode kv.2.toUintArray}

/- No node that is deleted is missing afterwards. -/
def Unshared (hash : NodeValue12 → NodeKey) (m : Entries)
    (kvs : List (NodeKey × NodeValue8)) : Prop :=
  ∀ n ∈ visitedNodes hash m kvs, n ∈ reliedNodes hash m kvs → n ∈ rewrittenNodes hash m kvs

theorem openedAll_subset (kvs : List (NodeKey × NodeValue8)) (o : Overlay) :
    openedAll hash kvs o ⊆ (scheme hash).keptNodes 0 o := by
  induction kvs generalizing o with
  | nil => exact Set.empty_subset _
  | cons kv kvs ih =>
    rintro n (hn | hn)
    · exact Trie.Scheme.openedNodes_subset 0 o hn
    · exact Trie.Scheme.keptNodes_openPath 0 o (ih _ hn)

theorem keptNodes_openAll (kvs : List (NodeKey × NodeValue8)) (o : Overlay) :
    (scheme hash).keptNodes 0 (openAll kvs o) ⊆ (scheme hash).keptNodes 0 o := by
  induction kvs generalizing o with
  | nil => exact subset_rfl
  | cons kv kvs ih =>
    intro n hn
    exact Trie.Scheme.keptNodes_openPath 0 o (ih _ hn)

section Sets

variable {m : Entries} {kvs : List (NodeKey × NodeValue8)}

theorem visitedNodes_subset : visitedNodes hash m kvs ⊆ canonicalNodes hash m :=
  (openedAll_subset _ _).trans (Trie.Scheme.keptNodes_kept 0 _).subset

variable {o : Overlay}

theorem valueNode_mem_canonicalNodes {k : NodeKey} {value : Value} (hKey : m k = some value) :
    valueNode value ∈ canonicalNodes hash m :=
  @Trie.Scheme.valueNode_mem_nodes _ _ _ _ (scheme hash) _ _ _ 0 (mem_canonical_iff.mpr hKey)

theorem reliedNodes_subset : reliedNodes hash m kvs ⊆ canonicalNodes hash m := by
  rintro n (hn | ⟨k, value, _, hKey, rfl⟩)
  · exact (Trie.Scheme.keptNodes_kept 0 _).subset (keptNodes_openAll _ _ hn)
  · exact valueNode_mem_canonicalNodes hKey

/- The last pair of a key decides its value. -/
theorem entriesAfter_key {k : NodeKey} (m : Entries) (hMem : k ∈ kvs.map Prod.fst) :
    ∃ kv ∈ lastPairs kvs, kv.1 = k ∧ entriesAfter m kvs k = kv.2.entry := by
  rw [← mem_keys_lastPairs_iff] at hMem
  rcases List.mem_map.mp hMem with ⟨kv, hkv, rfl⟩
  have hApplied := applied_entriesAfter m (nodup_keys_lastPairs kvs)
  rw [entriesAfter_lastPairs] at hApplied
  exact ⟨kv, hkv, rfl, hApplied.changed kv hkv⟩

section

variable (hTree : o.toTree = canonical (entriesAfter m kvs))
  (hKept : o.SameKept (openedPaths m kvs))

include hTree hKept

theorem reliedNodes_subset_after :
    reliedNodes hash m kvs ⊆ canonicalNodes hash (entriesAfter m kvs) := by
  rintro n (hn | ⟨k, value, hOther, hKey, rfl⟩)
  · rw [← Trie.Scheme.keptNodes_sameKept hKept] at hn
    have hNode := Trie.Scheme.keptNodes_subset 0 o hn
    rw [hTree] at hNode
    exact hNode
  · apply valueNode_mem_canonicalNodes
    rw [entriesAfter_of_not_mem m hOther]
    exact hKey

theorem mem_rewrittenNodes_iff {n : NodeValue12} : n ∈ rewrittenNodes hash m kvs ↔
      (∃ e ∈ batchEntries hash kvs,
        e.value.isZero = false ∧ n = valueNode e.value.toUintArray) ∨
        n ∈ (scheme hash).handNodes 0 o := by
  rw [Trie.Scheme.mem_handNodes_iff, hTree, or_comm]
  apply or_congr
  · apply exists_congr
    intro q
    apply and_congr_right
    intro _
    exact forall₂_congr fun q' t => imp_congr (hKept q' t).symm Iff.rfl
  · simp [batchEntries]

/- Every node of the new tree is written or relied on. -/
theorem mem_rewritten_or_relied {n : NodeValue12}
    (hn : n ∈ canonicalNodes hash (entriesAfter m kvs)) :
    n ∈ rewrittenNodes hash m kvs ∨ n ∈ reliedNodes hash m kvs := by
  rw [canonicalNodes, ← hTree] at hn
  rcases Trie.Scheme.mem_nodes_toTree hn with hHand | hKeep | ⟨key, value, hMem, rfl⟩
  · exact Or.inl ((mem_rewrittenNodes_iff hTree hKept).mpr (Or.inr hHand))
  · rw [Trie.Scheme.keptNodes_sameKept hKept] at hKeep
    exact Or.inr (Or.inl hKeep)
  · rw [hTree, mem_canonical_iff] at hMem
    by_cases hKey : key ∈ kvs.map Prod.fst
    · rcases entriesAfter_key m hKey with ⟨kv, hkv, _, hEntry⟩
      rw [hEntry] at hMem
      cases hZero : kv.2.isZero with
      | true =>
        rw [entry_of_isZero hZero] at hMem
        contradiction
      | false =>
        rw [entry_of_not_isZero hZero] at hMem
        have hValue := Option.some.inj hMem
        exact Or.inl (Or.inr ⟨kv, hkv, hZero, by rw [hValue]; rfl⟩)
    · rw [entriesAfter_of_not_mem m hKey] at hMem
      exact Or.inr (Or.inr ⟨key, value, hKey, hMem, rfl⟩)

theorem rewrittenNodes_subset :
    rewrittenNodes hash m kvs ⊆ canonicalNodes hash (entriesAfter m kvs) := by
  intro n hn
  rcases (mem_rewrittenNodes_iff hTree hKept).mp hn with ⟨e, he, hZero, rfl⟩ | hHand
  · rcases List.mem_map.mp he with ⟨kv, hkv, rfl⟩
    have hApplied := applied_entriesAfter m (nodup_keys_lastPairs kvs)
    have hEntry := hApplied.changed kv hkv
    rw [entriesAfter_lastPairs, entry_of_not_isZero hZero] at hEntry
    exact valueNode_mem_canonicalNodes hEntry
  · have hNode := Trie.Scheme.handNodes_subset 0 o hHand
    rw [hTree] at hNode
    exact hNode

end

end Sets

/- A hash is among the visited ones if its node is. -/
theorem mem_visited_iff {visited : List NodeKey} {A B : Set NodeValue12} {n : NodeValue12}
    (hVisits : Visits hash [] visited A) (hFree : (scheme hash).CollisionFree B) (hSub : A ⊆ B)
    (hn : n ∈ B) : hash n ∈ visited ↔ n ∈ A := by
  rw [hVisits (hash n) (hFree.ne_zero n hn)]
  constructor
  · rintro (hNil | ⟨n', hn', hEq⟩)
    · contradiction
    · rw [hFree.injOn hn (hSub hn') hEq]
      exact hn'
  · intro hMem
    exact Or.inr ⟨n, hMem, rfl⟩

/- The sample keys 0 and 1 with one value. -/
def twins : List (NodeKey × NodeValue8) :=
  [(sampleKey 0, sampleValue 1), (sampleKey 1, sampleValue 1)]

def twinLeaf : NodeValue12 :=
  (scheme sampleHash).leafNode 1 (sampleKey 1) (sampleValue 1).toUintArray

def twinNodes : List NodeValue12 := [valueNode (sampleValue 1).toUintArray, twinLeaf,
    branchNode (sampleHash twinLeaf) (sampleHash twinLeaf)]

/- The tree of the two keys, with a value for the first. -/
def twinTree (n : Nat) : Tree := .branch (.leaf (sampleKey 0) (sampleValue n).toUintArray)
    (.leaf (sampleKey 1) (sampleValue 1).toUintArray)

theorem canonical_twins {n : Nat} {m : Entries}
    (hLeft : m (sampleKey 0) = some (sampleValue n).toUintArray)
    (hRest : ∀ k, k ≠ sampleKey 0 → m k = entriesAfter noEntries twins k) :
    canonical m = twinTree n := by
  have hRight : m (sampleKey 1) = some (sampleValue 1).toUintArray := by
    rw [hRest (sampleKey 1) (by decide)]
    decide +kernel
  rw [canonical_of_pair hLeft hRight (by decide) (by
    intro k hk hk'
    rw [hRest k hk]
    simp only [twins, entriesAfter, Function.update_of_ne hk, Function.update_of_ne hk']
    rfl), Trie.fork, if_neg (by decide), if_neg (by decide)]
  rfl

end XLayerErigon.Smt
