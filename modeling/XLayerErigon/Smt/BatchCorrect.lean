import XLayerErigon.Smt.BatchChange

/-
  Batch insertion against the trie of the entries.

  Each entry takes the tree in memory from the trie of one map to the trie of the next
  (`insertBatchEntry_spec`). Over a whole batch this needs that no deletion misreads a branch and
  that the tree in memory does not run empty in between (`Orderly`).

  Main results:
    * `insertBatchLoop_spec`
    * `insertBatch_root`
-/

namespace XLayerErigon.Smt

variable {hash : NodeValue12 → NodeKey} {db : Db}

-- Deletions that Misread a Branch

/-
  The walk of an absent key stops at a branch with nothing on the side of the key, and the hash on
  the left of that branch is the rest of the key: zero where the left side is empty, and otherwise
  the hash in the stored tree `old`.
-/
def Misread (hash : NodeValue12 → NodeKey) (old : Tree) (m : Entries) (key : NodeKey) : Prop :=
  ∃ f up, Trie.focus NodeKey.pathBit key [] (canonical m) =
        (f :: up, .empty) ∧
      key.removeKeyBits up.length = if f.side then
        (scheme hash).root (up.length + 1)
          ((old.subtreeAt NodeKey.pathBit key up.length).child false)
        else NodeKey.zero

/- A key that is in the tree is found at a leaf. -/
theorem not_misread_of_some {old : Tree} {m : Entries} {key : NodeKey} {value : Value}
    (hKey : m key = some value) : ¬ Misread hash old m key := by
  rintro ⟨f, up, hFocus, _⟩
  have hFound := (walk_canonical m key).found value hKey
  rw [hFocus] at hFound
  contradiction

/- The place of a pointer is on the path of the key. -/
theorem oldAt_eq_subtreeAt {old : Tree} {key : NodeKey} {up : List OverFrame}
    (hFollows : Trie.Follows NodeKey.pathBit key (frames up)) :
    oldAt old up = old.subtreeAt NodeKey.pathBit key up.length := by
  induction up with
  | nil => rfl
  | cons f up ih =>
    have hSide := hFollows.1
    rw [List.length_map] at hSide
    rw [oldAt, ih hFollows.2, List.length_cons, Trie.Tree.subtreeAt, ← hSide]
    rfl

/- A branch is not taken for the leaf of the key. -/
theorem told_of_not_misread {old : Tree} {m : Entries} {key lh rh : NodeKey} {l r : SmtBatchNode}
    {bup : List BatchFrame} {up : List OverFrame} {tip : Overlay}
    (hPoint : AtPoint hash db old bup (.node lh rh false l r) up tip)
    (hFocus : Trie.focus NodeKey.pathBit key [] (canonical m) =
      (frames up, tip.toTree))
    (hFollows : Trie.Follows NodeKey.pathBit key (frames up))
    (hRead : ¬ Misread hash old m key) : lh ≠ key.removeKeyBits bup.length := by
  generalize hCur : SmtBatchNode.node lh rh false l r = cur at hPoint
  cases hPoint with
  | root => contradiction
  | leaf hUp hRem hVal =>
    injection hCur with _ _ hLeaf
    contradiction
  | @gap bf bup f up hUp hZero =>
    rw [plug_nil_eq] at hCur
    injection hCur with hLeft
    subst hLeft
    intro hEq
    apply hRead
    have hBit := hFollows.1
    rw [List.length_map] at hBit
    refine ⟨f.toFrame, frames up, hFocus, ?_⟩
    rw [List.length_map, ← oldAt_eq_subtreeAt hFollows.2, ← hUp.2.2.length_eq, ← hEq]
    rw [BatchFrame.childHash, hUp.1.1] at hZero
    change f.side = key.pathBit up.length at hBit
    change bf.leftHash = if f.side then _ else _
    cases hSide : f.side with
    | false =>
      rw [hSide] at hZero
      exact hZero
    | true =>
      rcases hUp.1.2 with hNoted | hNoted
      · rw [hSide] at hBit
        rw [hUp.2.2.length_eq, hNoted] at hEq
        exact absurd hEq.symm (NodeKey.removeKeyBits_ne_zero hBit.symm)
      · rw [hUp.2.2.length_eq]
        exact hNoted

-- One Entry

theorem Visits.append {visited : List NodeKey} {A : Set NodeValue12}
    (hVisits : Visits hash [] visited A) (before : List NodeKey) :
    Visits hash before (before ++ visited) A := by
  intro h hh
  rw [List.mem_append, hVisits h hh]
  simp

structure Memory (hash : NodeValue12 → NodeKey) (db : Db) (old : Tree)
    (h : NodeKey) (st : BatchState) (m : Entries) (o : Overlay) (A : Set NodeValue12) : Prop where
  rep : Rep hash db 0 old h st.smtBatchNodeRoot o
  tree : o.toTree = canonical m
  visited : Visits hash [] st.nodeHashesForDelete A

/- The end of a walk that starts at the root. -/
structure WalkEnd (hash : NodeValue12 → NodeKey)
    (db : Db) (old : Tree) (m : Entries) (o : Overlay) (key : NodeKey)
    (sib : Bool) (p : InsertingPoint) (up : List OverFrame) (tip : Overlay) : Prop where
  point : AtPoint hash db old p.up p.cur up tip
  focus : Trie.focus NodeKey.pathBit key [] (canonical m) =
      (up.map Trie.Overlay.OverFrame.toFrame, tip.toTree)
  walk : Walk m key (up.map Trie.Overlay.OverFrame.toFrame) tip.toTree
  plug : Trie.Overlay.plug up tip = Trie.Overlay.openPath NodeKey.pathBit key sib 0 o
  loaded : sib = true → ∀ f ∈ up, f.sibling.Loaded
  visits :
    Visits hash [] p.visitedNodeHashes ((scheme hash).openedNodes NodeKey.pathBit key sib 0 o)

theorem findInsertingPoint_root {old : Tree} {rootHash : NodeKey} {root : SmtBatchNode}
    {m : Entries} {o : Overlay} (hRep : Rep hash db 0 old rootHash root o)
    (hTree : o.toTree = canonical m) (key : NodeKey) (sib : Bool) :
    ∃ p up tip, findInsertingPoint db sib key.getPath [] rootHash root [] = .ok p ∧
        WalkEnd hash db old m o key sib p up tip := by
  have hHeight : o.toTree.height + 0 ≤ 256 := by
    rw [hTree]
    exact height_canonical_le m
  rcases
    @findInsertingPoint_spec hash db old sib key key.getPath [] [] rootHash root o rfl trivial hRep
      (fun hNe => absurd rfl hNe) hHeight [] with
    ⟨p, hFind, hPoint, hVisits⟩
  have hFocus := Trie.Overlay.focus_toTree [] (Trie.Overlay.openPath NodeKey.pathBit key sib 0 o)
      (Trie.Overlay.loaded_focus_openPath [] o)
  rw [Trie.Overlay.toTree_openPath, hTree, List.map_nil] at hFocus
  have hWalk := walk_canonical m key
  rw [hFocus] at hWalk
  refine ⟨p, _, _, hFind, hPoint, hFocus, hWalk, Trie.Overlay.plug_focus [] _, ?_, hVisits⟩
  rintro rfl
  apply Trie.Overlay.loaded_sibling_openPath [] o
  intro f hf
  contradiction

/- One entry changes the map at its key and loads what the path of its key needs. -/
theorem insertBatchEntry_spec {old : Tree} {rootHash : NodeKey} {st : BatchState} {m : Entries}
    {o : Overlay} {A : Set NodeValue12} {e : BatchEntry}
    (hMemory : Memory hash db old rootHash st m o A)
    (hValue : e.valueHash = hash (valueNode e.value.toUintArray))
    (hRead : e.value.isZero = true → ¬ Misread hash old m e.key) :
    ∃ st' o', insertBatchEntry db rootHash st e = .ok st' ∧
        Memory hash db old NodeKey.zero st' (Function.update m e.key e.value.entry) o'
          (A ∪ (scheme hash).openedNodes NodeKey.pathBit e.key e.value.isZero 0 o) ∧
        o'.SameKept (Trie.Overlay.openPath NodeKey.pathBit e.key e.value.isZero 0 o) := by
  rcases findInsertingPoint_root hMemory.rep hMemory.tree e.key e.value.isZero with
    ⟨p, up, tip, hFind, hEnd⟩
  have hVisits : Visits hash [] (st.nodeHashesForDelete ++ p.visitedNodeHashes)
        (A ∪ (scheme hash).openedNodes NodeKey.pathBit e.key e.value.isZero 0 o) :=
    hMemory.visited.trans (hEnd.visits.append _)
  unfold insertBatchEntry
  rw [hFind]
  cases hZero : e.value.isZero with
  | false =>
    rcases insertAtPoint_spec hEnd.point hEnd.walk e.value.toUintArray with
      ⟨bup, cur, hInsert, o', hRep, hTree, hKept⟩
    rw [← hValue] at hInsert
    rw [hEnd.plug, hZero] at hKept
    rw [hZero] at hVisits
    simp only [bind, Except.bind, if_false, Bool.false_eq_true, hInsert]
    refine ⟨_, o', rfl, ⟨hRep, ?_, hVisits⟩, hKept⟩
    rw [entry_of_not_isZero hZero]
    exact hTree
  | true =>
    have hTold :
        ∀ lh rh l r, p.cur = .node lh rh false l r → lh ≠ e.key.removeKeyBits p.up.length := by
      intro lh rh l r hCur
      have hPoint := hEnd.point
      rw [hCur] at hPoint
      exact told_of_not_misread hPoint hEnd.focus hEnd.walk.follows (hRead hZero)
    rcases deleteAtPoint_spec hEnd.point hEnd.walk (hEnd.loaded hZero) hTold with
      ⟨o', hRep, hTree, hKept⟩
    rw [hEnd.plug, hZero] at hKept
    rw [hZero] at hVisits
    simp only [bind, Except.bind, if_true, pure, Except.pure]
    refine ⟨_, o', rfl, ⟨hRep, ?_, hVisits⟩, hKept⟩
    rw [entry_of_isZero hZero]
    exact hTree

-- All Entries

/-
  The entries of a batch do not run into each other: no deletion misreads a branch, and the tree
  in memory runs empty before the last entry only if the stored tree `m₀` is empty.  The map is
  `m` before the first entry.
-/
structure Orderly
    (hash : NodeValue12 → NodeKey) (m₀ m : Entries) (kvs : List (NodeKey × NodeValue8)) : Prop where
  read : ∀ before k v after, kvs = before ++ (k, v) :: after →
      v.isZero = true → ¬ Misread hash (canonical m₀) (entriesAfter m before) k
  kept : ∀ before after, kvs = before ++ after → before ≠ [] → after ≠ [] →
      entriesAfter m before = noEntries → m₀ = noEntries

theorem Orderly.tail {m₀ m : Entries} {kv : NodeKey × NodeValue8}
    {kvs : List (NodeKey × NodeValue8)} (hOrderly : Orderly hash m₀ m (kv :: kvs)) :
    Orderly hash m₀ (Function.update m kv.1 kv.2.entry) kvs where
  read := by
    rintro before k v after rfl hZero
    exact hOrderly.read (kv :: before) k v after rfl hZero
  kept := by
    rintro before after rfl hBefore hAfter
    exact hOrderly.kept (kv :: before) after rfl (by simp) hAfter

/- The paths of a batch, opened one after the other. -/
def openAll :
    List (NodeKey × NodeValue8) → Overlay → Overlay
  | [], o => o
  | (k, v) :: kvs, o =>
      openAll kvs (Trie.Overlay.openPath NodeKey.pathBit k v.isZero 0 o)

/- The stored nodes that opening these paths reads. -/
def openedAll (hash : NodeValue12 → NodeKey) :
    List (NodeKey × NodeValue8) → Overlay → Set NodeValue12
  | [], _ => ∅
  | (k, v) :: kvs, o =>
      (scheme hash).openedNodes NodeKey.pathBit k v.isZero 0 o ∪
        openedAll hash kvs (Trie.Overlay.openPath NodeKey.pathBit k v.isZero 0 o)

/- The pairs that the entries of a batch stand for. -/
def pairs (entries : List BatchEntry) : List (NodeKey × NodeValue8) :=
  entries.map (fun e => (e.key, e.value))

theorem canonical_eq_empty {m : Entries} (hEmpty : canonical m = .empty) : m = noEntries :=
  funext (canonical_eq_empty_iff.mp hEmpty)

theorem canonicalRoot_noEntries (hash : NodeValue12 → NodeKey) :
    canonicalRoot hash noEntries = NodeKey.zero := by
  rw [canonicalRoot, canonical_noEntries]
  rfl

/-
  The root that is missing in memory is looked up under the hash of the stored root, which must
  then be zero.
-/
theorem Memory.reload {old : Tree} {h : NodeKey} {st : BatchState} {m : Entries} {o : Overlay}
    {A : Set NodeValue12} (hMemory : Memory hash db old NodeKey.zero st m o A)
    (hZero : m = noEntries → h = NodeKey.zero) : Memory hash db old h st m o A := by
  refine ⟨?_, hMemory.tree, hMemory.visited⟩
  have hRep := hMemory.rep
  have hTree := hMemory.tree
  rcases hRep.cases with ⟨t, hRoot, rfl, hRootHash, hKept, -⟩ | ⟨_, _, _, _, hRoot, -⟩ |
    ⟨_, _, _, _, _, _, hRoot, -⟩ <;> rw [hRoot] at hRep ⊢
  · obtain rfl : t = .empty := hKept.free.root_eq_zero_iff.mp hRootHash.symm
    rw [hZero (canonical_eq_empty hTree.symm)]
    exact rep_nil 0
  · exact hRep.any_hash
  · exact hRep.any_hash

/- The loop, by induction on the entries after the first. -/
theorem insertBatchLoop_spec {m₀ m : Entries} {st : BatchState} {o o₀ : Overlay}
    {A : Set NodeValue12} {e : BatchEntry} {entries : List BatchEntry}
    (hMemory : Memory hash db (canonical m₀) (canonicalRoot hash m₀) st m o A)
    (hSame : o.SameKept o₀)
    (hValues : ∀ e' ∈ e :: entries, e'.valueHash = hash (valueNode e'.value.toUintArray))
    (hOrderly : Orderly hash m₀ m (pairs (e :: entries))) :
    ∃ st' o', insertBatchLoop db (canonicalRoot hash m₀) st (e :: entries) = .ok st' ∧
        Memory hash db (canonical m₀) NodeKey.zero st' (entriesAfter m (pairs (e :: entries))) o'
          (A ∪ openedAll hash (pairs (e :: entries)) o₀) ∧
        o'.SameKept (openAll (pairs (e :: entries)) o₀) := by
  induction entries generalizing e st m o o₀ A with
  | nil =>
    rcases
      insertBatchEntry_spec hMemory (hValues e List.mem_cons_self)
        (hOrderly.read [] e.key e.value [] rfl) with
      ⟨st', o', hStep, hMemory', hKept⟩
    rw [Trie.Scheme.openedNodes_sameKept hSame] at hMemory'
    refine ⟨st', o', ?_, ?_, hKept.trans (hSame.openPath 0)⟩
    · rw [insertBatchLoop, hStep]
      rfl
    · simp only [pairs, List.map_cons, List.map_nil, openedAll, Set.union_empty]
      exact hMemory'
  | cons e' entries ih =>
    rcases
      insertBatchEntry_spec hMemory (hValues e List.mem_cons_self)
        (hOrderly.read [] e.key e.value (pairs (e' :: entries)) rfl) with
      ⟨st₁, o₁, hStep, hMemory₁, hKept⟩
    rw [Trie.Scheme.openedNodes_sameKept hSame] at hMemory₁
    have hReload := hMemory₁.reload (h := canonicalRoot hash m₀) (fun hEmpty => by
        rw [hOrderly.kept [(e.key, e.value)] (pairs (e' :: entries)) rfl (by simp)
          (by simp [pairs]) hEmpty]
        exact canonicalRoot_noEntries hash)
    rcases ih hReload (hKept.trans (hSame.openPath 0)) (fun e'' he'' =>
      hValues e'' (List.mem_cons_of_mem e he'')) hOrderly.tail with
      ⟨st', o', hRun, hMemory', hKept'⟩
    refine ⟨st', o', ?_, ?_, hKept'⟩
    · rw [insertBatchLoop, hStep]
      exact hRun
    · rw [Set.union_assoc] at hMemory'
      exact hMemory'

/- The last pass finds the root of the tree in memory. -/
theorem calculateAndSaveHashesDfs_root {d : Nat} {old : Tree} {h : NodeKey} {cur : SmtBatchNode}
    {o : Overlay} (hRep : Rep hash db d old h cur o) (s : SMT) (path : List Bool) :
    (calculateAndSaveHashesDfs hash s cur h path).2 = (scheme hash).root d o.toTree := by
  fun_induction Rep hash db d old h cur o generalizing s path with
  | case1 d old h t => exact hRep.1
  | case2 d old h rem val l r key value =>
    rcases hRep with ⟨rfl, rfl⟩
    rfl
  | case3 d old h lh rh l r left right ihLeft ihRight =>
    rcases hRep with ⟨_, hLeft, hRight⟩
    change
      hash (branchNode (calculateAndSaveHashesDfs hash s l lh _).2
        (calculateAndSaveHashesDfs hash _ r rh _).2) = _
    rw [ihLeft hLeft, ihRight hRight]
    rfl
  | case4 => exact hRep.elim

-- Preprocessing

def lastPairs :
    List (NodeKey × NodeValue8) → List (NodeKey × NodeValue8)
  | [] => []
  | kv :: kvs =>
      if kvs.any (fun kv' => kv'.1 == kv.1) then
        lastPairs kvs
      else kv :: lastPairs kvs

/- The entries that are made of a list of pairs. -/
def batchEntries (hash : NodeValue12 → NodeKey) (kvs : List (NodeKey × NodeValue8)) :
    List BatchEntry :=
  (lastPairs kvs).map (fun kv => ⟨kv.1, kv.2, hash (valueNode kv.2.toUintArray)⟩)

theorem removeDuplicateEntriesByKeys_map (kvs : List (NodeKey × NodeValue8)) :
    removeDuplicateEntriesByKeys (kvs.map (fun kv => (kv.1, kv.2, none))) =
      (lastPairs kvs).map (fun kv => (kv.1, kv.2, none)) := by
  induction kvs with
  | nil => rfl
  | cons kv kvs ih =>
    have hAny : (kvs.map (fun kv =>
      (kv.1, kv.2, (none : Option NodeKey)))).any
        (fun e => e.1 == kv.1) = kvs.any (fun kv' => kv'.1 == kv.1) :=
      List.any_map
    rw [List.map_cons, removeDuplicateEntriesByKeys, hAny, lastPairs, ih]
    cases kvs.any (fun kv' => kv'.1 == kv.1) <;> rfl

theorem preprocessBatchedNodeValues_eq (hash : NodeValue12 → NodeKey)
    (kvs : List (NodeKey × NodeValue8)) :
    preprocessBatchedNodeValues hash (kvs.map Prod.fst) (kvs.map Prod.snd) none =
      .ok (batchEntries hash kvs) := by
  have hZip : (kvs.map Prod.fst).zip ((kvs.map Prod.snd).zip (List.replicate kvs.length none)) =
        kvs.map (fun kv => (kv.1, kv.2, (none : Option NodeKey))) := by
    induction kvs with
    | nil => rfl
    | cons kv kvs ih =>
      simp only [List.map_cons, List.length_cons, List.replicate_succ, List.zip_cons_cons, ih]
  have hLengths : validateDataLengths (kvs.map Prod.fst) (kvs.map Prod.snd) none =
        .ok (List.replicate kvs.length none) := by
    simp [validateDataLengths]
  unfold preprocessBatchedNodeValues
  rw [hLengths]
  change Except.ok ((removeDuplicateEntriesByKeys _).map (calculateNodeValueHashIfMissing hash)) = _
  rw [hZip, removeDuplicateEntriesByKeys_map, List.map_map]
  rfl

theorem pairs_batchEntries (hash : NodeValue12 → NodeKey) (kvs : List (NodeKey × NodeValue8)) :
    pairs (batchEntries hash kvs) = lastPairs kvs := by
  unfold pairs batchEntries
  rw [List.map_map]
  exact List.map_id _

theorem valueHash_batchEntries {kvs : List (NodeKey × NodeValue8)} {e : BatchEntry}
    (he : e ∈ batchEntries hash kvs) : e.valueHash = hash (valueNode e.value.toUintArray) := by
  rcases List.mem_map.mp he with ⟨kv, _, rfl⟩
  rfl

/- An entry does not matter if its key comes again. -/
theorem entriesAfter_update_of_mem {m : Entries} {k : NodeKey} {kvs : List (NodeKey × NodeValue8)}
    (value : Option Value) (hMem : ∃ kv ∈ kvs, kv.1 = k) :
    entriesAfter (Function.update m k value) kvs = entriesAfter m kvs := by
  induction kvs generalizing m with
  | nil =>
    rcases hMem with ⟨kv, hkv, _⟩
    contradiction
  | cons kv kvs ih =>
    by_cases hKey : kv.1 = k
    · rw [entriesAfter, entriesAfter, hKey, Function.update_idem]
    · have hRest : ∃ kv' ∈ kvs, kv'.1 = k := by grind
      rw [entriesAfter, entriesAfter, Function.update_comm (Ne.symm hKey), ih hRest]

theorem entriesAfter_lastPairs (m : Entries) (kvs : List (NodeKey × NodeValue8)) :
    entriesAfter m (lastPairs kvs) = entriesAfter m kvs := by
  induction kvs generalizing m with
  | nil => rfl
  | cons kv kvs ih =>
    rw [lastPairs]
    split <;> rename_i hAny
    · rw [ih, entriesAfter, entriesAfter_update_of_mem kv.2.entry]
      simpa using hAny
    · exact ih _

theorem mem_of_mem_lastPairs {kv : NodeKey × NodeValue8} {kvs : List (NodeKey × NodeValue8)}
    (hMem : kv ∈ lastPairs kvs) : kv ∈ kvs := by
  fun_induction lastPairs kvs <;> grind

/- The same keys, each of them once. -/
theorem mem_keys_lastPairs_iff (k : NodeKey) (kvs : List (NodeKey × NodeValue8)) :
    k ∈ (lastPairs kvs).map Prod.fst ↔ k ∈ kvs.map Prod.fst := by
  fun_induction lastPairs kvs <;> grind

theorem nodup_keys_lastPairs (kvs : List (NodeKey × NodeValue8)) :
    ((lastPairs kvs).map Prod.fst).Nodup := by
  fun_induction lastPairs kvs with
  | case1 => exact List.nodup_nil
  | case2 kv kvs hAny ih => exact ih
  | case3 kv kvs hAny ih =>
    rw [List.map_cons, List.nodup_cons, mem_keys_lastPairs_iff]
    exact ⟨by grind, ih⟩

theorem lastPairs_ne_nil {kvs : List (NodeKey × NodeValue8)} (hSome : kvs ≠ []) :
    lastPairs kvs ≠ [] := by
  fun_induction lastPairs kvs <;> grind

-- Batches

/- Before the first entry everything is kept. -/
theorem memory_start {s : SMT} {m : Entries} (hHolds : Holds hash s m)
    (hFree : (scheme hash).CollisionFree (canonicalNodes hash m)) :
    Memory hash s.db (canonical m) (canonicalRoot hash m)
      ⟨.nil, [], 0⟩ m (.kept (canonical m)) ∅ where
  rep := ⟨rfl, ⟨hHolds.stored, hFree⟩, Or.inr rfl⟩
  tree := rfl
  visited := Visits.refl []

/- The call, once its loop has run. -/
theorem insertBatch_of_loop {s : SMT} {m : Entries} {kvs : List (NodeKey × NodeValue8)}
    {st : BatchState} (hHolds : Holds hash s m)
    (hRun : insertBatchLoop s.db (canonicalRoot hash m)
      ⟨.nil, [], 0⟩ (batchEntries hash kvs) = .ok st) :
    s.insertBatch hash (kvs.map Prod.fst) (kvs.map Prod.snd) none none =
      .ok
        ((s.finishBatch hash (batchEntries hash kvs) st).1.setLastRoot
          (s.finishBatch hash (batchEntries hash kvs) st).2,
        ⟨(s.finishBatch hash (batchEntries hash kvs) st).2, .batchInsert⟩) := by
  unfold SMT.insertBatch
  rw [preprocessBatchedNodeValues_eq, Option.getD_none, hHolds.lastRoot]
  change
    (insertBatchLoop s.db (canonicalRoot hash m) ⟨.nil, [], 0⟩ (batchEntries hash kvs) >>= _) = _
  rw [hRun]
  rfl

/- Without entries the call finds the root of no tree. -/
theorem insertBatch_nil {s : SMT} {m : Entries} (hHolds : Holds hash s m) :
    ∃ s', s.insertBatch hash [] [] none none = .ok (s', ⟨NodeKey.zero, .batchInsert⟩) :=
  ⟨_, @insertBatch_of_loop hash s m [] _ hHolds rfl⟩

theorem insertBatchLoop_orderly {s : SMT} {m : Entries} {kvs : List (NodeKey × NodeValue8)}
    (hHolds : Holds hash s m) (hFree : (scheme hash).CollisionFree (canonicalNodes hash m))
    (hSome : kvs ≠ []) (hOrderly : Orderly hash m m (lastPairs kvs)) :
    ∃ st o,
      insertBatchLoop s.db (canonicalRoot hash m) ⟨.nil, [], 0⟩ (batchEntries hash kvs) = .ok st ∧
        Memory hash s.db (canonical m) NodeKey.zero st (entriesAfter m kvs) o
          (openedAll hash (lastPairs kvs) (.kept (canonical m))) ∧
        o.SameKept (openAll (lastPairs kvs) (.kept (canonical m))) := by
  have hEntries : ∃ e entries, batchEntries hash kvs = e :: entries := by
    apply List.exists_cons_of_ne_nil
    unfold batchEntries
    rw [ne_eq, List.map_eq_nil_iff]
    exact lastPairs_ne_nil hSome
  rcases hEntries with ⟨e, entries, hEntries⟩
  have hPairs := pairs_batchEntries hash kvs
  have hValues := @valueHash_batchEntries hash kvs
  rw [hEntries] at hPairs hValues
  rw [← hPairs] at hOrderly
  rcases
    insertBatchLoop_spec (memory_start hHolds hFree)
      (fun _ _ => Iff.rfl) (fun e' he' => hValues he') hOrderly with
    ⟨st, o, hRun, hMemory, hKept⟩
  rw [hPairs] at hMemory hKept
  rw [entriesAfter_lastPairs, Set.empty_union] at hMemory
  rw [hEntries]
  exact ⟨st, o, hRun, hMemory, hKept⟩

theorem finishBatch_root {old : Tree} {st : BatchState} {m : Entries} {o : Overlay}
    {A : Set NodeValue12} (hMemory : Memory hash db old NodeKey.zero st m o A) (s : SMT)
    (entries : List BatchEntry) : (s.finishBatch hash entries st).2 = canonicalRoot hash m := by
  have hRoot :=
    calculateAndSaveHashesDfs_root hMemory.rep
      (saveBatchedNodeValues
        (deleteBatchedNodeValues
          (s.updateDepth st.maxInsertingNodePathLevel) st.nodeHashesForDelete)
        entries)
      []
  rw [hMemory.tree] at hRoot
  exact hRoot

/- An orderly batch leads to the trie of the changed map. -/
theorem insertBatch_root {s : SMT} {m : Entries} {kvs : List (NodeKey × NodeValue8)}
    (hHolds : Holds hash s m) (hFree : (scheme hash).CollisionFree (canonicalNodes hash m))
    (hSome : kvs ≠ []) (hOrderly : Orderly hash m m (lastPairs kvs)) :
    ∃ s', s.insertBatch hash (kvs.map Prod.fst) (kvs.map Prod.snd) none none =
        .ok (s', ⟨canonicalRoot hash (entriesAfter m kvs), .batchInsert⟩) := by
  rcases insertBatchLoop_orderly hHolds hFree hSome hOrderly with ⟨st, o, hRun, hMemory, _⟩
  rw [insertBatch_of_loop hHolds hRun, finishBatch_root hMemory]
  exact ⟨_, rfl⟩

/- A batch without deletions is orderly. -/
theorem orderly_of_values {m₀ m : Entries} {kvs : List (NodeKey × NodeValue8)}
    (hValues : ∀ kv ∈ kvs, kv.2.isZero = false) :
    Orderly hash m₀ m kvs where
  read := by
    rintro before k v after rfl hZero
    have hValue := hValues (k, v) (by simp)
    rw [hZero] at hValue
    contradiction
  kept := by
    intro before after hSplit hBefore _ hEmpty
    rcases List.eq_nil_or_concat before with hNil | ⟨start, ⟨k, v⟩, hLast⟩
    · contradiction
    · have hValue := hValues (k, v) (by simp [hSplit, hLast])
      have hKey := congrFun hEmpty k
      rw [hLast, List.concat_eq_append, entriesAfter_append] at hKey
      simp only [entriesAfter, Function.update_self, entry_of_not_isZero hValue, noEntries] at hKey
      contradiction

/- A batch on the tree that some insertions have made. -/
def batchAfter (hash : NodeValue12 → NodeKey) (before kvs : List (NodeKey × NodeValue8)) :
    Except Failure (SMT × SMTResponse) := do
  let s ← SMT.empty.insertAll hash before
  s.insertBatch hash (kvs.map Prod.fst) (kvs.map Prod.snd) none none

theorem batchAfter_ne {before kvs : List (NodeKey × NodeValue8)} {m : Entries} {root : NodeKey}
    (hRun : (batchAfter sampleHash before kvs).toOption.map (·.2.newRootScalar) = some root)
    (hNe : root ≠ canonicalRoot sampleHash m) :
    ∃ s' response, batchAfter sampleHash before kvs = .ok (s', response) ∧
        response.newRootScalar ≠ canonicalRoot sampleHash m := by
  rcases exists_ok_of_toOption hRun with ⟨⟨s', response⟩, hOk, rfl⟩
  exact ⟨s', response, hOk, hNe⟩

-- Batches with Deletions

/- The map with all pairs applied, in whatever order. -/
structure Applied (m : Entries) (kvs : List (NodeKey × NodeValue8)) (m' : Entries) : Prop where
  changed : ∀ kv ∈ kvs, m' kv.1 = kv.2.entry
  other : ∀ k, k ∉ kvs.map Prod.fst → m' k = m k

theorem entriesAfter_of_not_mem {kvs : List (NodeKey × NodeValue8)} {k : NodeKey} (m : Entries)
    (hOther : k ∉ kvs.map Prod.fst) : entriesAfter m kvs k = m k := by
  induction kvs generalizing m with
  | nil => rfl
  | cons kv kvs ih =>
    rw [List.map_cons, List.mem_cons, not_or] at hOther
    rw [entriesAfter, ih _ hOther.2, Function.update_of_ne hOther.1]

theorem applied_entriesAfter {kvs : List (NodeKey × NodeValue8)} (m : Entries)
    (hDistinct : (kvs.map Prod.fst).Nodup) :
    Applied m kvs (entriesAfter m kvs) where
  changed := by
    induction kvs generalizing m with
    | nil => simp
    | cons kv kvs ih =>
      rw [List.map_cons, List.nodup_cons] at hDistinct
      intro kv' hkv'
      rcases List.mem_cons.mp hkv' with rfl | hkv'
      · rw [entriesAfter, entriesAfter_of_not_mem _ hDistinct.1, Function.update_self]
      · exact ih _ hDistinct.2 kv' hkv'
  other := fun _ hOther => entriesAfter_of_not_mem m hOther

/- The pairs and the old map determine the new one. -/
theorem Applied.eq {m m₁ m₂ : Entries} {kvs : List (NodeKey × NodeValue8)} (h₁ : Applied m kvs m₁)
    (h₂ : Applied m kvs m₂) : m₁ = m₂ := by
  funext k
  by_cases hMem : k ∈ kvs.map Prod.fst
  · rcases List.mem_map.mp hMem with ⟨kv, hkv, rfl⟩
    rw [h₁.changed kv hkv, h₂.changed kv hkv]
  · rw [h₁.other k hMem, h₂.other k hMem]

theorem lastPairs_of_nodup {kvs : List (NodeKey × NodeValue8)}
    (hDistinct : (kvs.map Prod.fst).Nodup) : lastPairs kvs = kvs := by
  induction kvs with
  | nil => rfl
  | cons kv kvs ih =>
    rw [List.map_cons, List.nodup_cons] at hDistinct
    rw [lastPairs, if_neg, ih hDistinct.2]
    intro hAny
    apply hDistinct.1
    rcases List.any_eq_true.mp hAny with ⟨kv', hkv', hEq⟩
    exact List.mem_map.mpr ⟨kv', hkv', eq_of_beq hEq⟩

/- An orderly batch of distinct keys finds the root of the old map with all pairs applied. -/
theorem insertBatch_root_applied (hash : NodeValue12 → NodeKey) (s : SMT) (m m' : Entries)
    (kvs : List (NodeKey × NodeValue8)) (hHolds : Holds hash s m)
    (hFree : (scheme hash).CollisionFree (canonicalNodes hash m))
    (hDistinct : (kvs.map Prod.fst).Nodup) (hApplied : Applied m kvs m')
    (hSome : kvs ≠ [] ∨ m = noEntries) (hOrderly : Orderly hash m m kvs) :
    ∃ s', s.insertBatch hash (kvs.map Prod.fst) (kvs.map Prod.snd) none none =
        .ok (s', ⟨canonicalRoot hash m', .batchInsert⟩) := by
  have hAfter : m' = entriesAfter m kvs := hApplied.eq (applied_entriesAfter m hDistinct)
  rw [hAfter]
  by_cases hNil : kvs = []
  · subst hNil
    rcases hSome with hSome | rfl
    · contradiction
    · rcases insertBatch_nil hHolds with ⟨s', hBatch⟩
      refine ⟨s', ?_⟩
      rw [entriesAfter, canonicalRoot_noEntries]
      exact hBatch
  · apply insertBatch_root hHolds hFree hNil
    rw [lastPairs_of_nodup hDistinct]
    exact hOrderly

/- Add the sample key 1, then delete the only old key. -/
theorem orderly_sample :
    Orderly sampleHash (entriesAfter noEntries [(sampleKey 0, sampleValue 1)])
      (entriesAfter noEntries [(sampleKey 0, sampleValue 1)])
      [(sampleKey 1, sampleValue 2), (sampleKey 0, sampleValue 0)] where
  read := by
    intro before k v after hSplit hZero
    match before with
    | [] =>
      injection hSplit with hHead
      rw [← (Prod.mk.inj hHead).2] at hZero
      contradiction
    | [kv] =>
      simp only [List.cons_append, List.nil_append, List.cons.injEq] at hSplit
      rcases hSplit with ⟨rfl, hLast, _⟩
      rw [← (Prod.mk.inj hLast).1]
      exact @not_misread_of_some _ _ _ _ (sampleValue 1).toUintArray (by decide +kernel)
    | kv :: kv' :: rest => simp at hSplit
  kept := by
    intro before after hSplit hBefore hAfter hEmpty
    match before with
    | [] => contradiction
    | [kv] =>
      simp only [List.cons_append, List.nil_append, List.cons.injEq] at hSplit
      rcases hSplit with ⟨rfl, _⟩
      have hKey := congrFun hEmpty (sampleKey 1)
      exact absurd hKey (by decide +kernel)
    | kv :: kv' :: rest =>
      simp only [List.cons_append, List.cons.injEq, List.nil_eq, List.append_eq_nil_iff] at hSplit
      exact absurd hSplit.2.2.2 hAfter

theorem insertBatch_root_applied_sample :
    ∃ s, SMT.empty.insertAll sampleHash [(sampleKey 0, sampleValue 1)] = .ok s ∧
        ∃ s', s.insertBatch sampleHash [sampleKey 1, sampleKey 0]
              [sampleValue 2, sampleValue 0] none none =
            .ok
              (s',
                ⟨canonicalRoot sampleHash
                  (Function.update noEntries (sampleKey 1) (sampleValue 2).entry),
                  .batchInsert⟩) := by
  rcases insertAll_run (holds_empty sampleHash) runFree_single with ⟨s, hRun, hHolds⟩
  refine ⟨s, hRun, ?_⟩
  refine
    insertBatch_root_applied sampleHash s _ _
      [(sampleKey 1, sampleValue 2), (sampleKey 0, sampleValue 0)]
      hHolds (runFree_sampleRun 1) ?_ ⟨?_, ?_⟩ (Or.inl (List.cons_ne_nil _ _)) orderly_sample
  · have hNe : sampleKey 1 ≠ sampleKey 0 := by decide
    rw [List.map_cons, List.map_cons, List.map_nil, List.nodup_cons, List.mem_singleton]
    exact ⟨hNe, List.nodup_singleton _⟩
  · intro kv hkv
    rcases List.mem_pair.mp hkv with rfl | rfl
    · exact Function.update_self ..
    · rw [Function.update_of_ne (by decide)]
      rfl
  · intro k hOther
    simp only [List.map_cons, List.map_nil, List.mem_cons,
      List.not_mem_nil, or_false, not_or] at hOther
    rw [entriesAfter, entriesAfter, Function.update_of_ne hOther.1, Function.update_of_ne hOther.2]

/-
  A batch that deletes the only key and then adds another one finds the deleted key in the tree
  again, and one that deletes the absent key zero loses the keys 1 and 3.
-/
theorem batchAfter_delete_ne :
    (∃ s' response,
      batchAfter sampleHash [(sampleKey 0, sampleValue 1)]
          [(sampleKey 0, sampleValue 0), (sampleKey 1, sampleValue 2)] = .ok (s', response) ∧
        response.newRootScalar ≠
          canonicalRoot sampleHash
            (Function.update noEntries (sampleKey 1) (sampleValue 2).entry)) ∧
      ∃ s' response,
        batchAfter sampleHash [(sampleKey 1, sampleValue 1), (sampleKey 3, sampleValue 2)]
            [(sampleKey 0, sampleValue 0)] = .ok (s', response) ∧
          response.newRootScalar ≠
            canonicalRoot sampleHash
              (Function.update
                (Function.update noEntries (sampleKey 1) (some (sampleValue 1).toUintArray))
                (sampleKey 3) (some (sampleValue 2).toUintArray)) := by
  constructor
  · refine @batchAfter_ne _ _ _
        ((scheme sampleHash).root 0
          (.branch (.leaf (sampleKey 0) (sampleValue 1).toUintArray)
            (.leaf (sampleKey 1) (sampleValue 2).toUintArray)))
        (by decide +kernel) ?_
    rw [canonicalRoot, canonical_update_noEntries (by decide)]
    decide +kernel
  · refine @batchAfter_ne _ _ _ NodeKey.zero (by decide +kernel) ?_
    have hNe : sampleKey 3 ≠ sampleKey 1 := by decide
    rw [canonicalRoot, canonical_of_pair (Function.update_self ..) (by
      rw [Function.update_of_ne hNe.symm, Function.update_self]) hNe (by
          intro key hKey hKey'
          rw [Function.update_of_ne hKey, Function.update_of_ne hKey']
          rfl)]
    decide +kernel

end XLayerErigon.Smt
