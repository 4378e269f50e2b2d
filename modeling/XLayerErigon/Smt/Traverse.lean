import XLayerErigon.Data.Bytes
import XLayerErigon.Smt.InsertCorrect

/-
  The depth-first traversal of the stored tree.

  `Traverse` keeps its own stack and reads every node from the database; an action decides at each
  node whether its children are visited.  On a stored tree the loop computes what recursion over
  the tree computes.

  Main results:
    * `traverseLoop_visit`
    * `traverse_root`
-/

namespace XLayerErigon.Smt

-- Values as Scalars

/- The eight words of a value, the lowest one first. -/
def Value.words (value : Value) : List Word := List.ofFn value.1 ++ List.ofFn value.2

/- The words as digits in base `2 ^ 32`, whatever their size. -/
def arrayBigToScalar (arr : List Word) : Nat :=
  arr.foldr (fun w scalar => 2 ^ 32 * scalar + w.toNat) 0

/- The bytes that the readers return for a value. -/
def Value.bytes (value : Value) : Bytes := Bytes.ofNat (arrayBigToScalar value.words)

def NodeValue12.getNodeValue8 (nv : NodeValue12) : Value := (nv.get0to4, nv.get4to8)

theorem NodeKey.toBigInt_eq_zero_iff {nk : NodeKey} : nk.toBigInt = 0 ↔ nk = NodeKey.zero := by
  constructor
  · intro hZero
    rw [← NodeKey.scalarToRoot_toBigInt nk, hZero]
    funext i
    simp [NodeKey.scalarToRoot, NodeKey.zero]
  · rintro rfl
    rfl

/- A node to visit and the path from the root to it. -/
structure StackEntry where
  node : Nat
  path : List Bool

/-
  An action gets the path, the hash and the node.  It may change a state of its own, and says
  whether to go on below.
-/
abbrev TraverseAction (σ : Type) :=
  List Bool → NodeKey → NodeValue12 → σ → Except Failure (Bool × σ)

/- The stack entry of a child, unless the child is zero. -/
def childEntry (path : List Bool) (bit : Bool) (child : NodeKey) : List StackEntry :=
  if child.toBigInt = 0 then []
  else [⟨child.toBigInt, path ++ [bit]⟩]

/- Both children, so that the left one is popped first. -/
def NodeValue12.childEntries (nv : NodeValue12) (path : List Bool) : List StackEntry :=
  childEntry path false (nv.child false) ++ childEntry path true (nv.child true)

variable {σ : Type}

/- The main loop, which ends when the stack is empty. -/
def traverseLoop (db : Db) (action : TraverseAction σ) :
    Nat → List StackEntry → σ → Option (Except Failure σ)
  | _, [], st => some (.ok st)
  | 0, _ :: _, _ => none
  | fuel + 1, current :: stack, st =>
      let ky := NodeKey.scalarToRoot current.node
      let nodeValue := db.get ky
      match action current.path ky nodeValue st with
      | .error failure => some (.error failure)
      | .ok (shouldContinue, st) =>
        if nodeValue.isFinalNode || !shouldContinue then
          traverseLoop db action fuel stack st
        else
          traverseLoop db action fuel (nodeValue.childEntries current.path ++ stack) st

def traverse (db : Db) (action : TraverseAction σ) (fuel node : Nat)
    (st : σ) : Option (Except Failure σ) :=
  if node = 0 then some (.ok st)
  else traverseLoop db action fuel [⟨node, []⟩] st

-- Recursion over the Tree

/- What the traversal does, by recursion over the tree. -/
def visit (hash : NodeValue12 → NodeKey) (action : TraverseAction σ) :
    List Bool → Tree → σ → Except Failure σ
  | _, .empty, st => .ok st
  | path, .leaf key value, st =>
      match
        action path ((scheme hash).root path.length (.leaf key value))
          ((scheme hash).leafNode path.length key value) st with
      | .error failure => .error failure
      | .ok (_, st) => .ok st
  | path, .branch left right, st =>
      match
        action path ((scheme hash).root path.length (.branch left right))
          (branchNode ((scheme hash).root (path.length + 1) left)
            ((scheme hash).root (path.length + 1) right))
          st with
      | .error failure => .error failure
      | .ok (false, st) => .ok st
      | .ok (true, st) => do
          let st ← visit hash action (path ++ [false]) left st
          visit hash action (path ++ [true]) right st

/- The stack of a tree that is still to be visited. -/
def treeEntry (hash : NodeValue12 → NodeKey) (path : List Bool) (t : Tree) : List StackEntry :=
  if ((scheme hash).root path.length t).toBigInt = 0 then []
  else
    [⟨((scheme hash).root path.length t).toBigInt, path⟩]

variable {hash : NodeValue12 → NodeKey}

theorem get_valueNode {db : Db} {d : Nat} {key : NodeKey} {value : Value}
    (hStored : (scheme hash).Stored db.nodes d (.leaf key value)) :
    db.get (hash (valueNode value)) = valueNode value := by
  rw [Db.get]
  exact congrArg (fun o => Option.getD o NodeValue12.zero) (hStored _ (Or.inr rfl))

theorem childEntry_root (hash : NodeValue12 → NodeKey) (path : List Bool) (bit : Bool) (t : Tree) :
    childEntry path bit ((scheme hash).root (path.length + 1) t) =
      treeEntry hash (path ++ [bit]) t := by
  rw [treeEntry, List.length_append]
  rfl

/- The loop goes on with the rest of the stack after `t`. -/
def resume (db : Db) (action : TraverseAction σ) (fuel : Nat) (stack : List StackEntry) :
    Except Failure σ → Option (Except Failure σ)
  | .error failure => some (.error failure)
  | .ok st => traverseLoop db action fuel stack st

theorem traverseLoop_treeEntry {db : Db} {action : TraverseAction σ} {path : List Bool} {t : Tree}
    {node : NodeValue12} {st : σ} (hNode : db.get ((scheme hash).root path.length t) = node)
    (hRoot : (scheme hash).root path.length t ≠ NodeKey.zero) (stack : List StackEntry)
    (fuel : Nat) :
    traverseLoop db action (fuel + 1) (treeEntry hash path t ++ stack) st =
      match action path ((scheme hash).root path.length t) node st with
      | .error failure => some (.error failure)
      | .ok (shouldContinue, st) =>
          if node.isFinalNode || !shouldContinue then traverseLoop db action fuel stack st
          else traverseLoop db action fuel (node.childEntries path ++ stack) st := by
  rw [treeEntry, if_neg (fun hZero => hRoot (NodeKey.toBigInt_eq_zero_iff.mp hZero)),
    List.singleton_append, traverseLoop]
  dsimp only
  rw [NodeKey.scalarToRoot_toBigInt, hNode]

/-
  The loop visits a stored tree as recursion does.  The induction is over the tree, with the rest
  of the stack and the fuel left after the tree arbitrary.
-/
theorem traverseLoop_visit {db : Db} {t : Tree} (action : TraverseAction σ) (path : List Bool)
    (stack : List StackEntry) (st : σ) (hStored : (scheme hash).Stored db.nodes path.length t)
    (hNonzero : ∀ n ∈ (scheme hash).nodes path.length t, hash n ≠ NodeKey.zero) :
    ∃ steps, ∀ fuel, traverseLoop db action (steps + fuel) (treeEntry hash path t ++ stack) st =
        resume db action fuel stack (visit hash action path t st) := by
  induction t generalizing path stack st with
  | empty =>
    refine ⟨0, fun fuel => ?_⟩
    rw [Nat.zero_add]
    rfl
  | leaf key value =>
    have hNode : db.get ((scheme hash).root path.length (.leaf key value)) =
          (scheme hash).leafNode path.length key value := by
      rw [Db.get, hStored.leafNode]
      rfl
    refine ⟨1, fun fuel => ?_⟩
    rw [Nat.add_comm, traverseLoop_treeEntry hNode (hNonzero _ (Or.inl rfl)), visit]
    cases action path _ _ st with
    | error failure => rfl
    | ok next => rfl
  | branch left right ihLeft ihRight =>
    have hNode : db.get ((scheme hash).root path.length (.branch left right)) =
          branchNode ((scheme hash).root (path.length + 1) left)
            ((scheme hash).root (path.length + 1) right) := by
      rw [Db.get, hStored.branchNode]
      rfl
    have hLength : ∀ bit, (path ++ [bit]).length = path.length + 1 := fun bit => List.length_append
    have hOpen :=
      @traverseLoop_treeEntry _ _ _ action _ _ _ st hNode (hNonzero _ (Or.inl rfl)) stack
    rw [visit]
    generalize action path _ _ st = result at hOpen ⊢
    rcases result with failure | ⟨_ | _, st'⟩
    · exact ⟨1, fun fuel => (Nat.add_comm 1 fuel) ▸ hOpen fuel⟩
    · exact ⟨1, fun fuel => (Nat.add_comm 1 fuel) ▸ hOpen fuel⟩
    · dsimp only at hOpen ⊢
      simp only [NodeValue12.isFinalNode_branchNode, Bool.not_true, Bool.or_self,
        NodeValue12.childEntries, NodeValue12.child_branchNode_false,
        NodeValue12.child_branchNode_true, childEntry_root, List.append_assoc] at hOpen
      rcases ihLeft (path ++ [false]) (treeEntry hash (path ++ [true]) right ++ stack) st'
        (by rw [hLength]; exact hStored.left)
        (by rw [hLength]; exact fun n hn => hNonzero n (Or.inr (Or.inl hn))) with
        ⟨stepsLeft, hLeft⟩
      cases hVisit : visit hash action (path ++ [false]) left st' with
      | error failure =>
        refine ⟨stepsLeft + 1, fun fuel => ?_⟩
        rw [Nat.add_right_comm, hOpen, hLeft, hVisit]
        rfl
      | ok st'' =>
        rcases ihRight (path ++ [true]) stack st'' (by rw [hLength]; exact hStored.right)
          (by rw [hLength]; exact fun n hn => hNonzero n (Or.inr (Or.inr hn))) with
          ⟨stepsRight, hRight⟩
        refine ⟨stepsLeft + stepsRight + 1, fun fuel => ?_⟩
        rw [Nat.add_right_comm, hOpen, Nat.add_assoc, hLeft, hVisit, resume, hRight]
        rfl

-- Stored Trees

/-
  The database holds the canonical tree of the map, and its root is the number recorded as the
  last root.
-/
structure Db.Records (hash : NodeValue12 → NodeKey) (db : Db) (m : Entries) : Prop where
  stored : (scheme hash).Stored db.nodes 0 (canonical m)
  lastRoot : db.lastRoot = (canonicalRoot hash m).toBigInt

theorem Holds.records {s : SMT} {m : Entries} (hHolds : Holds hash s m)
    (hLast : s.db.lastRoot = s.getLastRoot.toBigInt) : s.db.Records hash m :=
  ⟨hHolds.stored, by rw [hLast, hHolds.lastRoot]⟩

theorem insertSingle_lastRoot {s s' : SMT} {k newValH : NodeKey} {v : NodeValue8}
    {response : SMTResponse} (hRun : s.insertSingle hash k v newValH = .ok (s', response)) :
    s'.db.lastRoot = s'.getLastRoot.toBigInt := by
  rcases except_bind_eq_ok hRun with ⟨result, -, ⟨⟩⟩
  rw [SMT.getLastRoot_setLastRoot]
  rfl

/- A run of insertions records the root it ends with. -/
theorem insertAll_lastRoot {s s' : SMT} {kvs : List (NodeKey × NodeValue8)}
    (hStart : s.db.lastRoot = s.getLastRoot.toBigInt) (hRun : s.insertAll hash kvs = .ok s') :
    s'.db.lastRoot = s'.getLastRoot.toBigInt := by
  induction kvs generalizing s with
  | nil =>
    cases hRun
    exact hStart
  | cons kv kvs ih =>
    rcases kv with ⟨k, v⟩
    rcases except_bind_eq_ok hRun with ⟨result, hSingle, hRest⟩
    exact ih (insertSingle_lastRoot hSingle) hRest

/- Every run of insertions leaves a stored tree. -/
theorem insertAll_records {kvs : List (NodeKey × NodeValue8)} (hFree : RunFree hash noEntries kvs) :
    ∃ s, SMT.empty.insertAll hash kvs = .ok s ∧ s.db.Records hash (entriesAfter noEntries kvs) := by
  rcases insertAll_run (holds_empty hash) hFree with ⟨s, hRun, hHolds⟩
  exact ⟨s, hRun, hHolds.records (insertAll_lastRoot (by rfl) hRun)⟩

/- No node of the tree of the map has the hash zero. -/
def Nonzero (hash : NodeValue12 → NodeKey) (m : Entries) : Prop :=
  ∀ n ∈ canonicalNodes hash m, hash n ≠ NodeKey.zero

/- From the last root, all of the tree is visited. -/
theorem traverse_root {db : Db} {m : Entries} (hRecords : db.Records hash m)
    (hNonzero : Nonzero hash m) (action : TraverseAction σ) (st : σ) :
    ∃ steps, ∀ fuel ≥ steps,
      traverse db action fuel db.lastRoot st = some (visit hash action [] (canonical m) st) := by
  rcases traverseLoop_visit action [] [] st hRecords.stored hNonzero with ⟨steps, hLoop⟩
  refine ⟨steps, fun fuel hFuel => ?_⟩
  have hRun := hLoop (fuel - steps)
  rw [Nat.add_sub_cancel' hFuel, List.append_nil, treeEntry, List.length_nil] at hRun
  have hEnd :
      ∀ result : Except Failure σ, resume db action (fuel - steps) [] result = some result := by
    intro result
    cases result with
    | error failure => rfl
    | ok st => rw [resume, traverseLoop]
  rw [hEnd] at hRun
  rw [traverse, hRecords.lastRoot, canonicalRoot, ← hRun]
  split_ifs with hZero
  · rw [traverseLoop]
  · rfl

end XLayerErigon.Smt
