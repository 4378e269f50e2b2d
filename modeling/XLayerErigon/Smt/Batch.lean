import XLayerErigon.Smt.Insert

/-
  The batch insertion of the sparse Merkle tree.

  `insertBatch` keeps a part of the stored tree in memory.  Each entry walks down that part and
  loads what it needs from the database; the change is made in memory.  When all entries are done,
  the hashes of the loaded nodes are deleted, the values are saved, and the part in memory is
  hashed and saved from the bottom up.

  A pointer to a node in memory is the node with the nodes above it, deepest first, each with the
  side the pointer took and the child on the other side.  The node at its end is written back with
  `plugAll`, so a change through the pointer is a change of the tree.  The level of the source is
  the number of nodes above, and its parent pointer the first of them.

  Key definitions include:
    * `SmtBatchNode`
    * `findInsertingPoint`
    * `insertAtPoint`
    * `deleteAtPoint`
    * `calculateAndSaveHashesDfs`
    * `SMT.insertBatch`
-/

namespace XLayerErigon.Smt

-- Nodes in Memory

/- A node in memory.  A missing child with a non-zero hash is a subtree that was not loaded. -/
inductive SmtBatchNode where
  | nil : SmtBatchNode
  | node (nodeLeftHashOrRemainingKey : NodeKey) (nodeRightHashOrValueHash : NodeKey) (leaf : Bool)
      (leftNode rightNode : SmtBatchNode) : SmtBatchNode

namespace SmtBatchNode

def newLeaf (remainingKey valueHash : NodeKey) : SmtBatchNode :=
  .node remainingKey valueHash true .nil .nil

def isNil : SmtBatchNode → Bool
  | .nil => true
  | .node .. => false

end SmtBatchNode

structure BatchFrame where
  leftHash : NodeKey
  rightHash : NodeKey
  side : Bool
  sibling : SmtBatchNode

namespace BatchFrame

/- The branch with `cur` on the side of the pointer. -/
def plug (f : BatchFrame) (cur : SmtBatchNode) : SmtBatchNode :=
  if f.side then
    .node f.leftHash f.rightHash false f.sibling cur
  else
    .node f.leftHash f.rightHash false cur f.sibling

end BatchFrame

/- The whole tree in memory around a pointer. -/
def plugAll :
    List BatchFrame → SmtBatchNode → SmtBatchNode
  | [], cur => cur
  | f :: up, cur => plugAll up (f.plug cur)

def fetchNodeDataFromDb (db : Db) (nodeHash : NodeKey) : SmtBatchNode :=
  if nodeHash.isZero then .nil
  else
    .node (db.get nodeHash).get0to4 (db.get nodeHash).get4to8
      (db.get nodeHash).isFinalNode .nil .nil

-- The Inserting Point

structure InsertingPoint where
  up : List BatchFrame
  cur : SmtBatchNode
  visitedNodeHashes : List NodeKey

/- Load a direct child that is not in memory. -/
def fetchChild (db : Db) (nodeHash : NodeKey) :
    SmtBatchNode → List NodeKey → SmtBatchNode × List NodeKey
  | .nil, visited =>
      (fetchNodeDataFromDb db nodeHash, visited ++ [nodeHash])
  | .node lh rh leaf l r, visited =>
      (.node lh rh leaf l r, visited)

/-
  Load the node of the pointer when it is not in memory. Below the root its hash must not be zero.
-/
def loadPoint (db : Db) (up : List BatchFrame) (nodeHash : NodeKey) (visited : List NodeKey) :
    SmtBatchNode → Except Failure (SmtBatchNode × List NodeKey)
  | .node lh rh leaf l r =>
      .ok (.node lh rh leaf l r, visited)
  | .nil =>
      if nodeHash.isZero then
        if up.isEmpty then .ok (.nil, visited)
        else
          .error (.error "nodekey is zero at non-root level")
      else
        .ok (fetchNodeDataFromDb db nodeHash, visited ++ [nodeHash])

/-
  Walk along the path to the place where the entry belongs:
  a leaf, a branch with nothing in the next direction, or
  the missing root of an empty tree.
-/
def findInsertingPoint (db : Db) (fetchDirectSiblings : Bool) :
    List Bool → List BatchFrame → NodeKey → SmtBatchNode →
      List NodeKey → Except Failure InsertingPoint
  | path, up, nodeHash, cur, visited =>
      match loadPoint db up nodeHash visited cur with
      | .error failure => .error failure
      | .ok (.nil, visited) =>
          if up.isEmpty then .ok ⟨up, .nil, visited⟩
          else
            .error (.error "working smt pointer is nil at non-root level")
      | .ok (.node lh rh true l r, visited) =>
          .ok ⟨up, .node lh rh true l r, visited⟩
      | .ok (.node lh rh false l r, visited) =>
          let (l, visited) :=
            if fetchDirectSiblings then
              fetchChild db lh l visited
            else (l, visited)
          let (r, visited) :=
            if fetchDirectSiblings then
              fetchChild db rh r visited
            else (r, visited)
          match path with
          | [] => .error .panic
          | false :: path =>
            if lh.isZero && l.isNil then
              .ok ⟨up, .node lh rh false l r, visited⟩
            else
              findInsertingPoint db fetchDirectSiblings path (⟨lh, rh, false, r⟩ :: up) lh l visited
          | true :: path =>
            if rh.isZero && r.isNil then
              .ok ⟨up, .node lh rh false l r, visited⟩
            else
              findInsertingPoint db fetchDirectSiblings path (⟨lh, rh, true, l⟩ :: up) rh r visited

-- Inserting at the Point

/-
  Put an empty leaf below a branch.  It returns the branch above the new leaf and the key bits
  that the leaf keeps.
-/
def createALeafInEmptyDirection (path : List Bool) (level : Nat) (key lh rh : NodeKey)
    (l r : SmtBatchNode) : Except Failure (BatchFrame × NodeKey) :=
  match path[level]? with
  | none => .error .panic
  | some direction =>
    let child := if direction then r else l
    let sibling := if direction then l else r
    if child.isNil then
      .ok (⟨lh, rh, direction, sibling⟩, key.removeKeyBits (level + 1))
    else
      .error (.error "branch has already been taken")

/- The key bits that a leaf keeps one level further down. -/
def expandedKey (path : List Bool) (level : Nat) (remainingKey : NodeKey) : NodeKey :=
  (NodeKey.joinKey (path.take level) remainingKey).removeKeyBits (level + 1)

/-
  Push a leaf down while the two paths agree.  The lists are the rests of the paths from the level
  of the leaf on.
-/
def expandWhileEqual (path : List Bool) :
    List Bool → List Bool → List BatchFrame → NodeKey → Except Failure (List BatchFrame × NodeKey)
  | bit :: rest, currentBit :: currentRest, up, remainingKey =>
      if bit = currentBit then
        expandWhileEqual path rest currentRest (⟨NodeKey.zero, NodeKey.zero, bit, .nil⟩ :: up)
          (expandedKey path up.length remainingKey)
      else .ok (up, remainingKey)
  | _, _, _, _ => .error .panic

/- Put a new leaf beside the leaf of another key. -/
def expandLeaf (path : List Bool) (key remainingKey valueHash : NodeKey) (up : List BatchFrame) :
    Except Failure (List BatchFrame) := do
  let currentPath := (NodeKey.joinKey (path.take up.length) remainingKey).getPath
  let (up, remainingKey) ←
    expandWhileEqual path (path.drop up.length) (currentPath.drop up.length) up remainingKey
  let leaf := SmtBatchNode.newLeaf (expandedKey currentPath up.length remainingKey) valueHash
  match currentPath[up.length]? with
  | none => .error .panic
  | some direction =>
    let l := if direction then .nil else leaf
    let r := if direction then leaf else .nil
    let (f, _) ← createALeafInEmptyDirection path up.length key NodeKey.zero NodeKey.zero l r
    return f :: up

/- Insert a non-zero value; the result is the new pointer. -/
def insertAtPoint (key valueHash : NodeKey) (up : List BatchFrame) :
    SmtBatchNode → Except Failure (List BatchFrame × SmtBatchNode)
  | .nil => .ok (up, .newLeaf key valueHash)
  | .node lh rh false l r => do
      let (f, remainingKey) ← createALeafInEmptyDirection key.getPath up.length key lh rh l r
      return (f :: up, .newLeaf remainingKey valueHash)
  | .node remainingKey oldValueHash true l r =>
      if remainingKey.isEqualTo (key.removeKeyBits up.length)
      then .ok (up, .node remainingKey valueHash true l r)
      else do
        let up ← expandLeaf key.getPath key remainingKey oldValueHash up
        .ok (up, .newLeaf (key.removeKeyBits up.length) valueHash)

/- The only child in memory, when it is a leaf. -/
def getTheSingleLeafAndDirectionIfAny :
    SmtBatchNode → SmtBatchNode → Option (NodeKey × NodeKey × Bool)
  | .node rem val true _ _, .nil => some (rem, val, false)
  | .nil, .node rem val true _ _ => some (rem, val, true)
  | _, _ => none

/- Turn branches with a single leaf into that leaf. -/
def collapseLoop (path : List Bool) :
    List BatchFrame → SmtBatchNode → List BatchFrame × SmtBatchNode
  | up, .nil => (up, .nil)
  | up, .node lh rh true l r => (up, .node lh rh true l r)
  | up, .node lh rh false l r =>
      match getTheSingleLeafAndDirectionIfAny l r with
      | none => (up, .node lh rh false l r)
      | some (rem, val, direction) =>
          let leaf := SmtBatchNode.newLeaf
              ((NodeKey.joinKey (path.take up.length ++ [direction]) rem).removeKeyBits up.length)
              val
          match up with
          | [] => ([], leaf)
          | f :: up => collapseLoop path up (f.plug leaf)

/- A child that is not in memory is gone for good. -/
def updateHashesAfterDelete : SmtBatchNode → SmtBatchNode
  | .nil => .nil
  | .node lh rh leaf l r =>
      .node (if l.isNil then NodeKey.zero else lh) (if r.isNil then NodeKey.zero else rh) leaf l r

/-
  Delete the key at the pointer.  The source compares only the first hash of the node with the
  rest of the key, so it does not ask whether the node is a leaf.
-/
def deleteAtPoint (key : NodeKey) (up : List BatchFrame) :
    SmtBatchNode → List BatchFrame × SmtBatchNode
  | .nil => (up, .nil)
  | .node lh rh leaf l r =>
      if lh.isEqualTo (key.removeKeyBits up.length) then
        match up with
        | [] => ([], .nil)
        | f :: up =>
            collapseLoop key.getPath up (updateHashesAfterDelete (f.plug .nil))
      else
        collapseLoop key.getPath up (.node lh rh leaf l r)

/-
  Hash the part in memory and save it, children first.  A child that is not in memory keeps its
  recorded hash.
-/
def calculateAndSaveHashesDfs (hash : NodeValue12 → NodeKey) :
    SMT → SmtBatchNode → NodeKey → List Bool → SMT × NodeKey
  | s, .nil, recorded, _ => (s, recorded)
  | s, .node rem val true _ _, _, path =>
      let h := hash (leafNode rem val)
      let s := s.hashSave (leafNode rem val) h
      let s :=
        if s.noSaveOnInsert then s
        else s.insertHashKey h (NodeKey.joinKey path rem)
      (s, h)
  | s, .node lh rh false l r, _, path =>
    let (s, left) :=
      calculateAndSaveHashesDfs hash s l lh (path ++ [false])
    let (s, right) :=
      calculateAndSaveHashesDfs hash s r rh (path ++ [true])
    (s.hashSave (branchNode left right) (hash (branchNode left right)),
      hash (branchNode left right))

def deleteBatchedNodeValues :
    SMT → List NodeKey → SMT
  | s, [] => s
  | s, nodeHash :: nodeHashes =>
      deleteBatchedNodeValues
        { s with db := (s.db.deleteByNodeKey nodeHash).deleteHashKey nodeHash } nodeHashes

/- An entry of the batch after preprocessing. -/
structure BatchEntry where
  key : NodeKey
  value : NodeValue8
  valueHash : NodeKey

def saveBatchedNodeValues :
    SMT → List BatchEntry → SMT
  | s, [] => s
  | s, e :: entries =>
      if e.value.isZero then
        saveBatchedNodeValues s entries
      else
        saveBatchedNodeValues (s.hashSave (valueNode e.value.toUintArray) e.valueHash) entries

/- Missing value hashes count as a list of missing ones. -/
def validateDataLengths (nodeKeys : List NodeKey) (nodeValues : List NodeValue8)
    (nodeValuesHashes : Option (List (Option NodeKey))) : Except Failure (List (Option NodeKey)) :=
  let size := nodeKeys.length
  let nValues := nodeValues.length
  let hashes := nodeValuesHashes.getD (List.replicate size none)
  let nHashes := hashes.length
  if nValues ≠ size then
    .error (.error s!"mismatch nodeValues length, expected {size} but got {nValues}")
  else if nHashes ≠ size then
    .error (.error s!"mismatch nodeValuesHashes length, expected {size} but got {nHashes}")
  else
    .ok hashes

/- Of the entries with one key only the last one stays. -/
def removeDuplicateEntriesByKeys :
    List (NodeKey × NodeValue8 × Option NodeKey) → List (NodeKey × NodeValue8 × Option NodeKey)
  | [] => []
  | e :: entries =>
      if entries.any (fun e' => e'.1 == e.1) then
        removeDuplicateEntriesByKeys entries
      else
        e :: removeDuplicateEntriesByKeys entries

def calculateNodeValueHashIfMissing (hash : NodeValue12 → NodeKey)
    (e : NodeKey × NodeValue8 × Option NodeKey) :
    BatchEntry where
  key := e.1
  value := e.2.1
  valueHash := e.2.2.getD (hash (valueNode e.2.1.toUintArray))

def preprocessBatchedNodeValues (hash : NodeValue12 → NodeKey) (nodeKeys : List NodeKey)
    (nodeValues : List NodeValue8) (nodeValuesHashes : Option (List (Option NodeKey))) :
    Except Failure (List BatchEntry) := do
  let hashes ←
    (validateDataLengths nodeKeys nodeValues
      nodeValuesHashes).mapError (.wrap "validateDataLengths")
  .ok
    ((removeDuplicateEntriesByKeys
      (nodeKeys.zip (nodeValues.zip hashes))).map (calculateNodeValueHashIfMissing hash))

/- The variables of the loop over the entries. -/
structure BatchState where
  smtBatchNodeRoot : SmtBatchNode
  nodeHashesForDelete : List NodeKey
  maxInsertingNodePathLevel : Nat

def insertBatchEntry (db : Db) (rootNodeHash : NodeKey) (st : BatchState)
    (e : BatchEntry) : Except Failure BatchState := do
  let point ←
    findInsertingPoint db e.value.isZero e.key.getPath [] rootNodeHash st.smtBatchNodeRoot []
  let (up, cur) ← if e.value.isZero then
    pure (deleteAtPoint e.key point.up point.cur)
    else
      insertAtPoint e.key e.valueHash point.up point.cur
  .ok
    { smtBatchNodeRoot := plugAll up cur
      nodeHashesForDelete := st.nodeHashesForDelete ++ point.visitedNodeHashes
      maxInsertingNodePathLevel := max st.maxInsertingNodePathLevel up.length }

def insertBatchLoop (db : Db) (rootNodeHash : NodeKey) :
    BatchState → List BatchEntry → Except Failure BatchState
  | st, [] => .ok st
  | st, e :: entries => do
      let st ← insertBatchEntry db rootNodeHash st e
      insertBatchLoop db rootNodeHash st entries

namespace SMT

/- The last part of the call, after the loop. -/
def finishBatch (hash : NodeValue12 → NodeKey) (s : SMT) (entries : List BatchEntry)
    (st : BatchState) : SMT × NodeKey :=
  let s := s.updateDepth st.maxInsertingNodePathLevel
  let s := deleteBatchedNodeValues s st.nodeHashesForDelete
  let s := saveBatchedNodeValues s entries
  calculateAndSaveHashesDfs hash s st.smtBatchNodeRoot NodeKey.zero []

def insertBatch (hash : NodeValue12 → NodeKey) (s : SMT) (nodeKeys : List NodeKey)
    (nodeValues : List NodeValue8) (nodeValuesHashes : Option (List (Option NodeKey)))
    (rootNodeHash : Option NodeKey) : Except Failure (SMT × SMTResponse) := do
  let entries ←
    (preprocessBatchedNodeValues hash nodeKeys nodeValues
      nodeValuesHashes).mapError (.wrap "preprocessBatchedNodeValues")
  let st ← insertBatchLoop s.db (rootNodeHash.getD s.getLastRoot) ⟨.nil, [], 0⟩ entries
  let (s, root) := s.finishBatch hash entries st return (s.setLastRoot root, ⟨root, .batchInsert⟩)

end SMT

end XLayerErigon.Smt
