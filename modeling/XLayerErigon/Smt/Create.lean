import XLayerErigon.Smt.Insert

/-
  Building the whole tree at once from its keys.

  The keys are sorted by their path bits.  One open tree of `SmtNode`s is kept in memory; whenever
  a key goes to the right of a node, the left part of that node is finished, and a job to hash it,
  save it and drop it is queued.  One worker runs the jobs in order while the keys go on, so the
  number of jobs done after each key is a parameter.

  Key definitions include:
    * `sortNodeKeysBitwiseAsc`
    * `SmtNode`
    * `findLastNode`
    * `deleteTreeNoSave`
    * `insertKey`
    * `generateFromKVBulk`
-/

namespace XLayerErigon.Smt

-- Sorting

/- The comparison of the sort, true for equal paths. -/
def bitwiseLess : List Bool → List Bool → Bool
  | aBit :: a, bBit :: b =>
      if aBit ≠ bBit then !aBit && bBit
      else bitwiseLess a b
  | _, _ => true

def sortNodeKeysBitwiseAsc (keys : List NodeKey) : List NodeKey :=
  keys.mergeSort (fun a b => bitwiseLess a.getPath b.getPath)

/- A node of the tree in memory, or a nil pointer. -/
inductive SmtNode where
  | nil
  | node (rKey : List Bool) (leftHash : NodeKey) (node0 node1 : SmtNode)

namespace SmtNode

def isNil : SmtNode → Bool
  | .nil => true
  | .node _ _ _ _ => false

/- A node without children and without a deleted left part. -/
def isLeaf : SmtNode → Bool
  | .node _ leftHash .nil .nil => leftHash.isZero
  | _ => false

def leftHash : SmtNode → NodeKey
  | .nil => NodeKey.zero
  | .node _ leftHash _ _ => leftHash

def child : SmtNode → Bool → SmtNode
  | .nil, _ => .nil
  | .node _ _ node0 node1, bit =>
      if bit then node1 else node0

def setChild : SmtNode → Bool → SmtNode → SmtNode
  | .nil, _, _ => .nil
  | .node rKey leftHash node0 node1, bit, n =>
      if bit then .node rKey leftHash node0 n
      else .node rKey leftHash n node1

/- A new node for the rest of a path. -/
def leaf (rKey : List Bool) : SmtNode := .node rKey NodeKey.zero .nil .nil

end SmtNode

/- The nodes above a place, with the side taken at each. -/
abbrev Uppers := List (Bool × SmtNode)

/- Put a node back below the nodes above it. -/
def Uppers.plug : Uppers → SmtNode → SmtNode
  | [], n => n
  | (bit, upper) :: up, n =>
      Uppers.plug up (upper.setChild bit n)

/-
  Go down along the key to the first leaf or nil pointer. The last upper node is the parent of the
  place found.
-/
def findLastNode :
    List Bool → Uppers → SmtNode → Except Failure (Uppers × SmtNode)
  | [], _, _ => .error .panic
  | bit :: keys, up, currentNode =>
      let next := currentNode.child bit
      let up := (bit, currentNode) :: up
      if next.isNil || next.isLeaf then .ok (up, next)
      else findLastNode keys up next

-- Deleting Finished Parts

/-
  The values of the leaves in memory, and what the current job has to save: nodes, and the key of
  each leaf.
-/
structure Deletes where
  leafValueMap : NodeKey → Option NodeValue8
  kvMap : List (NodeKey × NodeValue12)
  leafsKvMap : List (NodeKey × NodeKey)

/- Hash a leaf and its value, and give up the value. -/
def deleteLeaf (hash : NodeValue12 → NodeKey) (keyPath rKey : List Bool)
    (st : Deletes) : Except Failure (NodeKey × Deletes) :=
  match NodeKey.nodeKeyFromPath (keyPath ++ rKey) with
  | .error message => .error (.error message)
  | .ok k =>
    match st.leafValueMap k with
    | none =>
      .error (.error ("value not found for key " ++ k.print))
    | some v =>
      let newKey := k.removeKeyBits keyPath.length
      let newValHV := valueNode v.toUintArray
      let newLeafHashV := leafNode newKey (hash newValHV)
      .ok
        (hash newLeafHashV,
          { leafValueMap := fun key =>
            if key = k then none
            else st.leafValueMap key
            kvMap := st.kvMap ++ [(hash newValHV, newValHV), (hash newLeafHashV, newLeafHashV)]
            leafsKvMap := st.leafsKvMap ++ [(hash newLeafHashV, k)] })

/- Hash a tree in memory from the bottom up. -/
def deleteTreeNoSave (hash : NodeValue12 → NodeKey) :
    List Bool → SmtNode → Deletes → Except Failure (NodeKey × Deletes)
  | _, .nil, _ => .error .panic
  | keyPath, .node rKey leftHash node0 node1, st =>
      if (SmtNode.node rKey leftHash node0 node1).isLeaf then
        deleteLeaf hash keyPath rKey st
      else
        match if node0.isNil then .ok (leftHash, st)
          else if leftHash.isZero then
            deleteTreeNoSave hash (keyPath ++ [false]) node0 st
          else
            .error (.error "node has previously deleted left part") with
        | .error failure => .error failure
        | .ok (leftHash, st) =>
            match if node1.isNil then .ok (NodeKey.zero, st)
              else
                deleteTreeNoSave hash (keyPath ++ [true]) node1 st with
            | .error failure => .error failure
            | .ok (rightHash, st) =>
                let v := branchNode leftHash rightHash
                .ok (hash v, { st with kvMap := st.kvMap ++ [(hash v, v)] })

def Db.saveJob (db : Db) (st : Deletes) : Db := st.kvMap.foldl (fun db kv => db.insert kv.1 kv.2)
    (st.leafsKvMap.foldl (fun db kv => db.insertHashKey kv.1 kv.2) db)

/-
  Replace the left part of the node at a path by its hash. The node of a queued job keeps its
  place in the tree, so the path stands for the pointer that the job holds.
-/
def deleteLeft (hash : NodeValue12 → NodeKey) (nodePath : List Bool) :
    List Bool → SmtNode → Deletes → Except Failure (SmtNode × Deletes)
  | _, .nil, _ => .error .panic
  | [], .node rKey _ node0 node1, st => do
      let (leftHash, st) ← deleteTreeNoSave hash (nodePath ++ [false]) node0 st
      .ok (.node rKey leftHash .nil node1, st)
  | bit :: path, .node rKey leftHash node0 node1, st => do
      let n := SmtNode.node rKey leftHash node0 node1
      let (c, st) ← deleteLeft hash nodePath path (if bit then node1 else node0) st
      .ok (n.setChild bit c, st)

-- The Build Loop

/-
  The state of the build: the tree in memory, the values of its leaves, the paths of the queued
  jobs (the oldest first), the database, and the deepest level so far.
-/
structure Build where
  rootNode : SmtNode
  leafValueMap : NodeKey → Option NodeValue8
  jobs : List (List Bool)
  db : Db
  maxReachedLevel : Nat

/- The bits that two rests of paths have in common. -/
def commonBits : List Bool → List Bool → List Bool
  | r :: rKey, b :: keys =>
      if r = b then b :: commonBits rKey keys else []
  | _, _ => []

/- Nodes with a single child along some bits. -/
def chainNodes : List Bool → SmtNode → SmtNode
  | [], n => n
  | bit :: bits, n =>
      (SmtNode.node [] NodeKey.zero .nil .nil).setChild bit (chainNodes bits n)

/-
  The place found holds a leaf: go on to the first bit in which the two keys differ, and put both
  leaves there.
-/
def insertAtLeaf (b : Build) (keys rKey : List Bool) (up : Uppers) : Except Failure Build :=
  let level := up.length
  let common := commonBits rKey (keys.drop level)
  let level2 := common.length
  match rKey[level2]?, keys[level + level2]? with
  | some false, some true =>
    let last := SmtNode.node [] NodeKey.zero (SmtNode.leaf (rKey.drop (level2 + 1)))
        (SmtNode.leaf (keys.drop (level + level2 + 1)))
    .ok
      { b with
        rootNode := Uppers.plug up (chainNodes common last)
        jobs := b.jobs ++ [keys.take (level + level2)]
        maxReachedLevel := max b.maxReachedLevel (level + level2 + 1) }
  | some _, some _ =>
    .error (.error ("leaf insert error. new leaf should be on the " ++ "right of the old"))
  | _, _ => .error .panic

/- The place found is nil: put the new leaf there. -/
def insertAtNil (b : Build) (keys : List Bool) : Uppers → Except Failure Build
  | [] => .error .panic
  | (bit, upperNode) :: up =>
      let level := up.length
      let newNode := SmtNode.leaf (keys.drop (level + 1))
      let b := { b with
          rootNode := Uppers.plug ((bit, upperNode) :: up) newNode
          maxReachedLevel := max b.maxReachedLevel (level + 1) }
      if level = 0 && !bit then
        if (upperNode.child false).isNil then .ok b
        else .error (.error "tried to override left node")
      else if !(upperNode.child true).isNil || !bit then
        .error (.error ("leaf insert error. new should be on the right " ++ "of the found node"))
      else if (upperNode.child false).isNil then .ok b
      else .ok { b with jobs := b.jobs ++ [keys.take level] }

def insertAt (b : Build) (keys : List Bool) (up : Uppers) : SmtNode → Except Failure Build
  | .nil => insertAtNil b keys up
  | .node rKey _ _ _ => insertAtLeaf b keys rKey up

/- One round of the loop, with the value read for the key. -/
def insertKey (b : Build) (k : NodeKey) (v : NodeValue8) : Except Failure Build := do
  let keys := k.getPath
  let b := { b with
      leafValueMap := fun key =>
        if key = k then some v else b.leafValueMap key }
  let (up, found) ← findLastNode keys [] b.rootNode
  insertAt b keys up found

/- The worker takes the oldest job and its result is saved. -/
def runJob (hash : NodeValue12 → NodeKey) (b : Build) : Except Failure Build :=
  match b.jobs with
  | [] => .ok b
  | nodePath :: jobs => do
    let (rootNode, st) ← deleteLeft hash nodePath nodePath b.rootNode ⟨b.leafValueMap, [], []⟩
    .ok
      { b with
        rootNode := rootNode
        leafValueMap := st.leafValueMap
        jobs := jobs
        db := b.db.saveJob st }

def runJobs (hash : NodeValue12 → NodeKey) :
    Nat → Build → Except Failure Build
  | 0, b => .ok b
  | n + 1, b => do
      let b ← runJob hash b
      runJobs hash n b

/- The loop over the sorted keys.  `sched` says how many jobs the worker has done after each key. -/
def runBuildSmtLoop (hash : NodeValue12 → NodeKey) (sched : List NodeKey → Nat) :
    List NodeKey → Build → Except Failure Build
  | [], b => .ok b
  | k :: nodeKeys, b => do
      let b ← insertKey b k (b.db.getAccountValue k)
      let b ← runJobs hash (sched nodeKeys) b
      runBuildSmtLoop hash sched nodeKeys b

/- A root with a single key gives way to its only child. -/
def onlyChild (nodeKeys : List NodeKey) (rootNode : SmtNode) : SmtNode × List Bool :=
  if nodeKeys.length = 1 then
    if (rootNode.child true).isNil then
      (rootNode.child false, [false])
    else if (rootNode.child false).isNil && rootNode.leftHash.isZero then
      (rootNode.child true, [true])
    else (rootNode, [])
  else (rootNode, [])

/- A leaf at the root has the whole key as its rest. -/
def finalRootNode (nodeKeys : List NodeKey) (rootNode : SmtNode) :
    Except Failure (SmtNode × List Bool) :=
  match onlyChild nodeKeys rootNode with
  | (.nil, _) => .error .panic
  | (.node rKey leftHash node0 node1, path) =>
    if (SmtNode.node rKey leftHash node0 node1).isLeaf then
      match path with
      | [] => .error .panic
      | bit :: _ =>
        .ok (.node (bit :: rKey) leftHash node0 node1, [])
    else .ok (.node rKey leftHash node0 node1, path)

def generateFromKVBulk (hash : NodeValue12 → NodeKey) (sched : List NodeKey → Nat) (s : SMT)
    (nodeKeys : List NodeKey) : Except Failure (SMT × NodeKey) := do
  let nodeKeys := sortNodeKeysBitwiseAsc nodeKeys
  let rootNode := SmtNode.node [] NodeKey.zero .nil .nil
  let b ← runBuildSmtLoop hash sched nodeKeys ⟨rootNode, fun _ => none, [], s.db, 0⟩
  let b ← runJobs hash b.jobs.length b
  let s := { s with db := b.db }
  if b.rootNode.isLeaf then .ok (s, NodeKey.zero)
  else
    let (rootNode, pathToDeleteFrom) ← finalRootNode nodeKeys b.rootNode
    let (finalRoot, st) ← deleteTreeNoSave hash pathToDeleteFrom rootNode ⟨b.leafValueMap, [], []⟩
    let s := { s with db := s.db.saveJob st }
    let s := s.setLastRoot finalRoot
    .ok (s.updateDepth b.maxReachedLevel, finalRoot)

end XLayerErigon.Smt
