import XLayerErigon.Go

/-
  The L1 info tree.

  A binary hash tree of fixed height whose leaves are added from the left.  The tree keeps only
  one sibling a level, enough to hash the next leaf up to the root.  The hash is a parameter: it
  stands for `Hash`, the Keccak hash of two words of 32 bytes.

  Key definitions include:
    * `generateZeroHashes`
    * `L1InfoTree`
    * `L1InfoTree.buildL1InfoRoot`
    * `L1InfoTree.computeMerkleProof`
    * `L1InfoTree.addLeaf`
    * `newL1InfoTree`
-/

namespace XLayerErigon

/- A word of 32 bytes. -/
abbrev Bytes32 := BitVec 256

/- Each zero hash is the hash of two of the one before. -/
def generateZeroHashes (hash : Bytes32 → Bytes32 → Bytes32) :
    Nat → List Bytes32
  | 0 => [0]
  | height + 1 =>
      let zeroHashes := generateZeroHashes hash height
      let last := zeroHashes.getLastD 0
      zeroHashes ++ [hash last last]

/- The keys of the map `allLeaves` are kept as a list. -/
structure L1InfoTree where
  height : Nat
  zeroHashes : List Bytes32
  count : Nat
  siblings : List Bytes32
  currentRoot : Bytes32
  allLeaves : List Bytes32

/- A node with its two children. -/
abbrev HashedPair := Bytes32 × Bytes32 × Bytes32

/- The hashes of a level, two by two. -/
def buildIntermediate (hash : Bytes32 → Bytes32 → Bytes32) :
    List Bytes32 → Except Failure (List HashedPair × List Bytes32)
  | [] => .ok ([], [])
  | [_] => .error .panic
  | left :: right :: leaves => do
      let (nodes, hashes) ← buildIntermediate hash leaves
      .ok ((hash left right, left, right) :: nodes, hash left right :: hashes)

namespace L1InfoTree

/- An empty list of leaves stands for one zero leaf. -/
def firstLevel (mt : L1InfoTree) (leaves : List Bytes32) : Except Failure (List Bytes32) :=
  if leaves.length = 0 then
    (sliceIndex mt.zeroHashes 0).map (fun z => leaves ++ [z])
  else .ok leaves

/- A level of odd length gets one more zero hash. -/
def evenLevel (mt : L1InfoTree) (h : Nat) (leaves : List Bytes32) : Except Failure (List Bytes32) :=
  if leaves.length % 2 = 1 then
    (sliceIndex mt.zeroHashes h).map (fun z => leaves ++ [z])
  else .ok leaves

/- The last level built has to be a single node. -/
def onlyRoot :
    List HashedPair → Except Failure Bytes32
  | [ns] => .ok ns.1
  | _ =>
      .error (.error "error: more than one root detected: ")

/- `rounds` more levels, from level `h` on. -/
def buildLevels (hash : Bytes32 → Bytes32 → Bytes32) (mt : L1InfoTree) :
    Nat → Nat → List Bytes32 → List HashedPair → Except Failure (List HashedPair)
  | 0, _, _, ns => .ok ns
  | rounds + 1, h, leaves, _ => do
      let leaves ← mt.evenLevel h leaves
      let (ns, leaves) ← buildIntermediate hash leaves
      buildLevels hash mt rounds (h + 1) leaves ns

def buildL1InfoRoot (hash : Bytes32 → Bytes32 → Bytes32) (mt : L1InfoTree)
    (leaves : List Bytes32) : Except Failure Bytes32 := do
  let leaves ← mt.firstLevel leaves
  let ns ← buildLevels hash mt mt.height 0 leaves []
  onlyRoot ns

/-
  The sibling of a position in a level.  The length of the level is cut to 32 bits before the
  comparison.
-/
def levelSibling (mt : L1InfoTree) (h index : Nat)
    (leaves : List Bytes32) : Except Failure Bytes32 :=
  if index ≥ leaves.length % 2 ^ 32 then
    sliceIndex mt.zeroHashes h
  else if index % 2 = 1 then sliceIndex leaves (index - 1)
  else sliceIndex leaves (index + 1)

/- Halving the index as a float is exact below 2^32. -/
def proofLevels (hash : Bytes32 → Bytes32 → Bytes32) (mt : L1InfoTree) :
    Nat → Nat → Nat → List Bytes32 → List Bytes32 →
      List HashedPair → Except Failure (List Bytes32 × List HashedPair)
  | 0, _, _, _, siblings, ns => .ok (siblings, ns)
  | rounds + 1, h, index, leaves, siblings, _ => do
      let leaves ← mt.evenLevel h leaves
      let sibling ← mt.levelSibling h index leaves
      let (ns, leaves) ← buildIntermediate hash leaves
      proofLevels hash mt rounds (h + 1) (index / 2) leaves (siblings ++ [sibling]) ns

def computeMerkleProof (hash : Bytes32 → Bytes32 → Bytes32) (mt : L1InfoTree) (gerIndex : Nat)
    (leaves : List Bytes32) : Except Failure (List Bytes32 × Bytes32) := do
  let leaves ← mt.firstLevel leaves
  let (siblings, ns) ← proofLevels hash mt mt.height 0 gerIndex leaves [] []
  let root ← onlyRoot ns
  .ok (siblings, root)

/- The sibling of a level is kept when its left is complete. -/
def keepSibling (isFilledSubTree : Bool) (siblings : List Bytes32) (h : Nat)
    (cur : Bytes32) : Except Failure (List Bytes32) :=
  if isFilledSubTree then sliceSet siblings h cur
  else .ok siblings

def addLevels (hash : Bytes32 → Bytes32 → Bytes32) (mt : L1InfoTree) (index : Nat) :
    Nat → Nat → List Bytes32 → Bytes32 → Bool → Except Failure (List Bytes32 × Bytes32)
  | 0, _, siblings, cur, _ => .ok (siblings, cur)
  | rounds + 1, h, siblings, cur, isFilledSubTree =>
      if index.testBit h then do
        let sibling ← sliceIndex siblings h
        addLevels hash mt index rounds (h + 1) siblings (hash sibling cur) isFilledSubTree
      else do
        let siblings ← keepSibling isFilledSubTree siblings h cur
        let zero ← sliceIndex mt.zeroHashes h
        addLevels hash mt index rounds (h + 1) siblings (hash cur zero) false

def addLeaf (hash : Bytes32 → Bytes32 → Bytes32) (mt : L1InfoTree) (index : Nat) (leaf : Bytes32) :
    Except Failure (L1InfoTree × Bytes32) :=
  if index ≠ mt.count then
    .error
      (.error ("mismatched leaf count: " ++ toString index ++ ", expected: " ++ toString mt.count))
  else do
    let (siblings, cur) ← addLevels hash mt index mt.height 0 mt.siblings leaf true
    .ok
      ({ mt with
        siblings := siblings
        allLeaves := leaf :: mt.allLeaves
        currentRoot := cur
        count := (mt.count + 1) % 2 ^ 32 }, cur)

def leafExists (mt : L1InfoTree) (leaf : Bytes32) : Bool := mt.allLeaves.contains leaf

def initSiblings (hash : Bytes32 → Bytes32 → Bytes32) (mt : L1InfoTree)
    (initialLeaves : List Bytes32) : Except Failure (List Bytes32 × Bytes32) :=
  if mt.count ≠ initialLeaves.length % 2 ^ 32 then
    .error (.error ("error: mt.count and initialLeaves length " ++ "mismatch"))
  else if mt.count = 0 then do
    let root ← buildL1InfoRoot hash mt initialLeaves
    .ok (mt.zeroHashes.take mt.height, root)
  else computeMerkleProof hash mt mt.count initialLeaves

/- Add leaves at consecutive indices; the root after each. -/
def addLeaves (hash : Bytes32 → Bytes32 → Bytes32) :
    L1InfoTree → Nat → List Bytes32 → Except Failure (L1InfoTree × List Bytes32)
  | mt, _, [] => .ok (mt, [])
  | mt, index, leaf :: leaves => do
      let (mt, root) ← mt.addLeaf hash index leaf
      let (mt, roots) ← addLeaves hash mt (index + 1) leaves
      .ok (mt, root :: roots)

end L1InfoTree

def newL1InfoTree (hash : Bytes32 → Bytes32 → Bytes32) (height : Nat)
    (initialLeaves : List Bytes32) : Except Failure L1InfoTree := do
  let mt : L1InfoTree :=
    { height := height
      zeroHashes := generateZeroHashes hash height
      count := initialLeaves.length % 2 ^ 32
      siblings := []
      currentRoot := 0
      allLeaves := [] }
  let (siblings, currentRoot) ← mt.initSiblings hash initialLeaves
  .ok
    { mt with
      siblings := siblings
      currentRoot := currentRoot
      allLeaves := initialLeaves }

/- The tree is built anew, with the height of the L1 tree. -/
def L1InfoTree.resetL1InfoTree (hash : Bytes32 → Bytes32 → Bytes32) (_mt : L1InfoTree)
    (initialLeaves : List Bytes32) : Except Failure L1InfoTree :=
  newL1InfoTree hash 32 initialLeaves

end XLayerErigon
