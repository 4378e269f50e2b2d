import XLayerErigon.Go
import XLayerErigon.Smt.NodeKey
import XLayerErigon.Trie.Merkle

/-
  Nodes, values and the database of the sparse Merkle tree.

  A stored node is twelve words in three groups of four: a branch holds the hashes of its two
  children, a leaf holds the bits of its key below its depth and the hash of its value, and a
  value node holds the eight words of a value. The last group is the capacity, which tells a leaf
  from the other two.

  The hash is a parameter of the development: it stands for `Hash`, the Poseidon hash of eight
  words and a capacity.

  Main results:
    * `NodeValue12.isUniqueSibling_branch`
    * `SMT.getLastRoot_setLastRoot`
    * `SMT.hashSave_nodes`
-/

namespace XLayerErigon.Smt

-- Values

def leafCapacity : NodeKey := ![1, 0, 0, 0]

def branchCapacity : NodeKey := ![0, 0, 0, 0]

/-
  A value as the callers pass it: eight pointers to big integers, of which only the low 64 bits
  are ever read.
-/
abbrev NodeValue8 := Fin 8 → Option Word

/- The eight words of a value, in two groups of four. -/
abbrev Value := NodeKey × NodeKey

namespace NodeValue8

/- A missing word makes a value count as non-zero. -/
def isZero (nv : NodeValue8) : Bool := decide (∀ i, nv i = some 0)

/- A missing word is hashed and stored as zero. -/
def toUintArray (nv : NodeValue8) : Value :=
  (fun i => (nv (i.castLE (by decide))).getD 0, fun i => (nv (i.addNat 4)).getD 0)

/- What a value stands for in a key/value map. -/
def entry (nv : NodeValue8) : Option Value :=
  if nv.isZero then none else some nv.toUintArray

end NodeValue8

-- Nodes

@[ext]
structure NodeValue12 where
  get0to4 : NodeKey
  get4to8 : NodeKey
  capacity : NodeKey

instance : DecidableEq NodeValue12 := fun nv nv2 =>
  decidable_of_iff
    (nv.get0to4 = nv2.get0to4 ∧ nv.get4to8 = nv2.get4to8 ∧ nv.capacity = nv2.capacity)
    NodeValue12.ext_iff.symm

namespace NodeValue12

/- A node that is not in the database reads as this. -/
def zero : NodeValue12 := ⟨NodeKey.zero, NodeKey.zero, NodeKey.zero⟩

def isFinalNode (nv : NodeValue12) : Bool := nv.capacity.first == 1

/- The groups of four words, in order. -/
def group (nv : NodeValue12) : Fin 3 → NodeKey := ![nv.get0to4, nv.get4to8, nv.capacity]

/- The group that is not zero, when there is only one. -/
def isUniqueSibling (nv : NodeValue12) : Option (Fin 3) :=
  match (List.finRange 3).filter (fun i => !(nv.group i).isZero) with
  | [fnd] => some fnd
  | _ => none

def child (nv : NodeValue12) (bit : Bool) : NodeKey :=
  if bit then nv.get4to8 else nv.get0to4

def setChild (nv : NodeValue12) (bit : Bool) (h : NodeKey) : NodeValue12 :=
  if bit then { nv with get4to8 := h }
  else { nv with get0to4 := h }

end NodeValue12

/- A node from the arguments of a call of `Hash`. -/
def valueNode (value : Value) : NodeValue12 := ⟨value.1, value.2, branchCapacity⟩

def branchNode (left right : NodeKey) : NodeValue12 := ⟨left, right, branchCapacity⟩

def leafNode (rKey valH : NodeKey) : NodeValue12 := ⟨rKey, valH, leafCapacity⟩

namespace NodeValue12

variable (left right : NodeKey)

@[simp] theorem isFinalNode_leafNode (rKey valH : NodeKey) :
    (leafNode rKey valH).isFinalNode = true := rfl

@[simp] theorem isFinalNode_branchNode : (branchNode left right).isFinalNode = false := rfl

@[simp] theorem child_branchNode_true : (branchNode left right).child true = right := rfl

@[simp] theorem child_branchNode_false : (branchNode left right).child false = left := rfl

@[simp] theorem setChild_branchNode_true (left right h : NodeKey) :
    (branchNode left right).setChild true h = branchNode left h := rfl

@[simp] theorem setChild_branchNode_false (left right h : NodeKey) :
    (branchNode left right).setChild false h = branchNode h right := rfl

theorem isUniqueSibling_branch :
    (branchNode left right).isUniqueSibling = if left.isZero then
        if right.isZero then none else some 1
      else if right.isZero then some 0 else none := by
  have hCapacity : branchCapacity.isZero = true := rfl
  have hRange : List.finRange 3 = [0, 1, 2] := rfl
  unfold isUniqueSibling
  rw [hRange]
  cases hLeft : left.isZero <;>
    cases hRight : right.isZero <;> simp [List.filter, group, branchNode, hLeft, hRight, hCapacity]

end NodeValue12

/- The tables of the database that the tree reads and writes. Keys and nodes are kept decoded. -/
structure Db where
  nodes : NodeKey → Option NodeValue12
  hashKeys : NodeKey → Option NodeKey
  accountValues : NodeKey → Option NodeValue8
  lastRoot : Nat
  depth : Nat

namespace Db

def empty : Db where
  nodes := fun _ => none
  hashKeys := fun _ => none
  accountValues := fun _ => none
  lastRoot := 0
  depth := 0

def get (db : Db) (key : NodeKey) : NodeValue12 := (db.nodes key).getD NodeValue12.zero

def insert (db : Db) (key : NodeKey) (value : NodeValue12) : Db := { db with
    nodes := fun k =>
      if k = key then some value else db.nodes k }

def deleteByNodeKey (db : Db) (key : NodeKey) : Db :=
  { db with nodes := fun k => if k = key then none else db.nodes k }

def insertHashKey (db : Db) (key value : NodeKey) : Db := { db with
    hashKeys := fun k =>
      if k = key then some value else db.hashKeys k }

def deleteHashKey (db : Db) (key : NodeKey) : Db := { db with
    hashKeys := fun k =>
      if k = key then none else db.hashKeys k }

/- An account value that was never written has no words. -/
def getAccountValue (db : Db) (key : NodeKey) : NodeValue8 :=
  (db.accountValues key).getD (fun _ => none)

end Db

-- Trees over a Database

structure SMT where
  noSaveOnInsert : Bool
  db : Db

namespace SMT

/- `NewSMT` over an empty database that keeps its nodes. -/
def empty : SMT := ⟨false, Db.empty⟩

def getLastRoot (s : SMT) : NodeKey := NodeKey.scalarToRoot s.db.lastRoot

def setLastRoot (s : SMT) (newRoot : NodeKey) : SMT :=
  { s with db := { s.db with lastRoot := newRoot.toBigInt } }

def insertHashKey (s : SMT) (key value : NodeKey) : SMT :=
  { s with db := s.db.insertHashKey key value }

def hashSave (s : SMT) (node : NodeValue12) (h : NodeKey) : SMT :=
  if s.noSaveOnInsert then s
  else { s with db := s.db.insert h node }

def hashcalcAndSave (hash : NodeValue12 → NodeKey) (s : SMT) (node : NodeValue12) : SMT × NodeKey :=
  (s.hashSave node (hash node), hash node)

/- The depth is a byte and only grows. -/
def updateDepth (s : SMT) (newDepth : Nat) : SMT :=
  let newDepth := if newDepth > 255 then 255 else newDepth
  let newDepthAsByte := newDepth % 256
  if s.db.depth < newDepthAsByte then
    { s with db := { s.db with depth := newDepthAsByte } }
  else s

variable (s : SMT) (newRoot : NodeKey)

@[simp] theorem getLastRoot_setLastRoot : (s.setLastRoot newRoot).getLastRoot = newRoot :=
  NodeKey.scalarToRoot_toBigInt newRoot

@[simp] theorem setLastRoot_noSave :
    (s.setLastRoot newRoot).noSaveOnInsert = s.noSaveOnInsert := rfl

@[simp] theorem setLastRoot_nodes : (s.setLastRoot newRoot).db.nodes = s.db.nodes := rfl

@[simp] theorem insertHashKey_noSave (key value : NodeKey) :
    (s.insertHashKey key value).noSaveOnInsert = s.noSaveOnInsert := rfl

@[simp] theorem insertHashKey_nodes (key value : NodeKey) :
    (s.insertHashKey key value).db.nodes = s.db.nodes := rfl

@[simp] theorem updateDepth_noSave (newDepth : Nat) :
    (s.updateDepth newDepth).noSaveOnInsert = s.noSaveOnInsert := by
  unfold updateDepth
  dsimp only
  split_ifs <;> rfl

@[simp] theorem updateDepth_nodes (newDepth : Nat) :
    (s.updateDepth newDepth).db.nodes = s.db.nodes := by
  unfold updateDepth
  dsimp only
  split_ifs <;> rfl

@[simp] theorem hashSave_noSave (node : NodeValue12) (h : NodeKey) :
    (s.hashSave node h).noSaveOnInsert = s.noSaveOnInsert := by
  unfold hashSave
  split <;> rfl

end SMT

/- How the tree turns keys and values into nodes. -/
def scheme (hash : NodeValue12 → NodeKey) :
    Trie.Scheme NodeKey Value NodeValue12 NodeKey where
  hash := hash
  zero := NodeKey.zero
  valueNode := valueNode
  leafNode := fun d key value => leafNode (key.removeKeyBits d) (hash (valueNode value))
  branchNode := branchNode

abbrev Tree := Trie.Tree NodeKey Value

abbrev Frame := Trie.Frame NodeKey Value

theorem SMT.hashSave_nodes {s : SMT} (hash : NodeValue12 → NodeKey)
    (hSave : s.noSaveOnInsert = false) (node : NodeValue12) :
    (s.hashSave node (hash node)).db.nodes = (scheme hash).put s.db.nodes node := by
  unfold SMT.hashSave
  rw [if_neg (by simp [hSave])]
  funext k
  exact (Function.update_apply ..).symm

end XLayerErigon.Smt
