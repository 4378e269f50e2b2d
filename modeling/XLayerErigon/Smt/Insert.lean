import XLayerErigon.Smt.Canonical

/-
  The sequential insertion of the sparse Merkle tree.

  `insert` walks from the old root along the bits of the key and keeps every branch it passes.  It
  then works out the hash that belongs at the end of that walk in one of seven modes, and hashes
  the kept branches again from the bottom up.

  The branches of `siblings` are kept with the bit taken at each of them, deepest first, so
  `level` is one less than the number of them.  Each mode of the source ends with writing its hash
  into `siblings[level]`, or into `newRoot` when there is no branch left; here it returns the hash
  and `rehash` starts with that write.

  Key definitions include:
    * `descend`
    * `insertFound`
    * `deleteFound`
    * `rehash`
    * `SMT.insert`
    * `SMT.insertSingle`
-/

namespace XLayerErigon.Smt

-- Responses

inductive Mode where
  | update
  | insertFound
  | insertNotFound
  | deleteFound
  | deleteNotFound
  | deleteLast
  | zeroToZero
  | batchInsert
  deriving DecidableEq, Repr

def Mode.text : Mode → String
  | .update => "update"
  | .insertFound => "insertFound"
  | .insertNotFound => "insertNotFound"
  | .deleteFound => "deleteFound"
  | .deleteNotFound => "deleteNotFound"
  | .deleteLast => "deleteLast"
  | .zeroToZero => "zeroToZero"
  | .batchInsert => "batch insert"

structure SMTResponse where
  newRootScalar : NodeKey
  mode : Mode

/- Branches with the bit taken at each, deepest first. -/
abbrev Siblings := List (Bool × NodeValue12)

/- The bits taken so far, from the root downwards. -/
def usedKey (siblings : Siblings) : List Bool := (siblings.map Prod.fst).reverse

structure Found where
  foundKey : NodeKey
  foundRKey : NodeKey
  foundOldValHash : NodeKey

structure Descent where
  siblings : Siblings
  oldRoot : NodeKey
  found : Option Found

/-
  Follow the path until the hash is zero or the node is a leaf.  A branch below the last bit is an
  index out of the range of the path.
-/
def descend (db : Db) :
    List Bool → Siblings → NodeKey → Except Failure Descent
  | keys, siblings, oldRoot =>
      if oldRoot.isZero then
        .ok ⟨siblings, oldRoot, none⟩
      else if (db.get oldRoot).isFinalNode then
        .ok
          ⟨siblings, oldRoot,
            some
              { foundKey :=
                NodeKey.joinKey (usedKey siblings) (db.get oldRoot).get0to4
                foundRKey := (db.get oldRoot).get0to4
                foundOldValHash := (db.get oldRoot).get4to8 }⟩
      else
        match keys with
        | [] => .error .panic
        | bit :: keys =>
          descend db keys ((bit, db.get oldRoot) :: siblings) ((db.get oldRoot).child bit)

/- Hash the value, unless the caller gave its hash. -/
def saveValue (hash : NodeValue12 → NodeKey) (s : SMT) (v : Value)
    (newValH : NodeKey) : SMT × NodeKey :=
  if newValH = NodeKey.zero then
    s.hashcalcAndSave hash (valueNode v)
  else
    (s.hashSave (valueNode v) newValH, newValH)

def saveLeaf (hash : NodeValue12 → NodeKey) (s : SMT) (k rKey valH : NodeKey) : SMT × NodeKey :=
  let (s, leafHash) := s.hashcalcAndSave hash (leafNode rKey valH)
  (s.insertHashKey leafHash k, leafHash)

def emptyBranch : NodeValue12 := branchNode NodeKey.zero NodeKey.zero

/- Branches with one child, over the given bits upwards. -/
def chain (hash : NodeValue12 → NodeKey) :
    SMT → NodeKey → List Bool → SMT × NodeKey
  | s, r2, [] => (s, r2)
  | s, r2, bit :: bits =>
      let (s, r2) := s.hashcalcAndSave hash (emptyBranch.setChild bit r2)
      chain hash s r2 bits

/- Hash the kept branches again, over a new child. -/
def rehash (hash : NodeValue12 → NodeKey) :
    SMT → NodeKey → Siblings → SMT × NodeKey
  | s, newRoot, [] => (s, newRoot)
  | s, newRoot, (bit, node) :: siblings =>
      let (s, newRoot) := s.hashcalcAndSave hash (node.setChild bit newRoot)
      rehash hash s newRoot siblings

-- The Modes

/- What a mode leaves for the final pass upwards. -/
structure Outcome where
  smt : SMT
  siblings : Siblings
  newRoot : NodeKey
  mode : Mode

/- The first position where the two paths differ. -/
def divergence :
    List Bool → List Bool → Nat → Nat
  | key :: keys, foundKey :: foundKeys, level2 =>
      if key ≠ foundKey then level2
      else divergence keys foundKeys (level2 + 1)
  | _, _, level2 => level2

/- Replace the value of a leaf with the same key. -/
def updateLeaf (hash : NodeValue12 → NodeKey) (s : SMT) (k : NodeKey) (v : Value)
    (newValH : NodeKey) (siblings : Siblings) (found : Found) : Outcome :=
  let (s, newValH) := saveValue hash s v newValH
  let (s, newLeafHash) := saveLeaf hash s k found.foundRKey newValH
  ⟨s, siblings, newLeafHash, .update⟩

/- Put a new leaf beside a leaf with another key. -/
def insertFound (hash : NodeValue12 → NodeKey) (s : SMT) (k : NodeKey) (v : Value)
    (newValH : NodeKey) (siblings : Siblings) (found : Found) : Except Failure Outcome :=
  let keys := k.getPath
  let foundKeys := found.foundKey.getPath
  let level2 :=
    divergence (keys.drop siblings.length) (foundKeys.drop siblings.length) siblings.length
  let (s, oldLeafHash) :=
    saveLeaf hash s found.foundKey (found.foundKey.removeKeyBits (level2 + 1)) found.foundOldValHash
  let (s, newValH) := saveValue hash s v newValH
  let (s, newLeafHash) := saveLeaf hash s k (k.removeKeyBits (level2 + 1)) newValH
  match keys[level2]?, foundKeys[level2]? with
  | some bit, some foundBit =>
    let node := (emptyBranch.setChild bit newLeafHash).setChild foundBit oldLeafHash
    let (s, r2) := s.hashcalcAndSave hash node
    let (s, r2) := chain hash s r2 ((keys.take level2).drop siblings.length).reverse
    .ok ⟨s, siblings, r2, .insertFound⟩
  | _, _ => .error .panic

/- Put a new leaf where the walk ended at nothing. -/
def insertNotFound (hash : NodeValue12 → NodeKey) (s : SMT) (k : NodeKey) (v : Value)
    (newValH : NodeKey) (siblings : Siblings) : Outcome :=
  let (s, newValH) := saveValue hash s v newValH
  let (s, newLeafHash) := saveLeaf hash s k (k.removeKeyBits siblings.length) newValH
  ⟨s, siblings, newLeafHash, .insertNotFound⟩

/-
  Remove the leaf below the last branch.  A lone leaf that is left beside it moves up past every
  branch that has no other child.
-/
def deleteFound (hash : NodeValue12 → NodeKey) (s : SMT) : Siblings → Outcome
  | [] => ⟨s, [], NodeKey.zero, .deleteLast⟩
  | (bit, node) :: up =>
      let node := node.setChild bit NodeKey.zero
      match node.isUniqueSibling with
      | none =>
        ⟨s, (bit, node) :: up, NodeKey.zero, .deleteNotFound⟩
      | some uKey =>
        let sl := s.db.get (node.group uKey)
        if sl.isFinalNode then
          let insKey := NodeKey.joinKey (usedKey up ++ [uKey == 1]) sl.get0to4
          let up := up.dropWhile (fun parent => parent.2.isUniqueSibling.isSome)
          let (s, oldLeafHash) := saveLeaf hash s insKey (insKey.removeKeyBits up.length) sl.get4to8
          ⟨s, up, oldLeafHash, .deleteFound⟩
        else
          ⟨s, (bit, node) :: up, NodeKey.zero, .deleteNotFound⟩

/- The mode that the value and the end of the walk ask for. -/
def applyMode (hash : NodeValue12 → NodeKey) (s : SMT) (k : NodeKey) (v : NodeValue8)
    (newValH : NodeKey) (d : Descent) : Except Failure Outcome :=
  match v.isZero, d.found with
  | false, some found =>
    if found.foundKey.isEqualTo k then
      .ok (updateLeaf hash s k v.toUintArray newValH d.siblings found)
    else
      insertFound hash s k v.toUintArray newValH d.siblings found
  | false, none =>
    .ok (insertNotFound hash s k v.toUintArray newValH d.siblings)
  | true, some found =>
    if found.foundKey.isEqualTo k then
      .ok (deleteFound hash s d.siblings)
    else
      .ok ⟨s, d.siblings, d.oldRoot, .zeroToZero⟩
  | true, none =>
    .ok ⟨s, d.siblings, d.oldRoot, .zeroToZero⟩

namespace SMT

def insert (hash : NodeValue12 → NodeKey) (s : SMT) (k : NodeKey) (v : NodeValue8)
    (newValH oldRoot : NodeKey) : Except Failure (SMT × SMTResponse) := do
  let d ← descend s.db k.getPath [] oldRoot
  let o ← applyMode hash s k v newValH d
  let s := o.smt.updateDepth o.siblings.length
  let (s, newRoot) := rehash hash s o.newRoot o.siblings return (s, ⟨newRoot, o.mode⟩)

def insertSingle (hash : NodeValue12 → NodeKey) (s : SMT) (k : NodeKey) (v : NodeValue8)
    (newValH : NodeKey) : Except Failure (SMT × SMTResponse) := do
  let (s, smtr) ← s.insert hash k v newValH s.getLastRoot
  return (s.setLastRoot smtr.newRootScalar, smtr)

def insertAll (hash : NodeValue12 → NodeKey) :
    SMT → List (NodeKey × NodeValue8) → Except Failure SMT
  | s, [] => .ok s
  | s, (k, v) :: kvs => do
      let (s, _) ← s.insertSingle hash k v NodeKey.zero
      insertAll hash s kvs

end SMT

end XLayerErigon.Smt
