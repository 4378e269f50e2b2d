import Mathlib.Logic.Function.Basic
import XLayerErigon.Go
import XLayerErigon.Data.Bytes

/-
  The accounts as a block sees them while it is executed.

  Accounts are read from the database when they are first looked at, and live in memory from then
  on.  An account that is credited before it was looked at is not read: the amount is kept aside
  and added when the account is read.  Every change is written to a journal, from which it can be
  undone.

  Key definitions include:
    * `IntraBlockState`
    * `IntraBlockState.getStateObject`
    * `IntraBlockState.addBalance`
    * `JournalEntry.revert`
    * `IntraBlockState.revertToSnapshot`
    * `IntraBlockState.finalizeTx`
-/

namespace XLayerErigon.State

abbrev Address := BitVec 160

abbrev Hash := BitVec 256

abbrev Uint256 := BitVec 256

abbrev Uint64 := BitVec 64

/- The Keccak hash of no bytes. -/
def emptyCodeHash : Hash := 0xc5d2460186f7233c927e7db2dcc703c0e500b653ca82273b7bfad8045d85a470

def ripemd : Address := 3

/- The address of the state of the rollup. -/
def addressScalableL2 : Address := 0x5ca1ab1e

def systemAddress : Address := 0xfffffffffffffffffffffffffffffffffffffffe

structure Account where
  nonce : Uint64
  balance : Uint256
  codeHash : Hash

/- The database.  Storage is that of the incarnation the account is in. -/
structure StateReader where
  readAccountData : Address → Option Account
  readAccountStorage : Address → Hash → Uint256
  readAccountCode : Address → Hash → Bytes

structure StateObject where
  nonce : Uint64
  balance : Uint256
  codeHash : Hash
  code : Bytes
  storage : Hash → Uint256
  selfdestructed : Bool
  deleted : Bool
  newlyCreated : Bool
  createdContract : Bool

/- An amount that waits for its account to be read. -/
structure BalanceIncrease where
  increase : Uint256
  transferred : Bool
  count : Nat

/- One more amount is kept aside. -/
def BalanceIncrease.later (bi : Option BalanceIncrease) (amount : Uint256) : BalanceIncrease :=
  { bi.getD ⟨0, false, 0⟩ with
    increase := (bi.getD ⟨0, false, 0⟩).increase + amount
    count := (bi.getD ⟨0, false, 0⟩).count + 1 }

def BalanceIncrease.setTransferred (transferred : Bool) (bi : BalanceIncrease) : BalanceIncrease :=
  { bi with transferred := transferred }

structure Log where
  address : Address
  topics : List Hash
  data : Bytes
  txHash : Hash
  txIndex : Nat
  index : Nat

inductive JournalEntry where
  | createObjectChange (account : Address)
  | resetObjectChange (account : Address) (prev : StateObject)
  | selfdestructChange (account : Address) (prev : Bool) (prevbalance : Uint256)
  | balanceChange (account : Address) (prev post : Uint256)
  | balanceIncrease (account : Address) (increase : Uint256)
  | balanceIncreaseTransfer (account : Address) (prev : Uint256)
  | nonceChange (account : Address) (prev post : Uint64)
  | storageChange (account : Address) (key : Hash) (prevalue postvalue : Uint256)
  | codeChange (account : Address) (prevcode : Bytes) (prevhash posthash : Hash) (postcode : Bytes)
  | refundChange (prev : Uint64)
  | addLogChange (txhash : Hash)
  | touchChange (account : Address)

def JournalEntry.dirtied :
    JournalEntry → Option Address
  | createObjectChange account => some account
  | resetObjectChange _ _ => none
  | selfdestructChange account _ _ => some account
  | balanceChange account _ _ => some account
  | balanceIncrease account _ => some account
  | balanceIncreaseTransfer _ _ => none
  | nonceChange account _ _ => some account
  | storageChange account _ _ _ => some account
  | codeChange account _ _ _ _ => some account
  | refundChange _ => none
  | addLogChange _ => none
  | touchChange account => some account

structure Revision where
  id : Nat
  journalIndex : Nat

/- The newest entry of the journal is the first. -/
structure IntraBlockState where
  stateReader : StateReader
  stateObjects : Address → Option StateObject
  balanceInc : Address → Option BalanceIncrease
  journal : List JournalEntry
  dirties : Address → Nat
  validRevisions : List Revision
  nextRevisionID : Nat
  refund : Uint64
  logs : Hash → List Log
  logSize : Nat
  thash : Hash
  txIndex : Nat

namespace StateObject

/- The account of the rollup never counts as empty. -/
def empty (o : StateObject) (address : Address) : Bool :=
  address ≠ addressScalableL2 ∧ o.nonce = 0 ∧ o.balance = 0 ∧ o.codeHash = emptyCodeHash

/- The object of an account that is not in the database. -/
def fresh : StateObject where
  nonce := 0
  balance := 0
  codeHash := emptyCodeHash
  code := []
  storage := fun _ => 0
  selfdestructed := false
  deleted := false
  newlyCreated := true
  createdContract := false

end StateObject

/- An account without a code hash gets that of no code. -/
def normalCodeHash (codeHash : Hash) : Hash :=
  if codeHash = 0 then emptyCodeHash else codeHash

def StateReader.code (reader : StateReader) (address : Address) (codeHash : Hash) : Bytes :=
  if codeHash = emptyCodeHash then []
  else reader.readAccountCode address codeHash

/-
  The object of an account of the database.  Code and storage are read on demand in the source,
  and the database does not change meanwhile.
-/
def StateReader.newObject (reader : StateReader) (address : Address)
    (account : Account) : StateObject where
  nonce := account.nonce
  balance := account.balance
  codeHash := normalCodeHash account.codeHash
  code := reader.code address (normalCodeHash account.codeHash)
  storage := reader.readAccountStorage address
  selfdestructed := false
  deleted := false
  newlyCreated := false
  createdContract := false

namespace IntraBlockState

/- The source's New. -/
def new (reader : StateReader) : IntraBlockState where
  stateReader := reader
  stateObjects := fun _ => none
  balanceInc := fun _ => none
  journal := []
  dirties := fun _ => 0
  validRevisions := []
  nextRevisionID := 0
  refund := 0
  logs := fun _ => []
  logSize := 0
  thash := 0
  txIndex := 0

-- The journal and the live objects

def markDirty (s : IntraBlockState) (account : Option Address) : Address → Nat :=
  account.elim s.dirties (fun a => Function.update s.dirties a (s.dirties a + 1))

/- The source's journal.append. -/
def append (s : IntraBlockState) (e : JournalEntry) : IntraBlockState := { s with
    journal := e :: s.journal
    dirties := s.markDirty e.dirtied }

def putObject (s : IntraBlockState) (address : Address) (o : StateObject) : IntraBlockState :=
  { s with stateObjects := Function.update s.stateObjects address (some o) }

def dropObject (s : IntraBlockState) (address : Address) : IntraBlockState :=
  { s with stateObjects := Function.update s.stateObjects address none }

def modifyObject (s : IntraBlockState) (address : Address)
    (f : StateObject → StateObject) : IntraBlockState :=
  { s with stateObjects := Function.update s.stateObjects address ((s.stateObjects address).map f) }

def putIncrease (s : IntraBlockState) (address : Address)
    (bi : Option BalanceIncrease) : IntraBlockState :=
  { s with balanceInc := Function.update s.balanceInc address bi }

/- The amount that waits for the account to be read. -/
def waiting (s : IntraBlockState) (address : Address) : Option BalanceIncrease :=
  (s.balanceInc address).filter (fun bi => !bi.transferred)

def setStateObject (s : IntraBlockState) (address : Address)
    (object : StateObject) : IntraBlockState :=
  match s.waiting address with
  | none => s.putObject address object
  | some bi =>
    ((s.append (.balanceIncreaseTransfer address object.balance)).putIncrease address
      (some (bi.setTransferred true))).putObject
      address { object with balance := object.balance + bi.increase }

/- The entry that records the new object. -/
def createdEntry (address : Address) (previous : Option StateObject) : JournalEntry :=
  previous.elim (.createObjectChange address) (.resetObjectChange address)

def createObject (s : IntraBlockState) (address : Address)
    (previous : Option StateObject) : IntraBlockState :=
  (s.append (createdEntry address previous)).setStateObject address StateObject.fresh

/- Looks an account up.  The object, if there is one, is live in the state that is returned. -/
def getStateObject (s : IntraBlockState) (address : Address) : IntraBlockState :=
  match s.stateObjects address with
  | some _ => s
  | none =>
    match s.stateReader.readAccountData address with
    | some account =>
      s.setStateObject address (s.stateReader.newObject address account)
    | none =>
      if (s.waiting address).isSome then s.createObject address none
      else s

def getOrNewStateObject (s : IntraBlockState) (address : Address) : IntraBlockState :=
  let s' := s.getStateObject address
  match s'.stateObjects address with
  | none => s'.createObject address none
  | some o =>
    if o.deleted then s'.createObject address (some o)
    else s'

def object (s : IntraBlockState) (address : Address) : Option StateObject :=
  ((s.getStateObject address).stateObjects address).filter (fun o => !o.deleted)

def getBalance (s : IntraBlockState) (address : Address) : Uint256 :=
  (s.object address).elim 0 StateObject.balance

def getNonce (s : IntraBlockState) (address : Address) : Uint64 :=
  (s.object address).elim 0 StateObject.nonce

def getCodeHash (s : IntraBlockState) (address : Address) : Hash :=
  (s.object address).elim 0 StateObject.codeHash

def getCode (s : IntraBlockState) (address : Address) : Bytes :=
  (s.object address).elim [] StateObject.code

def getState (s : IntraBlockState) (address : Address) (key : Hash) : Uint256 :=
  (s.object address).elim 0 (fun o => o.storage key)

def getLogs (s : IntraBlockState) (txHash : Hash) : List Log := s.logs txHash

-- Writing

/- The journal of a touched account; see also `ripemd`. -/
def touch (s : IntraBlockState) (address : Address) : IntraBlockState :=
  let s' := s.append (.touchChange address)
  if address = ripemd then { s' with dirties := s'.markDirty (some address) }
  else s'

/- Records the change of a live object and makes it. -/
def record (s : IntraBlockState) (e : JournalEntry) (address : Address)
    (f : StateObject → StateObject) : IntraBlockState :=
  (s.append e).modifyObject address f

def setBalance (s : IntraBlockState) (address : Address) (o : StateObject)
    (amount : Uint256) : IntraBlockState :=
  s.record (.balanceChange address o.balance amount) address (fun o => { o with balance := amount })

def addToObject (s : IntraBlockState) (address : Address) (amount : Uint256)
    (o : StateObject) : IntraBlockState :=
  if amount = 0 then
    if o.empty address then s.touch address else s
  else s.setBalance address o (o.balance + amount)

/- The account is not read: the amount is kept aside. -/
def increaseLater (s : IntraBlockState) (address : Address) (amount : Uint256) : IntraBlockState :=
  (s.append (.balanceIncrease address amount)).putIncrease address
    (some (BalanceIncrease.later (s.balanceInc address) amount))

def needAccount (s : IntraBlockState) (address : Address) (amount : Uint256) : Bool :=
  (s.stateObjects address).isSome ∨ (address = ripemd ∧ amount = 0)

def addBalance (s : IntraBlockState) (address : Address) (amount : Uint256) : IntraBlockState :=
  if s.needAccount address amount then
    let s' := s.getOrNewStateObject address
    (s'.stateObjects address).elim s' (s'.addToObject address amount)
  else s.increaseLater address amount

def subBalance (s : IntraBlockState) (address : Address) (amount : Uint256) : IntraBlockState :=
  let s' := s.getOrNewStateObject address
  if amount = 0 then s'
  else
    (s'.stateObjects address).elim s' (fun o => s'.setBalance address o (o.balance - amount))

def setNonce (s : IntraBlockState) (address : Address) (nonce : Uint64) : IntraBlockState :=
  let s' := s.getOrNewStateObject address
  (s'.stateObjects address).elim s' (fun o =>
    s'.record (.nonceChange address o.nonce nonce) address (fun o => { o with nonce := nonce }))

/- Setting no code is not journaled.  The hash of code is computed by the caller here. -/
def setCode (s : IntraBlockState) (address : Address) (codeHash : Hash)
    (code : Bytes) : IntraBlockState :=
  let s' := s.getOrNewStateObject address
  if code = [] then
    s'.modifyObject address
      (fun o => { o with
        code := []
        codeHash := emptyCodeHash })
  else
    (s'.stateObjects address).elim s' (fun o =>
      s'.record (.codeChange address o.code o.codeHash codeHash code) address
        (fun o => { o with
          code := code
          codeHash := codeHash }))

def setStorage (key : Hash) (value : Uint256) (o : StateObject) : StateObject :=
  { o with storage := Function.update o.storage key value }

def setState (s : IntraBlockState) (address : Address) (key : Hash)
    (value : Uint256) : IntraBlockState :=
  let s' := s.getOrNewStateObject address
  (s'.stateObjects address).elim s' (fun o =>
    if o.storage key = value then s'
    else
      s'.record (.storageChange address key (o.storage key) value) address (setStorage key value))

def markSelfdestructed (o : StateObject) : StateObject := { o with
    selfdestructed := true
    createdContract := false
    balance := 0 }

def selfdestruct (s : IntraBlockState) (address : Address) : IntraBlockState :=
  let s' := s.getStateObject address
  (s'.stateObjects address).elim s' (fun o =>
    if o.deleted then s'
    else
      s'.record (.selfdestructChange address o.selfdestructed o.balance) address markSelfdestructed)

def selfdestruct6780 (s : IntraBlockState) (address : Address) : IntraBlockState :=
  let s' := s.getStateObject address
  (s'.stateObjects address).elim s' (fun o =>
    if o.newlyCreated then s'.selfdestruct address
    else s')

/- The balance of an earlier object is carried over. -/
def carryOver (previous : Option StateObject) (contractCreation : Bool)
    (o : StateObject) : StateObject :=
  { o with
    balance := (previous.filter (fun p => !p.selfdestructed)).elim o.balance StateObject.balance
    createdContract := contractCreation }

def createAccount (s : IntraBlockState) (address : Address)
    (contractCreation : Bool) : IntraBlockState :=
  let s' := s.getStateObject address
  let previous := s'.stateObjects address
  (s'.createObject address previous).modifyObject address (carryOver previous contractCreation)

def addRefund (s : IntraBlockState) (gas : Uint64) : IntraBlockState :=
  { s.append (.refundChange s.refund) with refund := s.refund + gas }

def subRefund (s : IntraBlockState) (gas : Uint64) : IntraBlockState :=
  { s.append (.refundChange s.refund) with refund := s.refund - gas }

def addLog (s : IntraBlockState) (address : Address) (topics : List Hash)
    (data : Bytes) : IntraBlockState :=
  { s.append (.addLogChange s.thash) with
    logs := Function.update s.logs s.thash
      (s.logs s.thash ++ [⟨address, topics, data, s.thash, s.txIndex, s.logSize⟩])
    logSize := s.logSize + 1 }

end IntraBlockState

-- Undoing

/- Takes an amount kept aside back. -/
def BalanceIncrease.takeBack (bi : BalanceIncrease) (increase : Uint256) : Option BalanceIncrease :=
  if bi.count = 1 then none
  else
    some { bi with
      increase := bi.increase - increase
      count := bi.count - 1 }

open IntraBlockState in
def JournalEntry.revert :
    JournalEntry → IntraBlockState → IntraBlockState
  | createObjectChange account, s => s.dropObject account
  | resetObjectChange account prev, s =>
      s.setStateObject account prev
  | selfdestructChange account prev prevbalance, s =>
      (s.getStateObject account).modifyObject account
        (fun o => { o with
          selfdestructed := prev
          balance := prevbalance })
  | balanceChange account prev _, s =>
    (s.getStateObject account).modifyObject account (fun o => { o with balance := prev })
  | balanceIncrease account increase, s =>
    s.putIncrease account ((s.balanceInc account).bind (fun bi => bi.takeBack increase))
  | balanceIncreaseTransfer account _, s =>
    s.putIncrease account ((s.balanceInc account).map (BalanceIncrease.setTransferred false))
  | nonceChange account prev _, s =>
    (s.getStateObject account).modifyObject account (fun o => { o with nonce := prev })
  | storageChange account key prevalue _, s =>
    (s.getStateObject account).modifyObject account (setStorage key prevalue)
  | codeChange account prevcode prevhash _ _, s =>
    (s.getStateObject account).modifyObject account
      (fun o => { o with
        code := prevcode
        codeHash := prevhash })
  | refundChange prev, s => { s with refund := prev }
  | addLogChange txhash, s =>
    { s with
      logs := Function.update s.logs txhash (s.logs txhash).dropLast
      logSize := s.logSize - 1 }
  | touchChange _, s => s

namespace IntraBlockState

def unmarkDirty (s : IntraBlockState) (account : Option Address) : Address → Nat :=
  account.elim s.dirties (fun a => Function.update s.dirties a (s.dirties a - 1))

def undoEntry (s : IntraBlockState) (e : JournalEntry) : IntraBlockState :=
  let s' := e.revert s
  { s' with dirties := s'.unmarkDirty e.dirtied }

/- Undoes entries, the newest first. -/
def undo (s : IntraBlockState) (entries : List JournalEntry) : IntraBlockState :=
  entries.foldl undoEntry s

/- The source's journal.revert. -/
def revertJournal (s : IntraBlockState) (snapshot : Nat) : IntraBlockState :=
  let newer := s.journal.length - snapshot
  { s.undo (s.journal.take newer) with journal := s.journal.drop newer }

def snapshot (s : IntraBlockState) : IntraBlockState := { s with
    nextRevisionID := s.nextRevisionID + 1
    validRevisions := s.validRevisions ++ [⟨s.nextRevisionID, s.journal.length⟩] }

/-
  The first revision that is not older than the given one has to be that one; it and all newer
  ones become invalid.
-/
def revertToSnapshot (s : IntraBlockState) (revid : Nat) : Except Failure IntraBlockState :=
  let older := s.validRevisions.takeWhile (·.id < revid)
  match s.validRevisions[older.length]? with
  | none => .error .panic
  | some revision =>
    if revision.id = revid then
      .ok { s.revertJournal revision.journalIndex with validRevisions := older }
    else .error .panic

/- Who is destroyed or empty is deleted. -/
def updateAccount (isSpuriousDragon isAura : Bool) (address : Address)
    (o : StateObject) : StateObject :=
  let emptyRemoval := isSpuriousDragon && o.empty address && (!isAura || address ≠ systemAddress)
  { o with
    deleted :=
      if (o.createdContract || !o.selfdestructed) && !emptyRemoval then false
      else o.deleted || o.selfdestructed || emptyRemoval
    newlyCreated := false }

/- The account with what waits for it. -/
def settle (s : IntraBlockState) (address : Address) : IntraBlockState :=
  if (s.waiting address).isSome then s.getStateObject address
  else s

/-
  The accounts of the waiting amounts are looked up, and then every account with an entry is
  updated.  What happens to one account does not depend on the others, so the order in which the
  source ranges over them does not matter.
-/
def finalizeTx (s : IntraBlockState) (isSpuriousDragon isAura : Bool) : IntraBlockState := { s with
    stateObjects := fun address =>
      if 0 < (s.settle address).dirties address
      then ((s.settle address).stateObjects address).map
        (updateAccount isSpuriousDragon isAura address)
      else (s.settle address).stateObjects address
    balanceInc := fun address => (s.settle address).balanceInc address
    journal := []
    dirties := fun _ => 0
    validRevisions := []
    refund := 0 }

/- The source's Init. -/
def init (s : IntraBlockState) (thash : Hash) (txIndex : Nat) : IntraBlockState := { s with
    thash := thash
    txIndex := txIndex }

end IntraBlockState

end XLayerErigon.State
