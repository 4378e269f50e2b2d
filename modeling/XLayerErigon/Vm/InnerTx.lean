import Mathlib.Logic.Function.Basic
import Mathlib.Tactic.SplitIfs

/-
  The inner transactions that are recorded while a transaction runs.

  The frames of a transaction are a tree: a frame makes calls and creations, each of which may run
  a frame of its own, and a self-destruct ends it.  `beforeOp` names an operation from the depth
  of the interpreter alone, with one counter for each depth, and `afterOp` marks all that was
  recorded since.  The self-destruct that newer forks install records nothing.

  Main results:
    * `run_spec`
    * `applyTransaction_eq`
    * `mirrors_iff`
-/

namespace XLayerErigon.Vm

-- Recording an operation

inductive CallType
  | call | callcode | delegatecall | staticcall | create | create2 | suicide
  deriving DecidableEq

def CallType.toString : CallType → String
  | .call => "call"
  | .callcode => "callcode"
  | .delegatecall => "delegatecall"
  | .staticcall => "staticcall"
  | .create => "create"
  | .create2 => "create2"
  | .suicide => "suicide"

/- The transaction itself is recorded without a type and a name. -/
structure InnerTx where
  callType : Option CallType := none
  name : String := ""
  dept : Nat := 0
  internalIndex : Nat := 0
  isError : Bool := false
  deriving DecidableEq

/- `indexMap` is read with Go's default 0. -/
structure InnerTxMeta where
  index : Nat
  lastDepth : Nat
  indexMap : Nat → Nat
  innerTxs : List InnerTx

/- The branches of `beforeOp` on the depth of the interpreter. -/
def InnerTxMeta.advance (m : InnerTxMeta) (depth : Nat) : InnerTxMeta :=
  if depth = m.lastDepth then
    { m with index := m.index + 1, indexMap := Function.update m.indexMap depth (m.index + 1) }
  else if depth < m.lastDepth then
    { m with
      index := m.indexMap depth + 1
      indexMap := Function.update m.indexMap depth (m.indexMap depth + 1)
      lastDepth := depth }
  else
    { m with index := 0, indexMap := Function.update m.indexMap depth 0, lastDepth := depth }

/- The positions of a name, one after the other. -/
def pathName (path : List Nat) : String :=
  path.foldl (fun name i => name ++ "_" ++ toString i) ""

/- The second component is the position of the new inner transaction. -/
def beforeOp (m : InnerTxMeta) (depth : Nat) (callTyp : CallType) : InnerTxMeta × Nat :=
  let m := m.advance depth
  let innerTx : InnerTx :=
    { callType := some callTyp
      name := callTyp.toString ++ pathName ((List.range' 1 m.lastDepth).map m.indexMap)
      dept := depth
      internalIndex := m.index }
  ({ m with innerTxs := m.innerTxs ++ [innerTx] }, m.innerTxs.length)

def InnerTx.markError (innerTx : InnerTx) : InnerTx := { innerTx with isError := true }

def afterOp (m : InnerTxMeta) (newIndex : Nat) (err : Bool) : InnerTxMeta :=
  { m with
    innerTxs := if err then
        m.innerTxs.take newIndex ++ (m.innerTxs.drop newIndex).map InnerTx.markError
      else m.innerTxs }

-- The frames of a transaction

/-
  What a frame does.  `err` says that the call or creation returned an error, and `toSelf` that
  the beneficiary is the contract itself.  A call that runs no code has no children.
-/
inductive Calls
  | nil
  | selfdestruct (toSelf : Bool)
  | call (typ : CallType) (err : Bool) (children rest : Calls)

/- What the jump table holds for SELFDESTRUCT. -/
inductive SelfdestructOp
  | opSelfdestruct | opSendAll | opSelfdestruct6780

/- Whether the instruction calls `beforeOp`. -/
def SelfdestructOp.records : SelfdestructOp → Bool → Bool
  | .opSelfdestruct, _ => true
  | .opSendAll, toSelf => !toSelf
  | .opSelfdestruct6780, _ => false

def Calls.run (op : SelfdestructOp) (depth : Nat) : Calls → InnerTxMeta → InnerTxMeta
  | .nil, m => m
  | .selfdestruct toSelf, m =>
    if op.records toSelf then
      let before := beforeOp m depth .suicide
      afterOp before.1 before.2 false
    else m
  | .call typ err children rest, m =>
    let before := beforeOp m depth typ
    rest.run op depth (afterOp (children.run op (depth + 1) before.1) before.2 err)

/- The top call runs its frame at depth 1, and `vmerr` is what it returns. -/
def transitionDb (op : SelfdestructOp) (calls : Calls) (vmerr : Bool) : List InnerTx :=
  let m := calls.run op 1 ⟨0, 0, fun _ => 0, [{}]⟩
  if vmerr then m.innerTxs.modifyHead InnerTx.markError else m.innerTxs

def afterApplyTransaction (innerTxs : List InnerTx) (failed : Bool) : List InnerTx :=
  if failed then innerTxs.map InnerTx.markError else innerTxs

def applyTransaction (op : SelfdestructOp) (calls : Calls) (vmerr : Bool) : List InnerTx :=
  afterApplyTransaction (transitionDb op calls vmerr) vmerr

-- The operations of the tree

/- `path` are the child positions from the top call; `failed` also tells of the ancestors. -/
structure Operation where
  kind : CallType
  path : List Nat
  failed : Bool

def Operation.innerTx (o : Operation) : InnerTx :=
  { callType := some o.kind
    name := o.kind.toString ++ pathName o.path
    dept := o.path.length
    internalIndex := o.path.getLastD 0
    isError := o.failed }

/-
  The operations in call order, of a frame at `path` whose next child has position `n`; of the
  self-destructs only those that `listed` selects.
-/
def Calls.operations (listed : Bool → Bool) : Calls → List Nat → Nat → Bool → List Operation
  | .nil, _, _, _ => []
  | .selfdestruct toSelf, path, n, failed =>
    if listed toSelf then [⟨.suicide, path ++ [n], failed⟩] else []
  | .call typ err children rest, path, n, failed =>
    ⟨typ, path ++ [n], err || failed⟩ ::
      (children.operations listed (path ++ [n]) 0 (err || failed) ++
        rest.operations listed path (n + 1) failed)

/-
  The inner transactions are the transaction and all operations of its tree, and those of one kind
  have different names.
-/
def Mirrors (calls : Calls) (failed : Bool) (innerTxs : List InnerTx) : Prop :=
  innerTxs = { isError := failed } ::
      (calls.operations (fun _ => true) [] 0 failed).map Operation.innerTx ∧
    innerTxs.Pairwise (fun a b => a.callType = b.callType → a.name ≠ b.name)

/- Every self-destruct of the tree is one that its instruction records. -/
def Calls.Recorded (op : SelfdestructOp) : Calls → Prop
  | .nil => True
  | .selfdestruct toSelf => op.records toSelf = true
  | .call _ _ children rest => children.Recorded op ∧ rest.Recorded op

-- A run of a frame

variable {m : InnerTxMeta} {op : SelfdestructOp} {listed : Bool → Bool} {path last : List Nat}
  {n : Nat}

/- `last` is the path of the operation that was recorded last. -/
structure LastAt (last : List Nat) (m : InnerTxMeta) : Prop where
  index_eq : m.index = last.getLastD 0
  lastDepth_eq : m.lastDepth = last.length
  indexMap_eq : ∀ i a, last[i]? = some a → m.indexMap (i + 1) = a

/- The next operation of the frame at `path` is its child `n`. -/
def Ready (path last : List Nat) : Nat → Prop
  | 0 => last = path
  | k + 1 => path ++ [k] <+: last

theorem Ready.isPrefix (hReady : Ready path last n) : path <+: last := by
  cases n with
  | zero => exact hReady ▸ List.prefix_rfl
  | succ k => exact (List.prefix_append path [k]).trans hReady

/- The new operation stands below the frame, whichever branch its depth takes. -/
theorem lastAt_advance (hLast : LastAt last m) (hReady : Ready path last n) :
    LastAt (path ++ [n]) (m.advance (path.length + 1)) := by
  obtain ⟨hIndex, hDepth, hMap⟩ := hLast
  have hUpdate : ∀ i a, (path ++ [n])[i]? = some a →
      Function.update m.indexMap (path.length + 1) n (i + 1) = a := by
    intro i a hGet
    rcases Nat.lt_trichotomy i path.length with hi | rfl | hi
    · obtain ⟨tail, rfl⟩ := hReady.isPrefix
      rw [Function.update_of_ne (by omega)]
      refine hMap i a ?_
      rwa [List.getElem?_append_left hi] at hGet ⊢
    · simpa using hGet
    · rw [List.getElem?_eq_none (by simp; omega)] at hGet
      contradiction
  rw [InnerTxMeta.advance]
  cases n with
  | zero =>
    cases hReady
    rw [if_neg (by omega), if_neg (by omega)]
    exact ⟨by simp, by simp, hUpdate⟩
  | succ k =>
    obtain ⟨tail, rfl⟩ := hReady
    rw [List.length_append, List.length_append, List.length_singleton] at hDepth
    split_ifs with hSame hLess
    · obtain rfl : tail = [] := List.eq_nil_of_length_eq_zero (by omega)
      rw [List.append_nil, List.getLastD_concat] at hIndex
      rw [hIndex]
      exact ⟨by simp, by simp [← hSame], hUpdate⟩
    · rw [hMap path.length k (by simp)]
      exact ⟨by simp, by simp, hUpdate⟩
    · omega

theorem beforeOp_spec (hLast : LastAt last m) (hReady : Ready path last n) (typ : CallType) :
    LastAt (path ++ [n]) (beforeOp m (path.length + 1) typ).1 ∧
      (beforeOp m (path.length + 1) typ).2 = m.innerTxs.length ∧
      (beforeOp m (path.length + 1) typ).1.innerTxs =
        m.innerTxs ++ [Operation.innerTx ⟨typ, path ++ [n], false⟩] := by
  have hNext := lastAt_advance hLast hReady
  have hInner : (m.advance (path.length + 1)).innerTxs = m.innerTxs := by
    unfold InnerTxMeta.advance
    split_ifs <;> rfl
  have hPath : (List.range' 1 (path ++ [n]).length).map (m.advance (path.length + 1)).indexMap =
      path ++ [n] := by
    refine List.ext_getElem (by simp) fun i _ hi => ?_
    simpa [Nat.add_comm 1] using hNext.indexMap_eq i _ (List.getElem?_eq_getElem hi)
  rw [← hNext.lastDepth_eq] at hPath
  refine ⟨⟨hNext.index_eq, hNext.lastDepth_eq, hNext.indexMap_eq⟩, congrArg _ hInner, ?_⟩
  simp [beforeOp, Operation.innerTx, hPath, hNext.index_eq, hInner]

theorem map_markError_operations (calls : Calls) (failed : Bool) :
    ((calls.operations listed path n failed).map Operation.innerTx).map InnerTx.markError =
      (calls.operations listed path n true).map Operation.innerTx := by
  induction calls generalizing path n failed with
  | nil => rfl
  | selfdestruct toSelf =>
    rw [Calls.operations, Calls.operations]
    split_ifs <;> rfl
  | call typ err children rest ihChildren ihRest =>
    simp only [Calls.operations, List.map_cons, List.map_append, ihChildren, ihRest, Bool.or_true]
    rfl

/- A frame records its operations and moves on below its own path only. -/
theorem run_spec (calls : Calls) (hLast : LastAt last m) (hReady : Ready path last n) :
    (∃ last', LastAt last' (calls.run op (path.length + 1) m) ∧ path <+: last') ∧
      (calls.run op (path.length + 1) m).innerTxs =
        m.innerTxs ++ (calls.operations op.records path n false).map Operation.innerTx := by
  induction calls generalizing path n m last with
  | nil => exact ⟨⟨last, hLast, hReady.isPrefix⟩, (List.append_nil _).symm⟩
  | selfdestruct toSelf =>
    rw [Calls.run, Calls.operations]
    split_ifs
    · obtain ⟨hLast', _, hInner⟩ := beforeOp_spec hLast hReady .suicide
      exact ⟨⟨_, ⟨hLast'.index_eq, hLast'.lastDepth_eq, hLast'.indexMap_eq⟩,
        List.prefix_append path [n]⟩, hInner⟩
    · exact ⟨⟨last, hLast, hReady.isPrefix⟩, (List.append_nil _).symm⟩
  | call typ err children rest ihChildren ihRest =>
    obtain ⟨hLast₁, hNew, hInner₁⟩ := beforeOp_spec hLast hReady typ
    obtain ⟨⟨last₂, hLast₂, hPrefix₂⟩, hInner₂⟩ := @ihChildren _ (path ++ [n]) _ 0 hLast₁ rfl
    rw [List.length_append, List.length_singleton] at hLast₂ hInner₂
    rw [hInner₁, List.append_assoc] at hInner₂
    rw [Calls.run, hNew]
    generalize children.run op (path.length + 1 + 1) _ = m₂ at hLast₂ hInner₂ ⊢
    have hInner₃ : (afterOp m₂ m.innerTxs.length err).innerTxs =
        m.innerTxs ++ Operation.innerTx ⟨typ, path ++ [n], err⟩ ::
          (children.operations op.records (path ++ [n]) 0 err).map Operation.innerTx := by
      cases err with
      | false => exact hInner₂
      | true =>
        simp only [afterOp, if_true, hInner₂, List.take_left, List.drop_left,
          List.singleton_append, List.map_cons, map_markError_operations]
        rfl
    obtain ⟨hEnd, hInner⟩ := @ihRest (afterOp m₂ m.innerTxs.length err) path last₂ (n + 1)
      ⟨hLast₂.index_eq, hLast₂.lastDepth_eq, hLast₂.indexMap_eq⟩ hPrefix₂
    refine ⟨hEnd, ?_⟩
    rw [hInner, hInner₃]
    simp [Calls.operations]

-- A whole transaction

theorem applyTransaction_eq (op : SelfdestructOp) (calls : Calls) (vmerr : Bool) :
    applyTransaction op calls vmerr = { isError := vmerr } ::
      (calls.operations op.records [] 0 vmerr).map Operation.innerTx := by
  have hStart : LastAt [] ⟨0, 0, fun _ => 0, [{}]⟩ := ⟨rfl, rfl, fun i a hGet => by simp at hGet⟩
  have hRun := (@run_spec _ op [] [] 0 calls hStart rfl).2
  rw [applyTransaction, afterApplyTransaction, transitionDb]
  simp only [List.length_nil, Nat.zero_add] at hRun
  simp only [hRun]
  cases vmerr with
  | false => rfl
  | true =>
    simp only [if_true, List.singleton_append, List.modifyHead_cons, List.map_cons,
      map_markError_operations]
    rfl

theorem toList_foldl_name (path : List Nat) (start : String) :
    (path.foldl (fun name i => name ++ "_" ++ toString i) start).toList =
      ['_'].intercalate (start.toList :: path.map (Nat.toDigits 10)) := by
  induction path generalizing start with
  | nil => simp [List.intercalate]
  | cons i path ih =>
    rw [List.foldl_cons, ih]
    cases path <;> simp [List.intercalate]

/- No digit is an underscore, so a name can be split again. -/
theorem pathName_injective : Function.Injective pathName := by
  have hSplit : ∀ path, (pathName path).toList.splitOn '_' =
      [] :: path.map (Nat.toDigits 10) := by
    intro path
    rw [pathName, toList_foldl_name]
    refine List.splitOn_intercalate '_' ?_ (by simp)
    intro digits hDigits hMem
    rcases List.mem_cons.mp hDigits with rfl | hDigits
    · simp at hMem
    · obtain ⟨i, _, rfl⟩ := List.mem_map.mp hDigits
      exact absurd (Nat.isDigit_of_mem_toDigits (by decide) (by decide) hMem) (by decide)
  intro p q hEq
  have hLists := (hSplit p).symm.trans ((congrArg (·.toList.splitOn '_') hEq).trans (hSplit q))
  refine (List.map_inj_right fun i j hDigits => ?_).mp (List.cons.inj hLists).2
  simpa using congrArg (Nat.ofDigitChars 10 · 0) hDigits

/- The operations of a frame are below its path, from the position `n` on, at different places. -/
theorem pairwise_path (calls : Calls) (failed : Bool) :
    (∀ o ∈ calls.operations listed path n failed, ∃ k tail, n ≤ k ∧ o.path = path ++ k :: tail) ∧
      (calls.operations listed path n failed).Pairwise (fun a b => a.path ≠ b.path) := by
  induction calls generalizing path n failed with
  | nil => simp [Calls.operations]
  | selfdestruct toSelf =>
    rw [Calls.operations]
    split_ifs
    · simp
    · simp
  | call typ err children rest ihChildren ihRest =>
    obtain ⟨hChildren, hChildrenNe⟩ := @ihChildren (path ++ [n]) 0 (err || failed)
    obtain ⟨hRest, hRestNe⟩ := @ihRest path (n + 1) failed
    simp only [Calls.operations, List.forall_mem_cons, List.forall_mem_append, List.pairwise_cons,
      List.pairwise_append]
    refine ⟨⟨⟨n, [], Nat.le_refl n, rfl⟩, ?_, ?_⟩, ⟨?_, ?_⟩, hChildrenNe, hRestNe, ?_⟩
    · intro o hMem
      obtain ⟨k, tail, _, hPath⟩ := hChildren o hMem
      exact ⟨n, k :: tail, Nat.le_refl n, by simp [hPath]⟩
    · intro o hMem
      obtain ⟨k, tail, hk, hPath⟩ := hRest o hMem
      exact ⟨k, tail, by omega, hPath⟩
    · intro o hMem hEq
      obtain ⟨k, tail, _, hPath⟩ := hChildren o hMem
      simp [hPath] at hEq
    · intro o hMem hEq
      obtain ⟨k, tail, hk, hPath⟩ := hRest o hMem
      simp [hPath] at hEq
      omega
    · intro a hA b hB hEq
      obtain ⟨j, tailA, _, hPathA⟩ := hChildren a hA
      obtain ⟨k, tailB, hk, hPathB⟩ := hRest b hB
      simp [hPathA, hPathB] at hEq
      omega

theorem operations_recorded (calls : Calls) (failed : Bool) {recorded all : List Operation}
    (hRecorded : calls.operations op.records path n failed = recorded)
    (hAll : calls.operations (fun _ => true) path n failed = all) :
    recorded.length ≤ all.length ∧ (recorded.length = all.length → calls.Recorded op) ∧
      (calls.Recorded op → recorded = all) := by
  subst hRecorded hAll
  induction calls generalizing path n failed with
  | nil => exact ⟨Nat.le_refl _, fun _ => trivial, fun _ => rfl⟩
  | selfdestruct toSelf =>
    cases hRecords : op.records toSelf <;> simp [Calls.operations, Calls.Recorded, hRecords]
  | call typ err children rest ihChildren ihRest =>
    obtain ⟨hLe, hOf, hEq⟩ := @ihChildren (path ++ [n]) 0 (err || failed)
    obtain ⟨hLe', hOf', hEq'⟩ := @ihRest path (n + 1) failed
    simp only [Calls.operations, List.length_cons, List.length_append, Calls.Recorded]
    refine ⟨by omega, fun hLength => ⟨hOf (by omega), hOf' (by omega)⟩, fun hRecorded => ?_⟩
    rw [hEq hRecorded.1, hEq' hRecorded.2]

/-
  The recorded inner transactions mirror the tree exactly when each of its self-destructs is one
  that its instruction records.
-/
theorem mirrors_iff (op : SelfdestructOp) (calls : Calls) (vmerr : Bool) :
    Mirrors calls vmerr (applyTransaction op calls vmerr) ↔ calls.Recorded op := by
  obtain ⟨_, hOf, hEq⟩ := @operations_recorded op [] 0 calls vmerr _ _ rfl rfl
  rw [Mirrors, applyTransaction_eq]
  constructor
  · intro hMirrors
    exact hOf (by simpa using congrArg List.length hMirrors.1)
  · intro hRecorded
    rw [hEq hRecorded]
    refine ⟨rfl, List.pairwise_cons.mpr ⟨?_, ?_⟩⟩
    · intro o hMem hType
      obtain ⟨o, _, rfl⟩ := List.mem_map.mp hMem
      contradiction
    · refine List.pairwise_map.mpr ((pairwise_path calls vmerr).2.imp fun hPath hType hName => ?_)
      rw [Operation.innerTx, Operation.innerTx, Option.some.inj hType] at hName
      exact hPath (pathName_injective ((String.append_right_inj _).mp hName))

/- After the fork that restricts self-destructs, the transfer of a self-destruct is not listed. -/
theorem selfdestruct6780_lost :
    applyTransaction .opSelfdestruct6780 (.selfdestruct false) false = [{}] ∧
      ¬ Mirrors (.selfdestruct false) false
        (applyTransaction .opSelfdestruct6780 (.selfdestruct false) false) := by
  refine ⟨rfl, fun hMirrors => ?_⟩
  exact absurd (congrArg List.length hMirrors.1) (by decide)

end XLayerErigon.Vm
