import XLayerErigon.State.Trace

/-
  The accounts between two transactions.

  When a transaction starts, nothing waits for an account of the database that was not read yet:
  what the transaction before it kept aside was added when it was finalized.  So any account can
  be read.

  Main results:
    * `IntraBlockState.ready_new`
    * `IntraBlockState.ready_finalizeTx`
    * `IntraBlockState.Back.ready`
    * `IntraBlockState.holds_subBalance`
-/

namespace XLayerErigon.State

namespace IntraBlockState

structure Ready (s : IntraBlockState) : Prop where
  wellFormed : s.WellFormed
  known : s.Known
  readable : ∀ a, s.Readable a

variable {balance : Uint256} {a : Address} {s : IntraBlockState}

theorem ready_new (reader : StateReader) :
    (IntraBlockState.new reader).Ready where
  wellFormed _ := formAt_nothing _
  known := by simp [Known, IntraBlockState.new]
  readable a _ _ bi hWaiting := by simp [waiting, IntraBlockState.new] at hWaiting

theorem SameAccounts.symm {s t : IntraBlockState} (hSame : SameAccounts s t) : SameAccounts t s :=
  ⟨fun a => (hSame.balance a).symm,
    fun a => (hSame.nonce a).symm, fun a => (hSame.code a).symm,
    fun a key => (hSame.storage a key).symm, fun txHash => (hSame.logs txHash).symm⟩

theorem SameAccounts.trans {s t u : IntraBlockState} (hFirst : SameAccounts s t)
    (hSecond : SameAccounts t u) : SameAccounts s u :=
  ⟨fun a => (hSecond.balance a).trans (hFirst.balance a),
    fun a => (hSecond.nonce a).trans (hFirst.nonce a),
    fun a => (hSecond.code a).trans (hFirst.code a),
    fun a key => (hSecond.storage a key).trans (hFirst.storage a key),
    fun txHash => (hSecond.logs txHash).trans (hFirst.logs txHash)⟩

theorem readable_of_live (hLive : (s.stateObjects a).isSome) : s.Readable a := by
  intro hNone
  simp [hNone] at hLive

theorem LocalTo.stored {s s' : IntraBlockState} (hLocal : LocalTo a s s') :
    s'.stored = s.stored := by
  funext b
  simp [IntraBlockState.stored, hLocal.stateReader]

theorem LocalTo.readable {a b : Address} {s s' : IntraBlockState} (hLocal : LocalTo a s s')
    (hNe : b ≠ a) (hReadable : s.Readable b) : s'.Readable b := by
  simpa only [Readable, waiting, hLocal.stored, hLocal.objects b hNe, hLocal.increases b hNe] using
    hReadable

/- Whoever is changed is in memory. -/
theorem Ready.move {s s' : IntraBlockState} (hReady : s.Ready) (hStep : Step s s')
    (hLocal : LocalTo a s s') (hLive : (s'.stateObjects a).isSome) :
    s'.Ready where
  wellFormed := hStep.wellFormed
  known := (hStep.ran hReady.known).known
  readable b := by
    by_cases hEq : b = a
    · exact readable_of_live (hEq ▸ hLive)
    · exact hLocal.readable hEq (hReady.readable b)

theorem Back.ready {s t : IntraBlockState} (hBack : Back s t) (hReady : s.Ready)
    (hKnown : t.Known) :
    t.Ready where
  wellFormed := hBack.wellFormed
  known := hKnown
  readable a hNone hStored bi hWaiting := by
    have hAccount := hBack.account a
    have hNone' : s.stateObjects a = none := by
      cases hLive : s.stateObjects a with
      | none => rfl
      | some o =>
        have hSome := hAccount.live (by simp [hLive])
        simp [hNone] at hSome
    have hInc := hAccount.unread hNone
    rw [hBack.stored] at hStored
    refine hReady.readable a hNone' hStored bi ?_
    rw [← hWaiting]
    simp only [waiting, hInc]

-- Looking an account up

theorem getStateObject_idem (s : IntraBlockState) (a : Address) :
    (s.getStateObject a).getStateObject a = s.getStateObject a := by
  cases hLive : (s.getStateObject a).stateObjects a with
  | some o => exact getStateObject_of_live hLive
  | none =>
    have hSame := (getStateObject_none hLive).1
    rw [hSame, hSame]

theorem object_eq (s : IntraBlockState) (a : Address) :
    s.object a =
      (readAt (s.stored a) (s.stateObjects a) (s.balanceInc a)).filter (fun o => !o.deleted) := by
  rw [← getStateObject_object]
  rfl

theorem LocalTo.object {a b : Address} {s s' : IntraBlockState} (hLocal : LocalTo a s s')
    (hNe : b ≠ a) : s'.object b = s.object b := by
  rw [object_eq, object_eq, hLocal.stored, hLocal.objects b hNe, hLocal.increases b hNe]

theorem object_getStateObject (s : IntraBlockState) (a b : Address) :
    (s.getStateObject a).object b = s.object b := by
  by_cases hEq : b = a
  · subst hEq
    simp only [IntraBlockState.object, getStateObject_idem]
  · exact (local_getStateObject s a).object hEq

theorem Ready.getStateObject (hReady : s.Ready) (a : Address) : (s.getStateObject a).Ready := by
  cases hLive : (s.getStateObject a).stateObjects a with
  | none =>
    rw [(getStateObject_none hLive).1]
    exact hReady
  | some o =>
    exact hReady.move (step_getStateObject hReady.wellFormed (hReady.readable a))
      (local_getStateObject s a) (by simp [hLive])

-- The account of the sender

/- The account is in memory with a balance, and is otherwise as it was. -/
structure Holds
    (s : IntraBlockState) (a : Address) (balance : Uint256) (s' : IntraBlockState) : Prop where
  localTo : LocalTo a s s'
  object : ∃ o, s'.stateObjects a = some o ∧
    o.deleted = false ∧ o.balance = balance ∧
    o.nonce = s.getNonce a ∧ o.code = s.getCode a ∧ ∀ key, o.storage key = s.getState a key

theorem object_of_live {o : StateObject} (hLive : s.stateObjects a = some o)
    (hDeleted : o.deleted = false) : s.object a = some o := by
  simp [IntraBlockState.object, getStateObject_of_live hLive, hLive, Option.filter, hDeleted]

theorem Holds.live {s s' : IntraBlockState} (hHolds : Holds s a balance s') :
    (s'.stateObjects a).isSome := by
  rcases hHolds.object with ⟨o, hLive, _⟩
  simp [hLive]

theorem Holds.getBalance {s s' : IntraBlockState} (hHolds : Holds s a balance s') :
    s'.getBalance a = balance := by
  rcases hHolds.object with ⟨o, hLive, hDeleted, hBalance, _⟩
  simp [IntraBlockState.getBalance, object_of_live hLive hDeleted, hBalance]

theorem Holds.trans {s s' s'' : IntraBlockState} {balance balance' : Uint256}
    (hFirst : Holds s a balance s') (hSecond : Holds s' a balance' s'') :
    Holds s a balance' s'' := by
  refine ⟨hFirst.localTo.trans hSecond.localTo, ?_⟩
  rcases hFirst.object with ⟨o, hLive, hDeleted, _, hNonce, hCode, hStorage⟩
  have hObject := object_of_live hLive hDeleted
  simpa [IntraBlockState.getNonce, IntraBlockState.getCode,
    IntraBlockState.getState, hObject, hNonce, hCode, hStorage] using hSecond.object

/- Only the balance can tell the two states apart. -/
theorem Holds.sameAccounts_iff {s s' : IntraBlockState} (hHolds : Holds s a balance s') :
    SameAccounts s s' ↔ balance = s.getBalance a := by
  constructor
  · intro hSame
    rw [← hSame.balance a, hHolds.getBalance]
  · intro hBalance
    have hOther : ∀ b, b ≠ a → s'.object b = s.object b := fun b => hHolds.localTo.object
    rcases hHolds.object with ⟨o, hLive, hDeleted, hValue, hNonce, hCode, hStorage⟩
    have hObject := object_of_live hLive hDeleted
    refine ⟨?_, ?_, ?_, ?_, fun txHash => congrFun hHolds.localTo.logs txHash⟩
    · intro b
      by_cases hEq : b = a
      · rw [hEq, hHolds.getBalance, hBalance]
      · simp [IntraBlockState.getBalance, hOther b hEq]
    · intro b
      by_cases hEq : b = a
      · rw [hEq, ← hNonce]
        simp [IntraBlockState.getNonce, hObject]
      · simp [IntraBlockState.getNonce, hOther b hEq]
    · intro b
      by_cases hEq : b = a
      · rw [hEq, ← hCode]
        simp [IntraBlockState.getCode, hObject]
      · simp [IntraBlockState.getCode, hOther b hEq]
    · intro b key
      by_cases hEq : b = a
      · rw [hEq, ← hStorage]
        simp [IntraBlockState.getState, hObject]
      · simp [IntraBlockState.getState, hOther b hEq]

theorem local_getOrNewStateObject (s : IntraBlockState) (a : Address) :
    LocalTo a s (s.getOrNewStateObject a) := by
  have hGet := local_getStateObject s a
  simp only [getOrNewStateObject]
  split
  · exact hGet.trans (local_createObject _ a none)
  · split
    · exact hGet.trans (local_createObject _ a _)
    · exact hGet

/- A new object is empty, whatever was there before. -/
theorem createObject_fresh (previous : Option StateObject)
    (hZero : ∀ bi, s.waiting a = some bi → bi.increase = 0) :
    (s.createObject a previous).stateObjects a = some StateObject.fresh := by
  have hWaiting : (s.append (createdEntry a previous)).waiting a = s.waiting a := rfl
  simp only [createObject, setStateObject, hWaiting]
  split
  · simp [putObject]
  · next bi hSome => simp [putObject, hZero bi hSome, StateObject.fresh]

theorem holds_fresh {s s' : IntraBlockState} (hLocal : LocalTo a s s')
    (hFresh : s'.stateObjects a = some StateObject.fresh) (hNone : s.object a = none) :
    Holds s a (s.getBalance a) s' :=
  ⟨hLocal, StateObject.fresh, hFresh, rfl,
    by simp [IntraBlockState.getBalance, hNone, StateObject.fresh],
    by simp [IntraBlockState.getNonce, hNone, StateObject.fresh],
    by simp [IntraBlockState.getCode, hNone, StateObject.fresh],
    fun key => by simp [IntraBlockState.getState, hNone, StateObject.fresh]⟩

theorem holds_getOrNewStateObject (hReady : s.Ready) (a : Address) :
    Holds s a (s.getBalance a) (s.getOrNewStateObject a) := by
  have hLocal := local_getOrNewStateObject s a
  have hForm := (hReady.getStateObject a).wellFormed a
  simp only [getOrNewStateObject] at hLocal ⊢
  cases hLive : (s.getStateObject a).stateObjects a with
  | none =>
    simp only [hLive] at hLocal ⊢
    refine holds_fresh hLocal ?_ ?_
    · refine createObject_fresh none ?_
      intro bi hWaiting
      have hRead := getStateObject_object (s.getStateObject a) a
      rw [getStateObject_idem, hLive] at hRead
      simp only [waiting] at hWaiting
      simp [readAt, hWaiting] at hRead
    · simp [IntraBlockState.object, hLive]
  | some o =>
    rw [hLive] at hForm
    simp only [hLive] at hLocal ⊢
    cases hDeleted : o.deleted with
    | true =>
      simp only [hDeleted, if_true] at hLocal ⊢
      refine holds_fresh hLocal ?_ ?_
      · refine createObject_fresh (some o) ?_
        intro bi hWaiting
        rcases ((s.getStateObject a).waiting_eq_some_iff a bi).1 hWaiting with ⟨hInc, hFalse⟩
        exact hForm.waits bi hInc hFalse rfl
      · simp [IntraBlockState.object, hLive, Option.filter, hDeleted]
    | false =>
      have hObject : s.object a = some o := by
        simp [IntraBlockState.object, hLive, Option.filter, hDeleted]
      simp only [hDeleted] at hLocal ⊢
      refine ⟨hLocal, o, hLive, hDeleted, ?_, ?_, ?_, ?_⟩
      · simp [IntraBlockState.getBalance, hObject]
      · simp [IntraBlockState.getNonce, hObject]
      · simp [IntraBlockState.getCode, hObject]
      · simp [IntraBlockState.getState, hObject]

theorem holds_subBalance (hReady : s.Ready) (a : Address) (amount : Uint256) :
    Holds s a (s.getBalance a - amount) (s.subBalance a amount) := by
  have hHolds := holds_getOrNewStateObject hReady a
  simp only [subBalance]
  split
  · next hZero => simpa [hZero] using hHolds
  · rcases hHolds.object with ⟨o, hLive, hDeleted, hBalance, hRest⟩
    simp only [hLive, Option.elim_some]
    refine ⟨hHolds.localTo.trans ((local_append _ a _).trans (local_modifyObject _ a _)), ?_⟩
    refine ⟨{ o with balance := o.balance - amount }, ?_, hDeleted, by rw [← hBalance], hRest⟩
    simp [setBalance, record, append, modifyObject, hLive]

theorem Ready.subBalance (hReady : s.Ready) (a : Address) (amount : Uint256) :
    (s.subBalance a amount).Ready :=
  hReady.move (step_subBalance hReady.wellFormed (hReady.readable a) amount)
    (holds_subBalance hReady a amount).localTo (holds_subBalance hReady a amount).live

-- The end of a transaction

/- Whoever something waits for is read at the end. -/
theorem settle_waiting (hNone : (s.settle a).stateObjects a = none) :
    s.settle a = s ∧ s.waiting a = none := by
  cases hWaiting : s.waiting a with
  | none => simp [settle, hWaiting]
  | some bi =>
    simp only [settle, hWaiting, Option.isSome_some, if_true] at hNone
    rw [getStateObject_object] at hNone
    simp only [waiting] at hWaiting
    simp [readAt, hWaiting] at hNone

theorem formAt_settle (hForm : s.WellFormed) (a : Address) :
    FormAt ((s.settle a).stateObjects a) ((s.settle a).balanceInc a) := by
  have hPut : ∀ (s' : IntraBlockState) (o : StateObject), s'.balanceInc = s.balanceInc →
      FormAt ((s'.setStateObject a o).stateObjects a) ((s'.setStateObject a o).balanceInc a) := by
    intro s' o hSame
    rcases puts_setStateObject s' a o with ⟨entries, hPuts⟩
    rw [hPuts.object, hPuts.increase, hSame]
    exact formAt_transferred (hForm a).counted
  unfold settle
  split
  · fun_cases IntraBlockState.getStateObject s a with
    | case2 hLive account hData => exact hPut s _ rfl
    | case3 hLive hData hWaiting => exact hPut _ _ rfl
    | _ => exact hForm a
  · exact hForm a

theorem FormAt.map {o : Option StateObject} {bi : Option BalanceIncrease} (hForm : FormAt o bi)
    (f : StateObject → StateObject) : FormAt (o.map f) bi :=
  ⟨fun x hSome hTrue => by
    simpa using hForm.transferred x hSome hTrue,
    fun x hSome hFalse hLive => hForm.waits x hSome hFalse (by simpa using hLive), hForm.counted⟩

theorem ready_finalizeTx (hForm : s.WellFormed) (isSpuriousDragon isAura : Bool) :
    (s.finalizeTx isSpuriousDragon isAura).Ready where
  wellFormed a := by
    have hAt := formAt_settle hForm a
    simp only [finalizeTx]
    split
    · exact FormAt.map hAt _
    · exact hAt
  known := by simp [Known, finalizeTx]
  readable a hNone hStored bi hWaiting := by
    have hSettled : (s.settle a).stateObjects a = none := by
      simp only [finalizeTx] at hNone
      split at hNone
      · simpa using hNone
      · exact hNone
    rcases settle_waiting hSettled with ⟨hSame, hWaits⟩
    simp only [waiting, finalizeTx, hSame] at hWaiting
    simp only [waiting] at hWaits
    simp [hWaits] at hWaiting

end IntraBlockState

end XLayerErigon.State
