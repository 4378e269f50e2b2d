import XLayerErigon.State.Restore

/-
  What the execution of a transaction does to the accounts.

  The machine uses the accounts through a few operations.  An inner call takes a snapshot, and
  what it did is undone when it fails.  Whatever the machine does, undoing the whole execution
  leads back to the accounts before it, as long as no account is read while an amount waits for
  it.

  Main results:
    * `Op.step`
    * `Trace.run_restores`
    * `IntraBlockState.Back.sameAccounts`
-/

namespace XLayerErigon.State

open IntraBlockState

inductive Op where
  | look (address : Address)
  | addBalance (address : Address) (amount : Uint256)
  | subBalance (address : Address) (amount : Uint256)
  | setNonce (address : Address) (nonce : Uint64)
  | setCode (address : Address) (codeHash : Hash) (code : Bytes)
  | setState (address : Address) (key : Hash) (value : Uint256)
  | selfdestruct (address : Address)
  | selfdestruct6780 (address : Address)
  | createAccount (address : Address) (contractCreation : Bool)
  | addRefund (gas : Uint64)
  | subRefund (gas : Uint64)
  | addLog (address : Address) (topics : List Hash) (data : Bytes)

def Op.run :
    Op → IntraBlockState → IntraBlockState
  | look a, s => s.getStateObject a
  | addBalance a amount, s => s.addBalance a amount
  | subBalance a amount, s => s.subBalance a amount
  | setNonce a nonce, s => s.setNonce a nonce
  | setCode a codeHash code, s => s.setCode a codeHash code
  | setState a key value, s => s.setState a key value
  | selfdestruct a, s => s.selfdestruct a
  | selfdestruct6780 a, s => s.selfdestruct6780 a
  | createAccount a contractCreation, s =>
      s.createAccount a contractCreation
  | addRefund gas, s => s.addRefund gas
  | subRefund gas, s => s.subRefund gas
  | addLog a topics data, s => s.addLog a topics data

/- The amounts kept aside do not wrap around to nothing. -/
def IntraBlockState.Creditable (s : IntraBlockState) (a : Address) (amount : Uint256) : Prop :=
  CreditableAt (s.stored a) (s.stateObjects a) (s.balanceInc a) amount

/-
  No account is read while an amount waits for it, and no code is deployed only where there is
  none.
-/
def Op.Careful :
    Op → IntraBlockState → Prop
  | addBalance a amount, s =>
      if s.needAccount a amount then s.Readable a
      else s.Creditable a amount
  | setCode a _ code, s =>
      s.Readable a ∧
        (code = [] → ∀ o,
          (s.getOrNewStateObject a).stateObjects a = some o →
          o.code = [] ∧ o.codeHash = emptyCodeHash)
  | look a, s => s.Readable a
  | subBalance a _, s => s.Readable a
  | setNonce a _, s => s.Readable a
  | setState a _ _, s => s.Readable a
  | selfdestruct a, s => s.Readable a
  | selfdestruct6780 a, s => s.Readable a
  | createAccount a _, s => s.Readable a
  | addRefund _, _ => True
  | subRefund _, _ => True
  | addLog _ _ _, _ => True

-- One operation

variable {a : Address} {s : IntraBlockState}

theorem step_increaseLater {amount : Uint256} (hForm : s.WellFormed)
    (hNone : s.stateObjects a = none) (hCredit : s.Creditable a amount) :
    Step s (s.increaseLater a amount) := by
  have hAt := hForm a
  simp only [IntraBlockState.Creditable, hNone] at hCredit
  rw [hNone] at hAt
  have hLocal : LocalTo a s (s.increaseLater a amount) :=
    (local_append s a _).trans (local_putIncrease _ a _)
  refine step_of_local hForm hLocal (List.singleton_append).symm rfl rfl ?_ ?_ ?_
  · simp only [increaseLater, putIncrease, append, Function.update_self, hNone]
    refine ⟨?_, by simp, ?_⟩
    · intro x hSome hTrue
      cases hSome
      cases hInc : s.balanceInc a with
      | none => simp [BalanceIncrease.later, hInc] at hTrue
      | some bi =>
        rw [hInc] at hAt
        simp [BalanceIncrease.later, hInc, hAt.unread_waits] at hTrue
    · intro x hSome
      cases hSome
      exact Nat.succ_pos _
  · exact fun t => local_undoEntry (local_putIncrease t a _)
  · intro t hBack
    simp only [increaseLater, putIncrease, append, Function.update_self, hNone] at hBack
    rw [hNone]
    simpa [undo, undoEntry, JournalEntry.revert, putIncrease] using hBack.later hAt hCredit

theorem step_addToObject {o : StateObject} (amount : Uint256) (hForm : s.WellFormed)
    (hLive : s.stateObjects a = some o) : Step s (s.addToObject a amount o) := by
  simp only [addToObject]
  split
  · split
    · exact step_touch a hForm
    · exact Step.refl hForm
  · exact step_setBalance _ hForm hLive

theorem step_addBalance {amount : Uint256} (hForm : s.WellFormed)
    (hCareful : (Op.addBalance a amount).Careful s) : Step s (s.addBalance a amount) := by
  simp only [addBalance]
  simp only [Op.Careful] at hCareful
  split
  · next hNeed =>
    rw [if_pos hNeed] at hCareful
    have hStep := step_getOrNewStateObject hForm hCareful
    rcases s.getOrNewStateObject_live a with ⟨o, hLive⟩
    simp only [hLive, Option.elim_some]
    exact hStep.trans (step_addToObject amount hStep.wellFormed hLive)
  · next hNeed =>
    rw [if_neg hNeed] at hCareful
    have hNone : s.stateObjects a = none := by
      simp only [needAccount, Bool.decide_or, Bool.or_eq_true, decide_eq_true_eq, not_or] at hNeed
      simpa using hNeed.1
    exact step_increaseLater hForm hNone hCareful

section

variable (hForm : s.WellFormed) (hReadable : s.Readable a)

include hForm hReadable

/- An operation that changes the object of an account. -/
theorem step_onObject {change : StateObject → IntraBlockState}
    (hChange : ∀ o, (s.getOrNewStateObject a).WellFormed →
      (s.getOrNewStateObject a).stateObjects a = some o →
      Step (s.getOrNewStateObject a) (change o)) :
    Step s (((s.getOrNewStateObject a).stateObjects a).elim (s.getOrNewStateObject a) change) := by
  have hStep := step_getOrNewStateObject hForm hReadable
  rcases s.getOrNewStateObject_live a with ⟨o, hLive⟩
  simp only [hLive, Option.elim_some]
  exact hStep.trans (hChange o hStep.wellFormed hLive)

theorem step_subBalance (amount : Uint256) : Step s (s.subBalance a amount) := by
  simp only [subBalance]
  split
  · exact step_getOrNewStateObject hForm hReadable
  · exact step_onObject hForm hReadable (fun o hForm' hLive =>
      step_setBalance (o.balance - amount) hForm' hLive)

theorem step_setNonce (nonce : Uint64) : Step s (s.setNonce a nonce) := by
  refine step_onObject hForm hReadable ?_
  intro o hForm' hLive
  refine step_record hForm' hLive (fun _ => rfl) ?_
  intro x hCore
  cases x
  cases o
  simp_all [StateObject.core]

theorem step_setState (key : Hash) (value : Uint256) : Step s (s.setState a key value) := by
  refine step_onObject hForm hReadable ?_
  intro o hForm' hLive
  split
  · exact Step.refl hForm'
  · refine step_record hForm' hLive (fun _ => rfl) ?_
    intro x hCore
    cases x
    cases o
    simp_all [StateObject.core, setStorage]

omit hReadable in
theorem step_setCode {codeHash : Hash} {code : Bytes}
    (hCareful : (Op.setCode a codeHash code).Careful s) : Step s (s.setCode a codeHash code) := by
  rcases hCareful with ⟨hReadable, hNoCode⟩
  simp only [setCode]
  split
  · next hNil =>
    have hStep := step_getOrNewStateObject hForm hReadable
    rcases s.getOrNewStateObject_live a with ⟨o, hLive⟩
    rcases hNoCode hNil o hLive with ⟨hCode, hHash⟩
    have hSame : (s.getOrNewStateObject a).modifyObject a
        (fun o => { o with
          code := []
          codeHash := emptyCodeHash }) =
        s.getOrNewStateObject a := by
      refine modifyObject_fixed ?_
      rw [hLive]
      cases o
      simp_all
    rw [hSame]
    exact hStep
  · refine step_onObject hForm hReadable ?_
    intro o hForm' hLive
    refine step_record hForm' hLive (fun _ => rfl) ?_
    intro x hCore
    cases x
    cases o
    simp_all [StateObject.core]

theorem step_selfdestruct : Step s (s.selfdestruct a) := by
  have hStep := step_getStateObject hForm hReadable
  simp only [selfdestruct]
  cases hLive : (s.getStateObject a).stateObjects a with
  | none => exact hStep
  | some o =>
    simp only [Option.elim_some]
    split
    · exact hStep
    · refine hStep.trans (step_record hStep.wellFormed hLive (fun _ => rfl) ?_)
      intro x hCore
      cases x
      cases o
      simp_all [StateObject.core, markSelfdestructed]

theorem step_selfdestruct6780 : Step s (s.selfdestruct6780 a) := by
  have hStep := step_getStateObject hForm hReadable
  simp only [selfdestruct6780]
  cases hLive : (s.getStateObject a).stateObjects a with
  | none => exact hStep
  | some o =>
    simp only [Option.elim_some]
    split
    · refine hStep.trans (step_selfdestruct hStep.wellFormed ?_)
      intro hNone
      simp [hLive] at hNone
    · exact hStep

theorem step_createAccount (contractCreation : Bool) :
    Step s (s.createAccount a contractCreation) := by
  have hStep := step_getStateObject hForm hReadable
  simp only [createAccount]
  cases hLive : (s.getStateObject a).stateObjects a with
  | none =>
    rcases getStateObject_none hLive with ⟨hSame, hUnread, hStored⟩
    rw [hSame]
    exact step_createObject hForm hUnread (fun _ => hStored) _
  | some o => exact hStep.trans (step_createObject hStep.wellFormed hLive (by simp) _)

end

theorem step_refund (refund : Uint64) (hForm : s.WellFormed) :
    Step s { s.append (.refundChange s.refund) with refund := refund } := by
  refine ⟨hForm, ⟨[.refundChange s.refund], rfl, ?_⟩, rfl, rfl, rfl⟩
  intro t hBack
  exact ⟨hBack.stateReader, rfl, hBack.logs, hBack.account⟩

theorem step_addLog (address : Address) (topics : List Hash) (data : Bytes) (hForm : s.WellFormed) :
    Step s (s.addLog address topics data) := by
  refine ⟨hForm, ⟨[.addLogChange s.thash], rfl, ?_⟩, rfl, rfl, rfl⟩
  intro t hBack
  refine ⟨hBack.stateReader, hBack.refund, ?_, hBack.account⟩
  have hLogs := hBack.logs
  funext txHash
  simp [undo, undoEntry, JournalEntry.revert, hLogs, addLog]

theorem Op.step (op : Op) (hForm : s.WellFormed) (hCareful : op.Careful s) : Step s (op.run s) := by
  cases op with
  | look a => exact step_getStateObject hForm hCareful
  | addBalance a amount => exact step_addBalance hForm hCareful
  | subBalance a amount => exact step_subBalance hForm hCareful amount
  | setNonce a nonce => exact step_setNonce hForm hCareful nonce
  | setCode a codeHash code => exact step_setCode hForm hCareful
  | setState a key value => exact step_setState hForm hCareful key value
  | selfdestruct a => exact step_selfdestruct hForm hCareful
  | selfdestruct6780 a => exact step_selfdestruct6780 hForm hCareful
  | createAccount a contractCreation => exact step_createAccount hForm hCareful contractCreation
  | addRefund gas => exact step_refund _ hForm
  | subRefund gas => exact step_refund _ hForm
  | addLog a topics data => exact step_addLog a topics data hForm

-- Whole executions

inductive Trace where
  | done
  | step (op : Op) (rest : Trace)
  | call (body : Trace) (reverted : Bool) (rest : Trace)

def endCall (reverted : Bool) (revid : Nat)
    (s : IntraBlockState) : Except Failure IntraBlockState :=
  if reverted then s.revertToSnapshot revid else .ok s

def Trace.run :
    Trace → IntraBlockState → Except Failure IntraBlockState
  | done, s => .ok s
  | step op rest, s => rest.run (op.run s)
  | call body reverted rest, s =>
      body.run s.snapshot >>= endCall reverted s.nextRevisionID >>= rest.run

def Trace.Careful :
    Trace → IntraBlockState → Prop
  | done, _ => True
  | step op rest, s => op.Careful s ∧ rest.Careful (op.run s)
  | call body reverted rest, s =>
      body.Careful s.snapshot ∧
        ∀ s', (body.run s.snapshot >>= endCall reverted s.nextRevisionID) = .ok s' → rest.Careful s'

/- Every snapshot that can be used was taken before. -/
def IntraBlockState.Known (s : IntraBlockState) : Prop :=
  ∀ r ∈ s.validRevisions, r.id < s.nextRevisionID

structure Ran (s s' : IntraBlockState) : Prop where
  wellFormed : s'.WellFormed
  restores : Restores s s'
  stateReader : s'.stateReader = s.stateReader
  known : s'.Known
  revisions : ∃ newer, s'.validRevisions = s.validRevisions ++ newer
  nextRevisionID : s.nextRevisionID ≤ s'.nextRevisionID

theorem Ran.trans {s s' s'' : IntraBlockState} (hFirst : Ran s s') (hSecond : Ran s' s'') :
    Ran s s'' where
  wellFormed := hSecond.wellFormed
  restores := hFirst.restores.trans hSecond.restores
  stateReader := hSecond.stateReader.trans hFirst.stateReader
  known := hSecond.known
  revisions := by
    rcases hFirst.revisions with ⟨newer, hNewer⟩
    rcases hSecond.revisions with ⟨newest, hNewest⟩
    exact ⟨newer ++ newest, by simp [hNewest, hNewer]⟩
  nextRevisionID := hFirst.nextRevisionID.trans hSecond.nextRevisionID

theorem IntraBlockState.Step.ran {s s' : IntraBlockState} (hStep : Step s s') (hKnown : s.Known) :
    Ran s s' where
  wellFormed := hStep.wellFormed
  restores := hStep.restores
  stateReader := hStep.stateReader
  known := by simpa [IntraBlockState.Known, hStep.validRevisions, hStep.nextRevisionID] using hKnown
  revisions := ⟨[], by simp [hStep.validRevisions]⟩
  nextRevisionID := hStep.nextRevisionID.ge

theorem ran_snapshot (hForm : s.WellFormed) (hKnown : s.Known) :
    Ran s s.snapshot where
  wellFormed := hForm
  restores := ⟨[], rfl, fun _ hBack => ⟨hBack.stateReader, hBack.refund, hBack.logs, hBack.account⟩⟩
  stateReader := rfl
  known := by
    intro r hMem
    rcases List.mem_append.1 hMem with hOld | hNew
    · exact Nat.lt_succ_of_lt (hKnown r hOld)
    · rw [List.mem_singleton.1 hNew]
      exact Nat.lt_succ_self _
  revisions := ⟨_, rfl⟩
  nextRevisionID := Nat.le_succ _

-- Going back to a snapshot

theorem setStateObject_nextRevisionID (s : IntraBlockState) (a : Address) (o : StateObject) :
    (s.setStateObject a o).nextRevisionID = s.nextRevisionID := by
  simp only [setStateObject]
  split <;> rfl

theorem getStateObject_nextRevisionID (s : IntraBlockState) (a : Address) :
    (s.getStateObject a).nextRevisionID = s.nextRevisionID := by
  fun_cases getStateObject s a with
  | case2 => exact setStateObject_nextRevisionID s a _
  | case3 => exact setStateObject_nextRevisionID _ a _
  | _ => rfl

theorem revert_nextRevisionID (e : JournalEntry) (s : IntraBlockState) :
    (e.revert s).nextRevisionID = s.nextRevisionID := by
  cases e with
  | resetObjectChange a prev => exact setStateObject_nextRevisionID s a prev
  | _ => first | rfl | exact getStateObject_nextRevisionID s _

theorem undo_nextRevisionID (entries : List JournalEntry) (s : IntraBlockState) :
    (s.undo entries).nextRevisionID = s.nextRevisionID := by
  induction entries generalizing s with
  | nil => rfl
  | cons e rest ih => exact (ih (s.undoEntry e)).trans (revert_nextRevisionID e s)

theorem takeWhile_older {older newer : List Revision} {r : Revision}
    (hOlder : ∀ x ∈ older, x.id < r.id) :
    (older ++ r :: newer).takeWhile (·.id < r.id) = older := by
  rw [List.takeWhile_append_of_pos (by simpa using hOlder)]
  simp

/- Going back to the snapshot at the start of a run. -/
theorem revertToSnapshot_of_ran {s s' : IntraBlockState} (hKnown : s.Known)
    (hRan : Ran s.snapshot s') :
    ∃ u, s'.revertToSnapshot s.nextRevisionID = .ok u ∧ Back s u ∧ Ran s u := by
  rcases hRan.revisions with ⟨newer, hNewer⟩
  rcases hRan.restores with ⟨entries, hJournal, hUndo⟩
  have hRevisions : s'.validRevisions =
      s.validRevisions ++ ⟨s.nextRevisionID, s.journal.length⟩ :: newer := by
    simp [hNewer, snapshot]
  have hOlder : s'.validRevisions.takeWhile (·.id < s.nextRevisionID) = s.validRevisions := by
    rw [hRevisions]
    exact takeWhile_older (r := ⟨s.nextRevisionID, _⟩) hKnown
  have hCount : s'.journal.length - s.journal.length =
      entries.length := by
    simp [hJournal, snapshot]
  have hTake : s'.journal.take entries.length = entries := by simp [hJournal]
  have hDrop : s'.journal.drop entries.length = s.journal := by simp [hJournal, snapshot]
  have hBackUndo := hUndo s' (Back.refl hRan.wellFormed)
  refine ⟨{ s'.revertJournal s.journal.length with validRevisions := s.validRevisions }, ?_, ?_⟩
  · simp only [revertToSnapshot, hOlder]
    simp only [hRevisions, List.getElem?_append_right (Nat.le_refl _),
      Nat.sub_self, List.getElem?_cons_zero, if_true]
  · have hBack : Back s
        { s'.revertJournal s.journal.length with validRevisions := s.validRevisions } := by
      simp only [revertJournal, hCount, hTake]
      exact ⟨hBackUndo.stateReader, hBackUndo.refund, hBackUndo.logs, hBackUndo.account⟩
    refine ⟨hBack, hBack.wellFormed, ⟨[], ?_, ?_⟩, hBack.stateReader, ?_, ⟨[], by simp⟩, ?_⟩
    · simp only [revertJournal, hCount, hDrop, List.nil_append]
    · exact fun t hT => hBack.trans hT
    · intro r hMem
      have hNext := hRan.nextRevisionID
      have hLess := hKnown r hMem
      simp only [revertJournal, undo_nextRevisionID]
      simp only [snapshot] at hNext
      omega
    · have hNext := hRan.nextRevisionID
      simp only [revertJournal, undo_nextRevisionID]
      simp only [snapshot] at hNext
      omega

theorem Trace.run_restores (tr : Trace) (hForm : s.WellFormed) (hKnown : s.Known)
    (hCareful : tr.Careful s) : ∃ s', tr.run s = .ok s' ∧ Ran s s' := by
  induction tr generalizing s with
  | done => exact ⟨s, rfl, (Step.refl hForm).ran hKnown⟩
  | step op rest ih =>
    have hRan := (op.step hForm hCareful.1).ran hKnown
    rcases ih hRan.wellFormed hRan.known hCareful.2 with ⟨s', hRun, hRest⟩
    exact ⟨s', hRun, hRan.trans hRest⟩
  | call body reverted rest ihBody ihRest =>
    have hSnapshot := ran_snapshot hForm hKnown
    rcases ihBody hSnapshot.wellFormed hSnapshot.known hCareful.1 with ⟨s', hBody, hRan⟩
    have hEnd : ∃ u, endCall reverted s.nextRevisionID s' = .ok u ∧ Ran s u := by
      cases reverted with
      | false => exact ⟨s', rfl, hSnapshot.trans hRan⟩
      | true =>
        rcases revertToSnapshot_of_ran hKnown hRan with ⟨u, hRevert, _, hRanU⟩
        exact ⟨u, hRevert, hRanU⟩
    rcases hEnd with ⟨u, hEnd, hRanU⟩
    have hBind : (body.run s.snapshot >>= endCall reverted s.nextRevisionID) = .ok u := by
      rw [hBody]
      exact hEnd
    rcases ihRest hRanU.wellFormed hRanU.known (hCareful.2 u hBind) with ⟨v, hRest, hRanV⟩
    refine ⟨v, ?_, hRanU.trans hRanV⟩
    simp only [Trace.run, hBind]
    exact hRest

-- What can be seen of a state

/- The object that looking an account up finds. -/
def readAt (stored o : Option StateObject) (bi : Option BalanceIncrease) : Option StateObject :=
  o.or ((bi.filter (fun x => !x.transferred)).elim stored
    (fun x => some { stored.getD StateObject.fresh with
      balance := (stored.getD StateObject.fresh).balance + x.increase }))

theorem getStateObject_object (s : IntraBlockState) (a : Address) :
    (s.getStateObject a).stateObjects a =
      readAt (s.stored a) (s.stateObjects a) (s.balanceInc a) := by
  have hFilter : (s.balanceInc a).filter (fun x => !x.transferred) = s.waiting a := rfl
  have hAppend : (s.append (createdEntry a none)).waiting a = s.waiting a := rfl
  cases hLive : s.stateObjects a with
  | some o => simp [getStateObject_of_live hLive, hLive, readAt]
  | none =>
    cases hData : s.stateReader.readAccountData a <;> cases hWaiting : s.waiting a <;>
      simp [getStateObject, hLive, hData, createObject, setStateObject, hAppend, hWaiting,
        putObject, readAt, hFilter, stored]

theorem BackAt.readAt {stored o o' : Option StateObject} {bi bi' : Option BalanceIncrease}
    (hBack : BackAt stored o bi o' bi') :
    (readAt stored o' bi').map StateObject.core = (readAt stored o bi).map StateObject.core := by
  cases o' with
  | none => rw [hBack.unread rfl, hBack.was_unread rfl]
  | some object' =>
    have hView := hBack.view
    cases o with
    | some object => exact hView
    | none =>
      cases stored with
      | none => simp at hView
      | some v =>
        have hZero : ∀ x, bi = some x → x.increase = 0 := by
          rintro x rfl
          rcases hBack.of_some_amount with ⟨y, hY, hAmount⟩
          exact (congrArg Prod.fst hAmount).symm.trans (hBack.read rfl rfl y hY)
        have hSame : State.readAt (some v) none bi = some v := by
          cases hFilter : bi.filter (fun x => !x.transferred) with
          | none => simp [State.readAt, hFilter]
          | some x =>
            have hSome := (Option.filter_eq_some_iff.1 hFilter).1
            simp [State.readAt, hFilter, hZero x hSome]
        rw [hSame]
        exact hView

/- The accounts look alike in both states. -/
structure IntraBlockState.SameAccounts (s t : IntraBlockState) : Prop where
  balance : ∀ a, t.getBalance a = s.getBalance a
  nonce : ∀ a, t.getNonce a = s.getNonce a
  code : ∀ a, t.getCode a = s.getCode a
  storage : ∀ a key, t.getState a key = s.getState a key
  logs : ∀ txHash, t.getLogs txHash = s.getLogs txHash

theorem IntraBlockState.Back.object {s t : IntraBlockState} (hBack : Back s t) (a : Address) :
    (t.object a).map StateObject.core = (s.object a).map StateObject.core := by
  have hRead := (hBack.account a).readAt
  rw [← getStateObject_object] at hRead
  have hReadT := getStateObject_object t a
  rw [hBack.stored] at hReadT
  rw [← hReadT] at hRead
  have hFiltered := congrArg (Option.filter (fun o => !o.deleted)) hRead
  rwa [Option.filter_map, Option.filter_map] at hFiltered

theorem elim_of_core {α : Type} {o o' : Option StateObject}
    (hCore : o'.map StateObject.core = o.map StateObject.core) (default : α) (f : StateObject → α)
    (hField : ∀ x : StateObject, f x.core = f x) : o'.elim default f = o.elim default f := by
  have hThrough : ∀ x : Option StateObject,
      (x.map StateObject.core).elim default f = x.elim default f := by
    intro x
    cases x <;> simp [hField]
  rw [← hThrough, hCore, hThrough]

theorem sameAccounts_of_object {s t : IntraBlockState}
    (hObject : ∀ a, (t.object a).map StateObject.core = (s.object a).map StateObject.core)
    (hLogs : t.logs = s.logs) :
    SameAccounts s t where
  balance a := elim_of_core (hObject a) 0 _ (fun _ => rfl)
  nonce a := elim_of_core (hObject a) 0 _ (fun _ => rfl)
  code a := elim_of_core (hObject a) [] _ (fun _ => rfl)
  storage a key := elim_of_core (hObject a) 0 (fun o => o.storage key) (fun _ => rfl)
  logs txHash := congrFun hLogs txHash

theorem IntraBlockState.Back.sameAccounts {s t : IntraBlockState} (hBack : Back s t) :
    SameAccounts s t :=
  sameAccounts_of_object hBack.object hBack.logs

end XLayerErigon.State
