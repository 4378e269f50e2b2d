import XLayerErigon.State.IntraBlockState

/-
  Undoing the journal.

  Undoing the entries of some operations leads back to the state before them, except that accounts
  of the database that were read meanwhile stay in memory.  This needs one thing: no account of
  the database is read while an amount waits for it.  Such an account keeps the amount when the
  entries are undone.

  What is compared is compared account by account: the live object and the amount kept aside
  before, and those after.

  Main results:
    * `IntraBlockState.step_getStateObject`
    * `IntraBlockState.step_createObject`
    * `IntraBlockState.step_record`
-/

namespace XLayerErigon.State

/- Destroying an account clears one flag for good. -/
def StateObject.core (o : StateObject) : StateObject := { o with createdContract := false }

def BalanceIncrease.amount (bi : BalanceIncrease) : Uint256 × Nat := (bi.increase, bi.count)

variable {o' : Option StateObject} {object : StateObject} {bi bi' : Option BalanceIncrease}

theorem BalanceIncrease.setTransferred_self {bi : BalanceIncrease} {transferred : Bool}
    (hTransferred : bi.transferred = transferred) : bi.setTransferred transferred = bi := by
  cases bi
  simp_all [BalanceIncrease.setTransferred]

theorem BalanceIncrease.setTransferred_of_amount {bi bi' : BalanceIncrease} {transferred : Bool}
    (hAmount : bi'.amount = bi.amount) (hTransferred : bi.transferred = transferred) :
    bi'.setTransferred transferred = bi := by
  cases bi
  cases bi'
  simp_all [BalanceIncrease.setTransferred, BalanceIncrease.amount]

-- One account

/- A live object and the amount kept aside for it. -/
structure FormAt (o : Option StateObject) (bi : Option BalanceIncrease) : Prop where
  transferred : ∀ x, bi = some x → x.transferred = true → o.isSome
  waits : ∀ x, bi = some x → x.transferred = false → o.isSome → x.increase = 0
  counted : ∀ x, bi = some x → 0 < x.count

/- Back at an object and an amount, up to the object having been read from the database. -/
structure BackAt (stored o : Option StateObject) (bi : Option BalanceIncrease)
    (o' : Option StateObject) (bi' : Option BalanceIncrease) : Prop where
  form : FormAt o' bi'
  amounts : bi'.map BalanceIncrease.amount = bi.map BalanceIncrease.amount
  unread : o' = none → bi' = bi
  view : (o'.or stored).map StateObject.core = (o.or stored).map StateObject.core
  live : o.isSome → o'.isSome
  read : o = none → o'.isSome → ∀ x, bi' = some x → x.increase = 0

theorem FormAt.unread_waits {bi : BalanceIncrease} (hForm : FormAt none (some bi)) :
    bi.transferred = false := by
  cases hTransferred : bi.transferred with
  | false => rfl
  | true =>
    have hLive := hForm.transferred bi rfl hTransferred
    simp at hLive

theorem BackAt.refl {stored o : Option StateObject} {bi : Option BalanceIncrease}
    (hForm : FormAt o bi) : BackAt stored o bi o bi :=
  ⟨hForm, rfl, fun _ => rfl, rfl, fun hLive => hLive, fun hNone hLive => by simp [hNone] at hLive⟩

theorem BackAt.was_unread {stored o o' : Option StateObject} (hBack : BackAt stored o bi o' bi')
    (hNone : o' = none) : o = none := by
  have hLive := hBack.live
  cases o <;> simp_all

theorem BackAt.amount_zero {stored o o' : Option StateObject} (hBack : BackAt stored o bi o' bi')
    (hZero : ∀ x, bi = some x → x.increase = 0) : ∀ x, bi' = some x → x.increase = 0 := by
  intro x hSome
  have hAmounts := hBack.amounts
  rw [hSome] at hAmounts
  cases bi with
  | none => simp at hAmounts
  | some y =>
    have hAmount : x.amount = y.amount := by simpa using hAmounts
    exact (congrArg Prod.fst hAmount).trans (hZero y rfl)

theorem BackAt.trans {stored o o' o'' : Option StateObject} {bi bi' bi'' : Option BalanceIncrease}
    (hFirst : BackAt stored o bi o' bi') (hSecond : BackAt stored o' bi' o'' bi'') :
    BackAt stored o bi o'' bi'' where
  form := hSecond.form
  amounts := hSecond.amounts.trans hFirst.amounts
  unread hNone := (hSecond.unread hNone).trans (hFirst.unread (hSecond.was_unread hNone))
  view := hSecond.view.trans hFirst.view
  live hLive := hSecond.live (hFirst.live hLive)
  read hNone hLive := by
    cases o' with
    | none => exact hSecond.read rfl hLive
    | some object => exact hSecond.amount_zero (hFirst.read hNone rfl)

/- The object of an account that was put into memory. -/
theorem BackAt.of_live {stored : Option StateObject}
    (hBack : BackAt stored (some object) bi o' bi') :
    ∃ object', o' = some object' ∧ object'.core = object.core := by
  cases o' with
  | none =>
    have hLive := hBack.live rfl
    simp at hLive
  | some object' =>
    have hView := hBack.view
    simp only [Option.some_or, Option.map_some, Option.some.injEq] at hView
    exact ⟨object', rfl, hView⟩

theorem BackAt.of_some_amount {stored o o' : Option StateObject} {bi : BalanceIncrease}
    {bi' : Option BalanceIncrease} (hBack : BackAt stored o (some bi) o' bi') :
    ∃ x, bi' = some x ∧ x.amount = bi.amount := by
  cases bi' with
  | none => simpa using hBack.amounts
  | some x => exact ⟨x, rfl, by simpa using hBack.amounts⟩

/- Undoing the transfer of a waiting amount. -/
theorem BackAt.undone {stored o o' : Option StateObject}
    (hBack : BackAt stored o (bi.map (BalanceIncrease.setTransferred true)) o' bi')
    (hForm : FormAt none bi) :
    (if bi.isSome then bi'.map (BalanceIncrease.setTransferred false) else bi') = bi := by
  cases bi with
  | none => simpa using hBack.amounts
  | some x =>
    rcases hBack.of_some_amount with ⟨y, rfl, hAmount⟩
    exact congrArg some (BalanceIncrease.setTransferred_of_amount hAmount hForm.unread_waits)

/- An account is read for which nothing waits. -/
theorem BackAt.load {read : Option BalanceIncrease}
    (hBack : BackAt (some object) (some object) read o' bi')
    (hZero : ∀ x, bi = some x → x.increase = 0) (hForm : FormAt none bi) :
    BackAt (some object) none bi o' bi := by
  rcases hBack.of_live with ⟨object', rfl, hCore⟩
  exact
    ⟨⟨by simp, fun x hSome _ _ => hZero x hSome, hForm.counted⟩, rfl, by simp, by simpa using hCore,
      by simp, fun _ _ => hZero⟩

theorem formAt_nothing (o : Option StateObject) : FormAt o none := ⟨by simp, by simp, by simp⟩

theorem formAt_transferred (hCounted : ∀ x, bi = some x → 0 < x.count) :
    FormAt (some object) (bi.map (BalanceIncrease.setTransferred true)) := by
  refine ⟨by simp, ?_, ?_⟩
  · intro x hSome hFalse _
    rcases Option.map_eq_some_iff.1 hSome with ⟨y, hY, rfl⟩
    cases hFalse
  · intro x hSome
    rcases Option.map_eq_some_iff.1 hSome with ⟨y, hY, rfl⟩
    exact hCounted y hY

/- A live object is replaced. -/
theorem backAt_reset {stored : Option StateObject} {prev : StateObject}
    (hCounted : ∀ x, bi' = some x → 0 < x.count)
    (hAmounts : bi'.map BalanceIncrease.amount = bi.map BalanceIncrease.amount) :
    BackAt stored (some prev) bi (some prev) (bi'.map (BalanceIncrease.setTransferred true)) := by
  refine ⟨formAt_transferred hCounted, ?_, by simp, rfl, by simp, by simp⟩
  rw [← hAmounts, Option.map_map]
  rfl

/- A live object is changed and changed back. -/
theorem BackAt.change {stored o' : Option StateObject} {change back : StateObject → StateObject}
    (hBack : BackAt stored (some (change object)) bi o' bi')
    (hChange : ∀ x : StateObject, x.core = (change object).core → (back x).core = object.core) :
    BackAt stored (some object) bi (o'.map back) bi' := by
  rcases hBack.of_live with ⟨x, rfl, hCore⟩
  refine ⟨⟨by simp, ?_, hBack.form.counted⟩, hBack.amounts, by simp, ?_, by simp, by simp⟩
  · intro y hSome hFalse _
    exact hBack.form.waits y hSome hFalse (by simp)
  · simpa using hChange x hCore

theorem BalanceIncrease.takeBack_later {bi : Option BalanceIncrease} (amount : Uint256)
    (hCounted : ∀ x, bi = some x → 0 < x.count) :
    (BalanceIncrease.later bi amount).takeBack amount = bi := by
  cases bi with
  | none => simp [BalanceIncrease.later, takeBack]
  | some x =>
    have hCount := hCounted x rfl
    have hMore : x.count ≠ 0 := by omega
    cases x
    simp_all [BalanceIncrease.later, takeBack]

theorem BalanceIncrease.amount_takeBack {x y : BalanceIncrease} (amount : Uint256)
    (hAmount : x.amount = y.amount) :
    (x.takeBack amount).map BalanceIncrease.amount =
      (y.takeBack amount).map BalanceIncrease.amount := by
  cases x
  cases y
  simp only [BalanceIncrease.amount, Prod.mk.injEq] at hAmount
  rcases hAmount with ⟨rfl, rfl⟩
  simp only [takeBack]
  split <;> rfl

/- The amounts kept aside do not wrap around to nothing. -/
def CreditableAt (stored o : Option StateObject) (bi : Option BalanceIncrease)
    (amount : Uint256) : Prop :=
  o = none → stored.isSome → amount = 0 ∨ (BalanceIncrease.later bi amount).increase ≠ 0

theorem FormAt.increase_of_later {bi : Option BalanceIncrease} {amount : Uint256}
    {x : BalanceIncrease} (hAmount : x.amount = (BalanceIncrease.later bi amount).amount)
    (hCounted : ∀ y, bi = some y → 0 < y.count) {y : BalanceIncrease}
    (hBack : x.takeBack amount = some y) :
    ∃ z, bi = some z ∧ y.amount = z.amount ∧ y.transferred = x.transferred := by
  have hSame := BalanceIncrease.amount_takeBack amount hAmount
  rw [BalanceIncrease.takeBack_later amount hCounted, hBack] at hSame
  cases bi with
  | none => simp at hSame
  | some z =>
    refine ⟨z, rfl, by simpa using hSame, ?_⟩
    simp only [BalanceIncrease.takeBack] at hBack
    split at hBack
    · cases hBack
    · cases hBack
      rfl

theorem BackAt.later {stored o' : Option StateObject} {amount : Uint256}
    (hBack : BackAt stored none (some (BalanceIncrease.later bi amount)) o' bi')
    (hForm : FormAt none bi) (hCredit : CreditableAt stored none bi amount) :
    BackAt stored none bi o' (bi'.bind (fun x => x.takeBack amount)) := by
  rcases hBack.of_some_amount with ⟨x, rfl, hAmount⟩
  have hTaken := BalanceIncrease.takeBack_later amount hForm.counted
  cases o' with
  | none =>
    have hExact := Option.some.inj (hBack.unread rfl)
    simp only [Option.bind_some, hExact, hTaken]
    exact BackAt.refl hForm
  | some object =>
    have hStored : stored.isSome := by
      cases stored with
      | some v => rfl
      | none => simpa using hBack.view
    have hSum := (congrArg Prod.fst hAmount).symm.trans (hBack.read rfl rfl x rfl)
    -- Nothing was kept aside, so the amount was zero.
    have hZero : ∀ y, x.takeBack amount = some y → y.increase = 0 := by
      intro y hSome
      rcases FormAt.increase_of_later hAmount hForm.counted hSome with ⟨z, rfl, hSame, _⟩
      have hIncrease : y.increase = z.increase := congrArg Prod.fst hSame
      rcases hCredit rfl hStored with rfl | hNot
      · simpa [hIncrease, BalanceIncrease.amount, BalanceIncrease.later] using hSum
      · exact absurd hSum hNot
    refine ⟨⟨by simp, fun y hSome _ _ => hZero y hSome, ?_⟩,
      ?_, by simp, hBack.view, by simp, fun _ _ => hZero⟩
    · intro y hSome
      rcases FormAt.increase_of_later hAmount hForm.counted hSome with ⟨z, rfl, hSame, _⟩
      have hCount : y.count = z.count := congrArg Prod.snd hSame
      have hPositive := hForm.counted z rfl
      omega
    · rw [Option.bind_some, BalanceIncrease.amount_takeBack amount hAmount, hTaken]

-- States

namespace IntraBlockState

def stored (s : IntraBlockState) (a : Address) : Option StateObject :=
  (s.stateReader.readAccountData a).map (s.stateReader.newObject a)

def WellFormed (s : IntraBlockState) : Prop := ∀ a, FormAt (s.stateObjects a) (s.balanceInc a)

/- Back at a state, up to accounts that were read. -/
structure Back (s t : IntraBlockState) : Prop where
  stateReader : t.stateReader = s.stateReader
  refund : t.refund = s.refund
  logs : t.logs = s.logs
  account : ∀ a, BackAt (s.stored a) (s.stateObjects a)
    (s.balanceInc a) (t.stateObjects a) (t.balanceInc a)

/- Undoing what happened since leads back. -/
def Restores (s s' : IntraBlockState) : Prop :=
  ∃ entries, s'.journal = entries ++ s.journal ∧ ∀ t, Back s' t → Back s (t.undo entries)

structure Step (s s' : IntraBlockState) : Prop where
  wellFormed : s'.WellFormed
  restores : Restores s s'
  stateReader : s'.stateReader = s.stateReader
  validRevisions : s'.validRevisions = s.validRevisions
  nextRevisionID : s'.nextRevisionID = s.nextRevisionID

variable {o : StateObject} (t : IntraBlockState) {a : Address} {s : IntraBlockState}

theorem Back.wellFormed {s t : IntraBlockState} (hBack : Back s t) :
    t.WellFormed :=
  fun a => (hBack.account a).form

theorem Back.stored {s t : IntraBlockState} (hBack : Back s t) : t.stored = s.stored := by
  funext a
  simp [IntraBlockState.stored, hBack.stateReader]

theorem Back.refl (hForm : s.WellFormed) : Back s s :=
  ⟨rfl, rfl, rfl, fun a => BackAt.refl (hForm a)⟩

theorem Back.trans {s t u : IntraBlockState} (hFirst : Back s t) (hSecond : Back t u) :
    Back s u where
  stateReader := hSecond.stateReader.trans hFirst.stateReader
  refund := hSecond.refund.trans hFirst.refund
  logs := hSecond.logs.trans hFirst.logs
  account a := (hFirst.account a).trans (hFirst.stored ▸ hSecond.account a)

theorem undo_append (newer older : List JournalEntry) :
    t.undo (newer ++ older) = (t.undo newer).undo older := by
  simp [undo]

theorem Restores.refl (s : IntraBlockState) : Restores s s := ⟨[], rfl, fun _ hBack => hBack⟩

theorem Restores.trans {s s' s'' : IntraBlockState} (hFirst : Restores s s')
    (hSecond : Restores s' s'') : Restores s s'' := by
  rcases hFirst with ⟨older, hOlder, hUndoOlder⟩
  rcases hSecond with ⟨newer, hNewer, hUndoNewer⟩
  refine ⟨newer ++ older, by simp [hNewer, hOlder], ?_⟩
  intro t hBack
  rw [undo_append]
  exact hUndoOlder _ (hUndoNewer t hBack)

theorem Step.refl (hForm : s.WellFormed) : Step s s := ⟨hForm, Restores.refl s, rfl, rfl, rfl⟩

theorem Step.trans {s s' s'' : IntraBlockState} (hFirst : Step s s') (hSecond : Step s' s'') :
    Step s s'' :=
  ⟨hSecond.wellFormed,
    hFirst.restores.trans hSecond.restores, hSecond.stateReader.trans hFirst.stateReader,
    hSecond.validRevisions.trans hFirst.validRevisions,
    hSecond.nextRevisionID.trans hFirst.nextRevisionID⟩

-- What concerns one account only

structure LocalTo (a : Address) (t u : IntraBlockState) : Prop where
  stateReader : u.stateReader = t.stateReader
  refund : u.refund = t.refund
  logs : u.logs = t.logs
  objects : ∀ b, b ≠ a → u.stateObjects b = t.stateObjects b
  increases : ∀ b, b ≠ a → u.balanceInc b = t.balanceInc b

theorem LocalTo.refl (a : Address) (t : IntraBlockState) : LocalTo a t t :=
  ⟨rfl, rfl, rfl, fun _ _ => rfl, fun _ _ => rfl⟩

theorem LocalTo.trans {t u v : IntraBlockState} (hFirst : LocalTo a t u) (hSecond : LocalTo a u v) :
    LocalTo a t v :=
  ⟨hSecond.stateReader.trans hFirst.stateReader,
    hSecond.refund.trans hFirst.refund, hSecond.logs.trans hFirst.logs,
    fun b hNe => (hSecond.objects b hNe).trans (hFirst.objects b hNe),
    fun b hNe => (hSecond.increases b hNe).trans (hFirst.increases b hNe)⟩

theorem local_append (a : Address) (e : JournalEntry) : LocalTo a t (t.append e) :=
  ⟨rfl, rfl, rfl, fun _ _ => rfl, fun _ _ => rfl⟩

theorem local_putObject (a : Address) (o : StateObject) : LocalTo a t (t.putObject a o) :=
  ⟨rfl, rfl, rfl, fun _ hNe => by simp [putObject, hNe], fun _ _ => rfl⟩

theorem local_dropObject (a : Address) : LocalTo a t (t.dropObject a) :=
  ⟨rfl, rfl, rfl, fun _ hNe => by simp [dropObject, hNe], fun _ _ => rfl⟩

theorem local_modifyObject (a : Address) (f : StateObject → StateObject) :
    LocalTo a t (t.modifyObject a f) :=
  ⟨rfl, rfl, rfl, fun _ hNe => by simp [modifyObject, hNe], fun _ _ => rfl⟩

theorem local_putIncrease (a : Address) (bi : Option BalanceIncrease) :
    LocalTo a t (t.putIncrease a bi) :=
  ⟨rfl, rfl, rfl, fun _ _ => rfl, fun _ hNe => by simp [putIncrease, hNe]⟩

theorem local_setStateObject (a : Address) (o : StateObject) :
    LocalTo a t (t.setStateObject a o) := by
  unfold setStateObject
  split
  · exact local_putObject t a o
  · exact ((local_append t a _).trans (local_putIncrease _ a _)).trans (local_putObject _ a _)

theorem local_createObject (a : Address) (previous : Option StateObject) :
    LocalTo a t (t.createObject a previous) :=
  (local_append t a _).trans (local_setStateObject _ a _)

theorem local_getStateObject (a : Address) : LocalTo a t (t.getStateObject a) := by
  fun_cases getStateObject t a with
  | case2 => exact local_setStateObject t a _
  | case3 => exact local_createObject t a none
  | _ => exact LocalTo.refl a t

theorem local_undoEntry {t : IntraBlockState} {e : JournalEntry}
    (hLocal : LocalTo a t (e.revert t)) : LocalTo a t (t.undoEntry e) :=
  ⟨hLocal.stateReader, hLocal.refund, hLocal.logs, hLocal.objects, hLocal.increases⟩

/- A change of one account is undone if it is undone for that account. -/
theorem step_of_local {s s' : IntraBlockState} {entries : List JournalEntry} (hForm : s.WellFormed)
    (hLocal : LocalTo a s s') (hJournal : s'.journal = entries ++ s.journal)
    (hRevisions : s'.validRevisions = s.validRevisions)
    (hNext : s'.nextRevisionID = s.nextRevisionID)
    (hFormAt : FormAt (s'.stateObjects a) (s'.balanceInc a))
    (hUndoLocal : ∀ t, LocalTo a t (t.undo entries))
    (hUndo : ∀ t : IntraBlockState, BackAt (s.stored a) (s'.stateObjects a)
      (s'.balanceInc a) (t.stateObjects a) (t.balanceInc a) → BackAt (s.stored a) (s.stateObjects a)
      (s.balanceInc a) ((t.undo entries).stateObjects a)
      ((t.undo entries).balanceInc a)) : Step s s' := by
  refine ⟨?_, ⟨entries, hJournal, ?_⟩, hLocal.stateReader, hRevisions, hNext⟩
  · intro b
    by_cases hEq : b = a
    · exact hEq ▸ hFormAt
    · rw [hLocal.objects b hEq, hLocal.increases b hEq]
      exact hForm b
  · intro t hBack
    have hStored : s'.stored = s.stored := by
      funext b
      simp [IntraBlockState.stored, hLocal.stateReader]
    have hUndone := hUndoLocal t
    refine ⟨?_, ?_, ?_, ?_⟩
    · exact (hUndone.stateReader.trans hBack.stateReader).trans hLocal.stateReader
    · exact (hUndone.refund.trans hBack.refund).trans hLocal.refund
    · exact (hUndone.logs.trans hBack.logs).trans hLocal.logs
    · intro b
      have hAt := hBack.account b
      rw [hStored] at hAt
      by_cases hEq : b = a
      · subst hEq
        exact hUndo t hAt
      · rw [hUndone.objects b hEq, hUndone.increases b hEq]
        rw [hLocal.objects b hEq, hLocal.increases b hEq] at hAt
        exact hAt

-- Reading and making objects

theorem waiting_eq_some_iff (s : IntraBlockState) (a : Address) (bi : BalanceIncrease) :
    s.waiting a = some bi ↔ s.balanceInc a = some bi ∧ bi.transferred = false := by
  simp [waiting, Option.filter_eq_some_iff]

/- What is kept aside for an account that was not read waits. -/
theorem WellFormed.waiting_eq (hForm : s.WellFormed) (hNone : s.stateObjects a = none) :
    s.waiting a = s.balanceInc a := by
  have hAt := hForm a
  rw [hNone] at hAt
  cases hInc : s.balanceInc a with
  | none => simp [waiting, hInc]
  | some bi =>
    rw [hInc] at hAt
    exact (s.waiting_eq_some_iff a bi).2 ⟨hInc, hAt.unread_waits⟩

/- What putting an object into memory does to its account, and what undoing it does. -/
structure Puts (s s' : IntraBlockState) (a : Address) (o : StateObject)
    (entries : List JournalEntry) : Prop where
  journal : s'.journal = entries ++ s.journal
  validRevisions : s'.validRevisions = s.validRevisions
  nextRevisionID : s'.nextRevisionID = s.nextRevisionID
  object : s'.stateObjects a =
    some { o with balance := o.balance + (s.waiting a).elim 0 (·.increase) }
  increase : s'.balanceInc a = (s.balanceInc a).map (BalanceIncrease.setTransferred true)
  undo_local : ∀ t : IntraBlockState, LocalTo a t (t.undo entries)
  undo_object : ∀ t : IntraBlockState, (t.undo entries).stateObjects a = t.stateObjects a
  undo_increase : ∀ t : IntraBlockState, (t.undo entries).balanceInc a =
    if (s.waiting a).isSome then (t.balanceInc a).map (BalanceIncrease.setTransferred false)
    else t.balanceInc a

theorem puts_setStateObject (s : IntraBlockState) (a : Address) (o : StateObject) :
    ∃ entries, Puts s (s.setStateObject a o) a o entries := by
  fun_cases setStateObject s a o with
  | case1 hWaiting =>
    refine ⟨[], rfl, rfl, rfl, by simp [putObject, hWaiting], ?_, LocalTo.refl a, fun t => rfl,
      fun t => by simp [undo, hWaiting]⟩
    cases hInc : s.balanceInc a with
    | none => simp [putObject, hInc]
    | some bi =>
      have hTrue : bi.transferred = true := by simpa [waiting, hInc] using hWaiting
      simp [putObject, hInc, BalanceIncrease.setTransferred_self hTrue]
  | case2 bi hWaiting =>
    rcases (s.waiting_eq_some_iff a bi).1 hWaiting with ⟨hInc, _⟩
    exact
      ⟨[_], rfl, rfl, rfl, by simp [putObject, hWaiting],
        by simp [putObject, putIncrease, hInc], fun t => local_undoEntry (local_putIncrease t a _),
        fun t => rfl,
        fun t => by simp [undo, undoEntry, JournalEntry.revert, putIncrease, hWaiting]⟩

/- Nothing waits for an account that is read now. -/
def Readable (s : IntraBlockState) (a : Address) : Prop :=
  s.stateObjects a = none → (s.stored a).isSome → ∀ bi, s.waiting a = some bi → bi.increase = 0

theorem step_load {v : StateObject} (hForm : s.WellFormed) (hNone : s.stateObjects a = none)
    (hStored : s.stored a = some v) (hReadable : s.Readable a) : Step s (s.setStateObject a v) := by
  have hAt := hForm a
  have hWaiting := hForm.waiting_eq hNone
  have hZero : ∀ x, s.balanceInc a = some x → x.increase = 0 := by
    intro x hInc
    exact hReadable hNone (by simp [hStored]) x (hWaiting.trans hInc)
  have hSame : v.balance + (s.balanceInc a).elim 0 (·.increase) = v.balance := by
    cases hInc : s.balanceInc a with
    | none => exact add_zero _
    | some x => rw [Option.elim_some, hZero x hInc, add_zero]
  rcases puts_setStateObject s a v with ⟨entries, hPuts⟩
  refine step_of_local hForm (local_setStateObject s a v) hPuts.journal hPuts.validRevisions
    hPuts.nextRevisionID ?_ hPuts.undo_local ?_
  · rw [hPuts.object, hPuts.increase]
    exact formAt_transferred hAt.counted
  · intro t hBack
    rw [hNone] at hAt
    rw [hPuts.object, hPuts.increase, hStored, hWaiting, hSame] at hBack
    rw [hPuts.undo_object, hPuts.undo_increase, hWaiting, hBack.undone hAt, hStored, hNone]
    exact hBack.load hZero hAt

theorem local_create (s : IntraBlockState) (a : Address) (previous : Option StateObject)
    (f : StateObject → StateObject) : LocalTo a s ((s.createObject a previous).modifyObject a f) :=
  (local_createObject s a previous).trans (local_modifyObject _ a f)

/- The new object may still be given other values. -/
theorem step_createObject {previous : Option StateObject} (hForm : s.WellFormed)
    (hPrevious : s.stateObjects a = previous) (hStored : previous = none → s.stored a = none)
    (f : StateObject → StateObject) :
    Step s ((s.createObject a previous).modifyObject a f) := by
  have hAt := hForm a
  rw [hPrevious] at hAt
  rcases puts_setStateObject (s.append (createdEntry a previous)) a StateObject.fresh with
    ⟨entries, hPuts⟩
  have hObject : ((s.createObject a previous).modifyObject a f).stateObjects a = some (f _) :=
    (Function.update_self a _ _).trans (congrArg (Option.map f) hPuts.object)
  have hIncrease : ((s.createObject a previous).modifyObject a f).balanceInc a = _ := hPuts.increase
  refine step_of_local hForm (local_create s a previous f)
    (hPuts.journal.trans (List.append_cons _ _ _)) hPuts.validRevisions
    hPuts.nextRevisionID ?_ ?_ ?_
  · rw [hObject, hIncrease]
    exact formAt_transferred hAt.counted
  · intro t
    rw [undo_append]
    refine (hPuts.undo_local t).trans (local_undoEntry ?_)
    cases previous with
    | none => exact local_dropObject _ a
    | some o => exact local_setStateObject _ a o
  · intro t hBack
    rw [hObject, hIncrease] at hBack
    rw [undo_append, hPrevious]
    cases previous with
    | none =>
      have hUndone : (t.undo entries).balanceInc a = s.balanceInc a := by
        rw [hPuts.undo_increase, show (s.append _).waiting a = _ from hForm.waiting_eq hPrevious]
        exact hBack.undone hAt
      rw [← hUndone] at hAt ⊢
      have hGone : ((t.undo entries).undo [createdEntry a none]).stateObjects a = none :=
        Function.update_self a _ _
      rw [hGone]
      exact BackAt.refl hAt
    | some o =>
      -- What waited for the object that is put back was nothing.
      have hZero : ((t.undo entries).waiting a).elim 0 (·.increase) = 0 := by
        cases hAgain : (t.undo entries).waiting a with
        | none => rfl
        | some y =>
          rcases (waiting_eq_some_iff _ a y).1 hAgain with ⟨hInc, hFalse⟩
          rw [hPuts.undo_increase] at hInc
          split_ifs at hInc with hWaiting
          · rcases Option.isSome_iff_exists.mp hWaiting with ⟨bi, hBi⟩
            rcases ((s.append _).waiting_eq_some_iff a bi).1 hBi with ⟨hSome, hNot⟩
            rcases Option.map_eq_some_iff.1 hInc with ⟨x, hX, rfl⟩
            rw [hSome] at hBack
            refine hBack.amount_zero ?_ x hX
            rintro z hZ
            cases hZ
            exact hAt.waits bi hSome hNot rfl
          · exact hBack.form.waits y hInc hFalse (hBack.live rfl)
      have hMarks : ((t.undo entries).balanceInc a).map (BalanceIncrease.setTransferred true) =
          (t.balanceInc a).map (BalanceIncrease.setTransferred true) := by
        rw [hPuts.undo_increase]
        split_ifs
        · exact Option.map_map _ _ _
        · rfl
      rcases puts_setStateObject (t.undo entries) a o with ⟨_, hAgain⟩
      change BackAt _ _ _ (((t.undo entries).setStateObject a o).stateObjects a)
        (((t.undo entries).setStateObject a o).balanceInc a)
      rw [hAgain.object, hAgain.increase, hMarks, hZero, add_zero]
      exact backAt_reset hBack.form.counted (hBack.amounts.trans (Option.map_map _ _ _))

theorem modifyObject_fixed {f : StateObject → StateObject}
    (hFixed : (s.stateObjects a).map f = s.stateObjects a) : s.modifyObject a f = s := by
  simp only [modifyObject, hFixed, Function.update_eq_self]

theorem modifyObject_id (s : IntraBlockState) (a : Address) : s.modifyObject a id = s :=
  modifyObject_fixed (by simp)

theorem stored_eq_none_iff (s : IntraBlockState) (a : Address) :
    s.stored a = none ↔ s.stateReader.readAccountData a = none := by
  simp [stored]

theorem step_getStateObject (hForm : s.WellFormed) (hReadable : s.Readable a) :
    Step s (s.getStateObject a) := by
  fun_cases getStateObject s a with
  | case2 hLive account hData =>
    exact step_load hForm hLive (by simp [stored, hData]) hReadable
  | case3 hLive hData hWaiting =>
    have hStep := step_createObject hForm hLive (fun _ => (s.stored_eq_none_iff a).2 hData) id
    rwa [modifyObject_id] at hStep
  | _ => exact Step.refl hForm

theorem setStateObject_live (s : IntraBlockState) (a : Address) (o : StateObject) :
    (s.setStateObject a o).stateObjects a ≠ none := by
  fun_cases setStateObject s a o <;> simp [putObject]

theorem createObject_live (s : IntraBlockState) (a : Address) (previous : Option StateObject) :
    ∃ o, (s.createObject a previous).stateObjects a = some o :=
  Option.ne_none_iff_exists'.mp (setStateObject_live _ a _)

/- An account that is not found does not exist. -/
theorem getStateObject_none (hNone : (s.getStateObject a).stateObjects a = none) :
    s.getStateObject a = s ∧ s.stateObjects a = none ∧ s.stored a = none := by
  revert hNone
  fun_cases getStateObject s a with
  | case1 o hLive => simp [hLive]
  | case2 hLive account hData => simp [setStateObject_live]
  | case3 hLive hData hWaiting => simp [createObject, setStateObject_live]
  | case4 hLive hData hWaiting => exact fun _ => ⟨rfl, hLive, (s.stored_eq_none_iff a).2 hData⟩

theorem step_getOrNewStateObject (hForm : s.WellFormed) (hReadable : s.Readable a) :
    Step s (s.getOrNewStateObject a) := by
  have hGet := step_getStateObject hForm hReadable
  simp only [getOrNewStateObject]
  split
  · next hNone =>
    rcases getStateObject_none hNone with ⟨hSame, hUnread, hStored⟩
    rw [hSame]
    have hStep := step_createObject hForm hUnread (fun _ => hStored) id
    rwa [modifyObject_id] at hStep
  · next o hLive =>
    split
    · have hStep := step_createObject hGet.wellFormed hLive (by simp) id
      rw [modifyObject_id] at hStep
      exact hGet.trans hStep
    · exact hGet

theorem getOrNewStateObject_live (s : IntraBlockState) (a : Address) :
    ∃ o, (s.getOrNewStateObject a).stateObjects a = some o := by
  fun_cases getOrNewStateObject s a with
  | case3 _ o hLive => exact ⟨o, hLive⟩
  | _ => exact createObject_live _ a _

-- Changing objects

theorem getStateObject_of_live (hLive : s.stateObjects a = some o) : s.getStateObject a = s := by
  simp [getStateObject, hLive]

theorem step_record {e : JournalEntry} {change back : StateObject → StateObject}
    (hForm : s.WellFormed) (hLive : s.stateObjects a = some o)
    (hRevert : ∀ t, e.revert t = (t.getStateObject a).modifyObject a back)
    (hChange : ∀ x : StateObject, x.core = (change o).core → (back x).core = o.core) :
    Step s (s.record e a change) := by
  have hAt := hForm a
  rw [hLive] at hAt
  have hLocal : LocalTo a s (s.record e a change) :=
    (local_append s a e).trans (local_modifyObject _ a change)
  refine step_of_local hForm hLocal (List.singleton_append).symm rfl rfl ?_ ?_ ?_
  · simp only [record, modifyObject, append, Function.update_self, hLive, Option.map_some]
    exact ⟨by simp, fun x hSome hFalse _ => hAt.waits x hSome hFalse rfl, hAt.counted⟩
  · intro t
    refine local_undoEntry ?_
    rw [hRevert]
    exact (local_getStateObject t a).trans (local_modifyObject _ a back)
  · intro t hBack
    simp only [record, modifyObject, append, Function.update_self, hLive, Option.map_some] at hBack
    rcases hBack.of_live with ⟨x, hX, _⟩
    rw [hLive]
    simpa [undo, undoEntry, hRevert, getStateObject_of_live hX, modifyObject] using
      hBack.change hChange

theorem step_touch (a : Address) (hForm : s.WellFormed) : Step s (s.touch a) := by
  have hRestores : ∀ s' : IntraBlockState,
      s'.journal = [.touchChange a] ++ s.journal →
      LocalTo a s s' → s'.stateObjects a = s.stateObjects a → s'.balanceInc a = s.balanceInc a →
      s'.validRevisions = s.validRevisions → s'.nextRevisionID = s.nextRevisionID → Step s s' := by
    intro s' hJournal hLocal hObject hInc hRevisions hNext
    refine step_of_local hForm hLocal hJournal hRevisions hNext ?_ ?_ ?_
    · rw [hObject, hInc]
      exact hForm a
    · exact fun t => local_undoEntry (LocalTo.refl a t)
    · intro t hBack
      rwa [hObject, hInc] at hBack
  have hLocal := local_append s a (.touchChange a)
  simp only [touch]
  split
  · exact hRestores _ rfl ⟨rfl, rfl, rfl, fun _ _ => rfl, fun _ _ => rfl⟩ rfl rfl rfl rfl
  · exact hRestores _ rfl hLocal rfl rfl rfl rfl

theorem step_setBalance (amount : Uint256) (hForm : s.WellFormed)
    (hLive : s.stateObjects a = some o) : Step s (s.setBalance a o amount) := by
  refine step_record hForm hLive (fun _ => rfl) ?_
  intro x hCore
  cases x
  cases o
  simp_all [StateObject.core]

end IntraBlockState

end XLayerErigon.State
