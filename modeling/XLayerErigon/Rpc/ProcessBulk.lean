import XLayerErigon.Concurrent.OneShot
import XLayerErigon.Go
import XLayerErigon.State.IntraBlockState

/-
  Sending the transactions of several clients at once.

  Requests that are not valid are answered first and left out of the list for the pool.  The
  answers of the pool are then sent back by their place in that list, to the requests at the same
  places of the bulk.

  Main results:
    * `sentTo_processBulk`
    * `answered_iff`
-/

namespace XLayerErigon.Rpc

open State Concurrent.OneShot

structure TxResult where
  hash : Hash
  err : Option Failure

/-
  What the pool answers: a failure, or for each place of the list why the transaction was not
  imported, if it was not.
-/
inductive PoolAnswer where
  | failed (e : Failure)
  | imported (refused : Nat → Option Failure)

abbrev Bulk := List (Except Failure Hash)

/- The transactions that are submitted, by their hashes. -/
def submitted (bulk : Bulk) : List Hash := bulk.filterMap Except.toOption

/- The answers to requests that are not valid. -/
def rejectionsFrom :
    Nat → Bulk → List (Nat × TxResult)
  | _, [] => []
  | i, .error e :: rest =>
      (i, ⟨0, some e⟩) :: rejectionsFrom (i + 1) rest
  | i, .ok _ :: rest => rejectionsFrom (i + 1) rest

/- A failure is passed on unless the hash is zero. -/
def PoolAnswer.result (answer : PoolAnswer) (i : Nat) (hash : Hash) : TxResult :=
  match answer with
  | failed e => ⟨hash, if hash = 0 then none else some e⟩
  | imported refused => ⟨hash, refused i⟩

/- The answers of the pool, by place. -/
def importsFrom (answer : PoolAnswer) :
    Nat → List Hash → List (Nat × TxResult)
  | _, [] => []
  | i, hash :: rest =>
      (i, answer.result i hash) :: importsFrom answer (i + 1) rest

/- What is sent, and to which request of the bulk.  If the block cannot be read, nothing is. -/
def processBulk (read : Except Failure Unit) (bulk : Bulk)
    (answer : PoolAnswer) : List (Nat × TxResult) :=
  match read with
  | .error _ => []
  | .ok _ =>
    rejectionsFrom 0 bulk ++ importsFrom answer 0 (submitted bulk)

/- The place of a valid request in the list for the pool. -/
def placeOf (bulk : Bulk) (i : Nat) : Nat := (submitted (bulk.take i)).length

/- Why a request fails, if it does. -/
def ownFailure (bulk : Bulk) (answer : PoolAnswer) (i : Nat) : Except Failure Hash → Option Failure
  | .error e => some e
  | .ok _ =>
      match answer with
      | .failed e => some e
      | .imported refused => refused (placeOf bulk i)

/- The hash of its own transaction if the pool imported it, and an error otherwise. -/
def Right (bulk : Bulk) (answer : PoolAnswer) (i : Nat) (r : TxResult) : Prop :=
  ∀ validated, bulk[i]? = some validated →
    (ownFailure bulk answer i validated ≠ none → r.err ≠ none) ∧
    (∀ hash, validated = .ok hash → ownFailure bulk answer i validated = none → r = ⟨hash, none⟩)

/-
  The bulk is processed to its end, whatever the clients do, and each gets one result, the right
  one.
-/
def Answered (read : Except Failure Unit) (bulk : Bulk) (answer : PoolAnswer) : Prop :=
  Served (processBulk read bulk answer) (fun i => i < bulk.length) (Right bulk answer)

/- All valid requests come before all others. -/
def ValidFirst (bulk : Bulk) : Prop :=
  ∃ (good : List Hash) (bad : List Failure), bulk = good.map .ok ++ bad.map .error

-- What each request is sent

/- The answer to a request that is not valid. -/
def rejection :
    Except Failure Hash → List TxResult
  | .error e => [⟨0, some e⟩]
  | .ok _ => []

variable {i : Nat} {bulk : Bulk} {answer : PoolAnswer} {good : List Hash} {bad : List Failure}

/- Each item sends its messages to the request of its place. -/
theorem sentTo_zipIdx {β : Type} (out : Nat → β → List TxResult) (xs : List β) (start i : Nat) :
    sentTo ((xs.zipIdx start).flatMap fun x => (out x.2 x.1).map (Prod.mk x.2)) i =
      if i < start then [] else (xs[i - start]?).elim [] (out i) := by
  induction xs generalizing start with
  | nil => simp
  | cons x xs ih =>
    have hHere : sentTo ((out start x).map (Prod.mk start)) i =
        if start = i then out i x else [] := by
      by_cases hEq : start = i <;> simp [sentTo, hEq, List.filter_map, Function.comp_def]
    rw [List.zipIdx_cons, List.flatMap_cons, sentTo_append, ih, hHere]
    rcases Nat.lt_trichotomy i start with hLt | rfl | hGt
    · simp [hLt, hLt.ne', Nat.lt_succ_of_lt hLt]
    · simp
    · have hIndex : i - start = i - (start + 1) + 1 := by omega
      rw [if_neg (by omega), if_neg (by omega), if_neg (by omega), hIndex, List.getElem?_cons_succ,
        List.nil_append]

theorem rejectionsFrom_eq (start : Nat) (bulk : Bulk) : rejectionsFrom start bulk =
    (bulk.zipIdx start).flatMap fun x => (rejection x.1).map (Prod.mk x.2) := by
  fun_induction rejectionsFrom start bulk <;> simp_all [rejection]

theorem importsFrom_eq (answer : PoolAnswer) (start : Nat) (hashes : List Hash) :
    importsFrom answer start hashes =
      (hashes.zipIdx start).flatMap fun x => [answer.result x.2 x.1].map (Prod.mk x.2) := by
  fun_induction importsFrom answer start hashes <;> simp_all

theorem sentTo_processBulk (u : Unit) (bulk : Bulk) (answer : PoolAnswer) (i : Nat) :
    sentTo (processBulk (.ok u) bulk answer) i =
      (bulk[i]?).elim [] rejection ++
        ((submitted bulk)[i]?).elim [] (fun hash => [answer.result i hash]) := by
  have hRejected := sentTo_zipIdx (fun _ => rejection) bulk 0 i
  have hImported := sentTo_zipIdx (fun i hash => [answer.result i hash]) (submitted bulk) 0 i
  simp only [processBulk, sentTo_append, rejectionsFrom_eq, importsFrom_eq, hRejected, hImported,
    Nat.not_lt_zero, if_false, Nat.sub_zero]

theorem submitted_length_le (bulk : Bulk) : (submitted bulk).length ≤ bulk.length :=
  List.length_filterMap_le _ _

/- Only requests of the bulk are sent something. -/
theorem lt_of_mem_processBulk {read : Except Failure Unit} {x : Nat × TxResult}
    (hMem : x ∈ processBulk read bulk answer) : x.1 < bulk.length := by
  cases read with
  | error e => simp [processBulk] at hMem
  | ok u =>
    have hSent : x.2 ∈ sentTo (processBulk (.ok u) bulk answer) x.1 := by
      simp only [sentTo, List.mem_map, List.mem_filter, decide_eq_true_eq]
      exact ⟨x, ⟨hMem, rfl⟩, rfl⟩
    rw [sentTo_processBulk] at hSent
    by_contra hOut
    have hLength := submitted_length_le bulk
    rw [List.getElem?_eq_none (by omega), List.getElem?_eq_none (by omega)] at hSent
    simp at hSent

theorem submitted_map (good : List Hash) (bad : List Failure) :
    submitted (good.map .ok ++ bad.map .error) = good := by
  have hBad : (bad.map (Except.error (α := Hash))).filterMap Except.toOption = [] := by
    simp [List.filterMap_map, Function.comp_def, Except.toOption]
  rw [submitted, List.filterMap_append, hBad]
  simp [List.filterMap_map, Function.comp_def, Except.toOption]

theorem eq_map_error (hNone : submitted bulk = []) :
    ∃ bad : List Failure, bulk = bad.map .error := by
  induction bulk with
  | nil => exact ⟨[], rfl⟩
  | cons validated rest ih =>
    cases validated with
    | ok hash => simp [submitted, Except.toOption] at hNone
    | error e =>
      have hRest : submitted rest = [] := by simpa [submitted, Except.toOption] using hNone
      rcases ih hRest with ⟨bad, rfl⟩
      exact ⟨e :: bad, rfl⟩

/- Whoever is not valid stands behind as many requests as there are valid ones. -/
theorem validFirst_of_le
    (hBehind : ∀ i e, bulk[i]? = some (.error e) → (submitted bulk).length ≤ i) :
    ValidFirst bulk := by
  induction bulk with
  | nil => exact ⟨[], [], rfl⟩
  | cons validated rest ih =>
    cases validated with
    | error e =>
      have hZero := hBehind 0 e rfl
      rcases eq_map_error (List.length_eq_zero_iff.1 (Nat.le_zero.1 hZero)) with ⟨bad, hBad⟩
      exact ⟨[], bad, hBad⟩
    | ok hash =>
      have hRest : ∀ i e, rest[i]? = some (.error e) → (submitted rest).length ≤ i := by
        intro i e hAt
        have hLe := hBehind (i + 1) e hAt
        simpa [submitted, Except.toOption] using hLe
      rcases ih hRest with ⟨good, bad, rfl⟩
      exact ⟨hash :: good, bad, rfl⟩

theorem placeOf_good (hLess : i < good.length) :
    placeOf (good.map .ok ++ bad.map .error) i = i := by
  have hTake : (good.map Except.ok ++ bad.map Except.error).take i =
      (good.take i).map (Except.ok (ε := Failure)) ++ ([] : List Failure).map Except.error := by
    rw [List.take_append_of_le_length (by simpa using hLess.le)]
    simp
  rw [placeOf, hTake, submitted_map]
  simp [hLess.le]

-- The right results

theorem right_of_good {hash : Hash} (hAt : good[i]? = some hash)
    (hHashes : ∀ e, answer = .failed e → hash ≠ 0) :
    Right (good.map .ok ++ bad.map .error) answer i (answer.result i hash) := by
  have hLess := (List.getElem?_eq_some_iff.1 hAt).1
  have hPlace : placeOf (good.map .ok ++ bad.map .error) i = i := placeOf_good hLess
  intro validated hValidated
  rw [List.getElem?_append_left (by simpa using hLess), List.getElem?_map, hAt] at hValidated
  cases hValidated
  cases answer with
  | failed e =>
    have hNonzero := hHashes e rfl
    simpa [ownFailure, PoolAnswer.result] using hNonzero
  | imported refused =>
    simp only [ownFailure, PoolAnswer.result, hPlace]
    refine ⟨fun hRefused => hRefused, ?_⟩
    intro hash' hSame hNone
    cases hSame
    rw [hNone]

theorem right_of_bad {e : Failure} (hAt : bulk[i]? = some (.error e)) :
    Right bulk answer i ⟨0, some e⟩ := by
  intro validated hValidated
  rw [hAt] at hValidated
  cases hValidated
  exact ⟨fun _ => by simp, fun _ hOk => by cases hOk⟩

theorem validFirst_of_one {u : Unit}
    (hOne : ∀ i, i < bulk.length → ∃ r, sentTo (processBulk (.ok u) bulk answer) i = [r]) :
    ValidFirst bulk := by
  refine validFirst_of_le ?_
  intro i e hAt
  by_contra hBefore
  have hLess := (List.getElem?_eq_some_iff.1 hAt).1
  rcases hOne i hLess with ⟨r, hSent⟩
  -- Both the rejection and an import go to this request.
  rw [sentTo_processBulk, hAt, List.getElem?_eq_getElem (Nat.not_le.1 hBefore)] at hSent
  simp [rejection] at hSent

theorem sentTo_good {hash : Hash} (u : Unit) (answer : PoolAnswer) (hAt : good[i]? = some hash) :
    sentTo (processBulk (.ok u)
      (good.map .ok ++ bad.map .error) answer) i = [answer.result i hash] := by
  have hLess := (List.getElem?_eq_some_iff.1 hAt).1
  rw [sentTo_processBulk, submitted_map, hAt, List.getElem?_append_left (by simpa using hLess),
    List.getElem?_map, hAt]
  rfl

theorem sentTo_bad {e : Failure} (u : Unit) (answer : PoolAnswer)
    (hAt : (good.map Except.ok ++ bad.map Except.error)[i]? = some (.error e))
    (hBehind : good.length ≤ i) :
    sentTo (processBulk (.ok u) (good.map .ok ++ bad.map .error) answer) i = [⟨0, some e⟩] := by
  rw [sentTo_processBulk, submitted_map, hAt, List.getElem?_eq_none hBehind]
  rfl

theorem bad_at (hLess : i < (good.map Except.ok ++ bad.map Except.error : Bulk).length)
    (hBehind : good.length ≤ i) :
    ∃ e, (good.map Except.ok ++ bad.map Except.error : Bulk)[i]? = some (.error e) := by
  have hIndex : i - good.length < bad.length := by
    simp at hLess
    omega
  refine ⟨bad[i - good.length], ?_⟩
  rw [List.getElem?_append_right (by simpa using hBehind)]
  simp [hIndex]

/-
  Every client is answered exactly if the block can be read, the valid requests come first, and no
  transaction with the hash zero is in a list that the pool fails on.
-/
theorem answered_iff (read : Except Failure Unit) (bulk : Bulk) (answer : PoolAnswer) :
    Answered read bulk answer ↔
      (∀ e, read = .error e → bulk = []) ∧
      ValidFirst bulk ∧ (∀ e, answer = .failed e → ∀ hash ∈ submitted bulk, hash ≠ 0) := by
  rw [Answered, served_iff (fun x => lt_of_mem_processBulk)]
  cases read with
  | error e =>
    constructor
    · intro hAll
      have hNone : bulk = [] := by
        by_contra hSome
        rcases hAll 0 (List.length_pos_of_ne_nil hSome) with ⟨m, hSent, _⟩
        cases hSent
      subst hNone
      exact ⟨fun _ _ => rfl, ⟨[], [], rfl⟩, fun _ _ hash hMem => by simp [submitted] at hMem⟩
    · rintro ⟨hNone, _⟩ i hLess
      rw [hNone e rfl] at hLess
      exact absurd hLess (Nat.not_lt_zero i)
  | ok u =>
    constructor
    · intro hAll
      have hFirst : ValidFirst bulk := validFirst_of_one (fun i hLess => by
          rcases hAll i hLess with ⟨r, hSent, _⟩
          exact ⟨r, hSent⟩)
      refine ⟨by simp, hFirst, ?_⟩
      rcases hFirst with ⟨good, bad, rfl⟩
      rintro e rfl hash hMem hZero
      rw [submitted_map] at hMem
      rcases List.getElem?_of_mem hMem with ⟨i, hAt⟩
      have hLess := (List.getElem?_eq_some_iff.1 hAt).1
      rcases hAll i (by simp; omega) with ⟨r, hSent, hRight⟩
      rw [sentTo_good u _ hAt] at hSent
      cases hSent
      -- The failure of the pool does not reach the client.
      have hLost := (hRight (.ok hash) (by
        rw [List.getElem?_append_left (by simpa using hLess), List.getElem?_map, hAt]
        rfl)).1 (by simp [ownFailure])
      simp [PoolAnswer.result, hZero] at hLost
    · rintro ⟨_, ⟨good, bad, rfl⟩, hHashes⟩ i hLess
      rw [submitted_map] at hHashes
      by_cases hGood : i < good.length
      · have hAt : good[i]? = some good[i] := List.getElem?_eq_getElem hGood
        refine ⟨_, sentTo_good u answer hAt, right_of_good hAt ?_⟩
        intro e hFailed
        exact hHashes e hFailed _ (List.getElem_mem hGood)
      · have hBehind : good.length ≤ i := by omega
        rcases bad_at hLess hBehind with ⟨e, hAt⟩
        exact ⟨_, sentTo_bad u answer hAt hBehind, right_of_bad hAt⟩

/-
  The first of two requests is not valid: it is answered twice, and the second is never answered.
-/
theorem second_never_answered :
    sentTo (processBulk (.ok ()) [.error (.error "rlp: too few elements"), .ok 7]
      (.imported (fun _ => none))) 0 = [⟨0, some (.error "rlp: too few elements")⟩, ⟨7, none⟩] ∧
    sentTo (processBulk (.ok ())
      [.error (.error "rlp: too few elements"), .ok 7] (.imported (fun _ => none))) 1 = [] :=
  ⟨rfl, rfl⟩

end XLayerErigon.Rpc
