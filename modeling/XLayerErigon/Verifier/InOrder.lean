import Mathlib.Data.List.Range
import Mathlib.Logic.Relation

/-
  The results of the asynchronous verifications come in the order of the requests.

  Every request has a promise whose task ends at any time.  The promises are looked at one after
  the other; a failed one is replaced in place by one that runs the task again.  A promise that is
  no longer in the list is not looked at again, so the state has those of the list only.

  Main results:
    * `Sequential.step`
    * `results_in_order`
-/

namespace XLayerErigon.Verifier

-- Promises

inductive TaskError where
  | promiseCancelled
  | other

structure Bundle where
  request : Nat
  hasResponse : Bool
  readyForSendingRequest : Bool

/- A promise with what its task has seen and returned. -/
structure Promise where
  request : Nat
  result : Option Bundle
  err : Option TaskError
  finished : Bool
  cancelled : Bool
  sawCancel : Bool

def Promise.new (request : Nat) : Promise := ⟨request, none, none, false, false, false⟩

/- What the task of a request returns; without a bundle only if it has seen a cancellation. -/
inductive Returns (p : Promise) : Option Bundle → Option TaskError → Prop
  | verified : Returns p (some ⟨p.request, true, true⟩) none
  | failed (ready : Bool) : Returns p (some ⟨p.request, false, ready⟩) (some .other)
  | stopped (hSaw : p.sawCancel = true) : Returns p none (some .promiseCancelled)

/- The result of a cancelled promise is not kept. -/
def Promise.complete (p : Promise) (result : Option Bundle) (err : Option TaskError) : Promise :=
  if p.cancelled then { p with finished := true }
  else { p with result := result, err := err, finished := true }

-- The VerifierState

inductive Phase where
  | idle
  | processing (verifierResponse : List Bundle)
  | cancelling
  | panicked

/-
  The state with the requests so far, the retries that are left, and since the last cancellation
  the first request, the bundles returned and the last one returned for unwinding.
-/
structure VerifierState where
  promises : List Promise
  cancelAllVerifications : Bool
  phase : Phase
  requests : Nat
  retries : Nat → Int
  first : Nat
  returned : List Bundle
  forUnwind : Option Bundle

namespace VerifierState

def new : VerifierState := ⟨[], false, .idle, 0, fun _ => 0, 0, [], none⟩

def startAsyncVerification (v : VerifierState) (retries : Int) : VerifierState := { v with
  promises := v.promises ++ [.new v.requests]
  requests := v.requests + 1
  retries := fun r => if r = v.requests then retries else v.retries r }

/- The retries that are left, and whether there is one. -/
def incrementAndValidateRetries (retries : Int) : Int × Bool :=
  if retries = -1 then (retries, true)
  else
    let retries := if 0 < retries then retries - 1 else retries
    (retries, 0 < retries)

/- The end of the loop: the processed promises are removed. -/
def finish (v : VerifierState) (verifierResponse : List Bundle) (forUnwind : Option Bundle) :
    VerifierState := { v with
  promises := v.promises.drop verifierResponse.length
  phase := .idle
  returned := v.returned ++ verifierResponse
  forUnwind := forUnwind }

/- The task of the promise at the end of the responses runs again. -/
def cloneAndRerun (v : VerifierState) (verifierResponse : List Bundle) (request : Nat) :
    VerifierState :=
  finish { v with promises := v.promises.set verifierResponse.length (.new request) }
    verifierResponse none

/- One round of the loop of `ProcessResultsSequentially`. -/
def next (v : VerifierState) (verifierResponse : List Bundle) (isOverdue : Bool) : VerifierState :=
  match v.promises[verifierResponse.length]? with
  | none => v.finish verifierResponse none
  | some p =>
    match p.err, p.result with
    | none, none => v.finish verifierResponse none
    | none, some b =>
      if b.hasResponse then { v with phase := .processing (verifierResponse ++ [b]) }
      else { v with phase := .panicked }
    | some .other, some b =>
      if b.readyForSendingRequest then
        if isOverdue then v.finish verifierResponse (some b)
        else v.cloneAndRerun verifierResponse p.request
      else
        let left := incrementAndValidateRetries (v.retries b.request)
        let v := { v with retries := fun r => if r = b.request then left.1 else v.retries r }
        if left.2 then v.cloneAndRerun verifierResponse p.request
        else v.finish verifierResponse (some b)
    -- a cancelled promise, and the fields of a missing bundle
    | some _, _ => { v with phase := .panicked }

/- The calls of one thread and what the tasks do at any time. -/
inductive Step : VerifierState → VerifierState → Prop
  | start {v : VerifierState} (retries : Int) (hIdle : v.phase = .idle) :
      Step v (v.startAsyncVerification retries)
  | process {v : VerifierState} (hIdle : v.phase = .idle) :
      Step v { v with phase := .processing [] }
  | next {v : VerifierState} {verifierResponse : List Bundle} (isOverdue : Bool)
      (hPhase : v.phase = .processing verifierResponse) : Step v (v.next verifierResponse isOverdue)
  | cancel {v : VerifierState} (hIdle : v.phase = .idle) :
      Step v { v with
        promises := v.promises.map fun p => { p with cancelled := true }
        cancelAllVerifications := true
        phase := .cancelling }
  | cancelled {v : VerifierState} (hPhase : v.phase = .cancelling) :
      Step v { v with
        promises := []
        cancelAllVerifications := false
        phase := .idle
        first := v.requests
        returned := []
        forUnwind := none }
  | see {v : VerifierState} {before after : List Promise} {p : Promise}
      (hTask : v.promises = before ++ p :: after) (hFlag : v.cancelAllVerifications = true) :
      Step v { v with promises := before ++ { p with sawCancel := true } :: after }
  | complete {v : VerifierState} {before after : List Promise} {p : Promise}
      {result : Option Bundle}
      {err : Option TaskError} (hTask : v.promises = before ++ p :: after)
      (hRuns : p.finished = false) (hReturns : Returns p result err) :
      Step v { v with promises := before ++ p.complete result err :: after }

abbrev Reaches : VerifierState → VerifierState → Prop := Relation.ReflTransGen Step

end VerifierState

-- The Invariant

structure Promise.Valid (p : Promise) : Prop where
  own : ∀ b ∈ p.result, b.request = p.request
  answered : p.err = none → ∀ b ∈ p.result, b.hasResponse = true
  failed : ∀ e ∈ p.err, e = .other ∧ p.result ≠ none
  stopped : p.sawCancel = true → p.cancelled = true

/- The responses of a call belong to the next requests. -/
def Phase.Fine (start pending : Nat) : Phase → Prop
  | .processing verifierResponse =>
      verifierResponse.map Bundle.request = List.range' start verifierResponse.length ∧
        verifierResponse.length ≤ pending
  | .panicked => False
  | _ => True

/- The promises in the list belong to the requests not yet returned. -/
structure Sequential (v : VerifierState) : Prop where
  pending : v.promises.map Promise.request =
    List.range' (v.first + v.returned.length) v.promises.length
  requests : v.first + v.returned.length + v.promises.length = v.requests
  valid : ∀ p ∈ v.promises, p.Valid
  flag : v.cancelAllVerifications = true →
    v.phase = .cancelling ∧ ∀ p ∈ v.promises, p.cancelled = true
  returned : v.returned.map Bundle.request = List.range' v.first v.returned.length
  forUnwind : ∀ b ∈ v.forUnwind, b.request = v.first + v.returned.length
  phase : v.phase.Fine (v.first + v.returned.length) v.promises.length

theorem valid_new (request : Nat) : (Promise.new request).Valid := by
  constructor <;> simp [Promise.new]

theorem Promise.Valid.complete {p : Promise} {result : Option Bundle} {err : Option TaskError}
    (hValid : p.Valid) (hReturns : Returns p result err) : (p.complete result err).Valid := by
  rw [Promise.complete]
  split_ifs with hCancelled
  · exact ⟨hValid.own, hValid.answered, hValid.failed, hValid.stopped⟩
  · cases hReturns with
    | verified => exact ⟨by simp, by simp, by simp, hValid.stopped⟩
    | failed ready => exact ⟨by simp, by simp, by simp, hValid.stopped⟩
    | stopped hSaw => exact absurd (hValid.stopped hSaw) hCancelled

-- Steps

variable {v : VerifierState} {verifierResponse : List Bundle}

section

variable (hSequential : Sequential v)

include hSequential

/- Another promise for the same request. -/
theorem Sequential.replace {before after : List Promise} {p q : Promise}
    (hPromises : v.promises = before ++ p :: after) (hRequest : q.request = p.request)
    (hValid : q.Valid) (hCancelled : v.cancelAllVerifications = true → q.cancelled = true) :
    Sequential { v with promises := before ++ q :: after } := by
  have hSame : (before ++ q :: after).map Promise.request = v.promises.map Promise.request := by
    simp [hPromises, hRequest]
  have hLength : (before ++ q :: after).length = v.promises.length := by simp [hPromises]
  have hAll := hSequential.valid
  have hFlag := hSequential.flag
  rw [hPromises] at hAll hFlag
  constructor
  · rw [hSame, hLength, hSequential.pending]
  · rw [hLength, hSequential.requests]
  · grind
  · grind
  · exact hSequential.returned
  · exact hSequential.forUnwind
  · rw [hLength]
    exact hSequential.phase

theorem Sequential.finish {forUnwind : Option Bundle}
    (hPhase : v.phase = .processing verifierResponse) (hUnwind : ∀ b ∈ forUnwind,
      b.request = v.first + v.returned.length + verifierResponse.length) :
    Sequential (v.finish verifierResponse forUnwind) := by
  have hFine := hSequential.phase
  rw [hPhase] at hFine
  rcases hFine with ⟨hResponse, hLength⟩
  have hSum : v.first + (v.returned ++ verifierResponse).length =
      v.first + v.returned.length + verifierResponse.length := by
    rw [List.length_append, Nat.add_assoc]
  constructor
  · simp only [VerifierState.finish]
    rw [List.map_drop, hSequential.pending, List.length_drop, hSum, List.drop_range']
    simp
  · simp only [VerifierState.finish]
    rw [hSum, List.length_drop, ← hSequential.requests]
    omega
  · intro p hp
    exact hSequential.valid p (List.mem_of_mem_drop hp)
  · intro hFlag
    rw [(hSequential.flag hFlag).1] at hPhase
    cases hPhase
  · simp only [VerifierState.finish]
    rw [List.map_append, hSequential.returned, hResponse, List.length_append, List.range'_append_1]
  · intro b hb
    exact (hUnwind b hb).trans hSum.symm
  · trivial

theorem Sequential.cloneAndRerun {p : Promise} (hPhase : v.phase = .processing verifierResponse)
    (hAt : v.promises[verifierResponse.length]? = some p) :
    Sequential (v.cloneAndRerun verifierResponse p.request) := by
  have hLess := (List.getElem?_eq_some_iff.mp hAt).1
  have hSplit : v.promises = v.promises.take verifierResponse.length ++
      p :: v.promises.drop (verifierResponse.length + 1) := by
    rw [← (List.getElem?_eq_some_iff.mp hAt).2, List.getElem_cons_drop, List.take_append_drop]
  have hReplaced := hSequential.replace hSplit (q := .new p.request) rfl (valid_new _)
    (fun hFlag => absurd ((hSequential.flag hFlag).1.symm.trans hPhase) (by simp))
  rw [VerifierState.cloneAndRerun, List.set_eq_take_append_cons_drop, if_pos hLess]
  exact hReplaced.finish hPhase (by simp)

/- One promise is looked at. -/
theorem Sequential.next (hPhase : v.phase = .processing verifierResponse) (isOverdue : Bool) :
    Sequential (v.next verifierResponse isOverdue) := by
  rw [VerifierState.next]
  cases hAt : v.promises[verifierResponse.length]? with
  | none => exact hSequential.finish hPhase (by simp)
  | some p =>
    have hValid := hSequential.valid p (List.mem_of_getElem? hAt)
    have hRequest : p.request = v.first + v.returned.length + verifierResponse.length := by
      have hPending := congrArg (fun l => l[verifierResponse.length]?) hSequential.pending
      have hLess := (List.getElem?_eq_some_iff.mp hAt).1
      simp only [List.getElem?_map, hAt, Option.map_some, List.getElem?_range' hLess,
        Nat.one_mul] at hPending
      exact Option.some.inj hPending
    dsimp only
    cases hErr : p.err with
    | none =>
      cases hResult : p.result with
      | none => exact hSequential.finish hPhase (by simp)
      | some b =>
        dsimp only
        rw [if_pos (hValid.answered hErr b hResult)]
        have hFine := hSequential.phase
        rw [hPhase] at hFine
        refine { hSequential with
          flag := fun hFlag => absurd ((hSequential.flag hFlag).1.symm.trans hPhase) (by simp)
          phase := ⟨?_, ?_⟩ }
        · rw [List.map_append, hFine.1, List.length_append, List.length_singleton,
            List.range'_concat, Nat.one_mul, ← hRequest, ← hValid.own b hResult]
          rfl
        · rw [List.length_append]
          exact (List.getElem?_eq_some_iff.mp hAt).1
    | some e =>
      rcases hValid.failed e hErr with ⟨rfl, hSome⟩
      rcases Option.ne_none_iff_exists'.mp hSome with ⟨b, hResult⟩
      have hUnwind : ∀ c ∈ some b,
          c.request = v.first + v.returned.length + verifierResponse.length := by
        rintro c ⟨⟩
        exact (hValid.own b hResult).trans hRequest
      have hRetries : ∀ retries, Sequential { v with retries := retries } :=
        fun retries => { hSequential with }
      rw [hResult]
      dsimp only
      split_ifs
      · exact hSequential.finish hPhase hUnwind
      · exact hSequential.cloneAndRerun hPhase hAt
      · exact (hRetries _).cloneAndRerun hPhase hAt
      · exact (hRetries _).finish hPhase hUnwind

theorem Sequential.step {v' : VerifierState} (hStep : v.Step v') : Sequential v' := by
  have hCalm : v.phase = .idle → v.cancelAllVerifications = true → False := by
    intro hIdle hFlag
    rw [(hSequential.flag hFlag).1] at hIdle
    cases hIdle
  cases hStep with
  | start retries hIdle =>
    refine ⟨?_, ?_, ?_, fun hFlag => (hCalm hIdle hFlag).elim, hSequential.returned,
      hSequential.forUnwind, ?_⟩
    · simp [VerifierState.startAsyncVerification, hSequential.pending, List.range'_concat,
        ← hSequential.requests, Promise.new]
    · simp [VerifierState.startAsyncVerification, ← hSequential.requests]
      omega
    · intro p hp
      rcases List.mem_append.mp hp with hOld | hNew
      · exact hSequential.valid p hOld
      · rw [List.mem_singleton.mp hNew]
        exact valid_new _
    · simp only [VerifierState.startAsyncVerification, hIdle]
      trivial
  | process hIdle =>
    exact { hSequential with
      flag := fun hFlag => (hCalm hIdle hFlag).elim
      phase := ⟨rfl, Nat.zero_le _⟩ }
  | next isOverdue hPhase => exact hSequential.next hPhase isOverdue
  | cancel hIdle =>
    refine ⟨?_, ?_, ?_, fun _ => ⟨rfl, by simp⟩, hSequential.returned, hSequential.forUnwind,
      trivial⟩
    · rw [List.map_map, List.length_map]
      exact hSequential.pending
    · simp [hSequential.requests]
    · intro q hq
      rcases List.mem_map.mp hq with ⟨p, hp, rfl⟩
      exact { hSequential.valid p hp with stopped := fun _ => rfl }
  | cancelled hPhase =>
    constructor <;> simp [Phase.Fine]
  | @see before after p hTask hFlag =>
    have hMem : p ∈ v.promises := by simp [hTask]
    have hCancelled := (hSequential.flag hFlag).2 p hMem
    refine hSequential.replace hTask rfl ?_ (fun _ => hCancelled)
    exact { hSequential.valid p hMem with stopped := fun _ => hCancelled }
  | @complete before after p result err hTask hRuns hReturns =>
    have hMem : p ∈ v.promises := by simp [hTask]
    refine hSequential.replace hTask ?_ ((hSequential.valid p hMem).complete hReturns) ?_
    · rw [Promise.complete]
      split_ifs <;> rfl
    · intro hFlag
      have hCancelled := (hSequential.flag hFlag).2 p hMem
      rw [Promise.complete, if_pos hCancelled]
      exact hCancelled

end

end XLayerErigon.Verifier
