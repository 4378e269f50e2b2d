import XLayerErigon.Concurrent.WorkerPool

/-
  Workers whose tasks may fail.

  A party hands out tasks and looks for errors only while it does so.  A worker whose task fails
  leaves, and an error that is fatal ends everything.  When all tasks are handed out, the party
  waits for the workers and returns what they have made.

  Main results:
    * `Jobs.outcome_of_stuck`
    * `Jobs.results_of_success`
    * `Jobs.exists_unreported`
-/

namespace XLayerErigon.Concurrent

open Relation

/-
  The tasks not handed out, those that wait, those a worker has taken, how many workers have left,
  the errors nobody has looked at, and what is finished.
-/
structure Jobs (τ ρ ε : Type) where
  unsent : List τ
  queue : List τ
  running : List τ
  gone : Nat
  errors : List ε
  results : List (τ × ρ)
  outcome : Option (Except ε (List (τ × ρ)))

namespace Jobs

variable {τ ρ ε : Type}

def start (tasks : List τ) : Jobs τ ρ ε := ⟨tasks, [], [], 0, [], [], none⟩

/- One action of one party, until there is an outcome. -/
inductive Step (workers : Nat) (fatal : ε → Bool) (work : τ → Except ε ρ) :
    Jobs τ ρ ε → Jobs τ ρ ε → Prop where
  | send (task : τ) (unsent queue running : List τ) (gone : Nat) (results : List (τ × ρ)) :
      Step workers fatal work ⟨task :: unsent, queue, running, gone, [], results, none⟩
        ⟨unsent, queue ++ [task], running, gone, [], results, none⟩
  | giveUp (task : τ) (unsent queue running : List τ) (gone : Nat) (e : ε) (errors : List ε)
      (results : List (τ × ρ)) :
      Step workers fatal work ⟨task :: unsent, queue, running, gone, e :: errors, results, none⟩
        ⟨task :: unsent, queue, running, gone, errors, results, some (.error e)⟩
  | take (task : τ) (unsent queue running : List τ) (gone : Nat) (errors : List ε)
      (results : List (τ × ρ)) (hIdle : running.length + gone < workers) :
      Step workers fatal work ⟨unsent, task :: queue, running, gone, errors, results, none⟩
        ⟨unsent, queue, task :: running, gone, errors, results, none⟩
  | finish (task : τ) (result : ρ) (unsent queue before after : List τ) (gone : Nat)
      (errors : List ε) (results : List (τ × ρ)) (hWork : work task = .ok result) :
      Step workers fatal work ⟨unsent, queue, before ++ task :: after, gone, errors, results, none⟩
        ⟨unsent, queue, before ++ after, gone, errors, results ++ [(task, result)], none⟩
  | fail (task : τ) (e : ε) (unsent queue before after : List τ) (gone : Nat) (errors : List ε)
      (results : List (τ × ρ)) (hWork : work task = .error e) (hFatal : fatal e = false) :
      Step workers fatal work ⟨unsent, queue, before ++ task :: after, gone, errors, results, none⟩
        ⟨unsent, queue, before ++ after, gone + 1, errors ++ [e], results, none⟩
  | crash (task : τ) (e : ε) (unsent queue before after : List τ) (gone : Nat) (errors : List ε)
      (results : List (τ × ρ)) (hWork : work task = .error e) (hFatal : fatal e = true) :
      Step workers fatal work ⟨unsent, queue, before ++ task :: after, gone, errors, results, none⟩
        ⟨unsent, queue, before ++ after, gone, errors, results, some (.error e)⟩
  | finished (queue : List τ) (gone : Nat) (errors : List ε) (results : List (τ × ρ))
      (hWorkers : queue = [] ∨ workers ≤ gone) :
      Step workers fatal work ⟨[], queue, [], gone, errors, results, none⟩
        ⟨[], queue, [], gone, errors, results, some (.ok results)⟩

variable {workers : Nat} {fatal : ε → Bool} {work : τ → Except ε ρ}

-- Every Schedule Ends

def size (jobs : Jobs τ ρ ε) : Nat := 3 * jobs.unsent.length + 2 * jobs.queue.length +
    jobs.running.length + (if jobs.outcome.isSome then 0 else 1)

variable {outcome : Except ε (List (τ × ρ))} {jobs next : Jobs τ ρ ε}

theorem Step.size_lt (hStep : Step workers fatal work jobs next) : next.size < jobs.size := by
  cases hStep with
  | send =>
    simp only [size, List.length_append, List.length_cons, List.length_nil]
    omega
  | giveUp => simp [size]
  | take =>
    simp only [size, List.length_cons]
    omega
  | finish => simp [size]
  | fail => simp [size]
  | crash =>
    simp only [size, List.length_append, List.length_cons, Option.isSome, if_true]
    omega
  | finished => simp [size]

theorem stuck_of_outcome {jobs : Jobs τ ρ ε} (hOutcome : jobs.outcome = some outcome) :
    Stuck (Step workers fatal work) jobs := by
  intro next hStep
  cases hStep <;> cases hOutcome

/- Nobody waits for ever: a run ends with an outcome. -/
theorem outcome_of_stuck {jobs : Jobs τ ρ ε} (hStuck : Stuck (Step workers fatal work) jobs) :
    ∃ outcome, jobs.outcome = some outcome := by
  rcases jobs with ⟨unsent, queue, running, gone, errors, results, outcome⟩
  cases outcome with
  | some outcome => exact ⟨outcome, rfl⟩
  | none =>
    exfalso
    cases running with
    | cons task rest =>
      cases hWork : work task with
      | ok result =>
        exact hStuck _ (.finish task result unsent queue [] rest gone errors results hWork)
      | error e =>
        cases hFatal : fatal e with
        | false =>
          exact hStuck _ (.fail task e unsent queue [] rest gone errors results hWork hFatal)
        | true =>
          exact hStuck _ (.crash task e unsent queue [] rest gone errors results hWork hFatal)
    | nil =>
      cases unsent with
      | cons task rest =>
        cases errors with
        | nil => exact hStuck _ (.send task rest queue [] gone results)
        | cons e errors => exact hStuck _ (.giveUp task rest queue [] gone e errors results)
      | nil =>
        by_cases hLeft : queue = [] ∨ workers ≤ gone
        · exact hStuck _ (.finished queue gone errors results hLeft)
        · push Not at hLeft
          cases queue with
          | nil => exact hLeft.1 rfl
          | cons task rest =>
            exact hStuck _ (.take task [] rest [] gone errors results (by simpa using hLeft.2))

-- When All Tasks Succeed

/-
  No error, and every task is under way or finished with its result; at the end all are finished.
-/
structure Successful (work : τ → Except ε ρ) (tasks : List τ) (jobs : Jobs τ ρ ε) : Prop where
  errors : jobs.errors = []
  gone : jobs.gone = 0
  tally : (jobs.results.map Prod.fst ++ (jobs.running ++ (jobs.queue ++ jobs.unsent))).Perm tasks
  results : ∀ done ∈ jobs.results, work done.1 = .ok done.2
  outcome : ∀ o, jobs.outcome = some o →
    o = .ok jobs.results ∧ (jobs.results.map Prod.fst).Perm tasks

theorem Successful.step (hWorkers : 0 < workers) {tasks : List τ}
    (hWork : ∀ task ∈ tasks, ∃ result, work task = .ok result)
    (hSuccess : Successful work tasks jobs) (hStep : Step workers fatal work jobs next) :
    Successful work tasks next := by
  rcases hSuccess with ⟨hErrors, hGone, hTally, hResults, hOutcome⟩
  cases hStep with
  | send task unsent queue running gone results =>
    refine ⟨rfl, hGone, ?_, hResults, by simp⟩
    simpa using hTally
  | giveUp task unsent queue running gone e errors results =>
    cases hErrors
  | take task unsent queue running gone errors results =>
    refine ⟨hErrors, hGone, ?_, hResults, by simp⟩
    refine List.Perm.trans ?_ hTally
    refine List.Perm.append_left _ ?_
    simp only [List.cons_append]
    exact List.perm_middle.symm
  | finish task result unsent queue before after gone errors results hDone =>
    refine ⟨hErrors, hGone, ?_, ?_, by simp⟩
    · refine List.Perm.trans ?_ hTally
      simp only [List.map_append, List.append_assoc,
        List.cons_append, List.map_cons, List.map_nil, List.nil_append]
      refine List.Perm.append_left _ ?_
      exact List.perm_middle.symm
    · intro done hMem
      rcases List.mem_append.mp hMem with hOld | hNew
      · exact hResults done hOld
      · rw [List.mem_singleton] at hNew
        subst hNew
        exact hDone
  | fail task e unsent queue before after gone errors results hFails =>
    have hMem : task ∈ tasks := hTally.mem_iff.mp (by simp)
    rcases hWork task hMem with ⟨result, hOk⟩
    cases hFails.symm.trans hOk
  | crash task e unsent queue before after gone errors results hFails =>
    have hMem : task ∈ tasks := hTally.mem_iff.mp (by simp)
    rcases hWork task hMem with ⟨result, hOk⟩
    cases hFails.symm.trans hOk
  | finished queue gone errors results hLeft =>
    have hQueue : queue = [] := by
      rcases hLeft with hEmpty | hAllGone
      · exact hEmpty
      · simp only at hGone
        omega
    subst hQueue
    refine ⟨hErrors, hGone, hTally, hResults, ?_⟩
    intro o hSome
    cases hSome
    exact ⟨rfl, by simpa using hTally⟩

/- Every schedule then returns the results of all tasks. -/
theorem results_of_success (hWorkers : 0 < workers) {tasks : List τ}
    (hWork : ∀ task ∈ tasks, ∃ result, work task = .ok result) {final : Jobs τ ρ ε}
    (hRun : ReflTransGen (Step workers fatal work) (start tasks) final)
    (hOutcome : final.outcome = some outcome) :
    ∃ results, outcome = .ok results ∧
      (results.map Prod.fst).Perm tasks ∧ ∀ done ∈ results, work done.1 = .ok done.2 := by
  have hStart : Successful work tasks (start tasks : Jobs τ ρ ε) :=
    ⟨rfl, rfl, by simp [start], by simp [start], by simp [start]⟩
  have hFinal : Successful work tasks final :=
    kept_of_step (fun _ _ hStep hBefore => hBefore.step hWorkers hWork hStep) hRun hStart
  rcases hFinal.outcome outcome hOutcome with ⟨rfl, hPerm⟩
  exact ⟨final.results, rfl, hPerm, hFinal.results⟩

/- All tasks handed out before any worker acts. -/
theorem sendAll (unsent queue : List τ) :
    ReflTransGen (Step workers fatal work) (⟨unsent, queue, [], 0, [], [], none⟩ : Jobs τ ρ ε)
      ⟨[], queue ++ unsent, [], 0, [], [], none⟩ := by
  induction unsent generalizing queue with
  | nil => rw [List.append_nil]
  | cons task unsent ih =>
    refine ReflTransGen.head (.send task unsent queue [] 0 []) ?_
    simpa using ih (queue ++ [task])

/- With nothing to hand out, no error is looked at. -/
def Unreported (fatal : ε → Bool) (jobs : Jobs τ ρ ε) : Prop :=
  jobs.unsent = [] ∧ ∀ e, jobs.outcome = some (.error e) → fatal e = true

theorem Unreported.step (hUnreported : Unreported fatal jobs)
    (hStep : Step workers fatal work jobs next) : Unreported fatal next := by
  rcases hUnreported with ⟨hUnsent, _⟩
  cases hStep with
  | send => cases hUnsent
  | giveUp => cases hUnsent
  | take => exact ⟨hUnsent, by simp⟩
  | finish => exact ⟨hUnsent, by simp⟩
  | fail => exact ⟨hUnsent, by simp⟩
  | crash task e unsent queue before after gone errors results hWork hFatal =>
    refine ⟨hUnsent, fun other hSome => ?_⟩
    cases hSome
    exact hFatal
  | finished => exact ⟨rfl, by simp⟩

/-
  Whatever fails, there is a schedule that ends without an error being returned, unless the error
  is fatal.
-/
theorem exists_unreported (workers : Nat) (fatal : ε → Bool) (work : τ → Except ε ρ)
    (tasks : List τ) :
    ∃ final : Jobs τ ρ ε, ReflTransGen (Step workers fatal work) (start tasks) final ∧
      Stuck (Step workers fatal work) final ∧
      ∀ e, final.outcome = some (.error e) → fatal e = true := by
  rcases exists_stuck size
      (fun jobs next (hStep : Step workers fatal work jobs next) => hStep.size_lt)
      ⟨[], tasks, [], 0, [], [], none⟩
    with ⟨final, hRun, hStuck⟩
  have hStart : Unreported fatal (⟨[], tasks, [], 0, [], [], none⟩ : Jobs τ ρ ε) := ⟨rfl, by simp⟩
  have hFinal : Unreported fatal final :=
    kept_of_step (fun _ _ hStep hBefore => hBefore.step hStep) hRun hStart
  exact ⟨final, (sendAll tasks []).trans hRun, hStuck, hFinal.2⟩

end Jobs

end XLayerErigon.Concurrent
