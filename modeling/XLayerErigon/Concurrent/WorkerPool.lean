import Mathlib.Logic.Relation
import Mathlib.Data.List.Perm.Basic
import Mathlib.Data.List.Perm.Subperm

/-
  Workers that take tasks from one bounded channel and send what they make of them to another.

  A step is one action of one party, so a run is one interleaving.  Which task is finished when is
  left open.

  Main results:
    * `exists_stuck`
    * `Pool.stuck_done`
    * `Pool.results_perm`
-/

namespace XLayerErigon.Concurrent

open Relation

-- Steps and runs

section Runs

variable {σ : Type*} {step : σ → σ → Prop}

/- No party can act. -/
def Stuck (step : σ → σ → Prop) (s : σ) : Prop := ∀ t, ¬ step s t

/- What every step keeps holds at the end of a run. -/
theorem kept_of_step {P : σ → Prop} (hStep : ∀ s t, step s t → P s → P t) {s t : σ}
    (hRun : ReflTransGen step s t) (hStart : P s) : P t := by
  induction hRun with
  | refl => exact hStart
  | tail _ hLast ih => exact hStep _ _ hLast ih

/- Steps that make a number smaller come to an end. -/
theorem exists_stuck (size : σ → Nat) (hLess : ∀ s t, step s t → size t < size s) (s : σ) :
    ∃ t, ReflTransGen step s t ∧ Stuck step t := by
  induction hSize : size s using Nat.strongRecOn generalizing s with
  | ind n ih =>
    by_cases hNext : ∃ t, step s t
    · rcases hNext with ⟨t, hStep⟩
      rcases ih (size t) (hSize ▸ hLess s t hStep) t rfl with ⟨u, hRun, hStuck⟩
      exact ⟨u, hRun.head hStep, hStuck⟩
    · refine ⟨s, .refl, fun t hStep => ?_⟩
      exact hNext ⟨t, hStep⟩

theorem not_infinite (size : σ → Nat) (hLess : ∀ s t, step s t → size t < size s) :
    ¬ ∃ run : Nat → σ, ∀ n, step (run n) (run (n + 1)) := by
  rintro ⟨run, hRun⟩
  have hBound : ∀ n, size (run n) + n ≤ size (run 0) := by
    intro n
    induction n with
    | zero => simp
    | succ n ih =>
      have hNext := hLess _ _ (hRun n)
      omega
  have hLast := hBound (size (run 0) + 1)
  omega

end Runs

-- The pool

/-
  The tasks not sent yet, those in the channel, those a worker has taken, and the results in the
  other channel.
-/
structure Pool (τ ρ : Type*) where
  unsent : List τ
  queue : List τ
  running : List τ
  results : List ρ

namespace Pool

variable {τ ρ : Type*}

def start (tasks : List τ) : Pool τ ρ := ⟨tasks, [], [], []⟩

/- All tasks are sent and every worker has left its loop. -/
def Done (p : Pool τ ρ) : Prop := p.unsent = [] ∧ p.queue = [] ∧ p.running = []

/-
  One action.  Both channels hold at most `capacity` values; a party that would send to a full one
  waits.
-/
inductive Step (workers capacity : Nat) (work : τ → Option ρ) : Pool τ ρ → Pool τ ρ → Prop
  | send (task : τ) (unsent queue running : List τ) (results : List ρ)
      (hRoom : queue.length < capacity) :
      Step workers capacity work ⟨task :: unsent, queue, running, results⟩
        ⟨unsent, queue ++ [task], running, results⟩
  | take (task : τ) (unsent queue running : List τ) (results : List ρ)
      (hIdle : running.length < workers) :
      Step workers capacity work ⟨unsent, task :: queue, running, results⟩
        ⟨unsent, queue, task :: running, results⟩
  | finish (task : τ) (unsent queue before after : List τ) (results : List ρ)
      (hRoom : results.length + (work task).toList.length ≤ capacity) :
      Step workers capacity work ⟨unsent, queue, before ++ task :: after, results⟩
        ⟨unsent, queue, before ++ after, results ++ (work task).toList⟩

variable {workers capacity : Nat} {work : τ → Option ρ}

/- Every task is still to be sent, taken and finished. -/
def size (p : Pool τ ρ) : Nat := 3 * p.unsent.length + 2 * p.queue.length + p.running.length

theorem Step.size_lt {p q : Pool τ ρ} (hStep : Step workers capacity work p q) :
    q.size < p.size := by
  cases hStep with
  | send => simp [size]; omega
  | take => simp [size]; omega
  | finish => simp [size]

/- What is under way and what is finished. -/
def tally (work : τ → Option ρ) (p : Pool τ ρ) : List ρ :=
  p.results ++ (p.running ++ p.queue ++ p.unsent).filterMap work

theorem Step.tally_perm {p q : Pool τ ρ} (hStep : Step workers capacity work p q) :
    (q.tally work).Perm (p.tally work) := by
  cases hStep with
  | send => simp [tally]
  | take =>
    rename_i task unsent queue running results hIdle
    refine List.Perm.append_left _ ?_
    refine List.Perm.filterMap _ ?_
    simp only [List.append_assoc, List.cons_append]
    exact List.perm_middle.symm
  | finish =>
    rename_i task unsent queue before after results hRoom
    simp only [tally, List.append_assoc]
    refine List.Perm.append_left _ ?_
    have hMove : (before ++ (task :: after ++ (queue ++ unsent))).Perm
        (task :: (before ++ (after ++ (queue ++ unsent)))) :=
      List.perm_middle
    have hMap := hMove.filterMap work
    refine List.Perm.trans ?_ hMap.symm
    cases hWork : work task with
    | none => simp [hWork]
    | some result => simp [hWork]

theorem results_perm {tasks : List τ} {p : Pool τ ρ}
    (hRun : ReflTransGen (Step workers capacity work) (start tasks) p) (hDone : p.Done) :
    p.results.Perm (tasks.filterMap work) := by
  have hKept : (p.tally work).Perm ((start tasks).tally work) := by
    refine kept_of_step (P := fun q =>
      (q.tally work).Perm ((start tasks).tally work)) ?_ hRun (List.Perm.refl _)
    intro s t hStep hPerm
    exact hStep.tally_perm.trans hPerm
  rcases hDone with ⟨hUnsent, hQueue, hRunning⟩
  simpa [tally, start, hUnsent, hQueue, hRunning] using hKept

/- The channels have room for all tasks together. -/
def Fits (capacity : Nat) (p : Pool τ ρ) : Prop :=
  p.unsent.length + p.queue.length + p.running.length + p.results.length ≤ capacity

theorem Step.fits {p q : Pool τ ρ} (hStep : Step workers capacity work p q)
    (hFits : p.Fits capacity) : q.Fits capacity := by
  cases hStep with
  | send => simp [Fits] at hFits ⊢; omega
  | take => simp [Fits] at hFits ⊢; omega
  | finish =>
    rename_i task unsent queue before after results hRoom
    have hOne : (work task).toList.length ≤ 1 := by
      cases work task <;> simp
    simp only [Fits, List.length_append, List.length_cons] at hFits ⊢
    omega

/- With room for all tasks nobody waits for ever: while there is a task left, some party can act. -/
theorem stuck_done {tasks : List τ} {p : Pool τ ρ} (hWorkers : 0 < workers)
    (hRun : ReflTransGen (Step workers tasks.length work) (start tasks) p)
    (hStuck : Stuck (Step workers tasks.length work) p) : p.Done := by
  have hFits : p.Fits tasks.length := by
    refine kept_of_step (P := Fits tasks.length) (fun s t hStep => hStep.fits) hRun ?_
    simp [Fits, start]
  rcases p with ⟨unsent, queue, running, results⟩
  simp only [Fits] at hFits
  have hRunning : running = [] := by
    cases running with
    | nil => rfl
    | cons task rest =>
      have hOne : (work task).toList.length ≤ 1 := by
        cases work task <;> simp
      refine absurd (Step.finish task unsent queue [] rest results ?_) (hStuck _)
      simp only [List.length_cons] at hFits
      omega
  subst hRunning
  have hQueue : queue = [] := by
    cases queue with
    | nil => rfl
    | cons task rest => exact absurd (Step.take task unsent rest [] results hWorkers) (hStuck _)
  subst hQueue
  have hUnsent : unsent = [] := by
    cases unsent with
    | nil => rfl
    | cons task rest =>
      refine absurd (Step.send task rest [] [] results ?_) (hStuck _)
      simp only [List.length_cons] at hFits ⊢
      omega
  exact ⟨hUnsent, rfl, rfl⟩

/- Every pool comes to an end with all tasks done. -/
theorem exists_done (tasks : List τ) (hWorkers : 0 < workers) :
    ∃ p, ReflTransGen (Step workers tasks.length work) (start tasks) p ∧ p.Done := by
  have hLess : ∀ p q : Pool τ ρ, Step workers tasks.length work p q → q.size < p.size :=
    fun p q hStep => hStep.size_lt
  rcases exists_stuck size hLess (start tasks) with ⟨p, hRun, hStuck⟩
  exact ⟨p, hRun, stuck_done hWorkers hRun hStuck⟩

end Pool

end XLayerErigon.Concurrent
