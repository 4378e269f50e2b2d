import XLayerErigon.Go

/-
  The loop that looks for new blocks of the L1 and sends their logs to a channel.

  A cycle cuts the new blocks into ranges, workers fetch the ranges, and what they return is
  forwarded in the order in which it comes.  The height that counts as checked moves when a cycle
  returns no error, which it also does when it is broken off.

  Main results:
    * `fetchJobs_perm`
    * `delivers_step`
    * `logs_sent_once`
-/

namespace XLayerErigon.L1Syncer

open Relation

-- The L1

/- A log of the contracts and topics asked for, by its place. -/
structure Log where
  blockNumber : Nat
  index : Nat
  deriving DecidableEq

structure History where
  logs : List Log
  nodup : logs.Nodup

/- The answer to a query for a range of blocks. -/
def History.filterLogs (history : History) (low high : Nat) : List Log :=
  history.logs.filter fun log => decide (low ≤ log.blockNumber ∧ log.blockNumber ≤ high)

structure FetchJob where
  low : Nat
  high : Nat

def History.logsOf (history : History) (job : FetchJob) : List Log :=
  history.filterLogs job.low job.high

/- The ranges of a cycle; the block numbers are unsigned. -/
def fetchJobs (blockRange latestL1Block : Nat) : Nat → Nat → Option (List FetchJob)
  | 0, _ => none
  | fuel + 1, low =>
      let next := (low + blockRange) % 2 ^ 64
      let high := if next > latestL1Block then latestL1Block else next
      if high = latestL1Block then some [⟨low, high⟩]
      else
        (fetchJobs blockRange latestL1Block fuel ((low + blockRange + 1) % 2 ^ 64)).map
          (⟨low, high⟩ :: ·)

-- The Workers

/- The logs of the range, or an error. -/
structure JobResult where
  job : FetchJob
  failed : Bool

/-
  A cycle: the ranges nobody has taken, those being fetched with the number of failed queries, the
  workers that have left, the results in the channel and those already received.
-/
structure Cycle where
  latestL1Block : Nat
  fetches : Nat
  jobs : List FetchJob
  running : List (FetchJob × Nat)
  gone : Nat
  results : List JobResult
  received : List FetchJob

def batchWorkers : Nat := 2

/- One action of a worker of `getSequencedLogs`. -/
inductive Cycle.Works (getLogsRetries : Nat) : Cycle → Cycle → Prop
  | take (c : Cycle) (job : FetchJob) (jobs : List FetchJob)
      (hIdle : c.running.length + c.gone < batchWorkers) :
      Works getLogsRetries { c with jobs := job :: jobs }
        { c with jobs := jobs, running := (job, 0) :: c.running }
  | retry (c : Cycle) (before after : List (FetchJob × Nat)) (job : FetchJob) (retry : Nat)
      (hRetry : retry + 1 < getLogsRetries) :
      Works getLogsRetries { c with running := before ++ (job, retry) :: after }
        { c with running := before ++ (job, retry + 1) :: after }
  | fail (c : Cycle) (before after : List (FetchJob × Nat)) (job : FetchJob) (retry : Nat)
      (hRetry : getLogsRetries ≤ retry + 1) :
      Works getLogsRetries { c with running := before ++ (job, retry) :: after }
        { c with
          running := before ++ after
          gone := c.gone + 1
          results := c.results ++ [⟨job, true⟩] }
  | answer (c : Cycle) (before after : List (FetchJob × Nat)) (job : FetchJob) (retry : Nat) :
      Works getLogsRetries { c with running := before ++ (job, retry) :: after }
        { c with running := before ++ after, results := c.results ++ [⟨job, false⟩] }

-- The Loop

/- `sent` is what went to the channel of the logs. -/
structure Syncer where
  lastCheckedL1Block : Nat
  flagStop : Bool
  sent : List Log
  cycle : Option Cycle

/- The loop as `RunQueryBlocks` starts it. -/
def Syncer.run (lastCheckedBlock : Nat) : Syncer := ⟨lastCheckedBlock, false, [], none⟩

inductive Event where
  | stop
  | latest (latestL1Block : Nat)
  | work
  | result (r : JobResult)
  | cancel

/- A cycle without an error moves the checked height. -/
def Syncer.endCycle (s : Syncer) (c : Cycle) : Syncer :=
  { s with lastCheckedL1Block := c.latestL1Block, cycle := none }

def Syncer.receive (history : History) (s : Syncer) (c : Cycle) (r : JobResult)
    (rest : List JobResult) : Syncer :=
  if s.flagStop then s.endCycle c
  else if r.failed then { s with cycle := none }
  else
    let c := { c with results := rest, received := r.job :: c.received }
    let s := { s with sent := s.sent ++ history.logsOf r.job, cycle := some c }
    if c.received.length = c.fetches then s.endCycle c else s

inductive Syncer.Step (history : History) (blockRange getLogsRetries : Nat) :
    Syncer → Event → Syncer → Prop
  | stop (s : Syncer) : Step history blockRange getLogsRetries s .stop { s with flagStop := true }
  | begin (s : Syncer) (latestL1Block fuel : Nat) (jobs : List FetchJob)
      (hFlag : s.flagStop = false) (hNone : s.cycle = none)
      (hNew : s.lastCheckedL1Block < latestL1Block)
      (hJobs : fetchJobs blockRange latestL1Block fuel ((s.lastCheckedL1Block + 1) % 2 ^ 64) =
        some jobs) :
      Step history blockRange getLogsRetries s (.latest latestL1Block)
        { s with cycle := some ⟨latestL1Block, jobs.length, jobs, [], 0, [], []⟩ }
  | work (s : Syncer) (c next : Cycle) (hCycle : s.cycle = some c)
      (hWorks : c.Works getLogsRetries next) :
      Step history blockRange getLogsRetries s .work { s with cycle := some next }
  | result (s : Syncer) (c : Cycle) (r : JobResult) (rest : List JobResult)
      (hCycle : s.cycle = some c) (hResults : c.results = r :: rest) :
      Step history blockRange getLogsRetries s (.result r) (s.receive history c r rest)
  | cancel (s : Syncer) (c : Cycle) (hCycle : s.cycle = some c) :
      Step history blockRange getLogsRetries s .cancel (s.endCycle c)

/- The runs all of whose steps meet the condition. -/
def Syncer.Reaches (history : History) (blockRange getLogsRetries : Nat)
    (condition : Syncer → Event → Prop) : Syncer → Syncer → Prop :=
  ReflTransGen fun s t =>
    ∃ event, condition s event ∧ Syncer.Step history blockRange getLogsRetries s event t

/-
  No cycle is broken off, a query fails for good only while nothing of its cycle is sent, and no
  block number overflows.
-/
def Undisturbed (history : History) (blockRange : Nat) (s : Syncer) : Event → Prop
  | .latest latestL1Block => latestL1Block + blockRange < 2 ^ 64
  | .result r =>
      s.flagStop = false ∧
        (r.failed = true → ∀ c ∈ s.cycle, ∀ job ∈ c.received, history.logsOf job = [])
  | .cancel => False
  | _ => True

-- The Ranges of a Cycle

variable (history : History)

theorem nodup_filterLogs (low high : Nat) : (history.filterLogs low high).Nodup :=
  history.nodup.filter _

theorem mem_filterLogs {low high : Nat} {log : Log} : log ∈ history.filterLogs low high ↔
      log ∈ history.logs ∧ low ≤ log.blockNumber ∧ log.blockNumber ≤ high := by
  simp [History.filterLogs]

theorem filterLogs_perm_append {low mid high : Nat} (hLow : low ≤ mid + 1) (hHigh : mid ≤ high) :
    (history.filterLogs low mid ++ history.filterLogs (mid + 1) high).Perm
      (history.filterLogs low high) := by
  refine (List.perm_ext_iff_of_nodup ?_ (nodup_filterLogs history low high)).mpr fun log => ?_
  · refine List.nodup_append.mpr ⟨nodup_filterLogs .., nodup_filterLogs .., ?_⟩
    rintro log hFirst _ hSecond rfl
    have hLe := ((mem_filterLogs history).mp hFirst).2.2
    have hGe := ((mem_filterLogs history).mp hSecond).2.1
    omega
  · simp only [List.mem_append, mem_filterLogs]
    grind

/- The ranges of a cycle hold every log of the new blocks once. -/
theorem fetchJobs_perm {blockRange latestL1Block fuel low : Nat} {jobs : List FetchJob}
    (hSmall : latestL1Block + blockRange < 2 ^ 64) (hLow : low ≤ latestL1Block)
    (hJobs : fetchJobs blockRange latestL1Block fuel low = some jobs) :
    (jobs.flatMap history.logsOf).Perm (history.filterLogs low latestL1Block) := by
  induction fuel generalizing low jobs with
  | zero => cases hJobs
  | succ fuel ih =>
    have hNext : (low + blockRange) % 2 ^ 64 = low + blockRange := Nat.mod_eq_of_lt (by omega)
    simp only [fetchJobs, hNext] at hJobs
    by_cases hLast : latestL1Block ≤ low + blockRange
    · have hHigh :
          (if low + blockRange > latestL1Block then latestL1Block else low + blockRange) =
            latestL1Block := by
        split <;> omega
      rw [hHigh, if_pos rfl] at hJobs
      cases hJobs
      simp [History.logsOf]
    · rw [if_neg (by omega : ¬ low + blockRange > latestL1Block), if_neg (by omega),
        Nat.mod_eq_of_lt (by omega)] at hJobs
      rcases Option.map_eq_some_iff.mp hJobs with ⟨rest, hRest, rfl⟩
      refine ((ih (by omega) hRest).append_left _).trans ?_
      exact @filterLogs_perm_append history low (low + blockRange) latestL1Block (by omega)
        (by omega)

-- The Invariant

def Cycle.ranges (c : Cycle) : List FetchJob :=
  c.jobs ++ c.running.map Prod.fst ++ c.results.map (·.job) ++ c.received

def Syncer.received (s : Syncer) : List FetchJob := (s.cycle.map Cycle.received).getD []

/- The ranges of a cycle are all there and hold the logs of the blocks above `checked`. -/
structure Cycle.Whole (history : History) (checked : Nat) (c : Cycle) : Prop where
  new : checked < c.latestL1Block
  fetches : c.ranges.length = c.fetches
  logs : (c.ranges.flatMap history.logsOf).Perm (history.filterLogs (checked + 1) c.latestL1Block)

/- What was sent are the logs of the checked blocks and of the ranges received since. -/
structure Delivers (history : History) (start : Nat) (s : Syncer) : Prop where
  start_le : start ≤ s.lastCheckedL1Block
  sent : s.sent.Perm (history.filterLogs (start + 1) s.lastCheckedL1Block ++
    s.received.flatMap history.logsOf)
  whole : ∀ c ∈ s.cycle, c.Whole history s.lastCheckedL1Block

theorem perm_of_moved {α : Type} (xs before after ys zs : List α) (a : α) :
    (xs ++ (before ++ after) ++ (ys ++ [a]) ++ zs).Perm
      (xs ++ (before ++ a :: after) ++ ys ++ zs) := by
  classical
  refine List.perm_iff_count.mpr fun b => ?_
  simp only [List.count_append, List.count_cons, List.count_nil]
  omega

/- Workers only move ranges. -/
theorem ranges_perm_of_works {getLogsRetries : Nat} {c next : Cycle}
    (hWorks : c.Works getLogsRetries next) :
    next.ranges.Perm c.ranges ∧ next.latestL1Block = c.latestL1Block ∧
      next.fetches = c.fetches ∧ next.received = c.received := by
  cases hWorks with
  | take c job jobs hIdle =>
    refine ⟨?_, rfl, rfl, rfl⟩
    simp [Cycle.ranges, List.append_assoc, List.perm_middle]
  | retry c before after job retry hRetry => simp [Cycle.ranges]
  | fail c before after job retry hRetry =>
    refine ⟨?_, rfl, rfl, rfl⟩
    simpa [Cycle.ranges] using perm_of_moved c.jobs (before.map Prod.fst) (after.map Prod.fst)
      (c.results.map (·.job)) c.received job
  | answer c before after job retry =>
    refine ⟨?_, rfl, rfl, rfl⟩
    simpa [Cycle.ranges] using perm_of_moved c.jobs (before.map Prod.fst) (after.map Prod.fst)
      (c.results.map (·.job)) c.received job

section

variable {start : Nat} {s : Syncer} (hDelivers : Delivers history start s)

include hDelivers

theorem Delivers.nodup : s.sent.Nodup := by
  refine hDelivers.sent.nodup_iff.mpr ?_
  cases hCycle : s.cycle with
  | none => simpa [Syncer.received, hCycle] using nodup_filterLogs history _ _
  | some c =>
    have hWhole := hDelivers.whole c hCycle
    have hAll := (hWhole.logs.append_left _).trans
      (filterLogs_perm_append history (Nat.succ_le_succ hDelivers.start_le)
        (Nat.le_of_lt hWhole.new))
    refine List.Nodup.sublist ?_ (hAll.nodup_iff.mpr (nodup_filterLogs ..))
    simp only [Syncer.received, hCycle, Option.map_some, Option.getD_some, Cycle.ranges,
      List.flatMap_append]
    exact (List.sublist_append_right _ _).append_left _

/- A result that is not an error is forwarded; the last one ends the cycle. -/
theorem delivers_receive {c : Cycle} {r : JobResult}
    {rest : List JobResult} (hCycle : s.cycle = some c)
    (hResults : c.results = r :: rest) (hFlag : s.flagStop = false) (hGood : r.failed = false) :
    Delivers history start (s.receive history c r rest) := by
  rcases hDelivers with ⟨hStart, hSent, hWhole⟩
  rcases hWhole c hCycle with ⟨hNew, hFetches, hLogs⟩
  simp only [Syncer.received, hCycle, Option.map_some, Option.getD_some] at hSent
  have hSentNow : (s.sent ++ history.logsOf r.job).Perm
      (history.filterLogs (start + 1) s.lastCheckedL1Block ++
        (r.job :: c.received).flatMap history.logsOf) := by
    refine (hSent.append_right _).trans ?_
    rw [List.append_assoc]
    exact (List.perm_append_comm).append_left _
  have hRanges : c.ranges =
      c.jobs ++ c.running.map Prod.fst ++ (r.job :: rest.map (·.job)) ++ c.received := by
    simp [Cycle.ranges, hResults]
  have hMoved : (c.jobs ++ c.running.map Prod.fst ++ rest.map (·.job) ++
      (r.job :: c.received)).Perm c.ranges := by
    rw [hRanges]
    simp only [List.append_assoc]
    exact (List.perm_middle.append_left _).append_left _
  simp only [Syncer.receive, hFlag, hGood, Bool.false_eq_true, if_false]
  by_cases hLast : (r.job :: c.received).length = c.fetches
  · rw [if_pos hLast]
    -- nothing is left outside of the received ranges
    have hEmpty : c.jobs ++ c.running.map Prod.fst ++ rest.map (·.job) = [] := by
      refine List.length_eq_zero_iff.mp ?_
      have hLength := hMoved.length_eq
      rw [List.length_append, hFetches] at hLength
      omega
    rw [hEmpty, List.nil_append] at hMoved
    refine ⟨Nat.le_trans hStart (Nat.le_of_lt hNew), ?_, by simp [Syncer.endCycle]⟩
    simp only [Syncer.endCycle, Syncer.received, Option.map_none, Option.getD_none,
      List.flatMap_nil, List.append_nil]
    refine hSentNow.trans ((((hMoved.flatMap_right _).trans hLogs).append_left _).trans ?_)
    exact filterLogs_perm_append history (Nat.succ_le_succ hStart) (Nat.le_of_lt hNew)
  · rw [if_neg hLast]
    refine ⟨hStart, by simpa [Syncer.received] using hSentNow, ?_⟩
    rintro _ ⟨⟩
    exact ⟨hNew, hMoved.length_eq.trans hFetches, (hMoved.flatMap_right _).trans hLogs⟩

/- A cycle that fails before anything was sent leaves no trace. -/
theorem delivers_failed (hNothing : ∀ c ∈ s.cycle, ∀ job ∈ c.received, history.logsOf job = []) :
    Delivers history start { s with cycle := none } := by
  refine ⟨hDelivers.start_le, ?_, by simp⟩
  have hEmpty : s.received.flatMap history.logsOf = [] := by
    refine List.flatMap_eq_nil_iff.mpr fun job hJob => ?_
    cases hCycle : s.cycle with
    | none => simp [Syncer.received, hCycle] at hJob
    | some c => exact hNothing c hCycle job (by simpa [Syncer.received, hCycle] using hJob)
  have hSent := hDelivers.sent
  rw [hEmpty] at hSent
  simpa [Syncer.received] using hSent

theorem delivers_step {blockRange getLogsRetries : Nat} {t : Syncer} {event : Event}
    (hCondition : Undisturbed history blockRange s event)
    (hStep : Syncer.Step history blockRange getLogsRetries s event t) :
    Delivers history start t := by
  rcases hDelivers with ⟨hStart, hSent, hWhole⟩
  cases hStep with
  | stop => exact ⟨hStart, hSent, hWhole⟩
  | begin latestL1Block fuel jobs hFlag hNone hNew hJobs =>
    refine ⟨hStart, by simpa [Syncer.received, hNone] using hSent, ?_⟩
    rintro _ ⟨⟩
    rw [Nat.mod_eq_of_lt (by have := hCondition; simp only [Undisturbed] at this; omega)] at hJobs
    refine ⟨hNew, by simp [Cycle.ranges], ?_⟩
    simpa [Cycle.ranges] using fetchJobs_perm history hCondition hNew hJobs
  | work c next hCycle hWorks =>
    rcases ranges_perm_of_works hWorks with ⟨hRanges, hLatest, hFetches, hReceived⟩
    rcases hWhole c hCycle with ⟨hNew, hLength, hLogs⟩
    refine ⟨hStart, ?_, ?_⟩
    · simpa [Syncer.received, hCycle, hReceived] using hSent
    · rintro _ ⟨⟩
      refine ⟨hLatest ▸ hNew, ?_, ?_⟩
      · rw [hRanges.length_eq, hLength, hFetches]
      · rw [hLatest]
        exact (hRanges.flatMap_right _).trans hLogs
  | result c r rest hCycle hResults =>
    cases hFailed : r.failed with
    | false =>
      exact delivers_receive history ⟨hStart, hSent, hWhole⟩ hCycle hResults hCondition.1 hFailed
    | true =>
      have hReceive : s.receive history c r rest = { s with cycle := none } := by
        simp [Syncer.receive, hCondition.1, hFailed]
      rw [hReceive]
      exact delivers_failed history ⟨hStart, hSent, hWhole⟩ (hCondition.2 hFailed)
  | cancel => exact hCondition.elim

end

/-
  In a run that is not disturbed every log is sent at most once, and once a height counts as
  checked all logs of the blocks up to it are sent.
-/
theorem logs_sent_once (blockRange getLogsRetries start : Nat) (s : Syncer)
    (hRun : Syncer.Reaches history blockRange getLogsRetries (Undisturbed history blockRange)
      (.run start) s) :
    s.sent.Nodup ∧ ∀ log ∈ history.logs, start < log.blockNumber →
      log.blockNumber ≤ s.lastCheckedL1Block → log ∈ s.sent := by
  have hDelivers : Delivers history start s := by
    induction hRun with
    | refl =>
      refine ⟨Nat.le_refl start, ?_, by simp [Syncer.run]⟩
      have hNothing : history.filterLogs (start + 1) start = [] := by
        refine List.filter_eq_nil_iff.mpr fun log _ => ?_
        simp only [decide_eq_true_eq]
        omega
      simp [Syncer.run, Syncer.received, hNothing]
    | tail _ hLast ih =>
      rcases hLast with ⟨event, hCondition, hStep⟩
      exact delivers_step history ih hCondition hStep
  refine ⟨hDelivers.nodup, fun log hLog hAbove hChecked => ?_⟩
  refine hDelivers.sent.symm.subset (List.mem_append_left _ ?_)
  exact (mem_filterLogs history).mpr ⟨hLog, hAbove, hChecked⟩

def sampleLog : Log := ⟨1, 0⟩

def sampleHistory : History := ⟨[sampleLog], by decide⟩

/- The cycle for the blocks up to `latest`, one block a range, when its worker has the result. -/
def sampleCycle (latest : Nat) (jobs : List FetchJob) (results : List JobResult) : Cycle :=
  ⟨latest, latest, jobs, [], 0, results, []⟩

theorem sample_fetched (condition : Syncer → Event → Prop) {s : Syncer} {l : Nat}
    {jobs : List FetchJob} (hFlag : s.flagStop = false) (hNone : s.cycle = none)
    (hChecked : s.lastCheckedL1Block = 0) (hLatest : 0 < l)
    (hJobs : fetchJobs 0 l (l + 1) 1 = some (⟨1, 1⟩ :: jobs))
    (hLength : jobs.length + 1 = l) (hBegin : condition s (.latest l))
    (hWork : ∀ t, condition t .work) :
    Syncer.Reaches sampleHistory 0 1 condition s
      { s with cycle := some (sampleCycle l jobs [⟨⟨1, 1⟩, false⟩]) } := by
  subst hLength
  refine .head ⟨_, hBegin, .begin s _ _ _ hFlag hNone (by omega) (by rw [hChecked]; exact hJobs)⟩ ?_
  refine .head ⟨_, hWork _, .work _ _ _ rfl (.take (sampleCycle _ jobs []) ⟨1, 1⟩ jobs ?_)⟩ ?_
  · exact Nat.zero_lt_two
  · exact .single ⟨_, hWork _, .work _ _ _ rfl (.answer (sampleCycle _ jobs []) [] [] ⟨1, 1⟩ 0)⟩

theorem logs_sent_once_first :
    ∃ s, Syncer.Reaches sampleHistory 0 1 (Undisturbed sampleHistory 0) (.run 0) s ∧
      s.lastCheckedL1Block = 1 ∧ s.sent.Nodup ∧ sampleLog ∈ s.sent := by
  have hRun := (sample_fetched (Undisturbed sampleHistory 0) (s := .run 0) (l := 1) rfl rfl rfl
    (by decide) rfl rfl (by simp [Undisturbed]) fun _ => trivial).tail
    ⟨.result ⟨⟨1, 1⟩, false⟩, ⟨rfl, by simp⟩, .result _ (sampleCycle 1 [] _) _ [] rfl rfl⟩
  have hOnce := logs_sent_once sampleHistory 0 1 0 _ hRun
  exact ⟨_, hRun, rfl, hOnce.1, hOnce.2 sampleLog (by decide) (by decide) (by decide)⟩

/-
  A cycle that fails after it sent a log sends it again in the next cycle, and a cancelled cycle
  counts its blocks as checked.
-/
theorem failed_cycle_sends_again :
    (∃ s, Syncer.Reaches sampleHistory 0 1 (fun _ _ => True) (.run 0) s ∧ ¬ s.sent.Nodup) ∧
      ∃ s, Syncer.Reaches sampleHistory 0 1 (fun _ _ => True) (.run 0) s ∧
        s.lastCheckedL1Block = 1 ∧ sampleLog ∉ s.sent := by
  have hFirst := (sample_fetched (fun _ _ => True) (s := .run 0) (l := 2) rfl rfl rfl (by decide)
    rfl rfl trivial fun _ => trivial).tail
    ⟨_, trivial, .result _ (sampleCycle 2 [⟨2, 2⟩] _) _ [] rfl rfl⟩
  have hTaken := hFirst.tail ⟨_, trivial, .work _ _ _ rfl
    (.take ⟨2, 2, [], [], 0, [], [⟨1, 1⟩]⟩ ⟨2, 2⟩ [] (by decide))⟩
  have hFailed := hTaken.tail ⟨_, trivial, .work _ _ _ rfl
    (.fail ⟨2, 2, [], [], 0, [], [⟨1, 1⟩]⟩ [] [] ⟨2, 2⟩ 0 (by decide))⟩
  have hAgain := hFailed.tail ⟨_, trivial, .result _ _ ⟨⟨2, 2⟩, true⟩ [] rfl rfl⟩
  have hSecond := (hAgain.trans (sample_fetched (fun _ _ => True) (l := 1) rfl rfl rfl (by decide)
    rfl rfl trivial fun _ => trivial)).tail
    ⟨_, trivial, .result _ (sampleCycle 1 [] _) _ [] rfl rfl⟩
  have hCancelled := (sample_fetched (fun _ _ => True) (s := .run 0) (l := 1) rfl rfl rfl
    (by decide) rfl rfl trivial fun _ => trivial).tail ⟨_, trivial, .cancel _ _ rfl⟩
  exact ⟨⟨_, hSecond, by decide⟩, ⟨_, hCancelled, rfl, by decide⟩⟩

end XLayerErigon.L1Syncer
