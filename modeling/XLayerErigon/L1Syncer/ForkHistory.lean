import Mathlib.Data.List.Dedup
import XLayerErigon.Go

/-
  The fork of a batch, from the events of the L1.

  A row of the fork history is written for every log of a creation or an upgrade, in the order in
  which the logs are delivered.  The fork of a batch is that of the last row that applies, so it
  is the fork of the latest event on the L1 only as far as the logs came in that order.

  Main results:
    * `prepareForkId_ok`
    * `fork_choice_of_order`
-/

namespace XLayerErigon.L1Syncer

-- The Events and the Tables

inductive RollupEvent where
  | addNewRollupType (rollupType forkId verifierType : Nat)
  | createNewRollup (rollupId rollupType : Nat)
  | updateRollup (rollupId newRollup latestVerified : Nat)
  deriving DecidableEq

structure ForkLog where
  position : Nat
  event : RollupEvent
  deriving DecidableEq

/-
  The rollup types with their forks (0 if there is none), the pessimistic ones, the fork history,
  the forks of batches and the first blocks of forks.
-/
structure ForkDb where
  rollupTypesForks : Nat → Nat
  ppRollupTypes : Nat → Bool
  forkHistory : List (Nat × Nat)
  forkIds : Nat → Nat
  forkIdBlock : Nat → Option Nat

namespace ForkDb

def writeNewForkHistory (db : ForkDb) (forkId lastVerifiedBatch : Nat) : ForkDb :=
  { db with forkHistory := db.forkHistory ++ [(forkId, lastVerifiedBatch)] }

def writeForkIdBlockOnce (db : ForkDb) (forkId block : Nat) : ForkDb := { db with
    forkIdBlock :=
      Function.update db.forkIdBlock forkId (some ((db.forkIdBlock forkId).getD block)) }

end ForkDb

/- A log of the stage; events of other rollups are passed over. -/
def processLog (l1RollupId : Nat) (db : ForkDb) (log : ForkLog) : Except Failure ForkDb :=
  match log.event with
  | .addNewRollupType rollupType forkId verifierType =>
    if verifierType = 0 then
      .ok { db with rollupTypesForks := Function.update db.rollupTypesForks rollupType forkId }
    else .ok { db with ppRollupTypes := Function.update db.ppRollupTypes rollupType true }
  | .createNewRollup rollupId rollupType =>
    if rollupId ≠ l1RollupId then .ok db
    else .ok (db.writeNewForkHistory (db.rollupTypesForks rollupType) 0)
  | .updateRollup rollupId newRollup latestVerified =>
    if rollupId ≠ l1RollupId then .ok db
    else if db.rollupTypesForks newRollup = 0 then
      if db.ppRollupTypes newRollup then .ok db
      else .error (.error ("received UpdateRollupTopic for unknown rollup type: " ++
        toString newRollup))
    else .ok (db.writeNewForkHistory (db.rollupTypesForks newRollup) latestVerified)

def processLogs (l1RollupId : Nat) (db : ForkDb) (logs : List ForkLog) : Except Failure ForkDb :=
  logs.foldlM (processLog l1RollupId) db

def latestApplying (nextBatch : Nat) (rows : List (Nat × Nat)) : Nat :=
  rows.foldl (fun latest row => if row.2 < nextBatch then row.1 else latest) 0

def prepareForkId (pessimisticForkNumber lastBatch executionAt : Nat) (db : ForkDb) :
    Except Failure Nat × ForkDb :=
  let nextBatch := (lastBatch + 1) % 2 ^ 64
  if db.forkHistory.map Prod.fst = [0] then
    if pessimisticForkNumber = 0 then
      (.error (.error "zkevm.pessimistic-fork-number flag must be set when running on a network that has never had an FEP rollup type assigned to it"),
        db)
    else
      (.ok pessimisticForkNumber,
        (db.writeForkIdBlockOnce pessimisticForkNumber (executionAt + 1)).writeNewForkHistory
          pessimisticForkNumber nextBatch)
  else
    let latest := latestApplying nextBatch db.forkHistory
    if latest = 0 then (.ok 0, db)
    else if db.forkIds lastBatch < latest then
      (.ok latest, db.writeForkIdBlockOnce latest (executionAt + 1))
    else (.ok latest, db)

-- What the L1 Says

/- The creations and upgrades on the L1, in its order. -/
structure L1History where
  logs : List ForkLog
  ordered : logs.Pairwise (·.position < ·.position)
  rollups : ∀ log ∈ logs, ∀ t f v, log.event ≠ .addNewRollupType t f v

def lastBatch : RollupEvent → Nat
  | .updateRollup _ _ latestVerified => latestVerified
  | _ => 0

def forkOf (db : ForkDb) : RollupEvent → Nat
  | .createNewRollup _ rollupType => db.rollupTypesForks rollupType
  | .updateRollup _ newRollup _ => db.rollupTypesForks newRollup
  | .addNewRollupType .. => 0

/- An event of this rollup that gives it a fork; upgrades to pessimistic types do not. -/
def applies (l1RollupId : Nat) (db : ForkDb) : RollupEvent → Bool
  | .createNewRollup rollupId _ => decide (rollupId = l1RollupId)
  | .updateRollup rollupId newRollup _ =>
      decide (rollupId = l1RollupId ∧ db.rollupTypesForks newRollup ≠ 0)
  | .addNewRollupType .. => false

/- The fork of the latest of the logs whose last batch is below the given one. -/
def latestFork (l1RollupId : Nat) (db : ForkDb) (logs : List ForkLog) (batch : Nat) : Nat :=
  ((logs.filter fun log =>
    applies l1RollupId db log.event && decide (lastBatch log.event < batch)).getLast?.map
      fun log => forkOf db log.event).getD 0

/- The choice for every batch is the one of the L1. -/
def FollowsL1 (l1RollupId pessimisticForkNumber executionAt : Nat) (db : ForkDb)
    (history : L1History) (processed : ForkDb) : Prop :=
  ∀ last, last + 1 < 2 ^ 64 →
    (prepareForkId pessimisticForkNumber last executionAt processed).1 =
      .ok (latestFork l1RollupId db history.logs (last + 1))

def KnownTypes (l1RollupId : Nat) (db : ForkDb) (history : L1History) : Prop :=
  ∀ log ∈ history.logs, applies l1RollupId db log.event = true → forkOf db log.event ≠ 0

/- Every event gives the rollup a new fork from a higher batch on. -/
structure Upgrades (l1RollupId : Nat) (db : ForkDb) (history : L1History) : Prop where
  applies : ∀ log ∈ history.logs, applies l1RollupId db log.event = true ∧
    lastBatch log.event + 2 < 2 ^ 64
  known : KnownTypes l1RollupId db history
  batches : history.logs.Pairwise fun a b => lastBatch a.event < lastBatch b.event
  forks : history.logs.Pairwise fun a b => forkOf db a.event ≠ forkOf db b.event

-- The Rows

variable {l1RollupId pessimisticForkNumber executionAt : Nat} {db processed : ForkDb}

@[simp]
theorem forkOf_writeNewForkHistory (forkId batch : Nat) (event : RollupEvent) :
    forkOf (db.writeNewForkHistory forkId batch) event = forkOf db event := by
  cases event <;> rfl

@[simp]
theorem applies_writeNewForkHistory (forkId batch : Nat) (event : RollupEvent) :
    applies l1RollupId (db.writeNewForkHistory forkId batch) event =
      applies l1RollupId db event := by
  cases event <;> rfl

theorem processLog_eq {next : ForkDb} {log : ForkLog}
    (hRollup : ∀ t f v, log.event ≠ .addNewRollupType t f v)
    (hNext : processLog l1RollupId db log = .ok next) :
    next = if applies l1RollupId db log.event then
        db.writeNewForkHistory (forkOf db log.event) (lastBatch log.event)
      else db := by
  unfold processLog at hNext
  cases hEvent : log.event with
  | addNewRollupType t f v => exact absurd hEvent (hRollup t f v)
  | createNewRollup rollupId rollupType =>
    rw [hEvent] at hNext
    by_cases hId : rollupId = l1RollupId <;> simp_all [applies, forkOf, lastBatch]
  | updateRollup rollupId newRollup latestVerified =>
    rw [hEvent] at hNext
    by_cases hId : rollupId = l1RollupId <;> by_cases hFork : db.rollupTypesForks newRollup = 0 <;>
      by_cases hPP : db.ppRollupTypes newRollup = true <;> simp_all [applies, forkOf, lastBatch]

theorem processLogs_rows {logs : List ForkLog}
    (hRollups : ∀ log ∈ logs, ∀ t f v, log.event ≠ .addNewRollupType t f v)
    (hProcessed : processLogs l1RollupId db logs = .ok processed) :
    processed.forkHistory = db.forkHistory ++
      (logs.filter fun log => applies l1RollupId db log.event).map
        fun log => (forkOf db log.event, lastBatch log.event) := by
  induction logs generalizing db with
  | nil =>
    cases hProcessed
    simp
  | cons log logs ih =>
    rcases except_bind_eq_ok hProcessed with ⟨next, hNext, hRest⟩
    have hRows := ih (fun log hLog => hRollups log (List.mem_cons_of_mem _ hLog)) hRest
    have hEq := processLog_eq (hRollups log List.mem_cons_self) hNext
    by_cases hApplies : applies l1RollupId db log.event = true
    · rw [if_pos hApplies] at hEq
      subst hEq
      simp only [forkOf_writeNewForkHistory, applies_writeNewForkHistory] at hRows
      rw [hRows]
      simp [ForkDb.writeNewForkHistory, hApplies]
    · rw [if_neg hApplies] at hEq
      subst hEq
      simpa [hApplies] using hRows

/- Keeping the last match of a loop is looking for the last match. -/
theorem foldl_last {α β : Type} (p : α → Bool) (f : α → β) (l : List α) (z : β) :
    l.foldl (fun latest a => if p a then f a else latest) z =
      ((l.filter p).getLast?.map f).getD z := by
  induction l generalizing z with
  | nil => rfl
  | cons a l ih =>
    rw [List.foldl_cons, ih]
    by_cases hMatch : p a = true
    · simp only [hMatch, if_true, List.filter_cons_of_pos, List.getLast?_cons, Option.map_some,
        Option.getD_some]
      cases (l.filter p).getLast? <;> rfl
    · simp [hMatch]

theorem latestApplying_rows (nextBatch : Nat) (logs : List ForkLog) :
    latestApplying nextBatch
        ((logs.filter fun log => applies l1RollupId db log.event).map
          fun log => (forkOf db log.event, lastBatch log.event)) =
      latestFork l1RollupId db logs nextBatch := by
  have hLast := foldl_last (fun log : ForkLog => decide (lastBatch log.event < nextBatch))
    (fun log => forkOf db log.event) (logs.filter fun log => applies l1RollupId db log.event) 0
  simp only [decide_eq_true_eq, List.filter_filter] at hLast
  rw [latestApplying, List.foldl_map, hLast, latestFork]
  simp only [Bool.and_comm]

/- Away from networks without any fork the choice is the latest fork of the logs. -/
theorem prepareForkId_ok {logs : List ForkLog} {last : Nat} (hEmpty : db.forkHistory = [])
    (hRollups : ∀ log ∈ logs, ∀ t f v, log.event ≠ .addNewRollupType t f v)
    (hKnown : ∀ log ∈ logs, applies l1RollupId db log.event = true → forkOf db log.event ≠ 0)
    (hProcessed : processLogs l1RollupId db logs = .ok processed) (hLast : last + 1 < 2 ^ 64) :
    (prepareForkId pessimisticForkNumber last executionAt processed).1 =
      .ok (latestFork l1RollupId db logs (last + 1)) := by
  have hRows := processLogs_rows hRollups hProcessed
  rw [hEmpty, List.nil_append] at hRows
  have hForks : processed.forkHistory.map Prod.fst ≠ [0] := by
    intro hZero
    have hMem : 0 ∈ processed.forkHistory.map Prod.fst := by simp [hZero]
    rw [hRows, List.map_map] at hMem
    rcases List.mem_map.mp hMem with ⟨log, hLog, hFork⟩
    rcases List.mem_filter.mp hLog with ⟨hLog, hApplies⟩
    exact hKnown log hLog hApplies hFork
  have hLatest : latestApplying (last + 1) processed.forkHistory =
      latestFork l1RollupId db logs (last + 1) := by
    rw [hRows]
    exact latestApplying_rows (last + 1) logs
  simp only [prepareForkId, hForks, if_false, Nat.mod_eq_of_lt hLast, hLatest]
  by_cases hZero : latestFork l1RollupId db logs (last + 1) = 0
  · simp [hZero]
  · rw [if_neg hZero]
    split <;> rfl

-- The Order of Delivery

/- Only the last delivery of a log counts. -/
theorem getLast?_filter_dedup {α : Type} [DecidableEq α] (p : α → Bool) (l : List α) :
    (l.dedup.filter p).getLast? = (l.filter p).getLast? := by
  induction l with
  | nil => rfl
  | cons a l ih =>
    by_cases hMatch : p a = true
    · rw [List.filter_cons_of_pos hMatch]
      by_cases hMem : a ∈ l
      · have hFilter : l.filter p ≠ [] := List.ne_nil_of_mem (List.mem_filter.mpr ⟨hMem, hMatch⟩)
        rw [List.dedup_cons_of_mem hMem, ih, List.getLast?_cons_of_ne_nil hFilter]
      · rw [List.dedup_cons_of_notMem hMem, List.filter_cons_of_pos hMatch, List.getLast?_cons,
          List.getLast?_cons, ih]
    · by_cases hMem : a ∈ l <;> simp [hMem, hMatch, ih]

theorem latestFork_dedup (logs : List ForkLog) (batch : Nat) :
    latestFork l1RollupId db logs.dedup batch = latestFork l1RollupId db logs batch := by
  rw [latestFork, latestFork, getLast?_filter_dedup]

/- The latest fork up to the batch of a log is the log's own if all behind it have higher ones. -/
theorem latestFork_split {before behind : List ForkLog} {log : ForkLog}
    (hApplies : ∀ a ∈ before ++ log :: behind, applies l1RollupId db a.event = true)
    (hForks : ∀ a ∈ behind, forkOf db a.event ≠ forkOf db log.event) :
    latestFork l1RollupId db (before ++ log :: behind) (lastBatch log.event + 1) =
        forkOf db log.event ↔
      ∀ a ∈ behind, lastBatch log.event < lastBatch a.event := by
  let upTo := behind.filter fun a => applies l1RollupId db a.event &&
    decide (lastBatch a.event < lastBatch log.event + 1)
  have hMem : ∀ a, a ∈ upTo ↔ a ∈ behind ∧ lastBatch a.event ≤ lastBatch log.event := by
    intro a
    simp only [upTo, List.mem_filter, Bool.and_eq_true, decide_eq_true_eq, Nat.lt_succ_iff]
    exact and_congr_right fun hIn => and_iff_right (hApplies a (by simp [hIn]))
  have hLatest : latestFork l1RollupId db (before ++ log :: behind) (lastBatch log.event + 1) =
      forkOf db (upTo.getLast?.getD log).event := by
    simp [latestFork, hApplies log (by simp), List.getLast?_cons, upTo]
  rw [hLatest]
  cases hLast : upTo.getLast? with
  | none =>
    rw [List.getLast?_eq_none_iff] at hLast
    refine iff_of_true rfl fun a hIn => Nat.lt_of_not_le fun hLe => ?_
    simpa [hLast] using (hMem a).mpr ⟨hIn, hLe⟩
  | some a =>
    rcases (hMem a).mp (List.mem_of_getLast? hLast) with ⟨hIn, hLe⟩
    exact iff_of_false (hForks a hIn) fun hAll => Nat.not_le_of_lt (hAll a hIn) hLe

theorem pairwise_of_split {α : Type} {R : α → α → Prop} {l : List α}
    (hSplit : ∀ before a behind, l = before ++ a :: behind → ∀ b ∈ behind, R a b) :
    l.Pairwise R := by
  induction l with
  | nil => exact .nil
  | cons a l ih =>
    refine .cons (hSplit [] a l rfl) (ih fun before b behind hEq => ?_)
    exact hSplit (a :: before) b behind (congrArg (a :: ·) hEq)

/- Logs whose latest forks are those of the L1 for every batch are in its order. -/
theorem eq_of_latestFork {l logs : List ForkLog} (hNodup : l.Nodup) (hLogs : logs.Nodup)
    (hMem : ∀ log, log ∈ l ↔ log ∈ logs)
    (hApplies : ∀ log ∈ logs, applies l1RollupId db log.event = true)
    (hBatches : logs.Pairwise fun a b => lastBatch a.event < lastBatch b.event)
    (hForks : logs.Pairwise fun a b => forkOf db a.event ≠ forkOf db b.event)
    (hSame : ∀ log ∈ logs, latestFork l1RollupId db l (lastBatch log.event + 1) =
      latestFork l1RollupId db logs (lastBatch log.event + 1)) : l = logs := by
  have hOne := List.inj_on_of_nodup_map (List.pairwise_map.mpr hForks)
  have hLatest : ∀ log ∈ logs, latestFork l1RollupId db logs (lastBatch log.event + 1) =
      forkOf db log.event := by
    intro log hLog
    rcases List.append_of_mem hLog with ⟨before, behind, rfl⟩
    have hBehind := List.pairwise_cons.mp (List.pairwise_append.mp hForks).2.1
    refine (latestFork_split hApplies fun a hIn => (hBehind.1 a hIn).symm).mpr ?_
    exact (List.pairwise_cons.mp (List.pairwise_append.mp hBatches).2.1).1
  have hSorted : l.Pairwise fun a b => lastBatch a.event < lastBatch b.event := by
    refine pairwise_of_split fun before log behind hSplit => ?_
    subst hSplit
    have hLog := (hMem log).mp (by simp)
    have hNew := (List.nodup_cons.mp (List.nodup_append.mp hNodup).2.1).1
    refine (latestFork_split (fun a hIn => hApplies a ((hMem a).mp hIn)) fun a hIn hFork => ?_).mp
      ((hSame log hLog).trans (hLatest log hLog))
    exact hNew (hOne ((hMem a).mp (by simp [hIn])) hLog hFork ▸ hIn)
  exact List.Perm.eq_of_pairwise (fun a b _ _ hLess hMore => absurd hLess hMore.not_gt) hSorted
    hBatches ((List.perm_ext_iff_of_nodup hNodup hLogs).mpr hMem)

/-
  If the last deliveries of the logs come in the order of the L1, the choice is the one of the L1.
  If all events are upgrades to new forks from higher batches on, this is also necessary.
-/
theorem fork_choice_of_order (l1RollupId pessimisticForkNumber executionAt : Nat)
    (db processed : ForkDb) (history : L1History) (delivered : List ForkLog)
    (hEmpty : db.forkHistory = []) (hAll : ∀ log, log ∈ delivered ↔ log ∈ history.logs)
    (hProcessed : processLogs l1RollupId db delivered = .ok processed) :
    (KnownTypes l1RollupId db history ∧ delivered.dedup = history.logs →
      FollowsL1 l1RollupId pessimisticForkNumber executionAt db history processed) ∧
    (Upgrades l1RollupId db history →
      FollowsL1 l1RollupId pessimisticForkNumber executionAt db history processed →
      delivered.dedup = history.logs) := by
  have hRollups : ∀ log ∈ delivered, ∀ t f v, log.event ≠ .addNewRollupType t f v :=
    fun log hLog => history.rollups log ((hAll log).mp hLog)
  have hChoice : KnownTypes l1RollupId db history → ∀ last, last + 1 < 2 ^ 64 →
      (prepareForkId pessimisticForkNumber last executionAt processed).1 =
        .ok (latestFork l1RollupId db delivered.dedup (last + 1)) := by
    intro hKnown last hLast
    rw [latestFork_dedup]
    exact prepareForkId_ok hEmpty hRollups (fun log hLog => hKnown log ((hAll log).mp hLog))
      hProcessed hLast
  refine ⟨fun hOrder last hLast => ?_, fun hUpgrades hFollows => ?_⟩
  · rw [hChoice hOrder.1 last hLast, hOrder.2]
  · refine @eq_of_latestFork l1RollupId db _ _ (List.nodup_dedup _) ?_
      (fun log => (List.mem_dedup).trans (hAll log))
      (fun log hLog => (hUpgrades.applies log hLog).1)
      hUpgrades.batches hUpgrades.forks fun log hLog => ?_
    · refine history.ordered.imp fun hLess hSame => ?_
      rw [hSame] at hLess
      exact Nat.lt_irrefl _ hLess
    · have hBound : lastBatch log.event + 1 < 2 ^ 64 :=
        Nat.lt_of_succ_lt (hUpgrades.applies log hLog).2
      have hBoth := hChoice hUpgrades.known _ hBound
      rw [hFollows _ hBound] at hBoth
      exact (Except.ok.inj hBoth).symm

/- The rollup is created with fork 9 and upgraded to fork 12 behind batch 100. -/
def sampleForkDb : ForkDb where
  rollupTypesForks := fun rollupType => if rollupType = 1 then 9 else 12
  ppRollupTypes := fun _ => false
  forkHistory := []
  forkIds := fun _ => 0
  forkIdBlock := fun _ => none

def sampleCreation : ForkLog := ⟨0, .createNewRollup 1 1⟩

def sampleUpgrade : ForkLog := ⟨1, .updateRollup 1 2 100⟩

def sampleL1History : L1History where
  logs := [sampleCreation, sampleUpgrade]
  ordered := by decide
  rollups := by simp [sampleCreation, sampleUpgrade]

/- A repeated creation does no harm before the upgrade. -/
theorem fork_choice_of_order_repeated :
    ∃ processed, FollowsL1 1 0 0 sampleForkDb sampleL1History processed :=
  ⟨_, (fork_choice_of_order 1 0 0 sampleForkDb _ sampleL1History
    [sampleCreation, sampleCreation, sampleUpgrade] rfl (by simp [sampleL1History]) rfl).1
    ⟨by simp [KnownTypes, sampleL1History, sampleCreation, sampleUpgrade, forkOf, sampleForkDb],
      by decide⟩⟩

/- Delivered behind the upgrade, it takes the upgraded batches back to the first fork. -/
theorem late_creation_hides_upgrade :
    ∃ processed,
      processLogs 1 sampleForkDb [sampleCreation, sampleUpgrade, sampleCreation] = .ok processed ∧
        (prepareForkId 0 100 0 processed).1 = .ok 9 ∧
        latestFork 1 sampleForkDb sampleL1History.logs 101 = 12 :=
  ⟨_, rfl, by decide, by decide⟩

end XLayerErigon.L1Syncer
