import Mathlib

/-
  Realtime subscriptions to logs.

  Each log of a transaction message is offered to every subscription.  Topics are first looked up
  in the set of all topics of the filter, which is empty where every position is a wildcard.

  Main results:
    * `accepts_iff`
    * `receives_iff`
-/

namespace XLayerErigon.Realtime

-- The Code

structure Log where
  address : BitVec 160
  topics : List (BitVec 256)
  deriving DecidableEq

structure FilterCriteria where
  addresses : List (BitVec 160)
  topics : List (List (BitVec 256))

structure ChanSub where
  ch : List Log
  size : Nat
  closed : Bool

def newChanSub (size : Nat) : ChanSub := ⟨[], if size < 8 then 8 else size, false⟩

def ChanSub.send (s : ChanSub) (x : Log) : ChanSub :=
  if s.closed then s
  else if s.ch.length < s.size then { s with ch := s.ch ++ [x] }
  else s

/- The maps hold 1 for each of their keys. -/
structure LogsFilter where
  allAddrs : Nat
  addrs : Finset (BitVec 160)
  allTopics : Nat
  topics : Finset (BitVec 256)
  topicsOriginal : List (List (BitVec 256))
  sender : ChanSub

def newLogsFilter (crit : FilterCriteria) (sender : ChanSub) : LogsFilter where
  allAddrs := if crit.addresses.length = 0 then 1 else 0
  addrs := crit.addresses.toFinset
  allTopics := if crit.topics.length = 0 then 1 else 0
  topics := crit.topics.flatten.toFinset
  topicsOriginal := crit.topics
  sender := sender

namespace LogsFilter

def chooseTopics (filter : LogsFilter) (logTopics : List (BitVec 256)) : Bool :=
  let found := logTopics.any fun logTopic => logTopic ∈ filter.topics
  if !found then
    false
  else if filter.topicsOriginal.length > logTopics.length then
    false
  else
    (filter.topicsOriginal.zip logTopics).all fun (sub, logTopic) =>
      sub.length = 0 || sub.any (fun topic => logTopic = topic)

/- Whether a log gets as far as being sent. -/
def accepts (filter : LogsFilter) (log : Log) : Bool :=
  if filter.allAddrs = 0 ∧ log.address ∉ filter.addrs then
    false
  else if filter.allTopics = 0 ∧ !filter.chooseTopics log.topics then
    false
  else
    true

def receive (filter : LogsFilter) (log : Log) : LogsFilter :=
  if filter.accepts log then { filter with sender := filter.sender.send log } else filter

end LogsFilter

abbrev LogsSubs := Nat → Option LogsFilter

/- `Range` visits the subscriptions in some order. -/
def LogsSubs.range (subs : LogsSubs) (order : List Nat) (log : Log) : LogsSubs :=
  order.foldl (fun subs id => Function.update subs id ((subs id).map (·.receive log))) subs

/- The logs of a message, each with the order in which the subscriptions are visited for it. -/
def handleRealtimeLogMsgs (subs : LogsSubs) (logs : List (Log × List Nat)) : LogsSubs :=
  logs.foldl (fun subs log => subs.range log.2 log.1) subs

-- The Rule

namespace FilterCriteria

variable (crit : FilterCriteria) (log : Log)

def AddressFits : Prop := crit.addresses = [] ∨ log.address ∈ crit.addresses

/- The address is allowed, and so is the topic at each position of the filter. -/
def Matches : Prop :=
  crit.AddressFits log ∧ crit.topics.length ≤ log.topics.length ∧
    ∀ p ∈ crit.topics.zip log.topics, p.1 = [] ∨ p.2 ∈ p.1

/- Some position has alternatives, unless there is none or the log is refused anyway. -/
def Restricts : Prop :=
  crit.topics = [] ∨ (∃ sub ∈ crit.topics, sub ≠ []) ∨ ¬ crit.AddressFits log ∨
    log.topics.length < crit.topics.length

instance instDecidableMatches : Decidable (crit.Matches log) := by
  unfold Matches AddressFits
  infer_instance

end FilterCriteria

variable {crit : FilterCriteria} {log : Log}

/- Besides the rule, a filter with positions wants one of its topics among those of the log. -/
theorem accepts_iff (sender : ChanSub) : (newLogsFilter crit sender).accepts log = true ↔
    crit.Matches log ∧ (crit.topics = [] ∨ ∃ topic ∈ log.topics, topic ∈ crit.topics.flatten) := by
  have hTopics : (newLogsFilter crit sender).chooseTopics log.topics = true ↔
      (∃ topic ∈ log.topics, topic ∈ crit.topics.flatten) ∧
        crit.topics.length ≤ log.topics.length ∧
        ∀ p ∈ crit.topics.zip log.topics, p.1 = [] ∨ p.2 ∈ p.1 := by
    simp [LogsFilter.chooseTopics, newLogsFilter]
  rw [LogsFilter.accepts, FilterCriteria.Matches, FilterCriteria.AddressFits]
  by_cases hNone : crit.topics = []
  · simp [newLogsFilter, hNone]
  · have hAll : (newLogsFilter crit sender).allTopics = 0 := by simp [newLogsFilter, hNone]
    simp only [hAll, true_and, Bool.not_eq_true', ← Bool.not_eq_true, hTopics]
    simp only [newLogsFilter, hNone, false_or, List.mem_toFinset]
    grind

/- A position with alternatives gives that topic. -/
theorem exists_topic {sub : List (BitVec 256)} (hMatches : crit.Matches log)
    (hSub : sub ∈ crit.topics) (hSome : sub ≠ []) :
    ∃ topic ∈ log.topics, topic ∈ crit.topics.flatten := by
  rcases List.getElem_of_mem hSub with ⟨i, hLt, rfl⟩
  have hLog := Nat.lt_of_lt_of_le hLt hMatches.2.1
  have hPair : (crit.topics[i], log.topics[i]) ∈ crit.topics.zip log.topics :=
    List.mem_iff_getElem.mpr ⟨i, by simp [hLt, hLog], List.getElem_zip⟩
  exact ⟨log.topics[i], List.getElem_mem hLog,
    List.mem_flatten_of_mem hSub ((hMatches.2.2 _ hPair).resolve_left hSome)⟩

theorem restricts_iff (sender : ChanSub) :
    (crit.Matches log → (newLogsFilter crit sender).accepts log = true) ↔ crit.Restricts log := by
  rw [accepts_iff, FilterCriteria.Restricts]
  constructor
  · intro hAccepts
    by_contra! ⟨hSome, hWild, hFits, hLength⟩
    have hMatches : crit.Matches log :=
      ⟨hFits, hLength, fun p hp => Or.inl (hWild p.1 (List.of_mem_zip hp).1)⟩
    rcases (hAccepts hMatches).2 with hNone | ⟨topic, -, hTopic⟩
    · exact hSome hNone
    · rcases List.mem_flatten.mp hTopic with ⟨sub, hSub, hMem⟩
      rw [hWild sub hSub] at hMem
      cases hMem
  · rintro (hNone | ⟨sub, hSub, hSome⟩ | hFits | hLength) hMatches
    · exact ⟨hMatches, Or.inl hNone⟩
    · exact ⟨hMatches, Or.inr (exists_topic hMatches hSub hSome)⟩
    · exact absurd hMatches.1 hFits
    · exact absurd hMatches.2.1 (Nat.not_le.mpr hLength)

-- A Whole Message

/- A subscription that is visited once receives the log once. -/
theorem range_apply (subs : LogsSubs) {order : List Nat} {id : Nat} (hNodup : order.Nodup) :
    subs.range order log id = if id ∈ order then (subs id).map (·.receive log) else subs id := by
  unfold LogsSubs.range
  induction order generalizing subs with
  | nil => rfl
  | cons first order ih =>
    rcases List.nodup_cons.mp hNodup with ⟨hFirst, hRest⟩
    rw [List.foldl_cons, ih _ hRest, Function.update_apply]
    grind

/- The channel takes what is accepted. -/
theorem foldl_receive (logs : List Log) {sender : ChanSub} (hOpen : sender.closed = false)
    (hRoom : sender.ch.length + logs.length ≤ sender.size) :
    logs.foldl LogsFilter.receive (newLogsFilter crit sender) = newLogsFilter crit
      { sender with ch := sender.ch ++ logs.filter (newLogsFilter crit sender).accepts } := by
  induction logs generalizing sender with
  | nil => simp
  | cons log logs ih =>
    rw [List.length_cons] at hRoom
    rw [List.foldl_cons, LogsFilter.receive, List.filter_cons]
    split_ifs
    · have hSend : sender.send log = { sender with ch := sender.ch ++ [log] } := by
        rw [ChanSub.send, hOpen, if_neg Bool.false_ne_true, if_pos (by omega)]
      rw [List.append_cons]
      exact hSend ▸ ih hOpen (by simp; omega)
    · exact ih hOpen (by omega)

/-
  A subscription whose channel has room receives exactly the logs that match if and only if the
  filter has a position with alternatives, or none, or would refuse the log anyway.
-/
theorem receives_iff (subs : LogsSubs) (logs : List (Log × List Nat)) (id : Nat) (sender : ChanSub)
    (hSub : subs id = some (newLogsFilter crit sender)) (hOpen : sender.closed = false)
    (hRoom : sender.ch.length + logs.length ≤ sender.size)
    (hOrders : ∀ log ∈ logs, log.2.Nodup ∧ id ∈ log.2) :
    (handleRealtimeLogMsgs subs logs id).map (·.sender.ch) =
        some (sender.ch ++ (logs.map Prod.fst).filter (fun log => crit.Matches log)) ↔
      ∀ log ∈ logs, crit.Restricts log.1 := by
  have hRun : handleRealtimeLogMsgs subs logs id =
      (subs id).map ((logs.map Prod.fst).foldl LogsFilter.receive) := by
    clear hRoom hSub
    unfold handleRealtimeLogMsgs
    induction logs generalizing subs with
    | nil => simp
    | cons log logs ih =>
      rcases List.forall_mem_cons.mp hOrders with ⟨hOrder, hRest⟩
      rw [List.foldl_cons, ih _ hRest, range_apply _ hOrder.1, if_pos hOrder.2, Option.map_map]
      rfl
  rw [hRun, hSub, Option.map_some, foldl_receive _ hOpen (by simpa using hRoom), Option.map_some,
    Option.some.injEq]
  change sender.ch ++ _ = sender.ch ++ _ ↔ _
  rw [List.append_cancel_left_eq]
  constructor
  · intro hSame log hLog
    refine (restricts_iff sender).mp fun hMatches => ?_
    have hMem : log.1 ∈ (logs.map Prod.fst).filter fun log => crit.Matches log :=
      List.mem_filter.mpr ⟨List.mem_map_of_mem hLog, decide_eq_true hMatches⟩
    rw [← hSame] at hMem
    exact (List.mem_filter.mp hMem).2
  · intro hRestricts
    refine List.filter_congr fun log hMem => ?_
    rcases List.mem_map.mp hMem with ⟨visit, hVisit, rfl⟩
    rw [Bool.eq_iff_iff, decide_eq_true_iff]
    exact ⟨fun hAccepts => ((accepts_iff sender).mp hAccepts).1,
      (restricts_iff sender).mpr (hRestricts visit hVisit)⟩

/- One subscription, to logs with at least one topic. -/
def wildcardSubs : LogsSubs := fun id =>
  if id = 0 then some (newLogsFilter ⟨[], [[]]⟩ (newChanSub 8)) else none

theorem receives_iff_wildcard :
    ¬ FilterCriteria.Restricts ⟨[], [[]]⟩ ⟨1, [2]⟩ ∧
      (handleRealtimeLogMsgs wildcardSubs [(⟨1, [2]⟩, [0])] 0).map (·.sender.ch) ≠
        some [⟨1, [2]⟩] := by
  have hWild : ¬ FilterCriteria.Restricts ⟨[], [[]]⟩ ⟨1, [2]⟩ := by
    simp [FilterCriteria.Restricts, FilterCriteria.AddressFits]
  refine ⟨hWild, fun hReceived => hWild ?_⟩
  exact (receives_iff wildcardSubs [(⟨1, [2]⟩, [0])] 0 (newChanSub 8) rfl rfl (by decide)
    (by simp)).mp hReceived _ List.mem_cons_self

/- A log that every position allows is not received. -/
theorem wildcard_log_lost :
    FilterCriteria.Matches ⟨[], [[]]⟩ ⟨1, [2]⟩ ∧
      (handleRealtimeLogMsgs wildcardSubs [(⟨1, [2]⟩, [0])] 0).map (·.sender.ch) = some [] := by
  decide

end XLayerErigon.Realtime
