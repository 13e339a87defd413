/-!
# First come, first served

A log of a queue: what joins it, and what is served. While the queue is not empty only its head may be
served; what is served from an empty queue goes past it. `replay` checks a log, and leads to the queue after
it. In a log it accepts, those served from the queue and those still in it are those who joined, in order
(`replay_order`), and nothing is served past a queue that waits (`replay_served`).
-/

namespace Interleaving
namespace Fifo

inductive Event (α : Type) where
  | joins (a : α)
  | served (a : α)
deriving DecidableEq, Repr

section
variable {α : Type} [DecidableEq α]

/-- The queue after an event. -/
def next : List α → Event α → Option (List α)
  | queue, .joins a => some (queue ++ [a])
  | [], .served _ => some []
  | a :: queue, .served b => if b = a then some queue else none

/-- The queue after a log. -/
def replay : List α → List (Event α) → Option (List α)
  | queue, [] => some queue
  | queue, x :: log => (next queue x).bind fun queue' => replay queue' log

theorem replay_append (queue : List α) (log log' : List (Event α)) :
    replay queue (log ++ log') = (replay queue log).bind fun queue' => replay queue' log' := by
  induction log generalizing queue with
  | nil => rfl
  | cons x log ih =>
    simp only [List.cons_append, replay]
    cases next queue x with
    | none => rfl
    | some queue' => exact ih queue'

theorem replay_snoc {queue queue' : List α} {log : List (Event α)} (h : replay queue log = some queue') (x : Event α) :
    replay queue (log ++ [x]) = next queue' x := by
  rw [replay_append, h, Option.bind_some, replay]
  cases next queue' x <;> rfl

end

/-- Those who joined, in order. -/
def joined {α : Type} : List (Event α) → List α
  | [] => []
  | .joins a :: log => a :: joined log
  | .served _ :: log => joined log

/-- Those served from the queue, in order. -/
def fromQueue {α : Type} : List α → List (Event α) → List α
  | _, [] => []
  | queue, .joins a :: log => fromQueue (queue ++ [a]) log
  | [], .served _ :: log => fromQueue [] log
  | _ :: queue, .served b :: log => b :: fromQueue queue log

section
variable {α : Type} [DecidableEq α] {queue queue' : List α}

/-- **First come, first served.** -/
theorem replay_order : ∀ {queue : List α} {log : List (Event α)}, replay queue log = some queue' →
    queue ++ joined log = fromQueue queue log ++ queue'
  | queue, [], h => by
    simp only [replay, Option.some.injEq] at h
    simp [joined, fromQueue, h]
  | queue, .joins a :: log, h => by
    have ih : queue ++ [a] ++ joined log = fromQueue (queue ++ [a]) log ++ queue' := replay_order h
    simpa [joined, fromQueue] using ih
  | [], .served b :: log, h => by
    have ih : [] ++ joined log = fromQueue [] log ++ queue' := replay_order h
    exact ih
  | a :: queue, .served b :: log, h => by
    obtain ⟨queue1, h1, h2⟩ := Option.bind_eq_some_iff.1 h
    simp only [next] at h1
    split at h1
    · rename_i hb
      cases h1
      have ih := replay_order h2
      simp [joined, fromQueue, ih, hb]
    · cases h1

/-- What is served finds the queue empty, or is its head. -/
theorem replay_served {log log' : List (Event α)} {a : α}
    (h : replay queue (log ++ .served a :: log') = some queue') :
    ∃ before, replay queue log = some before ∧ (before = [] ∨ before.head? = some a) := by
  rw [replay_append] at h
  obtain ⟨before, hbefore, hrest⟩ := Option.bind_eq_some_iff.1 h
  refine ⟨before, hbefore, ?_⟩
  cases before with
  | nil => exact .inl rfl
  | cons b before =>
    obtain ⟨queue1, h1, -⟩ := Option.bind_eq_some_iff.1 hrest
    simp only [next] at h1
    split at h1
    · rename_i hb
      exact .inr (by rw [hb, List.head?_cons])
    · cases h1

end

end Fifo
end Interleaving
