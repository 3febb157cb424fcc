/-
LiteXmr.Lib.Fifo — a queue that may lose the item that entered last.

The specification of a chain of bounded queues in which an item moves from one
queue to the next by a step that can fail: `enter` appends an item, `lose`
drops the item that entered last, `leave` takes the head. A system refines it
when its queues, read from the last to the first, are such a queue
(`Lts.Run.project`).

* `sublist_of_run` — whatever has left, followed by whatever is still in the
  queue, is a selection in order of what entered; so nothing leaves twice and
  nothing overtakes.
-/
import LiteXmr.Lib.Lts

namespace LiteXmr.Fifo

open Lts

universe u

variable {α : Type u}

inductive Input (α : Type u) where
  | enter (x : α)
  | lose
  | leave

inductive Obs (α : Type u) where
  | entered (x : α)
  | left (x : α)

def step : Lts.Step (List α) (Input α) (Obs α)
  | q, .enter x => some (q ++ [x], [.entered x])
  | q, .lose => some (q.dropLast, [])
  | [], .leave => none
  | x :: q, .leave => some (q, [.left x])

def Obs.arrival : Obs α → Option α
  | .entered x => some x
  | .left _ => none

def Obs.departure : Obs α → Option α
  | .entered _ => none
  | .left x => some x

def arrivals (tr : List (Obs α)) : List α := tr.filterMap Obs.arrival

def departures (tr : List (Obs α)) : List α := tr.filterMap Obs.departure

@[simp] theorem arrivals_append (tr os : List (Obs α)) :
    arrivals (tr ++ os) = arrivals tr ++ arrivals os := List.filterMap_append

@[simp] theorem departures_append (tr os : List (Obs α)) :
    departures (tr ++ os) = departures tr ++ departures os := List.filterMap_append

theorem sublist_step {q q' : List α} {tr os : List (Obs α)} {i : Input α}
    (h : (departures tr ++ q).Sublist (arrivals tr)) (hs : step q i = some (q', os)) :
    (departures (tr ++ os) ++ q').Sublist (arrivals (tr ++ os)) := by
  rw [departures_append, arrivals_append]
  cases i with
  | enter x =>
      cases hs
      rw [show departures [Obs.entered x] = [] from rfl,
        show arrivals [Obs.entered x] = [x] from rfl, List.append_nil, ← List.append_assoc]
      exact h.append (List.Sublist.refl [x])
  | lose =>
      cases hs
      rw [show departures ([] : List (Obs α)) = [] from rfl,
        show arrivals ([] : List (Obs α)) = [] from rfl, List.append_nil, List.append_nil]
      exact ((List.Sublist.refl _).append (List.dropLast_sublist q)).trans h
  | leave =>
      cases q with
      | nil => cases hs
      | cons x q =>
          cases hs
          rw [show departures [Obs.left x] = [x] from rfl,
            show arrivals [Obs.left x] = [] from rfl, List.append_nil, List.append_assoc]
          exact h

/-- What has left and what is in the queue are a selection, in order, of what
entered. -/
theorem sublist_of_run {is : List (Input α)} {q : List α} {tr : List (Obs α)}
    {ok : List α → Input α → Prop} (h : Run step ok [] is q tr) :
    (departures tr ++ q).Sublist (arrivals tr) :=
  h.invariant (P := fun q tr => (departures tr ++ q).Sublist (arrivals tr))
    (List.Sublist.refl []) fun hq _ hs => sublist_step hq hs

end LiteXmr.Fifo
