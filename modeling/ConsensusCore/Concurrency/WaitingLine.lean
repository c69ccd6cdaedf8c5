/-!
# Waiting lines

Who waits for something that is given out: the waiting are known by the numbers
of their tickets, and served in the order in which they came. What is given to one
of them is on its way until the one it is for takes it, and until then each can
still go away (`WaitingLine.leave`, `WaitingLine.receive`).

* `waiting_serve`: the one who is served is the one who came first.

Tickets are numbers, given out one after another. Where they are kept in 64 bits they
start anew after 2^64 of them; no run gives out that many, and up to there they are the
same.
-/

namespace ConsensusCore

/-- A line of those who wait for a `β`. -/
structure WaitingLine (β : Type) where
  /-- Who waits, in the order in which they came. -/
  waiting : List Nat
  /-- What has been given to whom, and not been taken yet. -/
  granted : List (Nat × β)
deriving DecidableEq

namespace WaitingLine

variable {β : Type}

/-- The line in which nobody waits. -/
def empty : WaitingLine β := ⟨[], []⟩

/-- The line with one more at its end. -/
def join (l : WaitingLine β) (t : Nat) : WaitingLine β := { l with waiting := l.waiting ++ [t] }

/-- Gives something to the first in the line; `none` if nobody waits. -/
def serve (l : WaitingLine β) (b : β) : Option (WaitingLine β) :=
  match l.waiting with
  | [] => none
  | t :: ts => some ⟨ts, l.granted ++ [(t, b)]⟩

/-- Gives something to everyone in the line. -/
def serveAll (l : WaitingLine β) (b : β) : WaitingLine β :=
  ⟨[], l.granted ++ l.waiting.map (·, b)⟩

/-- Takes what was given to the holder of a ticket; `none` if nothing was. -/
def receive (l : WaitingLine β) (t : Nat) : Option (β × WaitingLine β) :=
  (l.granted.lookup t).map fun b =>
    (b, { l with granted := l.granted.filter fun g => !(g.1 == t) })

/-- Goes out of the line; `none` if the ticket is not in it. -/
def leave (l : WaitingLine β) (t : Nat) : Option (WaitingLine β) :=
  if t ∈ l.waiting then some { l with waiting := l.waiting.erase t } else none

theorem waiting_serve {l l' : WaitingLine β} {b : β} (h : l.serve b = some l') :
    ∃ t, l.waiting = t :: l'.waiting ∧ l'.granted = l.granted ++ [(t, b)] := by
  obtain ⟨waiting, granted⟩ := l
  cases waiting with
  | nil => simp [serve] at h
  | cons t ts =>
    simp only [serve, Option.some.injEq] at h
    exact ⟨t, by rw [← h], by rw [← h]⟩

end WaitingLine

end ConsensusCore
