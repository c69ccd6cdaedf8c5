import ConsensusCore.Concurrency.Simulation

/-!
# Alarms

Alarms are set for moments, and go off when those have come unless they are
cleared before. They are kept in the order in which they go off: by moment, and
among equal moments by number, which is the order in which they were set.

One *watch* looks after all of them. It looks when the first is due and sleeps until
then; after that all go off that are due, one after the other, and it looks again.
Whoever changes which alarm is the first has to wake it. What is to be told when an
alarm goes off may break off, which is noted and disturbs nothing else.

Whoever knows the number of an alarm can clear it. The labels are free: alarms may
share one, and then it is the last of them that is cleared by its label
(`LabelledAlarms`).
-/

namespace ConsensusCore

/-- An alarm. -/
structure Alarm where
  deadline : Nat
  number : Nat
  /-- What is told when it goes off. -/
  label : String
  /-- Whether the telling breaks off. -/
  panics : Bool
deriving DecidableEq, Repr

/-- Whether an alarm goes off no later than another. -/
def Alarm.before (a b : Alarm) : Bool :=
  a.deadline < b.deadline || (a.deadline == b.deadline && a.number ≤ b.number)

namespace Alarms

/-- What the watch does. -/
inductive Watch where
  /-- It looks for the first alarm. -/
  | looking
  /-- It sleeps, until a moment if there is one, or until it is woken. -/
  | sleeping (deadline : Option Nat)
deriving DecidableEq, Repr

/-- What happens. -/
inductive Event where
  | rang (a : Alarm)
  /-- The telling of an alarm broke off. -/
  | brokeOff (number : Nat)
deriving DecidableEq, Repr

end Alarms

/-- What happens when an alarm goes off. -/
def Alarm.ring (a : Alarm) : List Alarms.Event :=
  .rang a :: if a.panics then [.brokeOff a.number] else []

/-- The alarms that are set. -/
structure Alarms where
  pending : List Alarm
  /-- The number of the next alarm, in 64 bits. -/
  next : Nat
  watch : Alarms.Watch
  /-- Whether the watch is to be woken. -/
  rearm : Bool
  /-- Whether the alarms are looked after. -/
  alive : Bool
deriving DecidableEq, Repr

namespace Alarms

/-- No alarms. -/
def empty : Alarms := ⟨[], 0, .looking, false, true⟩

/-- The next alarm, if it is set now. -/
def upcoming (s : Alarms) (now : Nat) (delay : Duration) (label : String) (panics : Bool) : Alarm :=
  ⟨Moment.alarm now delay, s.next, label, panics⟩

/-- Sets an alarm. -/
def set (s : Alarms) (a : Alarm) : Alarms :=
  let earlier := s.pending.takeWhile (·.before a)
  { s with
    pending := earlier ++ a :: s.pending.dropWhile (·.before a)
    next := (s.next + 1) % UInt64.size
    rearm := s.rearm || earlier.isEmpty }

/-- Clears an alarm; `none` if it is not set. -/
def clear? (s : Alarms) (number : Nat) : Option Alarms :=
  (s.pending.findIdx? (·.number == number)).map fun i =>
    { s with pending := s.pending.eraseIdx i, rearm := s.rearm || i == 0 }

/-- When the first alarm goes off. -/
def first? (s : Alarms) : Option Nat := s.pending.head?.map (·.deadline)

/-- Lets all alarms go off that are due. -/
def ring (s : Alarms) (now : Nat) : List Event × Alarms :=
  ((s.pending.takeWhile (·.deadline ≤ now)).flatMap Alarm.ring,
    { s with pending := s.pending.dropWhile (·.deadline ≤ now), watch := .looking })

/-- A step of the watch; `none` if it sleeps, or nobody looks after the alarms. -/
def work (now : Nat) (s : Alarms) : Option (Alarms × List Event) :=
  if !s.alive then none
  else
    match s.watch with
    | .looking => some ({ s with watch := .sleeping s.first? }, [])
    | .sleeping deadline =>
      if s.rearm then some ({ s with watch := .looking, rearm := false }, [])
      else if deadline.any (· ≤ now) then
        let (events, s) := s.ring now
        some (s, events)
      else none

/-- When the sleep of the watch is over. -/
def due (s : Alarms) : Option Nat :=
  match s.alive, s.watch with
  | true, .sleeping deadline => deadline
  | _, _ => none

/-- Gives up all alarms. -/
def drop (s : Alarms) : Alarms := { s with pending := [], alive := false }

/-- The number of an alarm in words. -/
def numberText (number : Nat) : String := s!"TimeoutId({number})"

/-- What is done to alarms. -/
inductive Action where
  | set (delay : Duration) (label : String) (panics : Bool := false)
  /-- Clears the last alarm that was set under a label. -/
  | clear (label : String)
  | drop

/-- The answer to an action. -/
inductive Answer where
  | number (n : Nat)
  /-- Whether there was such an alarm. -/
  | found (b : Bool)
  | dropped

end Alarms

/-- Alarms, and the number of the last one that was set under each label. -/
structure LabelledAlarms where
  alarms : Alarms
  latest : List (String × Nat)

namespace LabelledAlarms

open Alarms

/-- No alarms. -/
def empty : LabelledAlarms := ⟨.empty, []⟩

/-- Carries out an action. -/
def act (now : Nat) (s : LabelledAlarms) : Action → Answer × LabelledAlarms
  | .set delay label panics =>
    let a := s.alarms.upcoming now delay label panics
    (.number a.number, ⟨s.alarms.set a, (label, a.number) :: s.latest⟩)
  | .clear label =>
    match (s.latest.lookup label).bind s.alarms.clear? with
    | some alarms => (.found true, { s with alarms })
    | none => (.found false, s)
  | .drop => (.dropped, { s with alarms := s.alarms.drop })

/-- What is told when something happens. -/
def told? : Event → Option String
  | .rang a => some a.label
  | .brokeOff _ => none

instance : Primitive LabelledAlarms Action Answer Empty String where
  act now a s := s.act now a
  poll _ _ c _ := c.elim
  withdraw _ _ s := s
  due c := c.elim
  work now s := (s.alarms.work now).map fun (alarms, events) =>
    ({ s with alarms }, events.filterMap told?)
  workDue s := s.alarms.due
  workload _ := 5

end LabelledAlarms

end ConsensusCore
