import ConsensusCore.Concurrency.Error

/-!
# Sequencers

Tasks that are worked on side by side, a limited number at once, and whose results
come out in the order in which the tasks were put in. Tasks are numbered from zero.
A task waits to be worked on, then is being worked on, then its result waits until
all before it are out; after a failure it waits to be worked on again, and so it does
if its worker is lost, which does not count as a failure. Of the tasks that wait the
lowest is admitted first.

Once a sequencer is stopped nothing is put in or comes out, and what workers bring
is thrown away, until it is emptied and reset.

Tasks and results are numbered and counted without a bound, and so are the failures of a
task. Counters that stop at the largest number of 64 bits (`Saturating.ceiling`), or of 32
for the failures, are the same below it, and no run gets there; of the failures it matters
only whether there were any.
-/

namespace ConsensusCore

/-- A task with its number, and how often it has failed. -/
structure Numbered (τ : Type) where
  index : Nat
  attempt : Nat
  task : τ
deriving DecidableEq

/-- What the work on a task comes to. -/
inductive Outcome (ρ : Type) where
  | success (result : ρ)
  | failure (text : String)
  /-- The work broke off. -/
  | panic
  /-- The worker went away, and brings nothing; the task is as if it had not been begun. -/
  | lost
deriving DecidableEq

/-- A result that waits for those before it. -/
structure Ready (τ ρ : Type) where
  index : Nat
  task : τ
  result : ρ
deriving DecidableEq

/-- What a sequencer tells. -/
inductive Notice (τ ρ : Type) where
  /-- The next result. -/
  | result (index : Nat) (task : τ) (result : ρ)
  /-- A failure, after which the task is worked on again. -/
  | failure (index : Nat) (task : τ) (text : String)
deriving DecidableEq

/-- What is told, in short. -/
def Notice.toText {τ ρ : Type} : Notice τ ρ → String
  | .result index _ _ => s!"Result({index})"
  | .failure index _ text => s!"Error({index}: " ++ text ++ ")"

/-- How a sequencer works. -/
structure SequencerConfig where
  /-- How many tasks are worked on at once. -/
  limit : Nat
  /-- The pause before a task that failed is worked on again. -/
  backoff : Duration
deriving DecidableEq

namespace SequencerConfig

/-- The configuration of a network. -/
def default : SequencerConfig := ⟨16, .ofMillis 100⟩

/-- The configuration of a network within one machine. -/
def dev : SequencerConfig := ⟨4, .zero⟩

end SequencerConfig

/-- A sequencer of tasks `τ` with results `ρ`. -/
structure Sequencer (τ ρ : Type) where
  config : SequencerConfig
  /-- The tasks that wait, by number. -/
  input : List (Numbered τ)
  /-- The tasks that are being worked on, by number. -/
  running : List (Numbered τ)
  /-- The results that wait, by number. -/
  output : List (Ready τ ρ)
  /-- The number of the next task. -/
  nextInsert : Nat
  /-- The number of the next result. -/
  nextEmit : Nat
  /-- How many tasks have been put in. -/
  total : Nat
  /-- How many results have come out. -/
  processed : Nat
  /-- Whether the sequencer is stopped. -/
  aborted : Bool

/-- Puts something in its place by number, behind those of lower number. -/
def insertByIndex {α : Type} (index : α → Nat) (a : α) : List α → List α
  | [] => [a]
  | b :: bs => if index b < index a then b :: insertByIndex index a bs else a :: b :: bs

namespace Sequencer

variable {τ ρ : Type}

/-- A sequencer without tasks; the limit must be positive. -/
def new (config : SequencerConfig) : Except PrimitiveError (Sequencer τ ρ) :=
  if config.limit = 0 then .error (.invalidLimit config.limit)
  else .ok ⟨config, [], [], [], 0, 0, 0, 0, false⟩

/-- Lets a task wait to be worked on. -/
def enqueue (s : Sequencer τ ρ) (e : Numbered τ) : Sequencer τ ρ :=
  { s with input := insertByIndex (·.index) e s.input }

/-- Puts a task in; `none` if the sequencer is stopped. -/
def insert? (s : Sequencer τ ρ) (task : τ) : Option (Nat × Sequencer τ ρ) :=
  if s.aborted then none
  else some (s.nextInsert,
    { s.enqueue ⟨s.nextInsert, 0, task⟩ with
      nextInsert := s.nextInsert + 1
      total := s.total + 1 })

/-- Admits the lowest of the tasks that wait; `none` if there is none, or as many
    are being worked on as may. -/
def admitNext? (s : Sequencer τ ρ) : Option (Numbered τ × Sequencer τ ρ) :=
  match s.input with
  | [] => none
  | e :: input =>
    if s.running.length < s.config.limit then
      some (e, { s with input, running := insertByIndex (·.index) e s.running })
    else none

/-- Admits tasks until none can be, or for `n` tasks. -/
def admitUpTo : Nat → Sequencer τ ρ → List (Numbered τ) × Sequencer τ ρ
  | 0, s => ([], s)
  | n + 1, s =>
    match s.admitNext? with
    | none => ([], s)
    | some (e, s) =>
      let (es, s) := admitUpTo n s
      (e :: es, s)

/-- Admits as many tasks as can be, unless the sequencer is stopped. -/
def admitAll (s : Sequencer τ ρ) : List (Numbered τ) × Sequencer τ ρ :=
  if s.aborted then ([], s) else s.admitUpTo s.input.length

/-- The results from the number `next` on, as far as they are there, and the others. -/
def takeReady (next : Nat) : List (Ready τ ρ) → List (Ready τ ρ) × List (Ready τ ρ)
  | [] => ([], [])
  | r :: rs =>
    if r.index = next then
      let (out, rest) := takeReady (next + 1) rs
      (r :: out, rest)
    else ([], r :: rs)

/-- Lets out all results whose turn it is. -/
def emit (s : Sequencer τ ρ) : Sequencer τ ρ × List (Notice τ ρ) :=
  let (out, output) := takeReady s.nextEmit s.output
  ({ s with
      output
      nextEmit := s.nextEmit + out.length
      processed := s.processed + out.length },
    out.map fun r => .result r.index r.task r.result)

/-- Takes what the work on a task came to. -/
def complete (s : Sequencer τ ρ) (e : Numbered τ) (o : Outcome ρ) :
    Sequencer τ ρ × List (Notice τ ρ) :=
  let s := { s with running := s.running.filter fun r => !(r.index == e.index) }
  if s.aborted then (s, [])
  else
    let again : Numbered τ := { e with attempt := e.attempt + 1 }
    match o with
    | .success result =>
      { s with output := insertByIndex (·.index) ⟨e.index, e.task, result⟩ s.output }.emit
    | .failure text => (s.enqueue again, [.failure e.index e.task text])
    | .panic => (s.enqueue again, [])
    | .lost => (s.enqueue e, [])

/-- Takes back all tasks that are being worked on; they wait again, unless the
    sequencer is stopped. -/
def release (s : Sequencer τ ρ) : Sequencer τ ρ :=
  { s with
    running := []
    input := if s.aborted then s.input else s.running.foldr (insertByIndex (·.index)) s.input }

/-- Whether all tasks have come out. -/
def finished (s : Sequencer τ ρ) : Bool := s.processed == s.total

/-- Stops the sequencer. -/
def stop (s : Sequencer τ ρ) : Sequencer τ ρ := { s with aborted := true }

/-- Empties the sequencer, but for what is being worked on. -/
def clear (s : Sequencer τ ρ) : Sequencer τ ρ :=
  { s with input := [], output := [], nextInsert := 0, nextEmit := 0, total := 0, processed := 0 }

end Sequencer

end ConsensusCore
