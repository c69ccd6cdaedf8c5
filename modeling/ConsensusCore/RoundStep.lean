/-!
# Round steps

A height is decided in rounds, and a round passes through steps, always in the
same order. The position of a validator is the triple of height, round and step
(`RoundStep`). Positions are ordered lexicographically, so a later position is
one that is reached later. Votes come in two types, one for each of the two
voting steps.
-/

namespace ConsensusCore

/-- The steps of a round, in the order in which it passes through them. -/
inductive Step where
  /-- Waiting out the commit timeout before the next height. -/
  | newHeight
  /-- Setting up a round. -/
  | newRound
  /-- Waiting for the proposal of the leader. -/
  | propose
  /-- Casting the prevote. -/
  | prevote
  /-- Two thirds have prevoted, but for no one thing. -/
  | prevoteWait
  /-- Casting the precommit. -/
  | precommit
  /-- Two thirds have precommitted, but for no one thing. -/
  | precommitWait
  /-- The block is committed. -/
  | commit
deriving DecidableEq, Repr

namespace Step

/-- All steps, in order. -/
def all : List Step :=
  [newHeight, newRound, propose, prevote, prevoteWait, precommit, precommitWait, commit]

/-- The place of a step among all steps. -/
def index : Step → Nat
  | newHeight => 0
  | newRound => 1
  | propose => 2
  | prevote => 3
  | prevoteWait => 4
  | precommit => 5
  | precommitWait => 6
  | commit => 7

theorem all_index (s : Step) : all[s.index]? = some s := by cases s <;> rfl

theorem index_of_all {i : Nat} {s : Step} (h : all[i]? = some s) : s.index = i := by
  match i with
  | 0 | 1 | 2 | 3 | 4 | 5 | 6 | 7 => cases h; rfl
  | i + 8 => simp [all] at h

/-- The name of a step. -/
def name : Step → String
  | newHeight => "NewHeight"
  | newRound => "NewRound"
  | propose => "Propose"
  | prevote => "Prevote"
  | prevoteWait => "PrevoteWait"
  | precommit => "Precommit"
  | precommitWait => "PrecommitWait"
  | commit => "Commit"

end Step

/-- The two types of votes. -/
inductive VoteType where
  | prevote
  | precommit
deriving DecidableEq, Repr

namespace VoteType

/-- Both types of votes, in order. -/
def all : List VoteType := [prevote, precommit]

/-- The place of a type of votes among both. -/
def index : VoteType → Nat
  | prevote => 0
  | precommit => 1

theorem all_index (v : VoteType) : all[v.index]? = some v := by cases v <;> rfl

theorem index_of_all {i : Nat} {v : VoteType} (h : all[i]? = some v) : v.index = i := by
  match i with
  | 0 | 1 => cases h; rfl
  | i + 2 => simp [all] at h

/-- The name of a type of votes. -/
def name : VoteType → String
  | prevote => "Prevote"
  | precommit => "Precommit"

end VoteType

/-- A position of the state machine. -/
structure RoundStep where
  height : UInt64
  round : UInt32
  step : Step
deriving DecidableEq, Repr

namespace RoundStep

/-- The position before any other. -/
def first : RoundStep := ⟨0, 0, .newHeight⟩

/-- The lexicographic order of positions. -/
protected def lt (a b : RoundStep) : Prop :=
  a.height < b.height ∨ a.height = b.height ∧
    (a.round < b.round ∨ a.round = b.round ∧ a.step.index < b.step.index)

instance : LT RoundStep := ⟨RoundStep.lt⟩

instance (a b : RoundStep) : Decidable (a < b) :=
  inferInstanceAs (Decidable (a.height < b.height ∨ a.height = b.height ∧
    (a.round < b.round ∨ a.round = b.round ∧ a.step.index < b.step.index)))

protected theorem lt_irrefl (a : RoundStep) : ¬a < a := by
  rintro (h | ⟨-, h | ⟨-, h⟩⟩)
  · exact UInt64.lt_irrefl _ h
  · exact UInt32.lt_irrefl _ h
  · exact Nat.lt_irrefl _ h

protected theorem lt_trans {a b c : RoundStep} (hab : a < b) (hbc : b < c) : a < c := by
  rcases hab with hab | ⟨hab, hround⟩ <;> rcases hbc with hbc | ⟨hbc, hround'⟩
  · exact .inl (UInt64.lt_trans hab hbc)
  · exact .inl (hbc ▸ hab)
  · exact .inl (hab ▸ hbc)
  · refine .inr ⟨hab.trans hbc, ?_⟩
    rcases hround with hround | ⟨hround, hstep⟩ <;> rcases hround' with hround' | ⟨hround', hstep'⟩
    · exact .inl (UInt32.lt_trans hround hround')
    · exact .inl (hround' ▸ hround)
    · exact .inl (hround ▸ hround')
    · exact .inr ⟨hround.trans hround', Nat.lt_trans hstep hstep'⟩

instance : Ord RoundStep := ⟨fun a b => compareOfLessAndEq a b⟩

/-- The later of two positions. -/
instance : Max RoundStep := ⟨fun a b => if b < a then a else b⟩

/-- The earlier of two positions. -/
instance : Min RoundStep := ⟨fun a b => if b < a then b else a⟩

/-- The positions in order. -/
def sort (ps : List RoundStep) : List RoundStep := ps.mergeSort fun a b => !decide (b < a)

/-- The position as height, round and step between slashes. -/
def toText (p : RoundStep) : String := s!"{p.height}/{p.round}/" ++ p.step.name

end RoundStep

end ConsensusCore
