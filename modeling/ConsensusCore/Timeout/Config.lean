import ConsensusCore.Duration
import ConsensusCore.RoundStep
import ConsensusCore.Saturating

/-!
# Configured timeouts

How long a validator waits in each step of a round, in milliseconds. Waiting
grows linearly with the round, so that a height held up by slow leaders or a
partitioned network gives every step enough time in the end.
-/

namespace ConsensusCore

/-- The timeouts of the steps of a round, in milliseconds. -/
structure TimeoutConfig where
  propose : UInt64
  /-- What the propose timeout grows by with each round. -/
  proposeDelta : UInt64
  prevote : UInt64
  prevoteDelta : UInt64
  precommit : UInt64
  precommitDelta : UInt64
  /-- The wait between a commit and the next height. -/
  commit : UInt64
deriving DecidableEq

/-- A timeout that must be positive and is not; `setting` is its name. -/
structure InvalidTimeout where
  setting : String
deriving DecidableEq, Repr

/-- The error in words. -/
def InvalidTimeout.message (e : InvalidTimeout) : String := e.setting ++ " must be > 0"

namespace TimeoutConfig

/-- The timeouts of a network. -/
def default : TimeoutConfig := ⟨3000, 500, 1000, 500, 1000, 500, 1000⟩

/-- The timeouts of a network within one machine. -/
def dev : TimeoutConfig := ⟨40, 5, 10, 5, 10, 5, 10⟩

/-- The timeout of a step in round 0, and what it grows by with each round: the
    first steps lead straight to a proposal, and to wait for votes takes as long
    as to cast them. -/
def baseAndDelta (c : TimeoutConfig) : Step → UInt64 × UInt64
  | .newHeight | .newRound | .propose => (c.propose, c.proposeDelta)
  | .prevote | .prevoteWait => (c.prevote, c.prevoteDelta)
  | .precommit | .precommitWait => (c.precommit, c.precommitDelta)
  | .commit => (c.commit, 0)

/-- The timeout of a step in a round. -/
def duration (c : TimeoutConfig) (step : Step) (round : UInt32) : Duration :=
  let (base, delta) := c.baseAndDelta step
  .ofMillis (Saturating.add base.toNat (Saturating.mul delta.toNat round.toNat))

/-- Refuses configurations in which a step cannot wait at all. -/
def validate (c : TimeoutConfig) : Except InvalidTimeout Unit :=
  if c.propose = 0 then .error ⟨"propose_ms"⟩
  else if c.prevote = 0 then .error ⟨"prevote_ms"⟩
  else if c.precommit = 0 then .error ⟨"precommit_ms"⟩
  else .ok ()

end TimeoutConfig

end ConsensusCore
