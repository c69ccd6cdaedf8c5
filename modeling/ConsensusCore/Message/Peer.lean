import ConsensusCore.Bytes.Basic
import ConsensusCore.Codec.Registry
import ConsensusCore.RoundStep

/-!
# Peer messages

What validators tell each other while they decide a height: where they are, what
they have seen, what they propose and how they vote. Most messages belong to a
height and a round; those that ask for a block and carry it do not.
-/

namespace ConsensusCore

/-- Announces the position of the sender. -/
structure NewRoundStep where
  height : UInt64
  round : UInt32
  step : Step
  /-- The seconds since the sender entered the height. -/
  secondsSinceStart : UInt64
  /-- The round of the last commit, if the sender has one. -/
  lastCommitRound : Option UInt32
deriving DecidableEq

/-- Tells that the sender sees a valid block for a round. -/
structure NewValidBlock where
  height : UInt64
  round : UInt32
  blockHash : Hash
  isCommit : Bool
deriving DecidableEq

/-- Tells that the sender holds a vote already. -/
structure HasVote where
  height : UInt64
  round : UInt32
  voteType : VoteType
  /-- The index of the voter among the validators. -/
  index : UInt32
deriving DecidableEq

/-- The block that the leader of a round proposes. -/
structure Proposal where
  height : UInt64
  round : UInt32
  /-- The round of the lock under which the block is proposed again, if it is. -/
  lockRound : Option UInt32
  blockHash : Hash
  /-- Milliseconds since the epoch. -/
  timestamp : Int64
  proposer : PublicKey
  signature : Blob
deriving DecidableEq

/-- A vote for a block, or for none. -/
structure Vote where
  voteType : VoteType
  height : UInt64
  round : UInt32
  blockHash : Option Hash
  /-- Milliseconds since the epoch. -/
  timestamp : Int64
  validator : PublicKey
  index : UInt32
  signature : Blob
deriving DecidableEq

/-- Claims two thirds of the votes of a round for a block. -/
structure VoteSetMaj23 where
  height : UInt64
  round : UInt32
  voteType : VoteType
  blockHash : Hash
deriving DecidableEq

/-- Asks for the block of a proposal. -/
structure GetProposalBlock where
  blockHash : Hash
deriving DecidableEq

/-- Carries the block of a proposal, as it is encoded elsewhere. -/
structure ProposalBlock where
  block : Blob
deriving DecidableEq

/-- A message between validators. -/
inductive PeerMessage where
  | newRoundStep (m : NewRoundStep)
  | newValidBlock (m : NewValidBlock)
  | hasVote (m : HasVote)
  | proposal (m : Proposal)
  | vote (m : Vote)
  | voteSetMaj23 (m : VoteSetMaj23)
  | getProposalBlock (m : GetProposalBlock)
  | proposalBlock (m : ProposalBlock)
deriving DecidableEq

namespace PeerMessage

/-- The variants of peer messages, in the order of their codes. -/
inductive Variant where
  | newRoundStep
  | newValidBlock
  | hasVote
  | proposal
  | vote
  | voteSetMaj23
  | getProposalBlock
  | proposalBlock
deriving DecidableEq, Repr

namespace Variant

/-- All variants, in order. -/
def all : List Variant :=
  [newRoundStep, newValidBlock, hasVote, proposal, vote, voteSetMaj23, getProposalBlock,
    proposalBlock]

/-- The code of a variant. -/
def code : Variant → UInt8
  | newRoundStep => 0
  | newValidBlock => 1
  | hasVote => 2
  | proposal => 3
  | vote => 4
  | voteSetMaj23 => 5
  | getProposalBlock => 6
  | proposalBlock => 7

/-- The name of a variant. -/
def name : Variant → String
  | newRoundStep => "new_round_step"
  | newValidBlock => "new_valid_block"
  | hasVote => "has_vote"
  | proposal => "proposal"
  | vote => "vote"
  | voteSetMaj23 => "vote_set_maj23"
  | getProposalBlock => "get_proposal_block"
  | proposalBlock => "proposal_block"

end Variant

/-- The variant of a message. -/
def variant : PeerMessage → Variant
  | newRoundStep _ => .newRoundStep
  | newValidBlock _ => .newValidBlock
  | hasVote _ => .hasVote
  | proposal _ => .proposal
  | vote _ => .vote
  | voteSetMaj23 _ => .voteSetMaj23
  | getProposalBlock _ => .getProposalBlock
  | proposalBlock _ => .proposalBlock

instance : Coded PeerMessage := ⟨fun m => m.variant.code⟩

/-- The height that a message belongs to. -/
def height? : PeerMessage → Option UInt64
  | newRoundStep m => some m.height
  | newValidBlock m => some m.height
  | hasVote m => some m.height
  | proposal m => some m.height
  | vote m => some m.height
  | voteSetMaj23 m => some m.height
  | getProposalBlock _ | proposalBlock _ => none

/-- The round that a message belongs to. -/
def round? : PeerMessage → Option UInt32
  | newRoundStep m => some m.round
  | newValidBlock m => some m.round
  | hasVote m => some m.round
  | proposal m => some m.round
  | vote m => some m.round
  | voteSetMaj23 m => some m.round
  | getProposalBlock _ | proposalBlock _ => none

/-- The position that a message announces. -/
def roundStep? : PeerMessage → Option RoundStep
  | newRoundStep m => some ⟨m.height, m.round, m.step⟩
  | _ => none

end PeerMessage

end ConsensusCore
