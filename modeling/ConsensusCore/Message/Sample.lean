import ConsensusCore.Message.Peer

/-!
# Sample messages

One message of each variant, for those who want to try an encoding out.
-/

namespace ConsensusCore.PeerMessage

/-- A blob of a few bytes. -/
private def small (bs : Bytes) (h : bs.length < Blob.limit := by decide) : Blob := ⟨bs, h⟩

/-- One message of each variant, in the order of their codes. -/
def samples : List PeerMessage :=
  let hash : Hash := .replicate 32 7
  let validator : PublicKey := .replicate 32 9
  [ .newRoundStep ⟨100, 1, .prevote, 3, some 0⟩,
    .newValidBlock ⟨100, 1, hash, false⟩,
    .hasVote ⟨100, 1, .prevote, 4⟩,
    .proposal ⟨100, 1, none, hash, 1700000000000, validator, small [1, 2, 3, 4]⟩,
    .vote ⟨.precommit, 100, 1, none, 1700000000500, validator, 4, small (List.replicate 96 5)⟩,
    .voteSetMaj23 ⟨100, 1, .precommit, hash⟩,
    .getProposalBlock ⟨hash⟩,
    .proposalBlock ⟨small [0xde, 0xad, 0xbe, 0xef]⟩ ]

end ConsensusCore.PeerMessage
