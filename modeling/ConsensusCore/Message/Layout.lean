import ConsensusCore.Message.Input

/-!
# Layouts of payloads

The fields of the payload of each variant, in the order in which they are
written. A peer message inside an input is carried as its own envelope, so what
goes to disk ends with the very bytes that go to the network; the layout of such
a payload (`Field.peerInput`) leaves the envelope as bytes.
-/

namespace ConsensusCore.Field

/-- The payload of `PeerMessage.newRoundStep`. -/
def newRoundStep : Field NewRoundStep :=
  (word64.pair (word32.pair (step.pair (word64.pair (optional word32))))).map
    (fun (height, round, step, secondsSinceStart, lastCommitRound) =>
      ⟨height, round, step, secondsSinceStart, lastCommitRound⟩)
    (fun m => (m.height, m.round, m.step, m.secondsSinceStart, m.lastCommitRound))

/-- The payload of `PeerMessage.newValidBlock`. -/
def newValidBlock : Field NewValidBlock :=
  (word64.pair (word32.pair ((fixedBytes 32).pair bool))).map
    (fun (height, round, blockHash, isCommit) => ⟨height, round, blockHash, isCommit⟩)
    (fun m => (m.height, m.round, m.blockHash, m.isCommit))

/-- The payload of `PeerMessage.hasVote`. -/
def hasVote : Field HasVote :=
  (word64.pair (word32.pair (voteType.pair word32))).map
    (fun (height, round, voteType, index) => ⟨height, round, voteType, index⟩)
    (fun m => (m.height, m.round, m.voteType, m.index))

/-- The payload of `PeerMessage.proposal`. -/
def proposal : Field Proposal :=
  (word64.pair (word32.pair ((optional word32).pair ((fixedBytes 32).pair
    (int64.pair ((fixedBytes 32).pair blob)))))).map
    (fun (height, round, lockRound, blockHash, timestamp, proposer, signature) =>
      ⟨height, round, lockRound, blockHash, timestamp, proposer, signature⟩)
    (fun m => (m.height, m.round, m.lockRound, m.blockHash, m.timestamp, m.proposer, m.signature))

/-- The payload of `PeerMessage.vote`. -/
def vote : Field Vote :=
  (voteType.pair (word64.pair (word32.pair ((optional (fixedBytes 32)).pair
    (int64.pair ((fixedBytes 32).pair (word32.pair blob))))))).map
    (fun (voteType, height, round, blockHash, timestamp, validator, index, signature) =>
      ⟨voteType, height, round, blockHash, timestamp, validator, index, signature⟩)
    (fun m => (m.voteType, m.height, m.round, m.blockHash, m.timestamp, m.validator, m.index,
      m.signature))

/-- The payload of `PeerMessage.voteSetMaj23`. -/
def voteSetMaj23 : Field VoteSetMaj23 :=
  (word64.pair (word32.pair (voteType.pair (fixedBytes 32)))).map
    (fun (height, round, voteType, blockHash) => ⟨height, round, voteType, blockHash⟩)
    (fun m => (m.height, m.round, m.voteType, m.blockHash))

/-- The payload of `PeerMessage.getProposalBlock`. -/
def getProposalBlock : Field GetProposalBlock :=
  (fixedBytes 32).map (fun blockHash => ⟨blockHash⟩) (fun m => m.blockHash)

/-- The payload of `PeerMessage.proposalBlock`. -/
def proposalBlock : Field ProposalBlock := blob.map (fun block => ⟨block⟩) (fun m => m.block)

/-- The name of a peer. -/
def peerId : Field PeerId where
  put p := text.put p.text
  get bs :=
    match text.get bs with
    | .error e => .error e
    | .ok (s, rest) =>
      match PeerId.ofString? s with
      | some p => .ok (p, rest)
      | none => .error .textOverrun

/-- The payload of `Input.message`: the peer, and the envelope of its message. -/
def peerInput : Field (PeerId × Bytes) := peerId.pair bytes

/-- The payload of `Input.timeout`. -/
def timeout : Field Timeout :=
  (duration.pair (word64.pair (word32.pair step))).map
    (fun (duration, height, round, step) => ⟨duration, height, round, step⟩)
    (fun t => (t.duration, t.height, t.round, t.step))

/-- The payload of `Input.endHeight`. -/
def endHeight : Field EndHeight := word64.map (fun height => ⟨height⟩) (fun m => m.height)

end ConsensusCore.Field
