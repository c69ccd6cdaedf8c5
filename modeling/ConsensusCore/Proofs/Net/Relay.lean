import ConsensusCore.Proofs.Log.Archive
import ConsensusCore.Proofs.Log.Replay
import ConsensusCore.Proofs.Net.Connection

/-!
# The same bytes on disk and on a connection

A message of a peer has one envelope, which both of the places that it goes to take as it is.
A frame puts a length before it. An input of the state machine puts its own code, a length,
the name of the peer and another length before it (`PeerInput.front`), and the record of the
input a checksum and a length before all that. So the bytes at the end of the record are what
was on the connection, and can go to one again as they are.

* `carries_same_bytes`: what goes to the log and what goes to a connection end in the same
  bytes, in which either side finds the same message.
-/

namespace ConsensusCore

/-- What comes before the envelope of the message in the envelope of an input. -/
def PeerInput.front (m : PeerInput) : Bytes :=
  Field.word8.put Input.Variant.message.code ++
    LittleEndian.toBytes 8 (Input.message m).payload.length ++
    Field.peerId.put m.peer ++ LittleEndian.toBytes 8 m.message.envelope.length

/-- The envelope of an input ends with that of its message. -/
theorem PeerInput.envelope_eq (m : PeerInput) :
    (Input.message m).envelope = m.front ++ m.message.envelope := by
  simp only [Input.envelope, Registry.envelope, Field.pair, Field.bytes, PeerInput.front,
    Input.variant, Input.payload, Field.peerInput, List.append_assoc]

namespace Log

variable {log : Log} {id : FileId} {m : Input}

/-- A message that is not too long is added to the file of the head as a record. -/
theorem write_of_fits (hregistry : log.registry = Workbench.registry)
    (hhead : log.group.head = some id) (hid : id < log.disk.contents.length)
    (hm : m.envelope.length ≤ log.group.config.maxRecordSize) :
    ∃ log', log.write m = .ok log' ∧
      log'.disk.content id = log.disk.content id ++ Record.encode m.envelope := by
  have hopen : log.group.isClosed = false := by rw [Group.isClosed, hhead]; rfl
  obtain ⟨log', hwrite⟩ := (write_iff hregistry hopen m).2 hm
  obtain ⟨-, g, d, hgroup, rfl⟩ := write_ok hregistry hwrite
  simp only [Group.write, hhead, Except.ok.injEq, Prod.mk.injEq] at hgroup
  obtain ⟨-, rfl⟩ := hgroup
  refine ⟨_, hwrite, ?_⟩
  rw [Disk.content_append hid, if_pos rfl]

end Log

namespace Connection

variable {μ : Type} {r : Registry μ} {max : Nat} {body : Bytes} {pieces : List Bytes}

/-- A frame by itself is taken when the last piece of it has come, and nothing of it is left. -/
theorem feedAll_frame (hmax : body.length ≤ max) (hsize : body.length < 2 ^ 32)
    (hpieces : pieces.flatten = Frame.frame body) :
    feedAll max new pieces = ([body], new) := by
  have hsplit : Frame.split max (Frame.frame body) = ([body], .incomplete []) := by
    have h := Frame.split_of_body (Frame.read_frame hmax hsize [])
    rwa [List.append_nil, Frame.split_nil] at h
  obtain ⟨-, hafter⟩ := feedAll_after max [] pieces
  rw [after_nil, List.nil_append, hpieces, after, hsplit] at hafter
  exact Prod.ext ((feedAll_new max pieces).trans (by rw [hpieces, hsplit])) hafter

end Connection

/-- Where neither limit is in the way, a message of a peer goes to a connection as four bytes
    for a length and its envelope; and written to a log that is open, as eight bytes of a header
    and an envelope that ends with the same bytes. These, put in a frame again, come to a
    connection as the message, in whatever pieces; and the record is read back as an envelope
    with the peer and the message that is in the frame. -/
theorem carries_same_bytes (p : PeerId) (m : PeerMessage) {max : Nat} {log : Log} {id : FileId}
    (hregistry : log.registry = Registry.inputs Registry.peers)
    (hvalid : log.group.config.validate = .ok ())
    (hhead : log.group.head = some id) (hid : id < log.disk.contents.length)
    (hmax : m.envelope.length ≤ max)
    (hrecord : (Input.message ⟨p, m⟩).envelope.length ≤ log.group.config.maxRecordSize) :
    ∃ w header front log',
      Registry.peers.encode m = .ok w ∧
      Frame.encode Registry.peers max m = .ok (LittleEndian.toBytes 4 w.length ++ w) ∧
      log.registry.encode (.message ⟨p, m⟩) = .ok (front ++ w) ∧ header.length = 8 ∧
      log.write (.message ⟨p, m⟩) = .ok log' ∧
      log'.disk.content id = log.disk.content id ++ (header ++ (front ++ w)) ∧
      (∀ tail, tail <:+ header ++ (front ++ w) → tail.length = w.length →
        ∀ pieces : List Bytes, pieces.flatten = Frame.frame tail →
          ∃ bodies, Connection.feedAll max .new pieces = (bodies, .new) ∧
            Connection.messages Registry.peers bodies = [m]) ∧
      Record.read log.group.config.maxRecordSize (header ++ (front ++ w)) =
        (.record (front ++ w), []) ∧
      Frame.decode Registry.peers w = .ok m ∧
      log.registry.decode (front ++ w) = .ok (.message ⟨p, m⟩) := by
  have henvelope := PeerInput.envelope_eq ⟨p, m⟩
  have hfits : Record.Fits log.group.config.maxRecordSize (Input.message ⟨p, m⟩).envelope :=
    ⟨hrecord, Nat.lt_of_le_of_lt hrecord (LogConfig.maxRecordSize_lt hvalid)⟩
  -- what is shorter than an envelope that has a record has a frame
  have hsize : m.envelope.length < 2 ^ 32 := by
    refine Nat.lt_of_le_of_lt ?_ hfits.2
    rw [henvelope, List.length_append]
    exact Nat.le_add_left _ _
  obtain ⟨log', hwrite, hcontent⟩ := Log.write_of_fits hregistry hhead hid hrecord
  have hread := Record.read_encode hfits []
  have hdecode : Frame.decode Registry.peers m.envelope = .ok m := by
    rw [Frame.decode, Registry.decode_peers]
    rfl
  rw [Record.encode_eq, henvelope] at hcontent
  rw [List.append_nil, Record.encode_eq, henvelope] at hread
  refine ⟨m.envelope, Record.header (PeerInput.front ⟨p, m⟩ ++ m.envelope),
    PeerInput.front ⟨p, m⟩, log', Registry.encode_peers m, ?_, ?_, Record.length_header _, hwrite,
    hcontent, ?_, hread, hdecode, ?_⟩
  · rw [Frame.encode, Registry.encode_peers]
    exact if_neg (not_or.2 ⟨Nat.not_lt.2 hmax, Nat.not_le.2 hsize⟩)
  · rw [hregistry, Registry.encode_inputs, henvelope]
  · intro tail htail hlength pieces hpieces
    obtain rfl : tail = m.envelope := by
      have hend (header front : Bytes) : m.envelope <:+ header ++ (front ++ m.envelope) := by
        rw [← List.append_assoc]
        exact List.suffix_append _ _
      exact (List.suffix_of_suffix_length_le htail (hend _ _) (Nat.le_of_eq hlength)).eq_of_length
        hlength
    refine ⟨_, Connection.feedAll_frame hmax hsize hpieces, ?_⟩
    rw [Connection.messages, List.filterMap_cons_some (b := m) (by rw [hdecode]; rfl)]
    rfl
  · rw [hregistry, ← henvelope, Registry.decode_inputs]

/-- A log has been created, and a peer asks for the block of a proposal. -/
theorem carries_same_bytes_created :
    let log : Log := ⟨⟨[(["root", "WAL"], .file 0), (["root"], .directory)], [[]]⟩,
      ⟨LogConfig.dev "root", some 0, 0, 0, 0⟩, Workbench.registry⟩
    let request : PeerMessage := .getProposalBlock ⟨.replicate 32 3⟩
    Log.openIn (LogConfig.dev "root") Workbench.registry (Workbench.empty "root").disk =
        (.ok log, log.disk) ∧
      ∃ w front log', w.length = 41 ∧
        Frame.encode Registry.peers 64 request = .ok (LittleEndian.toBytes 4 41 ++ w) ∧
        log.write (.message ⟨⟨"peer", by decide⟩, request⟩) = .ok log' ∧
        log'.disk.content 0 = front ++ w ∧ Frame.decode Registry.peers w = .ok request := by
  intro log request
  obtain ⟨w, header, front, log', hencode, hframe, -, -, hwrite, hcontent, -, -, hdecode, -⟩ :=
    @carries_same_bytes ⟨"peer", by decide⟩ request 64 log 0 rfl rfl rfl (by decide)
      (by decide) (by decide)
  have hw : w.length = 41 := by
    cases hencode.symm.trans (Registry.encode_peers request)
    decide
  rw [hw] at hframe
  have hopen : Group.openIn (LogConfig.dev "root") (Workbench.empty "root").disk =
      (.ok log.group, log.disk) := by decide +kernel
  refine ⟨?_, w, header ++ front, log', hw, hframe, hwrite, ?_, hdecode⟩
  · rw [Log.openIn, hopen]
    rfl
  · rw [List.append_assoc]
    exact hcontent

end ConsensusCore
