import ConsensusCore.Message.Sample
import ConsensusCore.Timeout.Config
import ConsensusCore.Timeout.Ticker
import ConsensusCore.Log.Workbench
import ConsensusCore.Concurrency.Alarms
import ConsensusCore.Concurrency.Lock.Callers
import ConsensusCore.Concurrency.Pool.Callers
import ConsensusCore.Concurrency.Runner.Callers
import ConsensusCore.Concurrency.Sequencer.Callers
import ConsensusCore.Concurrency.Timer
import ConsensusCore.Net.Config
import ConsensusCore.Net.Exchange
import ConsensusCore.Proofs.Log.Recovery
import ConsensusCore.Proofs.Log.Search
import ConsensusCore.Proofs.Log.Session
import ConsensusCore.Proofs.Message.Canonical
import ConsensusCore.Proofs.Net.Frame
import ConsensusCore.Proofs.Concurrency.Simulation
import ConsensusCore.Proofs.Concurrency.WaitingLine
import ConsensusCore.Proofs.Timeout.Ticker
import ConsensusCore.Proofs.Concurrency.Lock
import ConsensusCore.Proofs.Concurrency.Sequencer
import ConsensusCore.Proofs.Log.Stepping
import ConsensusCore.Proofs.Log.Damage
import ConsensusCore.Proofs.Log.Misframing
import ConsensusCore.Proofs.Log.Trimming
import ConsensusCore.Proofs.Concurrency.Pool.Loans
import ConsensusCore.Proofs.Concurrency.Pool.Lending
import ConsensusCore.Proofs.Concurrency.Pool.Eviction
import ConsensusCore.Proofs.Net.Connection
import ConsensusCore.Proofs.Net.Exchange
import ConsensusCore.Proofs.Log.Retention
import ConsensusCore.Proofs.Log.Clearing
import ConsensusCore.Proofs.Log.Reopening
import ConsensusCore.Proofs.Concurrency.Lock.Slots
import ConsensusCore.Proofs.Concurrency.Lock.Admission
import ConsensusCore.Proofs.Concurrency.Sequencer.Order
import ConsensusCore.Proofs.Concurrency.Sequencer.Crew
import ConsensusCore.Proofs.Concurrency.Sequencer.Stopping
import ConsensusCore.Proofs.Concurrency.Lock.Calls
import ConsensusCore.Proofs.Codec.Registration
import ConsensusCore.Proofs.Message.Assignment
import ConsensusCore.Proofs.Net.Relay
import ConsensusCore.Proofs.Concurrency.Sequencer.Admission
import ConsensusCore.Proofs.Concurrency.Alarms
import ConsensusCore.Proofs.Concurrency.Runner.Bounds
import ConsensusCore.Proofs.Log.Detection
import ConsensusCore.Proofs.Log.Obstruction
import ConsensusCore.Proofs.Log.Folder
import ConsensusCore.Proofs.Log.Emptying
import ConsensusCore.Proofs.Concurrency.Barrier.Callers
import ConsensusCore.Proofs.Concurrency.Pool.Turns
import ConsensusCore.Proofs.Concurrency.Timer.Callers
import ConsensusCore.Proofs.Message.Delimiting
import ConsensusCore.Proofs.Log.Framing
import ConsensusCore.Proofs.Log.Sealing
