import FlowTyping.Proofs.Flow.Absorption
import FlowTyping.Proofs.Flow.Convergence
import FlowTyping.Proofs.Flow.Implicit
import FlowTyping.Proofs.Flow.Moves
import FlowTyping.Proofs.Flow.Observation
import FlowTyping.Proofs.Forest.Numbering
import FlowTyping.Proofs.Name.Shared
import FlowTyping.Proofs.Session
import FlowTyping.Stored
import FlowTyping.Text.Record
import FlowTyping.Proofs.Forest.Declaring
import FlowTyping.Proofs.Forest.Eventual
import FlowTyping.Proofs.Flow.Uniting
import FlowTyping.Proofs.Session.Failure
import FlowTyping.Proofs.Forest.Faults
import FlowTyping.Proofs.Flow.Enclosing
import FlowTyping.Proofs.Forest.VisibleVariables
import FlowTyping.Proofs.Session.Faults
import FlowTyping.Proofs.Flow.Compaction
import FlowTyping.Proofs.Flow.Leaving
import FlowTyping.Proofs.Forest.Receiver
import FlowTyping.Proofs.Flow.Unique
import FlowTyping.Proofs.Flow.ImplicitAgreement
import FlowTyping.Proofs.Forest.Completing
import FlowTyping.Proofs.Session.Reserved
import FlowTyping.Proofs.TypeTable.Semilattice
