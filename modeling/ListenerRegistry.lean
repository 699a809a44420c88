import ListenerRegistry.Report
import ListenerRegistry.Proofs.Serialization
import ListenerRegistry.Proofs.Lifetime
import ListenerRegistry.Proofs.Coherence
import ListenerRegistry.Proofs.Representation
import ListenerRegistry.Proofs.Retaining
import ListenerRegistry.Proofs.Directory
import ListenerRegistry.Proofs.Refinement
import ListenerRegistry.Proofs.Veil
import ListenerRegistry.Proofs.VeiledWorld
import ListenerRegistry.Proofs.Blindness
import ListenerRegistry.Proofs.Indifference
import ListenerRegistry.Proofs.Programs
import ListenerRegistry.Proofs.Owners
import ListenerRegistry.Proofs.KeySets
import ListenerRegistry.Proofs.Closing
import ListenerRegistry.Proofs.Pruning
import ListenerRegistry.Proofs.Requests
import ListenerRegistry.Proofs.Continuations
import ListenerRegistry.Proofs.Mirror
import ListenerRegistry.Proofs.Overwriting
import ListenerRegistry.Proofs.Traffic
import ListenerRegistry.Proofs.Tracing
import ListenerRegistry.Proofs.Emptying
import ListenerRegistry.Proofs.Sections
