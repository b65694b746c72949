import Octets.Message
import Octets.Session
import Octets.Proofs.Allocator
import Octets.Proofs.Atomicity
import Octets.Proofs.Availability
import Octets.Proofs.Frame
import Octets.Proofs.Independence
import Octets.Proofs.Message
import Octets.Proofs.Occurrence
import Octets.Proofs.Record
import Octets.Proofs.Rotation
import Octets.Proofs.Session
import Octets.Proofs.Transcoding
import Octets.Proofs.Alignment
import Octets.Proofs.Damage
import Octets.Proofs.Forgiving
import Octets.Proofs.Surrogate
import Octets.Proofs.Writing
import Octets.Proofs.Acceptance
import Octets.Proofs.Integral
import Octets.Proofs.Positional
import Octets.Proofs.Restoring
import Octets.Proofs.Character
import Octets.Proofs.Subrange
import Octets.Proofs.Repetition
import Octets.Proofs.Moving
import Octets.Proofs.Swapping
import Octets.Proofs.Presence
import Octets.Proofs.Joining
import Octets.Proofs.Slicing
import Octets.Proofs.Estimate
import Octets.Proofs.Filling
import Octets.Proofs.Hexadecimal
import Octets.Proofs.Interchange
import Octets.Proofs.Quoting
import Octets.Proofs.Literal
import Octets.Proofs.Numeral
import Octets.Proofs.Grouping
