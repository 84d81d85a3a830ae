import Aesd.Proofs.Address
import Aesd.Proofs.Blocked
import Aesd.Proofs.Descriptors
import Aesd.Proofs.Drain
import Aesd.Proofs.Echo
import Aesd.Proofs.EndOfPacket
import Aesd.Proofs.Eviction
import Aesd.Proofs.Exclusion
import Aesd.Proofs.Forgotten
import Aesd.Proofs.GivenBack
import Aesd.Proofs.Ledger
import Aesd.Proofs.Mixing
import Aesd.Proofs.Moment
import Aesd.Proofs.Positions
import Aesd.Proofs.Readers
import Aesd.Proofs.Refinement
import Aesd.Proofs.Reply
import Aesd.Proofs.Requests
import Aesd.Proofs.SeekText
import Aesd.Proofs.Shutdown
import Aesd.Proofs.Stopping
import Aesd.Proofs.SystemCalls
import Aesd.Proofs.Together
