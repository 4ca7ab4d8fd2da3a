import StakeLedger.Account.Counting
import StakeLedger.Account.Storage
import StakeLedger.Account.Totals
import StakeLedger.Config
import StakeLedger.Stream.Channel
import StakeLedger.Stream.Unpacker
import StakeLedger.Proofs.Slots
import StakeLedger.Proofs.Pending
import StakeLedger.Proofs.Effects
import StakeLedger.Proofs.Results
import StakeLedger.Proofs.Origin
import StakeLedger.Proofs.Soundness
import StakeLedger.Proofs.Conservation
import StakeLedger.Proofs.Representation
import StakeLedger.Proofs.Refusal
import StakeLedger.Proofs.Frames
import StakeLedger.Proofs.Chunking
import StakeLedger.Proofs.Waiting
import StakeLedger.Proofs.Finish
import StakeLedger.Proofs.Release
import StakeLedger.Proofs.Reading
import StakeLedger.Proofs.Pieces
import StakeLedger.Proofs.Agreement
import StakeLedger.Proofs.Integers
import StakeLedger.Proofs.RoundTrip
import StakeLedger.Proofs.Records
import StakeLedger.Proofs.Storing
import StakeLedger.Proofs.Saving
import StakeLedger.Proofs.Loaded
import StakeLedger.Proofs.Entries
import StakeLedger.Proofs.Sessions
import StakeLedger.Proofs.Delivery
import StakeLedger.Proofs.Network
import StakeLedger.Proofs.OneSlot
import StakeLedger.Proofs.Rounds
import StakeLedger.Proofs.Reduced
import StakeLedger.Proofs.Forms
import StakeLedger.Proofs.Interrupted
import StakeLedger.Proofs.Fields
import StakeLedger.Proofs.Accepted
import StakeLedger.Proofs.Rewriting
import StakeLedger.Proofs.SignBytes
import StakeLedger.Proofs.Grammar
import StakeLedger.Proofs.Schedules
import StakeLedger.Proofs.Matured
import StakeLedger.Proofs.FinalRelease
import StakeLedger.Proofs.Visits
import StakeLedger.Proofs.Increases
import StakeLedger.Proofs.Adopted
import StakeLedger.Proofs.AmountForms
import StakeLedger.Proofs.Retries
import StakeLedger.Proofs.LockPeriod
import StakeLedger.Proofs.ExactPeriod
import StakeLedger.Proofs.Heights
import StakeLedger.Proofs.Counter
import StakeLedger.Proofs.Totals
import StakeLedger.Proofs.Histories
import StakeLedger.Address.Octets
import StakeLedger.Proofs.Octets
import StakeLedger.Proofs.Naming
import StakeLedger.Proofs.Turns
