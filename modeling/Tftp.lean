import Tftp.Disk.Served
import Tftp.Main
import Tftp.Server
import Tftp.Storage.Memory
import Tftp.Proofs.Bytes
import Tftp.Proofs.Storage.Recorded
import Tftp.Proofs.Transfer.Run
import Tftp.Proofs.Chunks
import Tftp.Proofs.Negotiation
import Tftp.Proofs.Packet.Opcode
import Tftp.Proofs.Transfer.Upload
import Tftp.Proofs.Deadlines
import Tftp.Proofs.Storage.Kept
import Tftp.Proofs.Transfer.Download
import Tftp.Proofs.Transfer.Outcome
import Tftp.Proofs.TransferTable
import Tftp.Proofs.Server.Sound
import Tftp.Proofs.Server.Consistent
import Tftp.Proofs.Disk.PathText
import Tftp.Proofs.Disk.Tree
import Tftp.Proofs.Disk.Walk
import Tftp.Proofs.Disk.WellFormed
import Tftp.Proofs.Disk.Opening
import Tftp.Proofs.Disk.Changes
import Tftp.Proofs.Disk.Uploads
import Tftp.Proofs.Disk.Standing
import Tftp.Proofs.Disk.Ledger
import Tftp.Proofs.Disk.NoOverwrite
import Tftp.Proofs.Storage.Image
import Tftp.Proofs.Storage.Simulation
import Tftp.Proofs.Transfer.Simulation
import Tftp.Proofs.Transfer.Image
import Tftp.Proofs.Disk.Reach
import Tftp.Proofs.Disk.Lawful
import Tftp.Proofs.Disk.Resolve
import Tftp.Proofs.Disk.Reading
import Tftp.Proofs.Disk.ReadInside
import Tftp.Proofs.Storage.Independent
import Tftp.Proofs.Transfer.Alike
import Tftp.Proofs.Server.Isolation
import Tftp.Proofs.Disk.Staging
import Tftp.Proofs.Disk.WriteInside
import Tftp.Proofs.Server.Fitting
import Tftp.Proofs.Storage.Journal
import Tftp.Proofs.Disk.Layout
import Tftp.Proofs.Disk.Atomic
import Tftp.Proofs.Packet.Grammar
import Tftp.Proofs.Packet.RoundTrip
import Tftp.Proofs.Server.Untouched
import Tftp.Proofs.Server.Retries
import Tftp.Proofs.Storage.Blamed
import Tftp.Proofs.Transfer.Faults
import Tftp.Proofs.Server.Faults
import Tftp.Proofs.Server.Fate
import Tftp.Proofs.Server.Timers
import Tftp.Proofs.Server.Progress
import Tftp.Proofs.Server.Replies
import Tftp.Proofs.Decimal
import Tftp.Proofs.Transfer.Promise
import Tftp.Proofs.Server.Promise
import Tftp.Proofs.Transfer.Lifetime
import Tftp.Proofs.Disk.Refused
import Tftp.Proofs.Transfer.Stale
import Tftp.Proofs.Transfer.Sendable
import Tftp.Proofs.Transfer.Latest
import Tftp.Proofs.Server.Current
import Tftp.Proofs.Negotiation.First
import Tftp.Proofs.Negotiation.ReadBack
import Tftp.Proofs.Deadlines.Agenda
import Tftp.Proofs.Server.Expiry
import Tftp.Proofs.Disk.Handles
import Tftp.Proofs.Disk.Spelling
import Tftp.Proofs.CommandLine.Number
import Tftp.Proofs.Settings.Numbers
import Tftp.Proofs.Endpoint
import Tftp.Proofs.Settings.Blame
import Tftp.Proofs.Disk.Attribution
import Tftp.Proofs.Decimal.Strict
import Tftp.Proofs.Storage.Cursor
import Tftp.Proofs.Disk.Cursor
