import Iocp.Library.Transition
import Iocp.Library.Totals
import Iocp.Library.Mailbox
import Iocp.Library.Flags
import Iocp.Model.Pipe
import Iocp.Pipe.Options
import Iocp.Model.Basic
import Iocp.Model.Pool
import Iocp.Model.Header
import Iocp.Model.Operation
import Iocp.Model.Owner
import Iocp.Model.Steps
import Iocp.Model.Port
import Iocp.Model.World
import Iocp.Model.Machine
import Iocp.Model.Schedule
import Iocp.Model.Inversion
import Iocp.Model.Background
import Iocp.Link.View
import Iocp.Link.Projection
import Iocp.Link.Lift
import Iocp.Link.References
import Iocp.Link.LockWord
import Iocp.Link.History
import Iocp.Link.Collection
import Iocp.Link.Spurious
import Iocp.Link.Resumption
import Iocp.Link.Attribution
import Iocp.Link.Delivery
import Iocp.Link.Wakeup
import Iocp.Link.Lending
import Iocp.Port.Counter
import Iocp.Port.Shares
import Iocp.Port.Messages
import Iocp.Port.Shutdown
import Iocp.Port.Loops
import Iocp.Port.Drain
import Iocp.Link.Repoll
import Iocp.Calls.Inline
import Iocp.Calls.Serial
import Iocp.Calls.Refinement
import Iocp.Calls.Reports
import Iocp.Calls.WriteAll
import Iocp.Pool.Capacity
import Iocp.Pool.Sockets
import Iocp.Link.Accepts
import Iocp.Port.Association
import Iocp.Port.Packets
import Iocp.Link.Interference
import Iocp.Calls.Failure
import Iocp.Link.Indices
import Iocp.Calls.Cursor
import Iocp.Library.Loans
import Iocp.Pool.Lender
import Iocp.Library.Extents
import Iocp.Library.Progress
import Iocp.Model.AtomicWaker
import Iocp.Model.FineWorld
import Iocp.Waker.Exclusion
import Iocp.Waker.Refinement
import Iocp.Waker.Calls
import Iocp.Waker.Wakeups
import Iocp.Waker.System
import Iocp.Waker.Traces
import Iocp.Link.Transfers
import Iocp.Link.Files
import Iocp.Link.Pipes
import Iocp.Link.EndOfFile
import Iocp.Progress.Rank
import Iocp.Progress.Quiet
import Iocp.Progress.Settled
import Iocp.Progress.Join
import Iocp.Progress.Await
import Iocp.Progress.Woken
import Iocp.Progress.Prompt
