import Iocp.Model.Owner
import Iocp.Model.Port

/-!
# The whole system

Any number of handles and sockets, the completion port they share, the
operating system and the threads that drive the port. A thread is either the
closure of `background::setup` or a driver written against the public
interface, which calls `poll` and `poll_during_shutdown` as it likes and
unlocks, releases or drops each status it receives.

## Implementation notes

The lists never lose an element: an owner that was dropped stays at its index
with the program point `dropped`, since its header may outlive it.
The tally and the list of cancellations are history: no step reads them.
-/

namespace Iocp

/-- What a driving thread executes. -/
inductive Loop
  /-- A driver outside this crate. -/
  | user
  /-- The first loop of `setup`. -/
  | main
  /-- The second loop of `setup` with its remaining count. -/
  | drain (pending : Nat)
  /-- The closure of `setup` has returned. -/
  | returned (result : Except IoError Unit)
  deriving DecidableEq

/-- The program point of a driving thread. -/
inductive DriverPc
  /-- No status is held. -/
  | ready
  /-- `GetQueuedCompletionStatus` has returned inside `poll`, or inside
  `poll_during_shutdown` when the flag is set. -/
  | dequeued (during : Bool) (s : Status)
  /-- A status was returned and not yet unlocked. -/
  | status (s : Status)
  /-- `unlock` has seen the positive word `old`; `release` wakes afterwards. -/
  | unlocking (s : Status) (old : Int) (release : Bool)
  /-- `unlock` returned true inside `release`. -/
  | waking (s : Status)
  /-- The status is dropped next. -/
  | done (s : Status)
  deriving DecidableEq

/-- A driving thread. -/
structure Driver where
  loop : Loop
  pc : DriverPc

/-- The steps of a driving thread, with its own choices and those of the hardware. -/
inductive DriverAct
  | dequeue (during : Bool)
  | account
  | load (release : Bool)
  | exchange (spurious : Bool)
  | wake
  | skip
  | drop
  | finish

/-- History of the port: accepted operations, statuses of operations that
`poll` discounted and that `poll_during_shutdown` returned, posted messages
that `poll` discounted, and shutdown messages that `poll` consumed. -/
structure Tally where
  accepted : Nat := 0
  discounted : Nat := 0
  drained : Nat := 0
  posts : Nat := 0
  shutdowns : Nat := 0
  deriving DecidableEq

/-- The state of the system. Besides those inside polls, it counts the permits
that users took with `CompletionPort::permit` and still hold, and their calls
of it that must take a failed addition back. -/
structure World where
  pending : Int
  held : Nat
  undoing : Nat
  queue : List Packet
  inFlight : List Op
  owners : List Owner
  drivers : List Driver
  cancels : List Nat
  tally : Tally

/-- The steps of the system. -/
inductive Action
  /-- A step of a poll or a drop of the owner at an index. -/
  | task (i : Nat) (a : TaskAct)
  /-- The operating system ends an operation in flight and queues its packet. -/
  | complete (k : Nat) (status : Final)
  /-- A step of a driving thread. -/
  | driver (d : Nat) (a : DriverAct)
  /-- `CompletionPort::post` with a null pointer. -/
  | post (key : Nat)
  /-- The addition of a call of `CompletionPort::permit` outside of a poll. -/
  | permit
  /-- The undo of such a call after its addition failed. -/
  | undo
  /-- A permit of such a call is dropped. -/
  | release
  /-- `register_handle`, `register_socket` or `duplicate`. -/
  | create (kind : Kind) (options : RegisterOptions)

namespace Driver

/-- A closure of `setup` only dequeues where its loops do. -/
def mayDequeue (d : Driver) (during : Bool) : Bool :=
  match d.loop with
  | .user => true
  | .main => !during
  | .drain pending => during && 0 < pending
  | .returned _ => false

/-- The closure of `setup` unlocks an aborted status without a wake in its
first loop and releases every other one. -/
def mayProcess (d : Driver) (s : Status) (release : Bool) : Bool :=
  match d.loop with
  | .user => true
  | .main => release = (s.outcome ≠ .aborted : Bool)
  | .drain _ => release
  | .returned _ => false

/-- `unlock` or `release` has returned; the second loop counts the status. -/
def processed (d : Driver) (s : Status) : Driver where
  loop := match d.loop with
    | .drain pending => .drain (pending - 1)
    | loop => loop
  pc := .done s

/-- The loop goes on after `poll` returned. -/
def polled (d : Driver) (s : Status) : CompletionPoll → Driver
  | .status s => { d with pc := .status s }
  | .shutdown pending =>
      { loop := match d.loop with
          | .main => .drain pending
          | loop => loop
        pc := .done s }
  | .error e =>
      { loop := match d.loop with
          | .user => .user
          | _ => .returned (.error e)
        pc := .done s }

/-- The loop goes on after one round of `poll_during_shutdown`. -/
def drained (d : Driver) (s : Status) : DrainPoll → Driver
  | .status s => { d with pc := .status s }
  | .again => { d with pc := .done s }
  | .error e =>
      { loop := match d.loop with
          | .user => .user
          | _ => .returned (.error e)
        pc := .done s }

/-- The driver after an atomic operation of `unlock`. -/
def unlocked (d : Driver) (s : Status) (release : Bool) : UnlockStep → Driver
  | .retry old => { d with pc := .unlocking s old release }
  | .returned true => if release then { d with pc := .waking s } else d.processed s
  | .returned false => d.processed s

end Driver

namespace World

/-- The port of `CompletionPort::create` with the threads that drive it. -/
def start (drivers : List Loop) : World where
  pending := 0
  held := 0
  undoing := 0
  queue := []
  inFlight := []
  owners := []
  drivers := drivers.map fun loop => ⟨loop, .ready⟩
  cancels := []
  tally := {}

/-- The port and the background thread of `setup`. -/
def setup : World := start [.main]

/-- A step of owner `i`. -/
def task (w : World) (i : Nat) (a : TaskAct) : Option World :=
  match w.owners[i]? with
  | none => none
  | some o =>
      (o.act i w.pending a).map fun (o, e) =>
        { w with
          pending := isize (w.pending + e.add)
          owners := w.owners.set i o
          inFlight := w.inFlight ++ e.submit.toList
          cancels := if e.cancel then i :: w.cancels else w.cancels
          tally := { w.tally with accepted := w.tally.accepted + e.submit.toList.length } }

/-- The operating system ends operation `k`. -/
def complete (w : World) (k : Nat) (status : Final) : Option World :=
  match w.inFlight[k]? with
  | none => none
  | some op =>
      if op.admits status then
        some { w with
          inFlight := w.inFlight.eraseIdx k
          queue := w.queue ++ [⟨op.key, some (op, status)⟩]
          owners := w.owners.modify op.owner (·.complete op status) }
      else none

/-- `GetQueuedCompletionStatus` takes the oldest packet. The limit on the threads that the
port lets run at once is not modelled: every run of a port that keeps to it is one here. -/
def dequeue (w : World) (d : Nat) (t : Driver) (during : Bool) : Option World :=
  match t.pc, w.queue with
  | .ready, p :: rest =>
      if t.mayDequeue during then
        some { w with
          queue := rest
          drivers := w.drivers.set d { t with pc := .dequeued during p.status } }
      else none
  | _, _ => none

/-- The history after `poll` counted a status. -/
def tallyPoll (w : World) (s : Status) : Tally :=
  if s.ordinary then
    if s.op.isSome then { w.tally with discounted := w.tally.discounted + 1 }
    else { w.tally with posts := w.tally.posts + 1 }
  else if s.completionKey = shutdownPort then
    { w.tally with shutdowns := w.tally.shutdowns + 1 }
  else w.tally

/-- The history after `poll_during_shutdown` returned a status. -/
def tallyDrain (w : World) (s : Status) : Tally :=
  if s.ordinary && s.op.isSome then { w.tally with drained := w.tally.drained + 1 } else w.tally

/-- The rest of `poll` or of a round of `poll_during_shutdown`. -/
def account (w : World) (d : Nat) (t : Driver) : Option World :=
  match t.pc with
  | .dequeued false s =>
      let next := s.poll w.pending
      some { w with
        pending := isize (w.pending + next.1)
        drivers := w.drivers.set d (t.polled s next.2)
        tally := w.tallyPoll s }
  | .dequeued true s =>
      some { w with
        drivers := w.drivers.set d (t.drained s s.pollDuringShutdown)
        tally := w.tallyDrain s }
  | _ => none

/-- The start of `CompletionStatus::unlock` or `CompletionStatus::release`. -/
def load (w : World) (d : Nat) (t : Driver) (release : Bool) : Option World :=
  match t.pc with
  | .status s =>
      if t.mayProcess s release then
        match s.op with
        | none => some { w with drivers := w.drivers.set d (t.processed s) }
        | some op =>
            match w.owners[op.owner]? with
            | none => none
            | some o =>
                some { w with
                  drivers := w.drivers.set d (t.unlocked s release o.header.value.unlockLoad) }
      else none
  | _ => none

/-- A compare-exchange of `Header::unlock`. -/
def exchange (w : World) (d : Nat) (t : Driver) (spurious : Bool) : Option World :=
  match t.pc with
  | .unlocking s old release =>
      match s.op with
      | none => none
      | some op =>
          match w.owners[op.owner]? with
          | none => none
          | some o =>
              let next := o.header.value.unlockExchange old spurious
              some { w with
                owners := w.owners.set op.owner
                  { o with header := o.header.modify fun _ => next.1 }
                drivers := w.drivers.set d (t.unlocked s release next.2) }
  | _ => none

/-- The wake of `Header::release`. -/
def wake (w : World) (d : Nat) (t : Driver) : Option World :=
  match t.pc with
  | .waking s =>
      match s.op with
      | none => none
      | some op =>
          some { w with
            owners := w.owners.modify op.owner fun o =>
              { o with header := o.header.modify Header.wake }
            drivers := w.drivers.set d (t.processed s) }
  | _ => none

/-- A driver outside the crate may drop a status without unlocking it. -/
def skip (w : World) (d : Nat) (t : Driver) : Option World :=
  match t.pc, t.loop with
  | .status s, .user => some { w with drivers := w.drivers.set d { t with pc := .done s } }
  | _, _ => none

/-- The status is dropped, and with it the reference to the header. -/
def dropStatus (w : World) (d : Nat) (t : Driver) : Option World :=
  match t.pc with
  | .done s =>
      some { w with
        owners := match s.op with
          | none => w.owners
          | some op => w.owners.modify op.owner fun o => { o with header := o.header.drop }
        drivers := w.drivers.set d { t with pc := .ready } }
  | _ => none

/-- The second loop of `setup` ends. -/
def finish (w : World) (d : Nat) (t : Driver) : Option World :=
  match t.pc, t.loop with
  | .ready, .drain 0 =>
      some { w with drivers := w.drivers.set d { t with loop := .returned (.ok ()) } }
  | _, _ => none

/-- A step of driving thread `d`. -/
def driver (w : World) (d : Nat) (a : DriverAct) : Option World :=
  match w.drivers[d]? with
  | none => none
  | some t =>
      match a with
      | .dequeue during => w.dequeue d t during
      | .account => w.account d t
      | .load release => w.load d t release
      | .exchange spurious => w.exchange d t spurious
      | .wake => w.wake d t
      | .skip => w.skip d t
      | .drop => w.dropStatus d t
      | .finish => w.finish d t

/-- `CompletionPort::post`; `shutdown` posts the shutdown key. -/
def post (w : World) (key : Nat) : World := { w with queue := w.queue ++ [⟨key, none⟩] }

/-- `register_handle` and `register_socket` refuse a reserved key. -/
def create (w : World) (kind : Kind) (options : RegisterOptions) : Option World :=
  if reservedPorts ≤ options.key then none
  else some { w with owners := w.owners ++ [Owner.new kind options.key options.maxBufferSize] }

/-- `CompletionPort::permit` up to its undo. -/
def permit (w : World) : World :=
  if 0 ≤ w.pending then { w with pending := isize (w.pending + 1), held := w.held + 1 }
  else { w with pending := isize (w.pending + 1), undoing := w.undoing + 1 }

/-- The undo of a failed `permit`, which then returns its error. -/
def undo (w : World) : Option World :=
  match w.undoing with
  | 0 => none
  | n + 1 => some { w with pending := isize (w.pending + -1), undoing := n }

/-- `Drop for CompletionPortPermit` of a permit held by a user. -/
def release (w : World) : Option World :=
  match w.held with
  | 0 => none
  | n + 1 => some { w with pending := isize (w.pending + -1), held := n }

/-- One step of the system. -/
def step (w : World) : Action → Option World
  | .task i a => w.task i a
  | .complete k status => w.complete k status
  | .driver d a => w.driver d a
  | .post key => some (w.post key)
  | .permit => some w.permit
  | .undo => w.undo
  | .release => w.release
  | .create kind options => w.create kind options

end World

end Iocp
