import Iocp.Model.Operation

/-!
# One poll of a handle or a socket, cut at its atomic operations

`Handle::lock`, `poll_read`, `poll_write` and the two `RunOperation::poll`
share one control flow. It is cut wherever another thread can observe or
change something: at the pending counter, the waker, the lock word, the
reference count and the system calls. The program point says which atomic
operation comes next. Dropping the owner is cut the same way.

## Implementation notes

A poll borrows its owner mutably, so an owner is in at most one poll and is
never dropped inside one. Everything between two atomic operations touches
only the owner itself and is done in one step. A future keeps nothing of its
own besides the call, so dropping it is no step.
-/

namespace Iocp

/-- The program point of an owner. -/
inductive Pc
  /-- No poll is running. -/
  | out
  /-- `permit` has added to a negative counter and must take it back. -/
  | permitFailed
  /-- The permit is held, the waker comes next. -/
  | permitted (call : Call) (waker : Nat)
  /-- The waker is registered, the compare-exchange comes next. -/
  | registered (call : Call)
  /-- `header_lock` found the positive word `found` and is busy. -/
  | busy (call : Call) (found : Int) (mismatch : Bool)
  /-- The compare-exchange failed with `n ≤ 0`, the store comes next. -/
  | storing (call : Call) (n : Int)
  /-- The guard is held. -/
  | guarded (call : Call) (state : OverlappedState)
  /-- `prepare` is about to make its system call. -/
  | prepared (call : Call) (request : Request)
  /-- The system call was accepted, the guard is about to be forgotten. -/
  | accepted (call : Call)
  /-- The live `Overlapped` is dropped next, then the guard. -/
  | dropOverlapped (result : PollResult)
  /-- `Drop for LockGuard` comes next. -/
  | dropGuard (result : PollResult)
  /-- The permit is dropped next. -/
  | dropPermit (result : PollResult)
  /-- The owner is being dropped and has read the state of its header. -/
  | dropping (state : OverlappedState)
  /-- The fields of the owner are dropped next. -/
  | dropFields
  /-- The owner and its pools are gone. -/
  | dropped
  deriving DecidableEq

/-- `handle::Handle` or `socket::Socket` with its header. A handle never uses
its socket pool. -/
structure Owner where
  kind : Kind
  key : Nat
  header : Arc Header
  pool : BufferPool
  sockets : SocketPool
  pc : Pc
  last : Option PollResult
  deriving DecidableEq

/-- The steps a poll or a drop can take, with the choices of the operating
system and of the hardware as arguments. -/
inductive TaskAct
  | poll (call : Call) (waker : Nat)
  | undoPermit
  | registerWaker
  | lock (spurious : Bool)
  | storeOpen
  | leaveBusy
  | prepare (extra : Nat) (newSocket : Except Nat Nat)
  | submit (answer : Option Nat)
  | forget
  | dropOverlapped
  | collect (duplicate : Option Nat)
  | dropGuard
  | dropPermit
  | drop
  | leaveDrop
  | dropFields

/-- What a step does outside its owner: what it adds to the pending counter,
the operation it hands to the operating system, and whether it calls `CancelIoEx`. -/
structure Effect where
  add : Int := 0
  submit : Option Op := none
  cancel : Bool := false

namespace Owner

/-- `Handle::new`, `Socket::new` and `duplicate`. -/
def new (kind : Kind) (key maxBufferSize : Nat) : Owner where
  kind := kind
  key := key
  header := Arc.new Header.new
  pool := BufferPool.new maxBufferSize
  sockets := SocketPool.new
  pc := .out
  last := none

/-- The current lock word. -/
def lockWord (o : Owner) : Int := o.header.value.lock

/-- The owner has not been dropped. -/
def alive (o : Owner) : Bool := o.pc ≠ .dropped

/-- The pool that `LockGuard::prepare` hands to the operation: a handle clears
it first, a socket does not. -/
def preparePool (o : Owner) : BufferPool :=
  match o.kind with
  | .handle => o.pool.clear
  | .socket => o.pool

/-- The operation a system call submits. -/
def submission (i : Nat) (o : Owner) (call : Call) (request : Request) : Op where
  owner := i
  key := o.key
  code := call.code
  request := request
  offset := o.header.value.raw.cursor

/-- `CompletionPort::permit` up to its undo. -/
def poll (o : Owner) (pending : Int) (call : Call) (waker : Nat) : Option (Owner × Effect) :=
  match o.pc with
  | .out =>
      if call.kind = o.kind then
        some ({ o with pc := if 0 ≤ pending then .permitted call waker else .permitFailed },
          { add := 1 })
      else none
  | _ => none

/-- The undo of a failed `permit`. -/
def undoPermit (o : Owner) : Option (Owner × Effect) :=
  match o.pc with
  | .permitFailed =>
      some ({ o with pc := .out, last := some (.failed (.other "port is shutting down")) },
        { add := -1 })
  | _ => none

/-- `register_by_ref` in `lock`. -/
def registerWaker (o : Owner) : Option (Owner × Effect) :=
  match o.pc with
  | .permitted call waker =>
      some ({ o with
        pc := .registered call
        header := o.header.modify (·.registerByRef waker) }, {})
  | _ => none

/-- The compare-exchange of `header_lock`. -/
def lock (o : Owner) (spurious : Bool) : Option (Owner × Effect) :=
  match o.pc with
  | .registered call =>
      let next := o.header.value.headerLock call.code spurious
      let pc : Pc := match next.2 with
        | .returned (.ok state) => .guarded call state
        | .returned (.busy mismatch) => .busy call o.lockWord mismatch
        | .store n => .storing call n
      some ({ o with pc := pc, header := o.header.modify fun _ => next.1 }, {})
  | _ => none

/-- The store of `header_lock`. -/
def storeOpen (o : Owner) : Option (Owner × Effect) :=
  match o.pc with
  | .storing call n =>
      let next := o.header.value.headerLockStore call.code n
      some ({ o with pc := .guarded call next.2, header := o.header.modify fun _ => next.1 }, {})
  | _ => none

/-- The busy branch of `lock`: cancel on a mismatch, then drop the permit and
return pending. -/
def leaveBusy (o : Owner) : Option (Owner × Effect) :=
  match o.pc with
  | .busy _ _ mismatch => some ({ o with pc := .dropPermit .pending }, { cancel := mismatch })
  | _ => none

/-- `LockGuard::prepare` and the part of the operation before its system call.
`WSASocketW` is synchronous and never answers that I/O is pending. -/
def prepare (o : Owner) (extra : Nat) (newSocket : Except Nat Nat) : Option (Owner × Effect) :=
  match o.pc with
  | .guarded call .idle =>
      let next := call.prepare extra newSocket o.preparePool o.sockets
      let pc : Option Pc := match next.2.2 with
        | .request request => some (.prepared call request)
        | .error code =>
            if code = Win32.errorIoPending then none
            else some (.dropOverlapped (.failed (.os code)))
        | .panic => some (.dropOverlapped .panicked)
      pc.map fun pc =>
        ({ o with pc := pc, header := o.header.clone, pool := next.1, sockets := next.2.1 }, {})
  | _ => none

/-- The system call and `handle_io_pending`. -/
def submit (i : Nat) (o : Owner) (answer : Option Nat) : Option (Owner × Effect) :=
  match o.pc with
  | .prepared call request =>
      match handleIoPending answer with
      | .ok () =>
          some ({ o with
            pc := .accepted call
            header := o.header.modify fun h =>
              { h with raw := { h.raw with internal := .pending } } },
            { submit := some (o.submission i call request) })
      | .error e => some ({ o with pc := .dropOverlapped (.failed e) }, {})
  | _ => none

/-- `mem::forget` of the guard and of the `Overlapped`. -/
def forget (o : Owner) : Option (Owner × Effect) :=
  match o.pc with
  | .accepted _ => some ({ o with pc := .out, last := some .pending }, {})
  | _ => none

/-- `Drop for Overlapped`. -/
def dropOverlapped (o : Owner) : Option (Owner × Effect) :=
  match o.pc with
  | .dropOverlapped result => some ({ o with pc := .dropGuard result, header := o.header.drop }, {})
  | _ => none

/-- Read the overlapped result and collect it. -/
def collect (o : Owner) (duplicate : Option Nat) : Option (Owner × Effect) :=
  match o.pc with
  | .guarded call .pending =>
      match o.header.value.raw.handleResult with
      | .error e => some ({ o with pc := .dropGuard (.failed e) }, {})
      | .ok transferred =>
          let next := call.collect transferred duplicate o.pool o.sockets
          let o := { o with pool := next.1, sockets := next.2.1 }
          match next.2.2 with
          | .error e => some ({ o with pc := .dropGuard (.failed e) }, {})
          | .panic => some ({ o with pc := .dropGuard .panicked }, {})
          | .output value outcome =>
              match outcome.applyTo o.header.value.raw with
              | none => some ({ o with pc := .dropGuard .panicked }, {})
              | some raw =>
                  some ({ o with
                    pc := .dropGuard (.ready value)
                    header := o.header.modify fun h => { h with raw := raw } }, {})
  | _ => none

/-- `Drop for LockGuard`. When the slice of `SocketPool::clear` panics, the
header stays locked and only the permit is still dropped. -/
def dropGuard (o : Owner) : Option (Owner × Effect) :=
  match o.pc with
  | .dropGuard result =>
      let pool := o.pool.clear
      let sockets := match o.kind with
        | .handle => some o.sockets
        | .socket => o.sockets.clear
      match sockets with
      | some sockets =>
          some ({ o with
            pc := .dropPermit result
            pool := pool
            sockets := sockets
            header := o.header.modify Header.unlockToOpen }, {})
      | none => some ({ o with pc := .dropPermit .panicked, pool := pool }, {})
  | _ => none

/-- `Drop for CompletionPortPermit`, after which the poll returns. -/
def dropPermit (o : Owner) : Option (Owner × Effect) :=
  match o.pc with
  | .dropPermit result => some ({ o with pc := .out, last := some result }, { add := -1 })
  | _ => none

/-- `cancel_if_pending` reads the state of the header. -/
def drop (o : Owner) : Option (Owner × Effect) :=
  match o.pc with
  | .out => some ({ o with pc := .dropping o.header.value.state }, {})
  | _ => none

/-- `cancel_if_pending` acts on the state it read. -/
def leaveDrop (o : Owner) : Option (Owner × Effect) :=
  match o.pc with
  | .dropping state => some ({ o with pc := .dropFields }, { cancel := state = .pending })
  | _ => none

/-- The fields are dropped: the reference to the header, and the pools. -/
def dropFields (o : Owner) : Option (Owner × Effect) :=
  match o.pc with
  | .dropFields => some ({ o with pc := .dropped, header := o.header.drop }, {})
  | _ => none

/-- One step of owner `i`, which sees the given value of the pending counter. -/
def act (i : Nat) (o : Owner) (pending : Int) : TaskAct → Option (Owner × Effect)
  | .poll call waker => o.poll pending call waker
  | .undoPermit => o.undoPermit
  | .registerWaker => o.registerWaker
  | .lock spurious => o.lock spurious
  | .storeOpen => o.storeOpen
  | .leaveBusy => o.leaveBusy
  | .prepare extra newSocket => o.prepare extra newSocket
  | .submit answer => o.submit i answer
  | .forget => o.forget
  | .dropOverlapped => o.dropOverlapped
  | .collect duplicate => o.collect duplicate
  | .dropGuard => o.dropGuard
  | .dropPermit => o.dropPermit
  | .drop => o.drop
  | .leaveDrop => o.leaveDrop
  | .dropFields => o.dropFields

/-- What the operating system writes when an operation ends, well or not: the
status, and the stored bytes into the lent buffer while the pool still exists. -/
def complete (o : Owner) (op : Op) (status : Final) : Owner :=
  { o with
    header := o.header.modify fun h =>
      { h with raw := { h.raw with internal := .final op status } }
    pool := match op.request.slot with
      | some slot => if o.alive then o.pool.fill slot status.data else o.pool
      | none => o.pool }

end Owner

end Iocp
