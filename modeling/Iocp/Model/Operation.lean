import Iocp.Model.Pool
import Iocp.Model.Header

/-!
# The operations of a handle and a socket

What one poll does between taking the guard and dropping it: `prepare` up to
the system call, and `collect` after the result was read. `poll_read` and
`poll_write` are written out in the handle, the others go through the two
`Operation` traits.

## Implementation notes

The branches of `poll_read` and `poll_write` and the operations `Read` and `Write`
are named as in the source, each with the body that it shares with its sibling.
-/

namespace Iocp

/-- The owner of a header: `handle::Handle` or `socket::Socket`. -/
inductive Kind
  | handle
  | socket
  deriving DecidableEq

/-- One call of a poll, with the argument the caller brings to it. A future
that is dropped and created again is a call with another argument. -/
inductive Call
  | pollRead (remaining : Nat)
  | pollWrite (buf : List UInt8)
  | read (len : Nat)
  | write (buf : List UInt8)
  | deviceIoControl (control : Nat) (message : List UInt8)
  | connectNamedPipe
  | accept
  deriving DecidableEq

/-- The value of a successful poll. A read is given with the bytes it handed
to the caller, a cell being `none` when nothing was ever stored there. -/
inductive Output
  | bytes (data : List (Option UInt8))
  | count (n : Nat)
  | unit
  | socket (raw : Nat)
  deriving DecidableEq

/-- How a poll ends. -/
inductive PollResult
  | pending
  | ready (output : Output)
  | failed (error : IoError)
  | panicked
  deriving DecidableEq

/-- Where `prepare` of an operation stands when it is about to make its system
call, or how it ended before that. -/
inductive Prepared
  | request (r : Request)
  | error (code : Nat)
  | panic
  deriving DecidableEq

/-- `OverlappedOutcome`. -/
inductive OverlappedOutcome
  | none
  | advance (n : Nat)
  deriving DecidableEq

/-- How `collect` of an operation ends. -/
inductive Collected
  | output (value : Output) (outcome : OverlappedOutcome)
  | error (e : IoError)
  | panic
  deriving DecidableEq

namespace Call

def kind : Call → Kind
  | accept => .socket
  | _ => .handle

/-- The lock code, `O::CODE` of the operation. -/
def code : Call → Code
  | pollRead _ => .read
  | read _ => .read
  | pollWrite _ => .write
  | write _ => .write
  | deviceIoControl _ _ => .ioCtl
  | connectNamedPipe => .connectNamedPipe
  | accept => .accept

/-- What `Read::prepare` and the idle branch of `poll_read` share. -/
def prepareRead (len extra : Nat) (pool : BufferPool) : BufferPool × Prepared :=
  match pool.take len extra with
  | (pool, none) => (pool, .panic)
  | (pool, some b) => (pool, .request (.readFile b.slot (min b.size Win32.dwordMax)))

/-- What `Write::prepare` and the idle branch of `poll_write` share. -/
def prepareWrite (buf : List UInt8) (extra : Nat) (pool : BufferPool) : BufferPool × Prepared :=
  match pool.takeAndPut buf extra with
  | (pool, none) => (pool, .panic)
  | (pool, some b) => (pool, .request (.writeFile b.slot (buf.take Win32.dwordMax)))

/-- What `Read::collect` and the pending branch of `poll_read` share: the reclaimed
bytes must fit into the room the caller brought. -/
def collectRead (room transferred : Nat) (pool : BufferPool) : BufferPool × Collected :=
  match pool.release transferred with
  | (pool, none) => (pool, .panic)
  | (pool, some filled) =>
      (pool, if filled.length ≤ room
        then .output (.bytes filled) (.advance filled.length) else .panic)

end Call

namespace Handle

/-- The idle branch of `Handle::poll_read`, up to its system call. -/
abbrev pollReadIdle (remaining extra : Nat) (pool : BufferPool) : BufferPool × Prepared :=
  Call.prepareRead remaining extra pool

/-- The pending branch of `Handle::poll_read`, after `handle_result`. -/
abbrev pollReadPending (remaining transferred : Nat) (pool : BufferPool) :
    BufferPool × Collected :=
  Call.collectRead remaining transferred pool

/-- The idle branch of `Handle::poll_write`, up to its system call. -/
abbrev pollWriteIdle (buf : List UInt8) (extra : Nat) (pool : BufferPool) :
    BufferPool × Prepared :=
  Call.prepareWrite buf extra pool

/-- The pending branch of `Handle::poll_write`, after `handle_result`. -/
abbrev pollWritePending (transferred : Nat) : Collected :=
  .output (.count transferred) (.advance transferred)

end Handle

namespace Read

/-- `Read::prepare`. -/
abbrev prepare (len extra : Nat) (pool : BufferPool) : BufferPool × Prepared :=
  Call.prepareRead len extra pool

/-- `Read::collect`. -/
abbrev collect (len transferred : Nat) (pool : BufferPool) : BufferPool × Collected :=
  Call.collectRead len transferred pool

end Read

namespace Write

/-- `Write::prepare`. -/
abbrev prepare (buf : List UInt8) (extra : Nat) (pool : BufferPool) : BufferPool × Prepared :=
  Call.prepareWrite buf extra pool

/-- `Write::collect`, which asks for no advance of the cursor. -/
abbrev collect (transferred : Nat) : Collected := .output (.count transferred) .none

end Write

namespace Call

/-- `DeviceIoCtl::prepare`; a length beyond a DWORD panics. -/
def prepareDeviceIoControl (control : Nat) (message : List UInt8) (extra : Nat)
    (pool : BufferPool) : BufferPool × Prepared :=
  match pool.takeAndPut message extra with
  | (pool, none) => (pool, .panic)
  | (pool, some b) =>
      (pool, if message.length ≤ Win32.dwordMax
        then .request (.deviceIoControl control b.slot message) else .panic)

/-- `Accept::prepare`, given the answer of `WSASocketW`. -/
def prepareAccept (extra : Nat) (newSocket : Except Nat Nat) (pool : BufferPool)
    (sockets : SocketPool) : BufferPool × SocketPool × Prepared :=
  match sockets.take newSocket with
  | (sockets, .error code) => (pool, sockets, .error code)
  | (sockets, .ok none) => (pool, sockets, .panic)
  | (sockets, .ok (some raw)) =>
      match pool.take 128 extra with
      | (pool, none) => (pool, sockets, .panic)
      | (pool, some b) => (pool, sockets, .request (.acceptEx raw b.slot b.size 16 16))

/-- `Accept::collect`, given the answer of `WSADuplicateSocketW`. -/
def collectAccept (duplicate : Option Nat) (sockets : SocketPool) : SocketPool × Collected :=
  match sockets.release with
  | (sockets, none) => (sockets, .panic)
  | (sockets, some raw) =>
      match duplicate with
      | some code => (sockets, .error (.os code))
      | none => (sockets, .output (.socket raw) .none)

/-- The part of `prepare` before the system call. -/
def prepare (call : Call) (extra : Nat) (newSocket : Except Nat Nat) (pool : BufferPool)
    (sockets : SocketPool) : BufferPool × SocketPool × Prepared :=
  match call with
  | pollRead remaining =>
      ((Handle.pollReadIdle remaining extra pool).1, sockets,
        (Handle.pollReadIdle remaining extra pool).2)
  | pollWrite buf =>
      ((Handle.pollWriteIdle buf extra pool).1, sockets, (Handle.pollWriteIdle buf extra pool).2)
  | read len => ((Read.prepare len extra pool).1, sockets, (Read.prepare len extra pool).2)
  | write buf => ((Write.prepare buf extra pool).1, sockets, (Write.prepare buf extra pool).2)
  | deviceIoControl control message =>
      ((prepareDeviceIoControl control message extra pool).1, sockets,
        (prepareDeviceIoControl control message extra pool).2)
  | connectNamedPipe => (pool, sockets, .request .connectNamedPipe)
  | accept => prepareAccept extra newSocket pool sockets

/-- `collect` of an operation; only `poll_read`, `poll_write` and `Read` ask
for the cursor to be advanced. -/
def collect (call : Call) (transferred : Nat) (duplicate : Option Nat) (pool : BufferPool)
    (sockets : SocketPool) : BufferPool × SocketPool × Collected :=
  match call with
  | pollRead remaining =>
      ((Handle.pollReadPending remaining transferred pool).1, sockets,
        (Handle.pollReadPending remaining transferred pool).2)
  | pollWrite _ => (pool, sockets, Handle.pollWritePending transferred)
  | read len =>
      ((Read.collect len transferred pool).1, sockets, (Read.collect len transferred pool).2)
  | write _ => (pool, sockets, Write.collect transferred)
  | deviceIoControl _ _ => (pool, sockets, .output (.count transferred) .none)
  | connectNamedPipe => (pool, sockets, .output .unit .none)
  | accept =>
      (pool, (collectAccept duplicate sockets).1, (collectAccept duplicate sockets).2)

@[simp] theorem prepareRead_pool (len extra : Nat) (pool : BufferPool) :
    (prepareRead len extra pool).1 = (pool.take len extra).1 := by
  rw [prepareRead]
  split <;> simp [*]

@[simp] theorem prepareWrite_pool (buf : List UInt8) (extra : Nat) (pool : BufferPool) :
    (prepareWrite buf extra pool).1 = (pool.takeAndPut buf extra).1 := by
  rw [prepareWrite]
  split <;> simp [*]

@[simp] theorem prepareDeviceIoControl_pool (control : Nat) (message : List UInt8) (extra : Nat)
    (pool : BufferPool) :
    (prepareDeviceIoControl control message extra pool).1 =
      (pool.takeAndPut message extra).1 := by
  rw [prepareDeviceIoControl]
  split <;> simp [*]

/-- `prepare` makes at most one call on the pool it was given. -/
theorem prepare_pool {P : BufferPool → Prop} {extra : Nat} {pool : BufferPool} (call : Call)
    (newSocket : Except Nat Nat) (sockets : SocketPool) (same : P pool)
    (take : ∀ size, P (pool.take size extra).1)
    (put : ∀ bytes, P (pool.takeAndPut bytes extra).1) :
    P (call.prepare extra newSocket pool sockets).1 := by
  cases call with
  | pollRead len | read len =>
      simp only [prepare, prepareRead_pool]
      exact take len
  | pollWrite buf | write buf =>
      simp only [prepare, prepareWrite_pool]
      exact put buf
  | deviceIoControl control message =>
      simp only [prepare, prepareDeviceIoControl_pool]
      exact put message
  | connectNamedPipe => exact same
  | accept =>
      have taken := take 128
      simp only [prepare, prepareAccept]
      split
      case h_1 => exact same
      case h_2 => exact same
      case h_3 =>
          split
          case h_1 q h => exact (h ▸ taken :)
          case h_2 q b h => exact (h ▸ taken :)

/-- What `prepare` leaves of the pool it was given: no slot is given up, and a
system call receives one of the slots. -/
def Lends (pool : BufferPool) (next : BufferPool × Prepared) : Prop :=
  pool.buffers.length ≤ next.1.buffers.length ∧
    ∀ r, next.2 = .request r → ∀ slot, r.slot = some slot → slot < next.1.buffers.length

theorem prepareRead_lends (len extra : Nat) (pool : BufferPool) :
    Lends pool (prepareRead len extra pool) := by
  have slots := pool.take_slots len extra
  simp only [prepareRead]
  split
  case h_1 q h =>
      rw [h] at slots
      exact ⟨slots.1, by simp⟩
  case h_2 q b h =>
      rw [h] at slots
      refine ⟨slots.1, ?_⟩
      rintro r hr slot hs
      cases hr
      cases hs
      exact slots.2 b rfl

theorem prepareWrite_lends (buf : List UInt8) (extra : Nat) (pool : BufferPool) :
    Lends pool (prepareWrite buf extra pool) := by
  have slots := pool.takeAndPut_slots buf extra
  simp only [prepareWrite]
  split
  case h_1 q h =>
      rw [h] at slots
      exact ⟨slots.1, by simp⟩
  case h_2 q b h =>
      rw [h] at slots
      refine ⟨slots.1, ?_⟩
      rintro r hr slot hs
      cases hr
      cases hs
      exact slots.2 b rfl

theorem prepareDeviceIoControl_lends (control : Nat) (message : List UInt8) (extra : Nat)
    (pool : BufferPool) : Lends pool (prepareDeviceIoControl control message extra pool) := by
  have slots := pool.takeAndPut_slots message extra
  simp only [prepareDeviceIoControl]
  split
  case h_1 q h =>
      rw [h] at slots
      exact ⟨slots.1, by simp⟩
  case h_2 q b h =>
      rw [h] at slots
      refine ⟨slots.1, ?_⟩
      intro r hr slot hs
      split at hr
      · cases hr
        cases hs
        exact slots.2 b rfl
      · cases hr

theorem prepareAccept_lends (extra : Nat) (newSocket : Except Nat Nat) (pool : BufferPool)
    (sockets : SocketPool) :
    Lends pool ((prepareAccept extra newSocket pool sockets).1,
      (prepareAccept extra newSocket pool sockets).2.2) := by
  have slots := pool.take_slots 128 extra
  simp only [prepareAccept]
  split
  case h_1 => exact ⟨Nat.le_refl _, by simp⟩
  case h_2 => exact ⟨Nat.le_refl _, by simp⟩
  case h_3 =>
      split
      case h_1 q h =>
          rw [h] at slots
          exact ⟨slots.1, by simp⟩
      case h_2 q b h =>
          rw [h] at slots
          refine ⟨slots.1, ?_⟩
          rintro r hr slot hs
          cases hr
          cases hs
          exact slots.2 b rfl

/-- Every operation is lent a slot of the pool it was prepared with. -/
theorem prepare_lends (call : Call) (extra : Nat) (newSocket : Except Nat Nat) (pool : BufferPool)
    (sockets : SocketPool) :
    Lends pool ((call.prepare extra newSocket pool sockets).1,
      (call.prepare extra newSocket pool sockets).2.2) := by
  cases call with
  | pollRead remaining => exact prepareRead_lends remaining extra pool
  | read len => exact prepareRead_lends len extra pool
  | pollWrite buf => exact prepareWrite_lends buf extra pool
  | write buf => exact prepareWrite_lends buf extra pool
  | deviceIoControl control message => exact prepareDeviceIoControl_lends control message extra pool
  | connectNamedPipe =>
      refine ⟨Nat.le_refl _, ?_⟩
      rintro r hr slot hs
      cases hr
      cases hs
  | accept => exact prepareAccept_lends extra newSocket pool sockets

/-- `collect` moves no buffer. -/
theorem collect_buffers (call : Call) (transferred : Nat) (duplicate : Option Nat)
    (pool : BufferPool) (sockets : SocketPool) :
    (call.collect transferred duplicate pool sockets).1.buffers = pool.buffers := by
  have read (room : Nat) : (collectRead room transferred pool).1.buffers = pool.buffers := by
    have same := pool.release_buffers transferred
    simp only [collectRead]
    split <;> simp_all
  cases call with
  | pollRead remaining => exact read remaining
  | read len => exact read len
  | _ => rfl

end Call

/-- `OverlappedOutcome::apply_to`. -/
def OverlappedOutcome.applyTo (outcome : OverlappedOutcome) (raw : Overlapped) :
    Option Overlapped :=
  match outcome with
  | .none => some raw
  | .advance n => raw.advance n

/-- `io::handle_io_pending`: the answer of a system call, `none` being success. -/
def handleIoPending (answer : Option Nat) : Except IoError Unit :=
  match answer with
  | none => .ok ()
  | some code => if code = Win32.errorIoPending then .ok () else .error (.os code)

end Iocp
