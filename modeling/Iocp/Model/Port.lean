import Iocp.Model.Basic

/-!
# The completion port

The pending counter of `completion_port::Inner`, the queue of the port, and
what `poll` and `poll_during_shutdown` do with a dequeued status.

## Implementation notes

The target is 64-bit, so `isize` and `usize` are 64 bits wide and the atomic
additions wrap around. `poll` is modelled as built without debug assertions.
-/

namespace Iocp

/-- The value of a 64-bit two's complement addition. -/
def isize (x : Int) : Int := (x + 2 ^ 63) % 2 ^ 64 - 2 ^ 63

/-- `isize::MIN`. -/
def isizeMin : Int := -2 ^ 63

/-- The cast `pending as usize`. -/
def asUsize (x : Int) : Nat := (x % 2 ^ 64).toNat

/-- `SHUTDOWN_PORT`. -/
def shutdownPort : Nat := 2 ^ 64 - 1

/-- `RESERVED_PORTS`, `!0b1111`. -/
def reservedPorts : Nat := 2 ^ 64 - 16

/-- `RegisterOptions`. -/
structure RegisterOptions where
  key : Nat
  maxBufferSize : Nat
  deriving DecidableEq

/-- An entry of the queue: a posted message with a null pointer, or the
completion of an operation on the OVERLAPPED of its owner. -/
structure Packet where
  key : Nat
  io : Option (Op × Final)
  deriving DecidableEq

/-- `CompletionStatus`. The operation stands for its OVERLAPPED pointer, and
thereby for the reference to the header of its owner. -/
structure Status where
  op : Option Op
  completionKey : Nat
  bytesTransferred : Nat
  outcome : CompletionOutcome
  deriving DecidableEq

/-- `get_queued_completion_status` of a dequeued packet. -/
def Packet.status (p : Packet) : Status where
  op := p.io.map Prod.fst
  completionKey := p.key
  bytesTransferred :=
    match p.io with
    | some (_, final) => final.transferred
    | none => 0
  outcome :=
    match p.io with
    | some (_, final) => final.outcome
    | none => .completed

/-- What `poll` makes of a status. -/
inductive CompletionPoll
  | shutdown (pending : Nat)
  | status (s : Status)
  | error (e : IoError)
  deriving DecidableEq

/-- The text of the error for a reserved key that is not a shutdown message. -/
def reservedPortError : IoError := .other "got status for reserved completion port"

/-- `CompletionPort::poll` after dequeueing: the value added to the pending
counter and the result. -/
def Status.poll (s : Status) (pending : Int) : Int × CompletionPoll :=
  if reservedPorts ≤ s.completionKey then
    if s.completionKey = shutdownPort then (isizeMin, .shutdown (asUsize pending))
    else (0, .error reservedPortError)
  else (-1, .status s)

/-- The key of the shutdown message is reserved. -/
theorem reserved_shutdownPort : reservedPorts ≤ shutdownPort := by decide

/-- `poll` returns a status, a shutdown message or an error, by the key. -/
theorem Status.poll_cases (s : Status) (pending : Int) :
    (s.completionKey < reservedPorts ∧ s.poll pending = (-1, .status s)) ∨
      (s.completionKey = shutdownPort ∧
        s.poll pending = (isizeMin, .shutdown (asUsize pending))) ∨
      (reservedPorts ≤ s.completionKey ∧ s.completionKey ≠ shutdownPort ∧
        s.poll pending = (0, .error reservedPortError)) := by
  by_cases key : s.completionKey < reservedPorts
  · exact .inl ⟨key, if_neg (Nat.not_le.mpr key)⟩
  · have reserved : reservedPorts ≤ s.completionKey := Nat.not_lt.mp key
    rw [poll, if_pos reserved]
    by_cases down : s.completionKey = shutdownPort
    · exact .inr (.inl ⟨down, if_pos down⟩)
    · exact .inr (.inr ⟨reserved, down, if_neg down⟩)

/-- What one round of the loop of `poll_during_shutdown` makes of a status. -/
inductive DrainPoll
  | again
  | status (s : Status)
  | error (e : IoError)
  deriving DecidableEq

/-- `CompletionPort::poll_during_shutdown` after dequeueing. -/
def Status.pollDuringShutdown (s : Status) : DrainPoll :=
  if reservedPorts ≤ s.completionKey then
    if s.completionKey = shutdownPort then .again else .error reservedPortError
  else .status s

theorem Status.pollDuringShutdown_cases (s : Status) :
    (s.completionKey < reservedPorts ∧ s.pollDuringShutdown = .status s) ∨
      (s.completionKey = shutdownPort ∧ s.pollDuringShutdown = .again) ∨
      (reservedPorts ≤ s.completionKey ∧ s.completionKey ≠ shutdownPort ∧
        s.pollDuringShutdown = .error reservedPortError) := by
  by_cases key : s.completionKey < reservedPorts
  · exact .inl ⟨key, if_neg (Nat.not_le.mpr key)⟩
  · have reserved : reservedPorts ≤ s.completionKey := Nat.not_lt.mp key
    rw [pollDuringShutdown, if_pos reserved]
    by_cases down : s.completionKey = shutdownPort
    · exact .inr (.inl ⟨down, if_pos down⟩)
    · exact .inr (.inr ⟨reserved, down, if_neg down⟩)

/-- A status that `poll` neither takes for a message of its own nor refuses. -/
def Status.ordinary (s : Status) : Bool := s.completionKey < reservedPorts

theorem isize_eq_self {x : Int} (hl : -2 ^ 63 ≤ x) (hu : x < 2 ^ 63) : isize x = x := by
  simp only [isize]
  omega

/-- Wrapping twice is wrapping once. -/
theorem isize_isize_add (x y : Int) : isize (isize x + y) = isize (x + y) := by
  simp only [isize]
  omega

end Iocp
