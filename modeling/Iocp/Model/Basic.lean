import Mathlib.Algebra.Ring.Int.Defs
import Mathlib.Algebra.Ring.Nat
import Mathlib.Data.List.Basic

/-!
# Operation codes, system calls and their final statuses

The constants and the small data types shared by the handle, the socket and
the completion port. A SOCKET and a waker are numbers: the code only stores
and compares them.

## Implementation notes

What the operating system reports is kept as data, so that every choice it
makes is an argument of a step and not a hidden function.
-/

namespace Iocp

/-- `io::Code`: how the result of an overlapped operation must be treated. -/
structure Code where
  id : UInt32
  deriving DecidableEq

namespace Code

/-- `handle::operation::READ`. -/
def read : Code := ⟨0x7fffff01⟩

/-- `handle::operation::WRITE`. -/
def write : Code := ⟨0x7fffff02⟩

/-- `handle::operation::IO_CTL`. -/
def ioCtl : Code := ⟨0x7fffff03⟩

/-- `handle::operation::CONNECT_NAMED_PIPE`. -/
def connectNamedPipe : Code := ⟨0x7fffff04⟩

/-- `socket::operation::ACCEPT`. -/
def accept : Code := ⟨0x7fffff11⟩

/-- The positive lock word of a code, `id as i64 + 1`. A 32-bit code leaves
the sum and its negation far from the bounds of `i64`. -/
def word (c : Code) : Int := c.id.toNat + 1

theorem word_pos (c : Code) : 0 < c.word := by
  simp only [word]
  omega

theorem word_injective : Function.Injective word := by
  intro c d h
  have hid : c.id = d.id := UInt32.toNat_inj.mp (by simp only [word] at h; omega)
  cases c
  cases d
  exact congrArg Code.mk hid

end Code

/-- `io::OverlappedState`. -/
inductive OverlappedState
  | idle
  | pending
  deriving DecidableEq

/-- Errors returned by the modelled functions: `io::Error::other` with its
text, or an error of the operating system. -/
inductive IoError
  | other (message : String)
  | os (code : Nat)
  deriving DecidableEq

namespace Win32

/-- `crate::errors::ERROR_IO_PENDING`. -/
def errorIoPending : Nat := 997

/-- What `GetOverlappedResult` answers without waiting while the operation runs. -/
def errorIoIncomplete : Nat := 996

def errorOperationAborted : Nat := 995

def errorHandleEof : Nat := 38

def errorBrokenPipe : Nat := 109

/-- The largest value of a DWORD argument. -/
def dwordMax : Nat := 2 ^ 32 - 1

end Win32

/-- What one overlapped system call was given. The slot is the index of the
pool buffer whose storage it received. -/
inductive Request
  | readFile (slot len : Nat)
  | writeFile (slot : Nat) (bytes : List UInt8)
  | deviceIoControl (control slot : Nat) (bytes : List UInt8)
  | connectNamedPipe
  | acceptEx (socket slot len localAddressLen remoteAddressLen : Nat)
  deriving DecidableEq

namespace Request

/-- The pool slot lent to the operating system, if any. -/
def slot : Request → Option Nat
  | readFile slot _ => some slot
  | writeFile slot _ => some slot
  | deviceIoControl _ slot _ => some slot
  | connectNamedPipe => none
  | acceptEx _ slot _ _ _ => some slot

/-- The number of bytes requested. -/
def len : Request → Nat
  | readFile _ len => len
  | writeFile _ bytes => bytes.length
  | deviceIoControl _ _ bytes => bytes.length
  | connectNamedPipe => 0
  | acceptEx _ _ len _ _ => len

end Request

/-- An accepted submission on the OVERLAPPED of one owner. The key is the
completion key of the registration, the offset the one found in the OVERLAPPED. -/
structure Op where
  owner : Nat
  key : Nat
  code : Code
  request : Request
  offset : Nat
  deriving DecidableEq

/-- The final status the operating system gives an operation: how many bytes it
transferred, and the bytes it stored into the lent buffer. An operation that
fails may have transferred some before. -/
inductive Final
  | success (transferred : Nat) (data : List UInt8)
  | failure (code transferred : Nat) (data : List UInt8)
  deriving DecidableEq

namespace Final

/-- The number of bytes the operating system transferred. -/
def transferred : Final → Nat
  | success transferred _ => transferred
  | failure _ transferred _ => transferred

/-- The bytes the operating system stored. -/
def data : Final → List UInt8
  | success _ data => data
  | failure _ _ data => data

/-- An operation that has ended is not said to be pending. -/
def ended : Final → Bool
  | success _ _ => true
  | failure code _ _ => code ≠ Win32.errorIoPending && code ≠ Win32.errorIoIncomplete

end Final

/-- A transfer never exceeds what was requested; only a read or an accept
stores bytes into the lent buffer. -/
def Request.admits (request : Request) (status : Final) : Bool :=
  status.ended && status.transferred ≤ request.len &&
    match request with
    | readFile _ _ => status.data.length = status.transferred
    | acceptEx _ _ len _ _ => status.data.length ≤ len
    | _ => status.data.isEmpty

/-- The statuses an operation may end with. -/
def Op.admits (op : Op) (status : Final) : Bool := op.request.admits status

/-- Every operation may fail before it transferred anything. -/
theorem Op.admits_failure (op : Op) : op.admits (.failure 0 0 []) = true := by
  cases h : op.request <;>
    simp [Op.admits, Request.admits, h, Final.ended, Final.transferred, Final.data,
      Win32.errorIoPending, Win32.errorIoIncomplete]

/-- `completion_port::CompletionOutcome`. -/
inductive CompletionOutcome
  | completed
  | aborted
  | errored
  deriving DecidableEq

/-- How `get_queued_completion_status` classifies a dequeued status. -/
def Final.outcome : Final → CompletionOutcome
  | .success _ _ => .completed
  | .failure code _ _ => if code = Win32.errorOperationAborted then .aborted else .errored

end Iocp
