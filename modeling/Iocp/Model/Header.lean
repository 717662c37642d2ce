import Iocp.Model.Basic

/-!
# The header of an owner

`task::Header` with its lock word, the OVERLAPPED structure and the waker,
and the reference count that `Arc` keeps for it.

## Implementation notes

`header_lock` and `unlock` are cut at their atomic operations. The waker cell
is atomic: registering replaces its content and waking takes it, so a cell
that still holds the last registered waker has not been woken since.
-/

namespace Iocp

/-- The status fields of OVERLAPPED, written by the operating system only.
The operation a final status belongs to is not stored there; it is recorded
to say whose result a reader gets. -/
inductive Internal
  | zeroed
  | pending
  | final (op : Op) (status : Final)
  deriving DecidableEq

/-- OVERLAPPED: the status and the two halves of the file offset. -/
structure Overlapped where
  internal : Internal
  offset : UInt32
  offsetHigh : UInt32
  deriving DecidableEq

namespace Overlapped

/-- The zeroed structure of `Header::new`. -/
def zeroed : Overlapped := ⟨.zeroed, 0, 0⟩

/-- The 64-bit cursor `Offset | OffsetHigh << 32`. -/
def cursor (r : Overlapped) : Nat := r.offset.toNat ||| r.offsetHigh.toNat <<< 32

/-- `LockGuard::advance`; `none` when the addition leaves 64 bits and panics. -/
def advance (r : Overlapped) (amount : Nat) : Option Overlapped :=
  let n := r.cursor + amount
  if n < 2 ^ 64 then
    some { r with
      offset := UInt32.ofNat (n &&& 0xffffffff)
      offsetHigh := UInt32.ofNat (n >>> 32) }
  else none

/-- The cursor as a number of bytes. -/
theorem cursor_eq (r : Overlapped) : r.cursor = r.offsetHigh.toNat * 2 ^ 32 + r.offset.toNat := by
  rw [cursor, Nat.or_comm, ← Nat.shiftLeft_add_eq_or_of_lt r.offset.toNat_lt, Nat.shiftLeft_eq]

theorem cursor_lt (r : Overlapped) : r.cursor < 2 ^ 64 := by
  have low := r.offset.toNat_lt
  have high := r.offsetHigh.toNat_lt
  rw [cursor_eq]
  omega

/-- The two words of a number below `2 ^ 64` are those of its halves. -/
theorem cursor_words {n : Nat} (bound : n < 2 ^ 64) (internal : Internal) :
    cursor ⟨internal, UInt32.ofNat (n &&& 0xffffffff), UInt32.ofNat (n >>> 32)⟩ = n := by
  have low : n &&& 0xffffffff = n % 2 ^ 32 := Nat.and_two_pow_sub_one_eq_mod n 32
  rw [cursor_eq, low, Nat.shiftRight_eq_div_pow]
  simp only [UInt32.toNat_ofNat']
  omega

/-- Advancing moves the cursor by the amount. -/
theorem advance_cursor {r r' : Overlapped} {amount : Nat} (h : r.advance amount = some r') :
    r'.cursor = r.cursor + amount ∧ r'.internal = r.internal := by
  simp only [advance] at h
  obtain ⟨bound, h⟩ := Option.ite_none_right_eq_some.mp h
  cases h
  exact ⟨cursor_words bound r.internal, rfl⟩

/-- Advancing by nothing changes nothing. -/
theorem advance_zero (r : Overlapped) : r.advance 0 = some r := by
  have low : r.cursor &&& 0xffffffff = r.cursor % 2 ^ 32 := Nat.and_two_pow_sub_one_eq_mod _ 32
  have offset := r.offset.toNat_lt
  have words : UInt32.ofNat (r.cursor &&& 0xffffffff) = r.offset ∧
      UInt32.ofNat (r.cursor >>> 32) = r.offsetHigh := by
    rw [low, Nat.shiftRight_eq_div_pow, cursor_eq]
    constructor
    · apply UInt32.toNat_inj.mp
      rw [UInt32.toNat_ofNat']
      omega
    · apply UInt32.toNat_inj.mp
      have high := r.offsetHigh.toNat_lt
      rw [UInt32.toNat_ofNat']
      omega
  simp only [advance, Nat.add_zero, if_pos r.cursor_lt, words.1, words.2]

/-- `GetOverlappedResult` without waiting: an error or the transferred bytes. -/
def getOverlappedResult (r : Overlapped) : Except Nat Nat :=
  match r.internal with
  | .zeroed => .ok 0
  | .pending => .error Win32.errorIoIncomplete
  | .final _ (.success transferred _) => .ok transferred
  | .final _ (.failure code _ _) => .error code

/-- `LockGuard::handle_result` of a handle and `LockGuard::result` of a socket. -/
def handleResult (r : Overlapped) : Except IoError Nat :=
  match r.getOverlappedResult with
  | .ok transferred => .ok transferred
  | .error code =>
      if code = Win32.errorHandleEof then .ok 0
      else if code = Win32.errorBrokenPipe then .ok 0
      else .error (.os code)

end Overlapped

/-- `task::Header`. -/
structure Header where
  raw : Overlapped
  lock : Int
  waker : Option Nat
  deriving DecidableEq

/-- `task::LockResult`. -/
inductive LockResult
  | ok (state : OverlappedState)
  | busy (mismatch : Bool)
  deriving DecidableEq

/-- Where `header_lock` stands after its compare-exchange. -/
inductive LockStep
  | returned (result : LockResult)
  | store (n : Int)
  deriving DecidableEq

/-- Where `unlock` stands after an atomic operation. -/
inductive UnlockStep
  | returned (unlocked : Bool)
  | retry (old : Int)
  deriving DecidableEq

namespace Header

/-- `Header::new`. -/
def new : Header := ⟨Overlapped.zeroed, 0, none⟩

/-- `Header::register_by_ref`. -/
def registerByRef (h : Header) (waker : Nat) : Header := { h with waker := some waker }

/-- `Header::wake` takes the registered waker. -/
def wake (h : Header) : Header := { h with waker := none }

/-- `Header::state`. -/
def state (h : Header) : OverlappedState := if h.lock ≤ 0 then .idle else .pending

/-- `AtomicI64::compare_exchange_weak`, which may also fail without a mismatch. -/
def compareExchangeWeak (h : Header) (current new : Int) (spurious : Bool) :
    Header × Except Int Int :=
  if spurious = false ∧ h.lock = current then ({ h with lock := new }, .ok current)
  else (h, .error h.lock)

/-- `Header::header_lock` up to the store of the open state. -/
def headerLock (h : Header) (code : Code) (spurious : Bool) : Header × LockStep :=
  let id := code.word
  match h.compareExchangeWeak 0 id spurious with
  | (h, .ok _) => (h, .returned (.ok .idle))
  | (h, .error n) =>
      if 0 < n then (h, .returned (.busy (id ≠ -n)))
      else (h, .store n)

/-- The rest of `Header::header_lock` after the exchange failed with `n ≤ 0`. -/
def headerLockStore (h : Header) (code : Code) (n : Int) : Header × OverlappedState :=
  ({ h with lock := 0 }, if code.word = -n then .pending else .idle)

/-- The loop test of `Header::unlock`. -/
def unlockTest (old : Int) : UnlockStep := if 0 < old then .retry old else .returned false

/-- The initial load of `Header::unlock`. -/
def unlockLoad (h : Header) : UnlockStep := unlockTest h.lock

/-- One compare-exchange of the loop of `Header::unlock`. -/
def unlockExchange (h : Header) (old : Int) (spurious : Bool) : Header × UnlockStep :=
  match h.compareExchangeWeak old (-old) spurious with
  | (h, .ok _) => (h, .returned true)
  | (h, .error o) => (h, unlockTest o)

/-- `Header::unlock_to_open`. -/
def unlockToOpen (h : Header) : Header := { h with lock := 0 }

end Header

/-- An `Arc`: the value, its strong count and how often it was freed. -/
structure Arc (α : Type) where
  value : α
  strong : Nat
  frees : Nat
  deriving DecidableEq

namespace Arc

variable {α : Type}

/-- `Arc::new`. -/
def new (value : α) : Arc α := ⟨value, 1, 0⟩

/-- `Arc::clone`, also the reference that `Arc::into_raw` then carries. -/
def clone (a : Arc α) : Arc α := { a with strong := a.strong + 1 }

/-- `Drop for Arc`: the last reference frees the allocation. -/
def drop (a : Arc α) : Arc α :=
  { a with
    strong := a.strong - 1
    frees := if a.strong = 1 then a.frees + 1 else a.frees }

/-- Access through any of the references. -/
def modify (f : α → α) (a : Arc α) : Arc α := { a with value := f a.value }

end Arc

end Iocp
