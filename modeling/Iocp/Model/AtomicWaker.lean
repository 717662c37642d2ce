import Iocp.Library.Transition
import Iocp.Model.Header

/-!
# The atomic waker, cut at its atomic operations

`AtomicWaker` guards the cell of the registered waker by a word with the two
bits `REGISTERING` and `WAKING`. Any number of threads call `register_by_ref`
and `wake` at the same time. A call is cut at each access to the word or to
the cell, and its program point says which access comes next.

## Implementation notes

Locals of a call are kept in its program point. A waker that was moved out of
the cell and not woken yet is such a local. The orderings of the accesses are
those of an interleaving.
-/

namespace Iocp

/-- `atomic_waker::AtomicWaker`. -/
structure AtomicWaker where
  state : BitVec 64
  waker : Option Nat
  deriving DecidableEq

/-- What a thread calls. -/
inductive WakerCall
  | registerByRef (waker : Nat)
  | wake
  deriving DecidableEq

/-- The program point of a call. -/
inductive WakerPc
  /-- The first access to the word comes next. -/
  | called
  /-- `do_register` has set `REGISTERING` and stores its waker next. -/
  | store (waker : Nat)
  /-- The waker is stored, the exchange back to `WAITING` comes next. -/
  | release
  /-- That exchange failed, the waker is taken back next. -/
  | takeBack
  /-- The waker was taken back, the word is swapped next. -/
  | swap (waker : Nat)
  /-- `take_waker` has set `WAKING` and takes the waker next. -/
  | take
  /-- The waker was taken, `WAKING` is cleared next. -/
  | clear (waker : Option Nat)
  /-- `waker.wake()` comes next. -/
  | waking (waker : Nat)
  | returned
  | panicked
  deriving DecidableEq

/-- A call and where it stands. -/
structure WakerFrame where
  call : WakerCall
  pc : WakerPc
  deriving DecidableEq

namespace AtomicWaker

/-- `WAITING`: the idle state. -/
def waiting : BitVec 64 := 0

/-- `REGISTERING`: a new waker is being registered. -/
def registering : BitVec 64 := 0b01

/-- `WAKING`: the registered task is being woken. -/
def waking : BitVec 64 := 0b10

/-- The words of one bit, and of none, are different. -/
@[simp] theorem words_apart :
    waiting ≠ registering ∧ waiting ≠ waking ∧ registering ≠ waiting ∧ registering ≠ waking ∧
      waking ≠ waiting ∧ waking ≠ registering := by
  decide

/-- The word of both bits is another one. -/
@[simp] theorem both_apart :
    waiting ≠ registering ||| waking ∧ registering ≠ registering ||| waking ∧
      waking ≠ registering ||| waking ∧ registering ||| waking ≠ registering ∧
      registering ||| waking ≠ waking := by
  decide

@[simp] theorem both_marked : registering ||| waking ||| waking = registering ||| waking := by
  decide

/-- A word with `WAKING` set is not `WAITING`. -/
@[simp] theorem marked_ne (word : BitVec 64) : word ||| waking ≠ waiting := by
  intro h
  have bit := congrArg (BitVec.getLsbD · 1) h
  simp [waking, waiting] at bit

theorem register_ne {word : BitVec 64}
    (h : word = registering ∨ word = registering ||| waking) : word ≠ waiting := by
  rcases h with rfl | rfl <;> simp

/-- `AtomicWaker::new`. -/
def new : AtomicWaker := ⟨waiting, none⟩

/-- `AtomicUsize::compare_exchange`. -/
def compareExchange (a : AtomicWaker) (current new : BitVec 64) :
    AtomicWaker × Except (BitVec 64) (BitVec 64) :=
  if a.state = current then ({ a with state := new }, .ok a.state) else (a, .error a.state)

/-- The first exchange of `do_register`; the waker found `WAKING` is woken at once. -/
def doRegister (a : AtomicWaker) (waker : Nat) : AtomicWaker × WakerPc :=
  match a.compareExchange waiting registering with
  | (a, .ok _) => (a, .store waker)
  | (a, .error state) =>
      if state = waking then (a, .waking waker)
      else if state = registering ∨ state = registering ||| waking then (a, .returned)
      else (a, .panicked)

/-- The exchange of `do_register` that releases the cell. -/
def releaseRegister (a : AtomicWaker) : AtomicWaker × WakerPc :=
  match a.compareExchange registering waiting with
  | (a, .ok _) => (a, .returned)
  | (a, .error actual) =>
      if actual = registering ||| waking then (a, .takeBack) else (a, .panicked)

/-- `take().unwrap()` of the waker that was just stored. -/
def takeBack (a : AtomicWaker) : AtomicWaker × WakerPc :=
  match a.waker with
  | none => (a, .panicked)
  | some waker => ({ a with waker := none }, .swap waker)

/-- `take_waker` up to its `fetch_or`. -/
def takeWaker (a : AtomicWaker) : AtomicWaker × WakerPc :=
  ({ a with state := a.state ||| waking },
    if a.state = waiting then .take
    else if a.state = registering ∨ a.state = registering ||| waking ∨ a.state = waking then
      .returned
    else .panicked)

/-- The end of `take_waker`, and the test of `wake` on what it returned. -/
def clearWaking (a : AtomicWaker) (taken : Option Nat) : AtomicWaker × WakerPc :=
  ({ a with state := a.state &&& ~~~waking }, taken.elim .returned .waking)

/-- The next access of a call; `none` when it has returned or panicked. -/
def access (a : AtomicWaker) (f : WakerFrame) : Option (AtomicWaker × WakerPc) :=
  match f.pc with
  | .called =>
      match f.call with
      | .registerByRef waker => some (a.doRegister waker)
      | .wake => some a.takeWaker
  | .store waker => some ({ a with waker := some waker }, .release)
  | .release => some a.releaseRegister
  | .takeBack => some a.takeBack
  | .swap waker => some ({ a with state := waiting }, .waking waker)
  | .take => some ({ a with waker := none }, .clear a.waker)
  | .clear taken => some (a.clearWaking taken)
  | .waking _ => some (a, .returned)
  | .returned => none
  | .panicked => none

end AtomicWaker

/-- A waker with the calls that were made on it. -/
structure WakerSystem where
  waker : AtomicWaker
  frames : List WakerFrame
  deriving DecidableEq

/-- The steps of the threads: to call, and to make the next access of a call. -/
inductive WakerAct
  | call (call : WakerCall)
  | access (i : Nat)
  deriving DecidableEq

namespace WakerSystem

def start : WakerSystem := ⟨AtomicWaker.new, []⟩

def next (s : WakerSystem) : WakerAct → Option WakerSystem
  | .call call => some { s with frames := s.frames ++ [⟨call, .called⟩] }
  | .access i =>
      match s.frames[i]? with
      | none => none
      | some f =>
          (s.waker.access f).map fun (waker, pc) =>
            { waker := waker, frames := s.frames.set i { f with pc := pc } }

/-- The wakers that a step wakes. -/
def woken (s : WakerSystem) : WakerAct → List Nat
  | .call _ => []
  | .access i =>
      match s.frames[i]?.map WakerFrame.pc with
      | some (.waking waker) => [waker]
      | _ => []

end WakerSystem

end Iocp
