import Iocp.Model.AtomicWaker
import Iocp.Model.Inversion

/-!
# The system with the atomic wakers of its headers

Every header has an atomic waker. A poll calls `register_by_ref` on that of its own
header, a thread calls `wake` on that of the header it releases, and neither goes on
before its call has returned. Between the accesses of these calls anything else may
happen.

## Implementation notes

Making a call touches nothing that is shared, so it is one step with the first access.
The cell that the headers of the system have is what the calls are meant to be: no step
reads it.
-/

namespace Iocp

open Transition

/-- The system, and the wakers of its headers with the calls made on them. -/
structure FineWorld where
  world : World
  wakers : Nat → WakerSystem
  /-- The header that each thread woke last, and which call on its waker that was. -/
  wakes : Nat → Option (Nat × Nat)

/-- A step of the system, or the next access of a call on the waker of owner `i`. -/
inductive FineAct
  | world (a : Action)
  | access (i k : Nat)

/-- A call together with its first access. -/
def WakerSystem.enter (s : WakerSystem) (call : WakerCall) : Option WakerSystem :=
  (s.next (.call call)).bind fun t => t.next (.access s.frames.length)

/-- The call on the waker of a header that a step makes. -/
def World.wakerCall (w : World) : Action → Option (Nat × WakerCall)
  | .task i .registerWaker =>
      match w.owners[i]?.map Owner.pc with
      | some (.permitted _ waker) => some (i, .registerByRef waker)
      | _ => none
  | .driver d .wake =>
      match w.drivers[d]?.map Driver.pc with
      | some (.waking s) => s.op.map fun op => (op.owner, .wake)
      | _ => none
  | _ => none

namespace FineWorld

def start (loops : List Loop) : FineWorld :=
  ⟨World.start loops, fun _ => .start, fun _ => none⟩

/-- Whoever takes the step is in no call on a waker. -/
def free (f : FineWorld) : Action → Bool
  | .task i _ => (f.wakers i).frames.all fun g => g.call = .wake || g.pc = .returned
  | .driver d _ =>
      (f.wakes d).all fun (i, k) => (f.wakers i).frames[k]?.all fun g => g.pc = .returned
  | _ => true

/-- The calls of `wake` after another one. -/
def wakesAfter (f : FineWorld) (i : Nat) : Action → Nat → Option (Nat × Nat)
  | .driver d _ => Function.update f.wakes d (some (i, (f.wakers i).frames.length))
  | _ => f.wakes

def next (f : FineWorld) : FineAct → Option FineWorld
  | .world a =>
      if f.free a then
        (f.world.next a).bind fun w =>
          match f.world.wakerCall a with
          | none => some { f with world := w }
          | some (i, call) =>
              ((f.wakers i).enter call).map fun s =>
                ⟨w, Function.update f.wakers i s, f.wakesAfter i a⟩
      else none
  | .access i k =>
      ((f.wakers i).next (.access k)).map fun s => { f with wakers := Function.update f.wakers i s }

/-- A condition on the steps of the system. -/
def worldStep (p : World → Action → Bool) (f : FineWorld) : FineAct → Bool
  | .world a => p f.world a
  | .access _ _ => true

/-- The table of the steps. -/
inductive Stepped (f : FineWorld) : FineAct → FineWorld → Prop
  | silent {a w} (free : f.free a = true) (h : f.world.next a = some w)
      (none : f.world.wakerCall a = none) : Stepped f (.world a) { f with world := w }
  | call {a w i call s} (free : f.free a = true) (h : f.world.next a = some w)
      (calls : f.world.wakerCall a = some (i, call)) (enters : (f.wakers i).enter call = some s) :
      Stepped f (.world a) ⟨w, Function.update f.wakers i s, f.wakesAfter i a⟩
  | access {i k s} (h : (f.wakers i).next (.access k) = some s) :
      Stepped f (.access i k) { f with wakers := Function.update f.wakers i s }

theorem next_stepped {f g : FineWorld} {a : FineAct} (h : f.next a = some g) : f.Stepped a g := by
  cases a with
  | world a =>
      obtain ⟨free, h⟩ := Option.ite_none_right_eq_some.mp h
      obtain ⟨w, step, h⟩ := Option.bind_eq_some_iff.mp h
      cases calls : f.world.wakerCall a with
      | none =>
          rw [calls] at h
          cases h
          exact .silent free step calls
      | some made =>
          obtain ⟨i, call⟩ := made
          rw [calls] at h
          obtain ⟨s, enters, rfl⟩ := Option.map_eq_some_iff.mp h
          exact .call free step calls enters
  | access i k =>
      obtain ⟨s, step, rfl⟩ := Option.map_eq_some_iff.mp h
      exact .access step

end FineWorld

end Iocp
