import Iocp.Model.Machine

/-!
# Schedules

Lists of actions that let one party take the steps of a call without another
party in between. Longer schedules are their concatenations.
-/

namespace Iocp

open Transition

namespace Schedule

/-- A poll of owner `i` up to and including the exchange of `header_lock`. -/
def enter (i : Nat) (call : Call) (waker : Nat) : List Action :=
  [.task i (.poll call waker), .task i .registerWaker, .task i (.lock false)]

/-- An idle guard up to the system call, which answers that I/O is pending. -/
def submit (i : Nat) : List Action :=
  [.task i (.prepare 0 (.ok 0)), .task i (.submit (some Win32.errorIoPending))]

/-- A poll that submits an operation and returns pending. -/
def submitted (i : Nat) (call : Call) (waker : Nat) : List Action :=
  enter i call waker ++ submit i ++ [.task i .forget]

/-- A poll that finds its processed completion, collects it and returns. -/
def resume (i : Nat) (call : Call) (waker : Nat) : List Action :=
  enter i call waker ++
    [.task i .storeOpen, .task i (.collect none), .task i .dropGuard, .task i .dropPermit]

/-- The rest of a poll that found the header busy. -/
def busy (i : Nat) : List Action := [.task i .leaveBusy, .task i .dropPermit]

/-- Thread `d` dequeues a status with `poll`, processes it and drops it. -/
def drive (d : Nat) (release : Bool) : List Action :=
  [.driver d (.dequeue false), .driver d .account, .driver d (.load release),
    .driver d (.exchange false)] ++
  (if release then [.driver d .wake] else []) ++ [.driver d .drop]

/-- Owner `i` is dropped. -/
def dropOwner (i : Nat) : List Action :=
  [.task i .drop, .task i .leaveDrop, .task i .dropFields]

/-- A handle registered with the default options. -/
def handle : Action := .create .handle ⟨0, 2 ^ 16⟩

/-- A handle whose read was submitted, its task parked. -/
def pendingRead : List Action := [handle] ++ submitted 0 (.pollRead 8) 1

end Schedule

namespace World

section Exec

variable (ok : World → Action → Prop) [∀ w a, Decidable (ok w a)] (start : World)
  (as : List Action) {α : Type*}

/-- What can be computed from the last state of a schedule holds of a reached state. -/
theorem exec_state (f : World → α) (x : α) (h : (exec next ok start as).map f = some x) :
    ∃ w, Reached ok start w ∧ f w = x := by
  obtain ⟨w, hw, hx⟩ := Option.map_eq_some_iff.mp h
  exact ⟨w, exec_reaches Reaches.refl hw, hx⟩

/-- The same of one owner in the last state. -/
theorem exec_owner (i : Nat) (f : World → Owner → α) (x : α)
    (h : ((exec next ok start as).bind fun w => w.owners[i]?.map (f w)) = some x) :
    ∃ w o, Reached ok start w ∧ w.owners[i]? = some o ∧ f w o = x := by
  obtain ⟨w, hw, ho⟩ := Option.bind_eq_some_iff.mp h
  obtain ⟨o, owner, hx⟩ := Option.map_eq_some_iff.mp ho
  exact ⟨w, o, exec_reaches Reaches.refl hw, owner, hx⟩

/-- What can be computed from the last state and from what was seen on the way. -/
theorem exec_seen {E : Type*} (see : World → Action → List E) (f : World → List E → α) (x : α)
    (h : ((exec next ok start as).map fun w => f w (observe next see start as)) = some x) :
    ∃ w, Run next ok start as w ∧ f w (observe next see start as) = x := by
  obtain ⟨w, hw, hx⟩ := Option.map_eq_some_iff.mp h
  exact ⟨w, exec_run hw, hx⟩

end Exec

end World

end Iocp
