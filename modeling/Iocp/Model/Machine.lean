import Iocp.Library.Totals
import Iocp.Library.Transition
import Iocp.Model.World

/-!
# Runs on a 64-bit machine

The `+1`s that the pending counter stands for, by the place that owns them,
and the runs of the system. A live permit is a value in a frame of some
thread and an accepted operation a request in the kernel, so a machine with
64-bit addresses holds fewer than `2 ^ 63` of them at any time. A user who
forgets permits instead of dropping them would have to take as many.
-/

namespace Iocp

open Transition Totals

namespace Pc

/-- Live permits that have not been turned into a submission. -/
def permits : Pc → Nat
  | out => 0
  | permitFailed => 0
  | accepted _ => 0
  | dropping _ => 0
  | dropFields => 0
  | dropped => 0
  | _ => 1

/-- Calls of `permit` between their failed addition and its undo. -/
def failing : Pc → Nat
  | permitFailed => 1
  | _ => 0

end Pc

namespace World

/-- The number of live permits not yet turned into a submission. -/
def permits (w : World) : Nat := total (fun o => o.pc.permits) w.owners + w.held

/-- The number of calls of `permit` that must still undo their addition. -/
def failing (w : World) : Nat := total (fun o => o.pc.failing) w.owners + w.undoing

/-- The accepted operations whose packet `poll` has not dequeued and discounted. -/
def undiscounted (w : World) : Nat := w.tally.accepted - w.tally.discounted

/-- Everything the pending counter counts. -/
def charged (w : World) : Nat := w.undiscounted + w.permits + w.failing

/-- A step of the system on a machine with 64-bit addresses. -/
def next (w : World) (a : Action) : Option World :=
  (w.step a).filter fun v => v.charged < 2 ^ 63

theorem next_eq_some {w v : World} {a : Action} :
    w.next a = some v ↔ w.step a = some v ∧ v.charged < 2 ^ 63 := by
  simp [next, Option.filter_eq_some_iff]

/-- A condition on the steps of the owners. -/
def ownerStep (p : Owner → TaskAct → Bool) (w : World) : Action → Bool
  | .task i a => (w.owners[i]?.map fun o => p o a).getD true
  | _ => true

theorem ownerStep_task {p : Owner → TaskAct → Bool} {w : World} {i : Nat} {a : TaskAct} {o : Owner}
    (owner : w.owners[i]? = some o) : w.ownerStep p (.task i a) = p o a := by
  simp [ownerStep, owner]

/-- A condition on the steps of owner `i`. -/
def ownerAt (i : Nat) (p : Owner → TaskAct → Bool) (w : World) : Action → Bool
  | .task j a => j ≠ i || w.owners[j]?.all fun o => p o a
  | _ => true

theorem ownerAt_task {p : Owner → TaskAct → Bool} {w : World} {i : Nat} {a : TaskAct} {o : Owner}
    (owner : w.owners[i]? = some o) : w.ownerAt i p (.task i a) = p o a := by
  simp [ownerAt, owner]

theorem ownerAt_of {p : Owner → TaskAct → Bool} {w : World} {i : Nat} {a : Action}
    (all : ∀ o act, w.owners[i]? = some o → a = .task i act → p o act = true) :
    w.ownerAt i p a = true := by
  cases a with
  | task j act =>
      by_cases own : j = i
      · subst own
        cases owner : w.owners[j]? with
        | none => simp [ownerAt, owner]
        | some o =>
            rw [ownerAt_task owner]
            exact all o act owner rfl
      · simp [ownerAt, own]
  | _ => rfl

/-- The states reached from a start by steps that meet a condition. -/
abbrev Reached (ok : World → Action → Prop) (start w : World) : Prop :=
  Reaches next ok start w

end World

end Iocp
