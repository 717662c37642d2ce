import Iocp.Model.Inversion

/-!
# The background thread of `setup`

A system started by `setup` has one driving thread, which runs the two loops
of the closure and never becomes a driver of another kind.
-/

namespace Iocp

open Transition

namespace Driver

variable {t : Driver} {s : Status}

theorem processed_loop (loop : t.loop ≠ .user) : (t.processed s).loop ≠ .user := by
  simp only [processed]
  split
  · simp
  · exact loop

theorem polled_loop (loop : t.loop ≠ .user) (r : CompletionPoll) :
    (t.polled s r).loop ≠ .user := by
  cases r with
  | status s => exact loop
  | shutdown pending =>
      simp only [polled]
      split
      · simp
      · exact loop
  | error e => simp [polled]

theorem drained_loop (loop : t.loop ≠ .user) (r : DrainPoll) :
    (t.drained s r).loop ≠ .user := by
  cases r with
  | status s => exact loop
  | again => exact loop
  | error e => simp [drained]

theorem unlocked_loop (loop : t.loop ≠ .user) (release : Bool) (u : UnlockStep) :
    (t.unlocked s release u).loop ≠ .user := by
  rcases t.unlocked_cases s release u with h | ⟨old, h⟩ | h
  · rw [h]
    exact processed_loop loop
  · rw [h]
    exact loop
  · rw [h]
    exact loop

end Driver

namespace World

variable {w v : World}

/-- A step of a thread of `setup` moves only that thread, which stays one. -/
theorem driven_loop {d : Nat} {t : Driver} {act : DriverAct} (driven : w.Driven d t act v)
    (loop : t.loop ≠ .user) : ∃ u, v.drivers = w.drivers.set d u ∧ u.loop ≠ .user := by
  cases driven with
  | dequeue pc queue may => exact ⟨_, rfl, loop⟩
  | poll pc => exact ⟨_, rfl, t.polled_loop loop _⟩
  | pollDuringShutdown pc => exact ⟨_, rfl, t.drained_loop loop _⟩
  | loadNull pc may null => exact ⟨_, rfl, t.processed_loop loop⟩
  | load pc may pointer owner => exact ⟨_, rfl, t.unlocked_loop loop _ _⟩
  | exchange pc pointer owner => exact ⟨_, rfl, t.unlocked_loop loop _ _⟩
  | wake pc pointer => exact ⟨_, rfl, t.processed_loop loop⟩
  | skip pc user => exact absurd user loop
  | dropNull pc null => exact ⟨_, rfl, loop⟩
  | drop pc pointer => exact ⟨_, rfl, loop⟩
  | finish pc loop => exact ⟨_, rfl, by simp⟩

/-- The only thread sits at the first index. -/
theorem single_thread {t u : Driver} {d : Nat} (drivers : w.drivers = [t])
    (thread : w.drivers[d]? = some u) : d = 0 ∧ u = t := by
  rw [drivers] at thread
  cases d with
  | zero =>
      simp only [List.getElem?_cons_zero, Option.some.injEq] at thread
      exact ⟨rfl, thread.symm⟩
  | succ d => simp at thread

/-- The background thread is the only driver. -/
theorem reached_background {ok : World → Action → Prop} (reach : Reached ok setup w) :
    ∃ t, w.drivers = [t] ∧ t.loop ≠ .user := by
  refine reach.invariant (P := fun w => ∃ t, w.drivers = [t] ∧ t.loop ≠ .user)
    ⟨⟨.main, .ready⟩, rfl, by simp⟩ ?_
  rintro w a v ⟨t, drivers, loop⟩ - h
  cases next_stepped h with
  | @driver d u act _ thread driven =>
      obtain ⟨rfl, rfl⟩ := single_thread drivers thread
      obtain ⟨t', hv, loop'⟩ := driven_loop driven loop
      exact ⟨t', by rw [hv, drivers]; rfl, loop'⟩
  | _ => exact ⟨t, drivers, loop⟩

end World

end Iocp
