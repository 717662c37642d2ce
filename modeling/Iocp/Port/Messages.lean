import Iocp.Port.Counter

/-!
# Posted messages

A message posted with a null pointer travels through the queue like a packet.
When only `shutdown` posts, every status without an operation is a shutdown
message, and the pending counter is exactly what it stands for.
-/

namespace Iocp

open Totals Transition

/-- Nothing is posted but shutdown messages. -/
def Action.postsShutdown : Action → Bool
  | .post key => key = shutdownPort
  | _ => true

namespace World

/-- A status without an operation is a shutdown message. -/
def IsShutdown (s : Status) : Prop := s.op = none → s.completionKey = shutdownPort

theorem reached_shutdown {ok : World → Action → Prop} {loops : List Loop} {w : World}
    (posts : ∀ w a, ok w a → a.postsShutdown = true) (reach : Reached ok (start loops) w) :
    w.AllStatuses IsShutdown := by
  refine reach.invariant (start_statuses _ loops) ?_
  intro w a v all good h
  refine stepped_statuses all (next_stepped h) ?_ ?_
  · intro op _ status null
    cases null
  · rintro key rfl -
    have shutdown := posts w _ good
    simp only [Action.postsShutdown, decide_eq_true_eq] at shutdown
    exact shutdown

theorem IsShutdown.uncounted {s : Status} (shutdown : IsShutdown s) :
    s.op.isSome = true ∨ s.ordinary = false := by
  cases hop : s.op with
  | some op => exact .inl rfl
  | none =>
      refine .inr ?_
      rw [Status.ordinary, shutdown hop]
      exact decide_eq_false (Nat.not_lt.mpr reserved_shutdownPort)

/-- `poll` notes no message when it takes none for a completion. -/
theorem tallyPoll_posts (w : World) {s : Status}
    (counts : s.op.isSome = true ∨ s.ordinary = false) : (w.tallyPoll s).posts = w.tally.posts := by
  simp only [tallyPoll]
  split
  case isTrue ordinary =>
      have operation := counts.resolve_right (by simp [ordinary])
      rw [if_pos operation]
  case isFalse => split <;> rfl

/-- `poll` notes every shutdown message it takes. -/
theorem tallyPoll_shutdowns (w : World) (s : Status) :
    (w.tallyPoll s).shutdowns =
      w.tally.shutdowns + if s.completionKey = shutdownPort then 1 else 0 := by
  have reserved := Nat.not_lt.mpr reserved_shutdownPort
  simp only [tallyPoll, Status.ordinary]
  by_cases down : s.completionKey = shutdownPort
  · simp [down, reserved]
  · simp only [down, if_false]
    split
    · split <;> rfl
    · rfl

/-- Only `poll` takes a posted message for a completion. -/
theorem stepped_posts {w v : World} {a : Action} (stepped : w.Stepped a v)
    (counts : ∀ d t s, a = .driver d .account → w.drivers[d]? = some t →
      t.pc = .dequeued false s → s.op.isSome = true ∨ s.ordinary = false) :
    v.tally.posts = w.tally.posts := by
  cases stepped with
  | @driver d t act _ thread driven =>
      cases driven with
      | poll pc => exact w.tallyPoll_posts (counts d t _ rfl thread pc)
      | pollDuringShutdown pc => exact (w.tallyDrain_counts _).2.2.1
      | _ => rfl
  | _ => rfl

theorem reached_unposted {ok : World → Action → Prop} {loops : List Loop} {w : World}
    (posts : ∀ w a, ok w a → a.postsShutdown = true) (reach : Reached ok (start loops) w) :
    w.tally.posts = 0 := by
  obtain ⟨as, run⟩ := reach
  induction run with
  | nil => rfl
  | @snoc as w a v run good h ih =>
      have all := reached_shutdown posts ⟨as, run⟩
      rw [← ih]
      apply stepped_posts (next_stepped h)
      intro d t s _ thread pc
      exact (all.2 t (List.mem_of_getElem? thread) s (by rw [pc]; rfl)).uncounted

/-- A machine with 64-bit addresses never holds `2 ^ 63` permits and operations. -/
theorem reached_charged {ok : World → Action → Prop} {loops : List Loop} {w : World}
    (reach : Reached ok (start loops) w) : w.charged < 2 ^ 63 := by
  refine reach.invariant (P := fun w => w.charged < 2 ^ 63) ?_ ?_
  · simp [charged, undiscounted, permits, failing, start]
  · intro w a v _ _ h
    exact (next_eq_some.mp h).2

/-- What `poll` has discounted was accepted. -/
theorem undiscounted_eq {w : World} (balanced : w.Balanced) :
    (w.undiscounted : Int) = w.tally.accepted - w.tally.discounted ∧
      w.undiscounted = w.awaiting + w.tally.drained := by
  have packets := balanced.packets
  simp only [undiscounted]
  omega

/-- Without posted messages the counter is the charge and the shutdown messages. -/
theorem pending_eq {w : World} (balanced : w.Balanced) (posts : w.tally.posts = 0) :
    w.pending = isize (w.charged + w.tally.shutdowns * isizeMin) := by
  have undiscounted := (undiscounted_eq balanced).1
  rw [balanced.counter, ledger, posts, charged]
  congr 1
  push_cast
  generalize (w.tally.shutdowns : Int) * isizeMin = wraps
  omega

section Runs

variable {ok : World → Action → Prop} {loops : List Loop} {w : World}

/-- Before a shutdown message was taken the counter is the charge. -/
theorem pending_before (reach : Reached ok (start loops) w) (posts : w.tally.posts = 0)
    (none : w.tally.shutdowns = 0) : w.pending = w.charged := by
  have bound := reached_charged reach
  calc
    w.pending = isize (w.charged + w.tally.shutdowns * isizeMin) :=
      pending_eq (reached_balanced reach) posts
    _ = isize w.charged := by rw [none, Nat.cast_zero, zero_mul, add_zero]
    _ = w.charged := isize_eq_self (by omega) (by omega)

/-- After one shutdown message was taken the counter is negative. -/
theorem pending_after (reach : Reached ok (start loops) w) (posts : w.tally.posts = 0)
    (one : w.tally.shutdowns = 1) : w.pending = w.charged + isizeMin ∧ w.pending < 0 := by
  have bound := reached_charged reach
  have eq : w.pending = w.charged + isizeMin := by
    calc
      w.pending = isize (w.charged + w.tally.shutdowns * isizeMin) :=
        pending_eq (reached_balanced reach) posts
      _ = isize (w.charged + isizeMin) := by rw [one, Nat.cast_one, one_mul]
      _ = w.charged + isizeMin :=
        isize_eq_self (by simp only [isizeMin]; omega) (by simp only [isizeMin]; omega)
  refine ⟨eq, ?_⟩
  rw [eq, isizeMin]
  omega

end Runs

/-- The pending counter counts the accepted operations that `poll` has not
discounted, the live permits and the failed additions to be undone, and
`isize::MIN` once the shutdown message was dequeued by `poll`. What is not
discounted is still on its way, or was returned by `poll_during_shutdown`. -/
theorem pending_accounting {loops : List Loop} {w : World}
    (reach : Reached (fun _ a => a.postsShutdown) (start loops) w) :
    (w.tally.shutdowns = 0 → w.pending = w.undiscounted + w.permits + w.failing) ∧
      (w.tally.shutdowns = 1 →
        w.pending = w.undiscounted + w.permits + w.failing + isizeMin) ∧
      w.pending = isize (w.undiscounted + w.permits + w.failing +
        w.tally.shutdowns * isizeMin) ∧
      w.undiscounted = w.awaiting + w.tally.drained := by
  have balanced := reached_balanced reach
  have posts := reached_unposted (fun _ _ h => h) reach
  refine ⟨fun none => ?_, fun one => ?_, ?_, (undiscounted_eq balanced).2⟩
  · rw [pending_before reach posts none, charged]
    push_cast
    rfl
  · rw [(pending_after reach posts one).1, charged]
    push_cast
    rfl
  · rw [pending_eq balanced posts, charged]
    push_cast
    rfl

/-- A read is in flight while the background thread dequeues the shutdown message. -/
def shutDownRead : List Action :=
  Schedule.pendingRead ++ [.post shutdownPort, .driver 0 (.dequeue false), .driver 0 .account]

theorem pending_accounting_read :
    ∃ w, Reached (fun _ a => a.postsShutdown) setup w ∧ w.tally.shutdowns = 1 ∧
      w.undiscounted = 1 ∧ w.pending = w.undiscounted + w.permits + w.failing + isizeMin := by
  obtain ⟨w, reach, state⟩ :=
    exec_state (fun _ a => a.postsShutdown) setup shutDownRead
      (fun w => (w.tally.shutdowns, w.undiscounted)) (1, 1) (by decide)
  simp only [Prod.mk.injEq] at state
  obtain ⟨one, flight⟩ := state
  exact ⟨w, reach, one, flight, (pending_accounting reach).2.1 one⟩

end World

end Iocp
