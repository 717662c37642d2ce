import Iocp.Port.Messages

/-!
# Shutting the port down

The port is shut down when its counter is negative. `poll` makes it negative
by adding `isize::MIN` for a shutdown message, and a second such message makes
it wrap around. A message posted under an ordinary key is discounted like the
packet of an operation, which no permit was taken for.
-/

namespace Iocp

open Totals Transition

namespace World

/-- A condition on the statuses that `poll` accounts for. -/
def pollStep (p : Status → Bool) (w : World) : Action → Bool
  | .driver d .account =>
      match w.drivers[d]? with
      | some ⟨_, .dequeued false s⟩ => p s
      | _ => true
  | _ => true

theorem pollStep_poll {p : Status → Bool} {w : World} {d : Nat} {t : Driver} {s : Status}
    (thread : w.drivers[d]? = some t) (pc : t.pc = .dequeued false s) :
    w.pollStep p (.driver d .account) = p s := by
  obtain ⟨loop, pc'⟩ := t
  simp only at pc
  subst pc
  simp [pollStep, thread]

/-- `poll` discounts no posted message. -/
def countsOperations (w : World) (a : Action) : Bool :=
  w.pollStep (fun s => s.op.isSome || !s.ordinary) a

/-- `poll` takes a shutdown message only while the port is not shut down. -/
def shutsDownOnce (w : World) (a : Action) : Bool :=
  w.pollStep (fun s => s.completionKey ≠ shutdownPort || 0 ≤ w.pending) a

/-- `permit` succeeds, called by a user or by a poll. -/
structure Grants (w : World) : Prop where
  call : w.step .permit = some { w with pending := isize (w.pending + 1), held := w.held + 1 }
  poll : ∀ i o call waker, w.owners[i]? = some o → o.pc = .out → call.kind = o.kind →
    w.step (.task i (.poll call waker)) =
      some (w.afterTask i { o with pc := .permitted call waker } { add := 1 })

/-- `permit` fails, called by a user or by a poll, and a poll whose `permit`
has failed can only return the error. -/
structure Refuses (w : World) : Prop where
  call : w.step .permit =
    some { w with pending := isize (w.pending + 1), undoing := w.undoing + 1 }
  poll : ∀ i o call waker, w.owners[i]? = some o → o.pc = .out → call.kind = o.kind →
    w.step (.task i (.poll call waker)) =
      some (w.afterTask i { o with pc := .permitFailed } { add := 1 })
  error : ∀ i o a v, w.owners[i]? = some o → o.pc = .permitFailed →
    w.step (.task i a) = some v → v = w.afterTask i { o with
      pc := .out
      last := some (.failed (.other "port is shutting down")) } { add := -1 }

theorem grants_of_nonneg {w : World} (pending : 0 ≤ w.pending) : w.Grants := by
  constructor
  · simp [step, permit, pending]
  · intro i o call waker owner pc kind
    apply step_of_act owner
    simp [Owner.act, Owner.poll, pc, kind, pending]

theorem refuses_of_neg {w : World} (pending : w.pending < 0) : w.Refuses := by
  have down : ¬ 0 ≤ w.pending := by omega
  refine ⟨?_, ?_, ?_⟩
  · simp [step, permit, down]
  · intro i o call waker owner pc kind
    apply step_of_act owner
    simp [Owner.act, Owner.poll, pc, kind, down]
  · intro i o a v owner pc h
    obtain ⟨o', e, acts, rfl⟩ := step_task owner h
    cases acts with
    | undoPermit _ => rfl
    | _ => simp_all

section Runs

variable {ok : World → Action → Prop} {loops : List Loop} {w : World}

/-- In runs where `poll` discounts operations only, it discounts no message. -/
theorem reached_counting (counts : ∀ w a, ok w a → w.countsOperations a = true)
    (reach : Reached ok (start loops) w) : w.tally.posts = 0 := by
  refine reach.invariant (P := fun w => w.tally.posts = 0) rfl ?_
  intro w a v ih good h
  rw [← ih]
  apply stepped_posts (next_stepped h)
  rintro d t s rfl thread pc
  have operation := counts w _ good
  rw [countsOperations, pollStep_poll thread pc] at operation
  simpa using operation

end Runs

/-- Before `poll` has taken a shutdown message no `permit` is refused, as long
as `poll` discounts no posted message. -/
theorem no_refusal_before_shutdown {loops : List Loop} {w : World}
    (reach : Reached (fun w a => w.countsOperations a) (start loops) w)
    (before : w.tally.shutdowns = 0) : 0 ≤ w.pending ∧ w.Grants := by
  have posts := reached_counting (fun _ _ h => h) reach
  have pending : 0 ≤ w.pending := by
    rw [pending_before reach posts before]
    omega
  exact ⟨pending, grants_of_nonneg pending⟩

theorem no_refusal_before_shutdown_read :
    ∃ w, Reached (fun w a => w.countsOperations a) setup w ∧ w.tally.accepted = 1 ∧
      0 ≤ w.pending ∧ w.Grants := by
  obtain ⟨w, reach, state⟩ :=
    exec_state (fun w a => w.countsOperations a) setup Schedule.pendingRead
      (fun w => (w.tally.accepted, w.tally.shutdowns)) (1, 0) (by decide)
  simp only [Prod.mk.injEq] at state
  obtain ⟨accepted, before⟩ := state
  exact ⟨w, reach, accepted, no_refusal_before_shutdown reach before⟩

/-- One message posted under an ordinary key makes the port refuse permits. -/
theorem posted_message_refuses :
    ¬ ∀ w, Reached anyStep setup w → w.tally.shutdowns = 0 → 0 ≤ w.pending ∧ w.Grants := by
  intro always
  obtain ⟨w, reach, state⟩ :=
    exec_state anyStep setup [.post 0, .driver 0 (.dequeue false), .driver 0 .account]
      (fun w => (w.tally.shutdowns, w.pending)) (0, -1) (by decide)
  simp only [Prod.mk.injEq] at state
  obtain ⟨before, pending⟩ := state
  have nonneg := (always w reach before).1
  omega

/-- `poll` takes at most one shutdown message when it takes none from a port
that is shut down. -/
theorem reached_shutdowns {loops : List Loop} {w : World}
    (reach : Reached (fun w a => w.countsOperations a ∧ w.shutsDownOnce a) (start loops) w) :
    w.tally.shutdowns ≤ 1 := by
  obtain ⟨as, run⟩ := reach
  induction run with
  | nil => exact Nat.zero_le 1
  | @snoc as w a v run good h ih =>
      have reach : Reached _ (start loops) w := ⟨as, run⟩
      cases next_stepped h with
      | @driver d t act _ thread driven =>
          cases driven with
          | @poll s pc =>
              have once := good.2
              rw [shutsDownOnce, pollStep_poll thread pc, Bool.or_eq_true,
                decide_eq_true_eq, decide_eq_true_eq] at once
              rw [tallyPoll_shutdowns]
              split
              case isTrue down =>
                  -- the port is still open, so no shutdown message was taken before
                  have opened : 0 ≤ w.pending := once.resolve_left (by simp [down])
                  have posts := reached_counting (fun _ _ h => h.1) reach
                  have not_one : w.tally.shutdowns ≠ 1 := by
                    intro one
                    have := (pending_after reach posts one).2
                    omega
                  omega
              case isFalse => omega
          | @pollDuringShutdown s pc =>
              rw [(w.tallyDrain_counts s).2.2.2]
              exact ih
          | _ => exact ih
      | _ => exact ih

/-- Once `poll` has taken a shutdown message the port stays shut down, as long
as it takes no second one and discounts no posted message. -/
theorem shutdown_permanent {loops : List Loop} {w : World}
    (reach : Reached (fun w a => w.countsOperations a ∧ w.shutsDownOnce a) (start loops) w)
    (after : 0 < w.tally.shutdowns) : w.pending < 0 ∧ w.Refuses := by
  have posts := reached_counting (fun _ _ h => h.1) reach
  have most := reached_shutdowns reach
  have pending := (pending_after reach posts (by omega)).2
  exact ⟨pending, refuses_of_neg pending⟩

theorem shutdown_permanent_read :
    ∃ w, Reached (fun w a => w.countsOperations a ∧ w.shutsDownOnce a) setup w ∧
      w.inFlight.length = 1 ∧ w.pending < 0 ∧ w.Refuses := by
  obtain ⟨w, reach, state⟩ :=
    exec_state (fun w a => w.countsOperations a ∧ w.shutsDownOnce a) setup shutDownRead
      (fun w => (w.inFlight.length, w.tally.shutdowns)) (1, 1) (by decide)
  simp only [Prod.mk.injEq] at state
  obtain ⟨flight, one⟩ := state
  exact ⟨w, reach, flight, shutdown_permanent reach (by omega)⟩

/-- Two shutdown messages taken by `poll`, as every thread of a driver with two
threads takes one. -/
def shutDownTwice : List Action :=
  [.post shutdownPort, .post shutdownPort, .driver 0 (.dequeue false), .driver 0 .account,
    .driver 1 (.dequeue false), .driver 1 .account]

/-- The second shutdown message that `poll` takes opens the port again. -/
theorem second_shutdown_reopens :
    ¬ ∀ w, Reached (fun _ a => a.postsShutdown) (start [.user, .user]) w →
      0 < w.tally.shutdowns → w.pending < 0 ∧ w.Refuses := by
  intro always
  obtain ⟨w, reach, state⟩ :=
    exec_state (fun _ a => a.postsShutdown) (start [.user, .user]) shutDownTwice
      (fun w => (w.tally.shutdowns, w.pending)) (2, 0) (by decide)
  simp only [Prod.mk.injEq] at state
  obtain ⟨two, pending⟩ := state
  have negative := (always w reach (by omega)).1
  omega

end World

end Iocp
