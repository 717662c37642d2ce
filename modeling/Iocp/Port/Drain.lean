import Iocp.Port.Loops
import Iocp.Port.Shutdown

/-!
# Draining the port

The second loop of `setup` waits for as many packets as the counter held when
the shutdown message was dequeued. The counter also held the live permits, so
the number is never too small. It is too large when one of these permits is
given back without an accepted submission, and the loop then waits for a
packet that does not come.
-/

namespace Iocp

open Totals Transition

/-- A live permit whose holder may still submit an operation under it. -/
def Pc.maySubmit : Pc → Nat
  | .permitted _ _ => 1
  | .registered _ => 1
  | .storing call n => if call.code.word = -n then 0 else 1
  | .guarded _ .idle => 1
  | .prepared _ _ => 1
  | _ => 0

namespace Owner

variable {i : Nat} {o o' : Owner} {pending : Int} {a : TaskAct} {e : Effect}

/-- The step does not take from a poll the chance to submit: it does not find
the header busy or its own result, and neither `prepare` nor the system call fails. -/
def keepsPermit (o : Owner) : TaskAct → Bool
  | .lock _ =>
      match o.pc with
      | .registered call => o.lockWord ≤ 0 && o.lockWord ≠ -call.code.word
      | _ => true
  | .prepare extra newSocket =>
      match o.pc with
      | .guarded call .idle =>
          match (call.prepare extra newSocket o.preparePool o.sockets).2.2 with
          | .request _ => true
          | _ => false
      | _ => true
  | .submit answer =>
      match o.pc with
      | .prepared _ _ => (handleIoPending answer).isOk
      | _ => true
  | _ => true

/-- While the port is shut down, a step spends at least the permit it submits under. -/
theorem Acts.spends (acts : o.Acts i pending a o' e) (down : pending < 0) :
    o'.pc.permits + e.submit.toList.length ≤ o.pc.permits := by
  cases acts with
  | permit pc kind granted => omega
  | _ => simp_all [Pc.permits]

/-- While the port is open, no call of `permit` fails. -/
theorem Acts.opened (acts : o.Acts i pending a o' e) (opened : 0 ≤ pending) :
    o'.pc.failing ≤ o.pc.failing := by
  cases acts with
  | refusePermit pc kind refused => omega
  | _ => simp_all [Pc.failing]

/-- A step that keeps the permit submits under it or may still do so. -/
theorem Acts.submits (acts : o.Acts i pending a o' e) (keeps : o.keepsPermit a = true) :
    o.pc.maySubmit ≤ o'.pc.maySubmit + e.submit.toList.length := by
  cases acts with
  | lockBusy pc word =>
      simp [keepsPermit, pc] at keeps
      omega
  | @lockStore call spurious pc word failed =>
      simp only [keepsPermit, pc, Bool.and_eq_true, decide_eq_true_eq] at keeps
      have other : call.code.word ≠ -o.lockWord := by
        have := keeps.2
        omega
      simp [Pc.maySubmit, pc, other]
  | @storeOpen call n pc =>
      by_cases own : call.code.word = -n
      · simp [Pc.maySubmit, pc, own]
      · simp [Pc.maySubmit, pc, own]
  | @prepareFail call extra newSocket pool sockets result pc notPending slots fails =>
      simp only [keepsPermit, pc] at keeps
      cases keeps
  | refuseSubmit pc refused =>
      simp [keepsPermit, pc, refused, Except.isOk, Except.toBool] at keeps
  | _ => simp_all [Pc.maySubmit]

end Owner

namespace World

/-- The live permits whose holders may still submit. -/
def submitters (w : World) : Nat := total (fun o => o.pc.maySubmit) w.owners

/-- The queued packets of operations. -/
def queued (w : World) : Nat := total Packet.unaccounted w.queue

/-- When `poll` takes the shutdown message, every live permit may still be
submitted under, and while the port is shut down no poll gives its permit back
without an accepted submission. -/
def permitsSubmit (w : World) (a : Action) : Bool :=
  w.pollStep (fun s => s.completionKey ≠ shutdownPort || w.permits ≤ w.submitters) a &&
    (0 ≤ w.pending || w.ownerStep Owner.keepsPermit a)

section Others

variable {w v : World} {a : Action}

/-- A step of nobody but the background thread touches it or its history. -/
theorem other_same (stepped : w.Stepped a v) (other : ∀ d act, a ≠ .driver d act) :
    v.drivers = w.drivers ∧ v.tally.shutdowns = w.tally.shutdowns ∧
      v.tally.drained = w.tally.drained ∧ v.tally.discounted = w.tally.discounted := by
  cases stepped with
  | driver thread driven => exact absurd rfl (other _ _)
  | _ => exact ⟨rfl, rfl, rfl, rfl⟩

/-- While the port is shut down, packets only come from live permits. -/
theorem other_spends (stepped : w.Stepped a v) (other : ∀ d act, a ≠ .driver d act)
    (down : w.pending < 0) :
    v.tally.accepted + v.permits ≤ w.tally.accepted + w.permits := by
  cases stepped with
  | driver thread driven => exact absurd rfl (other _ _)
  | @task i o act o' e owner acts =>
      have spends := acts.spends down
      have moved := afterTask_total Pc.permits owner o' e
      simp only [permits, afterTask] at moved ⊢
      omega
  | complete flight admits =>
      simp only [permits, w.afterComplete_total Pc.permits]
      exact Nat.le_refl _
  | permit granted => omega
  | release holds =>
      simp only [permits, holds]
      omega
  | create key =>
      simp only [permits, w.create_total Pc.permits rfl]
      exact Nat.le_refl _
  | _ => exact Nat.le_refl _

/-- While the port is open, no call of `permit` fails. -/
theorem other_opened (stepped : w.Stepped a v) (other : ∀ d act, a ≠ .driver d act)
    (opened : 0 ≤ w.pending) : v.failing ≤ w.failing := by
  cases stepped with
  | driver thread driven => exact absurd rfl (other _ _)
  | @task i o act o' e owner acts =>
      have failing := acts.opened opened
      have moved := afterTask_total Pc.failing owner o' e
      simp only [World.failing, afterTask] at moved ⊢
      omega
  | complete flight admits =>
      simp only [failing, w.afterComplete_total Pc.failing]
      exact Nat.le_refl _
  | refusePermit refused => omega
  | undo failed =>
      simp only [failing, failed]
      omega
  | create key =>
      simp only [failing, w.create_total Pc.failing rfl]
      exact Nat.le_refl _
  | _ => exact Nat.le_refl _

/-- A step that keeps the permits turns each into a packet or leaves it alone. -/
theorem other_submits (stepped : w.Stepped a v) (other : ∀ d act, a ≠ .driver d act)
    (keeps : w.ownerStep Owner.keepsPermit a = true) :
    w.tally.accepted + w.submitters ≤ v.tally.accepted + v.submitters := by
  cases stepped with
  | driver thread driven => exact absurd rfl (other _ _)
  | @task i o act o' e owner acts =>
      rw [ownerStep_task owner] at keeps
      have submits := acts.submits keeps
      have moved := afterTask_total Pc.maySubmit owner o' e
      simp only [submitters, afterTask] at moved ⊢
      omega
  | complete flight admits =>
      simp only [submitters, w.afterComplete_total Pc.maySubmit]
      exact Nat.le_refl _
  | create key =>
      simp only [submitters, w.create_total Pc.maySubmit rfl]
      exact Nat.le_refl _
  | _ => exact Nat.le_refl _

end Others

/-- A step of the background thread moves no owner and no permit. -/
theorem driven_permits {w v : World} {d : Nat} {t : Driver} {act : DriverAct}
    (driven : w.Driven d t act v) :
    v.permits = w.permits ∧ v.failing = w.failing ∧ v.submitters = w.submitters := by
  have held := driven_held driven
  refine ⟨?_, ?_, driven_total Pc.maySubmit driven⟩
  · rw [permits, permits, driven_total Pc.permits driven, held.1]
  · rw [failing, failing, driven_total Pc.failing driven, held.2]

/-- The loops of `setup` take one shutdown message, and the second one waits at
least for the packets under way and for those of the live permits. -/
def Covered (w : World) (t : Driver) : Prop :=
  match t.loop with
  | .main => w.tally.shutdowns = 0 ∧ w.tally.drained = 0
  | .drain n => w.tally.shutdowns = 1 ∧ w.uncounted t + w.permits ≤ n
  | .returned (.ok ()) => w.tally.shutdowns = 1 ∧ w.uncounted t + w.permits = 0
  | _ => True

section Covered

variable {ok : World → Action → Prop} {w v : World} {a : Action} {t u : Driver}

/-- The number taken from the counter with the shutdown message. -/
theorem snapshot_eq (reach : Reached ok setup w) (posts : w.tally.posts = 0)
    (none : w.tally.shutdowns = 0) (drained : w.tally.drained = 0) :
    asUsize w.pending = w.awaiting + w.permits + w.failing := by
  have bound := reached_charged reach
  have undiscounted := (undiscounted_eq (reached_balanced reach)).2
  rw [pending_before reach posts none]
  simp only [charged] at bound ⊢
  simp only [asUsize]
  omega

/-- The pending counter has the sign the loop goes by. -/
theorem pending_down (reach : Reached ok setup w) (posts : w.tally.posts = 0)
    (one : w.tally.shutdowns = 1) : w.pending < 0 :=
  (pending_after reach posts one).2

theorem Covered.advance (covered : w.Covered t) (advance : w.Advance t v u)
    (permits : v.permits = w.permits)
    (snapshot : w.tally.shutdowns = 0 → w.tally.drained = 0 →
      w.awaiting + w.permits ≤ asUsize w.pending) : v.Covered u := by
  unfold Covered at covered ⊢
  cases advance with
  | main before after shutdowns drained =>
      simp only [before, after] at covered ⊢
      exact ⟨shutdowns.trans covered.1, drained.trans covered.2⟩
  | snapshot before after took message packets shutdowns =>
      simp only [before, after] at covered ⊢
      have count := snapshot covered.1 covered.2
      rw [packets, permits, shutdowns, covered.1]
      exact ⟨rfl, count⟩
  | drain before after packets shutdowns =>
      simp only [before, after] at covered ⊢
      rw [permits, shutdowns]
      exact ⟨covered.1, by omega⟩
  | finish before after packets shutdowns =>
      simp only [before, after] at covered ⊢
      rw [permits, shutdowns, packets]
      exact ⟨covered.1, by omega⟩
  | failed after => simp only [after]

theorem Covered.other (covered : w.Covered t) (shutdowns : v.tally.shutdowns = w.tally.shutdowns)
    (drained : v.tally.drained = w.tally.drained)
    (spends : w.tally.shutdowns = 1 → v.uncounted t + v.permits ≤ w.uncounted t + w.permits) :
    v.Covered t := by
  unfold Covered at covered ⊢
  split at covered
  · exact ⟨shutdowns.trans covered.1, drained.trans covered.2⟩
  · have := spends covered.1
    exact ⟨shutdowns.trans covered.1, by omega⟩
  · have := spends covered.1
    exact ⟨shutdowns.trans covered.1, by omega⟩
  · trivial

/-- In every run with no messages but shutdown messages the drain covers what
is under way and every live permit. -/
theorem reached_covered (posts : ∀ w a, ok w a → a.postsShutdown = true)
    (reach : Reached ok setup w) : ∃ t, w.drivers = [t] ∧ t.Placed ∧ w.Covered t := by
  obtain ⟨as, run⟩ := reach
  induction run with
  | nil => exact ⟨⟨.main, .ready⟩, rfl, .main (by simp), rfl, rfl⟩
  | @snoc as w a v run good h ih =>
      have reach : Reached ok setup w := ⟨as, run⟩
      have later : Reached ok setup v := reach.snoc good h
      have unposted := reached_unposted posts reach
      have stepped := next_stepped h
      obtain ⟨t, drivers, placed, covered⟩ := ih
      by_cases other : ∀ d act, a ≠ .driver d act
      · obtain ⟨same, shutdowns, drained, discounted⟩ := other_same stepped other
        refine ⟨t, same.trans drivers, placed, covered.other shutdowns drained fun one => ?_⟩
        have spends := other_spends stepped other (pending_down reach unposted one)
        have before := (reached_balanced reach).packets
        have after := (reached_balanced later).packets
        simp only [uncounted]
        omega
      · cases stepped with
        | driver thread driven =>
            obtain ⟨u, after, placed', advance⟩ := driven_advance (reached_valid reach)
              (reached_shutdown posts reach) drivers placed thread driven
            refine ⟨u, after, placed', covered.advance advance (driven_permits driven).1 ?_⟩
            intro none drained
            rw [snapshot_eq reach unposted none drained]
            omega
        | _ => simp at other

end Covered

/-- Nothing is on its way when nothing is awaited. -/
theorem nothing_awaited {w : World} (empty : w.awaiting = 0) :
    w.inFlight = [] ∧ ∀ p ∈ w.queue, p.io = none := by
  rw [awaiting] at empty
  constructor
  · exact List.length_eq_zero_iff.mp (by omega)
  · intro p member
    have message := eq_zero_of_total (f := Packet.unaccounted) (by omega) member
    cases hio : p.io with
    | none => rfl
    | some io => simp [Packet.unaccounted, hio] at message

/-- A step never takes an accepted operation back. -/
theorem accepted_le {w v : World} {a : Action} (stepped : w.Stepped a v) :
    w.tally.accepted ≤ v.tally.accepted := by
  cases stepped with
  | task owner acts => exact Nat.le_add_right _ _
  | driver thread driven =>
      cases driven with
      | poll pc => exact (w.tallyPoll_accepted _).1.ge
      | pollDuringShutdown pc => exact (w.tallyDrain_counts _).1.ge
      | _ => exact Nat.le_refl _
  | _ => exact Nat.le_refl _

section Ended

variable {w v : World} {t : Driver}

/-- The state of the port after the closure of `setup` has returned. -/
theorem reached_ended (reach : Reached (fun _ a => a.postsShutdown) setup w)
    (drivers : w.drivers = [t]) (returned : t.loop = .returned (.ok ())) :
    t = ⟨.returned (.ok ()), .ready⟩ ∧ w.pending < 0 ∧ w.awaiting = 0 ∧ w.permits = 0 := by
  obtain ⟨u, drivers', placed, covered⟩ := reached_covered (fun _ _ h => h) reach
  have same : u = t := by
    rw [drivers] at drivers'
    exact (List.singleton_injective drivers').symm
  subst same
  cases placed with
  | finished =>
      obtain ⟨one, none⟩ : w.tally.shutdowns = 1 ∧ w.uncounted _ + w.permits = 0 := covered
      rw [uncounted] at none
      have down := pending_down reach (reached_unposted (fun _ _ h => h) reach) one
      exact ⟨rfl, down, by omega, by omega⟩
  | _ => cases returned

/-- After the closure has returned, it stays returned and nothing is submitted. -/
theorem ended_run (reach : Reached (fun _ a => a.postsShutdown) setup w)
    (drivers : w.drivers = [t]) (returned : t.loop = .returned (.ok ()))
    (run : Reached (fun _ a => a.postsShutdown) w v) :
    v.drivers = [t] ∧ v.tally.accepted = w.tally.accepted := by
  obtain ⟨as, run⟩ := run
  induction run with
  | nil => exact ⟨drivers, rfl⟩
  | @snoc as u a v run good h ih =>
      have reached : Reached (fun _ a => a.postsShutdown) setup u := reach.trans ⟨as, run⟩
      obtain ⟨rfl, down, -, none⟩ := reached_ended reached ih.1 returned
      have stepped := next_stepped h
      have other : ∀ d act, a ≠ .driver d act := by
        rintro d act rfl
        cases stepped with
        | driver thread driven =>
            obtain ⟨-, rfl⟩ := single_thread ih.1 thread
            exact finished_stuck driven
      have spends := other_spends stepped other down
      have kept := accepted_le stepped
      exact ⟨(other_same stepped other).1.trans ih.1, by omega⟩

end Ended

/-- When the closure of `setup` has returned without an error, no operation is
in flight or has a packet in the queue, no permit is live, every later call of
`permit` fails, and no operation is accepted any more. -/
theorem drain_never_early {w : World} (reach : Reached (fun _ a => a.postsShutdown) setup w)
    {t : Driver} (drivers : w.drivers = [t]) (returned : t.loop = .returned (.ok ())) :
    w.inFlight = [] ∧ (∀ p ∈ w.queue, p.io = none) ∧ w.permits = 0 ∧
      ∀ v, Reached (fun _ a => a.postsShutdown) w v →
        v.Refuses ∧ v.tally.accepted = w.tally.accepted := by
  obtain ⟨-, -, none, permits⟩ := reached_ended reach drivers returned
  obtain ⟨flights, queue⟩ := nothing_awaited none
  refine ⟨flights, queue, permits, fun v run => ?_⟩
  obtain ⟨drivers', accepted⟩ := ended_run reach drivers returned run
  have later := reached_ended (reach.trans run) drivers' returned
  exact ⟨refuses_of_neg later.2.1, accepted⟩

/-- A read is in flight when the port is shut down; its packet is drained and
the closure returns. -/
def drainedRead : List Action :=
  shutDownRead ++ [.driver 0 .drop, .complete 0 (.success 4 [1, 2, 3, 4]),
    .driver 0 (.dequeue true), .driver 0 .account, .driver 0 (.load true),
    .driver 0 (.exchange false), .driver 0 .wake, .driver 0 .drop, .driver 0 .finish]

theorem drain_never_early_read :
    ∃ w, Reached (fun _ a => a.postsShutdown) setup w ∧ w.tally.accepted = 1 ∧
      w.inFlight = [] ∧ (∀ p ∈ w.queue, p.io = none) ∧ w.permits = 0 ∧
      ∀ v, Reached (fun _ a => a.postsShutdown) w v →
        v.Refuses ∧ v.tally.accepted = w.tally.accepted := by
  obtain ⟨w, reach, state⟩ :=
    exec_state (fun _ a => a.postsShutdown) setup drainedRead
      (fun w => (w.tally.accepted, w.drivers.map Driver.loop)) (1, [.returned (.ok ())])
      (by decide)
  simp only [Prod.mk.injEq] at state
  obtain ⟨accepted, loops⟩ := state
  obtain ⟨t, drivers, -⟩ := reached_background reach
  have returned : t.loop = .returned (.ok ()) := by
    rw [drivers] at loops
    exact List.singleton_injective loops
  exact ⟨w, reach, accepted, drain_never_early reach drivers returned⟩

/-- The second loop waits at most for the packets under way and for those of
the live permits whose holders may still submit. -/
def Awaited (w : World) (t : Driver) : Prop :=
  match t.loop with
  | .main => w.tally.shutdowns = 0 ∧ w.tally.drained = 0 ∧ w.failing = 0
  | .drain n => w.tally.shutdowns = 1 ∧ n ≤ w.uncounted t + w.submitters
  | _ => True

section Awaited

variable {w v : World} {a : Action} {t u : Driver}

theorem Awaited.advance (awaited : w.Awaited t) (advance : w.Advance t v u)
    (failing : v.failing = w.failing) (submitters : v.submitters = w.submitters)
    (snapshot : ∀ s, t.pc = .dequeued false s → s.completionKey = shutdownPort →
      w.tally.shutdowns = 0 → w.tally.drained = 0 → w.failing = 0 →
      asUsize w.pending ≤ w.awaiting + w.submitters) : v.Awaited u := by
  unfold Awaited at awaited ⊢
  cases advance with
  | main before after shutdowns drained =>
      simp only [before, after] at awaited ⊢
      obtain ⟨none, undrained, unfailed⟩ := awaited
      exact ⟨shutdowns.trans none, drained.trans undrained, failing.trans unfailed⟩
  | snapshot before after took message packets shutdowns =>
      simp only [before, after] at awaited ⊢
      obtain ⟨none, undrained, unfailed⟩ := awaited
      have count := snapshot _ took message none undrained unfailed
      rw [packets, submitters, shutdowns, none]
      exact ⟨rfl, count⟩
  | drain before after packets shutdowns =>
      simp only [before, after] at awaited ⊢
      rw [submitters, shutdowns]
      exact ⟨awaited.1, by omega⟩
  | finish before after packets shutdowns => simp only [after]
  | failed after => simp only [after]

theorem Awaited.other (awaited : w.Awaited t) (shutdowns : v.tally.shutdowns = w.tally.shutdowns)
    (drained : v.tally.drained = w.tally.drained)
    (opened : w.tally.shutdowns = 0 → v.failing ≤ w.failing)
    (submits : w.tally.shutdowns = 1 →
      w.uncounted t + w.submitters ≤ v.uncounted t + v.submitters) : v.Awaited t := by
  unfold Awaited at awaited ⊢
  split at awaited
  · obtain ⟨none, undrained, unfailed⟩ := awaited
    have := opened none
    exact ⟨shutdowns.trans none, drained.trans undrained, by omega⟩
  · have := submits awaited.1
    exact ⟨shutdowns.trans awaited.1, by omega⟩
  · trivial

/-- In every run that turns the live permits of the shutdown into submissions
the drain waits for what is under way only. -/
theorem reached_awaited
    (reach : Reached (fun w a => a.postsShutdown ∧ w.permitsSubmit a) setup w) :
    ∃ t, w.drivers = [t] ∧ t.Placed ∧ w.Awaited t := by
  obtain ⟨as, run⟩ := reach
  induction run with
  | nil => exact ⟨⟨.main, .ready⟩, rfl, .main (by simp), rfl, rfl, rfl⟩
  | @snoc as w a v run good h ih =>
      have reach : Reached (fun w a => a.postsShutdown ∧ w.permitsSubmit a) setup w := ⟨as, run⟩
      have later : Reached (fun w a => a.postsShutdown ∧ w.permitsSubmit a) setup v :=
        reach.snoc good h
      have posts := fun (w : World) (a : Action)
        (h : a.postsShutdown = true ∧ w.permitsSubmit a = true) => h.1
      have unposted := reached_unposted posts reach
      have stepped := next_stepped h
      have good' := good.2
      simp only [permitsSubmit, Bool.and_eq_true, Bool.or_eq_true, decide_eq_true_eq] at good'
      obtain ⟨t, drivers, placed, awaited⟩ := ih
      by_cases other : ∀ d act, a ≠ .driver d act
      · obtain ⟨same, shutdowns, drained, discounted⟩ := other_same stepped other
        refine ⟨t, same.trans drivers, placed, awaited.other shutdowns drained ?_ ?_⟩
        · intro none
          apply other_opened stepped other
          rw [pending_before reach unposted none]
          omega
        · intro one
          have down := pending_down reach unposted one
          have keeps := good'.2.resolve_left (by omega)
          have submits := other_submits stepped other keeps
          have before := (reached_balanced reach).packets
          have after := (reached_balanced later).packets
          simp only [uncounted]
          omega
      · cases stepped with
        | @driver d x act _ thread driven =>
            obtain ⟨u, after, placed', advance⟩ := driven_advance (reached_valid reach)
              (reached_shutdown posts reach) drivers placed thread driven
            obtain ⟨-, failing, submitters⟩ := driven_permits driven
            refine ⟨u, after, placed', awaited.advance advance failing submitters ?_⟩
            intro s took message none undrained unfailed
            obtain ⟨-, rfl⟩ := single_thread drivers thread
            have account := driven_account driven took
            subst account
            have submit := good'.1
            rw [pollStep_poll thread took] at submit
            simp only [message, ne_eq, not_true_eq_false, decide_false, Bool.false_or,
              decide_eq_true_eq] at submit
            rw [snapshot_eq reach unposted none undrained, unfailed]
            omega
        | _ => simp at other

end Awaited

theorem submitters_le (w : World) : w.submitters ≤ w.permits := by
  have each (pc : Pc) : pc.maySubmit ≤ pc.permits := by
    cases pc with
    | storing call n =>
        simp only [Pc.maySubmit, Pc.permits]
        split <;> omega
    | guarded call state => cases state <;> simp [Pc.maySubmit, Pc.permits]
    | _ => simp [Pc.maySubmit, Pc.permits]
  calc
    w.submitters ≤ total (fun o => o.pc.permits) w.owners := total_le fun o _ => each o.pc
    _ ≤ w.permits := Nat.le_add_right _ _

/-- Where every permit that is live when the shutdown message is dequeued is
turned into a submission, the drain waits for no packet that cannot come: its
count is at most what is in flight, in the queue, in its own hands, or still
to be submitted under a live permit. -/
theorem drain_never_late {w : World}
    (reach : Reached (fun w a => a.postsShutdown ∧ w.permitsSubmit a) setup w) {t : Driver}
    (drivers : w.drivers = [t]) {n : Nat} (loop : t.loop = .drain n) :
    n ≤ w.inFlight.length + w.queued + (t.pc.unaccounted + t.pc.inHand) + w.submitters ∧
      (t.pc = .ready → w.inFlight = [] → w.queued = 0 → w.permits = 0 →
        n = 0 ∧ (w.step (.driver 0 .finish)).isSome) := by
  obtain ⟨u, drivers', -, awaited⟩ := reached_awaited reach
  have same : u = t := by
    rw [drivers] at drivers'
    exact (List.singleton_injective drivers').symm
  subst same
  have bound : n ≤ w.inFlight.length + w.queued + (u.pc.unaccounted + u.pc.inHand) +
      w.submitters := by
    simp only [Awaited, loop] at awaited
    have count := awaited.2
    rw [uncounted, awaiting_single drivers] at count
    simp only [queued]
    omega
  refine ⟨bound, fun ready flights empty permits => ?_⟩
  have count : n = 0 := by
    have few := w.submitters_le
    have none : u.pc.unaccounted + u.pc.inHand = 0 := by
      rw [ready]
      rfl
    rw [flights, empty, none] at bound
    simp only [List.length_nil] at bound
    omega
  refine ⟨count, ?_⟩
  have thread : w.drivers[0]? = some u := by rw [drivers]; rfl
  simp only [step, driver, thread, finish, ready, loop, count, Option.isSome_some]

/-- The permit of a poll is live when the shutdown message is dequeued, and the
poll then submits its read. -/
def shutDownSubmit : List Action :=
  [Schedule.handle, .task 0 (.poll (.pollRead 8) 1), .post shutdownPort,
    .driver 0 (.dequeue false), .driver 0 .account, .driver 0 .drop, .task 0 .registerWaker,
    .task 0 (.lock false)] ++ Schedule.submit 0 ++ [.task 0 .forget]

theorem drain_never_late_submit :
    ∃ w t, Reached (fun w a => a.postsShutdown ∧ w.permitsSubmit a) setup w ∧
      w.drivers = [t] ∧ t.loop = .drain 1 ∧ w.inFlight.length = 1 ∧
      1 ≤ w.inFlight.length + w.queued + (t.pc.unaccounted + t.pc.inHand) + w.submitters := by
  obtain ⟨w, reach, state⟩ :=
    exec_state (fun w a => a.postsShutdown ∧ w.permitsSubmit a) setup shutDownSubmit
      (fun w => (w.inFlight.length, w.drivers.map Driver.loop)) (1, [.drain 1]) (by decide)
  simp only [Prod.mk.injEq] at state
  obtain ⟨flight, loops⟩ := state
  obtain ⟨t, drivers, -⟩ := reached_background reach
  have loop : t.loop = .drain 1 := by
    rw [drivers] at loops
    exact List.singleton_injective loops
  exact ⟨w, t, reach, drivers, loop, flight, (drain_never_late reach drivers loop).1⟩

/-- The permit of a poll is live when the shutdown message is dequeued, and the
operating system refuses its read afterwards. -/
def shutDownRefused : List Action :=
  [Schedule.handle] ++ Schedule.enter 0 (.pollRead 8) 1 ++
    [.post shutdownPort, .driver 0 (.dequeue false), .driver 0 .account, .driver 0 .drop,
      .task 0 (.prepare 0 (.ok 0)), .task 0 (.submit (some 5)), .task 0 .dropOverlapped,
      .task 0 .dropGuard, .task 0 .dropPermit]

/-- The drain waits for a packet although nothing is in flight, nothing is
queued and no permit is live. -/
theorem refused_submission_hangs_drain :
    ¬ ∀ w, Reached (fun _ a => a.postsShutdown) setup w → ∀ t n, w.drivers = [t] →
      t.loop = .drain n → t.pc = .ready →
      n ≤ w.inFlight.length + w.queued + w.submitters := by
  intro always
  obtain ⟨w, reach, state⟩ :=
    exec_state (fun _ a => a.postsShutdown) setup shutDownRefused
      (fun w => (w.inFlight.length, w.queued, w.submitters, w.drivers.map Driver.loop,
        w.drivers.map Driver.pc)) (0, 0, 0, [.drain 1], [.ready]) (by decide)
  simp only [Prod.mk.injEq] at state
  obtain ⟨flights, queued, submitters, loops, pcs⟩ := state
  obtain ⟨t, drivers, -⟩ := reached_background reach
  rw [drivers] at loops pcs
  have bound := always w reach t 1 drivers (List.singleton_injective loops)
    (List.singleton_injective pcs)
  omega

end World

end Iocp
