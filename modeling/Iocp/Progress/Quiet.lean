import Iocp.Progress.Rank
import Iocp.Port.Messages

/-!
# When nothing can be done any more

A call is never blocked, an operation in flight can end, and a thread can always go
on with the status it holds. So the system is at rest when nothing is left but
packets that no thread takes, because all of them have returned.
-/

namespace Iocp

open Totals Transition

/-- Given a socket, `Accept::prepare` fails in no other way than by a panic. -/
theorem Call.prepare_known (call : Call) (extra raw : Nat) (pool : BufferPool)
    (sockets : SocketPool) (code : Nat) :
    (call.prepare extra (.ok raw) pool sockets).2.2 ≠ .error code := by
  intro failed
  cases call with
  | pollRead len | read len =>
      simp only [prepare, prepareRead] at failed
      split at failed <;> cases failed
  | pollWrite buf | write buf =>
      simp only [prepare, prepareWrite] at failed
      split at failed <;> cases failed
  | deviceIoControl control message =>
      simp only [prepare, prepareDeviceIoControl] at failed
      split at failed
      · cases failed
      · simp only at failed
        split at failed <;> cases failed
  | connectNamedPipe => cases failed
  | accept =>
      simp only [prepare, prepareAccept] at failed
      split at failed
      case h_1 sockets' code' taken =>
          simp only [SocketPool.take] at taken
          split at taken <;> cases taken
      case h_2 => cases failed
      case h_3 => split at failed <;> cases failed

namespace Owner

variable {i : Nat} {o : Owner} {pending : Int}

/-- A guard that found its own completed operation can always collect. -/
theorem collect_possible {call : Call} (pc : o.pc = .guarded call .pending)
    (duplicate : Option Nat) : (o.collect duplicate).isSome := by
  simp only [collect, pc]
  split
  · rfl
  · split
    · rfl
    · rfl
    · split <;> rfl

/-- An idle guard can always prepare. -/
theorem prepare_possible {call : Call} (pc : o.pc = .guarded call .idle) :
    (o.prepare 0 (.ok 0)).isSome := by
  have known := call.prepare_known 0 0 o.preparePool o.sockets
  simp only [prepare, pc]
  cases made : (call.prepare 0 (.ok 0) o.preparePool o.sockets).2.2 with
  | request request => rfl
  | error code => exact absurd made (known code)
  | panic => rfl

/-- A call that has not returned can go on. -/
theorem goes_on (i : Nat) (pending : Int) (out : o.pc ≠ .out) (dropped : o.pc ≠ .dropped) :
    ∃ a, a.settles = true ∧ (o.act i pending a).isSome := by
  cases pc : o.pc with
  | out => exact absurd pc out
  | dropped => exact absurd pc dropped
  | permitFailed => exact ⟨.undoPermit, rfl, by simp [act, undoPermit, pc]⟩
  | permitted call waker => exact ⟨.registerWaker, rfl, by simp [act, registerWaker, pc]⟩
  | registered call => exact ⟨.lock false, rfl, by simp [act, lock, pc]⟩
  | busy call found mismatch => exact ⟨.leaveBusy, rfl, by simp [act, leaveBusy, pc]⟩
  | storing call n => exact ⟨.storeOpen, rfl, by simp [act, storeOpen, pc]⟩
  | guarded call found =>
      cases found with
      | idle => exact ⟨.prepare 0 (.ok 0), rfl, prepare_possible pc⟩
      | pending => exact ⟨.collect none, rfl, collect_possible pc none⟩
  | prepared call request => exact ⟨.submit none, rfl, by simp [act, submit, pc, handleIoPending]⟩
  | accepted call => exact ⟨.forget, rfl, by simp [act, forget, pc]⟩
  | dropOverlapped result => exact ⟨.dropOverlapped, rfl, by simp [act, Owner.dropOverlapped, pc]⟩
  | dropGuard result =>
      refine ⟨.dropGuard, rfl, ?_⟩
      simp only [act, Owner.dropGuard, pc]
      split <;> rfl
  | dropPermit result => exact ⟨.dropPermit, rfl, by simp [act, Owner.dropPermit, pc]⟩
  | dropping state => exact ⟨.leaveDrop, rfl, by simp [act, leaveDrop, pc]⟩
  | dropFields => exact ⟨.dropFields, rfl, by simp [act, Owner.dropFields, pc]⟩

/-- No step that goes on with a call adds to the counter. -/
theorem Acts.settles_add {o' : Owner} {a : TaskAct} {e : Effect}
    (acts : o.Acts i pending a o' e) (settles : a.settles = true) : e.add ≤ 0 := by
  cases acts with
  | permit | refusePermit | drop => cases settles
  | _ => simp

end Owner

namespace World

variable {w v : World} {a : Action} {d : Nat} {t u : Driver} {act : DriverAct}

theorem tallyPoll_discounts (w : World) (s : Status) :
    w.tally.discounted ≤ (w.tallyPoll s).discounted := by
  simp only [tallyPoll]
  split
  · split
    · exact Nat.le_succ _
    · exact Nat.le_refl _
  · split <;> exact Nat.le_refl _

/-- A thread charges nothing. -/
theorem driven_charged (driven : w.Driven d t act v) : v.charged ≤ w.charged := by
  have held := driven_held driven
  have permits : v.permits = w.permits := by
    rw [World.permits, World.permits, driven_total Pc.permits driven, held.1]
  have failing : v.failing = w.failing := by
    rw [World.failing, World.failing, driven_total Pc.failing driven, held.2]
  have undiscounted : v.undiscounted ≤ w.undiscounted := by
    cases driven with
    | @poll s pc =>
        have accepted := (w.tallyPoll_accepted s).1
        have discounts := w.tallyPoll_discounts s
        simp only [World.undiscounted]
        omega
    | @pollDuringShutdown s pc =>
        have counts := w.tallyDrain_counts s
        simp only [World.undiscounted]
        omega
    | _ => exact Nat.le_refl _
  rw [charged, charged, permits, failing]
  omega

/-- No step that begins nothing charges the port with anything new. -/
theorem settles_charged (h : w.step a = some v) (settles : a.settles = true) :
    v.charged ≤ w.charged := by
  have stepped := step_stepped h
  cases stepped with
  | @task i o act o' e owner acts =>
      have charge := acts.charge
      have add := acts.settles_add settles
      have permits := afterTask_total Pc.permits owner o' e
      have failing := afterTask_total Pc.failing owner o' e
      simp only [charged, undiscounted, World.permits, World.failing, afterTask]
        at permits failing ⊢
      omega
  | @complete k op status flight admits =>
      have permits := w.afterComplete_total Pc.permits k op status
      have failing := w.afterComplete_total Pc.failing k op status
      simp only [charged, undiscounted, World.permits, World.failing] at permits failing ⊢
      rw [permits, failing]
      exact Nat.le_refl _
  | driver thread driven => exact driven_charged driven
  | post | permit | refusePermit | create => cases settles
  | undo failed =>
      simp only [charged, undiscounted, permits, failing]
      omega
  | release holds =>
      simp only [charged, undiscounted, permits, failing]
      omega

/-- On a reached state it can always be taken, when the system can. -/
theorem settles_next {ok : World → Action → Prop} {loops : List Loop}
    (reach : Reached ok (start loops) w) (h : w.step a = some v) (settles : a.settles = true) :
    w.next a = some v :=
  next_eq_some.mpr ⟨h, Nat.lt_of_le_of_lt (settles_charged h settles) (reached_charged reach)⟩

end World

/-- A thread that unlocks or wakes holds the status of an operation, and a closure of
`setup` that has returned holds no status but one to drop. -/
structure Driver.Formed (t : Driver) : Prop where
  unlocking : ∀ s old release, t.pc = .unlocking s old release → s.op.isSome
  waking : ∀ s, t.pc = .waking s → s.op.isSome
  returned : ∀ r, t.loop = .returned r → t.pc = .ready ∨ ∃ s, t.pc = .done s

namespace Driver

variable {t : Driver} {s : Status}

theorem Formed.ready (loop : Loop) : Formed ⟨loop, .ready⟩ := ⟨by simp, by simp, by simp⟩

theorem Formed.done (loop : Loop) (s : Status) : Formed ⟨loop, .done s⟩ :=
  ⟨by simp, by simp, by simp⟩

/-- A closure that holds a status has not returned. -/
theorem Formed.running (formed : t.Formed) (ready : t.pc ≠ .ready) (done : ∀ s, t.pc ≠ .done s)
    (r : Except IoError Unit) : t.loop ≠ .returned r := by
  intro returned
  rcases formed.returned r returned with h | ⟨s, h⟩
  · exact ready h
  · exact done s h

/-- It goes on to a point where it neither unlocks nor wakes. -/
theorem Formed.goes {pc : DriverPc} (running : ∀ r, t.loop ≠ .returned r)
    (unlocking : ∀ s old release, pc ≠ .unlocking s old release) (waking : ∀ s, pc ≠ .waking s) :
    Formed { t with pc := pc } where
  unlocking := fun s old release h => absurd h (unlocking s old release)
  waking := fun s h => absurd h (waking s)
  returned := fun r h => absurd h (running r)

theorem Formed.polled (running : ∀ r, t.loop ≠ .returned r) (s : Status) (r : CompletionPoll) :
    (t.polled s r).Formed := by
  cases r with
  | status s' => exact .goes running (by simp) (by simp)
  | _ => exact .done _ s

theorem Formed.drained (running : ∀ r, t.loop ≠ .returned r) (s : Status) (r : DrainPoll) :
    (t.drained s r).Formed := by
  cases r with
  | status s' => exact .goes running (by simp) (by simp)
  | _ => exact .done _ s

theorem Formed.unlocked (running : ∀ r, t.loop ≠ .returned r) (pointer : s.op.isSome)
    (release : Bool) (u : UnlockStep) : (t.unlocked s release u).Formed := by
  rcases t.unlocked_cases s release u with h | ⟨old, h⟩ | h
  · rw [h]
    exact .done _ s
  · rw [h]
    refine ⟨?_, by simp, fun r h => absurd h (running r)⟩
    rintro s' old' release' same
    obtain ⟨rfl, -⟩ := DriverPc.unlocking.inj same
    exact pointer
  · rw [h]
    refine ⟨by simp, ?_, fun r h => absurd h (running r)⟩
    rintro s' same
    obtain rfl := DriverPc.waking.inj same
    exact pointer

end Driver

namespace World

variable {ok : World → Action → Prop} {loops : List Loop} {w v : World} {d : Nat} {t : Driver}
  {act : DriverAct}

/-- Every step of a thread leaves it well formed. -/
theorem driven_formed (formed : t.Formed) (driven : w.Driven d t act v) :
    ∃ u, v.drivers = w.drivers.set d u ∧ u.Formed := by
  cases driven with
  | dequeue pc queue may =>
      refine ⟨_, rfl, .goes (fun r returned => ?_) (by simp) (by simp)⟩
      simp [Driver.mayDequeue, returned] at may
  | poll pc => exact ⟨_, rfl, .polled (formed.running (by simp [pc]) (by simp [pc])) _ _⟩
  | pollDuringShutdown pc =>
      exact ⟨_, rfl, .drained (formed.running (by simp [pc]) (by simp [pc])) _ _⟩
  | loadNull pc may null => exact ⟨_, rfl, .done _ _⟩
  | load pc may pointer owner =>
      have running := formed.running (by simp [pc]) (by simp [pc])
      exact ⟨_, rfl, .unlocked running (by simp [pointer]) _ _⟩
  | exchange pc pointer owner =>
      have running := formed.running (by simp [pc]) (by simp [pc])
      exact ⟨_, rfl, .unlocked running (by simp [pointer]) _ _⟩
  | wake pc pointer => exact ⟨_, rfl, .done _ _⟩
  | skip pc user => exact ⟨_, rfl, .done _ _⟩
  | dropNull pc null | drop pc pointer => exact ⟨_, rfl, .ready _⟩
  | finish pc loop =>
      refine ⟨_, rfl, ?_⟩
      rw [pc]
      exact .ready _

theorem reached_formed (reach : Reached ok (start loops) w) : ∀ t ∈ w.drivers, t.Formed := by
  refine reach.invariant (P := fun w => ∀ t ∈ w.drivers, t.Formed) ?_ ?_
  · intro t member
    obtain ⟨loop, -, rfl⟩ := List.mem_map.mp member
    exact .ready loop
  · intro w a v formed _ h t member
    cases next_stepped h with
    | @driver d u act _ thread driven =>
        obtain ⟨u', drivers, formed'⟩ :=
          driven_formed (formed u (List.mem_of_getElem? thread)) driven
        rcases List.mem_or_eq_of_mem_set (drivers ▸ member) with old | rfl
        · exact formed t old
        · exact formed'
    | _ => exact formed t member

/-- A thread with a status can always go on with it. -/
theorem thread_goes_on (reach : Reached ok (start loops) w) (thread : w.drivers[d]? = some t)
    (busy : t.pc ≠ .ready) :
    ∃ act, (Action.driver d act).settles = true ∧ (w.step (.driver d act)).isSome := by
  have member := List.mem_of_getElem? thread
  have formed := reached_formed reach t member
  have known {s : Status} {op : Op} (held : t.pc.held = some s) (pointer : s.op = some op) :
      ∃ o, w.owners[op.owner]? = some o := by
    have inside := ((reached_valid reach).statuses t member s held op pointer).2.2
    exact ⟨_, List.getElem?_eq_getElem inside⟩
  cases pc : t.pc with
  | ready => exact absurd pc busy
  | dequeued during s =>
      refine ⟨.account, rfl, ?_⟩
      cases during <;> simp [step, driver, thread, account, pc]
  | status s =>
      obtain ⟨release, may⟩ : ∃ release, t.mayProcess s release = true := by
        cases loop : t.loop with
        | returned r => exact absurd loop (formed.running (by simp [pc]) (by simp [pc]) r)
        | user => exact ⟨true, by simp [Driver.mayProcess, loop]⟩
        | main => exact ⟨s.outcome ≠ .aborted, by simp [Driver.mayProcess, loop]⟩
        | drain n => exact ⟨true, by simp [Driver.mayProcess, loop]⟩
      refine ⟨.load release, rfl, ?_⟩
      cases pointer : s.op with
      | none => simp [step, driver, thread, load, pc, may, pointer]
      | some op =>
          obtain ⟨o, owner⟩ := known (by rw [pc]; rfl) pointer
          simp [step, driver, thread, load, pc, may, pointer, owner]
  | unlocking s old release =>
      obtain ⟨op, pointer⟩ := Option.isSome_iff_exists.mp (formed.unlocking s old release pc)
      obtain ⟨o, owner⟩ := known (by rw [pc]; rfl) pointer
      exact ⟨.exchange false, rfl, by simp [step, driver, thread, exchange, pc, pointer, owner]⟩
  | waking s =>
      obtain ⟨op, pointer⟩ := Option.isSome_iff_exists.mp (formed.waking s pc)
      exact ⟨.wake, rfl, by simp [step, driver, thread, wake, pc, pointer]⟩
  | done s => exact ⟨.drop, rfl, by simp [step, driver, thread, dropStatus, pc]⟩

/-- Nothing is under way: every call has returned, nothing is in flight and no thread
holds a status. Packets are only left when every thread has returned. -/
structure Quiet (w : World) : Prop where
  calls : ∀ o ∈ w.owners, o.pc = .out ∨ o.pc = .dropped
  flights : w.inFlight = []
  threads : ∀ t ∈ w.drivers, t.pc = .ready
  queue : w.queue = [] ∨ ∀ t ∈ w.drivers, ∃ r, t.loop = .returned r
  permits : w.held = 0 ∧ w.undoing = 0

/-- A system that can do nothing of what it has begun is quiet. -/
theorem stuck_quiet (reach : Reached ok (start loops) w)
    (stuck : Stuck next (fun _ a => a.settles = true) w) : w.Quiet := by
  have never {a : Action} (settles : a.settles = true) : w.step a = none := by
    by_contra possible
    obtain ⟨v, h⟩ := Option.ne_none_iff_exists'.mp possible
    have next := settles_next reach h settles
    simp [stuck a settles] at next
  have threads : ∀ t ∈ w.drivers, t.pc = .ready := by
    intro t member
    by_contra busy
    obtain ⟨d, thread⟩ := List.getElem?_of_mem member
    obtain ⟨act, settles, some⟩ := thread_goes_on reach thread busy
    simp [never settles] at some
  constructor
  · intro o member
    by_contra inside
    obtain ⟨i, owner⟩ := List.getElem?_of_mem member
    obtain ⟨a, settles, some⟩ := o.goes_on i w.pending
      (fun h => inside (.inl h)) fun h => inside (.inr h)
    have none := never (a := .task i a) settles
    simp only [step, task, owner, Option.map_eq_none_iff] at none
    simp [none] at some
  · by_contra flying
    obtain ⟨op, rest, flights⟩ := List.exists_cons_of_ne_nil flying
    have none := never (a := .complete 0 (.failure 0 0 [])) rfl
    simp [step, complete, flights, op.admits_failure] at none
  · exact threads
  · by_contra left
    simp only [not_or, not_forall] at left
    obtain ⟨packets, t, member, running⟩ := left
    obtain ⟨p, rest, queue⟩ := List.exists_cons_of_ne_nil packets
    obtain ⟨d, thread⟩ := List.getElem?_of_mem member
    have ready := threads t member
    have takes (during : Bool) : t.mayDequeue during = false := by
      by_contra may
      have none := never (a := .driver d (.dequeue during)) rfl
      simp [step, driver, thread, dequeue, ready, queue, may] at none
    cases loop : t.loop with
    | returned r => exact running ⟨r, loop⟩
    | user => simpa [Driver.mayDequeue, loop] using takes false
    | main => simpa [Driver.mayDequeue, loop] using takes false
    | drain n =>
        cases n with
        | zero =>
            have none := never (a := .driver d .finish) rfl
            simp [step, driver, thread, finish, ready, loop] at none
        | succ n => simpa [Driver.mayDequeue, loop] using takes true
  · constructor
    · by_contra some
      obtain ⟨n, held⟩ := Nat.exists_eq_succ_of_ne_zero some
      have none := never (a := .release) rfl
      simp [step, release, held] at none
    · by_contra some
      obtain ⟨n, undoing⟩ := Nat.exists_eq_succ_of_ne_zero some
      have none := never (a := .undo) rfl
      simp [step, undo, undoing] at none

/-- A system that begins nothing new comes to rest: each run has at most as many steps as
the rank of its start, one of them ends in a quiet state, and so does every run after
which nothing more can be done. -/
theorem system_settles (reach : Reached ok (start loops) w) :
    (∀ as v, Run next (fun _ a => a.settles = true) w as v → as.length ≤ w.rank) ∧
      (∃ as v, Run next (fun _ a => a.settles = true) w as v ∧ v.Quiet) ∧
      ∀ as v, Run next (fun _ a => a.settles = true) w as v →
        (∀ a : Action, a.settles = true → v.next a = none) → v.Quiet := by
  have lowers : Lowers next (fun _ a => a.settles = true) (fun _ => true) rank :=
    fun w a v settles h => settles_lowers w a v settles (next_eq_some.mp h).1
  have reached {as : List Action} {v : World}
      (run : Run next (fun _ a => a.settles = true) w as v) : Reached anyStep (start loops) v :=
    Reaches.trans ⟨_, reach.choose_spec.anyStep⟩ ⟨as, run.anyStep⟩
  refine ⟨fun as v run => ?_, ?_, fun as v run stuck => stuck_quiet (reached run) stuck⟩
  · have bound := lowers.length_le run
    omega
  · obtain ⟨as, v, run, stuck⟩ := lowers.exists_stuck w
    exact ⟨as, v, run, stuck_quiet (reached run) stuck⟩

/-- A read is in flight: the system comes to rest within 18 steps. -/
theorem system_settles_read :
    ∃ w as v, Reached anyStep setup w ∧ w.inFlight.length = 1 ∧
      Run next (fun _ a => a.settles = true) w as v ∧ v.Quiet ∧ as.length ≤ 18 := by
  obtain ⟨w, reach, state⟩ := exec_state anyStep setup Schedule.pendingRead
    (fun w => (w.inFlight.length, w.rank)) (1, 18) (by decide)
  simp only [Prod.mk.injEq] at state
  obtain ⟨bound, ⟨as, v, run, quiet⟩, -⟩ := system_settles reach
  exact ⟨w, as, v, reach, state.1, run, quiet, state.2 ▸ bound as v run⟩

/-- Nothing is under way, and no thread is about to leave its loop. -/
def resting (w : World) : Bool :=
  w.owners.all (fun o => o.pc = .out || o.pc = .dropped) && w.inFlight.isEmpty &&
    w.queue.isEmpty && w.drivers.all (fun t => t.pc = .ready && t.loop ≠ .drain 0) &&
    w.held = 0 && w.undoing = 0

/-- A system at rest can do nothing of what it has begun. -/
theorem resting_stuck (rests : w.resting = true) (a : Action) (settles : a.settles = true) :
    w.next a = none := by
  simp only [resting, Bool.and_eq_true, List.all_eq_true, Bool.or_eq_true, decide_eq_true_eq,
    List.isEmpty_iff] at rests
  obtain ⟨⟨⟨⟨⟨calls, flights⟩, queue⟩, threads⟩, held⟩, undoing⟩ := rests
  by_contra possible
  obtain ⟨v, h⟩ := Option.ne_none_iff_exists'.mp possible
  cases next_stepped h with
  | task owner acts =>
      have lowers := acts.lowers settles
      rcases calls _ (List.mem_of_getElem? owner) with pc | pc <;> simp [pc, Pc.rank] at lowers
  | complete flight admits => simp [flights] at flight
  | driver thread driven =>
      obtain ⟨ready, loop⟩ := threads _ (List.mem_of_getElem? thread)
      cases driven with
      | dequeue pc packets may => simp [queue] at packets
      | finish pc ended => exact loop ended
      | _ => simp_all
  | undo failed => simp [undoing] at failed
  | release holds => simp [held] at holds
  | _ => cases settles

end World

end Iocp
