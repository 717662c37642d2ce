import Iocp.Port.Drain
import Iocp.Progress.Settled

/-!
# The end of the background thread

The closure of `setup` fails only because of a message that somebody posted under a
reserved key. Otherwise it returns once it was told to shut down: the system comes to
rest, and a thread that still waits for a packet would not be at rest.
-/

namespace Iocp

open Totals Transition

namespace World

section Failure

variable {w v : World} {as : List Action} {d : Nat} {t u : Driver} {act : DriverAct}

/-- A message was posted under a reserved key that is not the one of `shutdown`. -/
def Intrudes (as : List Action) : Prop :=
  ∃ key, .post key ∈ as ∧ reservedPorts ≤ key ∧ key ≠ shutdownPort

theorem Intrudes.snoc (intrudes : Intrudes as) (a : Action) : Intrudes (as ++ [a]) := by
  obtain ⟨key, member, reserved⟩ := intrudes
  exact ⟨key, List.mem_append_left _ member, reserved⟩

/-- A status under such a key comes from such a message. -/
def Blames (as : List Action) (s : Status) : Prop :=
  reservedPorts ≤ s.completionKey → s.completionKey ≠ shutdownPort → Intrudes as

/-- A closure that has failed has the error of `poll`, because of such a message. -/
def Excused (as : List Action) (t : Driver) : Prop :=
  ∀ e, t.loop = .returned (.error e) → e = reservedPortError ∧ Intrudes as

theorem excused_polled {s : Status} {pending : Int} (excused : Excused as t)
    (blames : Blames as s) : Excused as (t.polled s (s.poll pending).2) := by
  intro e failed
  rcases s.poll_cases pending with ⟨-, h⟩ | ⟨-, h⟩ | ⟨reserved, other, h⟩
  · rw [h] at failed
    exact excused e failed
  · rw [h] at failed
    cases loop : t.loop <;> simp [Driver.polled, loop] at failed
    exact excused e (loop.trans (congrArg _ failed))
  · rw [h] at failed
    refine ⟨?_, blames reserved other⟩
    cases loop : t.loop <;> simp [Driver.polled, loop] at failed <;> exact failed.symm

theorem excused_drained {s : Status} (excused : Excused as t) (blames : Blames as s) :
    Excused as (t.drained s s.pollDuringShutdown) := by
  intro e failed
  rcases s.pollDuringShutdown_cases with ⟨-, h⟩ | ⟨-, h⟩ | ⟨reserved, other, h⟩
  · rw [h] at failed
    exact excused e failed
  · rw [h] at failed
    exact excused e failed
  · rw [h] at failed
    refine ⟨?_, blames reserved other⟩
    cases loop : t.loop <;> simp [Driver.drained, loop] at failed <;> exact failed.symm

theorem excused_processed (excused : Excused as t) (s : Status) : Excused as (t.processed s) := by
  intro e failed
  cases loop : t.loop <;> simp [Driver.processed, loop] at failed
  exact excused e (loop.trans (congrArg _ failed))

theorem excused_unlocked (excused : Excused as t) (s : Status) (release : Bool) (u : UnlockStep) :
    Excused as (t.unlocked s release u) := by
  rcases t.unlocked_cases s release u with h | ⟨old, h⟩ | h
  · rw [h]
    exact excused_processed excused s
  · rw [h]
    exact excused
  · rw [h]
    exact excused

/-- Every step of a thread leaves it excused. -/
theorem driven_excused (excused : Excused as t)
    (blames : ∀ s, t.pc.held = some s → Blames as s) (driven : w.Driven d t act v) :
    ∃ u, v.drivers = w.drivers.set d u ∧ Excused as u := by
  cases driven with
  | dequeue pc queue may => exact ⟨_, rfl, excused⟩
  | poll pc => exact ⟨_, rfl, excused_polled excused (blames _ (by rw [pc]; rfl))⟩
  | pollDuringShutdown pc => exact ⟨_, rfl, excused_drained excused (blames _ (by rw [pc]; rfl))⟩
  | loadNull pc may null => exact ⟨_, rfl, excused_processed excused _⟩
  | load pc may pointer owner => exact ⟨_, rfl, excused_unlocked excused _ _ _⟩
  | exchange pc pointer owner => exact ⟨_, rfl, excused_unlocked excused _ _ _⟩
  | wake pc pointer => exact ⟨_, rfl, excused_processed excused _⟩
  | skip pc user => exact ⟨_, rfl, excused⟩
  | dropNull pc null | drop pc pointer => exact ⟨_, rfl, excused⟩
  | finish pc loop => exact ⟨_, rfl, by simp [Excused]⟩

/-- What is known of a run of the background thread. -/
theorem run_excused {ok : World → Action → Prop} (run : Run next ok setup as w) :
    (∀ t ∈ w.drivers, Excused as t) ∧ w.AllStatuses (Blames as) := by
  induction run with
  | nil => exact ⟨by simp [setup, start, Excused], start_statuses _ _⟩
  | @snoc as w a v before good h ih =>
      obtain ⟨excused, blames⟩ := ih
      have stepped := next_stepped h
      have valid := reached_valid ⟨as, before⟩
      have later {t : Driver} (excused : Excused as t) : Excused (as ++ [a]) t := fun e failed =>
        ⟨(excused e failed).1, (excused e failed).2.snoc a⟩
      have blame {s : Status} (blames : Blames as s) : Blames (as ++ [a]) s := fun reserved other =>
        (blames reserved other).snoc a
      constructor
      · intro u member
        cases stepped with
        | @driver d t act _ thread driven =>
            have here := List.mem_of_getElem? thread
            obtain ⟨u', drivers, excused'⟩ :=
              driven_excused (excused t here) (blames.2 t here) driven
            rcases List.mem_or_eq_of_mem_set (drivers ▸ member) with old | rfl
            · exact later (excused u old)
            · exact later excused'
        | _ => exact later (excused u member)
      · refine stepped_statuses
          ⟨fun p member => blame (blames.1 p member), fun t member s held =>
            blame (blames.2 t member s held)⟩ stepped ?_ ?_
        · intro op member status reserved
          exact absurd (valid.flights op member).1 (Nat.not_lt.mpr reserved)
        · rintro key rfl reserved other
          exact ⟨key, by simp, reserved, other⟩

/-- The closure of `setup` returns an error only after a message was posted under a
reserved key other than that of `shutdown`, and the error is the one of `poll`. -/
theorem closure_fails {ok : World → Action → Prop} (run : Run next ok setup as w)
    (member : t ∈ w.drivers) {e : IoError} (failed : t.loop = .returned (.error e)) :
    e = .other "got status for reserved completion port" ∧
      ∃ key, .post key ∈ as ∧ reservedPorts ≤ key ∧ key ≠ shutdownPort :=
  (run_excused run).1 t member e failed

/-- A message under a reserved key that is not the one of `shutdown` is polled. -/
def strangeMessage : List Action :=
  [.post reservedPorts, .driver 0 (.dequeue false), .driver 0 .account]

theorem closure_fails_strange :
    ∃ w t e, Run next anyStep setup strangeMessage w ∧ t ∈ w.drivers ∧
      t.loop = .returned (.error e) ∧ e = .other "got status for reserved completion port" ∧
      ∃ key, .post key ∈ strangeMessage ∧ reservedPorts ≤ key ∧ key ≠ shutdownPort := by
  obtain ⟨w, run, loops⟩ := exec_ended next anyStep setup strangeMessage
    (fun w => w.drivers.map Driver.loop) [.returned (.error reservedPortError)] (by decide)
  obtain ⟨t, drivers, failed⟩ := List.map_eq_singleton_iff.mp loops
  have member : t ∈ w.drivers := by simp [drivers]
  exact ⟨w, t, _, run, member, failed, closure_fails run member failed⟩

end Failure

section Join

variable {as : List Action} {w v : World} {a : Action} {t u : Driver}

/-- A shutdown message is on its way to the closure, or the closure took one. -/
def Told (w : World) (t : Driver) : Prop :=
  (∃ p ∈ w.queue, p.io = none) ∨ (∃ s, t.pc = .dequeued false s ∧ s.op = none) ∨
    0 < w.tally.shutdowns

theorem shutdowns_le (stepped : w.Stepped a v) : w.tally.shutdowns ≤ v.tally.shutdowns := by
  cases stepped with
  | driver thread driven =>
      cases driven with
      | poll pc =>
          rw [show _ = _ from w.tallyPoll_shutdowns _]
          exact Nat.le_add_right _ _
      | pollDuringShutdown pc => exact (w.tallyDrain_counts _).2.2.2.ge
      | _ => exact Nat.le_refl _
  | _ => exact Nat.le_refl _

/-- A step of somebody else takes no packet. -/
theorem Told.other (told : w.Told t) (stepped : w.Stepped a v)
    (other : ∀ d act, a ≠ .driver d act) : v.Told t := by
  rcases told with ⟨p, member, message⟩ | took | down
  · left
    cases stepped with
    | driver thread driven => exact absurd rfl (other _ _)
    | complete flight admits => exact ⟨p, List.mem_append_left _ member, message⟩
    | post => exact ⟨p, List.mem_append_left _ member, message⟩
    | _ => exact ⟨p, member, message⟩
  · exact .inr (.inl took)
  · exact .inr (.inr (Nat.lt_of_lt_of_le down (shutdowns_le stepped)))

/-- The closure takes the message, and notes it down. -/
theorem Told.driven {d : Nat} {act : DriverAct} (told : w.Told t) (placed : t.Placed)
    (covered : w.Covered t) (all : w.AllStatuses IsShutdown) (drivers : w.drivers = [t])
    (thread : w.drivers[d]? = some t) (driven : w.Driven d t act v) (after : v.drivers = [u]) :
    v.Told u := by
  have down (down : 0 < w.tally.shutdowns) : v.Told u :=
    .inr (.inr (Nat.lt_of_lt_of_le down (shutdowns_le (.driver thread driven))))
  have index : d = 0 := (single_thread drivers thread).1
  rcases told with ⟨p, member, message⟩ | ⟨s, pc, null⟩ | late
  · cases id driven with
    | @dequeue during q rest pc queue may =>
        rw [queue] at member
        rcases List.mem_cons.mp member with rfl | member
        · cases placed with
          | main own =>
              obtain rfl : during = false := by simpa [Driver.mayDequeue] using may
              rw [drivers, index] at after
              obtain rfl := List.singleton_injective after
              exact .inr (.inl ⟨p.status, rfl, by simp [Packet.status, message]⟩)
          | @drain n pc own counts =>
              have one : w.tally.shutdowns = 1 := covered.1
              exact down (by omega)
          | finished | failed => simp [Driver.mayDequeue] at may
        · exact .inl ⟨p, member, message⟩
    | _ => exact .inl ⟨p, member, message⟩
  · obtain rfl := driven_account driven pc
    cases driven with
    | @poll s' pc' =>
        obtain ⟨-, rfl⟩ := DriverPc.dequeued.inj (pc.symm.trans pc')
        have key := all.2 t (List.mem_of_getElem? thread) s (by rw [pc]; rfl) null
        have counts := w.tallyPoll_shutdowns s
        rw [if_pos key] at counts
        exact .inr (.inr (by simp only; omega))
    | pollDuringShutdown pc' => simp [pc] at pc'
  · exact down late

/-- Once `shutdown` was called, the message is on its way or was taken. -/
theorem run_told {ok : World → Action → Prop} (posts : ∀ w a, ok w a → a.postsShutdown = true)
    (run : Run next ok setup as w) (called : .post shutdownPort ∈ as) :
    ∃ t, w.drivers = [t] ∧ w.Told t := by
  induction run with
  | nil => cases called
  | @snoc as w a v before good h ih =>
      have reach : Reached ok setup w := ⟨as, before⟩
      obtain ⟨t, drivers, placed, covered⟩ := reached_covered posts reach
      obtain ⟨u, after, -⟩ := reached_covered posts (reach.snoc good h)
      have stepped := next_stepped h
      refine ⟨u, after, ?_⟩
      rcases List.mem_append.mp called with old | new
      · obtain ⟨t', single, told⟩ := ih old
        obtain rfl : t' = t := List.singleton_injective (single.symm.trans drivers)
        by_cases other : ∀ d act, a ≠ .driver d act
        · obtain rfl : u = t' := by
            have same := (other_same stepped other).1
            exact List.singleton_injective (after.symm.trans (same.trans drivers))
          exact told.other stepped other
        · cases stepped with
          | @driver d x act _ thread driven =>
              obtain ⟨-, rfl⟩ := single_thread drivers thread
              exact told.driven placed covered (reached_shutdown posts reach) drivers thread driven
                after
          | _ => simp at other
      · obtain rfl := List.mem_singleton.mp new
        cases stepped with
        | post => exact .inl ⟨_, List.mem_append_right _ List.mem_cons_self, rfl⟩

/-- When nothing more can be done, the closure of `setup` has returned without an error,
if `shutdown` was called and every permit that was live when the message was taken has
become a submission. -/
theorem join_returns (run : Run next (fun w a => a.postsShutdown ∧ w.permitsSubmit a) setup as w)
    (called : .post shutdownPort ∈ as)
    (stuck : ∀ a : Action, a.settles = true → w.next a = none) :
    ∃ t, w.drivers = [t] ∧ t.loop = .returned (.ok ()) ∧ w.inFlight = [] ∧ w.permits = 0 := by
  have reach : Reached (fun w a => a.postsShutdown ∧ w.permitsSubmit a) setup w := ⟨as, run⟩
  have quiet := stuck_quiet reach stuck
  obtain ⟨t, drivers, told⟩ := run_told (fun _ _ h => h.1) run called
  obtain ⟨t', drivers', placed, awaited⟩ := reached_awaited reach
  obtain rfl : t' = t := List.singleton_injective (drivers'.symm.trans drivers)
  obtain ⟨t'', drivers'', -, covered⟩ := reached_covered (fun _ _ h => h.1) reach
  obtain rfl : t'' = t' := List.singleton_injective (drivers''.symm.trans drivers)
  have member : t'' ∈ w.drivers := by simp [drivers]
  have ready := quiet.threads t'' member
  -- at rest, a thread that goes on has no packet and no permit to wait for
  have empty (running : ∀ r, t''.loop ≠ .returned r) :
      w.queue = [] ∧ w.uncounted t'' = 0 ∧ w.submitters = 0 := by
    have packets := quiet.no_packets ⟨t'', member, running⟩
    have few := w.submitters_le
    have permits := quiet.no_permits
    have none : w.uncounted t'' = 0 := by
      rw [uncounted, awaiting_single drivers, quiet.flights, packets, ready]
      rfl
    exact ⟨packets, none, by omega⟩
  cases placed with
  | main own =>
      obtain ⟨packets, -, -⟩ := empty (by simp)
      have zero : w.tally.shutdowns = 0 := covered.1
      rcases told with ⟨p, inside, -⟩ | ⟨s, took, -⟩ | down
      · simp [packets] at inside
      · exact absurd (ready.symm.trans took) (by simp)
      · omega
  | @drain n pc own counts =>
      obtain ⟨-, none, few⟩ := empty (by simp)
      have count : n ≤ w.uncounted _ + w.submitters := awaited.2
      obtain rfl : n = 0 := by omega
      obtain rfl : pc = .ready := ready
      have thread : w.drivers[0]? = some ⟨.drain 0, .ready⟩ := by rw [drivers]; rfl
      have possible : (w.step (.driver 0 .finish)).isSome := by simp [step, driver, thread, finish]
      obtain ⟨v, h⟩ := Option.isSome_iff_exists.mp possible
      have next := settles_next reach h rfl
      rw [stuck (.driver 0 .finish) rfl] at next
      cases next
  | finished => exact ⟨_, drivers, rfl, quiet.flights, quiet.no_permits.1⟩
  | failed ended =>
      obtain ⟨-, key, posted, -, other⟩ := (run_excused run).1 _ member _ rfl
      have shutdown := run.actions (p := fun a => a.postsShutdown = true) (fun _ _ h => h.1) _
        posted
      exact absurd (by simpa [Action.postsShutdown] using shutdown) other

/-- A poll has its permit when the port is shut down, submits its read, and the packet of
the read is drained. -/
def drainedSubmit : List Action :=
  shutDownSubmit ++ [.complete 0 (.success 4 [1, 2, 3, 4]), .driver 0 (.dequeue true),
    .driver 0 .account, .driver 0 (.load true), .driver 0 (.exchange false), .driver 0 .wake,
    .driver 0 .drop, .driver 0 .finish]

theorem join_returns_drained :
    ∃ w t, Run next (fun w a => a.postsShutdown ∧ w.permitsSubmit a) setup drainedSubmit w ∧
      w.tally.drained = 1 ∧ w.drivers = [t] ∧ t.loop = .returned (.ok ()) ∧ w.inFlight = [] ∧
      w.permits = 0 := by
  obtain ⟨w, run, state⟩ := exec_ended next (fun w a => a.postsShutdown ∧ w.permitsSubmit a) setup
    drainedSubmit (fun w => (w.resting, w.tally.drained)) (true, 1) (by decide)
  simp only [Prod.mk.injEq] at state
  obtain ⟨rests, drained⟩ := state
  have called : .post shutdownPort ∈ drainedSubmit := by simp [drainedSubmit, shutDownSubmit]
  obtain ⟨t, ended⟩ := join_returns run called (resting_stuck rests)
  exact ⟨w, t, run, drained, ended⟩

end Join

end World

end Iocp
