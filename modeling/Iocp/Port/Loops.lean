import Iocp.Model.Background
import Iocp.Port.Messages

/-!
# The two loops of the background thread

What one step of the closure of `setup` does to the number of packets it still
waits for. The first loop ends with the shutdown message and takes the counter
for that number, the second loop counts one packet down for each status it
has released.
-/

namespace Iocp

open Totals Transition

namespace DriverPc

/-- A status was returned and the loop has not counted it down. -/
def inHand : DriverPc → Nat
  | .status _ => 1
  | .unlocking _ _ _ => 1
  | .waking _ => 1
  | _ => 0

/-- A packet was dequeued and not yet dealt with. -/
def inLoop : DriverPc → Bool
  | .ready => false
  | .done _ => false
  | _ => true

end DriverPc

/-- A loop of `setup` only dequeues with its own kind of poll, the second one
only while it counts, and a closure that has returned dequeues nothing. -/
inductive Driver.Placed : Driver → Prop
  | main {pc} (own : ∀ s, pc ≠ .dequeued true s) : Placed ⟨.main, pc⟩
  | drain {n pc} (own : ∀ s, pc ≠ .dequeued false s) (counts : pc.inLoop = true → 0 < n) :
      Placed ⟨.drain n, pc⟩
  | finished : Placed ⟨.returned (.ok ()), .ready⟩
  | failed {e pc} (ended : pc.inLoop = false) : Placed ⟨.returned (.error e), pc⟩

namespace World

/-- The packets that were accepted and not yet counted down by the loop. -/
def uncounted (w : World) (t : Driver) : Nat := w.awaiting + t.pc.inHand

/-- What a step of the background thread does to its loop. -/
inductive Advance (w : World) (t : Driver) (v : World) (u : Driver) : Prop
  | main (before : t.loop = .main) (after : u.loop = .main)
      (shutdowns : v.tally.shutdowns = w.tally.shutdowns)
      (drained : v.tally.drained = w.tally.drained)
  | snapshot {s} (before : t.loop = .main) (after : u.loop = .drain (asUsize w.pending))
      (took : t.pc = .dequeued false s) (message : s.completionKey = shutdownPort)
      (packets : v.uncounted u = w.awaiting)
      (shutdowns : v.tally.shutdowns = w.tally.shutdowns + 1)
  | drain {n m} (before : t.loop = .drain n) (after : u.loop = .drain m)
      (packets : m + w.uncounted t = n + v.uncounted u)
      (shutdowns : v.tally.shutdowns = w.tally.shutdowns)
  | finish (before : t.loop = .drain 0) (after : u.loop = .returned (.ok ()))
      (packets : v.uncounted u = w.uncounted t)
      (shutdowns : v.tally.shutdowns = w.tally.shutdowns)
  | failed {e} (after : u.loop = .returned (.error e))

section Threads

variable {w v : World} {t u : Driver} {act : DriverAct} {pc : DriverPc} {n : Nat}

/-- The only thread makes up what threads hold. -/
theorem awaiting_single (drivers : w.drivers = [t]) :
    w.awaiting = w.inFlight.length + total Packet.unaccounted w.queue + t.pc.unaccounted := by
  simp [awaiting, drivers]

/-- A step of the only thread that leaves the queue to itself. -/
theorem uncounted_thread {m : Nat} (drivers : w.drivers = [t]) (after : v.drivers = [u])
    (flights : v.inFlight = w.inFlight) (queue : v.queue = w.queue)
    (kept : m + (t.pc.unaccounted + t.pc.inHand) = n + (u.pc.unaccounted + u.pc.inHand)) :
    m + w.uncounted t = n + v.uncounted u := by
  rw [uncounted, uncounted, awaiting_single drivers, awaiting_single after, flights, queue]
  omega

/-- An atomic operation of `unlock` keeps the status in hand or has processed it. -/
theorem unlocked_counted (t : Driver) (s : Status) (release : Bool) (r : UnlockStep) :
    (∃ pc, t.unlocked s release r = { t with pc := pc } ∧ pc.unaccounted = 0 ∧
      pc.inHand = 1 ∧ ∀ during s, pc ≠ .dequeued during s) ∨
      t.unlocked s release r = t.processed s := by
  rcases t.unlocked_cases s release r with processed | ⟨old, retry⟩ | waking
  · exact .inr processed
  · exact .inl ⟨_, retry, rfl, rfl, by simp⟩
  · exact .inl ⟨_, waking, rfl, rfl, by simp⟩

/-- No operation has a status under a reserved key. -/
theorem Valid.message {during : Bool} {s : Status} (valid : w.Valid) (member : t ∈ w.drivers)
    (dequeued : t.pc = .dequeued during s) (reserved : reservedPorts ≤ s.completionKey) :
    t.pc.unaccounted = 0 := by
  cases hop : s.op with
  | none => simp [dequeued, DriverPc.unaccounted, hop]
  | some op =>
      have key := valid.key member (by rw [dequeued, DriverPc.held]) hop
      omega

/-- A step of the first loop that goes on. -/
theorem main_goes_on {p : DriverPc} (own : ∀ s, p ≠ .dequeued true s)
    (shutdowns : v.tally.shutdowns = w.tally.shutdowns)
    (drained : v.tally.drained = w.tally.drained) (drivers : v.drivers = [⟨.main, p⟩]) :
    ∃ u, v.drivers = [u] ∧ u.Placed ∧ w.Advance ⟨.main, pc⟩ v u :=
  ⟨_, drivers, .main own, .main rfl rfl shutdowns drained⟩

/-- The first loop goes on after every atomic operation of `unlock`. -/
theorem main_unlocked {s : Status} {release : Bool} {r : UnlockStep}
    (shutdowns : v.tally.shutdowns = w.tally.shutdowns)
    (drained : v.tally.drained = w.tally.drained)
    (after : v.drivers = [(Driver.mk .main pc).unlocked s release r]) :
    ∃ u, v.drivers = [u] ∧ u.Placed ∧ w.Advance ⟨.main, pc⟩ v u := by
  rcases unlocked_counted ⟨.main, pc⟩ s release r with ⟨pc', same, -, -, own⟩ | processed
  · exact main_goes_on (own true) shutdowns drained (after.trans (congrArg ([·]) same))
  · exact main_goes_on (p := .done s) (by simp) shutdowns drained
      (after.trans (congrArg ([·]) processed))

/-- What the first loop makes of a dequeued status: it goes on with a status, ends
with the shutdown message and fails on every other reserved key. -/
theorem main_polled {s : Status} (valid : w.Valid)
    (drivers : w.drivers = [⟨.main, .dequeued false s⟩])
    (after : v.drivers = [(Driver.mk .main (.dequeued false s)).polled s (s.poll w.pending).2])
    (flights : v.inFlight = w.inFlight) (queue : v.queue = w.queue)
    (tally : v.tally = w.tallyPoll s) :
    ∃ u, v.drivers = [u] ∧ u.Placed ∧ w.Advance ⟨.main, .dequeued false s⟩ v u := by
  have shutdowns := w.tallyPoll_shutdowns s
  have drained := (w.tallyPoll_accepted s).2
  rw [← tally] at shutdowns drained
  rcases s.poll_cases w.pending with ⟨key, eq⟩ | ⟨down, eq⟩ | ⟨reserved, up, eq⟩
  · have up : s.completionKey ≠ shutdownPort := by
      have := reserved_shutdownPort
      omega
    rw [eq] at after
    rw [if_neg up] at shutdowns
    exact main_goes_on (by simp) shutdowns drained after
  · rw [eq] at after
    rw [if_pos down] at shutdowns
    have none : (DriverPc.dequeued false s).unaccounted = 0 := by
      have member : Driver.mk .main (.dequeued false s) ∈ w.drivers := by simp [drivers]
      exact valid.message member rfl (down ▸ reserved_shutdownPort)
    refine ⟨_, after, .drain (by simp) (by simp [DriverPc.inLoop]), ?_⟩
    refine .snapshot rfl rfl rfl down ?_ shutdowns
    rw [uncounted, awaiting_single after, awaiting_single drivers, flights, queue, none]
    rfl
  · rw [eq] at after
    exact ⟨_, after, .failed rfl, .failed rfl⟩

/-- The steps of the first loop. -/
theorem main_advance (valid : w.Valid) (drivers : w.drivers = [⟨.main, pc⟩])
    (own : ∀ s, pc ≠ .dequeued true s) (driven : w.Driven 0 ⟨.main, pc⟩ act v) :
    ∃ u, v.drivers = [u] ∧ u.Placed ∧ w.Advance ⟨.main, pc⟩ v u := by
  cases driven with
  | @dequeue during p rest ready queue may =>
      have own' : during = false := by simpa [Driver.mayDequeue] using may
      exact main_goes_on (p := .dequeued during p.status) (by simp [own']) rfl rfl
        (by rw [drivers]; rfl)
  | poll dequeued =>
      change pc = _ at dequeued
      subst dequeued
      exact main_polled valid drivers (by rw [drivers]; rfl) rfl rfl rfl
  | pollDuringShutdown dequeued => exact absurd dequeued (own _)
  | @loadNull s release status may null =>
      exact main_goes_on (p := .done s) (by simp) rfl rfl (by rw [drivers]; rfl)
  | load status may pointer owner | exchange unlocking pointer owner =>
      exact main_unlocked rfl rfl (by rw [drivers]; rfl)
  | @wake s op waking pointer =>
      exact main_goes_on (p := .done s) (by simp) rfl rfl (by rw [drivers]; rfl)
  | skip status user => cases user
  | @dropNull s done null =>
      exact main_goes_on (p := .ready) (by simp) rfl rfl (by rw [drivers]; rfl)
  | @drop s op done pointer =>
      exact main_goes_on (p := .ready) (by simp) rfl rfl (by rw [drivers]; rfl)
  | finish ready loop => cases loop

/-- A step of the second loop that goes on. -/
theorem drain_goes_on {m : Nat} {p : DriverPc} (drivers : w.drivers = [⟨.drain n, pc⟩])
    (own : ∀ s, p ≠ .dequeued false s) (counts : p.inLoop = true → 0 < m)
    (kept : m + (pc.unaccounted + pc.inHand) = n + (p.unaccounted + p.inHand))
    (flights : v.inFlight = w.inFlight) (queue : v.queue = w.queue)
    (shutdowns : v.tally.shutdowns = w.tally.shutdowns) (after : v.drivers = [⟨.drain m, p⟩]) :
    ∃ u, v.drivers = [u] ∧ u.Placed ∧ w.Advance ⟨.drain n, pc⟩ v u :=
  ⟨_, after, .drain own counts,
    .drain rfl rfl (uncounted_thread drivers after flights queue kept) shutdowns⟩

/-- The second loop counts the status it has released. -/
theorem drain_processed {s : Status} (drivers : w.drivers = [⟨.drain n, pc⟩])
    (counts : 0 < n) (inHand : pc.unaccounted + pc.inHand = 1)
    (flights : v.inFlight = w.inFlight) (queue : v.queue = w.queue)
    (shutdowns : v.tally.shutdowns = w.tally.shutdowns)
    (after : v.drivers = [(Driver.mk (.drain n) pc).processed s]) :
    ∃ u, v.drivers = [u] ∧ u.Placed ∧ w.Advance ⟨.drain n, pc⟩ v u := by
  refine drain_goes_on (m := n - 1) (p := .done s) drivers (by simp) (by simp [DriverPc.inLoop])
    ?_ flights queue shutdowns after
  rw [inHand]
  change n - 1 + 1 = n + 0
  omega

/-- An atomic operation of `unlock` in the second loop. -/
theorem drain_unlocked {s : Status} {release : Bool} {r : UnlockStep}
    (drivers : w.drivers = [⟨.drain n, pc⟩]) (counts : 0 < n)
    (inHand : pc.unaccounted + pc.inHand = 1) (flights : v.inFlight = w.inFlight)
    (queue : v.queue = w.queue) (shutdowns : v.tally.shutdowns = w.tally.shutdowns)
    (after : v.drivers = [(Driver.mk (.drain n) pc).unlocked s release r]) :
    ∃ u, v.drivers = [u] ∧ u.Placed ∧ w.Advance ⟨.drain n, pc⟩ v u := by
  rcases unlocked_counted ⟨.drain n, pc⟩ s release r with
    ⟨pc', same, unaccounted, inHand', own⟩ | processed
  · exact drain_goes_on drivers (own false) (fun _ => counts)
      (by rw [inHand, unaccounted, inHand']) flights queue shutdowns
      (after.trans (congrArg ([·]) same))
  · exact drain_processed drivers counts inHand flights queue shutdowns
      (after.trans (congrArg ([·]) processed))

/-- What the second loop makes of a dequeued status: it goes on with a status,
passes over a shutdown message and fails on every other reserved key. -/
theorem drain_drained {s : Status} (valid : w.Valid) (all : w.AllStatuses IsShutdown)
    (drivers : w.drivers = [⟨.drain n, .dequeued true s⟩]) (counts : 0 < n)
    (after : v.drivers =
      [(Driver.mk (.drain n) (.dequeued true s)).drained s s.pollDuringShutdown])
    (flights : v.inFlight = w.inFlight) (queue : v.queue = w.queue)
    (tally : v.tally = w.tallyDrain s) :
    ∃ u, v.drivers = [u] ∧ u.Placed ∧ w.Advance ⟨.drain n, .dequeued true s⟩ v u := by
  have shutdowns := (w.tallyDrain_counts s).2.2.2
  rw [← tally] at shutdowns
  have member : Driver.mk (.drain n) (.dequeued true s) ∈ w.drivers := by simp [drivers]
  rcases s.pollDuringShutdown_cases with ⟨key, eq⟩ | ⟨down, eq⟩ | ⟨reserved, up, eq⟩
  · have operation : s.op.isSome = true := by
      cases hop : s.op with
      | some op => rfl
      | none =>
          have down := all.2 _ member s rfl hop
          have := reserved_shutdownPort
          omega
    have one : (DriverPc.dequeued true s).unaccounted = 1 := by
      simp [DriverPc.unaccounted, operation]
    rw [eq] at after
    exact drain_goes_on drivers (by simp) (fun _ => counts) (by rw [one]; rfl) flights queue
      shutdowns after
  · have none : (DriverPc.dequeued true s).unaccounted = 0 :=
      valid.message member rfl (down ▸ reserved_shutdownPort)
    rw [eq] at after
    exact drain_goes_on drivers (by simp) (by simp [DriverPc.inLoop]) (by rw [none]; rfl) flights
      queue shutdowns after
  · rw [eq] at after
    exact ⟨_, after, .failed rfl, .failed rfl⟩

/-- The steps of the second loop. -/
theorem drain_advance (valid : w.Valid) (all : w.AllStatuses IsShutdown)
    (drivers : w.drivers = [⟨.drain n, pc⟩]) (own : ∀ s, pc ≠ .dequeued false s)
    (counts : pc.inLoop = true → 0 < n) (driven : w.Driven 0 ⟨.drain n, pc⟩ act v) :
    ∃ u, v.drivers = [u] ∧ u.Placed ∧ w.Advance ⟨.drain n, pc⟩ v u := by
  cases driven with
  | @dequeue during p rest ready queue may =>
      change pc = _ at ready
      subst ready
      obtain ⟨rfl, pos⟩ : during = true ∧ 0 < n := by simpa [Driver.mayDequeue] using may
      refine ⟨⟨.drain n, .dequeued true p.status⟩, by rw [drivers]; rfl,
        .drain (by simp) (fun _ => pos), .drain rfl rfl ?_ rfl⟩
      have moved : (DriverPc.dequeued true p.status).unaccounted = p.unaccounted := by
        simp [DriverPc.unaccounted, Packet.unaccounted, Packet.status]
      have before : w.uncounted ⟨.drain n, .ready⟩ = w.inFlight.length +
          (p.unaccounted + total Packet.unaccounted rest) := by
        rw [uncounted, awaiting_single drivers, queue, total_cons]
        rfl
      rw [before, uncounted, awaiting, drivers]
      change _ = n + (w.inFlight.length + total Packet.unaccounted rest +
        ((DriverPc.dequeued true p.status).unaccounted + 0) + 0)
      rw [moved]
      omega
  | poll dequeued => exact absurd dequeued (own _)
  | pollDuringShutdown dequeued =>
      change pc = _ at dequeued
      subst dequeued
      exact drain_drained valid all drivers (counts rfl) (by rw [drivers]; rfl) rfl rfl rfl
  | loadNull status may null =>
      change pc = _ at status
      subst status
      exact drain_processed drivers (counts rfl) rfl rfl rfl rfl (by rw [drivers]; rfl)
  | @load s release op o status may pointer owner =>
      change pc = _ at status
      subst status
      exact drain_unlocked drivers (counts rfl) rfl rfl rfl rfl (by rw [drivers]; rfl)
  | @exchange s old release spurious op o unlocking pointer owner =>
      change pc = _ at unlocking
      subst unlocking
      exact drain_unlocked drivers (counts rfl) rfl rfl rfl rfl (by rw [drivers]; rfl)
  | wake waking pointer =>
      change pc = _ at waking
      subst waking
      exact drain_processed drivers (counts rfl) rfl rfl rfl rfl (by rw [drivers]; rfl)
  | skip status user => cases user
  | dropNull done null =>
      change pc = _ at done
      subst done
      exact drain_goes_on (p := .ready) drivers (by simp) (by simp [DriverPc.inLoop]) rfl rfl rfl
        rfl (by rw [drivers]; rfl)
  | drop done pointer =>
      change pc = _ at done
      subst done
      exact drain_goes_on (p := .ready) drivers (by simp) (by simp [DriverPc.inLoop]) rfl rfl rfl
        rfl (by rw [drivers]; rfl)
  | finish ready loop =>
      change pc = _ at ready
      subst ready
      cases loop
      have after : w.drivers.set 0 ⟨.returned (.ok ()), .ready⟩ =
          [⟨.returned (.ok ()), .ready⟩] := by
        rw [drivers]
        rfl
      refine ⟨_, after, .finished, .finish rfl rfl ?_ rfl⟩
      have kept := uncounted_thread (m := 0) (n := 0) (v := { w with
        drivers := w.drivers.set 0 ⟨.returned (.ok ()), .ready⟩ }) drivers after rfl rfl rfl
      exact (Nat.add_left_cancel kept).symm

/-- A closure that has returned takes no step but to drop its last status. -/
theorem failed_advance {e : IoError} (drivers : w.drivers = [⟨.returned (.error e), pc⟩])
    (ended : pc.inLoop = false) (driven : w.Driven 0 ⟨.returned (.error e), pc⟩ act v) :
    ∃ u, v.drivers = [u] ∧ u.Placed ∧ w.Advance ⟨.returned (.error e), pc⟩ v u := by
  have after (pc' : DriverPc) : w.drivers.set 0 ⟨.returned (.error e), pc'⟩ =
      [⟨.returned (.error e), pc'⟩] := by
    rw [drivers]
    rfl
  cases driven with
  | dequeue ready queue may => cases may
  | dropNull done null => exact ⟨_, after .ready, .failed rfl, .failed rfl⟩
  | drop done pointer => exact ⟨_, after .ready, .failed rfl, .failed rfl⟩
  | skip status user => cases user
  | finish ready loop => cases loop
  | _ => simp_all [DriverPc.inLoop]

/-- A closure that has returned without an error takes no step. -/
theorem finished_stuck {d : Nat} (driven : w.Driven d ⟨.returned (.ok ()), .ready⟩ act v) :
    False := by
  cases driven with
  | dequeue ready queue may => cases may
  | finish ready loop => cases loop
  | _ => simp_all

/-- Only the account of a dequeued status follows its dequeueing. -/
theorem driven_account {d : Nat} {during : Bool} {s : Status} (driven : w.Driven d t act v)
    (pc : t.pc = .dequeued during s) : act = .account := by
  cases driven <;> simp_all

/-- Every step of the background thread is a step of its loops. -/
theorem driven_advance {d : Nat} (valid : w.Valid) (all : w.AllStatuses IsShutdown)
    (drivers : w.drivers = [t]) (placed : t.Placed) (thread : w.drivers[d]? = some u)
    (driven : w.Driven d u act v) :
    ∃ u, v.drivers = [u] ∧ u.Placed ∧ w.Advance t v u := by
  obtain ⟨rfl, rfl⟩ := single_thread drivers thread
  cases placed with
  | main own => exact main_advance valid drivers own driven
  | drain own counts => exact drain_advance valid all drivers own counts driven
  | failed ended => exact failed_advance drivers ended driven
  | finished => exact absurd driven finished_stuck

end Threads

end World

end Iocp
