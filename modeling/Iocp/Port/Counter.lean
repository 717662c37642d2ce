import Iocp.Link.Lift
import Iocp.Model.Schedule

/-!
# The pending counter

Every `+1` of the counter belongs to a live permit, to a call of `permit` that
must take it back, or to an accepted operation whose packet `poll` has not
discounted. The shutdown messages that `poll` consumes add `isize::MIN`, and
posted messages that it takes for completions subtract one each.
-/

namespace Iocp

open Totals Transition

/-- A permit is dropped or turned into a submission by the step that takes its
`+1` back or hands it over. -/
theorem Owner.Acts.charge {i : Nat} {o o' : Owner} {pending : Int} {a : TaskAct} {e : Effect}
    (acts : o.Acts i pending a o' e) :
    (o'.pc.permits : Int) + o'.pc.failing + e.submit.toList.length =
      o.pc.permits + o.pc.failing + e.add := by
  cases acts <;> simp_all [Pc.permits, Pc.failing]

/-- An operation whose packet a thread has dequeued and not yet accounted for. -/
def DriverPc.unaccounted : DriverPc → Nat
  | .dequeued _ s => if s.op.isSome then 1 else 0
  | _ => 0

/-- An operation whose packet is in the queue. -/
def Packet.unaccounted (p : Packet) : Nat := if p.io.isSome then 1 else 0

namespace World

/-- The accepted operations whose packet no poll has returned: in flight, in
the queue, or dequeued by a thread that is still inside its poll. -/
def awaiting (w : World) : Nat :=
  w.inFlight.length + total Packet.unaccounted w.queue +
    total (fun t => t.pc.unaccounted) w.drivers

/-- What the pending counter would hold without wrapping around. -/
def ledger (w : World) : Int :=
  w.tally.accepted - w.tally.discounted + w.permits + w.failing - w.tally.posts +
    w.tally.shutdowns * isizeMin

/-- The counter agrees with the history of the port, and the history with
where the packets are. -/
structure Balanced (w : World) : Prop where
  counter : w.pending = isize w.ledger
  packets : w.tally.accepted = w.tally.discounted + w.tally.drained + w.awaiting

section Steps

variable {w v : World} {d i : Nat} {t : Driver} {act : DriverAct}

/-- A thread moves no owner. -/
theorem driven_total (f : Pc → Nat) (driven : w.Driven d t act v) :
    total (fun o => f o.pc) v.owners = total (fun o => f o.pc) w.owners := by
  cases driven with
  | exchange pc pointer owner =>
      have after := total_set (fun o : Owner => f o.pc) owner
      have before := total_eraseIdx (fun o : Owner => f o.pc) owner
      exact (after _).trans before.symm
  | wake pc pointer =>
      exact total_modify (fun o : Owner => f o.pc)
        (fun o => { o with header := o.header.modify Header.wake }) (fun _ => rfl) _ _
  | drop pc pointer =>
      exact total_modify (fun o : Owner => f o.pc)
        (fun o => { o with header := o.header.drop }) (fun _ => rfl) _ _
  | _ => rfl

/-- A step of one owner replaces its part of a total. -/
theorem afterTask_total (f : Pc → Nat) {i : Nat} {o : Owner} (owner : w.owners[i]? = some o)
    (o' : Owner) (e : Effect) :
    total (fun o => f o.pc) (w.afterTask i o' e).owners + f o.pc =
      total (fun o => f o.pc) w.owners + f o'.pc := by
  have before := total_eraseIdx (fun o : Owner => f o.pc) owner
  have after := total_set (fun o : Owner => f o.pc) owner o'
  simp only [afterTask, before, after]
  omega

/-- The end of an operation keeps every total. -/
theorem afterComplete_total (w : World) (f : Pc → Nat) (k : Nat) (op : Op) (status : Final) :
    total (fun o => f o.pc) (w.afterComplete k op status).owners =
      total (fun o => f o.pc) w.owners :=
  total_modify (fun o : Owner => f o.pc) (·.complete op status) (fun _ => rfl) _ _

/-- A new owner adds nothing to a total. -/
theorem create_total (w : World) (f : Pc → Nat) (zero : f .out = 0) (kind : Kind) (key size : Nat) :
    total (fun o => f o.pc) (w.owners ++ [Owner.new kind key size]) =
      total (fun o => f o.pc) w.owners := by
  rw [total_append, total_cons, total_nil]
  simp [Owner.new, zero]

theorem driven_held (driven : w.Driven d t act v) : v.held = w.held ∧ v.undoing = w.undoing := by
  cases driven <;> exact ⟨rfl, rfl⟩

/-- What `poll` adds to the counter is what it notes down. -/
theorem tallyPoll_add (w : World) (s : Status) :
    -((w.tallyPoll s).discounted : Int) - (w.tallyPoll s).posts +
        (w.tallyPoll s).shutdowns * isizeMin =
      -w.tally.discounted - w.tally.posts + w.tally.shutdowns * isizeMin +
        (s.poll w.pending).1 := by
  simp only [tallyPoll, Status.poll, Status.ordinary]
  by_cases key : s.completionKey < reservedPorts
  · have free : ¬ reservedPorts ≤ s.completionKey := by omega
    cases s.op <;> simp [key, free] <;> omega
  · have reserved : reservedPorts ≤ s.completionKey := by omega
    by_cases down : s.completionKey = shutdownPort
    · rw [down] at key reserved
      simp [down, key, reserved, isizeMin]
      omega
    · simp [key, reserved, down]

theorem tallyPoll_accepted (w : World) (s : Status) :
    (w.tallyPoll s).accepted = w.tally.accepted ∧ (w.tallyPoll s).drained = w.tally.drained := by
  simp only [tallyPoll]
  split
  · split <;> exact ⟨rfl, rfl⟩
  · split <;> exact ⟨rfl, rfl⟩

/-- A step that touches no program point of an owner and leaves the history alone. -/
theorem counter_congr (counter : w.pending = isize w.ledger) (pending : v.pending = w.pending)
    (permits : v.permits = w.permits) (failing : v.failing = w.failing)
    (accepted : v.tally.accepted = w.tally.accepted)
    (discounted : v.tally.discounted = w.tally.discounted)
    (posts : v.tally.posts = w.tally.posts) (shutdowns : v.tally.shutdowns = w.tally.shutdowns) :
    v.pending = isize v.ledger := by
  rw [pending, counter, ledger, ledger, permits, failing, accepted, discounted, posts, shutdowns]

/-- A step that adds the same to the counter and to the ledger. -/
theorem added_counter {add : Int} (counter : w.pending = isize w.ledger)
    (pending : v.pending = isize (w.pending + add)) (after : v.ledger = w.ledger + add) :
    v.pending = isize v.ledger := by
  calc
    v.pending = isize (w.pending + add) := pending
    _ = isize (isize w.ledger + add) := by rw [← counter]
    _ = isize (w.ledger + add) := isize_isize_add _ _
    _ = isize v.ledger := by rw [after]

theorem task_counter {i : Nat} {o o' : Owner} {act : TaskAct} {e : Effect}
    (counter : w.pending = isize w.ledger) (owner : w.owners[i]? = some o)
    (acts : o.Acts i w.pending act o' e) :
    (w.afterTask i o' e).pending = isize (w.afterTask i o' e).ledger := by
  have charge := acts.charge
  have permits := afterTask_total Pc.permits owner o' e
  have failing := afterTask_total Pc.failing owner o' e
  have after : (w.afterTask i o' e).ledger = w.ledger + e.add := by
    simp only [ledger, World.permits, World.failing, afterTask] at permits failing ⊢
    generalize (w.tally.shutdowns : Int) * isizeMin = wraps
    omega
  exact added_counter counter rfl after

theorem poll_counter {s : Status} (counter : w.pending = isize w.ledger)
    (pending : v.pending = isize (w.pending + (s.poll w.pending).1))
    (tally : v.tally = w.tallyPoll s) (permits : v.permits = w.permits)
    (failing : v.failing = w.failing) : v.pending = isize v.ledger := by
  have add := w.tallyPoll_add s
  have accepted := (w.tallyPoll_accepted s).1
  have after : v.ledger = w.ledger + (s.poll w.pending).1 := by
    rw [ledger, ledger, permits, failing, tally, accepted]
    generalize ((w.tallyPoll s).shutdowns : Int) * isizeMin = wraps' at add ⊢
    generalize (w.tally.shutdowns : Int) * isizeMin = wraps at add ⊢
    generalize (s.poll w.pending).1 = added at add ⊢
    omega
  exact added_counter counter pending after

theorem tallyDrain_counts (w : World) (s : Status) :
    (w.tallyDrain s).accepted = w.tally.accepted ∧
      (w.tallyDrain s).discounted = w.tally.discounted ∧
      (w.tallyDrain s).posts = w.tally.posts ∧
      (w.tallyDrain s).shutdowns = w.tally.shutdowns := by
  simp only [tallyDrain]
  split <;> exact ⟨rfl, rfl, rfl, rfl⟩

/-- Every step changes the counter by what it changes in the ledger. -/
theorem stepped_counter {a : Action} (counter : w.pending = isize w.ledger)
    (stepped : w.Stepped a v) : v.pending = isize v.ledger := by
  cases stepped with
  | task owner acts => exact task_counter counter owner acts
  | @complete k op status flight admits =>
      have permits := congrArg (· + w.held) (w.afterComplete_total Pc.permits k op status)
      have failing := congrArg (· + w.undoing) (w.afterComplete_total Pc.failing k op status)
      exact counter_congr counter rfl permits failing rfl rfl rfl rfl
  | @driver d t act _ thread driven =>
      have held := driven_held driven
      have permits : v.permits = w.permits := by
        rw [World.permits, World.permits, driven_total Pc.permits driven, held.1]
      have failing : v.failing = w.failing := by
        rw [World.failing, World.failing, driven_total Pc.failing driven, held.2]
      cases driven with
      | poll pc => exact poll_counter counter rfl rfl permits failing
      | @pollDuringShutdown s pc =>
          obtain ⟨accepted, discounted, posts, shutdowns⟩ := w.tallyDrain_counts s
          exact counter_congr counter rfl permits failing accepted discounted posts shutdowns
      | _ => exact counter_congr counter rfl permits failing rfl rfl rfl rfl
  | post => exact counter
  | permit granted =>
      refine added_counter counter rfl ?_
      simp only [ledger, permits, failing]
      generalize (w.tally.shutdowns : Int) * isizeMin = wraps
      omega
  | refusePermit refused =>
      refine added_counter counter rfl ?_
      simp only [ledger, permits, failing]
      generalize (w.tally.shutdowns : Int) * isizeMin = wraps
      omega
  | undo failed =>
      refine added_counter counter rfl ?_
      simp only [ledger, permits, failing, failed]
      generalize (w.tally.shutdowns : Int) * isizeMin = wraps
      omega
  | release holds =>
      refine added_counter counter rfl ?_
      simp only [ledger, permits, failing, holds]
      generalize (w.tally.shutdowns : Int) * isizeMin = wraps
      omega
  | @create kind options key =>
      have created (f : Pc → Nat) (zero : f .out = 0) :=
        w.create_total f zero kind options.key options.maxBufferSize
      have permits := congrArg (· + w.held) (created Pc.permits rfl)
      have failing := congrArg (· + w.undoing) (created Pc.failing rfl)
      exact counter_congr counter rfl permits failing rfl rfl rfl rfl

/-- A step of a thread that notes down the packets it accounts for. -/
theorem thread_packets {u : Driver} (thread : w.drivers[d]? = some t)
    (packets : w.tally.accepted = w.tally.discounted + w.tally.drained + w.awaiting)
    (flights : v.inFlight = w.inFlight) (queue : v.queue = w.queue)
    (drivers : v.drivers = w.drivers.set d u) (accepted : v.tally.accepted = w.tally.accepted)
    (noted : v.tally.discounted + v.tally.drained + u.pc.unaccounted =
      w.tally.discounted + w.tally.drained + t.pc.unaccounted) :
    v.tally.accepted = v.tally.discounted + v.tally.drained + v.awaiting := by
  have before := total_eraseIdx (fun t : Driver => t.pc.unaccounted) thread
  have after := total_set (fun t : Driver => t.pc.unaccounted) thread u
  rw [awaiting] at packets ⊢
  rw [flights, queue, drivers, after, accepted]
  omega

/-- A status that a poll has returned is accounted for. -/
theorem polled_unaccounted (t : Driver) (s : Status) (r : CompletionPoll) :
    (t.polled s r).pc.unaccounted = 0 := by
  cases r <;> rfl

theorem drained_unaccounted (t : Driver) (s : Status) (r : DrainPoll) :
    (t.drained s r).pc.unaccounted = 0 := by
  cases r <;> rfl

theorem unlocked_unaccounted (t : Driver) (s : Status) (release : Bool) (u : UnlockStep) :
    (t.unlocked s release u).pc.unaccounted = 0 := by
  rcases t.unlocked_cases s release u with h | ⟨old, h⟩ | h
  all_goals
    rw [h]
    rfl

/-- `poll` discounts the packet of every operation it returns. -/
theorem tallyPoll_discounted (w : World) {s : Status}
    (ordinary : s.op.isSome → s.completionKey < reservedPorts) :
    (w.tallyPoll s).discounted = w.tally.discounted + if s.op.isSome then 1 else 0 := by
  simp only [tallyPoll, Status.ordinary]
  cases hop : s.op with
  | none =>
      simp only [Option.isSome_none]
      split
      · simp
      · split <;> rfl
  | some op =>
      have key := ordinary (by simp [hop])
      simp [key]

theorem tallyDrain_drained (w : World) {s : Status}
    (ordinary : s.op.isSome → s.completionKey < reservedPorts) :
    (w.tallyDrain s).drained = w.tally.drained + if s.op.isSome then 1 else 0 := by
  simp only [tallyDrain, Status.ordinary]
  cases hop : s.op with
  | none => simp
  | some op =>
      have key := ordinary (by simp [hop])
      simp [key]

theorem driven_packets (valid : w.Valid)
    (packets : w.tally.accepted = w.tally.discounted + w.tally.drained + w.awaiting)
    (thread : w.drivers[d]? = some t) (driven : w.Driven d t act v) :
    v.tally.accepted = v.tally.discounted + v.tally.drained + v.awaiting := by
  have member : t ∈ w.drivers := List.mem_of_getElem? thread
  have ordinary {s : Status} (held : t.pc.held = some s) (pointer : s.op.isSome) :
      s.completionKey < reservedPorts := by
    obtain ⟨op, hop⟩ := Option.isSome_iff_exists.mp pointer
    exact valid.key member held hop
  cases driven with
  | @dequeue during p rest pc queue may =>
      have before := total_eraseIdx (fun t : Driver => t.pc.unaccounted) thread
      have after := total_set (fun t : Driver => t.pc.unaccounted) thread
        { t with pc := .dequeued during p.status }
      have ready : t.pc.unaccounted = 0 := by
        rw [pc]
        rfl
      have moved : (DriverPc.dequeued during p.status).unaccounted = p.unaccounted := by
        simp [DriverPc.unaccounted, Packet.unaccounted, Packet.status]
      simp only [moved] at after
      simp only [awaiting, queue, total_cons] at packets ⊢
      omega
  | @poll s pc =>
      have accepted := w.tallyPoll_accepted s
      have discounted := w.tallyPoll_discounted (ordinary (by rw [pc]; rfl))
      refine thread_packets thread packets rfl rfl rfl accepted.1 ?_
      rw [polled_unaccounted, pc, DriverPc.unaccounted]
      simp only [accepted.2, discounted]
      omega
  | @pollDuringShutdown s pc =>
      have counts := w.tallyDrain_counts s
      have drained := w.tallyDrain_drained (ordinary (by rw [pc]; rfl))
      refine thread_packets thread packets rfl rfl rfl counts.1 ?_
      rw [drained_unaccounted, pc, DriverPc.unaccounted]
      simp only [counts.2.1, drained]
      omega
  | loadNull pc may null => exact thread_packets thread packets rfl rfl rfl rfl (by rw [pc]; rfl)
  | load pc may pointer owner =>
      exact thread_packets thread packets rfl rfl rfl rfl (by rw [pc, unlocked_unaccounted]; rfl)
  | exchange pc pointer owner =>
      exact thread_packets thread packets rfl rfl rfl rfl (by rw [pc, unlocked_unaccounted]; rfl)
  | wake pc pointer => exact thread_packets thread packets rfl rfl rfl rfl (by rw [pc]; rfl)
  | @skip s pc user =>
      exact thread_packets (u := { t with pc := .done s }) thread packets rfl rfl rfl rfl
        (by rw [pc]; rfl)
  | dropNull pc null =>
      exact thread_packets (u := { t with pc := .ready }) thread packets rfl rfl rfl rfl
        (by rw [pc]; rfl)
  | drop pc pointer =>
      exact thread_packets (u := { t with pc := .ready }) thread packets rfl rfl rfl rfl
        (by rw [pc]; rfl)
  | finish pc loop =>
      exact thread_packets (u := { t with loop := .returned (.ok ()) }) thread packets rfl rfl rfl
        rfl rfl

/-- Every step keeps track of where the packets are. -/
theorem stepped_packets {a : Action} (valid : w.Valid)
    (packets : w.tally.accepted = w.tally.discounted + w.tally.drained + w.awaiting)
    (stepped : w.Stepped a v) :
    v.tally.accepted = v.tally.discounted + v.tally.drained + v.awaiting := by
  cases stepped with
  | @task i o act o' e owner acts =>
      simp only [awaiting, afterTask, List.length_append] at packets ⊢
      omega
  | @complete k op status flight admits =>
      obtain ⟨hlt, -⟩ := List.getElem?_eq_some_iff.mp flight
      have erased := List.length_eraseIdx_of_lt hlt
      have moved : Packet.unaccounted ⟨op.key, some (op, status)⟩ = 1 := rfl
      simp only [awaiting, afterComplete, total_append, total_cons, total_nil, moved] at packets ⊢
      omega
  | driver thread driven => exact driven_packets valid packets thread driven
  | @post key =>
      have message : Packet.unaccounted ⟨key, none⟩ = 0 := rfl
      simp only [awaiting, post, total_append, total_cons, total_nil, message] at packets ⊢
      omega
  | _ => exact packets

end Steps

/-- The counter of every reachable system is balanced. -/
theorem reached_balanced {ok : World → Action → Prop} {loops : List Loop} {w : World}
    (reach : Reached ok (start loops) w) : w.Balanced := by
  obtain ⟨as, run⟩ := reach
  induction run with
  | nil =>
      constructor
      · simp [start, ledger, permits, failing, isize]
      · have none : total (fun t => t.pc.unaccounted) (start loops).drivers = 0 := by
          apply total_eq_zero
          intro t member
          simp only [start, List.mem_map] at member
          obtain ⟨loop, -, rfl⟩ := member
          rfl
        rw [awaiting, none]
        rfl
  | @snoc as w a v run good h ih =>
      have stepped := next_stepped h
      exact ⟨stepped_counter ih.counter stepped,
        stepped_packets (reached_valid ⟨as, run⟩) ih.packets stepped⟩

/-- The pending counter of a reachable system is an `isize`. -/
theorem reached_isize {ok : World → Action → Prop} {loops : List Loop} {w : World}
    (reach : Reached ok (start loops) w) : isize w.pending = w.pending := by
  have counter := (reached_balanced reach).counter
  calc
    isize w.pending = isize (isize w.ledger + 0) := by rw [← counter, add_zero]
    _ = isize (w.ledger + 0) := isize_isize_add _ _
    _ = w.pending := by rw [add_zero, counter]

end World

end Iocp
