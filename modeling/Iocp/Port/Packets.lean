import Iocp.Link.View

/-!
# The order in which packets are served

The queue hands out packets in the order of their completions and messages, and a thread
holds one status at a time, from the packet it takes until it drops the status. So no
packet is lost, served twice or overtaken.
-/

namespace Iocp

open Transition

/-- The statuses of one thread among those of all threads. -/
def byThread (d : Nat) (es : List (Nat × Status)) : List Status :=
  (es.filter fun e => e.1 = d).map Prod.snd

@[simp] theorem byThread_nil (d : Nat) : byThread d [] = [] := rfl

theorem byThread_append (d : Nat) (es fs : List (Nat × Status)) :
    byThread d (es ++ fs) = byThread d es ++ byThread d fs := by
  rw [byThread, List.filter_append, List.map_append]
  rfl

theorem byThread_own (d : Nat) (s : Status) : byThread d [(d, s)] = [s] := by simp [byThread]

theorem byThread_other {d e : Nat} (apart : e ≠ d) (s : Status) : byThread e [(d, s)] = [] := by
  simp [byThread, apart.symm]

namespace World

/-- The status of the packet that a step puts into the queue. -/
def arrived (w : World) : Action → List Status
  | .complete k status =>
      (w.inFlight[k]?.map fun op => Packet.status ⟨op.key, some (op, status)⟩).toList
  | .post key => [Packet.status ⟨key, none⟩]
  | _ => []

/-- The status of the packet that a step takes out of the queue, with the thread. -/
def taken (w : World) : Action → List (Nat × Status)
  | .driver d (.dequeue _) => (w.queue.head?.map fun p => (d, p.status)).toList
  | _ => []

/-- The status that a thread holds. -/
def hand (w : World) (d : Nat) : List Status := (w.drivers[d]?.bind fun t => t.pc.held).toList

/-- The status that a step drops, with the thread. -/
def served (w : World) : Action → List (Nat × Status)
  | .driver d .drop => (w.hand d).map fun s => (d, s)
  | _ => []

variable {ok : World → Action → Prop} {w v : World} {a : Action}
  {d e : Nat} {t u : Driver} {act : DriverAct}

theorem hand_thread (thread : w.drivers[d]? = some t) : w.hand d = t.pc.held.toList := by
  rw [hand, thread]
  rfl

theorem hand_set (thread : w.drivers[d]? = some t) (drivers : v.drivers = w.drivers.set d u) :
    v.hand d = u.pc.held.toList := by
  obtain ⟨inside, -⟩ := List.getElem?_eq_some_iff.mp thread
  exact hand_thread (by rw [drivers, List.getElem?_set_self inside])

theorem hand_set_ne (apart : e ≠ d) (drivers : v.drivers = w.drivers.set d u) :
    v.hand e = w.hand e := by
  rw [hand, hand, drivers, List.getElem?_set_ne apart.symm]

/-- A step of a thread takes a packet into its empty hand, drops the status in it, or
leaves it as it is. -/
theorem driven_hand (thread : w.drivers[d]? = some t) (driven : w.Driven d t act v) :
    w.hand e ++ byThread e (w.taken (.driver d act)) =
      byThread e (w.served (.driver d act)) ++ v.hand e := by
  have others {u : Driver} (apart : e ≠ d) (drivers : v.drivers = w.drivers.set d u) :
      v.hand e = w.hand e := hand_set_ne apart drivers
  have kept {u : Driver} (drivers : v.drivers = w.drivers.set d u)
      (held : u.pc.held = t.pc.held) : w.hand e = v.hand e := by
    by_cases own : e = d
    · rw [own, hand_thread thread, hand_set thread drivers, held]
    · exact (others own drivers).symm
  cases driven with
  | @dequeue during p rest pc queue may =>
      have taken : w.taken (.driver d (.dequeue during)) = [(d, p.status)] := by
        simp [World.taken, queue]
      rw [taken]
      by_cases own : e = d
      · rw [own, byThread_own, hand_thread thread, pc, hand_set thread rfl]
        rfl
      · rw [byThread_other own, others own rfl, List.append_nil]
        rfl
  | @dropNull s pc null | @drop s op pc pointer =>
      have served : w.served (.driver d .drop) = [(d, s)] := by
        simp [World.served, hand_thread thread, pc, DriverPc.held]
      rw [served]
      by_cases own : e = d
      · rw [own, byThread_own, hand_thread thread, pc, hand_set thread rfl]
        rfl
      · rw [byThread_other own, others own rfl]
        exact List.append_nil _
  | @poll s pc =>
      exact (List.append_nil _).trans (kept rfl (by rw [t.polled_held, pc]; rfl))
  | @pollDuringShutdown s pc =>
      exact (List.append_nil _).trans (kept rfl (by rw [t.drained_held, pc]; rfl))
  | @loadNull s release pc may null =>
      exact (List.append_nil _).trans (kept rfl (by rw [t.processed_held, pc]; rfl))
  | @load s release op o pc may pointer owner =>
      exact (List.append_nil _).trans (kept rfl (by rw [t.unlocked_held, pc]; rfl))
  | @exchange s old release spurious op o pc pointer owner =>
      exact (List.append_nil _).trans (kept rfl (by rw [t.unlocked_held, pc]; rfl))
  | @wake s op pc pointer =>
      exact (List.append_nil _).trans (kept rfl (by rw [t.processed_held, pc]; rfl))
  | @skip s pc user => exact (List.append_nil _).trans (kept rfl (by rw [pc]; rfl))
  | finish pc loop => exact (List.append_nil _).trans (kept rfl rfl)

/-- Every step leaves the hand of a thread with what it held and took, but for what it
served. -/
theorem stepped_hand (stepped : w.Stepped a v) (d : Nat) :
    w.hand d ++ byThread d (w.taken a) = byThread d (w.served a) ++ v.hand d := by
  cases stepped with
  | driver thread driven => exact driven_hand thread driven
  | _ => exact List.append_nil _

/-- Every step leaves the queue with its packets and the new one, but for the one taken. -/
theorem stepped_queue (stepped : w.Stepped a v) :
    w.queue.map Packet.status ++ w.arrived a =
      (w.taken a).map Prod.snd ++ v.queue.map Packet.status := by
  cases stepped with
  | complete flight admits => simp [arrived, taken, flight, afterComplete]
  | post => simp [arrived, taken, post]
  | driver thread driven =>
      cases driven with
      | dequeue pc queue may => simp [arrived, taken, queue]
      | _ => simp [arrived, taken]
  | _ => simp [arrived, taken, afterTask]

/-- In every run the packets that were and come into the queue are taken in their order. -/
theorem run_queue {as : List Action} (run : Run next ok w as v) :
    w.queue.map Packet.status ++ observe next arrived w as =
      (observe next taken w as).map Prod.snd ++ v.queue.map Packet.status := by
  rw [run.passed (fun w => w.queue.map Packet.status) arrived (fun w a => (w.taken a).map Prod.snd)
    fun _ _ _ _ _ h => stepped_queue (next_stepped h)]
  rw [observe_derived taken (List.map Prod.snd) rfl (fun _ _ => List.map_append) fun _ _ => rfl]

/-- In every run each thread serves the packets that it takes once and in their order. -/
theorem run_hand {as : List Action} (run : Run next ok w as v) (d : Nat) :
    w.hand d ++ byThread d (observe next taken w as) =
      byThread d (observe next served w as) ++ v.hand d := by
  have passed := run.passed (fun w => w.hand d) (fun w a => byThread d (w.taken a))
    (fun w a => byThread d (w.served a)) fun _ _ _ _ _ h => stepped_hand (next_stepped h) d
  rwa [observe_derived taken (byThread d) rfl (byThread_append d) fun _ _ => rfl,
    observe_derived served (byThread d) rfl (byThread_append d) fun _ _ => rfl] at passed

end World

end Iocp
