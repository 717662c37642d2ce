import Iocp.Link.References
import Iocp.Link.Wakeup
import Iocp.Progress.Quiet

/-!
# What is left at rest

A call takes few steps, whatever the others do. When the system is at rest and a thread
still drives the port, every parked task has been woken, no permit and no reference is
left over, and every header is open or has a result to collect.
-/

namespace Iocp

open Totals Transition

/-- A step of owner `i`. -/
def Action.isTask (i : Nat) : Action → Bool
  | task j _ => j = i
  | _ => false

/-- A step that begins a poll or the drop of owner `i`. -/
def Action.begins (i : Nat) : Action → Bool
  | task j act => j = i && !act.settles
  | _ => false

/-- No call takes more steps than a poll that submits. -/
theorem Pc.rank_le (pc : Pc) : pc.rank ≤ 13 := by
  cases pc <;> simp [rank]

/-- Between calls an owner is the only holder of its header, and the header of a dropped
owner was freed once. -/
def Owner.Alone (o : Owner) : Prop :=
  o.pc = .out ∧ o.header.strong = 1 ∧ o.header.frees = 0 ∨
    o.pc = .dropped ∧ o.header.strong = 0 ∧ o.header.frees = 1

namespace World

variable {ok : World → Action → Prop} {loops : List Loop} {w v : World} {a : Action} {i : Nat}

/-- The steps left of the call of owner `i`. -/
def callRank (i : Nat) (w : World) : Nat := (w.owners[i]?.map fun o => o.pc.rank).getD 0

theorem callRank_le (i : Nat) (w : World) : w.callRank i ≤ 13 := by
  rw [callRank]
  cases w.owners[i]? with
  | none => exact Nat.zero_le _
  | some o => exact o.pc.rank_le

/-- A step of another party leaves the call of an owner alone. -/
theorem other_rank (stepped : w.Stepped a v) (other : a.isTask i = false) :
    v.callRank i = w.callRank i := by
  have modified {k : Nat} {f : Owner → Owner} (owners : v.owners = w.owners.modify k f)
      (pc : ∀ o, (f o).pc = o.pc) : v.callRank i = w.callRank i := by
    rw [callRank, callRank, owners, List.getElem?_modify]
    cases w.owners[i]? with
    | none => rfl
    | some o => by_cases own : k = i <;> simp [own, pc]
  cases stepped with
  | @task j o act o' e owner acts =>
      have apart : j ≠ i := by simpa [Action.isTask] using other
      simp [callRank, afterTask, List.getElem?_set_ne apart]
  | complete flight admits => exact modified rfl fun _ => rfl
  | driver thread driven =>
      cases driven with
      | @exchange s old release spurious op o pc pointer owner =>
          by_cases own : op.owner = i
          · subst own
            obtain ⟨inside, -⟩ := List.getElem?_eq_some_iff.mp owner
            simp [callRank, owner, List.getElem?_set_self inside]
          · simp [callRank, List.getElem?_set_ne own]
      | wake pc pointer | drop pc pointer => exact modified rfl fun _ => rfl
      | _ => rfl
  | @create kind options key =>
      simp only [callRank, List.getElem?_append]
      split
      · rfl
      case isFalse outside =>
          rw [List.getElem?_eq_none (Nat.not_lt.mp outside)]
          cases i - w.owners.length <;> simp [Owner.new, Pc.rank]
  | _ => rfl

/-- Every step of a call lowers what is left of it. -/
theorem call_lowers (i : Nat) :
    Lowers next (fun _ a => a.begins i = false) (Action.isTask i) (callRank i) := by
  intro w a v goes h
  have stepped := next_stepped h
  by_cases own : a.isTask i = true
  · cases stepped with
    | @task j o act o' e owner acts =>
        obtain rfl : j = i := by simpa [Action.isTask] using own
        have settles : act.settles = true := by simpa [Action.begins] using goes
        have lowers := acts.lowers settles
        obtain ⟨inside, -⟩ := List.getElem?_eq_some_iff.mp owner
        rw [if_pos own]
        simp only [callRank, afterTask, List.getElem?_set_self inside, owner, Option.map_some,
          Option.getD_some]
        omega
    | _ => cases own
  · rw [other_rank stepped (Bool.eq_false_iff.mpr own), if_neg own]
    exact Nat.le_refl _

/-- A call is wait-free: whatever everybody else does, it takes at most 13 steps of its
own, and until it has returned it can take one. -/
theorem calls_wait_free {o : Owner} (reach : Reached ok (start loops) w)
    (owner : w.owners[i]? = some o) :
    (∀ as v, Run next (fun _ a => a.begins i = false) w as v → as.countP (Action.isTask i) ≤ 13) ∧
      (o.pc ≠ .out → o.pc ≠ .dropped →
        ∃ act v, act.settles = true ∧ w.next (.task i act) = some v) := by
  constructor
  · intro as v run
    have count := (call_lowers i).countP_le run
    have bound := w.callRank_le i
    omega
  · intro out dropped
    obtain ⟨act, settles, some⟩ := o.goes_on i w.pending out dropped
    obtain ⟨⟨o', e⟩, h⟩ := Option.isSome_iff_exists.mp some
    exact ⟨act, _, settles, settles_next reach (step_of_act owner h) settles⟩

/-- A read that has just begun can go on. -/
theorem calls_wait_free_read :
    ∃ w o, Reached anyStep setup w ∧ w.owners[0]? = some o ∧
      o.pc = .permitted (.pollRead 8) 1 ∧
      (∀ as v, Run next (fun _ a => a.begins 0 = false) w as v →
        as.countP (Action.isTask 0) ≤ 13) ∧
      ∃ act v, act.settles = true ∧ w.next (.task 0 act) = some v := by
  obtain ⟨w, o, reach, owner, pc⟩ := exec_owner anyStep setup
    [Schedule.handle, .task 0 (.poll (.pollRead 8) 1)] 0 (fun _ o => o.pc)
    (.permitted (.pollRead 8) 1) (by decide)
  obtain ⟨bound, goes⟩ := calls_wait_free reach owner
  exact ⟨w, o, reach, owner, pc, bound, goes (by simp [pc]) (by simp [pc])⟩

/-- No permit is live. -/
theorem Quiet.no_permits (quiet : w.Quiet) : w.permits = 0 ∧ w.failing = 0 := by
  have calls (f : Pc → Nat) (out : f .out = 0) (dropped : f .dropped = 0) :
      total (fun o : Owner => f o.pc) w.owners = 0 := by
    refine total_eq_zero fun o member => ?_
    rcases quiet.calls o member with pc | pc <;> rw [pc] <;> assumption
  rw [World.permits, World.failing, calls Pc.permits rfl rfl, calls Pc.failing rfl rfl]
  exact quiet.permits.imp (by omega) (by omega)

/-- A thread that has not returned leaves no packet. -/
theorem Quiet.no_packets (quiet : w.Quiet)
    (running : ∃ t ∈ w.drivers, ∀ r, t.loop ≠ .returned r) : w.queue = [] := by
  refine quiet.queue.resolve_right fun returned => ?_
  obtain ⟨t, member, goes⟩ := running
  obtain ⟨r, loop⟩ := returned t member
  exact goes r loop

/-- A quiet system with a thread that has not returned holds no status of an operation. -/
theorem Quiet.no_tokens (quiet : w.Quiet) (running : ∃ t ∈ w.drivers, ∀ r, t.loop ≠ .returned r)
    (i : Nat) : w.tokensOf i = 0 := by
  have threads : total (fun t : Driver => t.pc.tokens) w.drivers = 0 :=
    total_eq_zero fun t member => by rw [quiet.threads t member]; rfl
  rw [tokensOf, tokens, threads, quiet.flights, quiet.no_packets running]
  rfl

/-- What a system that can do nothing more leaves behind: every parked task of a handle has
been woken, and the header is open or holds a result to collect. -/
theorem settled_tasks_woken
    (reach : Reached (fun w a => w.keepsWord a ∧ w.quietUnlock a) setup w)
    (stuck : ∀ a : Action, a.settles = true → w.next a = none)
    (running : ∃ t ∈ w.drivers, ∀ r, t.loop ≠ .returned r) {o : Owner}
    (owner : w.owners[i]? = some o) (kind : o.kind = .handle) (alive : o.pc ≠ .dropped) :
    o.lockWord ≤ 0 ∧ (o.last = some .pending → o.header.value.waker = none) := by
  have quiet := stuck_quiet reach stuck
  have attended := reached_attended reach i o owner kind
  have none : w.tokensOf i = 0 := quiet.no_tokens running i
  have pc : o.pc = .out := (quiet.calls o (List.mem_of_getElem? owner)).resolve_right alive
  have dead : (Link.mk o (w.tokensOf i)).live = 0 := by
    rw [none]
    rfl
  constructor
  · by_contra locked
    exact attended.locked (by simp [pc, Pc.holdsGuard]) (not_le.mp locked) dead
  · intro parked
    by_contra some
    have waits : o.waits = true := by
      simp [Owner.waits, Owner.parked, pc, parked, Option.isSome_iff_ne_none, some]
    rcases attended.wake waits with live | ⟨t, member, -⟩
    · exact live dead
    · rw [none] at member
      exact Multiset.notMem_zero t member

/-- The packet of a read was released, its task has not polled again. -/
def releasedRead : List Action :=
  Schedule.pendingRead ++ [.complete 0 (.success 4 [1, 2, 3, 4])] ++ Schedule.drive 0 true

theorem settled_tasks_woken_read :
    ∃ w o, Reached (fun w a => w.keepsWord a ∧ w.quietUnlock a) setup w ∧
      w.owners[0]? = some o ∧ o.last = some .pending ∧ o.lockWord ≤ 0 ∧
      o.header.value.waker = none := by
  obtain ⟨w, o, reach, owner, state⟩ :=
    exec_owner (fun w a => w.keepsWord a ∧ w.quietUnlock a) setup releasedRead 0
      (fun w o => (w.resting, w.drivers.map Driver.loop, o.kind, o.pc, o.last))
      (true, [.main], .handle, .out, some .pending) (by decide)
  simp only [Prod.mk.injEq] at state
  obtain ⟨rests, drivers, kind, pc, parked⟩ := state
  obtain ⟨t, single, loop⟩ := List.map_eq_singleton_iff.mp drivers
  have woken := settled_tasks_woken reach (resting_stuck rests)
    ⟨t, by simp [single], by simp [loop]⟩ owner kind (by simp [pc])
  exact ⟨w, o, reach, owner, parked, woken.1, woken.2 parked⟩

/-- The port of a quiet system with a thread that has not returned is charged only with
what `poll_during_shutdown` returned. -/
theorem Quiet.charge (quiet : w.Quiet) (running : ∃ t ∈ w.drivers, ∀ r, t.loop ≠ .returned r)
    (balanced : w.Balanced) : w.charged = w.tally.drained := by
  have threads : total (fun t : Driver => t.pc.unaccounted) w.drivers = 0 :=
    total_eq_zero fun t member => by rw [quiet.threads t member]; rfl
  have awaiting : w.awaiting = 0 := by
    rw [World.awaiting, threads, quiet.flights, quiet.no_packets running]
    rfl
  have permits := quiet.no_permits
  rw [charged, (undiscounted_eq balanced).2, awaiting, permits.1, permits.2]
  omega

/-- A system that can do nothing more has given back every permit and every reference: the
counter is left with what `poll_during_shutdown` returned and `isize::MIN` for each shutdown
message that `poll` took, wrapped around from the second on; a live owner is the only holder
of its header, and the header of a dropped one was freed once. -/
theorem settled_balanced (reach : Reached (fun _ a => a.postsShutdown) (start loops) w)
    (stuck : ∀ a : Action, a.settles = true → w.next a = none)
    (running : ∃ t ∈ w.drivers, ∀ r, t.loop ≠ .returned r) :
    (w.tally.shutdowns = 0 → w.pending = w.tally.drained) ∧
      (w.tally.shutdowns = 1 → w.pending = w.tally.drained + isizeMin) ∧
      w.pending = isize (w.tally.drained + w.tally.shutdowns * isizeMin) ∧
      ∀ o ∈ w.owners, o.Alone := by
  have quiet := stuck_quiet reach stuck
  have balanced := reached_balanced reach
  have charge := quiet.charge running balanced
  have unposted := reached_unposted (fun _ _ h => h) reach
  refine ⟨fun zero => ?_, fun one => ?_, ?_, ?_⟩
  · rw [pending_before reach unposted zero, charge]
  · rw [(pending_after reach unposted one).1, charge]
  · rw [pending_eq balanced unposted, charge]
  · intro o member
    obtain ⟨i, owner⟩ := List.getElem?_of_mem member
    have ⟨strong, frees⟩ : Link.Counted ⟨o, w.tokensOf i⟩ := reached_counted reach i o owner
    have none : w.tokensOf i = 0 := quiet.no_tokens running i
    simp only [none, Multiset.card_zero, Nat.add_zero] at strong frees
    rcases quiet.calls o member with pc | pc
    · have one : o.header.strong = 1 := by simpa [pc, Owner.alive, Pc.unsubmitted] using strong
      exact .inl ⟨pc, one, by simpa [one] using frees⟩
    · have zero : o.header.strong = 0 := by simpa [pc, Owner.alive, Pc.unsubmitted] using strong
      exact .inr ⟨pc, zero, by simpa [zero] using frees⟩

theorem settled_balanced_dropped :
    ∃ w o, Reached (fun _ a => a.postsShutdown) setup w ∧ w.owners[0]? = some o ∧
      o.pc = .dropped ∧ w.pending = w.tally.drained ∧ o.Alone := by
  obtain ⟨w, o, reach, owner, state⟩ :=
    exec_owner (fun _ a => a.postsShutdown) setup (releasedRead ++ Schedule.dropOwner 0) 0
      (fun w o => (w.resting, w.drivers.map Driver.loop, w.tally.shutdowns, o.pc))
      (true, [.main], 0, .dropped) (by decide)
  simp only [Prod.mk.injEq] at state
  obtain ⟨rests, drivers, zero, pc⟩ := state
  obtain ⟨t, single, loop⟩ := List.map_eq_singleton_iff.mp drivers
  obtain ⟨counter, -, -, alone⟩ := settled_balanced reach (resting_stuck rests)
    ⟨t, by simp [single], by simp [loop]⟩
  exact ⟨w, o, reach, owner, pc, counter zero, alone o (List.mem_of_getElem? owner)⟩

end World

end Iocp
