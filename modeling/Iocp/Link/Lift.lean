import Iocp.Link.Projection

/-!
# Invariants of headers in reachable systems

The reachable systems are valid, so their steps project onto headers, and an
invariant of the link of a header is an invariant of all runs.
-/

namespace Iocp

open Totals Transition

namespace Owner

variable {i : Nat} {o o' : Owner} {pending : Int} {a : TaskAct} {e : Effect}

/-- A step keeps what the owner was registered as. -/
theorem Acts.key_kind (acts : o.Acts i pending a o' e) : o'.key = o.key ∧ o'.kind = o.kind := by
  cases acts <;> exact ⟨rfl, rfl⟩

/-- A poll is of the kind of its owner. -/
theorem Acts.poll_kind {call : Call} {waker : Nat}
    (acts : o.Acts i pending (.poll call waker) o' e) : call.kind = o.kind := by
  cases acts with
  | permit pc kind granted => exact kind
  | refusePermit pc kind refused => exact kind

/-- A dropped owner takes no step. -/
theorem Acts.acting (acts : o.Acts i pending a o' e) : o.alive = true := by
  cases acts <;> simp_all [alive]

/-- An operation is only submitted by the system call of a prepared request. -/
theorem Acts.submitted (acts : o.Acts i pending a o' e) {op : Op} (h : e.submit = some op) :
    ∃ call request, o.pc = .prepared call request ∧ op = o.submission i call request ∧
      o' = { o with
        pc := .accepted call
        header := o.header.modify fun h =>
          { h with raw := { h.raw with internal := .pending } } } := by
  cases acts with
  | submit pc accepted => exact ⟨_, _, pc, (Option.some.inj h).symm, rfl⟩
  | _ => cases h

/-- An accepted submission carries the key of its owner. -/
theorem Acts.submit_known (acts : o.Acts i pending a o' e) {op : Op} (h : e.submit = some op) :
    op.key = o.key ∧ op.owner = i := by
  obtain ⟨call, request, pc, rfl, -⟩ := acts.submitted h
  exact ⟨rfl, rfl⟩

end Owner

namespace World

/-- A property of every status in the queue and in the hands of a thread. -/
def AllStatuses (Q : Status → Prop) (w : World) : Prop :=
  (∀ p ∈ w.queue, Q p.status) ∧ ∀ t ∈ w.drivers, ∀ s, t.pc.held = some s → Q s

section Statuses

variable {Q : Status → Prop} {w v : World} {d : Nat} {t : Driver} {act : DriverAct}

/-- A step of a thread that keeps the status it holds, or drops it. -/
theorem thread_statuses {u : Driver} (all : w.AllStatuses Q) (thread : w.drivers[d]? = some t)
    (queue : v.queue = w.queue) (drivers : v.drivers = w.drivers.set d u)
    (holds : u.pc.held = t.pc.held ∨ u.pc.held = none) : v.AllStatuses Q := by
  constructor
  · rw [queue]
    exact all.1
  · intro r member s held
    rw [drivers] at member
    rcases List.mem_or_eq_of_mem_set member with old | rfl
    · exact all.2 r old s held
    · rcases holds with same | none
      · exact all.2 t (List.mem_of_getElem? thread) s (same ▸ held)
      · rw [none] at held
        cases held

/-- A thread only passes statuses on. -/
theorem driven_statuses (all : w.AllStatuses Q) (thread : w.drivers[d]? = some t)
    (driven : w.Driven d t act v) : v.AllStatuses Q := by
  cases driven with
  | @dequeue during p rest pc queue may =>
      constructor
      · intro q member
        exact all.1 q (queue ▸ List.mem_cons_of_mem p member)
      · intro r member s held
        rcases List.mem_or_eq_of_mem_set member with old | rfl
        · exact all.2 r old s held
        · simp only [DriverPc.held, Option.some.injEq] at held
          exact held ▸ all.1 p (queue ▸ List.mem_cons_self)
  | poll pc =>
      exact thread_statuses all thread rfl rfl
        (.inl (by rw [Driver.polled_held, pc, DriverPc.held]))
  | pollDuringShutdown pc =>
      exact thread_statuses all thread rfl rfl
        (.inl (by rw [Driver.drained_held, pc, DriverPc.held]))
  | loadNull pc may null =>
      exact thread_statuses all thread rfl rfl
        (.inl (by rw [Driver.processed_held, pc, DriverPc.held]))
  | load pc may pointer owner =>
      exact thread_statuses all thread rfl rfl
        (.inl (by rw [Driver.unlocked_held, pc, DriverPc.held]))
  | exchange pc pointer owner =>
      exact thread_statuses all thread rfl rfl
        (.inl (by rw [Driver.unlocked_held, pc, DriverPc.held]))
  | wake pc pointer =>
      exact thread_statuses all thread rfl rfl
        (.inl (by rw [Driver.processed_held, pc, DriverPc.held]))
  | @skip s pc user =>
      exact thread_statuses (u := { t with pc := .done s }) all thread rfl rfl
        (.inl (by rw [pc, DriverPc.held, DriverPc.held]))
  | dropNull pc null =>
      exact thread_statuses (u := { t with pc := .ready }) all thread rfl rfl (.inr rfl)
  | drop pc pointer =>
      exact thread_statuses (u := { t with pc := .ready }) all thread rfl rfl (.inr rfl)
  | finish pc loop =>
      exact thread_statuses (u := { t with loop := .returned (.ok ()) }) all thread rfl rfl
        (.inl rfl)

/-- A property of the packets of operations in flight and of the messages posted
is kept by every status. -/
theorem stepped_statuses {a : Action} (all : w.AllStatuses Q) (stepped : w.Stepped a v)
    (packet : ∀ op ∈ w.inFlight, ∀ status, Q (Packet.status ⟨op.key, some (op, status)⟩))
    (message : ∀ key, a = .post key → Q (Packet.status ⟨key, none⟩)) : v.AllStatuses Q := by
  cases stepped with
  | @complete k op status flight admits =>
      refine ⟨?_, all.2⟩
      intro p member
      rcases List.mem_append.mp member with old | new
      · exact all.1 p old
      · exact List.mem_singleton.mp new ▸ packet op (List.mem_of_getElem? flight) status
  | driver thread driven => exact driven_statuses all thread driven
  | @post key =>
      refine ⟨?_, all.2⟩
      intro p member
      rcases List.mem_append.mp member with old | new
      · exact all.1 p old
      · exact List.mem_singleton.mp new ▸ message key rfl
  | _ => exact all

end Statuses

theorem start_statuses (Q : Status → Prop) (loops : List Loop) : (start loops).AllStatuses Q := by
  constructor
  · simp [start]
  · intro t member s held
    simp only [start, List.mem_map] at member
    obtain ⟨loop, -, rfl⟩ := member
    cases held

theorem Knows.mono {w v : World} {op : Op} (known : w.Knows op)
    (more : w.owners.length ≤ v.owners.length) : v.Knows op :=
  ⟨known.1, Nat.lt_of_lt_of_le known.2 more⟩

theorem forall_mem_modify {α : Type*} {P : α → Prop} {l : List α} {f : α → α}
    (h : ∀ x ∈ l, P x) (keep : ∀ x, P x → P (f x)) (k : Nat) : ∀ x ∈ l.modify k f, P x := by
  intro x hx
  obtain ⟨j, hj⟩ := List.mem_iff_getElem?.mp hx
  rw [List.getElem?_modify] at hj
  obtain ⟨y, hy, rfl⟩ := Option.map_eq_some_iff.mp hj
  have hm := h y (List.mem_of_getElem? hy)
  by_cases hk : k = j
  · simpa [hk] using keep y hm
  · simpa [hk] using hm

/-- A status of an operation carries its key, and the operation is known. -/
def Carries (w : World) (s : Status) : Prop :=
  ∀ op, s.op = some op → s.completionKey = op.key ∧ w.Knows op

theorem Valid.carries {w : World} (valid : w.Valid) : w.AllStatuses w.Carries := by
  refine ⟨?_, valid.statuses⟩
  intro p member op pointer
  obtain ⟨⟨op', status⟩, hio, same⟩ := Option.map_eq_some_iff.mp pointer
  simp only at same
  subst same
  exact valid.packets p member op' status hio

theorem start_valid (loops : List Loop) : (start loops).Valid where
  owners := by simp [start]
  flights := by simp [start]
  packets := by simp [start]
  statuses := (start_statuses (start loops).Carries loops).2

section Keep

variable {w v : World} {a : Action}

theorem stepped_length (stepped : w.Stepped a v) : w.owners.length ≤ v.owners.length := by
  cases stepped with
  | task owner acts => simp [afterTask]
  | complete flight admits => simp [afterComplete]
  | driver thread driven => cases driven <;> simp
  | create key => simp
  | _ => exact Nat.le_refl _

/-- Owners are made by `create` only. -/
theorem stepped_owners (stepped : w.Stepped a v)
    (other : ∀ kind options, a ≠ .create kind options) :
    v.owners.length = w.owners.length := by
  cases stepped with
  | task owner acts => simp [afterTask]
  | complete flight admits => simp [afterComplete]
  | driver thread driven => cases driven <;> simp
  | create key => exact absurd rfl (other _ _)
  | _ => rfl

/-- No step gives an owner a reserved key. -/
theorem stepped_keys (keys : ∀ o ∈ w.owners, o.key < reservedPorts) (stepped : w.Stepped a v) :
    ∀ o ∈ v.owners, o.key < reservedPorts := by
  cases stepped with
  | @task i o act o' e owner acts =>
      intro q member
      rcases List.mem_or_eq_of_mem_set member with old | rfl
      · exact keys q old
      · rw [acts.key_kind.1]
        exact keys o (List.mem_of_getElem? owner)
  | complete flight admits =>
      apply forall_mem_modify keys
      exact fun _ key => key
  | driver thread driven =>
      cases driven with
      | @exchange s old release spurious op o pc pointer owner =>
          intro q member
          rcases List.mem_or_eq_of_mem_set member with old | rfl
          · exact keys q old
          · exact keys o (List.mem_of_getElem? owner)
      | wake pc pointer =>
          apply forall_mem_modify keys
          exact fun _ key => key
      | drop pc pointer =>
          apply forall_mem_modify keys
          exact fun _ key => key
      | _ => exact keys
  | create key =>
      intro o member
      rcases List.mem_append.mp member with old | new
      · exact keys o old
      · rw [List.mem_singleton] at new
        subst new
        exact key
  | _ => exact keys

/-- An operation is submitted on the header of a created owner. -/
theorem stepped_flights (valid : w.Valid) (stepped : w.Stepped a v) :
    ∀ op ∈ v.inFlight, w.Knows op := by
  cases stepped with
  | @task i o act o' e owner acts =>
      intro op member
      rcases List.mem_append.mp member with old | new
      · exact valid.flights op old
      · obtain ⟨key, own⟩ := acts.submit_known (Option.mem_toList.mp new)
        obtain ⟨hlt, -⟩ := List.getElem?_eq_some_iff.mp owner
        exact ⟨key ▸ valid.owners o (List.mem_of_getElem? owner), own ▸ hlt⟩
  | complete flight admits =>
      exact fun op member => valid.flights op (List.mem_of_mem_eraseIdx member)
  | driver thread driven => cases driven <;> exact valid.flights
  | _ => exact valid.flights

theorem stepped_valid (valid : w.Valid) (stepped : w.Stepped a v) : v.Valid := by
  have mono {op : Op} (known : w.Knows op) : v.Knows op := known.mono (stepped_length stepped)
  have all : v.AllStatuses w.Carries := by
    apply stepped_statuses valid.carries stepped
    · rintro op member status op' pointer
      cases pointer
      exact ⟨rfl, valid.flights op member⟩
    · rintro key - op pointer
      cases pointer
  refine ⟨stepped_keys valid.owners stepped, ?_, ?_, ?_⟩
  · exact fun op member => mono (stepped_flights valid stepped op member)
  · intro p member op status hio
    obtain ⟨key, known⟩ := all.1 p member op (by simp [Packet.status, hio])
    exact ⟨key, mono known⟩
  · intro t member s held op pointer
    obtain ⟨key, known⟩ := all.2 t member s held op pointer
    exact ⟨key, mono known⟩

end Keep

/-- Every reachable system is valid. -/
theorem reached_valid {ok : World → Action → Prop} {loops : List Loop} {w : World}
    (reach : Reached ok (start loops) w) : w.Valid :=
  reach.invariant (start_valid loops) fun _ _ _ valid _ h => stepped_valid valid (next_stepped h)

theorem Concerns.task {w : World} {a : Action} {i : Nat} {act : TaskAct}
    (concerns : w.Concerns a i (.task act)) : a = .task i act := by
  cases a with
  | task j act' =>
      obtain ⟨rfl, rfl⟩ := concerns
      rfl
  | _ => cases concerns

theorem Concerns.skip {w : World} {a : Action} {i : Nat}
    (concerns : w.Concerns a i (.driver .skip)) : ∃ t ∈ w.drivers, t.loop = .user := by
  cases a with
  | driver d act =>
      obtain ⟨rfl, t, thread, user, -⟩ := concerns
      exact ⟨t, List.mem_of_getElem? thread, user rfl⟩
  | _ => cases concerns

theorem Concerns.unlock {w : World} {a : Action} {i : Nat} {release spurious : Bool}
    (concerns : w.Concerns a i (.unlock release spurious)) :
    ∃ d t s old op, a = .driver d (.exchange spurious) ∧ w.drivers[d]? = some t ∧
      t.pc = .unlocking s old release ∧ s.op = some op ∧ op.owner = i := by
  cases a with
  | driver d act =>
      cases act with
      | exchange spurious' =>
          obtain ⟨rfl, t, s, old, op, rest⟩ := concerns
          exact ⟨d, t, s, old, op, rfl, rest⟩
      | _ => cases concerns
  | _ => cases concerns

/-- A property of every header of the system. -/
def AllLinks (P : Nat → Link → Prop) (w : World) : Prop :=
  ∀ i o, w.owners[i]? = some o → P i ⟨o, w.tokensOf i⟩

/-- A property that fresh headers have and the admitted steps of a link keep
holds of all headers of every reachable system. -/
theorem reached_links {P : Nat → Link → Prop} {ok : World → Action → Prop} {loops : List Loop}
    {w : World} (reach : Reached ok (start loops) w)
    (fresh : ∀ i kind key size, P i ⟨Owner.new kind key size, 0⟩)
    (keep : ∀ w a i o l L, Reached ok (start loops) w → ok w a → w.owners[i]? = some o →
      w.Concerns a i l → Link.Step i ⟨o, w.tokensOf i⟩ l L → P i ⟨o, w.tokensOf i⟩ → P i L) :
    w.AllLinks P := by
  obtain ⟨as, run⟩ := reach
  induction run with
  | nil =>
      intro i o h
      simp [start] at h
  | @snoc as w a v run good h ih =>
      intro i o' ho'
      have reach : Reached ok (start loops) w := ⟨as, run⟩
      cases stepped_moves (reached_valid reach) (next_stepped h) ho' with
      | created _ _ owner tokens =>
          rw [tokens, owner]
          exact fresh i _ _ _
      | still owner tokens =>
          rw [tokens]
          exact ih i o' owner
      | moved owner concerns step =>
          exact keep w a i _ _ _ reach good owner concerns step (ih i _ owner)

end World

end Iocp
