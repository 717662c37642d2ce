import Iocp.Model.Inversion
import Mathlib.Data.Multiset.Filter

/-!
# One header seen on its own

An accepted operation is a token that travels from the operating system over
the queue of the port to a driving thread and ends when the status is
dropped. A link is an owner together with the tokens of its header. Its step
relation says what the whole system can do to one header: the other owners,
the queue order and the identity of the threads are gone.
-/

namespace Iocp

open Totals

/-- How far the packet of an accepted operation has travelled. -/
inductive Stage
  /-- The operating system has not ended the operation. -/
  | inFlight
  /-- The packet is in the queue. -/
  | queued (status : Final)
  /-- A thread has dequeued it and not yet returned it from its poll. -/
  | dequeued (during : Bool)
  /-- The status was returned to the driver. -/
  | returned
  /-- `unlock` is running and has seen a positive word. -/
  | unlocking (old : Int) (release : Bool)
  /-- `unlock` has returned true inside `release`. -/
  | waking
  /-- The status is about to be dropped. -/
  | done
  deriving DecidableEq

/-- An accepted operation whose status has not been dropped. -/
structure Token where
  op : Op
  stage : Stage
  deriving DecidableEq

namespace Stage

/-- The packet has not been processed: no thread has unlocked the header for it. -/
def live : Stage → Bool
  | waking => false
  | done => false
  | _ => true

/-- The stage after an atomic operation of `unlock`. -/
def afterUnlock (release : Bool) : UnlockStep → Stage
  | .retry old => unlocking old release
  | .returned true => if release then waking else done
  | .returned false => done

end Stage

/-- The token of a queued packet. -/
def Packet.tokens (p : Packet) : Multiset Token :=
  match p.io with
  | none => 0
  | some (op, status) => {⟨op, .queued status⟩}

/-- The token of a status at a stage. -/
def Status.tokens (s : Status) (stage : Stage) : Multiset Token :=
  match s.op with
  | none => 0
  | some op => {⟨op, stage⟩}

/-- The token a driving thread holds. -/
def DriverPc.tokens : DriverPc → Multiset Token
  | .ready => 0
  | .dequeued during s => s.tokens (.dequeued during)
  | .status s => s.tokens .returned
  | .unlocking s old release => s.tokens (.unlocking old release)
  | .waking s => s.tokens .waking
  | .done s => s.tokens .done

/-- The status a driving thread holds. -/
def DriverPc.held : DriverPc → Option Status
  | .ready => none
  | .dequeued _ s => some s
  | .status s => some s
  | .unlocking s _ _ => some s
  | .waking s => some s
  | .done s => some s

/-- The token a step hands to the operating system. -/
def Effect.tokens (e : Effect) : Multiset Token :=
  match e.submit with
  | none => 0
  | some op => {⟨op, .inFlight⟩}

theorem Effect.tokens_none {e : Effect} (h : e.submit = none) (T : Multiset Token) :
    e.tokens + T = T := by
  simp [tokens, h]

theorem Effect.tokens_some {e : Effect} {op : Op} (h : e.submit = some op) (T : Multiset Token) :
    e.tokens + T = ⟨op, .inFlight⟩ ::ₘ T := by
  simp [tokens, h]

theorem Status.tokens_none {s : Status} (h : s.op = none) (stage : Stage) :
    s.tokens stage = 0 := by
  simp [tokens, h]

theorem Status.tokens_some {s : Status} {op : Op} (h : s.op = some op) (stage : Stage) :
    s.tokens stage = {⟨op, stage⟩} := by
  simp [tokens, h]

theorem Status.mem_tokens {s : Status} {stage : Stage} {k : Token} (h : k ∈ s.tokens stage) :
    s.op = some k.op ∧ k.stage = stage := by
  cases hop : s.op with
  | none => simp [tokens_none hop] at h
  | some op =>
      rw [tokens_some hop, Multiset.mem_singleton] at h
      subst h
      exact ⟨rfl, rfl⟩

theorem Packet.mem_tokens {p : Packet} {k : Token} (h : k ∈ p.tokens) :
    ∃ status, p.io = some (k.op, status) ∧ k.stage = .queued status := by
  cases hio : p.io with
  | none => simp [tokens, hio] at h
  | some io =>
      obtain ⟨op, status⟩ := io
      simp only [tokens, hio, Multiset.mem_singleton] at h
      subst h
      exact ⟨status, rfl, rfl⟩

/-- The token of a thread is that of the status it holds. -/
theorem DriverPc.tokens_held (pc : DriverPc) :
    pc.held = none ∧ pc.tokens = 0 ∨
      ∃ s stage, pc.held = some s ∧ stage ≠ .inFlight ∧ pc.tokens = s.tokens stage := by
  cases pc with
  | ready => exact .inl ⟨rfl, rfl⟩
  | dequeued during s => exact .inr ⟨s, _, rfl, by simp, rfl⟩
  | status s => exact .inr ⟨s, _, rfl, by simp, rfl⟩
  | unlocking s old release => exact .inr ⟨s, _, rfl, by simp, rfl⟩
  | waking s => exact .inr ⟨s, _, rfl, by simp, rfl⟩
  | done s => exact .inr ⟨s, _, rfl, by simp, rfl⟩

theorem DriverPc.mem_tokens {pc : DriverPc} {k : Token} (h : k ∈ pc.tokens) :
    k.stage ≠ .inFlight ∧ ∃ s, pc.held = some s ∧ s.op = some k.op := by
  rcases pc.tokens_held with ⟨-, none⟩ | ⟨s, stage, held, away, tokens⟩
  · rw [none] at h
    exact absurd h (Multiset.notMem_zero k)
  · obtain ⟨pointer, same⟩ := Status.mem_tokens (tokens ▸ h)
    exact ⟨same ▸ away, s, held, pointer⟩

/-- A status keeps the operation of its packet. -/
theorem Packet.status_tokens (p : Packet) (during : Bool) :
    p.tokens = 0 ∧ p.status.tokens (.dequeued during) = 0 ∨
      ∃ op status, p.io = some (op, status) ∧ p.tokens = {⟨op, .queued status⟩} ∧
        p.status.tokens (.dequeued during) = {⟨op, .dequeued during⟩} := by
  cases h : p.io with
  | none => exact .inl ⟨by simp [tokens, h], by simp [status, Status.tokens, h]⟩
  | some io =>
      obtain ⟨op, status⟩ := io
      exact .inr ⟨op, status, rfl, by simp [tokens, h], by simp [Packet.status, Status.tokens, h]⟩

/-- Whatever a thread does with a status, it holds the same one until it drops it. -/
theorem Driver.processed_held (t : Driver) (s : Status) : (t.processed s).pc.held = some s := rfl

theorem Driver.unlocked_held (t : Driver) (s : Status) (release : Bool) (u : UnlockStep) :
    (t.unlocked s release u).pc.held = some s := by
  rcases t.unlocked_cases s release u with h | ⟨old, h⟩ | h
  all_goals
    rw [h]
    rfl

theorem Driver.polled_held (t : Driver) (s : Status) (pending : Int) :
    (t.polled s (s.poll pending).2).pc.held = some s := by
  rcases s.poll_cases pending with ⟨-, h⟩ | ⟨-, h⟩ | ⟨-, -, h⟩
  all_goals
    rw [h]
    rfl

theorem Driver.drained_held (t : Driver) (s : Status) :
    (t.drained s s.pollDuringShutdown).pc.held = some s := by
  rcases s.pollDuringShutdown_cases with ⟨-, h⟩ | ⟨-, h⟩ | ⟨-, -, h⟩
  all_goals
    rw [h]
    rfl

theorem Driver.unlocked_tokens (t : Driver) (s : Status) (release : Bool) (u : UnlockStep) :
    (t.unlocked s release u).pc.tokens = s.tokens (.afterUnlock release u) := by
  cases u with
  | retry old => rfl
  | returned unlocked =>
      cases unlocked with
      | false => rfl
      | true => cases release <;> rfl

namespace World

/-- All accepted operations whose status has not been dropped. -/
def tokens (w : World) : Multiset Token :=
  total (fun op => {⟨op, .inFlight⟩}) w.inFlight + total Packet.tokens w.queue +
    total (fun t => t.pc.tokens) w.drivers

/-- The tokens of the header of owner `i`. -/
def tokensOf (w : World) (i : Nat) : Multiset Token := w.tokens.filter fun t => t.op.owner = i

end World

/-- An owner with the tokens of its header. -/
structure Link where
  owner : Owner
  tokens : Multiset Token

namespace Link

/-- What acts on a link. -/
inductive Label
  | task (a : TaskAct)
  | complete
  | driver (a : DriverAct)
  /-- The exchange of an `unlock`, called from `release` when the flag is set. -/
  | unlock (release spurious : Bool)

/-- What the system can do to the header of owner `i`. -/
inductive Step (i : Nat) : Link → Label → Link → Prop
  | task {o pending a o' e T} (acts : o.Acts i pending a o' e) :
      Step i ⟨o, T⟩ (.task a) ⟨o', e.tokens + T⟩
  | complete {o op status T} (admits : op.admits status = true) :
      Step i ⟨o, ⟨op, .inFlight⟩ ::ₘ T⟩ .complete
        ⟨o.complete op status, ⟨op, .queued status⟩ ::ₘ T⟩
  | dequeue {o op status during T} :
      Step i ⟨o, ⟨op, .queued status⟩ ::ₘ T⟩ (.driver (.dequeue during))
        ⟨o, ⟨op, .dequeued during⟩ ::ₘ T⟩
  | account {o op during T} :
      Step i ⟨o, ⟨op, .dequeued during⟩ ::ₘ T⟩ (.driver .account) ⟨o, ⟨op, .returned⟩ ::ₘ T⟩
  | load {o op release T} :
      Step i ⟨o, ⟨op, .returned⟩ ::ₘ T⟩ (.driver (.load release))
        ⟨o, ⟨op, .afterUnlock release o.header.value.unlockLoad⟩ ::ₘ T⟩
  | exchange {o op old release spurious T} :
      Step i ⟨o, ⟨op, .unlocking old release⟩ ::ₘ T⟩ (.unlock release spurious)
        ⟨{ o with
            header := o.header.modify fun _ => (o.header.value.unlockExchange old spurious).1 },
          ⟨op, .afterUnlock release (o.header.value.unlockExchange old spurious).2⟩ ::ₘ T⟩
  | wake {o op T} :
      Step i ⟨o, ⟨op, .waking⟩ ::ₘ T⟩ (.driver .wake)
        ⟨{ o with header := o.header.modify Header.wake }, ⟨op, .done⟩ ::ₘ T⟩
  | skip {o op T} :
      Step i ⟨o, ⟨op, .returned⟩ ::ₘ T⟩ (.driver .skip) ⟨o, ⟨op, .done⟩ ::ₘ T⟩
  | drop {o op T} :
      Step i ⟨o, ⟨op, .done⟩ ::ₘ T⟩ (.driver .drop) ⟨{ o with header := o.header.drop }, T⟩

/-- A step of a link is one of its owner, or leaves the owner to itself. -/
theorem Step.task_or_other {i : Nat} {L L' : Link} {l : Label} (step : Step i L l L') :
    (∃ pending a o' e, l = .task a ∧ L.owner.Acts i pending a o' e ∧
      L' = ⟨o', e.tokens + L.tokens⟩) ∨ ∀ a, l ≠ .task a := by
  cases step with
  | task acts => exact .inl ⟨_, _, _, _, rfl, acts, rfl⟩
  | _ => exact .inr (by simp)

/-- Only the owner itself moves its program point. -/
theorem background_pc {i : Nat} {L L' : Link} {l : Label} (step : Step i L l L')
    (other : ∀ a, l ≠ .task a) : L'.owner.pc = L.owner.pc := by
  cases step with
  | task acts => exact absurd rfl (other _)
  | _ => rfl

end Link

end Iocp
