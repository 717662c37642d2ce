import Iocp.Model.Machine
import Iocp.Model.Steps

/-!
# What one step of the system can do

The table of the driving threads and of the whole system, beside the table of
the owners. Arguments over runs go by cases on these tables.
-/

namespace Iocp

/-- After an atomic operation of `unlock` a thread is done with the status, goes
round the loop again, or is about to wake. -/
theorem Driver.unlocked_cases (t : Driver) (s : Status) (release : Bool) (u : UnlockStep) :
    t.unlocked s release u = t.processed s ∨
      (∃ old, t.unlocked s release u = { t with pc := .unlocking s old release }) ∨
      t.unlocked s release u = { t with pc := .waking s } := by
  cases u with
  | retry old => exact .inr (.inl ⟨old, rfl⟩)
  | returned unlocked =>
      cases unlocked with
      | false => exact .inl rfl
      | true =>
          cases release with
          | false => exact .inl rfl
          | true => exact .inr (.inr rfl)

namespace World

/-- The system after owner `i` took a step with an effect. -/
def afterTask (w : World) (i : Nat) (o : Owner) (e : Effect) : World :=
  { w with
    pending := isize (w.pending + e.add)
    owners := w.owners.set i o
    inFlight := w.inFlight ++ e.submit.toList
    cancels := if e.cancel then i :: w.cancels else w.cancels
    tally := { w.tally with accepted := w.tally.accepted + e.submit.toList.length } }

/-- The system after operation `k` ended. -/
def afterComplete (w : World) (k : Nat) (op : Op) (status : Final) : World :=
  { w with
    inFlight := w.inFlight.eraseIdx k
    queue := w.queue ++ [⟨op.key, some (op, status)⟩]
    owners := w.owners.modify op.owner (·.complete op status) }

/-- The steps of driving thread `d` in state `t`. -/
inductive Driven (w : World) (d : Nat) (t : Driver) : DriverAct → World → Prop
  | dequeue {during p rest} (pc : t.pc = .ready) (queue : w.queue = p :: rest)
      (may : t.mayDequeue during = true) :
      Driven w d t (.dequeue during)
        { w with
          queue := rest
          drivers := w.drivers.set d { t with pc := .dequeued during p.status } }
  | poll {s} (pc : t.pc = .dequeued false s) :
      Driven w d t .account
        { w with
          pending := isize (w.pending + (s.poll w.pending).1)
          drivers := w.drivers.set d (t.polled s (s.poll w.pending).2)
          tally := w.tallyPoll s }
  | pollDuringShutdown {s} (pc : t.pc = .dequeued true s) :
      Driven w d t .account
        { w with
          drivers := w.drivers.set d (t.drained s s.pollDuringShutdown)
          tally := w.tallyDrain s }
  | loadNull {s release} (pc : t.pc = .status s) (may : t.mayProcess s release = true)
      (null : s.op = none) :
      Driven w d t (.load release) { w with drivers := w.drivers.set d (t.processed s) }
  | load {s release op o} (pc : t.pc = .status s) (may : t.mayProcess s release = true)
      (pointer : s.op = some op) (owner : w.owners[op.owner]? = some o) :
      Driven w d t (.load release)
        { w with drivers := w.drivers.set d (t.unlocked s release o.header.value.unlockLoad) }
  | exchange {s old release spurious op o} (pc : t.pc = .unlocking s old release)
      (pointer : s.op = some op) (owner : w.owners[op.owner]? = some o) :
      Driven w d t (.exchange spurious)
        { w with
          owners := w.owners.set op.owner
            { o with
              header := o.header.modify fun _ => (o.header.value.unlockExchange old spurious).1 }
          drivers := w.drivers.set d
            (t.unlocked s release (o.header.value.unlockExchange old spurious).2) }
  | wake {s op} (pc : t.pc = .waking s) (pointer : s.op = some op) :
      Driven w d t .wake
        { w with
          owners := w.owners.modify op.owner fun o =>
            { o with header := o.header.modify Header.wake }
          drivers := w.drivers.set d (t.processed s) }
  | skip {s} (pc : t.pc = .status s) (user : t.loop = .user) :
      Driven w d t .skip { w with drivers := w.drivers.set d { t with pc := .done s } }
  | dropNull {s} (pc : t.pc = .done s) (null : s.op = none) :
      Driven w d t .drop { w with drivers := w.drivers.set d { t with pc := .ready } }
  | drop {s op} (pc : t.pc = .done s) (pointer : s.op = some op) :
      Driven w d t .drop
        { w with
          owners := w.owners.modify op.owner fun o => { o with header := o.header.drop }
          drivers := w.drivers.set d { t with pc := .ready } }
  | finish (pc : t.pc = .ready) (loop : t.loop = .drain 0) :
      Driven w d t .finish
        { w with drivers := w.drivers.set d { t with loop := .returned (.ok ()) } }

/-- The steps of the system. -/
inductive Stepped (w : World) : Action → World → Prop
  | task {i o a o' e} (owner : w.owners[i]? = some o) (acts : o.Acts i w.pending a o' e) :
      Stepped w (.task i a) (w.afterTask i o' e)
  | complete {k op status} (flight : w.inFlight[k]? = some op) (admits : op.admits status = true) :
      Stepped w (.complete k status) (w.afterComplete k op status)
  | driver {d t a v} (thread : w.drivers[d]? = some t) (driven : w.Driven d t a v) :
      Stepped w (.driver d a) v
  | post {key} : Stepped w (.post key) (w.post key)
  | permit (granted : 0 ≤ w.pending) :
      Stepped w .permit { w with pending := isize (w.pending + 1), held := w.held + 1 }
  | refusePermit (refused : w.pending < 0) :
      Stepped w .permit { w with pending := isize (w.pending + 1), undoing := w.undoing + 1 }
  | undo {n} (failed : w.undoing = n + 1) :
      Stepped w .undo { w with pending := isize (w.pending + -1), undoing := n }
  | release {n} (holds : w.held = n + 1) :
      Stepped w .release { w with pending := isize (w.pending + -1), held := n }
  | create {kind options} (key : options.key < reservedPorts) :
      Stepped w (.create kind options)
        { w with owners := w.owners ++ [Owner.new kind options.key options.maxBufferSize] }

variable {w v : World} {d : Nat} {t : Driver}

theorem dequeue_driven {during : Bool} (h : w.dequeue d t during = some v) :
    w.Driven d t (.dequeue during) v := by
  unfold dequeue at h
  split at h
  case h_1 p rest pc queue =>
      split at h
      case isTrue may => exact Option.some.inj h ▸ .dequeue pc queue may
      case isFalse => cases h
  case h_2 => cases h

theorem account_driven (h : w.account d t = some v) : w.Driven d t .account v := by
  unfold account at h
  split at h
  case h_1 s pc => exact Option.some.inj h ▸ .poll pc
  case h_2 s pc => exact Option.some.inj h ▸ .pollDuringShutdown pc
  case h_3 => cases h

theorem load_driven {release : Bool} (h : w.load d t release = some v) :
    w.Driven d t (.load release) v := by
  unfold load at h
  split at h
  case h_1 s pc =>
      split at h
      case isTrue may =>
          split at h
          case h_1 null => exact Option.some.inj h ▸ .loadNull pc may null
          case h_2 op pointer =>
              split at h
              case h_1 => cases h
              case h_2 o owner => exact Option.some.inj h ▸ .load pc may pointer owner
      case isFalse => cases h
  case h_2 => cases h

theorem exchange_driven {spurious : Bool} (h : w.exchange d t spurious = some v) :
    w.Driven d t (.exchange spurious) v := by
  unfold exchange at h
  split at h
  case h_1 s old release pc =>
      split at h
      case h_1 => cases h
      case h_2 op pointer =>
          split at h
          case h_1 => cases h
          case h_2 o owner => exact Option.some.inj h ▸ .exchange pc pointer owner
  case h_2 => cases h

theorem wake_driven (h : w.wake d t = some v) : w.Driven d t .wake v := by
  unfold wake at h
  split at h
  case h_1 s pc =>
      split at h
      case h_1 => cases h
      case h_2 op pointer => exact Option.some.inj h ▸ .wake pc pointer
  case h_2 => cases h

theorem dropStatus_driven (h : w.dropStatus d t = some v) : w.Driven d t .drop v := by
  unfold dropStatus at h
  split at h
  case h_1 s pc =>
      simp only [Option.some.injEq] at h
      cases hop : s.op with
      | none =>
          simp only [hop] at h
          exact h ▸ .dropNull pc hop
      | some op =>
          simp only [hop] at h
          exact h ▸ .drop pc hop
  case h_2 => cases h

theorem skip_driven (h : w.skip d t = some v) : w.Driven d t .skip v := by
  unfold skip at h
  split at h
  case h_1 s pc user => exact Option.some.inj h ▸ .skip pc user
  case h_2 => cases h

theorem finish_driven (h : w.finish d t = some v) : w.Driven d t .finish v := by
  unfold finish at h
  split at h
  case h_1 pc loop => exact Option.some.inj h ▸ .finish pc loop
  case h_2 => cases h

/-- Every step of the step function is in the table. -/
theorem step_stepped {a : Action} (h : w.step a = some v) : w.Stepped a v := by
  cases a with
  | task i a =>
      simp only [step, task] at h
      split at h
      case h_1 => cases h
      case h_2 o owner =>
          obtain ⟨⟨o', e⟩, hact, rfl⟩ := Option.map_eq_some_iff.mp h
          exact .task owner (Owner.act_acts hact)
  | complete k status =>
      simp only [step, complete] at h
      split at h
      case h_1 => cases h
      case h_2 op flight =>
          split at h
          case isTrue admits => exact Option.some.inj h ▸ .complete flight admits
          case isFalse => cases h
  | driver d a =>
      simp only [step, driver] at h
      split at h
      case h_1 => cases h
      case h_2 t thread =>
          apply Stepped.driver thread
          cases a with
          | dequeue during => exact dequeue_driven h
          | account => exact account_driven h
          | load release => exact load_driven h
          | exchange spurious => exact exchange_driven h
          | wake => exact wake_driven h
          | skip => exact skip_driven h
          | drop => exact dropStatus_driven h
          | finish => exact finish_driven h
  | post key =>
      simp only [step, Option.some.injEq] at h
      exact h ▸ .post
  | permit =>
      simp only [step, permit, Option.some.injEq] at h
      split at h
      case isTrue granted => exact h ▸ .permit granted
      case isFalse refused => exact h ▸ .refusePermit (by omega)
  | undo =>
      simp only [step, undo] at h
      split at h
      case h_1 => cases h
      case h_2 n failed => exact Option.some.inj h ▸ .undo failed
  | release =>
      simp only [step, release] at h
      split at h
      case h_1 => cases h
      case h_2 n holds => exact Option.some.inj h ▸ .release holds
  | create kind options =>
      simp only [step, create] at h
      split at h
      case isTrue => cases h
      case isFalse key => exact Option.some.inj h ▸ .create (by omega)

/-- The step function of owner `i` found at its index. -/
theorem step_act {i : Nat} {o : Owner} {act : TaskAct} (owner : w.owners[i]? = some o)
    (h : w.step (.task i act) = some v) :
    ∃ o' e, o.act i w.pending act = some (o', e) ∧ v = w.afterTask i o' e := by
  simp only [step, task, owner] at h
  obtain ⟨⟨o', e⟩, hact, rfl⟩ := Option.map_eq_some_iff.mp h
  exact ⟨o', e, hact, rfl⟩

/-- A step of owner `i` found at its index. -/
theorem step_task {i : Nat} {o : Owner} {act : TaskAct} (owner : w.owners[i]? = some o)
    (h : w.step (.task i act) = some v) :
    ∃ o' e, o.Acts i w.pending act o' e ∧ v = w.afterTask i o' e := by
  obtain ⟨o', e, hact, hv⟩ := step_act owner h
  exact ⟨o', e, Owner.act_acts hact, hv⟩

/-- A step that the owner can take is a step of the system. -/
theorem step_of_act {i : Nat} {o o' : Owner} {act : TaskAct} {e : Effect}
    (owner : w.owners[i]? = some o) (h : o.act i w.pending act = some (o', e)) :
    w.step (.task i act) = some (w.afterTask i o' e) := by
  simp [step, task, owner, h, afterTask]

theorem afterTask_owner {i : Nat} {o : Owner} (owner : w.owners[i]? = some o) (o' : Owner)
    (e : Effect) : (w.afterTask i o' e).owners[i]? = some o' := by
  obtain ⟨hlt, -⟩ := List.getElem?_eq_some_iff.mp owner
  exact List.getElem?_set_self hlt

/-- A step on the machine is a step of the table. -/
theorem next_stepped {a : Action} (h : w.next a = some v) : w.Stepped a v :=
  step_stepped (next_eq_some.mp h).1

end World

end Iocp
