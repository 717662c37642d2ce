import Iocp.Library.Progress
import Iocp.Port.Counter
import Iocp.Port.Packets

/-!
# How far the system is from rest

Every call takes a bounded number of steps, every operation in flight becomes one
packet and every packet is processed once. The rank adds up what is left of all
this, so it falls with every step that begins nothing new.
-/

namespace Iocp

open Totals Transition

/-- The steps a poll or a drop may still take, an operation it may yet submit
counted with all of its own. -/
def Pc.rank : Pc → Nat
  | out => 0
  | permitFailed => 1
  | permitted _ _ => 13
  | registered _ => 12
  | busy _ _ _ => 2
  | storing _ _ => 11
  | guarded _ _ => 10
  | prepared _ _ => 9
  | accepted _ => 1
  | dropOverlapped _ => 3
  | dropGuard _ => 2
  | dropPermit _ => 1
  | dropping _ => 2
  | dropFields => 1
  | dropped => 0

/-- The steps a thread may still take with the status it holds, rounds of `unlock`
that fail not counted. -/
def DriverPc.rank : DriverPc → Nat
  | ready => 0
  | dequeued _ _ => 5
  | status _ => 4
  | unlocking _ _ _ => 3
  | waking _ => 2
  | done _ => 1

/-- The loops of `setup` that are not yet left. -/
def Loop.rank : Loop → Nat
  | user => 0
  | main => 2
  | drain _ => 1
  | returned _ => 0

def Driver.rank (t : Driver) : Nat := t.loop.rank + t.pc.rank

/-- A step that goes on with a call. -/
def TaskAct.settles : TaskAct → Bool
  | poll _ _ => false
  | drop => false
  | _ => true

/-- A step that begins nothing: no poll, drop, registration, permit or message, and no
exchange of `unlock` that fails for no reason. -/
def Action.settles : Action → Bool
  | task _ act => act.settles
  | driver _ (.exchange spurious) => !spurious
  | post _ => false
  | permit => false
  | create _ _ => false
  | _ => true

/-- A call only goes on, and what it submits was counted. -/
theorem Owner.Acts.lowers {i : Nat} {o o' : Owner} {pending : Int} {a : TaskAct} {e : Effect}
    (acts : o.Acts i pending a o' e) (settles : a.settles = true) :
    o'.pc.rank + 7 * e.submit.toList.length < o.pc.rank := by
  cases acts with
  | permit | refusePermit | drop => cases settles
  | undoPermit pc | registerWaker pc | lockOpen pc | lockBusy pc | lockStore pc | storeOpen pc
  | leaveBusy pc | prepareRequest pc | prepareFail pc | submit pc | refuseSubmit pc | forget pc
  | dropOverlapped pc | collect pc | dropGuard pc | dropGuardPanic pc | dropPermit pc
  | leaveDrop pc | dropFields pc => simp [pc, Pc.rank]

/-- A round of `unlock` that fails although nothing made it fail has learnt the word. -/
theorem Header.unlockExchange_again {h : Header} {old found : Int}
    (again : (h.unlockExchange old false).2 = .retry found) :
    (h.unlockExchange old false).1 = h ∧ found = h.lock ∧ h.lock ≠ old := by
  by_cases same : h.lock = old
  · simp [unlockExchange, compareExchangeWeak, same] at again
  · simp only [unlockExchange, compareExchangeWeak, same, and_false, if_false, unlockTest]
      at again ⊢
    split at again
    · exact ⟨trivial, (UnlockStep.retry.inj again).symm, same⟩
    · cases again

namespace Driver

theorem processed_rank (t : Driver) (s : Status) : (t.processed s).rank ≤ t.loop.rank + 1 := by
  obtain ⟨loop, pc⟩ := t
  cases loop <;> simp [processed, rank, DriverPc.rank, Loop.rank]

theorem polled_rank (t : Driver) (s : Status) (r : CompletionPoll) :
    (t.polled s r).rank ≤ t.loop.rank + 4 := by
  obtain ⟨loop, pc⟩ := t
  cases r <;> cases loop <;> simp [polled, rank, DriverPc.rank, Loop.rank]

theorem drained_rank (t : Driver) (s : Status) (r : DrainPoll) :
    (t.drained s r).rank ≤ t.loop.rank + 4 := by
  obtain ⟨loop, pc⟩ := t
  cases r <;> cases loop <;> simp [drained, rank, DriverPc.rank, Loop.rank]

/-- After an atomic operation of `unlock` the rank is smaller unless it goes round again. -/
theorem unlocked_rank (t : Driver) (s : Status) (release : Bool) (u : UnlockStep) :
    (∃ old, u = .retry old ∧ (t.unlocked s release u).rank = t.loop.rank + 3) ∨
      (t.unlocked s release u).rank ≤ t.loop.rank + 2 := by
  have processed := processed_rank t s
  cases u with
  | retry old => exact .inl ⟨old, rfl, rfl⟩
  | returned unlocked =>
      right
      cases unlocked <;> cases release <;> simp only [Driver.unlocked, if_true, if_false,
        Bool.false_eq_true] <;> first | omega | simp [rank, DriverPc.rank]

end Driver

namespace World

/-- What is left to do, rounds of `unlock` that fail not counted. -/
def work (w : World) : Nat :=
  total (fun o => o.pc.rank) w.owners + 7 * w.inFlight.length + 6 * w.queue.length +
    total Driver.rank w.drivers + w.held + w.undoing

/-- The next exchange of `unlock` on the thread fails. -/
def stale (w : World) (t : Driver) : Bool :=
  match t.pc with
  | .unlocking s old _ =>
      match s.op with
      | some op => w.owners[op.owner]?.any fun o => o.lockWord ≠ old
      | none => false
  | _ => false

/-- How far the system is from rest. Every step of its work may make every thread go
round the loop of `unlock` once more. -/
def rank (w : World) : Nat :=
  (w.drivers.length + 1) * w.work + w.drivers.countP w.stale

variable {w v : World} {a : Action} {d : Nat} {t u : Driver} {act : DriverAct}

theorem rank_lt (threads : v.drivers.length = w.drivers.length) (work : v.work < w.work) :
    v.rank < w.rank := by
  have stale : v.drivers.countP v.stale ≤ w.drivers.length := threads ▸ List.countP_le_length
  have more : (w.drivers.length + 1) * (v.work + 1) ≤ (w.drivers.length + 1) * w.work :=
    Nat.mul_le_mul_left _ work
  rw [Nat.mul_add, Nat.mul_one] at more
  rw [rank, rank, threads]
  omega

/-- A round of `unlock` of a thread that failed although nothing made it fail: it has
learnt the word. -/
def Retries (w : World) (t : Driver) (act : DriverAct) (v : World) (u : Driver) : Prop :=
  ∃ s old release op o, t.pc = .unlocking s old release ∧ s.op = some op ∧
    w.owners[op.owner]? = some o ∧ o.lockWord ≠ old ∧ act = .exchange false ∧
    v.owners = w.owners ∧ v.queue = w.queue ∧
    u = { t with pc := .unlocking s o.lockWord release }

/-- Every step of a thread lowers its rank, but for the packet that it takes and the rounds
of `unlock` that fail. -/
theorem driven_pays (driven : w.Driven d t act v) (settles : (Action.driver d act).settles = true) :
    ∃ u, v.drivers = w.drivers.set d u ∧ v.inFlight = w.inFlight ∧
      (w.Retries t act v u ∨
        v.queue.length + (w.taken (.driver d act)).length = w.queue.length ∧
          u.rank < t.rank + 6 * (w.taken (.driver d act)).length) := by
  have goes {pc : DriverPc} (before : t.pc = pc) {u : Driver}
      (drivers : v.drivers = w.drivers.set d u) (flights : v.inFlight = w.inFlight)
      (queue : v.queue = w.queue) (silent : w.taken (.driver d act) = [])
      (lower : u.rank < t.loop.rank + pc.rank) :
      ∃ u, v.drivers = w.drivers.set d u ∧ v.inFlight = w.inFlight ∧
        (w.Retries t act v u ∨
          v.queue.length + (w.taken (.driver d act)).length = w.queue.length ∧
            u.rank < t.rank + 6 * (w.taken (.driver d act)).length) := by
    have same : t.rank = t.loop.rank + pc.rank := by rw [Driver.rank, before]
    exact ⟨u, drivers, flights, .inr (by rw [queue, silent, same]; exact ⟨rfl, lower⟩)⟩
  have processed (s : Status) := t.processed_rank s
  cases driven with
  | @dequeue during p rest pc queue may =>
      refine ⟨_, rfl, rfl, .inr ?_⟩
      simp [World.taken, queue, Driver.rank, pc, DriverPc.rank]
  | @poll s pc =>
      refine goes pc rfl rfl rfl rfl (Nat.lt_of_le_of_lt (t.polled_rank s _) ?_)
      simp [DriverPc.rank]
  | @pollDuringShutdown s pc =>
      refine goes pc rfl rfl rfl rfl (Nat.lt_of_le_of_lt (t.drained_rank s _) ?_)
      simp [DriverPc.rank]
  | @loadNull s release pc may null =>
      exact goes pc rfl rfl rfl rfl (Nat.lt_of_le_of_lt (processed s) (by simp [DriverPc.rank]))
  | @load s release op o pc may pointer owner =>
      refine goes pc rfl rfl rfl rfl ?_
      rcases t.unlocked_rank s release o.header.value.unlockLoad with ⟨old, -, same⟩ | lower
      · simp [same, DriverPc.rank]
      · exact Nat.lt_of_le_of_lt lower (by simp [DriverPc.rank])
  | @exchange s old release spurious op o pc pointer owner =>
      obtain rfl : spurious = false := by simpa [Action.settles] using settles
      rcases t.unlocked_rank s release (o.header.value.unlockExchange old false).2 with
        ⟨found, again, -⟩ | lower
      · obtain ⟨kept, rfl, other⟩ := Header.unlockExchange_again again
        obtain ⟨inside, found⟩ := List.getElem?_eq_some_iff.mp owner
        refine ⟨_, rfl, rfl, .inl ⟨s, old, release, op, o, pc, pointer, owner, other, rfl, ?_, rfl,
          ?_⟩⟩
        · rw [kept, ← found]
          exact List.set_getElem_self inside
        · simp [again, Driver.unlocked, Owner.lockWord]
      · exact goes pc rfl rfl rfl rfl (Nat.lt_of_le_of_lt lower (by simp [DriverPc.rank]))
  | @wake s op pc pointer =>
      exact goes pc rfl rfl rfl rfl (Nat.lt_of_le_of_lt (processed s) (by simp [DriverPc.rank]))
  | @skip s pc user =>
      exact goes (u := { t with pc := .done s }) pc rfl rfl rfl rfl
        (by simp [Driver.rank, DriverPc.rank])
  | dropNull pc null | drop pc pointer =>
      exact goes (u := { t with pc := .ready }) pc rfl rfl rfl rfl
        (by simp [Driver.rank, DriverPc.rank])
  | finish pc loop =>
      exact goes (u := { t with loop := .returned (.ok ()) }) pc rfl rfl rfl rfl
        (by simp [Driver.rank, loop, pc, Loop.rank, DriverPc.rank])

/-- A thread goes on, and may have taken a packet. -/
theorem thread_work (thread : w.drivers[d]? = some t) (driven : w.Driven d t act v)
    (drivers : v.drivers = w.drivers.set d u) (flights : v.inFlight = w.inFlight) :
    v.work + t.rank + 6 * w.queue.length = w.work + u.rank + 6 * v.queue.length := by
  have before := total_eraseIdx Driver.rank thread
  have after := total_set Driver.rank thread u
  have held := driven_held driven
  have owners := driven_total Pc.rank driven
  rw [work, work, owners, flights, held.1, held.2, drivers, after, before]
  omega

theorem thread_lowers (thread : w.drivers[d]? = some t) (driven : w.Driven d t act v)
    (drivers : v.drivers = w.drivers.set d u) (flights : v.inFlight = w.inFlight)
    (lower : 6 * v.queue.length + u.rank < 6 * w.queue.length + t.rank) : v.rank < w.rank := by
  have work := thread_work thread driven drivers flights
  exact rank_lt (by rw [drivers, List.length_set]) (by omega)

/-- A round of `unlock` that fails leaves one thread less whose exchange fails. -/
theorem retry_lowers (thread : w.drivers[d]? = some t) (driven : w.Driven d t act v)
    (drivers : v.drivers = w.drivers.set d u) (flights : v.inFlight = w.inFlight)
    (retries : w.Retries t act v u) : v.rank < w.rank := by
  obtain ⟨s, old, release, op, o, pc, pointer, owner, other, -, owners, queue, rfl⟩ := retries
  have work := thread_work thread driven drivers flights
  have same : Driver.rank { t with pc := .unlocking s o.lockWord release } = t.rank := by
    simp [Driver.rank, pc, DriverPc.rank]
  rw [queue, same] at work
  have fails : v.stale = w.stale := by
    funext t
    simp only [stale, owners]
  have last : w.stale t = true := by simp [stale, pc, pointer, owner, other]
  have next : w.stale { t with pc := .unlocking s o.lockWord release } = false := by
    simp [stale, pointer, owner]
  obtain ⟨inside, found⟩ := List.getElem?_eq_some_iff.mp thread
  have some := List.boole_getElem_le_countP (p := w.stale) inside
  have count := List.countP_set (p := w.stale)
    (a := { t with pc := .unlocking s o.lockWord release })
    inside
  rw [found, last] at some count
  rw [next] at count
  simp only [if_true, Bool.false_eq_true, if_false] at some count
  have length : v.drivers.length = w.drivers.length := by rw [drivers, List.length_set]
  have kept : v.work = w.work := by omega
  rw [rank, rank, length, kept, fails, drivers, count]
  omega

/-- Every step of a thread that does not fail for no reason brings it closer to rest. -/
theorem driven_lowers (thread : w.drivers[d]? = some t) (driven : w.Driven d t act v)
    (settles : (Action.driver d act).settles = true) : v.rank < w.rank := by
  obtain ⟨u, drivers, flights, retries | ⟨queue, lower⟩⟩ := driven_pays driven settles
  · exact retry_lowers thread driven drivers flights retries
  · exact thread_lowers thread driven drivers flights (by omega)

/-- Every step that begins nothing brings the system closer to rest. -/
theorem settles_lowers : Lowers step (fun _ a => a.settles = true) (fun _ => true) rank := by
  intro w a v settles h
  change v.rank + 1 ≤ w.rank
  have stepped := step_stepped h
  cases stepped with
  | @task i o act o' e owner acts =>
      have lowers := acts.lowers settles
      have total := afterTask_total Pc.rank owner o' e
      refine rank_lt rfl ?_
      simp only [work, afterTask, List.length_append] at total ⊢
      omega
  | @complete k op status flight admits =>
      obtain ⟨hlt, -⟩ := List.getElem?_eq_some_iff.mp flight
      have erased := List.length_eraseIdx_of_lt hlt
      have total := w.afterComplete_total Pc.rank k op status
      refine rank_lt rfl ?_
      simp only [work, afterComplete, List.length_append, List.length_singleton] at total ⊢
      omega
  | driver thread driven => exact driven_lowers thread driven settles
  | post | permit | refusePermit | create => cases settles
  | undo failed =>
      refine rank_lt rfl ?_
      simp only [work, failed]
      omega
  | release holds =>
      refine rank_lt rfl ?_
      simp only [work, holds]
      omega

end World

end Iocp
