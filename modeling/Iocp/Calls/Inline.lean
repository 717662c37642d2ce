import Iocp.Model.Inversion
import Iocp.Model.Schedule

/-!
# Two ways to read and to write

`AsyncRead` and `AsyncWrite` have the polls of a read and of a write written
out in the handle, `Handle::read` and `Handle::write` go through the trait
`Operation`. A run is compared with the run in which every call of the second
kind is replaced by the poll of the first kind with the same buffer.

## Implementation notes

The two runs take the same steps, so whatever the operating system, the
hardware and the other owners do is the same in both. Two runs that mix the
ways differently are compared through the run that they have in common.
-/

namespace Iocp

open Totals Transition

/-- The poll of the handle for a call that goes through `Operation`. -/
def Call.inline : Call → Call
  | read len => pollRead len
  | write buf => pollWrite buf
  | call => call

namespace Pc

/-- The program point of the poll that is written out. -/
def inline : Pc → Pc
  | permitted call waker => permitted call.inline waker
  | registered call => registered call.inline
  | busy call found mismatch => busy call.inline found mismatch
  | storing call n => storing call.inline n
  | guarded call state => guarded call.inline state
  | prepared call request => prepared call.inline request
  | accepted call => accepted call.inline
  | pc => pc

end Pc

namespace TaskAct

def inline : TaskAct → TaskAct
  | poll call waker => poll call.inline waker
  | act => act

end TaskAct

namespace Action

def inline : Action → Action
  | task i act => task i act.inline
  | a => a

end Action

namespace Call

@[simp] theorem inline_kind (call : Call) : call.inline.kind = call.kind := by
  cases call <;> rfl

@[simp] theorem inline_code (call : Call) : call.inline.code = call.code := by
  cases call <;> rfl

/-- Both ways prepare the same request. -/
@[simp] theorem inline_prepare (call : Call) (extra : Nat) (newSocket : Except Nat Nat)
    (pool : BufferPool) (sockets : SocketPool) :
    call.inline.prepare extra newSocket pool sockets =
      call.prepare extra newSocket pool sockets := by
  cases call <;> rfl

/-- Both ways collect alike, but for the cursor of a write. -/
theorem inline_collect {call : Call} (other : ∀ buf, call ≠ .write buf) (transferred : Nat)
    (duplicate : Option Nat) (pool : BufferPool) (sockets : SocketPool) :
    call.inline.collect transferred duplicate pool sockets =
      call.collect transferred duplicate pool sockets := by
  cases call with
  | write buf => exact absurd rfl (other buf)
  | _ => rfl

end Call

namespace Owner

/-- The same owner in a poll that is written out. -/
def inline (o : Owner) : Owner := { o with pc := o.pc.inline }

/-- A write that goes through `Operation` is not collected with bytes that it
wrote. -/
def keepsCursor (o : Owner) : TaskAct → Bool
  | .collect _ =>
      match o.pc, o.header.value.raw.handleResult with
      | .guarded (.write _) .pending, .ok transferred => transferred = 0
      | _, _ => true
  | _ => true

end Owner

namespace World

/-- The same system with the polls written out. -/
def inline (w : World) : World := { w with owners := w.owners.map Owner.inline }

end World

namespace Owner

variable {i : Nat} {o : Owner} {pending : Int}

theorem inline_lock (o : Owner) (spurious : Bool) :
    o.inline.lock spurious = (o.lock spurious).map fun next => (next.1.inline, next.2) := by
  cases pc : o.pc with
  | registered call =>
      simp only [lock, inline, pc, Pc.inline, Call.inline_code, Option.map_some, lockWord]
      split <;> simp [*]
  | _ => simp [lock, inline, pc, Pc.inline]

theorem inline_prepare (o : Owner) (extra : Nat) (newSocket : Except Nat Nat) :
    o.inline.prepare extra newSocket =
      (o.prepare extra newSocket).map fun next => (next.1.inline, next.2) := by
  cases pc : o.pc with
  | guarded call state =>
      cases state with
      | idle =>
          have pool : o.inline.preparePool = o.preparePool := rfl
          have sockets : o.inline.sockets = o.sockets := rfl
          have at' : o.inline.pc = .guarded call.inline .idle := by simp [inline, pc, Pc.inline]
          simp only [prepare, at', pc, pool, sockets, Call.inline_prepare]
          obtain ⟨q, rest, result⟩ := call.prepare extra newSocket o.preparePool o.sockets
          cases result with
          | request request => rfl
          | error code =>
              by_cases waits : code = Win32.errorIoPending
              · simp [waits]
              · simp [waits, inline, Pc.inline]
          | panic => rfl
      | pending => simp [prepare, inline, pc, Pc.inline]
  | _ => simp [prepare, inline, pc, Pc.inline]

theorem inline_submit (i : Nat) (o : Owner) (answer : Option Nat) :
    o.inline.submit i answer = (o.submit i answer).map fun next => (next.1.inline, next.2) := by
  cases pc : o.pc with
  | prepared call request =>
      simp only [submit, inline, pc, Pc.inline]
      cases handleIoPending answer with
      | ok _ => simp [submission]
      | error e => simp
  | _ => simp [submit, inline, pc, Pc.inline]

/-- A guard that collects anything but the bytes of a write. -/
theorem inline_collect {duplicate : Option Nat}
    (keeps : o.keepsCursor (.collect duplicate) = true) :
    o.inline.collect duplicate =
      (o.collect duplicate).map fun next => (next.1.inline, next.2) := by
  cases pc : o.pc with
  | guarded call state =>
      cases state with
      | idle => simp [collect, inline, pc, Pc.inline]
      | pending =>
          simp only [collect, inline, pc, Pc.inline]
          cases result : o.header.value.raw.handleResult with
          | error e => simp
          | ok transferred =>
              by_cases other : ∀ buf, call ≠ .write buf
              · simp only [Call.inline_collect other]
                obtain ⟨pool, sockets, collected⟩ :=
                  call.collect transferred duplicate o.pool o.sockets
                cases collected with
                | error e => rfl
                | panic => rfl
                | output value outcome =>
                    simp only
                    cases outcome.applyTo o.header.value.raw <;> rfl
              · obtain ⟨buf, rfl⟩ := by simpa using other
                have none : transferred = 0 := by simpa [keepsCursor, pc, result] using keeps
                subst none
                simp [Call.inline, Call.collect, OverlappedOutcome.applyTo,
                  Overlapped.advance_zero]
  | _ => simp [collect, inline, pc, Pc.inline]

theorem inline_dropGuard (o : Owner) :
    o.inline.dropGuard = o.dropGuard.map fun next => (next.1.inline, next.2) := by
  cases pc : o.pc with
  | dropGuard result =>
      simp only [dropGuard, inline, pc, Pc.inline]
      split <;> simp [*]
  | _ => simp [dropGuard, inline, pc, Pc.inline]

/-- Every step of a poll is that of the poll that is written out. -/
theorem inline_act {a : TaskAct} (keeps : o.keepsCursor a = true) :
    o.inline.act i pending a.inline =
      (o.act i pending a).map fun next => (next.1.inline, next.2) := by
  cases a with
  | lock spurious => exact o.inline_lock spurious
  | prepare extra newSocket => exact o.inline_prepare extra newSocket
  | submit answer => exact inline_submit i o answer
  | collect duplicate => exact inline_collect keeps
  | dropGuard => exact o.inline_dropGuard
  | poll call waker =>
      cases pc : o.pc with
      | out =>
          by_cases kind : call.kind = o.kind
          · by_cases granted : 0 ≤ pending <;>
              simp [TaskAct.inline, act, poll, inline, pc, Pc.inline, kind, granted]
          · simp [TaskAct.inline, act, poll, inline, pc, Pc.inline, kind]
      | _ => simp [TaskAct.inline, act, poll, inline, pc, Pc.inline]
  | storeOpen =>
      cases pc : o.pc <;>
        simp [TaskAct.inline, act, storeOpen, inline, pc, Pc.inline, Header.headerLockStore]
  | undoPermit | registerWaker | leaveBusy | forget | dropOverlapped | dropPermit | drop
  | leaveDrop | dropFields =>
      obtain ⟨kind, key, header, pool, sockets, pc, last⟩ := o
      cases pc <;> rfl

/-- The two ways part when the bytes of a write are collected. -/
theorem inline_differs {a : TaskAct} {o' p : Owner} {e e' : Effect}
    (moves : o.keepsCursor a = false) (h : o.act i pending a = some (o', e))
    (h' : o.inline.act i pending a.inline = some (p, e')) : p ≠ o'.inline := by
  cases a with
  | collect duplicate =>
      simp only [keepsCursor] at moves
      split at moves
      case h_1 buf transferred pc result =>
          simp only [TaskAct.inline, act, collect, inline, pc, Pc.inline, Call.inline,
            result, Call.collect] at h h'
          -- the cursor moves in one of the two ways, or cannot move any further
          cases advanced : o.header.value.raw.advance transferred with
          | none =>
              simp only [OverlappedOutcome.applyTo, advanced] at h h'
              cases h
              cases h'
              exact fun same => by cases congrArg Owner.pc same
          | some raw =>
              simp only [OverlappedOutcome.applyTo, advanced] at h h'
              cases h
              cases h'
              intro same
              have unmoved : raw = o.header.value.raw :=
                congrArg (fun p : Owner => p.header.value.raw) same
              have cursor := (Overlapped.advance_cursor advanced).1
              rw [unmoved] at cursor
              have zero : transferred = 0 := by omega
              simp [zero] at moves
      case h_2 => cases moves
  | _ => cases moves

end Owner

namespace World

variable {w v : World} {a : Action}

theorem inline_owner (w : World) (i : Nat) :
    w.inline.owners[i]? = w.owners[i]?.map Owner.inline := List.getElem?_map

/-- A live permit stays with the poll that holds it. -/
theorem inline_charged (w : World) : w.inline.charged = w.charged := by
  have same (f : Pc → Nat) (alike : ∀ pc : Pc, f pc.inline = f pc) :
      total (fun o : Owner => f o.pc) (w.owners.map Owner.inline) =
        total (fun o : Owner => f o.pc) w.owners := by
    simp only [total, List.map_map]
    exact congrArg List.sum (List.map_congr_left fun o _ => alike o.pc)
  have permits := same Pc.permits (by intro pc; cases pc <;> rfl)
  have failing := same Pc.failing (by intro pc; cases pc <;> rfl)
  simp only [charged, undiscounted, World.permits, World.failing, inline] at permits failing ⊢
  rw [permits, failing]

/-- A change of a header does not look at the poll. -/
theorem inline_modify {f : Owner → Owner} (alike : ∀ o, f o.inline = (f o).inline)
    (os : List Owner) (k : Nat) :
    (os.map Owner.inline).modify k f = (os.modify k f).map Owner.inline := by
  apply List.ext_getElem?
  intro j
  rw [List.getElem?_modify, List.getElem?_map, List.getElem?_map, List.getElem?_modify]
  cases os[j]? with
  | none => rfl
  | some o => split <;> simp [alike]

theorem inline_header (f : Arc Header → Arc Header) (os : List Owner) (k : Nat) :
    (os.map Owner.inline).modify k (fun o => { o with header := f o.header }) =
      (os.modify k fun o => { o with header := f o.header }).map Owner.inline :=
  inline_modify (f := fun o => { o with header := f o.header }) (fun _ => rfl) os k

/-- The end of an operation does not look at the poll. -/
theorem inline_complete (w : World) (k : Nat) (status : Final) :
    w.inline.complete k status = (w.complete k status).map inline := by
  have alike (op : Op) (o : Owner) :
      o.inline.complete op status = (o.complete op status).inline := by
    cases o with
    | mk kind key header pool sockets pc last => cases pc <;> rfl
  simp only [complete, inline]
  cases w.inFlight[k]? with
  | none => rfl
  | some op =>
      simp only
      split
      · simp [inline, inline_modify (f := (·.complete op status)) (alike op)]
      · rfl

/-- A driving thread sees headers only. -/
theorem inline_driver (w : World) (d : Nat) (act : DriverAct) :
    w.inline.driver d act = (w.driver d act).map inline := by
  have threads : w.inline.drivers = w.drivers := rfl
  simp only [driver, threads]
  cases w.drivers[d]? with
  | none => rfl
  | some t =>
      cases act with
      | dequeue during =>
          simp only [dequeue, inline]
          split
          · split <;> rfl
          · rfl
      | account =>
          simp only [account]
          split <;> rfl
      | load release =>
          simp only [load, inline_owner]
          split
          · split
            · split
              · rfl
              · rename_i op _
                cases w.owners[op.owner]? <;> rfl
            · rfl
          · rfl
      | exchange spurious =>
          simp only [exchange, inline_owner]
          split
          · split
            · rfl
            · rename_i op _
              cases w.owners[op.owner]? with
              | none => rfl
              | some o => simp [inline, List.map_set, Owner.inline]
          · rfl
      | wake =>
          simp only [wake]
          split
          · split
            · rfl
            · simp only [inline, Option.map_some, inline_header (·.modify Header.wake)]
          · rfl
      | skip =>
          simp only [skip]
          split <;> rfl
      | drop =>
          simp only [dropStatus]
          split
          · simp only [inline, Option.map_some]
            split
            · rfl
            · rw [inline_header Arc.drop]
          · rfl
      | finish =>
          simp only [finish]
          split <;> rfl

theorem inline_task {i : Nat} {act : TaskAct}
    (keeps : w.ownerStep Owner.keepsCursor (.task i act) = true) :
    w.inline.task i act.inline = (w.task i act).map inline := by
  simp only [task, inline_owner]
  cases owner : w.owners[i]? with
  | none => rfl
  | some o =>
      rw [ownerStep_task owner] at keeps
      simp only [Option.map_some, show w.inline.pending = w.pending from rfl,
        Owner.inline_act keeps, Option.map_map]
      congr 1
      funext next
      simp [inline, List.map_set]

theorem inline_step (keeps : w.ownerStep Owner.keepsCursor a = true) :
    w.inline.step a.inline = (w.step a).map inline := by
  cases a with
  | task i act => exact inline_task keeps
  | complete k status => exact inline_complete w k status
  | driver d act => exact inline_driver w d act
  | post key => rfl
  | permit =>
      simp only [Action.inline, step, permit, show w.inline.pending = w.pending from rfl]
      split <;> rfl
  | undo =>
      simp only [Action.inline, step, undo, show w.inline.undoing = w.undoing from rfl]
      split <;> rfl
  | release =>
      simp only [Action.inline, step, release, show w.inline.held = w.held from rfl]
      split <;> rfl
  | create kind options =>
      simp only [Action.inline, step, create]
      split
      · rfl
      · simp [inline, Owner.inline, Owner.new, Pc.inline]

/-- Every step of a run is a step of the run with the polls written out. -/
theorem inline_next (keeps : w.ownerStep Owner.keepsCursor a = true) (h : w.next a = some v) :
    w.inline.next a.inline = some v.inline := by
  obtain ⟨step, small⟩ := next_eq_some.mp h
  refine next_eq_some.mpr ⟨?_, by rwa [inline_charged]⟩
  rw [inline_step keeps, step, Option.map_some]

theorem inline_parts (moves : ¬ w.ownerStep Owner.keepsCursor a = true) (h : w.next a = some v) :
    w.inline.next a.inline ≠ some v.inline := by
  cases a with
  | task i act =>
      cases owner : w.owners[i]? with
      | none => simp [ownerStep, owner] at moves
      | some o =>
          rw [ownerStep_task owner, Bool.not_eq_true] at moves
          intro same
          obtain ⟨o', e, acted, rfl⟩ := step_act owner (next_eq_some.mp h).1
          have owner' : w.inline.owners[i]? = some o.inline := by simp [inline_owner, owner]
          obtain ⟨p, e', acted', same'⟩ := step_act owner' (next_eq_some.mp same).1
          have inside := congrArg (fun w => w.owners[i]?) same'
          rw [inline_owner, afterTask_owner owner, afterTask_owner owner'] at inside
          exact Owner.inline_differs moves acted acted' (Option.some.inj inside).symm
  | _ => simp [ownerStep] at moves

/-- After every beginning of the run, the run with the polls written out has
submitted the same operations, returned the same results and left the same
headers, pools and pending counter. -/
def Agrees (start : World) (as : List Action) : Prop :=
  ∀ bs v, bs <+: as → Run next anyStep start bs v →
    Run next anyStep start.inline (bs.map Action.inline) v.inline

/-- The two ways agree exactly while no write that goes through `Operation` is
collected with bytes that it wrote. -/
theorem operations_agree {start w : World} {as : List Action}
    (run : Run next anyStep start as w) :
    Agrees start as ↔ Run next (fun w a => w.ownerStep Owner.keepsCursor a) start as w := by
  constructor
  · intro agrees
    suffices all : ∀ bs v, Run next anyStep start bs v → bs <+: as →
        Run next (fun w a => w.ownerStep Owner.keepsCursor a) start bs v from
      all as w run (List.prefix_refl as)
    intro bs v beginning
    induction beginning with
    | nil => exact fun _ => .nil
    | @snoc bs v a u before _ h ih =>
        intro within
        have shorter : bs <+: as := (List.prefix_append bs [a]).trans within
        refine (ih shorter).snoc ?_ h
        by_contra moves
        -- one more step of the other run would be a step in which the two part
        have whole := agrees _ u within (before.snoc trivial h)
        rw [List.map_append] at whole
        obtain ⟨v', first, last⟩ := whole.split
        obtain rfl := first.state_unique (agrees bs v shorter before)
        exact inline_parts moves h (Run.one (a := a.inline) last)
  · intro keeps bs v ⟨rest, whole⟩ before
    subst whole
    obtain ⟨v', first, -⟩ := keeps.split
    obtain rfl := first.state_unique before
    exact first.map fun _ _ _ keeps h => ⟨trivial, inline_next keeps h⟩

/-- A read and then a write, both through `Operation`; the write ends with the
given status. -/
def operated (status : Final) : List Action :=
  [.create .handle ⟨0, 32⟩] ++ Schedule.submitted 0 (.read 8) 1 ++
    [.complete 0 (.success 2 [5, 6])] ++ Schedule.drive 0 true ++ Schedule.resume 0 (.read 8) 1 ++
    Schedule.submitted 0 (.write [7]) 1 ++ [.complete 0 status] ++ Schedule.drive 0 true ++
    Schedule.resume 0 (.write [7]) 1

theorem operations_agree_unwritten :
    ∃ as w, Run next anyStep setup as w ∧
      w.owners.map (fun o => (o.last, o.header.value.raw.cursor)) =
        [(some (.ready (.count 0)), 2)] ∧
      Agrees setup as := by
  have ran : (exec next (fun w a => w.ownerStep Owner.keepsCursor a) setup
      (operated (.success 0 []))).map
        (fun w => w.owners.map fun o => (o.last, o.header.value.raw.cursor)) =
      some [(some (.ready (.count 0)), 2)] := by decide
  obtain ⟨w, run, state⟩ := Option.map_eq_some_iff.mp ran
  have keeps := exec_run run
  have run := keeps.anyStep
  exact ⟨_, w, run, state, (operations_agree run).mpr keeps⟩

/-- A write through `Operation` leaves the cursor where it was. -/
theorem written_cursor_differs : ¬ ∀ as w, Run next anyStep setup as w → Agrees setup as := by
  intro always
  have ran : (exec next anyStep setup (operated (.success 1 []))).map
      (fun w => w.owners.map (·.header.value.raw.cursor)) = some [2] := by decide
  have ran' : (exec next anyStep setup ((operated (.success 1 [])).map Action.inline)).map
      (fun w => w.owners.map (·.header.value.raw.cursor)) = some [3] := by decide
  obtain ⟨w, run, cursor⟩ := Option.map_eq_some_iff.mp ran
  obtain ⟨w', run', cursor'⟩ := Option.map_eq_some_iff.mp ran'
  have same := always _ w (exec_run run) _ w (List.prefix_refl _) (exec_run run)
  obtain rfl := same.state_unique (exec_run run')
  have inlined : w.inline.owners.map (·.header.value.raw.cursor) =
      w.owners.map (·.header.value.raw.cursor) := by simp [inline, Owner.inline]
  rw [inlined, cursor] at cursor'
  cases cursor'

end World

end Iocp
