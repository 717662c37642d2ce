import Iocp.Link.Wakeup
import Iocp.Model.FineWorld
import Iocp.Model.Schedule
import Iocp.Waker.Calls
import Iocp.Waker.Wakeups

/-!
# The wakers of the headers in the whole system

The system with its atomic wakers takes the steps of the system and no others, so all
that holds of the one holds of the other. What is in the cell of a waker is what the
header says or nothing: a registration that meets a wake of the packet before it is woken
at once. A parked task therefore has been woken, is about to be, or still has an
operation to wait for.
-/

namespace Iocp

open Totals Transition

namespace WakerSystem

variable {s t : WakerSystem} {q : WakerCell}

/-- A registration that no other one runs beside does not find the cell in the hands
of one. -/
theorem unregistered_word (excludes : s.Excludes)
    (alone : s.frames.all (fun g => g.call = .wake || g.pc = .returned) = true) :
    s.waker.state = AtomicWaker.waiting ∨ s.waker.state = AtomicWaker.waking := by
  by_contra busy
  obtain ⟨idle, waking⟩ := not_or.mp busy
  obtain ⟨g, member, holds⟩ := excludes.holder idle
  obtain ⟨k, frame⟩ := List.getElem?_of_mem member
  have one := registering_holder excludes frame holds waking
  have none := List.all_eq_true.mp alone g member
  simp only [Bool.or_eq_true, decide_eq_true_eq] at none
  simp [registering, none] at one

/-- No call is before its first access. -/
def Entered (s : WakerSystem) : Prop := ∀ g ∈ s.frames, g.pc ≠ .called

/-- A call that has made an access is not before its first one. -/
theorem access_entered {k : Nat} (excludes : s.Excludes)
    (others : ∀ g ∈ s.frames.eraseIdx k, g.pc ≠ .called) (h : s.next (.access k) = some t) :
    t.Entered := by
  obtain ⟨f, b, pc, frame, access, rfl⟩ := next_access h
  have fits := excludes.fits f (List.mem_of_getElem? frame)
  obtain ⟨inside, -⟩ := List.getElem?_eq_some_iff.mp frame
  intro g member
  rcases List.mem_cons.mp ((List.set_perm_cons_eraseIdx inside _).mem_iff.mp member) with
    rfl | other
  · cases AtomicWaker.access_accesses fits excludes.known access with
    | @clear call taken word => cases taken <;> simp
    | _ => simp
  · exact others g other

/-- What a call does to the cell of the header with its first access. -/
def Enters (q : WakerCell) : WakerCall → WakerCell → Prop
  | .registerByRef waker, r =>
      r.hand = q.hand ∧ r.header.waker = some waker ∨
        r.hand = q.hand + {waker} ∧ r.header.waker = none
  | .wake, r => r.hand = q.hand + (q.header.waker.toList : Multiset Nat) ∧ r.header.waker = none

/-- A call that is entered takes effect, when no two registrations run at a time. -/
theorem Refines.enter {call : WakerCall} (refines : s.Refines q) (excludes : s.Excludes)
    (entered : s.Entered)
    (alone : call ≠ .wake → s.frames.all (fun g => g.call = .wake || g.pc = .returned) = true)
    (h : s.enter call = some t) :
    ∃ r, Enters q call r ∧ t.Refines r ∧ t.Excludes ∧ t.Entered := by
  obtain ⟨u, made, accessed⟩ := Option.bind_eq_some_iff.mp h
  have word := fun other => unregistered_word excludes (alone other)
  obtain ⟨p, silent, refines'⟩ := refines.step excludes made
  have excludes' := excludes.step made
  obtain ⟨r, ops, refines''⟩ := refines'.step excludes' accessed
  cases made
  refine ⟨r, ?_, refines'', excludes'.step accessed, access_entered excludes' ?_ accessed⟩
  case refine_2 =>
      rw [List.eraseIdx_append_of_length_le le_rfl]
      simpa [Entered] using entered
  obtain rfl : q = p := (Run.nil : Run WakerCell.step anyStep q [] q).state_unique silent
  simp only [effects, List.getElem?_concat_length] at ops
  cases call with
  | wake =>
      cases ops.one
      exact ⟨rfl, rfl⟩
  | registerByRef waker =>
      rcases word (by simp) with idle | waking
      · simp only [WakerFrame.effects, if_pos idle] at ops
        cases ops.one
        exact .inl ⟨rfl, rfl⟩
      · simp only [WakerFrame.effects, waking, AtomicWaker.words_apart, if_false, if_true] at ops
        obtain ⟨u, -, first, rest⟩ := ops.uncons
        cases first
        cases rest.one
        exact .inr ⟨rfl, rfl⟩

/-- A later access wakes what the call has in hand, or does nothing to the cell. -/
theorem Refines.later {k : Nat} (refines : s.Refines q) (excludes : s.Excludes)
    (entered : s.Entered) (h : s.next (.access k) = some t) :
    ∃ r, r.header.waker = q.header.waker ∧
      q.hand = r.hand + (s.woken (.access k) : Multiset Nat) ∧
      t.Refines r ∧ t.Excludes ∧ t.Entered := by
  obtain ⟨r, ops, refines'⟩ := refines.step excludes h
  refine ⟨r, ?_⟩
  obtain ⟨g, b, pc, frame, -, -⟩ := next_access h
  have called := entered g (List.mem_of_getElem? frame)
  suffices same : r.header.waker = q.header.waker ∧
      q.hand = r.hand + (s.woken (.access k) : Multiset Nat) from
    ⟨same.1, same.2, refines', excludes.step h,
      access_entered excludes (fun g member => entered g (List.mem_of_mem_eraseIdx member)) h⟩
  simp only [effects, frame] at ops
  simp only [WakerSystem.woken, frame, Option.map_some]
  obtain ⟨call, at'⟩ := g
  cases at' with
  | waking waker =>
      obtain ⟨held, after⟩ := Option.ite_none_right_eq_some.mp ops.one
      cases after
      refine ⟨rfl, ?_⟩
      change q.hand = q.hand.erase waker + {waker}
      rw [add_comm, Multiset.singleton_add, Multiset.cons_erase held]
  | called => exact absurd rfl called
  | _ =>
      obtain rfl : q = r := (Run.nil : Run WakerCell.step anyStep q [] q).state_unique ops
      exact ⟨rfl, by simp⟩

end WakerSystem

/-- `unlock` leaves the cell alone. -/
theorem Header.unlockExchange_waker (h : Header) (old : Int) (spurious : Bool) :
    (h.unlockExchange old spurious).1.waker = h.waker := by
  simp only [unlockExchange, compareExchangeWeak]
  split
  all_goals
    rename_i taken
    split at taken
    all_goals cases taken
    all_goals rfl

/-- A task that waits has an operation that is not yet processed. -/
theorem Link.Attended.outstanding {L : Link} (attended : L.Attended)
    (waits : L.owner.waits = true) : ∃ t ∈ L.tokens, t.stage ≠ .done := by
  rcases attended.wake waits with some | ⟨t, member, waking⟩
  · obtain ⟨t, live⟩ := Multiset.exists_mem_of_ne_zero some
    obtain ⟨member, goes⟩ := Multiset.mem_filter.mp live
    refine ⟨t, member, fun done => ?_⟩
    rw [done] at goes
    cases goes
  · exact ⟨t, member, by simp [waking]⟩

namespace Owner

/-- The last poll has registered its waker, and has not returned with a result. -/
def subscribed (o : Owner) : Bool :=
  match o.pc with
  | .registered _ | .busy _ _ _ | .storing _ _ | .guarded _ _ | .prepared _ _ | .accepted _ => true
  | .dropOverlapped _ | .dropGuard _ | .dropPermit _ => true
  | .out => o.last = some .pending
  | _ => false

variable {i : Nat} {o o' : Owner} {pending : Int} {a : TaskAct} {e : Effect}

/-- Only a registration leads to a poll that has registered. -/
theorem Acts.subscribed (acts : o.Acts i pending a o' e) (other : a ≠ .registerWaker)
    (after : o'.subscribed = true) : o.subscribed = true := by
  cases acts with
  | registerWaker => exact absurd rfl other
  | permit | refusePermit | undoPermit | drop | leaveDrop | dropFields =>
      simp [Owner.subscribed] at after
  | lockOpen pc | lockBusy pc | lockStore pc | storeOpen pc | leaveBusy pc | prepareRequest pc
  | prepareFail pc | submit pc | refuseSubmit pc | forget pc | dropOverlapped pc | collect pc
  | dropGuard pc | dropGuardPanic pc | dropPermit pc => simp [Owner.subscribed, pc]

/-- Only a registration writes the cell of the header. -/
theorem Acts.cell (acts : o.Acts i pending a o' e) (other : a ≠ .registerWaker) :
    o'.header.value.waker = o.header.value.waker := by
  cases acts with
  | registerWaker => exact absurd rfl other
  | _ => rfl

end Owner

namespace World

/-- The cell in the header of owner `i`. -/
def cell (i : Nat) (w : World) : Option Nat := w.owners[i]?.bind fun o => o.header.value.waker

/-- Owner `i` is in a poll that has registered, or parked by it. -/
def subscribed (i : Nat) (w : World) : Bool := (w.owners[i]?.map Owner.subscribed).getD false

/-- The cell of a header after a call on its waker. -/
def cellAfter (i : Nat) (w : World) : Option (Nat × WakerCall) → Option Nat
  | some (j, call) =>
      if j = i then
        match call with
        | .registerByRef waker => some waker
        | .wake => none
      else w.cell i
  | none => w.cell i

variable {w v : World} {a : Action}

/-- A registration is made by the owner of the header. -/
theorem wakerCall_register {i waker : Nat}
    (calls : w.wakerCall a = some (i, .registerByRef waker)) : a = .task i .registerWaker := by
  unfold wakerCall at calls
  split at calls
  · split at calls <;> cases calls
    rfl
  · split at calls
    · obtain ⟨op, -, same⟩ := Option.map_eq_some_iff.mp calls
      cases same
    · cases calls
  · cases calls

/-- A step does to the cell of a header what the call on its waker does. -/
theorem stepped_cell (stepped : w.Stepped a v) (i : Nat) :
    v.cell i = w.cellAfter i (w.wakerCall a) := by
  have modified {k : Nat} {f : Owner → Owner} (owners : v.owners = w.owners.modify k f)
      (same : ∀ o, (f o).header.value.waker = o.header.value.waker) : v.cell i = w.cell i := by
    rw [cell, cell, owners, List.getElem?_modify]
    cases w.owners[i]? with
    | none => rfl
    | some o => by_cases own : k = i <;> simp [own, same]
  cases stepped with
  | @task j o act o' e owner acts =>
      obtain ⟨inside, -⟩ := List.getElem?_eq_some_iff.mp owner
      by_cases register : act = .registerWaker
      · subst register
        cases acts with
        | @registerWaker call waker pc =>
            simp only [wakerCall, owner, Option.map_some, pc, cellAfter]
            by_cases own : j = i
            · subst own
              simp [cell, afterTask, inside, Arc.modify, Header.registerByRef]
            · simp [cell, afterTask, List.getElem?_set_ne own, own]
      · have silent : w.wakerCall (.task j act) = none := by
          cases act <;> first | rfl | exact absurd rfl register
        rw [silent]
        by_cases own : j = i
        · subst own
          simp only [cellAfter, cell, afterTask, List.getElem?_set_self inside, owner,
            Option.bind_some]
          exact acts.cell register
        · simp [cellAfter, cell, afterTask, List.getElem?_set_ne own]
  | complete flight admits => exact modified rfl fun _ => rfl
  | @driver d t act v thread driven =>
      cases driven with
      | @exchange s old release spurious op o pc pointer owner =>
          by_cases own : op.owner = i
          · subst own
            obtain ⟨inside, -⟩ := List.getElem?_eq_some_iff.mp owner
            simp only [wakerCall, cellAfter, cell, List.getElem?_set_self inside, owner,
              Option.bind_some]
            exact o.header.value.unlockExchange_waker old spurious
          · simp [wakerCall, cellAfter, cell, List.getElem?_set_ne own]
      | @wake s op pc pointer =>
          simp only [wakerCall, thread, Option.map_some, pc, pointer, cellAfter, cell,
            List.getElem?_modify]
          by_cases own : op.owner = i
          · cases w.owners[i]? <;> simp [own, Arc.modify, Header.wake]
          · cases w.owners[i]? <;> simp [own]
      | drop pc pointer => exact modified rfl fun _ => rfl
      | _ => rfl
  | @create kind options key =>
      simp only [wakerCall, cellAfter, cell, List.getElem?_append]
      split
      · rfl
      case isFalse outside =>
          rw [List.getElem?_eq_none (Nat.not_lt.mp outside)]
          cases i - w.owners.length <;> simp [Owner.new, Arc.new, Header.new]
  | _ => rfl

/-- Only a registration leads to a poll that has registered. -/
theorem stepped_subscribed (stepped : w.Stepped a v) (i : Nat) (after : v.subscribed i = true) :
    w.subscribed i = true ∨ ∃ waker, w.wakerCall a = some (i, .registerByRef waker) := by
  have modified {k : Nat} {f : Owner → Owner} (owners : v.owners = w.owners.modify k f)
      (same : ∀ o, (f o).subscribed = o.subscribed) : w.subscribed i = true := by
    rw [subscribed, owners, List.getElem?_modify] at after
    rw [subscribed]
    cases owner : w.owners[i]? with
    | none => simp [owner] at after
    | some o =>
        rw [owner] at after
        by_cases own : k = i
        · simpa [own, same] using after
        · simpa [own] using after
  cases stepped with
  | @task j o act o' e owner acts =>
      by_cases own : j = i
      · subst own
        obtain ⟨inside, -⟩ := List.getElem?_eq_some_iff.mp owner
        simp only [subscribed, afterTask, List.getElem?_set_self inside, Option.map_some,
          Option.getD_some] at after
        by_cases register : act = .registerWaker
        · subst register
          cases acts with
          | @registerWaker call waker pc => exact .inr ⟨waker, by simp [wakerCall, owner, pc]⟩
        · exact .inl (by simpa [subscribed, owner] using acts.subscribed register after)
      · rw [subscribed, afterTask, List.getElem?_set_ne own] at after
        exact .inl after
  | complete flight admits => exact .inl (modified rfl fun _ => rfl)
  | @driver d t act v thread driven =>
      refine .inl ?_
      cases driven with
      | @exchange s old release spurious op o pc pointer owner =>
          by_cases own : op.owner = i
          · subst own
            obtain ⟨inside, -⟩ := List.getElem?_eq_some_iff.mp owner
            simp only [subscribed, List.getElem?_set_self inside, Option.map_some,
              Option.getD_some] at after
            rw [subscribed, owner]
            exact after
          · simpa [subscribed, List.getElem?_set_ne own] using after
      | wake pc pointer | drop pc pointer => exact modified rfl fun _ => rfl
      | _ => exact after
  | @create kind options key =>
      rw [subscribed, List.getElem?_append] at after
      split at after
      · exact .inl after
      · cases h : i - w.owners.length <;> simp [h, Owner.new, Owner.subscribed] at after
  | _ => exact .inl after

end World

/-- What a task can see of the waker of a header: which waker it registered, and which
one was woken. -/
inductive Notice
  | registered (waker : Nat)
  | woken (waker : Nat)

/-- The waker registered last was woken since, is to be woken by a call under way, or is
in the cell. -/
def Owed (es : List Notice) (hand : Multiset Nat) (cell : Option Nat) : Prop :=
  ∃ pre waker rest, es = pre ++ .registered waker :: rest ∧ (∀ other, .registered other ∉ rest) ∧
    (.woken waker ∈ rest ∨ waker ∈ hand ∨ cell = some waker)

theorem Owed.register {waker : Nat} {hand : Multiset Nat} {cell : Option Nat} (es : List Notice)
    (kept : waker ∈ hand ∨ cell = some waker) : Owed (es ++ [.registered waker]) hand cell :=
  ⟨es, waker, [], rfl, by simp, .inr kept⟩

theorem Owed.wake {es : List Notice} {hand : Multiset Nat} {cell : Option Nat}
    (owed : Owed es hand cell) : Owed es (hand + (cell.toList : Multiset Nat)) none := by
  obtain ⟨pre, waker, rest, same, last, woken | held | rfl⟩ := owed
  · exact ⟨pre, waker, rest, same, last, .inl woken⟩
  · exact ⟨pre, waker, rest, same, last, .inr (.inl (by simp [held]))⟩
  · exact ⟨pre, waker, rest, same, last, .inr (.inl (by simp))⟩

theorem Owed.deliver {es : List Notice} {hand : Multiset Nat} {cell : Option Nat} {ws : List Nat}
    (owed : Owed es (hand + (ws : Multiset Nat)) cell) : Owed (es ++ ws.map .woken) hand cell := by
  obtain ⟨pre, waker, rest, rfl, last, told⟩ := owed
  refine ⟨pre, waker, rest ++ ws.map .woken, by simp, by simpa using last, ?_⟩
  rcases told with woken | held | stored
  · exact .inl (List.mem_append_left _ woken)
  · rcases Multiset.mem_add.mp held with held | now
    · exact .inr (.inl held)
    · exact .inl (List.mem_append_right _ (List.mem_map_of_mem (Multiset.mem_coe.mp now)))
  · exact .inr (.inr stored)

namespace FineWorld

/-- What happens to the waker of owner `i` in a step. -/
def notices (i : Nat) (f : FineWorld) : FineAct → List Notice
  | .world a =>
      match f.world.wakerCall a with
      | some (j, .registerByRef waker) => if j = i then [.registered waker] else []
      | _ => []
  | .access j k => if j = i then ((f.wakers i).woken (.access k)).map .woken else []

/-- The waker of owner `i` next to the cell of its header, which may still have a waker
that was woken at once. -/
structure Follows (i : Nat) (f : FineWorld) (es : List Notice) (q : WakerCell) : Prop where
  excludes : (f.wakers i).Excludes
  refines : (f.wakers i).Refines q
  entered : (f.wakers i).Entered
  cell : q.header.waker = none ∨ q.header.waker = f.world.cell i
  owed : f.world.subscribed i = true → Owed es q.hand q.header.waker

variable {i : Nat} {f g : FineWorld} {es : List Notice} {q : WakerCell} {a : FineAct}

theorem start_follows (i : Nat) (loops : List Loop) :
    (start loops).Follows i [] WakerCell.new where
  excludes := WakerSystem.start_excludes
  refines := WakerSystem.start_refines
  entered := by simp [WakerSystem.Entered, start, WakerSystem.start]
  cell := .inl rfl
  owed := by simp [start, World.start, World.subscribed]

/-- A step that is nothing to the waker of the owner and to its header. -/
theorem Follows.kept (follows : f.Follows i es q) (same : g.wakers i = f.wakers i)
    (cell : g.world.cell i = f.world.cell i)
    (subscribed : g.world.subscribed i = true → f.world.subscribed i = true) :
    g.Follows i es q where
  excludes := same ▸ follows.excludes
  refines := same ▸ follows.refines
  entered := same ▸ follows.entered
  cell := cell ▸ follows.cell
  owed := fun after => follows.owed (subscribed after)

/-- A step of the system that makes no call on the waker of the owner. -/
theorem Follows.silent {b : Action} (follows : f.Follows i es q)
    (stepped : f.world.Stepped b g.world) (other : ∀ call, f.world.wakerCall b ≠ some (i, call))
    (same : g.wakers i = f.wakers i) : g.Follows i es q := by
  refine follows.kept same ?_ fun after => ?_
  · rw [World.stepped_cell stepped i]
    cases calls : f.world.wakerCall b with
    | none => rfl
    | some made => exact if_neg fun own => other made.2 (by rw [calls, ← own])
  · rcases World.stepped_subscribed stepped i after with before | ⟨waker, calls⟩
    · exact before
    · exact absurd calls (other _)

/-- A call that is made on the waker of the owner. -/
theorem Follows.call {b : Action} {call : WakerCall} (follows : f.Follows i es q)
    (free : f.free b = true) (stepped : f.world.Stepped b g.world)
    (calls : f.world.wakerCall b = some (i, call))
    (enters : (f.wakers i).enter call = some (g.wakers i)) :
    ∃ r, g.Follows i (es ++ f.notices i (.world b)) r := by
  have alone : call ≠ .wake →
      (f.wakers i).frames.all (fun g => g.call = .wake || g.pc = .returned) = true := by
    intro register
    cases call with
    | wake => exact absurd rfl register
    | registerByRef waker =>
        obtain rfl := World.wakerCall_register calls
        exact free
  obtain ⟨r, effect, refines, excludes, entered⟩ :=
    follows.refines.enter follows.excludes follows.entered alone enters
  have cell := World.stepped_cell stepped i
  rw [calls] at cell
  cases call with
  | registerByRef waker =>
      have notices : f.notices i (.world b) = [.registered waker] := by simp [notices, calls]
      rw [notices]
      have cell : g.world.cell i = some waker := cell.trans (if_pos rfl)
      refine ⟨r, excludes, refines, entered, ?_, fun _ => ?_⟩
      · rcases effect with ⟨-, stored⟩ | ⟨-, gone⟩
        · exact .inr (stored.trans cell.symm)
        · exact .inl gone
      · rcases effect with ⟨-, stored⟩ | ⟨taken, -⟩
        · exact .register es (.inr stored)
        · exact .register es (.inl (by simp [taken]))
  | wake =>
      have notices : f.notices i (.world b) = [] := by simp [notices, calls]
      rw [notices, List.append_nil]
      obtain ⟨hand, none⟩ := effect
      refine ⟨r, excludes, refines, entered, .inl none, fun after => ?_⟩
      rcases World.stepped_subscribed stepped i after with before | ⟨waker, register⟩
      · rw [hand, none]
        exact (follows.owed before).wake
      · rw [calls] at register
        cases register

/-- A later access of a call on the waker of the owner. -/
theorem Follows.access {k : Nat} (follows : f.Follows i es q)
    (h : (f.wakers i).next (.access k) = some (g.wakers i)) (world : g.world = f.world) :
    ∃ r, g.Follows i (es ++ f.notices i (.access i k)) r := by
  obtain ⟨r, cell, hand, refines, excludes, entered⟩ :=
    follows.refines.later follows.excludes follows.entered h
  refine ⟨r, excludes, refines, entered, ?_, fun subscribed => ?_⟩
  · rw [cell, world]
    exact follows.cell
  · rw [world] at subscribed
    have owed := follows.owed subscribed
    rw [hand, ← cell] at owed
    simpa [notices] using owed.deliver

/-- Every step keeps the waker of an owner in agreement with its header. -/
theorem Follows.step (follows : f.Follows i es q) (stepped : f.Stepped a g) :
    ∃ r, g.Follows i (es ++ f.notices i a) r := by
  cases stepped with
  | @silent b w free step none =>
      have silent : f.notices i (.world b) = [] := by simp [notices, none]
      rw [silent, List.append_nil]
      exact ⟨q, follows.silent (World.next_stepped step) (by simp [none]) rfl⟩
  | @call b w j call s free step calls enters =>
      by_cases own : j = i
      · subst own
        have same : Function.update f.wakers j s j = s := Function.update_self _ _ _
        exact follows.call free (World.next_stepped step) calls
          (enters.trans (congrArg some same.symm))
      · have silent : f.notices i (.world b) = [] := by
          simp only [notices, calls]
          cases call <;> simp [own]
        rw [silent, List.append_nil]
        refine ⟨q, follows.silent (World.next_stepped step) ?_
          (Function.update_of_ne (Ne.symm own) _ _)⟩
        intro call' calls'
        rw [calls] at calls'
        exact own (Prod.mk.inj (Option.some.inj calls')).1
  | @access j k s accessed =>
      by_cases own : j = i
      · subst own
        have same : Function.update f.wakers j s j = s := Function.update_self _ _ _
        exact follows.access (accessed.trans (congrArg some same.symm)) rfl
      · have silent : f.notices i (.access j k) = [] := if_neg own
        rw [silent, List.append_nil]
        exact ⟨q, follows.kept (Function.update_of_ne (Ne.symm own) _ _) rfl id⟩

/-- The waker of every owner agrees with its header in every run. -/
theorem run_follows {ok : FineWorld → FineAct → Prop} {loops : List Loop} {as : List FineAct}
    (run : Run next ok (start loops) as f) (i : Nat) :
    ∃ q, f.Follows i (observe next (notices i) (start loops) as) q :=
  run.observed (P := fun f es => ∃ q, f.Follows i es q) ⟨_, start_follows i loops⟩
    fun _ _ _ _ ⟨_, follows⟩ _ h => follows.step (next_stepped h)

/-- Nobody waits for a call on a waker when all have returned. -/
theorem free_of_returned (returned : ∀ i, ∀ g ∈ (f.wakers i).frames, g.pc = .returned)
    (b : Action) : f.free b = true := by
  cases b with
  | task i act =>
      simp only [free, List.all_eq_true]
      exact fun g member => by simp [returned i g member]
  | driver d act =>
      simp only [free]
      cases f.wakes d with
      | none => rfl
      | some made =>
          obtain ⟨i, k⟩ := made
          simp only [Option.all_some]
          cases frame : (f.wakers i).frames[k]? with
          | none => rfl
          | some g => simp [returned i g (List.mem_of_getElem? frame)]
  | _ => rfl

/-- The steps of the system in a run. -/
def steps (_ : FineWorld) : FineAct → List Action
  | .world a => [a]
  | .access _ _ => []

/-- The system with its wakers takes steps of the system only. -/
theorem run_steps {ok : FineWorld → FineAct → Prop} {ok' : World → Action → Prop}
    {loops : List Loop} {as : List FineAct} (weaker : ∀ f b, ok f (.world b) → ok' f.world b)
    (run : Run next ok (start loops) as f) :
    Run World.next ok' (World.start loops) (observe next steps (start loops) as) f.world := by
  have seen : ∃ w, Run World.next ok' (World.start loops)
      (observe next steps (start loops) as) w ∧ f.world = w :=
    run.simulated (R := fun f w => f.world = w) rfl fun f a g w same good h => by
      subst same
      cases next_stepped h with
      | silent free step none => exact ⟨_, .single (weaker _ _ good) step, rfl⟩
      | call free step calls enters => exact ⟨_, .single (weaker _ _ good) step, rfl⟩
      | access accessed => exact ⟨_, .nil, rfl⟩
  obtain ⟨w, run, rfl⟩ := seen
  exact run

/-- No poll locks a header with another word than its own, and no thread unlocks one without
a wake while its task waits. -/
def attentive (f : FineWorld) (a : FineAct) : Bool :=
  f.worldStep (fun w b => w.keepsWord b && w.quietUnlock b) a

theorem attentive_steps {as : List FineAct}
    (run : Run next (fun f a => f.attentive a) (start [.main]) as f) :
    World.Reached (fun w a => w.keepsWord a ∧ w.quietUnlock a) World.setup f.world :=
  ⟨_, run_steps (fun f b good => by simpa [attentive, worldStep] using good) run⟩

/-- What is owed to a task that has registered, in terms of the cell of its header. -/
theorem run_owed {ok : FineWorld → FineAct → Prop} {loops : List Loop} {as : List FineAct}
    (run : Run next ok (start loops) as f) (subscribed : f.world.subscribed i = true) :
    Owed (observe next (notices i) (start loops) as) (f.wakers i).hand (f.world.cell i) := by
  obtain ⟨q, follows⟩ := run_follows run i
  obtain ⟨pre, waker, rest, same, last, told⟩ := follows.owed subscribed
  refine ⟨pre, waker, rest, same, last, ?_⟩
  rcases told with woken | held | stored
  · exact .inl woken
  · rw [follows.refines.hand] at held
    exact .inr (.inl held)
  · rcases follows.cell with none | same
    · rw [none] at stored
      cases stored
    · exact .inr (.inr (same ▸ stored))

/-- A parked task has registered. -/
theorem subscribed_of_parked {o : Owner} (owner : f.world.owners[i]? = some o) (pc : o.pc = .out)
    (parked : o.last = some .pending) : f.world.subscribed i = true := by
  simp [World.subscribed, owner, Owner.subscribed, pc, parked]

/-- The operation of a parked task whose waker is in the cell is not yet processed. -/
theorem parked_outstanding {o : Owner} {waker : Nat} {as : List FineAct}
    (run : Run next (fun f a => f.attentive a) (start [.main]) as f)
    (owner : f.world.owners[i]? = some o) (kind : o.kind = .handle) (pc : o.pc = .out)
    (parked : o.last = some .pending) (stored : f.world.cell i = some waker) :
    ∃ t ∈ f.world.tokensOf i, t.stage ≠ .done := by
  have cell : o.header.value.waker = some waker := by simpa [World.cell, owner] using stored
  have waits : o.waits = true := by simp [Owner.waits, Owner.parked, pc, parked, cell]
  exact (World.reached_attended (attentive_steps run) i o owner kind).outstanding waits

/-- In the system with its atomic wakers no wakeup is lost: the waker that a parked task
registered last was woken since, is to be woken by a call under way, or its operation is
not yet processed. -/
theorem parked_waker_owed {o : Owner} {as : List FineAct}
    (run : Run next (fun f a => f.attentive a) (start [.main]) as f)
    (owner : f.world.owners[i]? = some o) (kind : o.kind = .handle) (pc : o.pc = .out)
    (parked : o.last = some .pending) :
    ∃ pre waker rest,
      observe next (notices i) (start [.main]) as = pre ++ .registered waker :: rest ∧
        (∀ other, .registered other ∉ rest) ∧
        (.woken waker ∈ rest ∨ waker ∈ (f.wakers i).hand ∨
          ∃ t ∈ f.world.tokensOf i, t.stage ≠ .done) := by
  obtain ⟨pre, waker, rest, same, last, told⟩ :=
    run_owed run (subscribed_of_parked owner pc parked)
  exact ⟨pre, waker, rest, same, last,
    told.imp_right (Or.imp_right (parked_outstanding run owner kind pc parked))⟩

/-- The accesses of a registration that nobody interrupts. -/
def registers (i k : Nat) : List FineAct :=
  [.world (.task i .registerWaker), .access i k, .access i k]

/-- A poll of a read up to its submission. -/
def pendingRead (waker : Nat) : List FineAct :=
  [.world Schedule.handle, .world (.task 0 (.poll (.pollRead 8) waker))] ++ registers 0 0 ++
    ([Action.task 0 (.lock false)] ++ Schedule.submit 0 ++ [Action.task 0 .forget]).map .world

/-- The packet of this read was unlocked, and the call that wakes its task has just begun. -/
def wakingRead : List FineAct :=
  pendingRead 1 ++
    (.complete 0 (.success 4 [1, 2, 3, 4]) :: (Schedule.drive 0 true).dropLast).map .world

theorem parked_waker_owed_read : ∃ f,
    Run next (fun f a => f.attentive a) (start [.main]) wakingRead f ∧
      ∃ pre waker rest,
        observe next (notices 0) (start [.main]) wakingRead = pre ++ .registered waker :: rest ∧
          (∀ other, .registered other ∉ rest) ∧
          (.woken waker ∈ rest ∨ waker ∈ (f.wakers 0).hand ∨
            ∃ t ∈ f.world.tokensOf 0, t.stage ≠ .done) := by
  have state : ((exec next (fun f a => f.attentive a) (start [.main]) wakingRead).bind fun f =>
      f.world.owners[0]?.map fun o => (o.kind, o.pc, o.last)) =
        some (.handle, .out, some .pending) := by decide
  obtain ⟨f, executed, state⟩ := Option.bind_eq_some_iff.mp state
  obtain ⟨o, owner, same⟩ := Option.map_eq_some_iff.mp state
  simp only [Prod.mk.injEq] at same
  obtain ⟨kind, pc, parked⟩ := same
  exact ⟨f, exec_run executed, parked_waker_owed (exec_run executed) owner kind pc parked⟩

end FineWorld

end Iocp
