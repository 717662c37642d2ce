import Iocp.Waker.System

/-!
# The cell of a header stands for its waker

The system with its atomic wakers takes the steps of the system and no others. Conversely
a run of the system is one in which each call on a waker makes its accesses before anybody
goes on, and then the wakers that are woken are those that are in the cells.
-/

namespace Iocp

open Transition

/-- Nobody is in a call on the waker, and the cell holds what is given. -/
structure WakerSystem.Idle (s : WakerSystem) (cell : Option Nat) : Prop where
  waker : s.waker = ⟨AtomicWaker.waiting, cell⟩
  returned : ∀ g ∈ s.frames, g.pc = .returned

/-- What a call leaves in the cell. -/
def WakerCall.leaves : WakerCall → Option Nat
  | .registerByRef waker => some waker
  | .wake => none

/-- What a call wakes. -/
def WakerCall.wakes (cell : Option Nat) : WakerCall → List Nat
  | .registerByRef _ => []
  | .wake => cell.toList

namespace WakerSystem

variable {s t : WakerSystem} {cell : Option Nat} {k : Nat}

/-- A call that makes its accesses one after the other until a state is reached, with what
they wake. -/
inductive Runs (k : Nat) (t : WakerSystem) : WakerSystem → List Nat → Prop
  | done : Runs k t t []
  | access {s u woken} (rest : Runs k t u woken) (h : s.next (.access k) = some u) :
      Runs k t s (s.woken (.access k) ++ woken)

/-- The access of the call in the last frame. -/
theorem next_last {fs : List WakerFrame} {f : WakerFrame} {a b : AtomicWaker} {pc : WakerPc}
    (access : a.access f = some (b, pc)) :
    (WakerSystem.mk a (fs ++ [f])).next (.access fs.length) =
      some ⟨b, fs ++ [{ f with pc := pc }]⟩ := by
  simp [next, access]

/-- It wakes what the call has in hand. -/
theorem Runs.last {fs : List WakerFrame} {f : WakerFrame} {a b : AtomicWaker} {pc : WakerPc}
    {woken : List Nat} (rest : Runs fs.length t ⟨b, fs ++ [{ f with pc := pc }]⟩ woken)
    (access : a.access f = some (b, pc)) :
    Runs fs.length t ⟨a, fs ++ [f]⟩
      ((match f.pc with
        | .waking waker => [waker]
        | _ => []) ++ woken) := by
  have runs := rest.access (next_last access)
  have same : (WakerSystem.mk a (fs ++ [f])).woken (.access fs.length) =
      match f.pc with
      | .waking waker => [waker]
      | _ => [] := by
    simp only [WakerSystem.woken, List.getElem?_concat_length, Option.map_some]
    cases f.pc <;> rfl
  rwa [same] at runs

/-- On an idle waker a call does what is done to a cell. -/
theorem Idle.settles (idle : s.Idle cell) (call : WakerCall) :
    ∃ u t, s.enter call = some u ∧ Runs s.frames.length t u (call.wakes cell) ∧
      t.Idle call.leaves := by
  obtain ⟨a, fs⟩ := s
  obtain ⟨rfl, returned⟩ := idle
  let at' (word : BitVec 64) (cell : Option Nat) (pc : WakerPc) : WakerSystem :=
    ⟨⟨word, cell⟩, fs ++ [⟨call, pc⟩]⟩
  have ends (cell : Option Nat) : (at' AtomicWaker.waiting cell .returned).Idle cell := by
    refine ⟨rfl, fun h member => ?_⟩
    rcases List.mem_append.mp member with old | new
    · exact returned h old
    · rw [List.mem_singleton.mp new]
  have stops := Runs.done (k := fs.length) (t := at' AtomicWaker.waiting call.leaves .returned)
  cases call with
  | registerByRef waker =>
      have released := stops.last (f := ⟨.registerByRef waker, .release⟩)
        (a := ⟨AtomicWaker.registering, some waker⟩) rfl
      have stored := released.last (f := ⟨.registerByRef waker, .store waker⟩)
        (a := ⟨AtomicWaker.registering, cell⟩) rfl
      refine ⟨_, _, ?_, stored, ends _⟩
      rw [enter, next, Option.bind_some]
      exact next_last rfl
  | wake =>
      -- the last accesses depend on whether there was a waker to wake
      have cleared : Runs fs.length (at' AtomicWaker.waiting none .returned)
          (at' AtomicWaker.waking none (.clear cell)) cell.toList := by
        cases cell with
        | none => exact stops.last (f := ⟨.wake, .clear none⟩) rfl
        | some waker =>
            have woken := stops.last (f := ⟨.wake, .waking waker⟩) rfl
            exact woken.last (f := ⟨.wake, .clear (some waker)⟩) rfl
      have taken := cleared.last (f := ⟨.wake, .take⟩) (a := ⟨AtomicWaker.waking, cell⟩) rfl
      have word : AtomicWaker.waiting ||| AtomicWaker.waking = AtomicWaker.waking := by decide
      have first : AtomicWaker.access ⟨AtomicWaker.waiting, cell⟩ ⟨.wake, .called⟩ =
          some (⟨AtomicWaker.waking, cell⟩, .take) := by
        simp [AtomicWaker.access, AtomicWaker.takeWaker, word]
      refine ⟨_, _, ?_, taken, ends _⟩
      rw [enter, next, Option.bind_some]
      exact next_last first

end WakerSystem

namespace World

/-- The wakers that a step takes out of the cell of a header, with the header. -/
def delivers (w : World) (a : Action) : List (Nat × Nat) :=
  match w.wakerCall a with
  | some (i, call) => (call.wakes (w.cell i)).map fun waker => (i, waker)
  | none => []

end World

namespace FineWorld

variable {loops : List Loop} {f g : FineWorld} {as : List Action} {w v : World}

/-- The wakers that a step wakes, with their headers. -/
def woken (f : FineWorld) : FineAct → List (Nat × Nat)
  | .world _ => []
  | .access i k => ((f.wakers i).woken (.access k)).map fun waker => (i, waker)

/-- Nobody is in a call on a waker, and the wakers hold what is in the cells. -/
def Resolved (f : FineWorld) : Prop := ∀ i, (f.wakers i).Idle (f.world.cell i)

theorem start_resolved (loops : List Loop) : (start loops).Resolved :=
  fun _ => ⟨rfl, by simp [start, WakerSystem.start]⟩

/-- The accesses of a call on one waker are steps of the system with its wakers. -/
theorem run_accesses {s t : WakerSystem} {i k : Nat} {woken : List Nat}
    (runs : WakerSystem.Runs k t s woken) (at' : f.wakers i = s) :
    ∃ bs, Run next anyStep f bs { f with wakers := Function.update f.wakers i t } ∧
      observe next steps f bs = [] ∧
      observe next FineWorld.woken f bs = woken.map fun waker => (i, waker) := by
  induction runs generalizing f with
  | done =>
      refine ⟨[], ?_, rfl, rfl⟩
      rw [← at', Function.update_eq_self]
      exact .nil
  | @access s u woken rest h ih =>
      let g : FineWorld := { f with wakers := Function.update f.wakers i u }
      have step : f.next (.access i k) = some g := by simp [next, at', h, g]
      obtain ⟨bs, run, silent, wakes⟩ := ih (f := g) (Function.update_self i u f.wakers)
      refine ⟨.access i k :: bs, ?_, ?_, ?_⟩
      · have all := (Run.single trivial step).append run
        rwa [Function.update_idem] at all
      · rw [observe, step, Option.elim_some, silent]
        rfl
      · rw [observe, step, Option.elim_some, wakes, FineWorld.woken, at', List.map_append]

/-- Every step of the system can be taken, and the call that it makes can make its accesses
before anything else happens. -/
theorem Resolved.follow {a : Action} (resolved : f.Resolved) (h : f.world.next a = some v) :
    ∃ bs g, Run next anyStep f bs g ∧ observe next steps f bs = [a] ∧
      observe next woken f bs = f.world.delivers a ∧ g.world = v ∧ g.Resolved := by
  have free := free_of_returned (fun i => (resolved i).returned) a
  have cell := World.stepped_cell (World.next_stepped h)
  cases calls : f.world.wakerCall a with
  | none =>
      have step : f.next (.world a) = some { f with world := v } := by simp [next, free, h, calls]
      refine ⟨[.world a], _, .single trivial step, by simp [observe, step, steps], ?_, rfl, ?_⟩
      · simp [observe, step, woken, World.delivers, calls]
      · intro i
        have same : v.cell i = f.world.cell i := by rw [cell i, calls, World.cellAfter]
        exact same.symm ▸ resolved i
  | some made =>
      obtain ⟨i, call⟩ := made
      obtain ⟨u, t, enters, runs, idle⟩ := (resolved i).settles call
      let g : FineWorld := ⟨v, Function.update f.wakers i u, f.wakesAfter i a⟩
      have step : f.next (.world a) = some g := by simp [next, free, h, calls, enters, g]
      obtain ⟨bs, run, silent, wakes⟩ :=
        run_accesses (f := g) runs (Function.update_self i u f.wakers)
      refine ⟨.world a :: bs, _, (Run.single trivial step).append run, ?_, ?_, rfl, ?_⟩
      · rw [observe, step, Option.elim_some, silent]
        rfl
      · rw [observe, step, Option.elim_some, wakes, World.delivers, calls]
        rfl
      · intro j
        have after := cell j
        simp only [calls, World.cellAfter] at after
        by_cases own : i = j
        · subst own
          rw [if_pos rfl] at after
          simp only [Function.update_self]
          rw [after]
          cases call <;> exact idle
        · rw [if_neg own] at after
          simp only [g, Function.update_of_ne (Ne.symm own)]
          exact after.symm ▸ resolved j

/-- The system with its atomic wakers and the system with a cell for each header have the
same runs: what the one does the other does, ends in the same state, and wakes what is in the
cells when nobody comes between the accesses of a call. -/
theorem fine_traces (loops : List Loop) :
    (∀ bs f, Run next anyStep (start loops) bs f →
      Run World.next anyStep (World.start loops) (observe next steps (start loops) bs) f.world) ∧
      ∀ as w, Run World.next anyStep (World.start loops) as w →
        ∃ bs f, Run next anyStep (start loops) bs f ∧
          observe next steps (start loops) bs = as ∧ f.world = w ∧
          observe next woken (start loops) bs =
            observe World.next World.delivers (World.start loops) as := by
  refine ⟨fun bs f run => run_steps (fun _ _ _ => trivial) run, fun as w run => ?_⟩
  suffices ∃ bs f, Run next anyStep (start loops) bs f ∧
      observe next steps (start loops) bs = as ∧ f.world = w ∧ f.Resolved ∧
      observe next woken (start loops) bs =
        observe World.next World.delivers (World.start loops) as by
    obtain ⟨bs, f, fine, same, world, -, wakes⟩ := this
    exact ⟨bs, f, fine, same, world, wakes⟩
  induction run with
  | nil => exact ⟨[], start loops, .nil, rfl, rfl, start_resolved loops, rfl⟩
  | @snoc as w a v before _ h ih =>
      obtain ⟨bs, f, fine, same, rfl, resolved, wakes⟩ := ih
      obtain ⟨cs, g, more, last, woken, world, resolved'⟩ := resolved.follow h
      refine ⟨bs ++ cs, g, fine.append more, ?_, world, resolved', ?_⟩
      · rw [fine.observe_append, same, last]
      · rw [fine.observe_append, wakes, woken, before.observe_snoc]

end FineWorld

end Iocp
