import Mathlib.Algebra.BigOperators.Pi
import Iocp.Progress.Settled
import Iocp.Waker.System

/-!
# The system with its atomic wakers comes to rest

A step of the system may begin a call on a waker, which is worth less than the step.
When nothing more can be done all calls have returned, so no waker is left in the hand of
one, and each task that is parked has been woken.
-/

namespace Iocp

open Totals Transition

/-- A step that begins nothing. -/
def FineAct.settles : FineAct → Bool
  | world a => a.settles
  | access _ _ => true

namespace WakerSystem

/-- The accesses left of all calls on a waker. -/
def left (s : WakerSystem) : Nat := total rank s.frames

variable {s t : WakerSystem} {k : Nat}

theorem left_access (excludes : s.Excludes) (h : s.next (.access k) = some t) :
    t.left < s.left := by
  obtain ⟨f, b, pc, frame, access, rfl⟩ := next_access h
  have fits := excludes.fits f (List.mem_of_getElem? frame)
  have less := rank_access (AtomicWaker.access_accesses fits excludes.known access)
  rw [left, left, total_set _ frame, total_eraseIdx _ frame]
  omega

/-- A call has at most five accesses left after its first one. -/
theorem left_enter {call : WakerCall} (excludes : s.Excludes) (h : s.enter call = some t) :
    t.left ≤ s.left + 5 := by
  obtain ⟨u, made, accessed⟩ := Option.bind_eq_some_iff.mp h
  have less := left_access (excludes.step made) accessed
  cases made
  simp only [left, total_append, total_cons, total_nil, rank] at less ⊢
  omega

/-- A call can always be entered. -/
theorem enter_enabled (s : WakerSystem) (call : WakerCall) : (s.enter call).isSome := by
  simp only [enter, next, Option.bind_some, List.getElem?_concat_length, Option.isSome_map,
    AtomicWaker.access]
  cases call <;> rfl

end WakerSystem

namespace FineWorld

variable {ok : FineWorld → FineAct → Prop} {loops : List Loop} {f g : FineWorld} {a : FineAct}

/-- What the system has to go on with. -/
structure Sound (f : FineWorld) : Prop where
  valid : f.world.Valid
  excludes : ∀ i, (f.wakers i).Excludes
  /-- Calls are made on the wakers of headers. -/
  unused : ∀ i, f.world.owners.length ≤ i → (f.wakers i).frames = []

theorem start_sound (loops : List Loop) : (start loops).Sound where
  valid := World.start_valid loops
  excludes _ := WakerSystem.start_excludes
  unused _ _ := rfl

/-- A call is made on the waker of a header that exists. -/
theorem wakerCall_known {w v : World} {b : Action} {i : Nat} {call : WakerCall}
    (valid : w.Valid) (stepped : w.Stepped b v) (calls : w.wakerCall b = some (i, call)) :
    i < w.owners.length := by
  cases stepped with
  | @task j o act o' e owner acts =>
      obtain ⟨inside, -⟩ := List.getElem?_eq_some_iff.mp owner
      cases acts with
      | registerWaker pc =>
          simp only [World.wakerCall, owner, Option.map_some, pc] at calls
          cases calls
          exact inside
      | _ => cases calls
  | @driver d t act v thread driven =>
      cases driven with
      | @wake s op pc pointer =>
          simp only [World.wakerCall, thread, Option.map_some, pc, pointer] at calls
          cases calls
          exact (valid.statuses t (List.mem_of_getElem? thread) s (by rw [pc]; rfl) op pointer).2.2
      | _ => cases calls
  | _ => cases calls

theorem Sound.step (sound : f.Sound) (stepped : f.Stepped a g) : g.Sound := by
  obtain ⟨valid, excludes, unused⟩ := sound
  have empty {i j : Nat} {s : WakerSystem} (apart : j ≠ i) (none : (f.wakers j).frames = []) :
      (Function.update f.wakers i s j).frames = [] := by
    rw [Function.update_of_ne apart]
    exact none
  have updated {i : Nat} {s : WakerSystem} (kept : s.Excludes) (j : Nat) :
      (Function.update f.wakers i s j).Excludes := by
    by_cases own : j = i
    · rw [own, Function.update_self]
      exact kept
    · rw [Function.update_of_ne own]
      exact excludes j
  cases stepped with
  | silent free step none =>
      have stepped := World.next_stepped step
      exact ⟨World.stepped_valid valid stepped, excludes,
        fun i outside => unused i ((World.stepped_length stepped).trans outside)⟩
  | @call b w i call s free step calls enters =>
      have stepped := World.next_stepped step
      have known := wakerCall_known valid stepped calls
      have more := World.stepped_length stepped
      obtain ⟨u, made, accessed⟩ := Option.bind_eq_some_iff.mp enters
      refine ⟨World.stepped_valid valid stepped,
        updated (((excludes i).step made).step accessed), fun j outside => ?_⟩
      have apart : j ≠ i := by
        rintro rfl
        exact absurd (more.trans outside) (not_le.mpr known)
      exact empty apart (unused j (more.trans outside))
  | @access i k s accessed =>
      refine ⟨valid, updated ((excludes i).step accessed), fun j outside => ?_⟩
      have apart : j ≠ i := by
        rintro rfl
        obtain ⟨h, -, -, frame, -⟩ := WakerSystem.next_access accessed
        simp [unused j outside] at frame
      exact empty apart (unused j outside)

theorem reached_sound (reach : Reaches next ok (start loops) f) : f.Sound :=
  reach.invariant (start_sound loops) fun _ _ _ sound _ h => sound.step (next_stepped h)

/-- The accesses left of all calls on wakers. -/
def left (f : FineWorld) : Nat := ∑ i ∈ Finset.range f.world.owners.length, (f.wakers i).left

/-- How far the system with its wakers is from rest. -/
def rank (f : FineWorld) : Nat := 6 * f.world.rank + f.left

/-- One waker is stepped, the others have as much left as before. -/
theorem left_update {i : Nat} (inside : i < f.world.owners.length) (w : World)
    (same : w.owners.length = f.world.owners.length) (s : WakerSystem)
    (wakes : Nat → Option (Nat × Nat)) :
    (FineWorld.mk w (Function.update f.wakers i s) wakes).left + (f.wakers i).left =
      f.left + s.left := by
  have member : i ∈ Finset.range f.world.owners.length := Finset.mem_range.mpr inside
  rw [left, left, same, ← Finset.add_sum_erase _ _ member, ← Finset.add_sum_erase _ _ member]
  have others : ∑ j ∈ (Finset.range f.world.owners.length).erase i,
      (Function.update f.wakers i s j).left =
        ∑ j ∈ (Finset.range f.world.owners.length).erase i, (f.wakers j).left :=
    Finset.sum_congr rfl fun j other => by
      rw [Function.update_of_ne (Finset.ne_of_mem_erase other)]
  simp only [Function.update_self, others]
  omega

/-- Every step that begins nothing brings the system with its wakers closer to rest. -/
theorem settles_lowers : Lowers next (fun f a => a.settles = true ∧ f.Sound) (fun _ => true)
    rank := by
  rintro f a g ⟨settles, sound⟩ h
  change 6 * g.world.rank + g.left + 1 ≤ 6 * f.world.rank + f.left
  have lower {b : Action} {w : World} (settles : b.settles = true)
      (step : f.world.next b = some w) : w.rank + 1 ≤ f.world.rank ∧
        w.owners.length = f.world.owners.length := by
    refine ⟨World.settles_lowers _ _ _ settles (World.next_eq_some.mp step).1, ?_⟩
    refine World.stepped_owners (World.next_stepped step) ?_
    rintro kind options rfl
    cases settles
  cases next_stepped h with
  | @silent b w free step none =>
      obtain ⟨less, same⟩ := lower settles step
      have kept : (FineWorld.mk w f.wakers f.wakes).left = f.left := by simp only [left, same]
      change 6 * w.rank + (FineWorld.mk w f.wakers f.wakes).left + 1 ≤ _
      omega
  | @call b w i call s free step calls enters =>
      obtain ⟨less, same⟩ := lower settles step
      have inside := wakerCall_known sound.valid (World.next_stepped step) calls
      have more := WakerSystem.left_enter (sound.excludes i) enters
      have moved := left_update inside w same s (f.wakesAfter i b)
      change 6 * w.rank + _ + 1 ≤ _
      omega
  | @access i k s accessed =>
      have inside : i < f.world.owners.length := by
        by_contra outside
        obtain ⟨h, -, -, frame, -⟩ := WakerSystem.next_access accessed
        simp [sound.unused i (not_lt.mp outside)] at frame
      have less := WakerSystem.left_access (sound.excludes i) accessed
      have moved := left_update inside f.world rfl s f.wakes
      change 6 * f.world.rank + _ + 1 ≤ _
      omega

/-- Nothing is under way, and every call on a waker has returned. -/
structure Quiet (f : FineWorld) : Prop where
  world : f.world.Quiet
  calls : ∀ i, ∀ g ∈ (f.wakers i).frames, g.pc = .returned

/-- A system with its wakers that can do nothing more is quiet. -/
theorem stuck_quiet (reach : Reaches next ok (start loops) f)
    (stuck : ∀ a : FineAct, a.settles = true → f.next a = none) : f.Quiet := by
  have sound := reached_sound reach
  have returned : ∀ i, ∀ g ∈ (f.wakers i).frames, g.pc = .returned := by
    intro i g member
    by_contra going
    obtain ⟨k, frame⟩ := List.getElem?_of_mem member
    have enabled := (WakerSystem.access_enabled (sound.excludes i) frame).mpr going
    have none := stuck (.access i k) rfl
    simp only [next, Option.map_eq_none_iff] at none
    simp [none] at enabled
  refine ⟨?_, returned⟩
  obtain ⟨as, run⟩ := reach
  have reached : World.Reached anyStep (World.start loops) f.world :=
    ⟨_, run_steps (fun _ _ _ => trivial) run⟩
  refine World.stuck_quiet reached ?_
  intro b settles
  by_contra possible
  obtain ⟨w, step⟩ := Option.ne_none_iff_exists'.mp possible
  have none := stuck (.world b) settles
  simp only [next, free_of_returned returned b, if_true, step, Option.bind_some] at none
  cases calls : f.world.wakerCall b with
  | none => simp [calls] at none
  | some made =>
      obtain ⟨i, call⟩ := made
      have enabled := WakerSystem.enter_enabled (f.wakers i) call
      simp only [calls, Option.map_eq_none_iff] at none
      simp [none] at enabled

/-- The system comes to rest also when calls on wakers are cut at their accesses: each run
that begins nothing new is bounded, one of them ends in a quiet system, and so does every run
after which nothing more can be done. -/
theorem fine_settles (reach : Reaches next ok (start loops) f) :
    (∀ as g, Run next (fun _ a => a.settles = true) f as g → as.length ≤ f.rank) ∧
      (∃ as g, Run next (fun _ a => a.settles = true) f as g ∧ g.Quiet) ∧
      ∀ as g, Run next (fun _ a => a.settles = true) f as g →
        (∀ a : FineAct, a.settles = true → g.next a = none) → g.Quiet := by
  have sound := reached_sound reach
  have reached {as : List FineAct} {g : FineWorld}
      (run : Run next (fun _ a => a.settles = true) f as g) :
      Reaches next anyStep (start loops) g :=
    Reaches.trans ⟨_, reach.choose_spec.anyStep⟩ ⟨as, run.anyStep⟩
  refine ⟨fun as g run => ?_, ?_, fun as g run stuck => stuck_quiet (reached run) stuck⟩
  · have bound := settles_lowers.length_le
      (run.forward sound fun _ _ _ sound _ h => sound.step (next_stepped h))
    omega
  · obtain ⟨as, g, run, stuck⟩ := settles_lowers.exists_stuck f
    have run := run.weaken fun _ _ good => good.1
    refine ⟨as, g, run, stuck_quiet (reached run) fun a settles => ?_⟩
    exact stuck a ⟨settles, reached_sound (reached run)⟩

/-- The call that wakes the task of a read has begun, and the system comes to rest. -/
theorem fine_settles_read : ∃ f as g,
    Run next anyStep (start [.main]) wakingRead f ∧
      Run next (fun _ a => a.settles = true) f as g ∧ g.Quiet ∧ as.length ≤ f.rank := by
  obtain ⟨f, executed⟩ : ∃ f, exec next anyStep (start [.main]) wakingRead = some f :=
    Option.isSome_iff_exists.mp (by decide)
  obtain ⟨bound, ⟨as, g, run, quiet⟩, -⟩ := fine_settles ⟨wakingRead, exec_run executed⟩
  exact ⟨f, as, g, exec_run executed, run, quiet, bound as g run⟩

/-- When nothing more can be done and a thread still drives the port, the waker that a parked
task of a handle registered last has been woken since. -/
theorem settled_wakers_woken {i : Nat} {o : Owner} {as : List FineAct}
    (run : Run next (fun f a => f.attentive a) (start [.main]) as f)
    (stuck : ∀ a : FineAct, a.settles = true → f.next a = none)
    (running : ∃ t ∈ f.world.drivers, ∀ r, t.loop ≠ .returned r)
    (owner : f.world.owners[i]? = some o) (kind : o.kind = .handle) (alive : o.pc ≠ .dropped)
    (parked : o.last = some .pending) :
    ∃ pre waker rest,
      observe next (notices i) (start [.main]) as = pre ++ .registered waker :: rest ∧
        (∀ other, .registered other ∉ rest) ∧ .woken waker ∈ rest := by
  have quiet := stuck_quiet ⟨as, run⟩ stuck
  have pc : o.pc = .out := (quiet.world.calls o (List.mem_of_getElem? owner)).resolve_right alive
  obtain ⟨pre, waker, rest, same, last, told⟩ :=
    run_owed run (subscribed_of_parked owner pc parked)
  refine ⟨pre, waker, rest, same, last, ?_⟩
  rcases told with woken | held | stored
  · exact woken
  · have none : (f.wakers i).hand = 0 :=
      total_eq_zero fun g member => by simp [WakerFrame.hand, quiet.calls i g member]
    simp [none] at held
  · obtain ⟨t, member, -⟩ := parked_outstanding run owner kind pc parked stored
    rw [quiet.world.no_tokens running i] at member
    exact absurd member (Multiset.notMem_zero t)

/-- The system is at rest and so are the wakers of its headers. -/
def resting (f : FineWorld) : Bool :=
  f.world.resting && (List.range f.world.owners.length).all fun i =>
    (f.wakers i).frames.all fun g => g.pc = .returned

/-- A system at rest can do nothing more. -/
theorem resting_stuck (sound : f.Sound) (rests : f.resting = true) (a : FineAct)
    (settles : a.settles = true) : f.next a = none := by
  simp only [resting, Bool.and_eq_true, List.all_eq_true, List.mem_range, decide_eq_true_eq]
    at rests
  by_contra possible
  obtain ⟨g, h⟩ := Option.ne_none_iff_exists'.mp possible
  cases next_stepped h with
  | silent free step none | call free step calls enters =>
      simp [World.resting_stuck rests.1 _ settles] at step
  | @access i k s accessed =>
      obtain ⟨h, b, pc, frame, access, -⟩ := WakerSystem.next_access accessed
      have member := List.mem_of_getElem? frame
      have inside : i < f.world.owners.length := by
        by_contra outside
        rw [sound.unused i (not_lt.mp outside)] at member
        cases member
      simp [AtomicWaker.access, rests.2 i inside h member] at access

/-- The rest of the call that wakes the task of the read. -/
def wokenRead : List FineAct :=
  wakingRead ++ List.replicate 3 (.access 0 1) ++ [.world (.driver 0 .drop)]

theorem settled_wakers_woken_read : ∃ f,
    Run next (fun f a => f.attentive a) (start [.main]) wokenRead f ∧ f.resting = true ∧
      ∃ pre waker rest,
        observe next (notices 0) (start [.main]) wokenRead = pre ++ .registered waker :: rest ∧
          (∀ other, .registered other ∉ rest) ∧ .woken waker ∈ rest := by
  have state : ((exec next (fun f a => f.attentive a) (start [.main]) wokenRead).bind fun f =>
      f.world.owners[0]?.map fun o =>
        (f.resting, f.world.drivers.map Driver.loop, o.kind, o.pc, o.last)) =
        some (true, [.main], .handle, .out, some .pending) := by decide
  obtain ⟨f, executed, state⟩ := Option.bind_eq_some_iff.mp state
  obtain ⟨o, owner, same⟩ := Option.map_eq_some_iff.mp state
  simp only [Prod.mk.injEq] at same
  obtain ⟨rests, drivers, kind, pc, parked⟩ := same
  have run := exec_run executed
  obtain ⟨t, single, loop⟩ := List.map_eq_singleton_iff.mp drivers
  exact ⟨f, run, rests, settled_wakers_woken run
    (resting_stuck (reached_sound ⟨wokenRead, run⟩) rests)
    ⟨t, by simp [single], by simp [loop]⟩ owner kind (by simp [pc]) parked⟩

end FineWorld

end Iocp
