import Iocp.Waker.Refinement

/-!
# Every call takes effect once

A call takes effect between its invocation and its return. Only a registration
that meets another one has none, and none is met when registrations come one
after the other. A call never waits for another one.
-/

namespace Iocp

open Totals Transition

namespace WakerCell

/-- The operations of one call. -/
def opsOf (i : Nat) (es : List (Nat × WakerOp)) : List WakerOp :=
  (es.filter fun e => e.1 = i).map Prod.snd

@[simp] theorem opsOf_append (i : Nat) (ds es : List (Nat × WakerOp)) :
    opsOf i (ds ++ es) = opsOf i ds ++ opsOf i es := by
  simp [opsOf]

@[simp] theorem opsOf_self (i : Nat) (ops : List WakerOp) :
    opsOf i (ops.map (Prod.mk i)) = ops := by
  simp [opsOf, List.filter_map, Function.comp_def]

theorem opsOf_other {i j : Nat} (h : j ≠ i) (ops : List WakerOp) :
    opsOf i (ops.map (Prod.mk j)) = [] := by
  simp [opsOf, List.filter_map, Function.comp_def, h]

end WakerCell

namespace WakerFrame

/-- The operations that a call has made, from where it stands. A waker is woken last. -/
inductive Made : WakerFrame → List WakerOp → Prop
  | called {call} : Made ⟨call, .called⟩ []
  /-- The registration was dropped. -/
  | refused {waker} : Made ⟨.registerByRef waker, .returned⟩ []
  | registering {waker pc} (holds : pc.holds = true) :
      Made ⟨.registerByRef waker, pc⟩ [.register waker]
  | registered {waker} : Made ⟨.registerByRef waker, .returned⟩ [.register waker]
  /-- The registration will wake its own waker, for a wake that came in between. -/
  | interrupted {waker} : Made ⟨.registerByRef waker, .waking waker⟩ [.register waker]
  | relayed {waker} : Made ⟨.registerByRef waker, .returned⟩ [.register waker, .deliver waker]
  /-- The registration has met a wake and will wake its own waker. -/
  | met {waker} : Made ⟨.registerByRef waker, .waking waker⟩ [.register waker, .wake]
  | repeated {waker} :
      Made ⟨.registerByRef waker, .returned⟩ [.register waker, .wake, .deliver waker]
  | taking {pc} (holds : pc.holds = true) : Made ⟨.wake, pc⟩ [.wake]
  | taken {waker} : Made ⟨.wake, .waking waker⟩ [.wake]
  | empty : Made ⟨.wake, .returned⟩ [.wake]
  | woken {waker} : Made ⟨.wake, .returned⟩ [.wake, .deliver waker]

variable {a b : AtomicWaker} {f : WakerFrame} {pc : WakerPc} {ops : List WakerOp}

/-- A registration that holds the cell has registered its waker. -/
theorem Made.holding {waker : Nat} (made : f.Made ops) (call : f.call = .registerByRef waker)
    (holds : f.pc.holds = true) : ops = [.register waker] := by
  cases made with
  | registering _ =>
      cases call
      rfl
  | taking _ => cases call
  | _ => cases holds

/-- A wake that holds the cell has taken effect. -/
theorem Made.locked (made : f.Made ops) (call : f.call = .wake) (holds : f.pc.holds = true) :
    ops = [.wake] := by
  cases made with
  | registering _ => cases call
  | taking _ => rfl
  | _ => cases holds

/-- An access adds its operations to those of its call. -/
theorem Made.access (made : f.Made ops) (fits : f.Fits a) (accesses : a.Accesses f b pc) :
    Made { f with pc := pc } (ops ++ f.effects a) := by
  cases accesses with
  | acquire idle =>
      cases made with
      | called => simpa [effects, idle] using .registering rfl
      | registering holds => cases holds
  | meet busy =>
      cases made with
      | called => simpa [effects, busy] using .met
      | registering holds => cases holds
  | refuse busy =>
      cases made with
      | called => rcases busy with busy | busy <;> simpa [effects, busy] using .refused
      | registering holds => cases holds
  | store =>
      obtain ⟨rfl, -⟩ := fits
      cases made.holding rfl rfl
      exact .registering rfl
  | release word =>
      obtain ⟨-, waker, rfl, -⟩ := fits
      cases made.holding rfl rfl
      exact .registered
  | interrupted word =>
      obtain ⟨-, waker, rfl, -⟩ := fits
      cases made.holding rfl rfl
      exact .registering rfl
  | takeBack stored =>
      obtain ⟨-, waker, rfl, -⟩ := fits
      cases made.holding rfl rfl
      exact .registering rfl
  | swap =>
      obtain ⟨rfl, -⟩ := fits
      cases made.holding rfl rfl
      exact .interrupted
  | lock idle =>
      cases made with
      | called => exact .taking rfl
      | taking holds => cases holds
  | signal busy =>
      cases made with
      | called => exact .empty
      | taking holds => cases holds
  | take =>
      obtain ⟨rfl, -⟩ := fits
      cases made.locked rfl rfl
      exact .taking rfl
  | @clear call taken word =>
      obtain ⟨rfl, -⟩ := fits
      cases made.locked rfl rfl
      cases taken with
      | none => exact .empty
      | some waker => exact .taken
  | waking =>
      cases made with
      | interrupted => exact .relayed
      | met => exact .repeated
      | taken => exact .woken
      | registering holds | taking holds => cases holds

end WakerFrame

namespace WakerSystem

/-- Every call has made the operations that it is to make up to where it stands. -/
structure Records (s : WakerSystem) (es : List (Nat × WakerOp)) : Prop where
  made : ∀ (i : Nat) (f : WakerFrame), s.frames[i]? = some f → f.Made (WakerCell.opsOf i es)
  fresh : ∀ i, s.frames.length ≤ i → WakerCell.opsOf i es = []

variable {s t : WakerSystem} {as : List WakerAct} {es : List (Nat × WakerOp)} {a : WakerAct}
  {i : Nat} {f : WakerFrame}

theorem Records.step (records : s.Records es) (excludes : s.Excludes) (h : s.next a = some t) :
    t.Records (es ++ s.effects a) := by
  cases a with
  | call call =>
      cases h
      rw [effects, List.append_nil]
      constructor
      · intro i f frame
        rw [List.getElem?_append] at frame
        split at frame
        case isTrue => exact records.made i f frame
        case isFalse beyond =>
            rw [records.fresh i (not_lt.mp beyond)]
            cases List.mem_singleton.mp (List.mem_of_getElem? frame)
            exact .called
      · intro i beyond
        exact records.fresh i (by simp at beyond; omega)
  | access j =>
      obtain ⟨g, b, pc, frame, access, rfl⟩ := next_access h
      have member := List.mem_of_getElem? frame
      have accesses :=
        AtomicWaker.access_accesses (excludes.fits g member) excludes.known access
      have bound := (List.getElem?_eq_some_iff.mp frame).1
      have own : s.effects (.access j) = (g.effects s.waker).map (Prod.mk j) := by
        simp only [effects, frame]
      constructor
      · intro i f frame'
        by_cases same : j = i
        · subst same
          rw [List.getElem?_set_self bound] at frame'
          cases frame'
          rw [own, WakerCell.opsOf_append, WakerCell.opsOf_self]
          exact (records.made j g frame).access (excludes.fits g member) accesses
        · rw [List.getElem?_set_ne same] at frame'
          rw [own, WakerCell.opsOf_append, WakerCell.opsOf_other same, List.append_nil]
          exact records.made i f frame'
      · intro i beyond
        rw [List.length_set] at beyond
        rw [own, WakerCell.opsOf_append, WakerCell.opsOf_other (by omega), List.append_nil]
        exact records.fresh i beyond

theorem run_records (run : Run next anyStep start as s) :
    s.Records (observe next effects start as) :=
  (run.observed (P := fun s es => s.Records es ∧ s.Excludes)
    ⟨⟨by simp [start], fun _ _ => rfl⟩, start_excludes⟩
    fun _ _ _ _ both _ h => ⟨both.1.step both.2 h, both.2.step h⟩).1

/-- A registration begins when every earlier one has returned. -/
def serial (s : WakerSystem) : WakerAct → Bool
  | .call (.registerByRef _) => s.frames.all fun f => f.call = .wake || f.pc = .returned
  | _ => true

/-- The registrations under way. -/
def registering (f : WakerFrame) : Nat := if f.call = .wake ∨ f.pc = .returned then 0 else 1

/-- The step of a call neither begins it again nor changes what it is. -/
theorem registering_step {b : AtomicWaker} {pc : WakerPc}
    (access : s.waker.access f = some (b, pc)) :
    registering { f with pc := pc } ≤ registering f := by
  by_cases wake : f.call = .wake
  · simp [registering, wake]
  · have going : f.pc ≠ .returned := by
      intro returned
      simp [AtomicWaker.access, returned] at access
    simp only [registering, wake, going, or_self, if_false]
    split <;> omega

/-- One registration at a time is under way. -/
theorem serial_one (run : Run next (fun s a => s.serial a) start as s) :
    total registering s.frames ≤ 1 := by
  refine run.invariant (P := fun s => total registering s.frames ≤ 1) (by simp [start]) ?_
  rintro s a t one good h
  cases a with
  | call call =>
      cases h
      cases call with
      | wake => simpa [registering] using one
      | registerByRef waker =>
          have none : total registering s.frames = 0 := by
            refine total_eq_zero fun f member => ?_
            simp only [serial, List.all_eq_true, Bool.or_eq_true, decide_eq_true_eq] at good
            exact if_pos (good f member)
          simp [none, registering]
  | access i =>
      obtain ⟨f, b, pc, frame, access, rfl⟩ := next_access h
      rw [total_set _ frame]
      rw [total_eraseIdx _ frame] at one
      have less := registering_step access
      omega

/-- A call that holds the cell for a registration is one. -/
theorem registering_holder (excludes : s.Excludes) (frame : s.frames[i]? = some f)
    (holds : f.pc.holds = true) (word : s.waker.state ≠ AtomicWaker.waking) :
    registering f = 1 := by
  have fits := excludes.fits f (List.mem_of_getElem? frame)
  obtain ⟨call, pc⟩ := f
  cases pc with
  | store waker =>
      obtain ⟨rfl, -⟩ := fits
      rfl
  | release =>
      obtain ⟨-, waker, rfl, -⟩ := fits
      rfl
  | takeBack =>
      obtain ⟨-, waker, rfl, -⟩ := fits
      rfl
  | swap waker =>
      obtain ⟨rfl, -⟩ := fits
      rfl
  | take => exact absurd fits.2 word
  | clear taken => exact absurd fits.2.1 word
  | _ => cases holds

/-- No registration finds another one under way. -/
theorem serial_free {waker : Nat} (run : Run next (fun s a => s.serial a) start as s)
    (frame : s.frames[i]? = some ⟨.registerByRef waker, .called⟩) :
    s.waker.state = AtomicWaker.waiting ∨ s.waker.state = AtomicWaker.waking := by
  have excludes := reached_excludes ⟨as, run.anyStep⟩
  have one := serial_one run
  rw [total_eraseIdx _ frame] at one
  by_contra busy
  obtain ⟨idle, awake⟩ := not_or.mp busy
  obtain ⟨g, member, holds⟩ := excludes.holder idle
  obtain ⟨j, frame'⟩ := List.getElem?_of_mem member
  have other : g ∈ s.frames.eraseIdx i := by
    refine List.mem_eraseIdx_iff_getElem?.mpr ⟨j, ?_, frame'⟩
    rintro rfl
    cases Option.some.inj (frame.symm.trans frame')
    cases holds
  have none : total registering (s.frames.eraseIdx i) = 0 := by
    change 1 + _ ≤ 1 at one
    omega
  have zero := eq_zero_of_total none other
  rw [registering_holder excludes frame' holds awake] at zero
  cases zero

/-- What a call has done when registrations come one after the other. -/
structure Settles (f : WakerFrame) (ops : List WakerOp) : Prop where
  called : f.pc = .called ↔ ops = []
  register : ∀ waker, f.call = .registerByRef waker → f.pc ≠ .called →
    ops = [.register waker] ∨ ops = [.register waker, .deliver waker] ∨
      ops = [.register waker, .wake] ∨ ops = [.register waker, .wake, .deliver waker]
  wake : f.call = .wake → f.pc ≠ .called → ops = [.wake] ∨ ∃ waker, ops = [.wake, .deliver waker]

/-- A call that was not dropped has taken effect. -/
theorem made_settles {ops : List WakerOp} (made : f.Made ops)
    (kept : f.pc ≠ .called → ops ≠ []) : Settles f ops := by
  cases made with
  | called => exact ⟨by simp, by simp, by simp⟩
  | refused => simp at kept
  | registering holds | taking holds =>
      refine ⟨?_, by simp, by simp⟩
      constructor
      · rintro rfl
        cases holds
      · simp
  | _ => exact ⟨by simp, by simp, by simp⟩

/-- An access that is not refused is an effect of its call. -/
theorem effects_called {waker : AtomicWaker} (called : f.pc = .called)
    (free : ∀ other, f = ⟨.registerByRef other, .called⟩ →
      waker.state = AtomicWaker.waiting ∨ waker.state = AtomicWaker.waking) :
    f.effects waker ≠ [] := by
  obtain ⟨call, pc⟩ := f
  cases called
  cases call with
  | registerByRef other =>
      rcases free other rfl with word | word <;> simp [WakerFrame.effects, word]
  | wake => simp [WakerFrame.effects]

/-- No call is dropped. -/
theorem serial_kept (run : Run next (fun s a => s.serial a) start as s) :
    ∀ i f, s.frames[i]? = some f → f.pc ≠ .called →
      WakerCell.opsOf i (observe next effects start as) ≠ [] := by
  induction run with
  | nil => simp [start]
  | @snoc as s a t before good h ih =>
      rw [before.observe_snoc]
      intro i f frame begun
      cases a with
      | call call =>
          cases h
          rw [List.getElem?_append] at frame
          split at frame
          case isTrue => simpa [effects] using ih i f frame begun
          case isFalse =>
              cases List.mem_singleton.mp (List.mem_of_getElem? frame)
              exact absurd rfl begun
      | access j =>
          obtain ⟨g, b, pc, frame', access, rfl⟩ := next_access h
          by_cases same : j = i
          · subst same
            have own : s.effects (.access j) = (g.effects s.waker).map (Prod.mk j) := by
              simp only [effects, frame']
            rw [own, WakerCell.opsOf_append, WakerCell.opsOf_self]
            by_cases called : g.pc = .called
            · refine List.append_ne_nil_of_right_ne_nil _ (effects_called called ?_)
              rintro waker rfl
              exact serial_free before frame'
            · exact List.append_ne_nil_of_left_ne_nil (ih j g frame' called) _
          · rw [List.getElem?_set_ne same] at frame
            rw [WakerCell.opsOf_append]
            exact List.append_ne_nil_of_left_ne_nil (ih i f frame begun) _

/-- The accesses that a call makes at most before it returns. -/
def rank (f : WakerFrame) : Nat :=
  match f.pc with
  | .called => 6
  | .store _ => 5
  | .release => 4
  | .takeBack => 3
  | .swap _ => 2
  | .take => 3
  | .clear _ => 2
  | .waking _ => 1
  | .returned => 0
  | .panicked => 0

theorem rank_le (f : WakerFrame) : rank f ≤ 6 := by
  unfold rank
  split <;> omega

theorem rank_access {a b : AtomicWaker} {pc : WakerPc} (accesses : a.Accesses f b pc) :
    rank { f with pc := pc } < rank f := by
  cases accesses with
  | @clear call taken word => cases taken <;> simp [rank]
  | _ => simp [rank]

/-- A call takes its own steps and no others. -/
theorem rank_run {bs : List WakerAct} (reach : Reaches next anyStep start s)
    (run : Run next anyStep s bs t) (frame : s.frames[i]? = some f) :
    ∃ g, t.frames[i]? = some g ∧ g.call = f.call ∧ bs.count (.access i) + rank g ≤ rank f := by
  induction run with
  | nil => exact ⟨f, frame, rfl, by simp⟩
  | @snoc bs u a v before _ h ih =>
      obtain ⟨g, frame', call, bound⟩ := ih
      have excludes := reached_excludes (reach.trans ⟨bs, before⟩)
      rw [List.count_append, List.count_singleton]
      cases a with
      | call call' =>
          cases h
          have here := (List.getElem?_eq_some_iff.mp frame').1
          exact ⟨g, by rw [List.getElem?_append_left here, frame'], call, by simpa using bound⟩
      | access j =>
          obtain ⟨k, b, pc, frame'', access, rfl⟩ := next_access h
          by_cases same : j = i
          · subst same
            cases frame'.symm.trans frame''
            have here := (List.getElem?_eq_some_iff.mp frame').1
            have less := rank_access (AtomicWaker.access_accesses
              (excludes.fits g (List.mem_of_getElem? frame')) excludes.known access)
            refine ⟨_, List.getElem?_set_self here, call, ?_⟩
            simp only [BEq.rfl, if_true]
            omega
          · refine ⟨g, by rw [List.getElem?_set_ne same, frame'], call, ?_⟩
            simpa [same] using bound

/-- A call can make its next access until it has returned. -/
theorem access_enabled (excludes : s.Excludes) (frame : s.frames[i]? = some f) :
    (s.next (.access i)).isSome ↔ f.pc ≠ .returned := by
  have sound := excludes.sound f (List.mem_of_getElem? frame)
  obtain ⟨call, pc⟩ := f
  simp only [next, frame, Option.isSome_map, AtomicWaker.access]
  cases pc with
  | called => cases call <;> simp
  | panicked => exact absurd rfl sound
  | _ => simp

/-- No call waits for another: one that has not returned can make its next access, and it
returns with its sixth at the latest, whatever the others do in between. -/
theorem wait_free {bs : List WakerAct} (reach : Reaches next anyStep start s)
    (run : Run next anyStep s bs t) (frame : s.frames[i]? = some f) :
    ∃ g, t.frames[i]? = some g ∧ bs.count (.access i) ≤ 6 ∧
      ((t.next (.access i)).isSome ↔ g.pc ≠ .returned) ∧
      (6 ≤ bs.count (.access i) → g.pc = .returned) := by
  obtain ⟨g, frame', -, bound⟩ := rank_run reach run frame
  have bounded := rank_le f
  have excludes := reached_excludes (reach.trans ⟨bs, run⟩)
  have sound := excludes.sound g (List.mem_of_getElem? frame')
  refine ⟨g, frame', by omega, access_enabled excludes frame', fun spent => ?_⟩
  have done : rank g = 0 := by omega
  obtain ⟨call, pc⟩ := g
  cases pc with
  | returned => rfl
  | panicked => exact absurd rfl sound
  | _ => cases done

/-- The registration of `interrupted` has three accesses left. -/
theorem wait_free_interrupted : ∃ s t g, Run next anyStep start interrupted s ∧
    Run next anyStep s (List.replicate 3 (.access 0)) t ∧ t.frames[0]? = some g ∧
      ((t.next (.access 0)).isSome ↔ g.pc ≠ .returned) := by
  obtain ⟨s, t, executed, rest, frame⟩ : ∃ s t, exec next anyStep start interrupted = some s ∧
      exec next anyStep s (List.replicate 3 (.access 0)) = some t ∧
      s.frames[0]? = some ⟨.registerByRef 7, .takeBack⟩ := ⟨_, _, rfl, rfl, rfl⟩
  have reach : Reaches next anyStep start s := ⟨interrupted, exec_run executed⟩
  obtain ⟨g, frame', -, enabled, -⟩ := wait_free reach (exec_run rest) frame
  exact ⟨s, t, g, exec_run executed, exec_run rest, frame', enabled⟩

end WakerSystem

end Iocp
