import Mathlib.Data.List.Basic

/-!
# Runs of an executable transition function

A system is a partial step function on states and actions. A run records the
actions it took, and a condition on the state before each step selects the
runs a statement is about.
-/

namespace Iocp.Transition

variable {S A E : Type*}

/-- The runs from a start state whose every step meets `ok` in the state before it. -/
inductive Run (step : S → A → Option S) (ok : S → A → Prop) (start : S) :
    List A → S → Prop
  | nil : Run step ok start [] start
  | snoc {as s a t} (run : Run step ok start as s) (good : ok s a)
      (h : step s a = some t) : Run step ok start (as ++ [a]) t

/-- A state some run reaches. -/
def Reaches (step : S → A → Option S) (ok : S → A → Prop) (start s : S) : Prop :=
  ∃ as, Run step ok start as s

/-- The condition met by every step of every run. -/
def anyStep (_ : S) (_ : A) : Prop := True

section Rules

variable {step : S → A → Option S} {ok : S → A → Prop} {start s t : S}

/-- A property of the start kept by every admitted step holds after every run. -/
theorem Run.invariant {P : S → Prop} {as : List A}
    (run : Run step ok start as s) (base : P start)
    (keep : ∀ s a t, P s → ok s a → step s a = some t → P t) : P s := by
  induction run with
  | nil => exact base
  | snoc _ good h ih => exact keep _ _ _ ih good h

/-- The same rule on reached states. -/
theorem Reaches.invariant {P : S → Prop} (reach : Reaches step ok start s) (base : P start)
    (keep : ∀ s a t, P s → ok s a → step s a = some t → P t) : P s := by
  obtain ⟨as, run⟩ := reach
  exact run.invariant base keep

theorem Reaches.refl : Reaches step ok start start := ⟨[], Run.nil⟩

theorem Reaches.snoc {a : A} (reach : Reaches step ok start s) (good : ok s a)
    (h : step s a = some t) : Reaches step ok start t := by
  obtain ⟨as, run⟩ := reach
  exact ⟨as ++ [a], Run.snoc run good h⟩

theorem Reaches.trans {u : S} (first : Reaches step ok start s) (second : Reaches step ok s u) :
    Reaches step ok start u := by
  obtain ⟨as, run⟩ := second
  induction run with
  | nil => exact first
  | snoc _ good h ih => exact ih.snoc good h

/-- A condition may be weakened. -/
theorem Run.weaken {ok' : S → A → Prop} {as : List A} (run : Run step ok start as s)
    (weaker : ∀ s a, ok s a → ok' s a) : Run step ok' start as s := by
  induction run with
  | nil => exact .nil
  | snoc _ good h ih => exact ih.snoc (weaker _ _ good) h

/-- A condition on the actions may be read off the run. -/
theorem Run.only {p : A → Prop} {as : List A} (run : Run step ok start as s)
    (all : ∀ a ∈ as, p a) : Run step (fun _ a => p a) start as s := by
  induction run with
  | nil => exact .nil
  | snoc _ _ h ih =>
      exact (ih fun a member => all a (List.mem_append_left _ member)).snoc
        (all _ List.mem_concat_self) h

/-- Every action of a run meets what the condition says of actions. -/
theorem Run.actions {p : A → Prop} {as : List A} (run : Run step ok start as s)
    (all : ∀ s a, ok s a → p a) : ∀ a ∈ as, p a := by
  induction run with
  | nil => simp
  | snoc _ good h ih =>
      intro b member
      rcases List.mem_append.mp member with old | new
      · exact ih b old
      · exact List.mem_singleton.mp new ▸ all _ _ good

theorem Run.anyStep {as : List A} (run : Run step ok start as s) :
    Run step anyStep start as s :=
  run.weaken fun _ _ _ => trivial

/-- Functions on states and actions that take steps to steps take runs to runs. -/
theorem Run.map {T B : Type*} {step' : T → B → Option T} {ok' : T → B → Prop} {f : S → T}
    {g : A → B} {as : List A} (run : Run step ok start as s)
    (sim : ∀ s a t, ok s a → step s a = some t → ok' (f s) (g a) ∧ step' (f s) (g a) = some (f t)) :
    Run step' ok' (f start) (as.map g) (f s) := by
  induction run with
  | nil => exact .nil
  | snoc _ good h ih =>
      rw [List.map_append]
      obtain ⟨good', h'⟩ := sim _ _ _ good h
      exact ih.snoc good' h'

/-- An invariant holds before every step. -/
theorem Run.forward {P : S → Prop} {as : List A} (run : Run step ok start as s) (base : P start)
    (keep : ∀ s a t, P s → ok s a → step s a = some t → P t) :
    Run step (fun s a => ok s a ∧ P s) start as s := by
  induction run with
  | nil => exact .nil
  | snoc before good h ih => exact ih.snoc ⟨good, before.invariant base keep⟩ h

/-- A property of the last state that no step establishes held all along. -/
theorem Run.backward {P : S → Prop} {as : List A} (run : Run step ok start as s) (last : P s)
    (back : ∀ s a t, Reaches step ok start s → step s a = some t → P t → P s) :
    Run step (fun s a => ok s a ∧ P s) start as s := by
  induction run with
  | nil => exact .nil
  | @snoc as s a t before good h ih =>
      have here := back s a t ⟨as, before⟩ h last
      exact (ih here).snoc ⟨good, here⟩ h

/-- Runs compose. -/
theorem Run.append {u : S} {as bs : List A} (first : Run step ok start as s)
    (second : Run step ok s bs u) : Run step ok start (as ++ bs) u := by
  induction second with
  | nil => simpa using first
  | snoc _ good h ih => simpa using ih.snoc good h

theorem Run.single {a : A} (good : ok s a) (h : step s a = some t) : Run step ok s [a] t :=
  show Run step ok s ([] ++ [a]) t from .snoc .nil good h

/-- A run visits a state between any two of its actions. -/
theorem Run.split {as bs : List A} (run : Run step ok start (as ++ bs) s) :
    ∃ u, Run step ok start as u ∧ Run step ok u bs s := by
  generalize hcs : as ++ bs = cs at run
  induction run generalizing bs with
  | nil =>
      obtain ⟨rfl, rfl⟩ := List.append_eq_nil_iff.mp hcs
      exact ⟨start, .nil, .nil⟩
  | @snoc cs s a t before good h ih =>
      rcases List.eq_nil_or_concat bs with rfl | ⟨bs, b, rfl⟩
      · exact ⟨t, by simpa [← hcs] using before.snoc good h, .nil⟩
      · rw [List.concat_eq_append, ← List.append_assoc] at hcs
        obtain ⟨hcs, hb⟩ := List.append_inj' hcs rfl
        obtain ⟨u, first, second⟩ := ih hcs
        cases hb
        exact ⟨u, first, by simpa using second.snoc good h⟩

/-- A list of actions leads to one state, whatever conditions its steps meet. -/
theorem Run.state_unique {ok' : S → A → Prop} {as : List A} (run : Run step ok start as s)
    (run' : Run step ok' start as t) : s = t := by
  induction run generalizing t with
  | nil =>
      generalize hcs : ([] : List A) = cs at run'
      cases run' with
      | nil => rfl
      | snoc => simp at hcs
  | @snoc as s a u before good h ih =>
      generalize hcs : as ++ [a] = cs at run'
      cases run' with
      | nil => simp at hcs
      | @snoc bs s' b t before' good' h' =>
          obtain ⟨rfl, hb⟩ := List.append_inj' hcs rfl
          cases hb
          obtain rfl := ih before'
          exact Option.some.inj (h.symm.trans h')

/-- The first step of a run. -/
theorem Run.uncons {a : A} {as : List A} (run : Run step ok start (a :: as) s) :
    ∃ u, ok start a ∧ step start a = some u ∧ Run step ok u as s := by
  rw [← List.singleton_append] at run
  obtain ⟨u, first, rest⟩ := run.split
  generalize hcs : [a] = cs at first
  cases first with
  | nil => cases hcs
  | @snoc cs v b t before good h =>
      obtain ⟨rfl, rfl⟩ : cs = [] ∧ b = a := by
        have one := congrArg List.length hcs
        have empty : cs = [] := List.length_eq_zero_iff.mp (by simpa using one)
        subst empty
        exact ⟨rfl, by simpa using hcs.symm⟩
      generalize hds : ([] : List A) = ds at before
      cases before with
      | nil => exact ⟨u, good, h, rest⟩
      | snoc => simp at hds

theorem Run.one {a : A} (run : Run step ok start [a] s) : step start a = some s := by
  obtain ⟨u, -, h, rest⟩ := run.uncons
  rw [h, rest.state_unique (Run.nil : Run step ok u [] u)]

end Rules

/-- What an observer sees along a list of actions, from what it sees of each step. -/
def observe (step : S → A → Option S) (see : S → A → List E) : S → List A → List E
  | _, [] => []
  | s, a :: as => see s a ++ (step s a).elim [] fun t => observe step see t as

section Observe

variable {step : S → A → Option S} {ok : S → A → Prop} {see : S → A → List E} {start s : S}

/-- What is seen of a run is seen of its beginning first. -/
theorem Run.observe_append {as : List A} (run : Run step ok start as s) (bs : List A) :
    observe step see start (as ++ bs) = observe step see start as ++ observe step see s bs := by
  induction run generalizing bs with
  | nil => rfl
  | @snoc as s a t before good h ih =>
      calc
        observe step see start (as ++ [a] ++ bs) = observe step see start (as ++ (a :: bs)) := by
          rw [List.append_assoc, List.singleton_append]
        _ = observe step see start as ++ (see s a ++ observe step see t bs) := by
          rw [ih, observe, h, Option.elim_some]
        _ = observe step see start (as ++ [a]) ++ observe step see t bs := by
          rw [ih, observe, h, Option.elim_some, observe, List.append_nil, List.append_assoc]

/-- Everything seen is seen of some step. -/
theorem mem_observe {e : E} {as : List A} (h : e ∈ observe step see s as) :
    ∃ s a, e ∈ see s a := by
  induction as generalizing s with
  | nil => cases h
  | cons a as ih =>
      rcases List.mem_append.mp h with first | rest
      · exact ⟨s, a, first⟩
      · cases hs : step s a with
        | none => simp [hs] at rest
        | some t =>
            rw [hs, Option.elim_some] at rest
            exact ih rest

/-- Nothing is seen of actions that show nothing. -/
theorem observe_nil {as : List A} (silent : ∀ a ∈ as, ∀ s, see s a = []) (s : S) :
    observe step see s as = [] := by
  induction as generalizing s with
  | nil => rfl
  | cons a as ih =>
      rw [observe, silent a List.mem_cons_self]
      cases step s a with
      | none => rfl
      | some t => exact ih (fun b member => silent b (List.mem_cons_of_mem a member)) t

/-- The last step of a run is seen last. -/
theorem Run.observe_snoc {as : List A} (run : Run step ok start as s) (a : A) :
    observe step see start (as ++ [a]) = observe step see start as ++ see s a := by
  rw [run.observe_append, observe]
  cases step s a <;> simp [observe]

/-- Two observers who see the same of every step of a run see the same of the run. -/
theorem Run.observe_congr {see' : S → A → List E} {as : List A} (run : Run step ok start as s)
    (same : ∀ s a t, Reaches step ok start s → ok s a → step s a = some t → see s a = see' s a) :
    observe step see start as = observe step see' start as := by
  induction run with
  | nil => rfl
  | @snoc as s a t before good h ih =>
      rw [before.observe_snoc, before.observe_snoc, ih, same s a t ⟨as, before⟩ good h]

/-- An observer of the images of the states sees the same in the image of a run. -/
theorem Run.observe_map {T : Type*} {step' : T → A → Option T} {f : S → T}
    (see : T → A → List E) {as : List A} (run : Run step ok start as s)
    (sim : ∀ s a t, step s a = some t → step' (f s) a = some (f t)) :
    observe step (fun s a => see (f s) a) start as = observe step' see (f start) as := by
  induction run with
  | nil => rfl
  | @snoc as s a t before good h ih =>
      have image : Run step' Transition.anyStep (f start) (as.map id) (f s) :=
        before.map fun s a t _ h => ⟨trivial, sim s a t h⟩
      rw [List.map_id] at image
      rw [before.observe_snoc, image.observe_snoc, ih]

/-- What is derived from what is seen of each step is derived from all that is seen. -/
theorem observe_derived {F : Type*} {see' : S → A → List F} (see : S → A → List E)
    (f : List E → List F)
    (nil : f [] = []) (append : ∀ ds es, f (ds ++ es) = f ds ++ f es)
    (derived : ∀ s a, see' s a = f (see s a)) (s : S) (as : List A) :
    observe step see' s as = f (observe step see s as) := by
  induction as generalizing s with
  | nil => exact nil.symm
  | cons a as ih =>
      rw [observe, observe, append, derived]
      cases step s a with
      | none => rw [Option.elim_none, Option.elim_none, nil]
      | some t => rw [Option.elim_some, Option.elim_some, ih]

/-- What a state holds and what is put into it is taken out in order, but for what is
still held. -/
theorem Run.passed {as : List A} (run : Run step ok start as s) (held : S → List E)
    (put taken : S → A → List E)
    (keep : ∀ s a t, Reaches step ok start s → ok s a → step s a = some t →
      held s ++ put s a = taken s a ++ held t) :
    held start ++ observe step put start as = observe step taken start as ++ held s := by
  induction run with
  | nil => simp [observe]
  | @snoc as s a t before good h ih =>
      rw [before.observe_snoc, before.observe_snoc, ← List.append_assoc, ih, List.append_assoc,
        keep s a t ⟨as, before⟩ good h, List.append_assoc]

/-- What is put into an empty state is taken out of it in order, but for what it still holds. -/
theorem Run.conserved {as : List A} (run : Run step ok start as s) (held : S → List E)
    (put taken : S → A → List E) (base : held start = [])
    (keep : ∀ s a t, Reaches step ok start s → ok s a → step s a = some t →
      held s ++ put s a = taken s a ++ held t) :
    observe step put start as = observe step taken start as ++ held s := by
  have passed := run.passed held put taken keep
  rwa [base, List.nil_append] at passed

/-- A relation between a state and what was seen so far, kept by every admitted
step, holds after every run. -/
theorem Run.observed {P : S → List E → Prop} {as : List A} (run : Run step ok start as s)
    (base : P start [])
    (keep : ∀ s a t es, P s es → ok s a → step s a = some t → P t (es ++ see s a)) :
    P s (observe step see start as) := by
  induction run with
  | nil => exact base
  | snoc before good h ih =>
      rw [before.observe_snoc]
      exact keep _ _ _ _ ih good h

/-- Forward simulation: when every step can be followed by a run over what is
seen of it, what is seen of a run is a run of the other system. When the other
system shows the same in each step, it shows the same in the run. -/
theorem Run.simulated_shown {Q F : Type*} {step' : Q → E → Option Q} {ok' : Q → E → Prop}
    {R : S → Q → Prop} {as : List A} {q : Q} (run : Run step ok start as s)
    (shown : S → A → List F) (shown' : Q → E → List F) (base : R start q)
    (keep : ∀ s a t q, R s q → ok s a → step s a = some t →
      ∃ r, Run step' ok' q (see s a) r ∧ shown s a = observe step' shown' q (see s a) ∧ R t r) :
    ∃ r, Run step' ok' q (observe step see start as) r ∧
      observe step shown start as = observe step' shown' q (observe step see start as) ∧
      R s r := by
  induction run with
  | nil => exact ⟨q, .nil, rfl, base⟩
  | snoc before good h ih =>
      obtain ⟨r, seen, same, related⟩ := ih
      obtain ⟨r', next, last, related'⟩ := keep _ _ _ r related good h
      rw [before.observe_snoc, before.observe_snoc]
      exact ⟨r', seen.append next, by rw [same, last, seen.observe_append], related'⟩

theorem Run.simulated {Q : Type*} {step' : Q → E → Option Q} {ok' : Q → E → Prop}
    {R : S → Q → Prop} {as : List A} {q : Q} (run : Run step ok start as s) (base : R start q)
    (keep : ∀ s a t q, R s q → ok s a → step s a = some t →
      ∃ r, Run step' ok' q (see s a) r ∧ R t r) :
    ∃ r, Run step' ok' q (observe step see start as) r ∧ R s r := by
  obtain ⟨r, seen, -, related⟩ := run.simulated_shown (F := Empty) (fun _ _ => [])
    (fun _ _ => []) base fun s a t q related good h => by
      obtain ⟨r, next, related'⟩ := keep s a t q related good h
      exact ⟨r, next, Subsingleton.elim _ _, related'⟩
  exact ⟨r, seen, related⟩

end Observe

instance (s : S) (a : A) : Decidable (anyStep s a) := instDecidableTrue

/-- Execute a list of actions, stopping at the first that is not enabled or
does not meet the condition. -/
def exec (step : S → A → Option S) (ok : S → A → Prop) [∀ s a, Decidable (ok s a)] :
    S → List A → Option S
  | s, [] => some s
  | s, a :: as => if ok s a then (step s a).bind fun t => exec step ok t as else none

/-- Executing a list of actions runs it. -/
theorem exec_run {step : S → A → Option S} {ok : S → A → Prop} [∀ s a, Decidable (ok s a)]
    {s t : S} {as : List A} (h : exec step ok s as = some t) : Run step ok s as t := by
  induction as generalizing s with
  | nil =>
      simp only [exec, Option.some.injEq] at h
      exact h ▸ .nil
  | cons a as ih =>
      rw [exec] at h
      split at h
      case isTrue good =>
          obtain ⟨u, hu, ht⟩ := Option.bind_eq_some_iff.mp h
          exact (Run.single good hu).append (ih ht)
      case isFalse => cases h

/-- What can be computed from the last state holds of the state that the run ends in. -/
theorem exec_ended (step : S → A → Option S) (ok : S → A → Prop) [∀ s a, Decidable (ok s a)]
    (s : S) (as : List A) {α : Type*} (f : S → α) (x : α)
    (h : (exec step ok s as).map f = some x) : ∃ t, Run step ok s as t ∧ f t = x := by
  obtain ⟨t, executed, same⟩ := Option.map_eq_some_iff.mp h
  exact ⟨t, exec_run executed, same⟩

/-- Executing a list of actions from a reached state reaches a state. -/
theorem exec_reaches {step : S → A → Option S} {ok : S → A → Prop} [∀ s a, Decidable (ok s a)]
    {start s t : S} {as : List A} (reach : Reaches step ok start s)
    (h : exec step ok s as = some t) : Reaches step ok start t :=
  reach.trans ⟨as, exec_run h⟩

end Iocp.Transition
