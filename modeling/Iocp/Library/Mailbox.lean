import Iocp.Library.Transition

/-!
# A mailbox with one slot

A client submits a request into an empty slot, a server finishes it with a
report, a courier unlocks the slot, and the client collects the report. The
client comes to the slot in visits and learns its state by knocking once in
each. Requests are answered in order and every report is collected once; a
report that was unlocked is collected at the next knock.
-/

namespace Iocp.Mailbox

open Transition

variable {α ρ : Type*}

/-- What happens at a mailbox. -/
inductive Event (α ρ : Type*)
  | visit
  | knock
  | submit (x : α)
  | finish (x : α) (r : ρ)
  | unlock
  | collect (r : ρ)
  deriving DecidableEq

/-- The slot. -/
inductive Slot (α ρ : Type*)
  | empty
  | submitted (x : α)
  | finished (x : α) (r : ρ)
  | ready (x : α) (r : ρ)
  /-- The client has knocked and is about to collect. -/
  | leaving (x : α) (r : ρ)

/-- The slot, and whether the client is on a visit before its knock. -/
structure State (α ρ : Type*) where
  visiting : Bool
  slot : Slot α ρ

/-- The empty mailbox. -/
def empty : State α ρ := ⟨false, .empty⟩

/-- What a knock does to the slot. -/
def Slot.knock : Slot α ρ → Option (Slot α ρ)
  | .ready x r => some (.leaving x r)
  | .leaving _ _ => none
  | slot => some slot

/-- The steps of a mailbox. -/
def step [DecidableEq α] [DecidableEq ρ] (m : State α ρ) : Event α ρ → Option (State α ρ)
  | .visit =>
      match m.visiting, m.slot with
      | true, _ => none
      | false, .leaving _ _ => none
      | false, slot => some ⟨true, slot⟩
  | .knock => if m.visiting then m.slot.knock.map fun slot => ⟨false, slot⟩ else none
  | .submit x =>
      match m.visiting, m.slot with
      | false, .empty => some ⟨false, .submitted x⟩
      | _, _ => none
  | .finish x r =>
      match m.slot with
      | .submitted y => if x = y then some ⟨m.visiting, .finished x r⟩ else none
      | _ => none
  | .unlock =>
      match m.slot with
      | .finished x r => some ⟨m.visiting, .ready x r⟩
      | _ => none
  | .collect r =>
      match m.slot with
      | .leaving _ s => if r = s then some ⟨m.visiting, .empty⟩ else none
      | _ => none

/-- The requests submitted, in order. -/
def submissions (es : List (Event α ρ)) : List α :=
  es.filterMap fun
    | .submit x => some x
    | _ => none

/-- The requests finished with their reports, in order. -/
def finishes (es : List (Event α ρ)) : List (α × ρ) :=
  es.filterMap fun
    | .finish x r => some (x, r)
    | _ => none

/-- The reports collected, in order. -/
def collections (es : List (Event α ρ)) : List ρ :=
  es.filterMap fun
    | .collect r => some r
    | _ => none

/-- A visit has begun and not yet knocked. -/
def visiting (es : List (Event α ρ)) : Bool :=
  es.foldl (fun open? e =>
    match e with
    | .visit => true
    | .knock => false
    | _ => open?) false

@[simp] theorem submissions_nil : submissions ([] : List (Event α ρ)) = [] := rfl

@[simp] theorem finishes_nil : finishes ([] : List (Event α ρ)) = [] := rfl

@[simp] theorem collections_nil : collections ([] : List (Event α ρ)) = [] := rfl

section Append

variable (es : List (Event α ρ)) (e : Event α ρ)

@[simp] theorem submissions_append (ds : List (Event α ρ)) :
    submissions (es ++ ds) = submissions es ++ submissions ds := by
  simp [submissions]

@[simp] theorem finishes_append (ds : List (Event α ρ)) :
    finishes (es ++ ds) = finishes es ++ finishes ds := by
  simp [finishes]

@[simp] theorem collections_append (ds : List (Event α ρ)) :
    collections (es ++ ds) = collections es ++ collections ds := by
  simp [collections]

@[simp] theorem submissions_single :
    submissions [e] = match e with
      | .submit x => [x]
      | _ => [] := by
  cases e <;> rfl

@[simp] theorem finishes_single :
    finishes [e] = match e with
      | .finish x r => [(x, r)]
      | _ => [] := by
  cases e <;> rfl

@[simp] theorem collections_single :
    collections [e] = match e with
      | .collect r => [r]
      | _ => [] := by
  cases e <;> rfl

theorem mem_finishes {x : α} {r : ρ} : (x, r) ∈ finishes es ↔ .finish x r ∈ es := by
  simp only [finishes, List.mem_filterMap]
  constructor
  · rintro ⟨e, member, h⟩
    cases e <;> simp_all
  · exact fun member => ⟨_, member, rfl⟩

theorem visiting_snoc :
    visiting (es ++ [e]) =
      match e with
      | .visit => true
      | .knock => false
      | _ => visiting es := by
  simp [visiting]

end Append

/-- The slot holds what was submitted and finished and not yet collected. -/
def Slot.Holds (slot : Slot α ρ) (es : List (Event α ρ)) : Prop :=
  match slot with
  | .empty =>
      (finishes es).map Prod.snd = collections es ∧ submissions es = (finishes es).map Prod.fst
  | .submitted x =>
      (finishes es).map Prod.snd = collections es ∧
        submissions es = (finishes es).map Prod.fst ++ [x]
  | .finished x r | .ready x r | .leaving x r =>
      (finishes es).map Prod.snd = collections es ++ [r] ∧
        submissions es = (finishes es).map Prod.fst ∧ (finishes es).getLast? = some (x, r)

/-- The state of a mailbox accounts for everything that happened at it. -/
def Accounts (m : State α ρ) (es : List (Event α ρ)) : Prop :=
  m.visiting = visiting es ∧ m.slot.Holds es

/-- The transitions of a mailbox. -/
inductive Steps : State α ρ → Event α ρ → State α ρ → Prop
  | visit {slot} (away : ∀ x r, slot ≠ .leaving x r) : Steps ⟨false, slot⟩ .visit ⟨true, slot⟩
  | knock {slot} (unready : ∀ x r, slot ≠ .ready x r) : Steps ⟨true, slot⟩ .knock ⟨false, slot⟩
  | knockReady {x r} : Steps ⟨true, .ready x r⟩ .knock ⟨false, .leaving x r⟩
  | submit {x} : Steps ⟨false, .empty⟩ (.submit x) ⟨false, .submitted x⟩
  | finish {visit x r} : Steps ⟨visit, .submitted x⟩ (.finish x r) ⟨visit, .finished x r⟩
  | unlock {visit x r} : Steps ⟨visit, .finished x r⟩ .unlock ⟨visit, .ready x r⟩
  | collect {visit x r} : Steps ⟨visit, .leaving x r⟩ (.collect r) ⟨visit, .empty⟩

/-- Every transition keeps the account. -/
theorem Accounts.step {es : List (Event α ρ)} {m n : State α ρ} {e : Event α ρ}
    (accounts : Accounts m es) (h : Steps m e n) : Accounts n (es ++ [e]) := by
  obtain ⟨visits, holds⟩ := accounts
  have rest (other : submissions [e] = [] ∧ finishes [e] = [] ∧ collections [e] = [])
      (slot : Slot α ρ) (holds : slot.Holds es) : slot.Holds (es ++ [e]) := by
    cases slot <;> simpa [Slot.Holds, other] using holds
  refine ⟨?_, ?_⟩
  · rw [visiting_snoc]
    cases h <;> first | rfl | exact visits
  · cases h with
    | visit away => exact rest ⟨rfl, rfl, rfl⟩ _ holds
    | knock unready => exact rest ⟨rfl, rfl, rfl⟩ _ holds
    | knockReady => exact rest ⟨rfl, rfl, rfl⟩ (.leaving _ _) holds
    | unlock => exact rest ⟨rfl, rfl, rfl⟩ (.ready _ _) holds
    | submit =>
        obtain ⟨collected, submitted⟩ := holds
        exact ⟨by simpa using collected, by simpa using submitted⟩
    | finish =>
        obtain ⟨collected, submitted⟩ := holds
        exact ⟨by simpa using collected, by simpa using submitted, by simp⟩
    | collect =>
        obtain ⟨collected, submitted, -⟩ := holds
        exact ⟨by simpa using collected, by simpa using submitted⟩

section Run

variable [DecidableEq α] [DecidableEq ρ] {es : List (Event α ρ)} {m n : State α ρ}
  {e : Event α ρ}

theorem step_visit {slot : Slot α ρ} (away : ∀ x r, slot ≠ .leaving x r) :
    step ⟨false, slot⟩ .visit = some ⟨true, slot⟩ := by
  cases slot with
  | leaving x r => exact absurd rfl (away x r)
  | _ => rfl

/-- A knock at a slot that is not ready changes nothing. -/
theorem step_knock {slot : Slot α ρ} (away : ∀ x r, slot ≠ .leaving x r)
    (unready : ∀ x r, slot ≠ .ready x r) : step ⟨true, slot⟩ .knock = some ⟨false, slot⟩ := by
  cases slot with
  | leaving x r => exact absurd rfl (away x r)
  | ready x r => exact absurd rfl (unready x r)
  | _ => rfl

/-- Every step of the step function is a transition. -/
theorem step_steps (h : step m e = some n) : Steps m e n := by
  obtain ⟨visit, slot⟩ := m
  cases e with
  | visit =>
      cases visit with
      | true => simp [step] at h
      | false =>
          cases slot <;> simp only [step, Option.some.injEq, reduceCtorEq] at h
          all_goals exact h ▸ .visit (by simp)
  | knock =>
      cases visit with
      | false => simp [step] at h
      | true =>
          cases slot <;> simp only [step, Slot.knock, if_true, Option.map_some, Option.map_none,
            Option.some.injEq, reduceCtorEq] at h
          case ready => exact h ▸ .knockReady
          all_goals exact h ▸ .knock (by simp)
  | submit x =>
      cases visit <;> cases slot <;> simp [step] at h
      exact h ▸ .submit
  | finish x r =>
      cases slot <;> simp [step] at h
      obtain ⟨rfl, rfl⟩ := h
      exact .finish
  | unlock =>
      cases slot <;> simp [step] at h
      exact h ▸ .unlock
  | collect r =>
      cases slot <;> simp [step] at h
      obtain ⟨rfl, rfl⟩ := h
      exact .collect

/-- After any run the state accounts for what happened. -/
theorem run_accounts (run : Run step anyStep empty es m) : Accounts m es := by
  induction run with
  | nil => exact ⟨rfl, rfl, rfl⟩
  | snoc _ _ h ih => exact ih.step (step_steps h)

/-- The reports collected are the first of those finished, the requests finished
are the first of those submitted, and at most one request is not yet collected. -/
theorem run_in_order (run : Run step anyStep empty es m) :
    collections es <+: (finishes es).map Prod.snd ∧
      (finishes es).map Prod.fst <+: submissions es ∧
      (submissions es).length ≤ (collections es).length + 1 := by
  obtain ⟨-, holds⟩ := run_accounts run
  have waiting {x : α} {r : ρ}
      (h : (finishes es).map Prod.snd = collections es ++ [r] ∧
        submissions es = (finishes es).map Prod.fst ∧ (finishes es).getLast? = some (x, r)) :
      collections es <+: (finishes es).map Prod.snd ∧
        (finishes es).map Prod.fst <+: submissions es ∧
        (submissions es).length ≤ (collections es).length + 1 := by
    obtain ⟨collected, submitted, -⟩ := h
    have length := congrArg List.length collected
    refine ⟨⟨[r], collected.symm⟩, submitted ▸ List.prefix_refl _, ?_⟩
    simp only [List.length_map, List.length_append, List.length_singleton] at length
    exact Nat.le_of_eq (submitted ▸ (List.length_map _).trans length)
  cases hm : m.slot with
  | empty =>
      rw [hm] at holds
      obtain ⟨collected, submitted⟩ := holds
      refine ⟨collected ▸ List.prefix_refl _, submitted ▸ List.prefix_refl _, ?_⟩
      rw [submitted, ← collected]
      simp
  | submitted x =>
      rw [hm] at holds
      obtain ⟨collected, submitted⟩ := holds
      refine ⟨collected ▸ List.prefix_refl _, ⟨[x], submitted.symm⟩, ?_⟩
      rw [submitted, ← collected]
      simp
  | _ =>
      rw [hm] at holds
      exact waiting holds

/-- A request is only submitted when the report of every earlier one was collected. -/
theorem submit_after_collection {x : α} {ds : List (Event α ρ)}
    (run : Run step anyStep empty (es ++ .submit x :: ds) m) :
    (finishes es).map Prod.snd = collections es ∧ submissions es = (finishes es).map Prod.fst := by
  obtain ⟨s, before, after⟩ := run.split
  obtain ⟨u, -, h, -⟩ := after.uncons
  obtain ⟨-, holds⟩ := run_accounts before
  cases step_steps h
  exact holds

/-- What comes next at a slot that was unlocked: the visit that is open, or the
next one, knocks and collects the report. -/
def Next (visit : Bool) (r : ρ) (es : List (Event α ρ)) : Prop :=
  let next := (if visit then [] else [.visit]) ++ [.knock, .collect r]
  es <+: next ∨ next <+: es

theorem leaving_next {x : α} {r : ρ} {visit : Bool}
    (run : Run step anyStep ⟨visit, .leaving x r⟩ es m) :
    es <+: [.collect r] ∨ [.collect r] <+: es := by
  cases es with
  | nil => exact .inl List.nil_prefix
  | cons e es =>
      obtain ⟨u, -, h, -⟩ := run.uncons
      cases step_steps h with
      | visit away => exact absurd rfl (away x r)
      | knock unready => simp [step, Slot.knock] at h
      | collect => exact .inr ⟨es, rfl⟩

theorem ready_next {x : α} {r : ρ} {visit : Bool}
    (run : Run step anyStep ⟨visit, .ready x r⟩ es m) : Next visit r es := by
  have knocks {es : List (Event α ρ)} (run : Run step anyStep ⟨true, .ready x r⟩ es m) :
      es <+: [.knock, .collect r] ∨ [.knock, .collect r] <+: es := by
    cases es with
    | nil => exact .inl List.nil_prefix
    | cons e es =>
        obtain ⟨u, -, h, rest⟩ := run.uncons
        cases step_steps h with
        | knock unready => exact absurd rfl (unready x r)
        | knockReady =>
            exact (leaving_next rest).imp (List.cons_prefix_cons.mpr ⟨rfl, ·⟩)
              (List.cons_prefix_cons.mpr ⟨rfl, ·⟩)
  cases visit with
  | true => exact knocks run
  | false =>
      cases es with
      | nil => exact .inl List.nil_prefix
      | cons e es =>
          obtain ⟨u, -, h, rest⟩ := run.uncons
          cases step_steps h with
          | visit away =>
              exact (knocks rest).imp (List.cons_prefix_cons.mpr ⟨rfl, ·⟩)
                (List.cons_prefix_cons.mpr ⟨rfl, ·⟩)

/-- A report that was unlocked is that of the request finished last, it is the
only one not yet collected, and the next knock collects it. -/
theorem unlock_then_collected {ds : List (Event α ρ)}
    (run : Run step anyStep empty (es ++ .unlock :: ds) m) :
    ∃ x r, (finishes es).map Prod.snd = collections es ++ [r] ∧
      submissions es = (finishes es).map Prod.fst ∧ (finishes es).getLast? = some (x, r) ∧
      Next (visiting es) r ds := by
  obtain ⟨s, before, after⟩ := run.split
  obtain ⟨u, -, h, rest⟩ := after.uncons
  obtain ⟨visits, holds⟩ := run_accounts before
  cases step_steps h with
  | @unlock visit x r =>
      obtain ⟨collected, submitted, last⟩ := holds
      exact ⟨x, r, collected, submitted, last, visits ▸ ready_next rest⟩

end Run

end Iocp.Mailbox
