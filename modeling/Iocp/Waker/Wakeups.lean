import Iocp.Waker.Refinement

/-!
# No wakeup is lost

The waker that was registered last is taken by the next wake, and a waker that
was taken is in the hand of some call until it is woken. So a registration is
woken at most once, and by the first wake that takes effect after it, unless
another registration comes in between.
-/

namespace Iocp

open Totals Transition

namespace WakerCell

/-- The wakers that operations register. -/
def registered (es : List (Nat × WakerOp)) : List Nat :=
  es.filterMap fun
    | (_, .register waker) => some waker
    | _ => none

variable {q r : WakerCell} {es : List (Nat × WakerOp)} {waker : Nat}

@[simp] theorem delivered_append (ds es : List (Nat × WakerOp)) :
    delivered (ds ++ es) = delivered ds ++ delivered es := by
  simp [delivered]

@[simp] theorem registered_append (ds es : List (Nat × WakerOp)) :
    registered (ds ++ es) = registered ds ++ registered es := by
  simp [registered]

/-- What an operation takes out of the cell. -/
def taken (q : WakerCell) : Nat × WakerOp → List Nat
  | (_, .wake) => q.header.waker.toList
  | _ => []

/-- What is taken out of the cell comes into the hand, what is woken leaves it. -/
theorem step_hand (waker : Nat) {e : Nat × WakerOp} (h : q.step e = some r) :
    r.hand.count waker + (delivered [e]).count waker =
      q.hand.count waker + (q.taken e).count waker := by
  obtain ⟨i, op⟩ := e
  cases op with
  | register other =>
      cases h
      rfl
  | wake =>
      cases h
      simp [delivered, taken]
  | deliver other =>
      simp only [step, next] at h
      obtain ⟨held, h⟩ := Option.ite_none_right_eq_some.mp h
      cases h
      by_cases same : waker = other
      · subst same
        have some := Multiset.count_pos.mpr held
        have one : delivered [(i, .deliver waker)] = [waker] := rfl
        rw [one, Multiset.count_erase_self, List.count_singleton_self]
        simp only [taken, List.count_nil]
        omega
      · simp [delivered, taken, Multiset.count_erase_of_ne same, Ne.symm same]

/-- What comes into the cell was registered. -/
theorem step_cell (waker : Nat) {e : Nat × WakerOp} (h : q.step e = some r) :
    r.header.waker.toList.count waker + (q.taken e).count waker ≤
      q.header.waker.toList.count waker + (registered [e]).count waker := by
  obtain ⟨i, op⟩ := e
  cases op with
  | register other =>
      cases h
      simp [taken, registered, Header.registerByRef]
  | wake =>
      cases h
      simp [taken, Header.wake]
  | deliver other =>
      simp only [step, next] at h
      obtain ⟨held, h⟩ := Option.ite_none_right_eq_some.mp h
      cases h
      simp [taken]

/-- A waker in hand stays there until it is woken. -/
theorem hand_kept (waker : Nat) (run : Run step anyStep q es r) :
    q.hand.count waker ≤ r.hand.count waker + (delivered es).count waker := by
  induction run with
  | nil => exact Nat.le_add_right _ _
  | snoc _ _ h ih =>
      have hand := step_hand waker h
      rw [delivered_append, List.count_append]
      omega

/-- Every waking is that of one registration. -/
theorem delivered_le (waker : Nat) (run : Run step anyStep q es r) :
    (delivered es).count waker + r.hand.count waker + r.header.waker.toList.count waker ≤
      (registered es).count waker + q.hand.count waker + q.header.waker.toList.count waker := by
  induction run with
  | nil => exact Nat.le_refl _
  | snoc _ _ h ih =>
      have hand := step_hand waker h
      have cell := step_cell waker h
      rw [delivered_append, registered_append, List.count_append, List.count_append]
      omega

/-- Nothing but wakers being woken. -/
def quiet (es : List (Nat × WakerOp)) : Prop := ∀ e ∈ es, ∃ waker, e.2 = .deliver waker

theorem quiet_cell (run : Run step anyStep q es r) (only : quiet es) :
    r.header.waker = q.header.waker := by
  induction run with
  | nil => rfl
  | @snoc es s e t _ _ h ih =>
      rw [← ih fun e member => only e (List.mem_append_left _ member)]
      obtain ⟨i, op⟩ := e
      obtain ⟨waker, rfl⟩ := only (i, op) List.mem_concat_self
      simp only [step, next] at h
      obtain ⟨-, h⟩ := Option.ite_none_right_eq_some.mp h
      cases h
      rfl

/-- The first wake after a registration takes its waker, and wakes it or leaves it in hand. -/
theorem wake_after_register {pre mid rest : List (Nat × WakerOp)} {i j : Nat}
    (run : Run step anyStep q (pre ++ (i, .register waker) :: (mid ++ (j, .wake) :: rest)) r)
    (only : quiet mid) : waker ∈ delivered rest ∨ waker ∈ r.hand := by
  obtain ⟨u, -, after⟩ := run.split
  obtain ⟨v, -, register, after⟩ := after.uncons
  cases register
  obtain ⟨x, between, after⟩ := after.split
  obtain ⟨y, -, wake, after⟩ := after.uncons
  cases wake
  have cell : x.header.waker = some waker := quiet_cell between only
  have kept := hand_kept waker after
  simp only [Multiset.count_add, cell, Option.toList_some, Multiset.coe_singleton,
    Multiset.count_singleton_self] at kept
  by_contra lost
  obtain ⟨asleep, gone⟩ := not_or.mp lost
  rw [List.count_eq_zero.mpr asleep, Multiset.count_eq_zero.mpr gone] at kept
  omega

end WakerCell

namespace WakerSystem

variable {s : WakerSystem} {as : List WakerAct}

/-- The wakers that the calls under way are bound to wake. -/
def hand (s : WakerSystem) : Multiset Nat := total (WakerFrame.hand s.waker) s.frames

/-- What callers can rely on, given what happened in order. -/
structure Wakes (s : WakerSystem) (es : List (Nat × WakerOp)) : Prop where
  /-- A registration is woken once at most. -/
  once : ∀ waker, (WakerCell.delivered es).count waker + s.hand.count waker ≤
    (WakerCell.registered es).count waker
  /-- The first wake after a registration wakes its waker. -/
  after : ∀ pre mid rest i j waker,
    es = pre ++ (i, .register waker) :: (mid ++ (j, .wake) :: rest) → WakerCell.quiet mid →
      waker ∈ WakerCell.delivered rest ∨ waker ∈ s.hand
  /-- Nothing is left to be woken, and nobody holds the cell, when all calls have returned. -/
  settled : (∀ f ∈ s.frames, f.pc = .returned) →
    s.hand = 0 ∧ s.waker.state = AtomicWaker.waiting

/-- No wakeup is lost and none is invented, under any number of concurrent calls. -/
theorem waker_wakes (run : Run next anyStep start as s) :
    observe next woken start as = WakerCell.delivered (observe next effects start as) ∧
      s.Wakes (observe next effects start as) := by
  obtain ⟨q, ops, refines⟩ := run_refines run
  refine ⟨observe_woken as, ?_, ?_, ?_⟩
  · intro waker
    have counted := WakerCell.delivered_le waker ops
    rw [refines.hand] at counted
    change _ + s.hand.count waker + _ ≤ _ + 0 + 0 at counted
    omega
  · intro pre mid rest i j waker order only
    rw [order] at ops
    have woken := WakerCell.wake_after_register ops only
    rwa [refines.hand] at woken
  · intro returned
    constructor
    · refine total_eq_zero fun f member => ?_
      simp [WakerFrame.hand, returned f member]
    · refine (reached_excludes ⟨as, run⟩).word.mpr fun f member => ?_
      simp [returned f member, WakerPc.holds]

theorem waker_wakes_interrupted : ∃ s,
    Run next anyStep start (interrupted ++ List.replicate 3 (.access 0)) s ∧
      s.Wakes [(0, .register 7), (1, .wake), (0, .deliver 7)] := by
  obtain ⟨s, executed⟩ : ∃ s, exec next anyStep start
      (interrupted ++ List.replicate 3 (.access 0)) = some s := ⟨_, rfl⟩
  exact ⟨s, exec_run executed, (waker_wakes (exec_run executed)).2⟩

end WakerSystem

end Iocp
