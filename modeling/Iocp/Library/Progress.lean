import Iocp.Library.Transition

/-!
# Ranks

A rank that every admitted step lowers bounds the length of every run, so every
run goes on until no admitted step is left. A rank that other steps do not raise
bounds how many steps of one kind a run has.
-/

namespace Iocp.Transition

variable {S A : Type*} {step : S → A → Option S} {ok : S → A → Prop} {rank : S → Nat}

/-- No admitted step can be taken. -/
def Stuck (step : S → A → Option S) (ok : S → A → Prop) (s : S) : Prop :=
  ∀ a, ok s a → step s a = none

/-- Steps of a kind lower the rank and no step raises it. -/
def Lowers (step : S → A → Option S) (ok : S → A → Prop) (p : A → Bool) (rank : S → Nat) : Prop :=
  ∀ s a t, ok s a → step s a = some t → rank t + (if p a then 1 else 0) ≤ rank s

/-- When every step of a kind lowers the rank but for what it shows, a run has no more
steps of the kind than its rank and what it shows allow. -/
theorem Run.paid {E : Type*} {p : A → Bool} {c : Nat} {s t : S} {as : List A}
    (run : Run step ok s as t) (see : S → A → List E)
    (keep : ∀ u a v, Reaches step ok s u → ok u a → step u a = some v →
      rank v + (if p a then 1 else 0) ≤ rank u + c * (see u a).length) :
    as.countP p + rank t ≤ rank s + c * (observe step see s as).length := by
  induction run with
  | nil => simp
  | @snoc as u a v before good h ih =>
      have last := keep u a v ⟨as, before⟩ good h
      rw [List.countP_append, List.countP_singleton, before.observe_snoc, List.length_append,
        Nat.mul_add]
      omega

/-- The rank bounds the steps of the kind. -/
theorem Lowers.countP_le {p : A → Bool} (lowers : Lowers step ok p rank) {s t : S} {as : List A}
    (run : Run step ok s as t) : as.countP p + rank t ≤ rank s := by
  have paid := run.paid (c := 0) (fun _ _ => ([] : List Empty))
    fun u a v _ good h => Nat.le_add_right_of_le (lowers u a v good h)
  rwa [Nat.zero_mul, Nat.add_zero] at paid

/-- A rank that every step lowers bounds the length of a run. -/
theorem Lowers.length_le (lowers : Lowers step ok (fun _ => true) rank) {s t : S} {as : List A}
    (run : Run step ok s as t) : as.length + rank t ≤ rank s := by
  have count := lowers.countP_le run
  rwa [List.countP_true] at count

/-- It lets every run be extended until no step is left. -/
theorem Lowers.exists_stuck (lowers : Lowers step ok (fun _ => true) rank) (s : S) :
    ∃ as t, Run step ok s as t ∧ Stuck step ok t := by
  induction h : rank s using Nat.strongRecOn generalizing s with
  | _ n ih =>
      by_cases stuck : Stuck step ok s
      · exact ⟨[], s, .nil, stuck⟩
      · simp only [Stuck, not_forall] at stuck
        obtain ⟨a, good, possible⟩ := stuck
        obtain ⟨t, next⟩ := Option.ne_none_iff_exists'.mp possible
        have lower := lowers s a t good next
        simp only [if_true] at lower
        obtain ⟨as, u, rest, stuck⟩ := ih (rank t) (by omega) t rfl
        exact ⟨[a] ++ as, u, (Run.single good next).append rest, stuck⟩

end Iocp.Transition
