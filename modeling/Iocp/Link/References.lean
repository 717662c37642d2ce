import Iocp.Link.Lift
import Iocp.Model.Schedule

/-!
# The reference count of a header

Every token holds one reference to its header, from the moment the operating
system accepts the operation to the drop of its status. Together with the
owner and an `Overlapped` that was not handed over they make up the strong
count, so the header outlives every use of its OVERLAPPED and is freed once.
-/

namespace Iocp

open Totals Transition

namespace Pc

/-- `Overlapped` values that are live and not yet forgotten. -/
def overlapped : Pc → Nat
  | prepared _ _ => 1
  | accepted _ => 1
  | dropOverlapped _ => 1
  | _ => 0

/-- Live `Overlapped` values that no accepted submission has taken over. -/
def unsubmitted : Pc → Nat
  | prepared _ _ => 1
  | dropOverlapped _ => 1
  | _ => 0

end Pc

namespace World

/-- Accepted submissions on the header of owner `i` whose packet was not dequeued. -/
def undequeued (w : World) (i : Nat) : Nat :=
  total (fun op => if op.owner = i then 1 else 0) w.inFlight +
    total (fun p => if (p.io.map fun io => io.1.owner) = some i then 1 else 0) w.queue

/-- Statuses that hold a reference to the header of owner `i` and were not dropped. -/
def statuses (w : World) (i : Nat) : Nat :=
  total (fun t => if ((t.pc.held.bind Status.op).map Op.owner) = some i then 1 else 0) w.drivers

theorem Packet.countP_tokens (p : Packet) (i : Nat) :
    p.tokens.countP (fun t => t.op.owner = i) =
      if (p.io.map fun io => io.1.owner) = some i then 1 else 0 := by
  cases h : p.io with
  | none => simp [Packet.tokens, h]
  | some io => simp [Packet.tokens, h, Multiset.countP_eq_card_filter, Multiset.filter_singleton,
      apply_ite Multiset.card]

theorem countP_status (s : Status) (stage : Stage) (i : Nat) :
    (s.tokens stage).countP (fun t => t.op.owner = i) =
      if s.op.map Op.owner = some i then 1 else 0 := by
  cases h : s.op with
  | none => simp [Status.tokens, h]
  | some op => simp [Status.tokens, h, Multiset.countP_eq_card_filter, Multiset.filter_singleton,
      apply_ite Multiset.card]

theorem countP_pc (pc : DriverPc) (i : Nat) :
    pc.tokens.countP (fun t => t.op.owner = i) =
      if (pc.held.bind Status.op).map Op.owner = some i then 1 else 0 := by
  rcases pc.tokens_held with ⟨held, none⟩ | ⟨s, stage, held, -, tokens⟩
  · simp [held, none]
  · rw [held, tokens]
    exact countP_status s stage i

/-- The tokens of a header are its packets on the way and its undropped statuses. -/
theorem card_tokensOf (w : World) (i : Nat) :
    (w.tokensOf i).card = w.undequeued i + w.statuses i := by
  have flight (op : Op) : ({⟨op, .inFlight⟩} : Multiset Token).countP (fun t => t.op.owner = i) =
      if op.owner = i then 1 else 0 := by
    simp [Multiset.countP_eq_card_filter, Multiset.filter_singleton, apply_ite Multiset.card]
  simp only [tokensOf, ← Multiset.countP_eq_card_filter, tokens, Multiset.countP_add,
    countP_total, flight, Packet.countP_tokens, countP_pc, undequeued, statuses]

end World

namespace Link

/-- The strong count is made up of its owners, and the header is freed exactly
when the last of them is gone. -/
structure Counted (L : Link) : Prop where
  strong : L.owner.header.strong =
    (if L.owner.alive then 1 else 0) + L.owner.pc.unsubmitted + L.tokens.card
  frees : L.owner.header.frees = if L.owner.header.strong = 0 then 1 else 0

theorem Counted.fresh (kind : Kind) (key size : Nat) : Counted ⟨Owner.new kind key size, 0⟩ where
  strong := by simp [Owner.new, Arc.new, Owner.alive, Pc.unsubmitted]
  frees := by simp [Owner.new, Arc.new]

/-- Dropping one of several references. -/
theorem Counted.drop_frees {a : Arc Header} (pos : 0 < a.strong)
    (frees : a.frees = if a.strong = 0 then 1 else 0) :
    a.drop.frees = if a.drop.strong = 0 then 1 else 0 := by
  have h0 : a.strong ≠ 0 := by omega
  rw [if_neg h0] at frees
  simp only [Arc.drop, frees]
  by_cases h1 : a.strong = 1
  · simp [h1]
  · have h2 : a.strong - 1 ≠ 0 := by omega
    simp [h1, h2]

theorem Counted.clone_frees {a : Arc Header} (pos : 0 < a.strong)
    (frees : a.frees = if a.strong = 0 then 1 else 0) :
    a.clone.frees = if a.clone.strong = 0 then 1 else 0 := by
  have h0 : a.strong ≠ 0 := by omega
  rw [if_neg h0] at frees
  simpa [Arc.clone] using frees

/-- The steps of a poll and of a drop keep the count. -/
theorem Counted.task {i : Nat} {o o' : Owner} {pending : Int} {a : TaskAct} {e : Effect}
    {T : Multiset Token} (counted : Counted ⟨o, T⟩) (acts : o.Acts i pending a o' e) :
    Counted ⟨o', e.tokens + T⟩ := by
  obtain ⟨strong, frees⟩ := counted
  simp only [acts.acting, if_true] at strong frees
  have pos : 0 < o.header.strong := by omega
  cases acts with
  | submit pc accepted =>
      -- the reference of the `Overlapped` becomes that of the accepted operation
      refine ⟨?_, frees⟩
      simp [pc, Owner.alive, Pc.unsubmitted, Arc.modify, Effect.tokens] at strong ⊢
      omega
  | prepareRequest pc prepared =>
      refine ⟨?_, clone_frees pos frees⟩
      simp [pc, Owner.alive, Pc.unsubmitted, Arc.clone, Effect.tokens] at strong ⊢
      omega
  | prepareFail pc notPending =>
      refine ⟨?_, clone_frees pos frees⟩
      simp [pc, Owner.alive, Pc.unsubmitted, Arc.clone, Effect.tokens] at strong ⊢
      omega
  | dropOverlapped pc =>
      refine ⟨?_, drop_frees pos frees⟩
      simp [pc, Owner.alive, Pc.unsubmitted, Arc.drop, Effect.tokens] at strong ⊢
      omega
  | dropFields pc =>
      refine ⟨?_, drop_frees pos frees⟩
      simp [pc, Owner.alive, Pc.unsubmitted, Arc.drop, Effect.tokens] at strong ⊢
      omega
  | _ =>
      refine ⟨?_, frees⟩
      simp_all [Owner.alive, Pc.unsubmitted, Arc.modify, Effect.tokens]

/-- Every step keeps the count. -/
theorem Counted.step {i : Nat} {L L' : Link} {l : Label} (counted : Counted L)
    (step : Step i L l L') : Counted L' := by
  cases step with
  | task acts => exact counted.task acts
  | @drop o op T =>
      obtain ⟨strong, frees⟩ := counted
      simp only [Multiset.card_cons] at strong frees
      refine ⟨?_, drop_frees (by omega) frees⟩
      change o.header.strong - 1 = (if o.alive then 1 else 0) + o.pc.unsubmitted + T.card
      omega
  | _ =>
      obtain ⟨strong, frees⟩ := counted
      refine ⟨?_, frees⟩
      simpa [Owner.alive, Arc.modify, Owner.complete] using strong

end Link

namespace World

/-- The strong count of every header in every reachable system. -/
theorem reached_counted {ok : World → Action → Prop} {loops : List Loop} {w : World}
    (reach : Reached ok (start loops) w) : w.AllLinks fun _ => Link.Counted :=
  reached_links reach (fun _ => Link.Counted.fresh)
    fun _ _ _ _ _ _ _ _ _ _ step counted => counted.step step

/-- The reference accounting of a header: the owner while it is alive, an
`Overlapped` that no accepted submission has taken over, the packets on the
way and the undropped statuses. The header is not freed while any of them is
left, and it is freed once when the last one goes. -/
theorem header_references {loops : List Loop} {w : World}
    (reach : Reached anyStep (start loops) w) {i : Nat} {o : Owner}
    (owner : w.owners[i]? = some o) :
    o.header.strong = (if o.alive then 1 else 0) + o.pc.unsubmitted +
        w.undequeued i + w.statuses i ∧
      (0 < w.undequeued i → 0 < o.header.strong ∧ o.header.frees = 0) ∧
      o.header.frees ≤ 1 ∧
      (o.header.frees = 1 ↔ o.alive = false ∧ w.undequeued i = 0 ∧ w.statuses i = 0) := by
  obtain ⟨strong, frees⟩ := reached_counted reach i o owner
  simp only [card_tokensOf] at strong frees
  -- a dropped owner holds no `Overlapped`
  have gone : o.alive = false → o.pc.unsubmitted = 0 := by
    intro h
    have hpc : o.pc = .dropped := by simpa [Owner.alive] using h
    rw [hpc]
    rfl
  refine ⟨by omega, ?_, by split at frees <;> omega, ?_⟩
  · intro pos
    have h0 : o.header.strong ≠ 0 := by omega
    exact ⟨by omega, by rw [frees, if_neg h0]⟩
  · cases halive : o.alive with
    | true =>
        have h0 : o.header.strong ≠ 0 := by
          rw [halive, if_pos rfl] at strong
          omega
        simp [frees, h0]
    | false =>
        have hu := gone halive
        have hs : o.header.strong = w.undequeued i + w.statuses i := by
          rw [halive, hu] at strong
          simpa using strong
        by_cases h0 : o.header.strong = 0
        · simp only [frees, h0, if_true, true_and, true_iff]
          omega
        · simp only [frees, h0, if_false, true_and]
          omega

/-- The schedule of a read that was accepted and whose guard was not yet forgotten. -/
def acceptedRead : List Action :=
  [Schedule.handle] ++ Schedule.enter 0 (.pollRead 8) 1 ++ Schedule.submit 0

/-- The accounting of a handle whose read was accepted, before the guard is forgotten. -/
theorem header_references_accepted :
    ∃ w o, Reached anyStep setup w ∧ w.owners[0]? = some o ∧ 0 < w.undequeued 0 ∧
      o.header.strong = (if o.alive then 1 else 0) + o.pc.unsubmitted +
        w.undequeued 0 + w.statuses 0 ∧
      o.header.frees = 0 := by
  obtain ⟨w, o, reach, owner, flight⟩ :=
    exec_owner anyStep setup acceptedRead 0 (fun w _ => w.undequeued 0) 1 (by decide)
  obtain ⟨strong, safe, _⟩ := header_references reach owner
  have pos : 0 < w.undequeued 0 := by omega
  exact ⟨w, o, reach, owner, pos, strong, (safe pos).2⟩

/-- Counting every `Overlapped` that is not yet forgotten counts the reference
of an accepted submission twice until its guard is forgotten. -/
theorem unforgotten_overlapped_counted_twice :
    ¬ ∀ w, Reached anyStep setup w → ∀ i o, w.owners[i]? = some o →
      o.header.strong = (if o.alive then 1 else 0) + o.pc.overlapped +
        w.undequeued i + w.statuses i := by
  intro always
  obtain ⟨w, o, reach, owner, counts⟩ :=
    exec_owner anyStep setup acceptedRead 0
      (fun w o => (o.header.strong, (if o.alive then 1 else 0) + o.pc.overlapped +
        w.undequeued 0 + w.statuses 0)) (2, 3) (by decide)
  have eq := always w reach 0 o owner
  simp only [Prod.mk.injEq] at counts
  omega

end World

end Iocp
