import Iocp.Link.Lending
import Iocp.Link.Resumption

/-!
# A poll among the steps of the others

Between two steps of an owner the operating system stores a status and bytes, and
a driving thread may turn the lock word over. Nothing else of the owner moves.
What holds of an owner whatever the others do is therefore shown step by step of
the owner alone.
-/

namespace Iocp

open Transition Mailbox

/-- An exchange of `unlock` changes at most the sign of the word. -/
theorem Header.unlockExchange_natAbs (h : Header) (old : Int) (spurious : Bool) :
    (h.unlockExchange old spurious).1.lock.natAbs = h.lock.natAbs := by
  simp only [unlockExchange, compareExchangeWeak]
  by_cases same : spurious = false ∧ h.lock = old
  · simp [same.1, ← same.2]
  · simp [same]

namespace Owner

/-- What the others can do to an owner. -/
structure Drifts (o o' : Owner) : Prop where
  pc : o'.pc = o.pc
  last : o'.last = o.last
  kind : o'.kind = o.kind
  word : o'.lockWord.natAbs = o.lockWord.natAbs
  cursor : o'.header.value.raw.cursor = o.header.value.raw.cursor
  sockets : o'.sockets = o.sockets
  pool : o'.pool = o.pool ∨ ∃ slot bytes, o'.pool = o.pool.fill slot bytes

section Drifts

variable {o o' : Owner}

theorem Drifts.refl (o : Owner) : o.Drifts o := ⟨rfl, rfl, rfl, rfl, rfl, rfl, .inl rfl⟩

/-- The indices of the pool belong to the owner. -/
theorem Drifts.indices (drifts : o.Drifts o') :
    o'.pool.taken = o.pool.taken ∧ o'.pool.released = o.pool.released := by
  rcases drifts.pool with same | ⟨slot, bytes, filled⟩
  · rw [same]
    exact ⟨rfl, rfl⟩
  · rw [filled]
    exact ⟨rfl, rfl⟩

/-- An open word stays open. -/
theorem Drifts.opened (drifts : o.Drifts o') (word : o.lockWord = 0) : o'.lockWord = 0 := by
  have same := drifts.word
  rw [word] at same
  exact Int.natAbs_eq_zero.mp same

theorem complete_drifts (o : Owner) (op : Op) (status : Final) :
    o.Drifts (o.complete op status) where
  pc := rfl
  last := rfl
  kind := rfl
  word := rfl
  cursor := rfl
  sockets := rfl
  pool := by
    simp only [complete]
    split
    · split
      · exact .inr ⟨_, _, rfl⟩
      · exact .inl rfl
    · exact .inl rfl

theorem exchange_drifts (o : Owner) (old : Int) (spurious : Bool) :
    o.Drifts { o with
      header := o.header.modify fun _ => (o.header.value.unlockExchange old spurious).1 } where
  pc := rfl
  last := rfl
  kind := rfl
  word := o.header.value.unlockExchange_natAbs old spurious
  cursor := congrArg Overlapped.cursor (o.header.value.unlockExchange_raw old spurious)
  sockets := rfl
  pool := .inl rfl

/-- A step that is not one of the owner. -/
theorem background_drifts {i : Nat} {L L' : Link} {l : Link.Label} (step : Link.Step i L l L')
    (other : ∀ a, l ≠ .task a) : L.owner.Drifts L'.owner := by
  cases step with
  | task acts => exact absurd rfl (other _)
  | complete admits => exact complete_drifts _ _ _
  | exchange => exact exchange_drifts _ _ _
  | wake => exact ⟨rfl, rfl, rfl, rfl, rfl, rfl, .inl rfl⟩
  | drop => exact ⟨rfl, rfl, rfl, rfl, rfl, rfl, .inl rfl⟩
  | _ => exact .refl _

end Drifts

end Owner

/-- A step of an owner, with what it does outside. -/
structure Footprint where
  before : Owner
  after : Owner
  effect : Effect

namespace World

variable {w v : World} {i : Nat} {o : Owner} {a : Action}

/-- Every step is one of owner `i`, or leaves it to drift. -/
theorem next_owner (valid : w.Valid) (h : w.next a = some v) (owner : w.owners[i]? = some o) :
    ∃ o', v.owners[i]? = some o' ∧
      ((∃ act e, a = .task i act ∧ o.act i w.pending act = some (o', e)) ∨
        ((∀ act, a ≠ .task i act) ∧ o.Drifts o')) := by
  obtain ⟨o', owner', happens⟩ := stepped_happens valid (next_stepped h) owner
  refine ⟨o', owner', ?_⟩
  generalize v.tokensOf i = T' at happens
  cases happens with
  | @task act _ e acts =>
      obtain ⟨q, e', hact, rfl⟩ := step_act owner (next_eq_some.mp h).1
      rw [afterTask_owner owner, Option.some.injEq] at owner'
      exact .inl ⟨act, e', rfl, owner' ▸ hact⟩
  | complete flight own admits tokens =>
      exact .inr ⟨by simp, Owner.complete_drifts _ _ _⟩
  | exchange thread own tokens => exact .inr ⟨by simp, Owner.exchange_drifts _ _ _⟩
  | quiet silent step =>
      refine .inr ⟨?_, Owner.background_drifts step (by simp)⟩
      rintro act rfl
      exact silent rfl
  | still silent =>
      refine .inr ⟨?_, .refl _⟩
      rintro act rfl
      exact silent rfl

/-- The footprint of a step of owner `i`. -/
def footprints (i : Nat) (w : World) : Action → List Footprint
  | .task j act =>
      if j = i then
        (w.owners[i]?.bind fun o =>
          (o.act i w.pending act).map fun next => ⟨o, next.1, next.2⟩).toList
      else []
  | _ => []

theorem footprints_task {act : TaskAct} {o' : Owner} {e : Effect} (owner : w.owners[i]? = some o)
    (h : o.act i w.pending act = some (o', e)) : w.footprints i (.task i act) = [⟨o, o', e⟩] := by
  simp [footprints, owner, h]

theorem footprints_other (other : ∀ act, a ≠ .task i act) : w.footprints i a = [] := by
  cases a with
  | task j act =>
      refine if_neg ?_
      rintro rfl
      exact other act rfl
  | _ => rfl

theorem footprints_absent (absent : w.owners[i]? = none) (a : Action) : w.footprints i a = [] := by
  cases a with
  | task j act =>
      simp only [footprints, absent, Option.bind_none, Option.toList_none]
      exact ite_self _
  | _ => rfl

/-- What the steps of an owner keep, given the footprints so far, and the steps of the
others do not disturb, holds after every run. -/
theorem run_footprints {ok : World → Action → Prop} {loops : List Loop} {as : List Action}
    {Q : Owner → List Footprint → Prop} (reach : Reached anyStep (start loops) w)
    (run : Run next ok w as v) (base : ∀ o, w.owners[i]? = some o → Q o [])
    (fresh : w.owners[i]? = none → ∀ kind key size, Q (Owner.new kind key size) [])
    (own : ∀ w o o' act e fs, Reached anyStep (start loops) w → w.owners[i]? = some o →
      ok w (.task i act) → o.act i w.pending act = some (o', e) → Q o fs →
      Q o' (fs ++ [⟨o, o', e⟩]))
    (drift : ∀ o o' fs, o.Drifts o' → Q o fs → Q o' fs) (owner : v.owners[i]? = some o) :
    Q o (observe next (footprints i) w as) := by
  suffices all : Reached anyStep (start loops) v ∧
      (v.owners[i]? = none → w.owners[i]? = none ∧ observe next (footprints i) w as = []) ∧
      ∀ o, v.owners[i]? = some o → Q o (observe next (footprints i) w as) from
    all.2.2 o owner
  refine run.observed (P := fun v fs => Reached anyStep (start loops) v ∧
    (v.owners[i]? = none → w.owners[i]? = none ∧ fs = []) ∧
    ∀ o, v.owners[i]? = some o → Q o fs) ⟨reach, fun absent => ⟨absent, rfl⟩, base⟩ ?_
  rintro s a t fs ⟨reach, absent, present⟩ good h
  have valid := reached_valid reach
  refine ⟨reach.snoc trivial h, ?_⟩
  cases before : s.owners[i]? with
  | none =>
      obtain ⟨never, rfl⟩ := absent before
      rw [footprints_absent before]
      refine ⟨fun _ => ⟨never, rfl⟩, ?_⟩
      intro o' owner'
      cases stepped_moves valid (next_stepped h) owner' with
      | created _ _ born _ => exact born ▸ fresh never _ _ _
      | still owner | moved owner => simp [before] at owner
  | some o =>
      obtain ⟨o', owner', step⟩ := next_owner valid h before
      refine ⟨by simp [owner'], ?_⟩
      intro p owner''
      obtain rfl : o' = p := Option.some.inj (owner'.symm.trans owner'')
      rcases step with ⟨act, e, rfl, hact⟩ | ⟨other, drifts⟩
      · rw [footprints_task before hact]
        exact own s o o' act e fs reach before good hact (present o before)
      · rw [footprints_other other, List.append_nil]
        exact drift o o' fs drifts (present o before)

end World

end Iocp
