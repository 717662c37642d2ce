import Iocp.Link.LockWord

/-!
# What a step does to one header, by its action

The projection of a step onto a header forgets which operation the operating
system ended, and with which status. An observer of a header sees both, so
the steps that it can see are related to the actions themselves here: those
of its owner, the ends of its operations, and the exchanges of `unlock`.
-/

namespace Iocp

open Totals Transition

/-- The operation a thread is unlocking the header for, and the word it has seen. -/
def Driver.unlocking (t : Driver) : Option (Op × Int × Bool) :=
  match t.pc with
  | .unlocking s old release => s.op.map fun op => (op, old, release)
  | _ => none

namespace World

/-- What driving thread `d` is about to unlock. -/
def unlocking (w : World) (d : Nat) : Option (Op × Int × Bool) :=
  w.drivers[d]?.bind Driver.unlocking

/-- A step that an observer of the header of owner `i` does not see. -/
def Silent (w : World) (i : Nat) : Action → Prop
  | .task j _ => j ≠ i
  | .complete k _ => ∀ op, w.inFlight[k]? = some op → op.owner ≠ i
  | .driver d (.exchange _) => ∀ op old release, w.unlocking d = some (op, old, release) →
      op.owner ≠ i
  | _ => True

/-- What a step does to owner `i` and the tokens of its header. -/
inductive Happens (w : World) (i : Nat) (o : Owner) (T : Multiset Token) :
    Action → Owner → Multiset Token → Prop
  | task {a o' e} (acts : o.Acts i w.pending a o' e) :
      Happens w i o T (.task i a) o' (e.tokens + T)
  | complete {k op status R} (flight : w.inFlight[k]? = some op) (own : op.owner = i)
      (admits : op.admits status = true) (tokens : T = ⟨op, .inFlight⟩ ::ₘ R) :
      Happens w i o T (.complete k status) (o.complete op status) (⟨op, .queued status⟩ ::ₘ R)
  | exchange {d op old release spurious R} (thread : w.unlocking d = some (op, old, release))
      (own : op.owner = i) (tokens : T = ⟨op, .unlocking old release⟩ ::ₘ R) :
      Happens w i o T (.driver d (.exchange spurious))
        { o with
          header := o.header.modify fun _ => (o.header.value.unlockExchange old spurious).1 }
        (⟨op, .afterUnlock release (o.header.value.unlockExchange old spurious).2⟩ ::ₘ R)
  | quiet {a act o' T'} (silent : w.Silent i a)
      (step : Link.Step i ⟨o, T⟩ (.driver act) ⟨o', T'⟩) : Happens w i o T a o' T'
  | still {a} (silent : w.Silent i a) : Happens w i o T a o T

section Happens

variable {w v : World} {i : Nat} {o o' : Owner} {T T' : Multiset Token} {a : Action}

/-- Whatever happens to a header, it is a step of its link or nothing. -/
theorem Happens.link (happens : w.Happens i o T a o' T') :
    (o' = o ∧ T' = T) ∨ ∃ l, Link.Step i ⟨o, T⟩ l ⟨o', T'⟩ := by
  cases happens with
  | task acts => exact .inr ⟨_, .task acts⟩
  | complete flight own admits tokens =>
      subst tokens
      exact .inr ⟨_, .complete admits⟩
  | exchange thread own tokens =>
      subst tokens
      exact .inr ⟨_, .exchange⟩
  | quiet silent step => exact .inr ⟨_, step⟩
  | still silent => exact .inl ⟨rfl, rfl⟩

/-- A token that moves is one of the header of its operation, before and after. -/
theorem tokensOf_moved {R : Multiset Token} {op : Op} {s s' : Stage} (own : op.owner = i)
    (before : w.tokens = {⟨op, s⟩} + R) (after : v.tokens = {⟨op, s'⟩} + R) :
    ∃ S, w.tokensOf i = ⟨op, s⟩ ::ₘ S ∧ v.tokensOf i = ⟨op, s'⟩ ::ₘ S := by
  refine ⟨R.filter fun t => t.op.owner = i, ?_, ?_⟩
  · rw [tokensOf, before, Multiset.singleton_add,
      Multiset.filter_cons_of_pos (p := fun t : Token => t.op.owner = i) (a := ⟨op, s⟩) R own]
  · rw [tokensOf, after, Multiset.singleton_add,
      Multiset.filter_cons_of_pos (p := fun t : Token => t.op.owner = i) (a := ⟨op, s'⟩) R own]

/-- A token that moves leaves the other headers alone. -/
theorem tokensOf_other {R : Multiset Token} {op : Op} {s s' : Stage} (other : op.owner ≠ i)
    (before : w.tokens = {⟨op, s⟩} + R) (after : v.tokens = {⟨op, s'⟩} + R) :
    v.tokensOf i = w.tokensOf i := by
  rw [tokensOf, tokensOf, before, after, Multiset.singleton_add, Multiset.singleton_add,
    Multiset.filter_cons_of_neg (p := fun t : Token => t.op.owner = i) (a := ⟨op, s⟩) R other,
    Multiset.filter_cons_of_neg (p := fun t : Token => t.op.owner = i) (a := ⟨op, s'⟩) R other]

/-- A step of an owner adds the token it hands out to those of its header. -/
theorem afterTask_tokensOf {j : Nat} {p q : Owner} {act : TaskAct} {e : Effect}
    (acts : p.Acts j w.pending act q e) :
    (w.afterTask j q e).tokensOf j = e.tokens + w.tokensOf j := by
  have he : e.tokens.filter (fun t => t.op.owner = j) = e.tokens :=
    Multiset.filter_eq_self.mpr (acts_tokens acts)
  rw [tokensOf, afterTask_tokens, Multiset.filter_add, he, tokensOf]

theorem task_happens {j : Nat} {p q : Owner} {act : TaskAct} {e : Effect}
    (actor : w.owners[j]? = some p) (acts : p.Acts j w.pending act q e)
    (owner : w.owners[i]? = some o) :
    ∃ o', (w.afterTask j q e).owners[i]? = some o' ∧
      w.Happens i o (w.tokensOf i) (.task j act) o' ((w.afterTask j q e).tokensOf i) := by
  by_cases hj : j = i
  · subst hj
    rw [owner, Option.some.injEq] at actor
    subst actor
    exact ⟨q, afterTask_owner owner q e, afterTask_tokensOf acts ▸ .task acts⟩
  · refine ⟨o, by rw [afterTask, List.getElem?_set_ne hj, owner], ?_⟩
    have he : e.tokens.filter (fun t => t.op.owner = i) = 0 :=
      Multiset.filter_eq_nil.mpr fun t ht hti => hj (acts_tokens acts t ht ▸ hti)
    have tokens : (w.afterTask j q e).tokensOf i = w.tokensOf i := by
      rw [tokensOf, afterTask_tokens, Multiset.filter_add, he, zero_add, tokensOf]
    exact tokens ▸ .still hj

theorem complete_happens {k : Nat} {op : Op} {status : Final} (flight : w.inFlight[k]? = some op)
    (admits : op.admits status = true) (owner : w.owners[i]? = some o) :
    ∃ o', (w.afterComplete k op status).owners[i]? = some o' ∧
      w.Happens i o (w.tokensOf i) (.complete k status) o'
        ((w.afterComplete k op status).tokensOf i) := by
  obtain ⟨R, before, after⟩ := afterComplete_tokens flight status
  rw [← Multiset.singleton_add] at before after
  have owners := getElem?_modify_if (·.complete op status) w.owners op.owner i
  rw [owner, Option.map_some] at owners
  by_cases own : op.owner = i
  · obtain ⟨S, hw, hv⟩ := tokensOf_moved own before after
    rw [if_pos own] at owners
    exact ⟨_, owners, hv ▸ .complete flight own admits hw⟩
  · rw [if_neg own] at owners
    refine ⟨_, owners, tokensOf_other own before after ▸ .still ?_⟩
    intro op' flight'
    rw [flight, Option.some.injEq] at flight'
    exact flight' ▸ own

theorem exchange_happens {d : Nat} {t : Driver} {s : Status} {old : Int} {release spurious : Bool}
    {op : Op} {p : Owner} (thread : w.drivers[d]? = some t) (pc : t.pc = .unlocking s old release)
    (pointer : s.op = some op) (actor : w.owners[op.owner]? = some p)
    (owners : v.owners = w.owners.set op.owner
      { p with header := p.header.modify fun _ => (p.header.value.unlockExchange old spurious).1 })
    (flights : v.inFlight = w.inFlight) (queue : v.queue = w.queue)
    (drivers : v.drivers = w.drivers.set d
      (t.unlocked s release (p.header.value.unlockExchange old spurious).2))
    (owner : w.owners[i]? = some o) :
    ∃ o', v.owners[i]? = some o' ∧
      w.Happens i o (w.tokensOf i) (.driver d (.exchange spurious)) o' (v.tokensOf i) := by
  obtain ⟨R, before, after⟩ := thread_tokens thread
  have after := after v _ flights queue drivers
  rw [pc, DriverPc.tokens, Status.tokens_some pointer] at before
  rw [Driver.unlocked_tokens, Status.tokens_some pointer] at after
  have unlocking : w.unlocking d = some (op, old, release) := by
    simp [World.unlocking, thread, Driver.unlocking, pc, pointer]
  by_cases own : op.owner = i
  · subst own
    rw [owner, Option.some.injEq] at actor
    subst actor
    obtain ⟨S, hw, hv⟩ := tokensOf_moved rfl before after
    obtain ⟨hlt, -⟩ := List.getElem?_eq_some_iff.mp owner
    exact ⟨_, owners ▸ List.getElem?_set_self hlt, hv ▸ .exchange unlocking rfl hw⟩
  · refine ⟨o, by rw [owners, List.getElem?_set_ne own, owner], ?_⟩
    refine tokensOf_other own before after ▸ .still ?_
    intro op' old' release' unlocking'
    rw [unlocking, Option.some.injEq, Prod.mk.injEq] at unlocking'
    exact unlocking'.1 ▸ own

/-- A step of a thread other than an exchange. -/
theorem quiet_happens {d : Nat} {t : Driver} {act : DriverAct} (valid : w.Valid)
    (thread : w.drivers[d]? = some t) (driven : w.Driven d t act v)
    (other : ∀ spurious, act ≠ .exchange spurious) (owner : w.owners[i]? = some o) :
    ∃ o', v.owners[i]? = some o' ∧
      w.Happens i o (w.tokensOf i) (.driver d act) o' (v.tokensOf i) := by
  have silent : w.Silent i (.driver d act) := by
    cases act with
    | exchange spurious => exact absurd rfl (other spurious)
    | _ => trivial
  have length := stepped_length (.driver thread driven)
  obtain ⟨hlt, -⟩ := List.getElem?_eq_some_iff.mp owner
  have present := List.getElem?_eq_getElem (Nat.lt_of_lt_of_le hlt length)
  refine ⟨_, present, ?_⟩
  cases driven_moves valid thread driven present with
  | created fresh action own tokens => cases action
  | still owner' tokens =>
      rw [owner, Option.some.injEq] at owner'
      exact tokens ▸ owner' ▸ .still silent
  | @moved p l owner' concerns step =>
      rw [owner, Option.some.injEq] at owner'
      subst owner'
      cases l with
      | task act' => cases concerns
      | complete => cases concerns
      | driver act' => exact .quiet silent step
      | unlock release spurious =>
          cases act with
          | exchange spurious' => exact absurd rfl (other spurious')
          | _ => cases concerns

/-- What every step of the system does to the header of an owner that exists. -/
theorem stepped_happens (valid : w.Valid) (stepped : w.Stepped a v)
    (owner : w.owners[i]? = some o) :
    ∃ o', v.owners[i]? = some o' ∧ w.Happens i o (w.tokensOf i) a o' (v.tokensOf i) := by
  cases stepped with
  | task actor acts => exact task_happens actor acts owner
  | complete flight admits => exact complete_happens flight admits owner
  | @driver d t act _ thread driven =>
      cases act with
      | exchange spurious =>
          cases driven with
          | exchange pc pointer actor =>
              exact exchange_happens thread pc pointer actor rfl rfl rfl rfl owner
      | _ => exact quiet_happens valid thread driven (by simp) owner
  | @post key =>
      have tokens : (w.post key).tokens = w.tokens := by
        simp [World.tokens, World.post, Packet.tokens]
      refine ⟨o, owner, ?_⟩
      rw [tokensOf, tokensOf, tokens]
      exact .still trivial
  | @create kind options key =>
      obtain ⟨hlt, -⟩ := List.getElem?_eq_some_iff.mp owner
      exact ⟨o, by rw [List.getElem?_append_left hlt, owner], .still trivial⟩
  | _ => exact ⟨o, owner, .still trivial⟩

/-- A header without an owner has no tokens yet, and nothing is seen of it. -/
theorem Valid.fresh (valid : w.Valid) (none : w.owners[i]? = none) :
    w.tokensOf i = 0 ∧ (∀ k status, w.Silent i (.complete k status)) ∧
      ∀ d spurious, w.Silent i (.driver d (.exchange spurious)) := by
  have out : w.owners.length ≤ i := List.getElem?_eq_none_iff.mp none
  refine ⟨Multiset.filter_eq_nil.mpr fun t ht hti => ?_, ?_, ?_⟩
  · exact absurd (valid.in_scope ht) (by omega)
  · intro k status op flight
    have known : op.owner < w.owners.length := (valid.flights op (List.mem_of_getElem? flight)).2
    omega
  · intro d spurious op old release unlocking
    obtain ⟨t, thread, ht⟩ := Option.bind_eq_some_iff.mp unlocking
    simp only [Driver.unlocking] at ht
    split at ht
    case h_1 s old' release' pc =>
        obtain ⟨op', pointer, same⟩ := Option.map_eq_some_iff.mp ht
        cases same
        have known := (valid.statuses t (List.mem_of_getElem? thread) s
          (by rw [pc, DriverPc.held]) op pointer).2.2
        omega
    case h_2 => cases ht

end Happens

end World

end Iocp
