import Iocp.Link.Collection
import Iocp.Link.Delivery
import Iocp.Link.Interference
import Iocp.Progress.Settled

/-!
# A call that is awaited returns

A poll that returns pending leaves an operation behind. When its packet was processed,
the next poll of the same call finds the result in the header and returns it, whatever
the others do meanwhile. A task that polls again after it was woken so does not park
again.
-/

namespace Iocp

open Mailbox Totals Transition

namespace Owner

/-- No poll is bound to return pending but for an operation that is or was under way. -/
structure Parks (o : Owner) : Prop where
  result : ∀ r, o.pc = .dropOverlapped r ∨ o.pc = .dropGuard r → r ≠ .pending
  word : o.parked = true → o.lockWord ≠ 0

/-- A call on its way to a result that waits in its header. -/
def Returns (c : Code) (o : Owner) : Prop :=
  match o.pc with
  | .permitFailed => True
  | .permitted call _ | .registered call => call.code = c ∧ o.lockWord = -c.word
  | .storing call n => call.code = c ∧ n = -c.word
  | .guarded _ state => state = .pending
  | .dropGuard result | .dropPermit result => result ≠ .pending
  | .out => o.last ≠ some .pending
  | _ => False

section Acts

variable {c : Code} {i : Nat} {o o' : Owner} {pending : Int} {a : TaskAct} {e : Effect}

theorem Parks.fresh (kind : Kind) (key size : Nat) : (new kind key size).Parks where
  result := by simp [new]
  word := by simp [new, parked]

theorem Parks.drifts (parks : o.Parks) (drifts : o.Drifts o') : o'.Parks where
  result := by
    rw [drifts.pc]
    exact parks.result
  word := by
    have same : o'.parked = o.parked := by simp only [parked, drifts.pc, drifts.last]
    rw [same]
    intro parked open'
    have word := drifts.word
    rw [open'] at word
    exact parks.word parked (Int.natAbs_eq_zero.mp word.symm)

/-- Every step of an owner that submits on a locked header. -/
theorem Parks.task (parks : o.Parks) (locked : ∀ call request, o.pc = .prepared call request →
    o.lockWord ≠ 0) (acts : o.Acts i pending a o' e) : o'.Parks := by
  obtain ⟨result, word⟩ := parks
  simp only [parked] at word
  -- a program point at which nobody is bound to return pending
  have unparked (results : ∀ r, o'.pc = .dropOverlapped r ∨ o'.pc = .dropGuard r → r ≠ .pending)
      (not : o'.parked = false) : o'.Parks := ⟨results, by simp [not]⟩
  cases acts with
  | lockBusy pc word => exact ⟨by simp, fun _ => word.ne'⟩
  | submit pc accepted => exact ⟨by simp, fun _ => locked _ _ pc⟩
  | leaveBusy pc | forget pc => exact ⟨by simp, fun _ => word (by simp [pc])⟩
  | dropPermit pc =>
      exact ⟨by simp, fun parked => word (by simpa [pc, Owner.parked] using parked)⟩
  | collect pc notPending | prepareFail pc notPending =>
      refine unparked ?_ rfl
      rintro r (same | same) <;> cases same
      exact notPending
  | refuseSubmit pc refused => exact unparked (by rintro r (same | same) <;> cases same; simp) rfl
  | dropOverlapped pc =>
      refine unparked ?_ rfl
      rintro r (same | same) <;> cases same
      exact result _ (.inl pc)
  | dropGuard pc => exact unparked (by simp) (by simp [parked, result _ (.inr pc)])
  | undoPermit pc | dropGuardPanic pc => exact unparked (by simp) (by simp [parked])
  | _ => exact unparked (by simp) rfl

/-- Every step of a call that goes on takes it nearer to its result. -/
theorem Returns.task (returns : o.Returns c) (settles : a.settles = true)
    (acts : o.Acts i pending a o' e) : o'.Returns c ∧ e.submit = none := by
  have pos := c.word_pos
  rw [Returns] at returns
  cases acts with
  | registerWaker pc | lockStore pc =>
      rw [pc] at returns
      exact ⟨returns, rfl⟩
  | lockOpen pc word | lockBusy pc word =>
      rw [pc] at returns
      omega
  | storeOpen pc =>
      rw [pc] at returns
      obtain ⟨code, rfl⟩ := returns
      exact ⟨if_pos (by rw [code, neg_neg]), rfl⟩
  | collect pc notPending => exact ⟨notPending, rfl⟩
  | dropGuardPanic pc => exact ⟨by simp [Returns], rfl⟩
  | undoPermit pc => exact ⟨by simp [Returns], rfl⟩
  | dropGuard pc =>
      rw [pc] at returns
      exact ⟨returns, rfl⟩
  | dropPermit pc =>
      rw [pc] at returns
      exact ⟨by simpa [Returns] using returns, rfl⟩
  | permit | refusePermit | drop => cases settles
  | prepareRequest pc | prepareFail pc | submit pc | refuseSubmit pc | forget pc | leaveBusy pc
  | dropOverlapped pc | leaveDrop pc | dropFields pc => simp [pc] at returns

/-- What the others do to a header without unprocessed packets takes nothing from a call. -/
theorem Returns.same (returns : o.Returns c) (pc : o'.pc = o.pc) (last : o'.last = o.last)
    (word : o'.lockWord = o.lockWord) : o'.Returns c := by
  rw [Returns, pc, last, word]
  exact returns

end Acts

end Owner

/-- A header that is used under one code holds no completed word of another one. -/
theorem Link.Tracks.sameCode {c : Code} {m : State Op Internal} {o : Owner} {T : Multiset Token}
    (tracks : Link.Tracks c m ⟨o, T⟩) (a : TaskAct) : o.sameCode a = true := by
  cases a with
  | lock spurious =>
      cases pc : o.pc with
      | registered call =>
          have own := tracks.code call (by simp [pc, Pc.call])
          have pos := c.word_pos
          rcases tracks.word (by simp [pc, Pc.outside]) with ⟨zero, -⟩ | ⟨busy, -⟩ | ⟨ready, -⟩
          · simp [Owner.sameCode, pc, zero]
          · simp [Owner.sameCode, pc, busy, pos.le]
          · simp [Owner.sameCode, pc, ready, own]
      | _ => simp [Owner.sameCode, pc]
  | _ => rfl

/-- On a header whose packets are all processed only its owner changes the word. -/
theorem Link.Step.idle {i : Nat} {L L' : Link} {l : Link.Label} (step : Link.Step i L l L')
    (other : ∀ a, l ≠ .task a) (idle : L.live = 0) :
    L'.live = 0 ∧ L'.owner.lockWord = L.owner.lockWord := by
  have dead {op : Op} {stage : Stage} {T : Multiset Token} {o : Owner}
      (idle : (Link.mk o (⟨op, stage⟩ ::ₘ T)).live = 0) :
      stage.live = false ∧ (Link.mk o T).live = 0 := by
    have none := Link.not_live idle (Multiset.mem_cons_self _ _)
    exact ⟨none, by simpa [Link.live, none] using idle⟩
  cases step with
  | task acts => exact absurd rfl (other _)
  | complete | dequeue | account | load | exchange | skip => cases (dead idle).1
  | wake => exact ⟨(Multiset.filter_cons_of_neg _ (by simp [Stage.live])).trans (dead idle).2, rfl⟩
  | drop => exact ⟨(dead idle).2, rfl⟩

namespace World

variable {i : Nat} {c : Code} {as : List Action} {w v u : World} {o : Owner} {a : Action}

/-- The polls of an owner used under one code keep the word of its header, as long as the
exchange of `header_lock` does not fail on the open word. -/
theorem keepsWord_of_oneCode {ok : World → Action → Prop} {loops : List Loop} {act : TaskAct}
    (steady : ∀ w a, ok w a → w.steady i a = true)
    (code : ∀ w a, ok w a → w.oneCode i c a = true) (reach : Reached ok (start loops) w)
    (good : ok w (.task i act)) : w.keepsWord (.task i act) = true := by
  obtain ⟨as, run⟩ := reach
  obtain ⟨m, -, -, -, tracks⟩ := run_mailbox steady code run
  cases owner : w.owners[i]? with
  | none => simp [keepsWord, ownerStep, owner]
  | some o =>
      have same := (tracks o owner).sameCode act
      rw [keepsWord, ownerStep_task owner]
      cases act with
      | lock spurious =>
          have exact := steady w _ good
          simp only [World.steady, owner] at exact
          simpa [Owner.keepsWord, same, or_comm] using exact
      | _ => simp [Owner.keepsWord, same]

/-- Nobody parks on an open header that is used under one code. -/
theorem reached_parks {ok : World → Action → Prop} {loops : List Loop}
    (steady : ∀ w a, ok w a → w.steady i a = true)
    (code : ∀ w a, ok w a → w.oneCode i c a = true) (run : Run next ok (start loops) as w)
    (owner : w.owners[i]? = some o) : o.Parks := by
  induction run generalizing o with
  | nil => simp [start] at owner
  | @snoc as w a v before good h ih =>
      obtain ⟨m, -, valid, -, tracks⟩ := run_mailbox steady code before
      cases earlier : w.owners[i]? with
      | none =>
          cases stepped_moves valid (next_stepped h) owner with
          | created _ _ born => exact born ▸ Owner.Parks.fresh _ _ _
          | still same | moved same => simp [earlier] at same
      | some p =>
          obtain ⟨o', owner', step⟩ := next_owner valid h earlier
          obtain rfl : o = o' := Option.some.inj (owner.symm.trans owner')
          rcases step with ⟨act, e, rfl, hact⟩ | ⟨-, drifts⟩
          · refine (ih earlier).task (fun call request pc => ?_) (Owner.act_acts hact)
            obtain ⟨-, -, word⟩ :=
              (tracks p earlier).inside (by simp [pc, Pc.outside]) (by simp [pc])
            simp only [Link.EmptyWord, pc] at word
            have pos := (p.codeOf c).word_pos
            omega
          · exact (ih earlier).drifts drifts

/-- A call that finds its result goes on to return it, whatever the others do. -/
theorem call_returns (valid : w.Valid) (owner : w.owners[i]? = some o)
    (idle : w.unprocessed i = 0) (returns : o.Returns c)
    (run : Run next (fun _ a => a.begins i = false) w as v) :
    ∃ o', v.owners[i]? = some o' ∧ o'.Returns c := by
  suffices v.Valid ∧ v.unprocessed i = 0 ∧ ∃ o', v.owners[i]? = some o' ∧ o'.Returns c from this.2.2
  refine run.invariant (P := fun v => v.Valid ∧ v.unprocessed i = 0 ∧
    ∃ o', v.owners[i]? = some o' ∧ o'.Returns c) ⟨valid, idle, o, owner, returns⟩ ?_
  rintro w a v ⟨valid, idle, o, owner, returns⟩ goes h
  have stepped := next_stepped h
  refine ⟨stepped_valid valid stepped, ?_⟩
  obtain ⟨o', owner', -⟩ := stepped_happens valid stepped owner
  cases stepped_moves valid stepped owner' with
  | created fresh =>
      rw [owner] at fresh
      cases fresh
  | still same tokens =>
      obtain rfl : o = o' := Option.some.inj (owner.symm.trans same)
      rw [unprocessed, tokens]
      exact ⟨idle, o, owner', returns⟩
  | @moved p l same concerns step =>
      obtain rfl : o = p := Option.some.inj (owner.symm.trans same)
      rcases step.task_or_other with ⟨pending, act, q, e, rfl, acts, after⟩ | other
      · obtain rfl := concerns.task
        have settles : act.settles = true := by simpa [Action.begins] using goes
        obtain ⟨returns', none⟩ := returns.task settles acts
        obtain ⟨rfl, tokens⟩ := Link.mk.inj after
        rw [unprocessed, tokens, Effect.tokens, none]
        exact ⟨by simpa [unprocessed] using idle, o', owner', returns'⟩
      · obtain ⟨idle', word⟩ := step.idle other idle
        have drifts := Owner.background_drifts step other
        exact ⟨idle', o', owner', returns.same drifts.pc drifts.last word⟩

/-- The owner alone brings its call to an end, in at most 13 steps. -/
theorem call_ends {ok : World → Action → Prop} {loops : List Loop}
    (reach : Reached ok (start loops) w) (i : Nat) :
    ∃ bs v, Run next (fun _ a => a.isTask i = true ∧ a.begins i = false) w bs v ∧
      bs.length ≤ 13 ∧ ∀ o, v.owners[i]? = some o → o.pc = .out ∨ o.pc = .dropped := by
  have lowers : Lowers next (fun _ a => a.isTask i = true ∧ a.begins i = false) (fun _ => true)
      (callRank i) := fun w a v good h => by
    have lower := call_lowers i w a v good.2 h
    rwa [good.1] at lower
  obtain ⟨bs, v, run, stuck⟩ := lowers.exists_stuck w
  have bound := lowers.length_le run
  have most := w.callRank_le i
  refine ⟨bs, v, run, by omega, fun o owner => ?_⟩
  by_contra going
  obtain ⟨out, dropped⟩ := not_or.mp going
  obtain ⟨act, settles, some⟩ := o.goes_on i v.pending out dropped
  obtain ⟨⟨o', e⟩, h⟩ := Option.isSome_iff_exists.mp some
  have reach' : Reached anyStep (start loops) v :=
    Reaches.trans ⟨_, reach.choose_spec.anyStep⟩ ⟨bs, run.anyStep⟩
  have next := settles_next reach' (step_of_act owner h) settles
  have none := stuck (.task i act) (by simp [Action.isTask, Action.begins, settles])
  rw [next] at none
  cases none

/-- A poll that begins after the packet of a parked call was processed finds the result. -/
theorem parked_poll {call : Call} {waker : Nat}
    (reach : Reached (fun w a => w.steady i a ∧ w.quietUnlockOf i a ∧ w.oneCode i c a) setup w)
    (owner : w.owners[i]? = some o) (kind : o.kind = .handle) (out : o.pc = .out)
    (parked : o.last = some .pending) (processed : w.unprocessed i = 0)
    (polls : w.next (.task i (.poll call waker)) = some v) (code : call.code = c) :
    ∃ p, v.owners[i]? = some p ∧ v.unprocessed i = 0 ∧ p.Returns c := by
  have attended := reached_attended_at
    (fun _ _ before good =>
      keepsWord_of_oneCode (fun _ _ h => h.1) (fun _ _ h => h.2.2) before good)
    (fun _ _ h => h.2.1) reach owner kind
  obtain ⟨bs, reached⟩ := reach
  obtain ⟨m, -, valid, -, tracks⟩ :=
    run_mailbox (fun _ _ h => h.1) (fun _ _ h => h.2.2) reached
  have parks := reached_parks (fun _ _ h => h.1) (fun _ _ h => h.2.2) reached owner
  have locked : o.lockWord ≠ 0 := parks.word (by simp [Owner.parked, out, parked])
  have word : o.lockWord = -c.word := by
    have handle : o.codeOf c = c := by simp [Owner.codeOf, kind]
    have open' : ¬ 0 < o.lockWord := fun pos =>
      attended.locked (by simp [out, Pc.holdsGuard]) pos processed
    rcases (tracks o owner).word (by simp [out, Pc.outside]) with
      ⟨zero, -⟩ | ⟨busy, -⟩ | ⟨ready, -⟩
    · exact absurd zero locked
    · have pos := (o.codeOf c).word_pos
      omega
    · rw [ready, handle]
  obtain ⟨p, e, acts, rfl⟩ := step_task owner (next_eq_some.mp polls).1
  have returns : p.Returns c ∧ e.tokens = 0 := by
    cases acts with
    | permit => exact ⟨⟨code, word⟩, rfl⟩
    | refusePermit => exact ⟨trivial, rfl⟩
  refine ⟨p, afterTask_owner owner p e, ?_, returns.1⟩
  rw [unprocessed, afterTask_tokensOf acts, returns.2, zero_add]
  exact processed

/-- A task that polls a parked call again after its packet was processed does not park
again: whatever the others do, the call does not return pending, and from wherever it is it
returns within 13 steps of its own. -/
theorem parked_call_returns {call : Call} {waker : Nat}
    (reach : Reached (fun w a => w.steady i a ∧ w.quietUnlockOf i a ∧ w.oneCode i c a) setup w)
    (owner : w.owners[i]? = some o) (kind : o.kind = .handle) (out : o.pc = .out)
    (parked : o.last = some .pending) (processed : w.unprocessed i = 0)
    (polls : w.next (.task i (.poll call waker)) = some v) (code : call.code = c)
    (run : Run next (fun _ a => a.begins i = false) v as u) :
    (∀ q, u.owners[i]? = some q → q.pc = .out → q.last ≠ some .pending) ∧
      ∃ bs t q, Run next (fun _ a => a.isTask i = true ∧ a.begins i = false) u bs t ∧
        bs.length ≤ 13 ∧ t.owners[i]? = some q ∧ q.pc = .out ∧ q.last ≠ some .pending := by
  obtain ⟨p, present, idle, returns⟩ :=
    parked_poll reach owner kind out parked processed polls code
  have before : Reached anyStep setup v :=
    Reaches.snoc ⟨_, reach.choose_spec.anyStep⟩ trivial polls
  have valid := reached_valid before
  have ended {ds : List Action} {t : World} {q : Owner}
      (run : Run next (fun _ a => a.begins i = false) v ds t) (owner : t.owners[i]? = some q)
      (back : q.pc = .out) : q.last ≠ some .pending := by
    obtain ⟨q', owner', done⟩ := call_returns valid present idle returns run
    obtain rfl : q = q' := Option.some.inj (owner.symm.trans owner')
    rwa [Owner.Returns, back] at done
  refine ⟨fun q owner => ended run owner, ?_⟩
  obtain ⟨bs, t, rest, few, last⟩ := call_ends (before.trans ⟨as, run.anyStep⟩) i
  have whole := run.append (rest.weaken fun _ _ good => good.2)
  obtain ⟨q, owner', done⟩ := call_returns valid present idle returns whole
  rcases last q owner' with back | dropped
  · exact ⟨bs, t, q, rest, few, owner', back, ended whole owner' back⟩
  · simp [Owner.Returns, dropped] at done

/-- A read whose packet was released is polled again. -/
theorem parked_call_returns_read :
    ∃ w v, Reached (fun w a => w.steady 0 a ∧ w.quietUnlockOf 0 a ∧ w.oneCode 0 .read a) setup w ∧
      w.next (.task 0 (.poll (.pollRead 8) 2)) = some v ∧
      ∃ bs t q, Run next (fun _ a => a.isTask 0 = true ∧ a.begins 0 = false) v bs t ∧
        bs.length ≤ 13 ∧ t.owners[0]? = some q ∧ q.pc = .out ∧ q.last ≠ some .pending := by
  obtain ⟨w, o, reach, owner, state⟩ := exec_owner
    (fun w a => w.steady 0 a ∧ w.quietUnlockOf 0 a ∧ w.oneCode 0 .read a) setup releasedRead 0
    (fun w o => ((w.unprocessed 0).card, o.kind, o.pc, o.last,
      (w.next (.task 0 (.poll (.pollRead 8) 2))).isSome))
    (0, .handle, .out, some .pending, true) (by decide)
  simp only [Prod.mk.injEq] at state
  obtain ⟨processed, kind, out, parked, possible⟩ := state
  obtain ⟨v, polls⟩ := Option.isSome_iff_exists.mp possible
  exact ⟨w, v, reach, polls, (parked_call_returns reach owner kind out parked
    (Multiset.card_eq_zero.mp processed) polls rfl .nil).2⟩

end World

end Iocp
