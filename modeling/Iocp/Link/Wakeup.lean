import Iocp.Link.LockWord
import Iocp.Model.Background

/-!
# Wakeups

A poll that returns pending relies on the packet of the operation under way
to wake it. The background thread of `setup` keeps this promise whenever it
releases a status. Its first loop only unlocks an aborted one, so a task that
waits for the packet of a cancelled operation sleeps on.
-/

namespace Iocp

open Totals Transition

namespace Pc

/-- A guard is alive that no submission has taken over. -/
def holdsGuard : Pc → Bool
  | guarded _ _ => true
  | prepared _ _ => true
  | dropOverlapped _ => true
  | dropGuard _ => true
  | _ => false

end Pc

namespace Owner

/-- The last poll has returned pending, or is bound to. -/
def parked (o : Owner) : Bool :=
  match o.pc with
  | .out => o.last = some .pending
  | .busy _ _ _ => true
  | .accepted _ => true
  | .dropPermit result => result = .pending
  | _ => false

/-- The task is parked and its waker was not woken. -/
def waits (o : Owner) : Bool := o.parked && o.header.value.waker.isSome

end Owner

namespace World

/-- `unlock` without a wake is applied to no header whose task waits. -/
def quietUnlock (w : World) : Action → Bool
  | .driver d (.exchange _) =>
      match w.drivers[d]? with
      | some ⟨_, .unlocking s _ false⟩ =>
          ((s.op.bind fun op => w.owners[op.owner]?).map fun o => !o.waits).getD true
      | _ => true
  | _ => true

/-- `unlock` without a wake is not applied to the header of owner `i` while its task waits. -/
def quietUnlockOf (i : Nat) (w : World) : Action → Bool
  | .driver d (.exchange _) =>
      match w.drivers[d]? with
      | some ⟨_, .unlocking s _ false⟩ =>
          s.op.all fun op => op.owner ≠ i || w.owners[i]?.all fun o => !o.waits
      | _ => true
  | _ => true

theorem quietUnlockOf_of_quietUnlock {w : World} {a : Action} (i : Nat)
    (quiet : w.quietUnlock a = true) : w.quietUnlockOf i a = true := by
  simp only [quietUnlock, quietUnlockOf] at quiet ⊢
  split
  case h_1 d spurious =>
      split
      case h_1 loop s old thread =>
          simp only [thread] at quiet
          cases pointer : s.op with
          | none => rfl
          | some op =>
              by_cases own : op.owner = i
              · subst own
                cases owner : w.owners[op.owner]? with
                | none => simp
                | some o => simpa [owner, pointer] using quiet
              · simp [own]
      case h_2 => rfl
  case h_2 => rfl

end World

namespace Link

/-- Somebody will wake the task that waits: its operation is under way, or the
thread that processed its packet is about to wake. -/
structure Attended (L : Link) : Prop where
  locked : L.owner.pc.holdsGuard = false → 0 < L.owner.lockWord → L.live ≠ 0
  result : ∀ r, L.owner.pc = .dropOverlapped r ∨ L.owner.pc = .dropGuard r → r ≠ .pending
  wake : L.owner.waits = true → L.live ≠ 0 ∨ ∃ t ∈ L.tokens, t.stage = .waking

section Task

variable {i : Nat} {o o' : Owner} {pending : Int} {a : TaskAct} {e : Effect} {T : Multiset Token}

/-- A guard that was not handed over is alive in no parked poll. -/
theorem not_parked_of_holdsGuard (guard : o.pc.holdsGuard = true) : o.parked = false := by
  unfold Owner.parked
  cases hpc : o.pc with
  | _ => simp_all [Pc.holdsGuard]

/-- While such a guard is alive, nobody waits. -/
theorem Attended.of_guard (guard : o.pc.holdsGuard = true)
    (result : ∀ r, o.pc = .dropOverlapped r ∨ o.pc = .dropGuard r → r ≠ .pending) :
    Attended ⟨o, T⟩ where
  locked := by simp [guard]
  result := result
  wake := by simp [Owner.waits, not_parked_of_holdsGuard guard]

theorem no_result (guard : o.pc.holdsGuard = false) :
    ∀ r, o.pc = .dropOverlapped r ∨ o.pc = .dropGuard r → r ≠ .pending := by
  rintro r (pc | pc)
  · rw [pc] at guard
    cases guard
  · rw [pc] at guard
    cases guard

/-- A step that leaves the word alone and parks nobody. -/
theorem Attended.of_unparked (guard : o.pc.holdsGuard = false) (parked : o.parked = false)
    (locked : 0 < o.lockWord → (Link.mk o T).live ≠ 0) : Attended ⟨o, T⟩ where
  locked := fun _ => locked
  result := no_result guard
  wake := by simp [Owner.waits, parked]

/-- A step between two parked program points. -/
theorem Attended.of_parked (guard : o.pc.holdsGuard = false)
    (locked : 0 < o.lockWord → (Link.mk o T).live ≠ 0)
    (wake : o.header.value.waker.isSome → (Link.mk o T).live ≠ 0 ∨ ∃ t ∈ T, t.stage = .waking) :
    Attended ⟨o, T⟩ where
  locked := fun _ => locked
  result := no_result guard
  wake := by
    intro waits
    simp only [Owner.waits, Bool.and_eq_true] at waits
    exact wake waits.2

/-- The steps of a poll and of a drop of a handle that submit nothing leave no
waiting task alone. -/
theorem Attended.quiet (attended : Attended ⟨o, T⟩) (kind : o.kind = .handle)
    (acts : o.Acts i pending a o' e) (none : e.submit = none) : Attended ⟨o', T⟩ := by
  obtain ⟨locked, result, wake⟩ := attended
  simp only [Owner.waits, Owner.parked] at wake
  cases acts with
  | submit pc accepted => cases none
  | permit pc kind granted => exact .of_unparked rfl rfl (locked (by rw [pc]; rfl))
  | refusePermit pc kind refused => exact .of_unparked rfl rfl (locked (by rw [pc]; rfl))
  | undoPermit pc => exact .of_unparked rfl rfl (locked (by rw [pc]; rfl))
  | registerWaker pc => exact .of_unparked rfl rfl (locked (by rw [pc]; rfl))
  | lockOpen pc word => exact .of_guard rfl (by simp)
  | lockBusy pc word =>
      have some := locked (by simp only [pc]; rfl) word
      exact .of_parked rfl (fun _ => some) (fun _ => .inl some)
  | lockStore pc word failed => exact .of_unparked rfl rfl (locked (by rw [pc]; rfl))
  | storeOpen pc => exact .of_guard rfl (by simp)
  | leaveBusy pc =>
      refine .of_parked rfl (locked (by rw [pc]; rfl)) fun waker => ?_
      exact wake (by simpa [pc] using waker)
  | prepareRequest pc prepared => exact .of_guard rfl (by simp)
  | prepareFail pc notPending => exact .of_guard rfl (by simpa using notPending)
  | refuseSubmit pc refused => exact .of_guard rfl (by simp)
  | forget pc =>
      refine .of_parked rfl (locked (by rw [pc]; rfl)) fun waker => ?_
      exact wake (by simpa [pc] using waker)
  | dropOverlapped pc => exact .of_guard rfl (by simpa using result _ (.inl pc))
  | collect pc notPending => exact .of_guard rfl (by simpa using notPending)
  | dropGuard pc =>
      have notPending := result _ (.inr pc)
      exact .of_unparked rfl (by simpa [Owner.parked] using notPending)
        (fun pos => absurd pos (by simp [Owner.lockWord, Arc.modify, Header.unlockToOpen]))
  | dropGuardPanic pc socket =>
      rw [kind] at socket
      cases socket
  | @dropPermit r pc =>
      by_cases hr : r = .pending
      · refine .of_parked rfl (locked (by rw [pc]; rfl)) fun waker => ?_
        exact wake (by simpa [pc, hr] using waker)
      · exact .of_unparked rfl (by simp [Owner.parked, hr]) (locked (by rw [pc]; rfl))
  | drop pc => exact .of_unparked rfl rfl (locked (by rw [pc]; rfl))
  | leaveDrop pc => exact .of_unparked rfl rfl (locked (by rw [pc]; rfl))
  | dropFields pc => exact .of_unparked rfl rfl (locked (by rw [pc]; rfl))

/-- The steps of a poll and of a drop of a handle leave no waiting task alone. -/
theorem Attended.task (attended : Attended ⟨o, T⟩) (kind : o.kind = .handle)
    (acts : o.Acts i pending a o' e) : Attended ⟨o', e.tokens + T⟩ := by
  cases submit : e.submit with
  | none =>
      rw [Effect.tokens_none submit]
      exact attended.quiet kind acts submit
  | some op =>
      rw [Effect.tokens_some submit]
      obtain ⟨call, request, pc, rfl, rfl⟩ := acts.submitted submit
      have some (p : Owner) :
          (Link.mk p (⟨o.submission i call request, .inFlight⟩ ::ₘ T)).live ≠ 0 :=
        live_ne_zero rfl
      exact .of_parked rfl (fun _ => some _) (fun _ => .inl (some _))

end Task

section Background

variable {i : Nat} {L L' : Link} {l : Label}

/-- An operation under way attends to whoever waits. -/
theorem Attended.of_live
    (result : ∀ r, L.owner.pc = .dropOverlapped r ∨ L.owner.pc = .dropGuard r → r ≠ .pending)
    (some : L.live ≠ 0) : Attended L where
  locked := fun _ _ => some
  result := result
  wake := fun _ => .inl some

/-- What the operating system and the background thread do leaves no waiting
task alone, unless `unlock` is applied where somebody waits. -/
theorem Attended.background (attended : Attended L) (sound : L.Sound i) (step : Step i L l L')
    (other : ∀ a, l ≠ .task a) (noSkip : l ≠ .driver .skip)
    (quiet : ∀ spurious, l = .unlock false spurious → L.owner.waits = false) : Attended L' := by
  have ⟨locked, result, wake⟩ := attended
  cases step with
  | task acts => exact absurd rfl (other _)
  | skip => exact absurd rfl noSkip
  | complete admits => exact .of_live result (live_ne_zero rfl)
  | dequeue => exact .of_live result (live_ne_zero rfl)
  | account => exact .of_live result (live_ne_zero rfl)
  | load =>
      have pos := sound.word_pos (live_ne_zero rfl)
      refine .of_live result ?_
      rw [unlockLoad_pos pos]
      exact live_ne_zero rfl
  | @exchange o op old release spurious T =>
      have pos := sound.word_pos (live_ne_zero rfl)
      rcases unlockExchange_pos pos old spurious with won | retry
      · rw [won]
        refine ⟨fun _ h => ?_, result, fun waits => ?_⟩
        · change 0 < -o.header.value.lock at h
          simp only [Owner.lockWord] at pos
          omega
        · cases release with
          | true => exact .inr ⟨_, Multiset.mem_cons_self _ _, rfl⟩
          | false =>
              have waits : o.waits = true := waits
              rw [quiet spurious rfl] at waits
              cases waits
      · rw [retry]
        exact .of_live result (live_ne_zero rfl)
  | @wake o op T =>
      refine ⟨fun guard word => ?_, result, fun waits => ?_⟩
      · have some := locked guard word
        rw [live_cons, if_neg (by simp [Stage.live])] at some ⊢
        exact some
      · simp [Owner.waits, Arc.modify, Header.wake] at waits
  | @drop o op T =>
      have same : (Link.mk o (⟨op, .done⟩ ::ₘ T)).live = (Link.mk o T).live := by
        rw [live_cons, if_neg (by simp [Stage.live])]
      refine ⟨fun guard word => same ▸ locked guard word, result, fun waits => ?_⟩
      rcases wake waits with some | ⟨t, ht, waking⟩
      · exact .inl (same ▸ some)
      · rcases Multiset.mem_cons.mp ht with rfl | ht
        · cases waking
        · exact .inr ⟨t, ht, waking⟩

/-- Every step of a handle under the background thread keeps waiting tasks attended. -/
theorem Attended.step (attended : L.owner.kind = .handle → Attended L) (sound : L.Sound i)
    (step : Step i L l L') (noSkip : l ≠ .driver .skip)
    (quiet : ∀ spurious, l = .unlock false spurious → L.owner.waits = false)
    (kind : L'.owner.kind = .handle) : Attended L' := by
  rcases step.task_or_other with ⟨pending, a, o', e, rfl, acts, rfl⟩ | other
  · have handle := acts.key_kind.2 ▸ kind
    exact (attended handle).task handle acts
  · have same : L'.owner.kind = L.owner.kind := by
      cases step with
      | task acts => exact absurd rfl (other _)
      | _ => rfl
    exact (attended (same ▸ kind)).background sound step other noSkip quiet

end Background

end Link

namespace World

/-- The condition of `quietUnlockOf` at one exchange. -/
theorem quietUnlockOf_exchange {w : World} {d : Nat} {t : Driver} {s : Status} {old : Int} {op : Op}
    {o : Owner} {spurious : Bool} (thread : w.drivers[d]? = some t)
    (pc : t.pc = .unlocking s old false) (pointer : s.op = some op)
    (owner : w.owners[op.owner]? = some o)
    (quiet : w.quietUnlockOf op.owner (.driver d (.exchange spurious)) = true) :
    o.waits = false := by
  obtain ⟨loop, pc'⟩ := t
  simp only at pc
  subst pc
  simpa [quietUnlockOf, thread, pointer, owner] using quiet

/-- In every run of the background thread in which the polls of a handle keep its lock word
and its header is not only unlocked while its task waits, the task is attended to. -/
theorem reached_attended_at {ok : World → Action → Prop} {w : World} {i : Nat} {o : Owner}
    (keeps : ∀ w act, Reached ok setup w → ok w (.task i act) →
      w.keepsWord (.task i act) = true)
    (quiet : ∀ w a, ok w a → w.quietUnlockOf i a = true) (reach : Reached ok setup w)
    (owner : w.owners[i]? = some o) (kind : o.kind = .handle) :
    Link.Attended ⟨o, w.tokensOf i⟩ := by
  suffices all : w.AllLinks fun j L => j = i → L.owner.kind = .handle → L.Attended from
    all i o owner rfl kind
  refine reached_links reach ?_ ?_
  · intro j kind key size _ _
    exact .of_unparked rfl rfl (fun pos => absurd pos (lt_irrefl 0))
  · rintro w a j o l L before good owner' concerns step attended rfl
    have sound := reached_sound_at keeps before owner'
    refine Link.Attended.step (attended rfl) sound step ?_ ?_
    · rintro rfl
      obtain ⟨t, member, user⟩ := concerns.skip
      obtain ⟨u, drivers, loop⟩ := reached_background before
      rw [drivers, List.mem_singleton] at member
      exact loop (member ▸ user)
    · rintro spurious rfl
      obtain ⟨d, t, s, old, op, rfl, thread, pc, pointer, rfl⟩ := concerns.unlock
      exact quietUnlockOf_exchange thread pc pointer owner' (quiet w _ good)

/-- In every run of the background thread that keeps the lock word and unlocks
no header whose task waits, every waiting task of a handle is attended to. -/
theorem reached_attended {w : World}
    (reach : Reached (fun w a => w.keepsWord a ∧ w.quietUnlock a) setup w) :
    w.AllLinks fun _ L => L.owner.kind = .handle → L.Attended :=
  fun i _ owner kind =>
    reached_attended_at (fun _ _ _ good => good.1)
      (fun _ _ good => quietUnlockOf_of_quietUnlock i good.2) reach owner kind

/-- A parked task whose last registered waker was not woken has an operation
in flight, a packet in the queue or a thread in the middle of processing it,
as long as polls keep the lock word and the background thread unlocks no
header without a wake while its task waits. -/
theorem parked_task_outstanding {w : World}
    (reach : Reached (fun w a => w.keepsWord a ∧ w.quietUnlock a) setup w) {i : Nat} {o : Owner}
    (owner : w.owners[i]? = some o) (kind : o.kind = .handle) (pc : o.pc = .out)
    (parked : o.last = some .pending) (waker : o.header.value.waker.isSome) :
    ∃ t ∈ w.tokensOf i, t.stage ≠ .done := by
  have attended := reached_attended reach i o owner kind
  have waits : o.waits = true := by
    simp [Owner.waits, Owner.parked, pc, parked, waker]
  rcases attended.wake waits with some | ⟨t, member, waking⟩
  · obtain ⟨t, ht⟩ := Multiset.exists_mem_of_ne_zero some
    obtain ⟨member, hl⟩ := Multiset.mem_filter.mp ht
    refine ⟨t, member, fun hd => ?_⟩
    rw [hd] at hl
    cases hl
  · exact ⟨t, member, by simp [waking]⟩

theorem parked_task_outstanding_read :
    ∃ w, Reached (fun w a => w.keepsWord a ∧ w.quietUnlock a) setup w ∧
      ∃ t ∈ w.tokensOf 0, t.stage ≠ .done := by
  obtain ⟨w, o, reach, owner, state⟩ :=
    exec_owner (fun w a => w.keepsWord a ∧ w.quietUnlock a) setup Schedule.pendingRead 0
      (fun _ o => (o.kind, o.pc, o.last, o.header.value.waker))
      (.handle, .out, some .pending, some 1) (by decide)
  simp only [Prod.mk.injEq] at state
  obtain ⟨kind, pc, parked, waker⟩ := state
  exact ⟨w, reach, parked_task_outstanding reach owner kind pc parked (by simp [waker])⟩

/-- A write polled while a read is in flight cancels it and parks its task;
the background thread then only unlocks the aborted packet. -/
def abortedWait : List Action :=
  Schedule.pendingRead ++ Schedule.enter 0 (.pollWrite [5]) 2 ++ Schedule.busy 0 ++
    [.complete 0 (.failure Win32.errorOperationAborted 0 [])] ++ Schedule.drive 0 false

/-- The task parked on a cancelled operation is never woken. -/
theorem aborted_wakeup_lost :
    ¬ ∀ w, Reached anyStep setup w → ∀ i o, w.owners[i]? = some o → o.kind = .handle →
      o.pc = .out → o.last = some .pending → o.header.value.waker.isSome →
      ∃ t ∈ w.tokensOf i, t.stage ≠ .done := by
  intro always
  obtain ⟨w, o, reach, owner, state⟩ :=
    exec_owner anyStep setup abortedWait 0
      (fun w o => (o.kind, o.pc, o.last, o.header.value.waker, (w.tokensOf 0).card))
      (.handle, .out, some .pending, some 2, 0) (by decide)
  simp only [Prod.mk.injEq, Multiset.card_eq_zero] at state
  obtain ⟨kind, pc, parked, waker, none⟩ := state
  obtain ⟨t, member, -⟩ := always w reach 0 o owner kind pc parked (by simp [waker])
  rw [none] at member
  exact Multiset.notMem_zero t member

end World

end Iocp
