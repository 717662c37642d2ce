import Iocp.Port.Counter

/-!
# Polling again while an operation is under way

A poll that finds its own code in the lock word should return pending and do
nothing else. The flag that tells it so from a foreign code is `id != -n`
where the word `n` is positive, hence always true: every such poll cancels
the operation it waits for.
-/

namespace Iocp

open Transition

namespace World

/-- Owner `i` takes steps, and nobody else, until its poll has returned. -/
inductive Returns (i : Nat) : World → World → Prop
  | out {w o} (owner : w.owners[i]? = some o) (pc : o.pc = .out) : Returns i w w
  | step {w o a v u} (owner : w.owners[i]? = some o) (pc : o.pc ≠ .out)
      (h : w.step (.task i a) = some v) (rest : Returns i v u) : Returns i w u

/-- One poll of owner `i` from its call to its return, with nobody in between. -/
def Polls (w : World) (i : Nat) (call : Call) (waker : Nat) (v : World) : Prop :=
  ∃ u, w.step (.task i (.poll call waker)) = some u ∧ Returns i u v

/-- The poll returned pending and changed nothing but the registered waker. -/
def Harmless (w : World) (i : Nat) (o : Owner) (waker : Nat) (v : World) : Prop :=
  v = { w with owners := w.owners.set i { o with
    header := o.header.modify (·.registerByRef waker)
    last := some .pending } }

/-- What a poll that finds a positive word does: it returns pending, and cancels. -/
def busyPoll (w : World) (i : Nat) (o : Owner) (waker : Nat) : World :=
  { w with
    owners := w.owners.set i { o with
      header := o.header.modify (·.registerByRef waker)
      last := some .pending }
    cancels := i :: w.cancels }

/-- What a poll does while the port is shutting down: it returns the error. -/
def refusedPoll (w : World) (i : Nat) (o : Owner) : World :=
  { w with owners := w.owners.set i { o with
    last := some (.failed (.other "port is shutting down")) } }

section Poll

variable {w v u : World} {i : Nat} {o : Owner} {call : Call} {waker : Nat}

theorem returned_iff (owner : w.owners[i]? = some o) (pc : o.pc = .out) :
    Returns i w u ↔ u = w := by
  constructor
  · intro returns
    cases returns with
    | out owner' pc' => rfl
    | step owner' pc' h rest =>
        rw [owner, Option.some.injEq] at owner'
        exact absurd pc (owner' ▸ pc')
  · rintro rfl
    exact .out owner pc

/-- A poll with one step to take goes on from the state after it. -/
theorem returns_iff {o' : Owner} {a : TaskAct} {e : Effect} (owner : w.owners[i]? = some o)
    (pc : o.pc ≠ .out) (h : o.act i w.pending a = some (o', e))
    (only : ∀ b p f, o.Acts i w.pending b p f → p = o' ∧ f = e) :
    Returns i w u ↔ Returns i (w.afterTask i o' e) u := by
  constructor
  · intro returns
    cases returns with
    | out owner' pc' =>
        rw [owner, Option.some.injEq] at owner'
        exact absurd (owner' ▸ pc') pc
    | step owner' pc' h' rest =>
        obtain ⟨p, f, acts, rfl⟩ := step_task owner h'
        obtain ⟨rfl, rfl⟩ := only _ p f acts
        exact rest
  · exact fun rest => .step owner pc (step_of_act owner h) rest

/-- The permit of a poll is dropped last. -/
theorem returns_dropPermit {result : PollResult} (owner : w.owners[i]? = some o)
    (pc : o.pc = .dropPermit result) :
    Returns i w u ↔
      u = w.afterTask i { o with pc := .out, last := some result } { add := -1 } := by
  have h : o.act i w.pending .dropPermit =
      some ({ o with pc := .out, last := some result }, { add := -1 }) := by
    simp [Owner.act, Owner.dropPermit, pc]
  rw [returns_iff owner (by simp [pc]) h]
  · exact returned_iff (afterTask_owner owner _ _) rfl
  · intro b p f acts
    cases acts with
    | dropPermit pc' =>
        rw [pc, Pc.dropPermit.injEq] at pc'
        subst pc'
        exact ⟨rfl, rfl⟩
    | _ => simp_all

/-- A poll that found a positive word. -/
theorem returns_busy {found : Int} {mismatch : Bool} (owner : w.owners[i]? = some o)
    (pc : o.pc = .busy call found mismatch) :
    Returns i w u ↔
      u = (w.afterTask i { o with pc := .dropPermit .pending } { cancel := mismatch }).afterTask i
        { o with pc := .out, last := some .pending } { add := -1 } := by
  have h : o.act i w.pending .leaveBusy =
      some ({ o with pc := .dropPermit .pending }, { cancel := mismatch }) := by
    simp [Owner.act, Owner.leaveBusy, pc]
  rw [returns_iff owner (by simp [pc]) h]
  · have busy := afterTask_owner owner { o with pc := .dropPermit .pending } { cancel := mismatch }
    have last := returns_dropPermit (u := u) busy rfl
    exact last
  · intro b p f acts
    cases acts with
    | leaveBusy pc' =>
        rw [pc, Pc.busy.injEq] at pc'
        obtain ⟨rfl, rfl, rfl⟩ := pc'
        exact ⟨rfl, rfl⟩
    | _ => simp_all

/-- A poll about to make its exchange on a positive word. -/
theorem returns_registered (owner : w.owners[i]? = some o) (pc : o.pc = .registered call)
    (word : 0 < o.lockWord) :
    Returns i w u ↔
      Returns i (w.afterTask i { o with pc := .busy call o.lockWord true } {}) u := by
  have h : o.act i w.pending (.lock false) =
      some ({ o with pc := .busy call o.lockWord true }, {}) := by
    simp only [Owner.act, Owner.lock, pc]
    rw [Header.headerLock_busy word]
    rfl
  apply returns_iff owner (by simp [pc]) h
  intro b p f acts
  cases acts with
  | lockBusy pc' word' =>
      rw [pc, Pc.registered.injEq] at pc'
      subst pc'
      exact ⟨rfl, rfl⟩
  | lockOpen pc' word' => omega
  | lockStore pc' word' failed => omega
  | _ => simp_all

theorem returns_permitted (owner : w.owners[i]? = some o) (pc : o.pc = .permitted call waker) :
    Returns i w u ↔ Returns i (w.afterTask i { o with
      pc := .registered call
      header := o.header.modify (·.registerByRef waker) } {}) u := by
  have h : o.act i w.pending .registerWaker = some ({ o with
      pc := .registered call
      header := o.header.modify (·.registerByRef waker) }, {}) := by
    simp [Owner.act, Owner.registerWaker, pc]
  apply returns_iff owner (by simp [pc]) h
  intro b p f acts
  cases acts with
  | registerWaker pc' =>
      rw [pc, Pc.permitted.injEq] at pc'
      obtain ⟨rfl, rfl⟩ := pc'
      exact ⟨rfl, rfl⟩
  | _ => simp_all

theorem returns_permitFailed (owner : w.owners[i]? = some o) (pc : o.pc = .permitFailed) :
    Returns i w u ↔ u = w.afterTask i { o with
      pc := .out
      last := some (.failed (.other "port is shutting down")) } { add := -1 } := by
  have h : o.act i w.pending .undoPermit = some ({ o with
      pc := .out
      last := some (.failed (.other "port is shutting down")) }, { add := -1 }) := by
    simp [Owner.act, Owner.undoPermit, pc]
  rw [returns_iff owner (by simp [pc]) h]
  · exact returned_iff (afterTask_owner owner _ _) rfl
  · intro b p f acts
    cases acts with
    | undoPermit pc' => exact ⟨rfl, rfl⟩
    | _ => simp_all

/-- Every poll that finds a positive word returns, and ends in the same way. -/
theorem polls_iff (owner : w.owners[i]? = some o) (pc : o.pc = .out) (kind : call.kind = o.kind)
    (word : 0 < o.lockWord) (bounds : isize w.pending = w.pending) :
    w.Polls i call waker v ↔
      v = if 0 ≤ w.pending then w.busyPoll i o waker else w.refusedPoll i o := by
  have h : o.act i w.pending (.poll call waker) = some ({ o with
      pc := if 0 ≤ w.pending then .permitted call waker else .permitFailed }, { add := 1 }) := by
    simp [Owner.act, Owner.poll, pc, kind]
  simp only [Polls, step_of_act owner h, Option.some.injEq, exists_eq_left']
  by_cases granted : 0 ≤ w.pending
  · simp only [if_pos granted]
    have permitted := afterTask_owner owner { o with pc := .permitted call waker } { add := 1 }
    refine (returns_permitted permitted rfl).trans ?_
    have registered := afterTask_owner permitted { o with
      pc := .registered call
      header := o.header.modify (·.registerByRef waker) } {}
    refine (returns_registered registered rfl word).trans ?_
    refine (returns_busy (afterTask_owner registered _ _) rfl).trans ?_
    simp [afterTask, busyPoll, isize_isize_add, bounds, ← pc]
  · simp only [if_neg granted]
    refine (returns_permitFailed (afterTask_owner owner _ _) rfl).trans ?_
    simp [afterTask, refusedPoll, isize_isize_add, bounds, ← pc]

end Poll

end World

/-- The exchange of `header_lock` does not find the word of its own code. -/
def Owner.foreignBusy (o : Owner) : TaskAct → Bool
  | .lock _ =>
      match o.pc with
      | .registered call => o.lockWord ≠ call.code.word
      | _ => true
  | _ => true

namespace World

/-- No exchange of `header_lock` finds the word of its own code. -/
def foreignBusy (w : World) (a : Action) : Bool := w.ownerStep Owner.foreignBusy a

/-- In runs where no poll finds its own code, a busy poll has found another one. -/
theorem reached_foreign {loops : List Loop} {w : World}
    (reach : Reached (fun w a => w.foreignBusy a) (start loops) w) :
    w.AllLinks fun _ L => ∀ call found mismatch, L.owner.pc = .busy call found mismatch →
      found ≠ call.code.word := by
  refine reached_links reach ?_ ?_
  · intro i kind key size call found mismatch pc
    cases pc
  · intro w a i o l L _ good owner concerns step foreign call found mismatch pc
    rcases step.task_or_other with ⟨pending, act, o', e, rfl, acts, rfl⟩ | other
    · have own : o.foreignBusy act = true := by
        have good : w.foreignBusy a = true := good
        rwa [concerns.task, foreignBusy, ownerStep_task owner] at good
      cases acts with
      | lockBusy pc' word =>
          change o.pc = _ at pc'
          simp only [Owner.foreignBusy, pc', decide_eq_true_eq] at own
          cases pc
          exact own
      | _ => cases pc
    · rw [Link.background_pc step other] at pc
      exact foreign call found mismatch pc

/-- What a step that cancels an operation was: a poll that found the word of
another code, or the drop of the owner. -/
inductive CancelCause (w : World) (a : Action) (i : Nat) (o : Owner) : Prop
  | foreign {call found mismatch} (action : a = .task i .leaveBusy)
      (pc : o.pc = .busy call found mismatch) (other : found ≠ call.code.word)
  | dropped {state} (action : a = .task i .leaveDrop) (pc : o.pc = .dropping state)

/-- In runs where no poll finds its own code, only foreign polls and drops cancel. -/
theorem cancel_cause {loops : List Loop} {w v : World} {a : Action}
    (reach : Reached (fun w a => w.foreignBusy a) (start loops) w) (h : w.next a = some v)
    (cancels : v.cancels ≠ w.cancels) :
    ∃ i o, w.owners[i]? = some o ∧ v.cancels = i :: w.cancels ∧ w.CancelCause a i o := by
  cases next_stepped h with
  | @task i o act o' e owner acts =>
      refine ⟨i, o, owner, ?_⟩
      cases acts with
      | @leaveBusy call found mismatch pc =>
          have other := reached_foreign reach i o owner call found mismatch pc
          simp only [afterTask] at cancels ⊢
          split at cancels
          · exact ⟨if_pos ‹_›, .foreign rfl pc other⟩
          · exact absurd rfl cancels
      | @leaveDrop state pc =>
          simp only [afterTask] at cancels ⊢
          split at cancels
          · exact ⟨if_pos ‹_›, .dropped rfl pc⟩
          · exact absurd rfl cancels
      | _ => exact absurd rfl cancels
  | driver thread driven =>
      cases driven <;> exact absurd rfl cancels
  | _ => exact absurd rfl cancels

section Never

variable {w v : World} {i : Nat} {o : Owner} {call : Call} {waker : Nat}

/-- A poll that finds its own word is never harmless: it cancels the operation
it waits for, or is refused. -/
theorem not_harmless (polls : w.Polls i call waker v) (owner : w.owners[i]? = some o)
    (pc : o.pc = .out) (kind : call.kind = o.kind) (word : o.lockWord = call.code.word)
    (bounds : isize w.pending = w.pending) : ¬ w.Harmless i o waker v := by
  intro harmless
  have same := (polls_iff owner pc kind (word ▸ call.code.word_pos) bounds).mp polls
  rw [same, Harmless] at harmless
  split at harmless
  · have cancels := congrArg World.cancels harmless
    simp [busyPoll] at cancels
  · obtain ⟨hlt, -⟩ := List.getElem?_eq_some_iff.mp owner
    have owners := congrArg (fun w => w.owners[i]?) harmless
    simp [refusedPoll, List.getElem?_set_self hlt] at owners

end Never

/-- Polling again with the code of the lock word is harmless in no reachable
state: the poll returns pending and cancels the operation, or the port refuses
it. A cancellation comes from a poll with another code or from a drop in the
runs in which no poll finds the word of its own code. -/
theorem repoll_never_harmless {loops : List Loop} {w : World}
    (reach : Reached anyStep (start loops) w) :
    (∀ i o call waker, w.owners[i]? = some o → o.pc = .out → call.kind = o.kind →
      o.lockWord = call.code.word →
      (∃ v, w.Polls i call waker v) ∧
        ∀ v, w.Polls i call waker v → ¬ w.Harmless i o waker v ∧
          v = if 0 ≤ w.pending then w.busyPoll i o waker else w.refusedPoll i o) ∧
    (Reached (fun w a => w.foreignBusy a) (start loops) w → ∀ a v, w.next a = some v →
      v.cancels ≠ w.cancels →
      ∃ i o, w.owners[i]? = some o ∧ v.cancels = i :: w.cancels ∧ w.CancelCause a i o) := by
  have bounds := reached_isize reach
  constructor
  · intro i o call waker owner pc kind word
    have pos : 0 < o.lockWord := word ▸ call.code.word_pos
    have ends (v : World) : w.Polls i call waker v ↔ _ := polls_iff owner pc kind pos bounds
    refine ⟨⟨_, (ends _).mpr rfl⟩, fun v polls => ⟨?_, (ends v).mp polls⟩⟩
    exact not_harmless polls owner pc kind word bounds
  · intro foreign a v h cancels
    exact cancel_cause foreign h cancels

/-- The read in flight of a handle is cancelled by polling the read again. -/
theorem repoll_never_harmless_read :
    ∃ w o v, Reached anyStep setup w ∧ w.owners[0]? = some o ∧
      w.Polls 0 (.pollRead 8) 2 v ∧ v = w.busyPoll 0 o 2 ∧ ¬ w.Harmless 0 o 2 v := by
  obtain ⟨w, o, reach, owner, state⟩ :=
    exec_owner anyStep setup Schedule.pendingRead 0
      (fun w o => (o.pc, o.kind, o.lockWord, w.pending)) (.out, .handle, Code.read.word, 1)
      (by decide)
  simp only [Prod.mk.injEq] at state
  obtain ⟨pc, kind, word, pending⟩ := state
  obtain ⟨⟨v, polls⟩, all⟩ :=
    (repoll_never_harmless reach).1 0 o (.pollRead 8) 2 owner pc kind.symm word
  obtain ⟨harmful, cancelled⟩ := all v polls
  rw [pending] at cancelled
  exact ⟨w, o, v, reach, owner, polls, cancelled, harmful⟩

/-- Polling a read again while it is in flight is not harmless. -/
theorem repolled_read_cancelled :
    ¬ ∀ w, Reached anyStep setup w → ∀ i o call waker v, w.owners[i]? = some o → o.pc = .out →
      call.kind = o.kind → o.lockWord = call.code.word → w.Polls i call waker v →
      w.Harmless i o waker v := by
  intro always
  obtain ⟨w, o, reach, owner, state⟩ :=
    exec_owner anyStep setup Schedule.pendingRead 0
      (fun _ o => (o.pc, o.kind, o.lockWord)) (.out, .handle, Code.read.word) (by decide)
  simp only [Prod.mk.injEq] at state
  obtain ⟨pc, kind, word⟩ := state
  have same : (Call.pollRead 8).kind = o.kind := kind.symm
  have bounds := reached_isize reach
  obtain ⟨v, polls⟩ : ∃ v, w.Polls 0 (.pollRead 8) 2 v :=
    ⟨_, (polls_iff owner pc same (word ▸ Code.read.word_pos) bounds).mpr rfl⟩
  exact not_harmless polls owner pc same word bounds
    (always w reach 0 o (.pollRead 8) 2 v owner pc same word polls)

end World

end Iocp
