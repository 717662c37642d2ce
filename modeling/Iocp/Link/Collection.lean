import Iocp.Library.Mailbox
import Iocp.Link.History
import Iocp.Port.Shutdown

/-!
# Headers are mailboxes

A header that is only used under one code is a mailbox with one slot. The
owner visits it in polls and knocks with the exchange of `header_lock`, the
operating system finishes what was submitted, and a driving thread unlocks
it. A knock that finds the processed completion collects it.

## Implementation notes

The report of an operation is what the operating system wrote into the status
fields of OVERLAPPED. A result counts as collected when a guard is entered in
state pending, with what these fields hold then. That the poll reads the same
when it calls `GetOverlappedResult` is a theorem of `Link.Taking`.
-/

namespace Iocp

open Totals Transition Mailbox

/-- What a step of owner `i` is for the mailbox of its header: the guard that is entered in
state pending collects. -/
def Owner.mail (i : Nat) (o : Owner) (pending : Int) : TaskAct → List (Event Op Internal)
  | .poll _ _ => if 0 ≤ pending then [.visit] else []
  | .lock _ => [.knock]
  | .storeOpen =>
      match o.pc with
      | .storing call n =>
          if (o.header.value.headerLockStore call.code n).2 = .pending
          then [.collect o.header.value.raw.internal] else []
      | _ => []
  | .submit answer =>
      match o.pc, handleIoPending answer with
      | .prepared call request, .ok () => [.submit (o.submission i call request)]
      | _, _ => []
  | _ => []

namespace World

/-- What a step of the system is for the mailbox of the header of owner `i`. -/
def mail (i : Nat) (w : World) : Action → List (Event Op Internal)
  | .task j act =>
      match w.owners[j]? with
      | some o => if j = i then o.mail i w.pending act else []
      | none => []
  | .complete k status =>
      match w.inFlight[k]? with
      | some op => if op.owner = i then [.finish op (.final op status)] else []
      | none => []
  | .driver d (.exchange spurious) =>
      match w.unlocking d, w.owners[i]? with
      | some (op, old, _), some o =>
          if op.owner = i ∧ (o.header.value.unlockExchange old spurious).2 = .returned true
          then [.unlock] else []
      | _, _ => []
  | _ => []

section Mail

variable {w : World} {i : Nat} {o : Owner}

theorem mail_task {act : TaskAct} (owner : w.owners[i]? = some o) :
    w.mail i (.task i act) = o.mail i w.pending act := by
  simp [mail, owner]

theorem mail_complete {k : Nat} {op : Op} (flight : w.inFlight[k]? = some op)
    (own : op.owner = i) (status : Final) :
    w.mail i (.complete k status) = [.finish op (.final op status)] := by
  simp [mail, flight, own]

theorem mail_exchange {d : Nat} {op : Op} {old : Int} {release spurious : Bool}
    (thread : w.unlocking d = some (op, old, release)) (own : op.owner = i)
    (owner : w.owners[i]? = some o) :
    w.mail i (.driver d (.exchange spurious)) =
      if (o.header.value.unlockExchange old spurious).2 = .returned true
        then [.unlock] else [] := by
  simp [mail, thread, own, owner]

/-- What an observer does not see is nothing for the mailbox. -/
theorem mail_silent {a : Action} (silent : w.Silent i a) : w.mail i a = [] := by
  cases a with
  | task j act =>
      simp only [mail]
      split
      · exact if_neg silent
      · rfl
  | complete k status =>
      simp only [mail]
      split
      case h_1 op flight => exact if_neg (silent op flight)
      case h_2 => rfl
  | driver d act =>
      cases act with
      | exchange spurious =>
          simp only [mail]
          split
          case h_1 op old release o thread owner =>
              exact if_neg fun h => silent op old release thread h.1
          case h_2 => rfl
      | _ => rfl
  | _ => rfl

end Mail

end World

namespace Pc

/-- A poll has begun and not yet made its exchange. -/
def visiting : Pc → Bool
  | permitted _ _ => true
  | registered _ => true
  | _ => false

/-- No guard is alive or about to be. -/
def outside : Pc → Bool
  | storing _ _ => false
  | guarded _ _ => false
  | prepared _ _ => false
  | dropOverlapped _ => false
  | dropGuard _ => false
  | _ => true

/-- The call a poll is about. -/
def call : Pc → Option Call
  | permitted call _ => some call
  | registered call => some call
  | busy call _ _ => some call
  | storing call _ => some call
  | guarded call _ => some call
  | prepared call _ => some call
  | accepted call => some call
  | _ => none

end Pc

namespace Link

/-- The word of a header whose mailbox is empty, by the program point of its owner. -/
def EmptyWord (c : Code) (o : Owner) : Prop :=
  match o.pc with
  | .guarded _ .idle => o.lockWord = c.word
  | .prepared _ _ => o.lockWord = c.word
  | .guarded _ .pending => o.lockWord = 0
  | .storing _ _ => False
  | .accepted _ => False
  | _ => o.lockWord = 0 ∨ o.lockWord = c.word

/-- How the slot of the mailbox shows in the header. -/
def Shows (c : Code) (L : Link) : Slot Op Internal → Prop
  | .empty => L.live = 0 ∧ EmptyWord c L.owner
  | .submitted x =>
      L.owner.pc.outside = true ∧ L.owner.lockWord = c.word ∧ L.live = {⟨x, .inFlight⟩}
  | .finished x r =>
      L.owner.pc.outside = true ∧ L.owner.lockWord = c.word ∧
        L.owner.header.value.raw.internal = r ∧
        (L.live = 0 ∨ ∃ stage, stage ≠ .inFlight ∧ L.live = {⟨x, stage⟩})
  | .ready _ r =>
      L.owner.pc.outside = true ∧ L.owner.lockWord = -c.word ∧
        L.owner.header.value.raw.internal = r ∧ L.live = 0
  | .leaving _ r =>
      (∃ call, L.owner.pc = .storing call (-c.word)) ∧ L.owner.lockWord = -c.word ∧
        L.owner.header.value.raw.internal = r ∧ L.live = 0

/-- The header is a mailbox used under one code. -/
structure Tracks (c : Code) (m : State Op Internal) (L : Link) : Prop where
  visiting : m.visiting = L.owner.pc.visiting
  code : ∀ call, L.owner.pc.call = some call → call.code = c
  slot : L.Shows c m.slot

section Task

variable {c : Code} {m : State Op Internal} {i : Nat} {o o' : Owner} {pending : Int}
  {a : TaskAct} {e : Effect} {T : Multiset Token}

theorem emptyWord_outside (outside : o.pc.outside = true) :
    EmptyWord c o ↔ (∀ call, o.pc ≠ .accepted call) ∧ (o.lockWord = 0 ∨ o.lockWord = c.word) := by
  cases hpc : o.pc <;> simp_all [EmptyWord, Pc.outside]

/-- The word of a header without a guard, by its slot. -/
theorem Tracks.word (tracks : Tracks c m ⟨o, T⟩) (outside : o.pc.outside = true) :
    (o.lockWord = 0 ∧ m.slot = .empty) ∨
      (o.lockWord = c.word ∧ (∀ x r, m.slot ≠ .ready x r)) ∨
      (o.lockWord = -c.word ∧ ∃ x, m.slot = .ready x o.header.value.raw.internal) := by
  have shows := tracks.slot
  cases hs : m.slot with
  | empty =>
      rw [hs] at shows
      rcases ((emptyWord_outside outside).mp shows.2).2 with zero | locked
      · exact .inl ⟨zero, rfl⟩
      · exact .inr (.inl ⟨locked, by simp⟩)
  | submitted x =>
      rw [hs] at shows
      exact .inr (.inl ⟨shows.2.1, by simp⟩)
  | finished x r =>
      rw [hs] at shows
      exact .inr (.inl ⟨shows.2.1, by simp⟩)
  | ready x r =>
      rw [hs] at shows
      obtain ⟨-, word, rfl, -⟩ := shows
      exact .inr (.inr ⟨word, x, rfl⟩)
  | leaving x r =>
      rw [hs] at shows
      obtain ⟨⟨call, pc⟩, -⟩ := shows
      simp only at pc
      rw [pc] at outside
      cases outside

/-- Nothing is under way on an open header. -/
theorem Tracks.quiet (tracks : Tracks c m ⟨o, T⟩) (outside : o.pc.outside = true)
    (word : o.lockWord = 0) : (Link.mk o T).live = 0 := by
  have pos := c.word_pos
  have shows := tracks.slot
  rcases tracks.word outside with ⟨-, empty⟩ | ⟨locked, -⟩ | ⟨ready, -⟩
  · rw [empty] at shows
    exact shows.1
  · omega
  · omega

/-- While a guard is held the slot is empty. -/
theorem Tracks.inside (tracks : Tracks c m ⟨o, T⟩) (inside : o.pc.outside = false)
    (stored : ∀ call n, o.pc ≠ .storing call n) :
    m.slot = .empty ∧ (Link.mk o T).live = 0 ∧ EmptyWord c o := by
  have shows := tracks.slot
  cases hs : m.slot with
  | empty =>
      rw [hs] at shows
      exact ⟨rfl, shows⟩
  | leaving x r =>
      rw [hs] at shows
      obtain ⟨⟨call, pc⟩, -⟩ := shows
      exact absurd pc (stored call _)
  | _ =>
      rw [hs] at shows
      exact absurd (inside.symm.trans shows.1) (by simp)

/-- A step without a guard before and after, that leaves word and status alone. -/
theorem Tracks.moved (tracks : Tracks c m ⟨o, T⟩) (o' : Owner) (outside : o.pc.outside = true)
    (outside' : o'.pc.outside = true) (left : ∀ call, o'.pc ≠ .accepted call)
    (word : o'.lockWord = o.lockWord)
    (internal : o'.header.value.raw.internal = o.header.value.raw.internal) :
    Shows c ⟨o', T⟩ m.slot := by
  have shows := tracks.slot
  cases hs : m.slot with
  | empty =>
      rw [hs] at shows
      refine ⟨shows.1, (emptyWord_outside outside').mpr ⟨left, ?_⟩⟩
      rw [word]
      exact ((emptyWord_outside outside).mp shows.2).2
  | submitted x =>
      rw [hs] at shows
      exact ⟨outside', word.trans shows.2.1, shows.2.2⟩
  | finished x r =>
      rw [hs] at shows
      exact ⟨outside', word.trans shows.2.1, internal.trans shows.2.2.1, shows.2.2.2⟩
  | ready x r =>
      rw [hs] at shows
      exact ⟨outside', word.trans shows.2.1, internal.trans shows.2.2.1, shows.2.2.2⟩
  | leaving x r =>
      rw [hs] at shows
      obtain ⟨⟨call, pc⟩, -⟩ := shows
      simp only at pc
      rw [pc] at outside
      cases outside

/-- A step that is nothing for the mailbox. -/
theorem mail_nothing {L : Link} (mail : o.mail i pending a = []) (tracks : Tracks c m L) :
    ∃ n, Run step anyStep m (o.mail i pending a) n ∧ Tracks c n L :=
  ⟨m, mail ▸ .nil, tracks⟩

/-- A step without a guard that is nothing for the mailbox and begins no visit. -/
theorem Tracks.idle (tracks : Tracks c m ⟨o, T⟩) (mail : o.mail i pending a = [])
    (outside : o.pc.outside = true) (outside' : o'.pc.outside = true)
    (left : ∀ call, o'.pc ≠ .accepted call) (visiting : o'.pc.visiting = o.pc.visiting)
    (call : ∀ call, o'.pc.call = some call → o.pc.call = some call)
    (word : o'.lockWord = o.lockWord)
    (internal : o'.header.value.raw.internal = o.header.value.raw.internal) :
    ∃ n, Run step anyStep m (o.mail i pending a) n ∧ Tracks c n ⟨o', T⟩ :=
  mail_nothing mail
    { visiting := tracks.visiting.trans visiting.symm
      code := fun d h => tracks.code d (call d h)
      slot := tracks.moved _ outside outside' left word internal }

/-- A step of a poll that holds its guard and is nothing for the mailbox. -/
theorem Tracks.holding (tracks : Tracks c m ⟨o, T⟩) (mail : o.mail i pending a = [])
    (inside : o.pc.outside = false) (stored : ∀ call n, o.pc ≠ .storing call n)
    (visiting : o'.pc.visiting = false)
    (call : ∀ call, o'.pc.call = some call → o.pc.call = some call)
    (word : EmptyWord c o → EmptyWord c o') :
    ∃ n, Run step anyStep m (o.mail i pending a) n ∧ Tracks c n ⟨o', T⟩ := by
  obtain ⟨empty, none, before⟩ := tracks.inside inside stored
  have still : o.pc.visiting = false := by
    cases hpc : o.pc <;> simp_all [Pc.outside, Pc.visiting]
  refine mail_nothing mail ⟨?_, fun d h => tracks.code d (call d h), ?_⟩
  · exact tracks.visiting.trans (still.trans visiting.symm)
  · rw [empty]
    exact ⟨none, word before⟩

/-- The exchange found the processed completion, which the next step collects. -/
theorem Tracks.storing {call : Call} {n : Int} (tracks : Tracks c m ⟨o, T⟩)
    (pc : o.pc = .storing call n) :
    ∃ x r, m.slot = .leaving x r ∧ n = -c.word ∧ o.header.value.raw.internal = r ∧
      (Link.mk o T).live = 0 := by
  have inside : o.pc.outside = false := by simp [pc, Pc.outside]
  have shows := tracks.slot
  cases hs : m.slot with
  | empty =>
      rw [hs] at shows
      obtain ⟨-, word⟩ := shows
      simp [EmptyWord, pc] at word
  | leaving x r =>
      rw [hs] at shows
      obtain ⟨⟨d, pc'⟩, -, internal, live⟩ := shows
      simp only [pc, Pc.storing.injEq] at pc'
      exact ⟨x, r, rfl, pc'.2, internal, live⟩
  | _ =>
      rw [hs] at shows
      exact absurd (inside.symm.trans shows.1) (by simp)

/-- While no guard is held the owner is not about to collect. -/
theorem Tracks.away (tracks : Tracks c m ⟨o, T⟩) (outside : o.pc.outside = true) :
    ∀ x r, m.slot ≠ .leaving x r := by
  intro x r hs
  have shows := tracks.slot
  rw [hs] at shows
  obtain ⟨⟨call, pc⟩, -⟩ := shows
  simp only at pc
  rw [pc] at outside
  cases outside

/-- A permit begins a visit. -/
theorem Tracks.permit {call : Call} {waker : Nat} (tracks : Tracks c m ⟨o, T⟩)
    (pc : o.pc = .out) (granted : 0 ≤ pending) (code : call.code = c) :
    ∃ n, Run step anyStep m (o.mail i pending (.poll call waker)) n ∧
      Tracks c n ⟨{ o with pc := .permitted call waker }, T⟩ := by
  have outside : o.pc.outside = true := by simp [pc, Pc.outside]
  have moved := tracks.moved { o with pc := .permitted call waker } outside rfl (by simp) rfl rfl
  have away := tracks.away outside
  have visiting := tracks.visiting
  obtain ⟨visit, slot⟩ := m
  obtain rfl : visit = false := visiting.trans (by simp [pc, Pc.visiting])
  refine ⟨⟨true, slot⟩, ?_, ⟨rfl, ?_, moved⟩⟩
  · rw [Owner.mail, if_pos granted]
    exact .single trivial (step_visit away)
  · intro d h
    cases h
    exact code

/-- A visit that finds the word open finds the slot empty. -/
theorem Tracks.lockOpen {call : Call} (tracks : Tracks c m ⟨o, T⟩) (pc : o.pc = .registered call)
    (word : o.lockWord = 0) :
    ∃ n, Run step anyStep m (o.mail i pending (.lock false)) n ∧
      Tracks c n ⟨{ o with
        pc := .guarded call .idle
        header := o.header.modify fun h => { h with lock := call.code.word } }, T⟩ := by
  have outside : o.pc.outside = true := by simp [pc, Pc.outside]
  have own : call.code = c := tracks.code call (by simp [pc, Pc.call])
  have empty : m.slot = .empty := by
    have := c.word_pos
    rcases tracks.word outside with ⟨-, empty⟩ | ⟨locked, -⟩ | ⟨ready, -⟩
    · exact empty
    · omega
    · omega
  have shows := tracks.slot
  rw [empty] at shows
  have visiting := tracks.visiting
  obtain ⟨visit, slot⟩ := m
  simp only at empty
  subst empty
  obtain rfl : visit = true := visiting.trans (by simp [pc, Pc.visiting])
  refine ⟨⟨false, .empty⟩, .single trivial rfl, ⟨rfl, ?_, shows.1, ?_⟩⟩
  · intro d h
    cases h
    exact own
  · exact congrArg Code.word own

/-- A visit that finds the word locked ends, and nothing was ready for it. -/
theorem Tracks.lockBusy {call : Call} {spurious : Bool} (tracks : Tracks c m ⟨o, T⟩)
    (pc : o.pc = .registered call) (word : 0 < o.lockWord) :
    ∃ n, Run step anyStep m (o.mail i pending (.lock spurious)) n ∧
      Tracks c n ⟨{ o with pc := .busy call o.lockWord true }, T⟩ := by
  have outside : o.pc.outside = true := by simp [pc, Pc.outside]
  have moved := tracks.moved { o with pc := .busy call o.lockWord true } outside rfl (by simp)
    rfl rfl
  have away := tracks.away outside
  have unready : ∀ x r, m.slot ≠ .ready x r := by
    have := c.word_pos
    rcases tracks.word outside with ⟨zero, -⟩ | ⟨-, unready⟩ | ⟨ready, -⟩
    · omega
    · exact unready
    · omega
  have visiting := tracks.visiting
  obtain ⟨visit, slot⟩ := m
  obtain rfl : visit = true := visiting.trans (by simp [pc, Pc.visiting])
  refine ⟨⟨false, slot⟩, .single trivial (step_knock away unready), ⟨rfl, ?_, moved⟩⟩
  intro d h
  cases h
  exact tracks.code call (by simp [pc, Pc.call])

/-- A visit that finds the negative word leaves with what was ready. -/
theorem Tracks.lockStore {call : Call} {spurious : Bool} (tracks : Tracks c m ⟨o, T⟩)
    (pc : o.pc = .registered call) (word : o.lockWord ≤ 0) (closed : o.lockWord ≠ 0) :
    ∃ n, Run step anyStep m (o.mail i pending (.lock spurious)) n ∧
      Tracks c n ⟨{ o with pc := .storing call o.lockWord }, T⟩ := by
  have outside : o.pc.outside = true := by simp [pc, Pc.outside]
  obtain ⟨x, ready⟩ : ∃ x, m.slot = .ready x o.header.value.raw.internal := by
    have := c.word_pos
    rcases tracks.word outside with ⟨zero, -⟩ | ⟨locked, -⟩ | ⟨-, ready⟩
    · exact absurd zero closed
    · omega
    · exact ready
  have shows := tracks.slot
  rw [ready] at shows
  obtain ⟨-, completed, -, live⟩ := shows
  have visiting := tracks.visiting
  obtain ⟨visit, slot⟩ := m
  simp only at ready
  subst ready
  obtain rfl : visit = true := visiting.trans (by simp [pc, Pc.visiting])
  refine ⟨⟨false, .leaving x _⟩, .single trivial rfl, ⟨rfl, ?_, ?_, completed, rfl, live⟩⟩
  · intro d h
    cases h
    exact tracks.code call (by simp [pc, Pc.call])
  · exact ⟨call, congrArg (Pc.storing call) completed⟩

/-- The store that opens the word takes what the visit left with. -/
theorem Tracks.storeOpen {call : Call} {n : Int} (tracks : Tracks c m ⟨o, T⟩)
    (pc : o.pc = .storing call n) :
    ∃ m', Run step anyStep m (o.mail i pending .storeOpen) m' ∧
      Tracks c m' ⟨{ o with
        pc := .guarded call (if call.code.word = -n then .pending else .idle)
        header := o.header.modify fun h => { h with lock := 0 } }, T⟩ := by
  have own : call.code = c := tracks.code call (by simp [pc, Pc.call])
  obtain ⟨x, r, leaving, rfl, internal, live⟩ := tracks.storing pc
  have pending : (o.header.value.headerLockStore call.code (-c.word)).2 = .pending := by
    simp [Header.headerLockStore, own]
  have visiting := tracks.visiting
  obtain ⟨visit, slot⟩ := m
  simp only at leaving
  subst leaving
  obtain rfl : visit = false := visiting.trans (by simp [pc, Pc.visiting])
  refine ⟨⟨false, .empty⟩, ?_, ⟨rfl, ?_, live, ?_⟩⟩
  · simp only [Owner.mail, pc, if_pos pending]
    exact .single trivial (by simp [step, internal])
  · intro d h
    cases h
    exact own
  · simp [EmptyWord, own, Owner.lockWord, Arc.modify]

/-- The steps of the owner that submit nothing are steps of the mailbox, or none. -/
theorem Tracks.unsubmitted (tracks : Tracks c m ⟨o, T⟩) (acts : o.Acts i pending a o' e)
    (steady : a = .lock true → o.lockWord ≠ 0)
    (code : ∀ call waker, a = .poll call waker → call.code = c) (none : e.submit = none) :
    ∃ n, Run step anyStep m (o.mail i pending a) n ∧ Tracks c n ⟨o', T⟩ := by
  cases acts with
  | submit pc accepted => cases none
  | permit pc kind granted => exact tracks.permit pc granted (code _ _ rfl)
  | lockOpen pc word => exact tracks.lockOpen pc word
  | lockBusy pc word => exact tracks.lockBusy pc word
  | lockStore pc word failed =>
      refine tracks.lockStore pc word fun zero => ?_
      obtain rfl := failed zero
      exact steady rfl zero
  | storeOpen pc => exact tracks.storeOpen pc
  | @refusePermit call waker pc kind refused =>
      apply tracks.idle (by rw [Owner.mail, if_neg (by omega)])
      all_goals simp [pc, Pc.outside, Pc.visiting, Pc.call, Owner.lockWord]
  | undoPermit pc | registerWaker pc | leaveBusy pc | forget pc | dropPermit pc | drop pc
  | leaveDrop pc | dropFields pc =>
      apply tracks.idle rfl
      all_goals simp [pc, Pc.outside, Pc.visiting, Pc.call, Owner.lockWord, Arc.modify,
        Header.registerByRef, Arc.drop]
  | prepareRequest pc | dropOverlapped pc | dropGuard pc | dropGuardPanic pc =>
      apply tracks.holding rfl
      all_goals simp [pc, Pc.outside, Pc.visiting, Pc.call, EmptyWord, Owner.lockWord, Arc.clone,
        Arc.drop, Arc.modify, Header.unlockToOpen]
  | prepareFail pc notPending slots fails =>
      apply tracks.holding rfl
      all_goals simp [pc, Pc.outside, Pc.visiting, Pc.call, EmptyWord, Owner.lockWord, Arc.clone]
      exact fun h => .inr h
  | refuseSubmit pc refused =>
      apply tracks.holding (by simp [Owner.mail, pc, refused])
      all_goals simp [pc, Pc.outside, Pc.visiting, Pc.call, EmptyWord, Owner.lockWord]
      exact fun h => .inr h
  | collect pc notPending slots =>
      apply tracks.holding rfl
      all_goals simp [pc, Pc.outside, Pc.visiting, Pc.call, EmptyWord, Owner.lockWord, Arc.modify]
      exact fun h => .inl h

/-- Every step of the owner is a step of the mailbox, or none. -/
theorem Tracks.task (tracks : Tracks c m ⟨o, T⟩) (acts : o.Acts i pending a o' e)
    (steady : a = .lock true → o.lockWord ≠ 0)
    (code : ∀ call waker, a = .poll call waker → call.code = c) :
    ∃ n, Run step anyStep m (o.mail i pending a) n ∧ Tracks c n ⟨o', e.tokens + T⟩ := by
  cases submit : e.submit with
  | none =>
      rw [Effect.tokens_none submit]
      exact tracks.unsubmitted acts steady code submit
  | some op =>
      rw [Effect.tokens_some submit]
      cases acts with
      | @submit call request answer pc accepted =>
          cases submit
          have visiting := tracks.visiting
          simp only at visiting
          obtain ⟨empty, live, word⟩ := tracks.inside (by simp [pc, Pc.outside]) (by simp [pc])
          rw [EmptyWord, pc] at word
          obtain ⟨visit, slot⟩ := m
          simp only at empty
          subst empty
          obtain rfl : visit = false := visiting.trans (by simp [pc, Pc.visiting])
          refine ⟨⟨false, .submitted (o.submission i call request)⟩, ?_,
            ⟨rfl, ?_, rfl, word, live_moved rfl live⟩⟩
          · simp only [Owner.mail, pc, accepted]
            exact .single trivial rfl
          · intro d h
            cases h
            exact tracks.code call (by simp [pc, Pc.call])
      | _ => cases submit

end Task

section Background

variable {c : Code} {m : State Op Internal} {i : Nat} {w : World} {o o' : Owner}
  {T T' R : Multiset Token} {t : Token}

/-- What the slot shows in depends on the program point, the word, the status
and the operations under way. -/
theorem Tracks.congr {L L' : Link} (tracks : Tracks c m L) (pc : L'.owner.pc = L.owner.pc)
    (word : L'.owner.lockWord = L.owner.lockWord)
    (internal : L'.owner.header.value.raw.internal = L.owner.header.value.raw.internal)
    (live : L'.live = L.live) : Tracks c m L' where
  visiting := by rw [pc, tracks.visiting]
  code := by rw [pc]; exact tracks.code
  slot := by
    have shows := tracks.slot
    cases hs : m.slot with
    | empty =>
        rw [hs] at shows
        refine ⟨live.trans shows.1, ?_⟩
        have before := shows.2
        unfold EmptyWord at before ⊢
        rwa [pc, word]
    | _ =>
        rw [hs] at shows
        simpa only [Shows, pc, word, internal, live] using shows

/-- An operation under way is the one in the slot. -/
theorem Tracks.underWay (tracks : Tracks c m ⟨o, t ::ₘ R⟩) (hl : t.stage.live = true) :
    o.pc.outside = true ∧ o.lockWord = c.word ∧ (Link.mk o R).live = 0 ∧
      ((t.stage = .inFlight ∧ m.slot = .submitted t.op) ∨
        (t.stage ≠ .inFlight ∧ m.slot = .finished t.op o.header.value.raw.internal)) := by
  have some := live_ne_zero (o := o) (T := R) hl
  have shows := tracks.slot
  cases hs : m.slot with
  | empty =>
      rw [hs] at shows
      exact absurd shows.1 some
  | submitted x =>
      rw [hs] at shows
      obtain ⟨outside, word, single⟩ := shows
      obtain ⟨rfl, rest⟩ := single_live single hl
      exact ⟨outside, word, rest, .inl ⟨rfl, rfl⟩⟩
  | finished x r =>
      rw [hs] at shows
      obtain ⟨outside, word, rfl, none | ⟨stage, moved, single⟩⟩ := shows
      · exact absurd none some
      · obtain ⟨rfl, rest⟩ := single_live single hl
        exact ⟨outside, word, rest, .inr ⟨moved, rfl⟩⟩
  | ready x r =>
      rw [hs] at shows
      exact absurd shows.2.2.2 some
  | leaving x r =>
      rw [hs] at shows
      exact absurd shows.2.2.2 some

/-- A finished operation stays in the slot while its packet travels, and when
its status is dropped without an unlock. -/
theorem Tracks.travels {stage : Stage} (tracks : Tracks c m ⟨o, t ::ₘ R⟩)
    (hl : t.stage.live = true) (away : t.stage ≠ .inFlight) (away' : stage ≠ .inFlight) :
    Tracks c m ⟨o, ⟨t.op, stage⟩ ::ₘ R⟩ := by
  obtain ⟨outside, word, rest, ⟨flight, -⟩ | ⟨-, slot⟩⟩ := tracks.underWay hl
  · exact absurd flight away
  · refine ⟨tracks.visiting, tracks.code, ?_⟩
    rw [slot]
    refine ⟨outside, word, rfl, ?_⟩
    by_cases still : stage.live = true
    · exact .inr ⟨stage, away', live_moved still rest⟩
    · refine .inl ?_
      rw [live_cons, if_neg still]
      exact rest

/-- A status that was processed is none of the operations under way. -/
theorem live_processed {stage : Stage} (dead : stage.live = false) (op : Op) :
    (Link.mk o (⟨op, stage⟩ ::ₘ R)).live = (Link.mk o R).live := by
  rw [live_cons, if_neg (by simp [dead])]

/-- What a thread does with a status other than the exchange of `unlock` is
nothing for the mailbox. -/
theorem Tracks.driver {act : DriverAct} (tracks : Tracks c m ⟨o, T⟩)
    (step : Link.Step i ⟨o, T⟩ (.driver act) ⟨o', T'⟩) : Tracks c m ⟨o', T'⟩ := by
  cases step with
  | dequeue => exact tracks.travels rfl (by simp) (by simp)
  | account => exact tracks.travels rfl (by simp) (by simp)
  | load =>
      obtain ⟨-, word, -⟩ := tracks.underWay rfl
      have pos : 0 < o.header.value.lock := by
        have := c.word_pos
        rw [Owner.lockWord] at word
        omega
      rw [unlockLoad_pos pos]
      exact tracks.travels rfl (by simp) (by simp [Stage.afterUnlock])
  | skip => exact tracks.travels rfl (by simp) (by simp)
  | wake =>
      refine tracks.congr rfl rfl rfl ?_
      rw [live_processed rfl]
      exact (live_processed rfl _).symm
  | drop =>
      refine tracks.congr rfl rfl rfl ?_
      exact (live_processed rfl _).symm

/-- The exchange of `unlock` unlocks the slot, or goes round its loop. -/
theorem Tracks.exchange {op : Op} {old : Int} {release spurious : Bool}
    (tracks : Tracks c m ⟨o, ⟨op, .unlocking old release⟩ ::ₘ R⟩) :
    ∃ n, Run step anyStep m
        (if (o.header.value.unlockExchange old spurious).2 = .returned true then [.unlock] else [])
        n ∧
      Tracks c n
        ⟨{ o with
            header := o.header.modify fun _ => (o.header.value.unlockExchange old spurious).1 },
          ⟨op, .afterUnlock release (o.header.value.unlockExchange old spurious).2⟩ ::ₘ R⟩ := by
  obtain ⟨outside, word, rest, ⟨flight, -⟩ | ⟨-, slot⟩⟩ := tracks.underWay rfl
  · cases flight
  · have pos : 0 < o.header.value.lock := by
      have := c.word_pos
      rw [Owner.lockWord] at word
      omega
    rcases unlockExchange_pos pos old spurious with won | retry
    · rw [won, if_pos rfl]
      obtain ⟨visit, slot'⟩ := m
      simp only at slot
      subst slot
      refine ⟨⟨visit, .ready op _⟩, .single trivial rfl, ⟨tracks.visiting, tracks.code, ?_⟩⟩
      refine ⟨outside, congrArg Neg.neg word, rfl, ?_⟩
      rw [live_processed (live_afterUnlock release)]
      exact rest
    · rw [retry, if_neg (by simp)]
      exact ⟨m, .nil, tracks.travels (t := ⟨op, .unlocking old release⟩) rfl (by simp)
        (by simp [Stage.afterUnlock])⟩

/-- The end of the operation in flight finishes the request in the slot. -/
theorem Tracks.complete {op : Op} {status : Final}
    (tracks : Tracks c m ⟨o, ⟨op, .inFlight⟩ ::ₘ R⟩) :
    ∃ n, Run step anyStep m [.finish op (.final op status)] n ∧
      Tracks c n ⟨o.complete op status, ⟨op, .queued status⟩ ::ₘ R⟩ := by
  obtain ⟨outside, word, rest, ⟨-, slot⟩ | ⟨away, -⟩⟩ := tracks.underWay rfl
  · obtain ⟨visit, slot'⟩ := m
    simp only at slot
    subst slot
    refine ⟨⟨visit, .finished op (.final op status)⟩, .single trivial (by simp [step]),
      ⟨tracks.visiting, tracks.code, ?_⟩⟩
    exact ⟨outside, word, rfl, .inr ⟨.queued status, by simp, live_moved rfl rest⟩⟩
  · exact absurd rfl away

end Background

/-- Every step of the system is a run of the mailbox. -/
theorem Tracks.happens {c : Code} {m : State Op Internal} {i : Nat} {w : World} {o o' : Owner}
    {a : Action} {T' : Multiset Token} (owner : w.owners[i]? = some o)
    (tracks : Tracks c m ⟨o, w.tokensOf i⟩)
    (happens : w.Happens i o (w.tokensOf i) a o' T')
    (steady : a = .task i (.lock true) → o.lockWord ≠ 0)
    (code : ∀ call waker, a = .task i (.poll call waker) → call.code = c) :
    ∃ n, Run step anyStep m (w.mail i a) n ∧ Tracks c n ⟨o', T'⟩ := by
  cases happens with
  | task acts =>
      rw [World.mail_task owner]
      apply tracks.task acts
      · rintro rfl
        exact steady rfl
      · rintro call waker rfl
        exact code call waker rfl
  | complete flight own admits tokens =>
      rw [World.mail_complete flight own]
      exact (tokens ▸ tracks).complete
  | exchange thread own tokens =>
      rw [World.mail_exchange thread own owner]
      exact (tokens ▸ tracks).exchange
  | quiet silent step =>
      rw [World.mail_silent silent]
      exact ⟨m, .nil, tracks.driver step⟩
  | still silent =>
      rw [World.mail_silent silent]
      exact ⟨m, .nil, tracks⟩

/-- No step turns a handle into a socket. -/
theorem Step.kind {i : Nat} {L L' : Link} {l : Label} (step : Step i L l L') :
    L'.owner.kind = L.owner.kind := by
  cases step with
  | task acts => exact acts.key_kind.2
  | _ => rfl

theorem Tracks.fresh (c : Code) (kind : Kind) (key size : Nat) :
    Tracks c Mailbox.empty ⟨Owner.new kind key size, 0⟩ where
  visiting := rfl
  code := by
    intro call h
    cases h
  slot := ⟨rfl, .inl rfl⟩

end Link

/-- The code a socket is used under is that of `Accept`, whatever the calls on handles are. -/
def Owner.codeOf (o : Owner) (c : Code) : Code :=
  match o.kind with
  | .handle => c
  | .socket => .accept

theorem Call.code_of_socket {call : Call} (h : call.kind = .socket) : call.code = .accept := by
  cases call with
  | accept => rfl
  | _ => cases h

namespace World

/-- Every poll of owner `i`, when it is a handle, uses the code. -/
def oneCode (i : Nat) (c : Code) (w : World) (a : Action) : Bool :=
  match a with
  | .task j (.poll call _) =>
      j ≠ i || call.code = c || w.owners[j]?.any fun o => o.kind = .socket
  | _ => true

/-- The exchange of `header_lock` of owner `i` does not fail on an open word. -/
def steady (i : Nat) (w : World) (a : Action) : Bool :=
  match a with
  | .task j (.lock spurious) =>
      j ≠ i || !spurious || w.owners[j]?.all fun o => o.lockWord ≠ 0
  | _ => true

theorem steady_of_exact {w : World} {a : Action} (i : Nat) (exact : a.exact = true) :
    w.steady i a = true := by
  cases a with
  | task j act => cases act <;> simp_all [steady, Action.exact]
  | _ => rfl

section Run

variable {ok : World → Action → Prop} {loops : List Loop} {as : List Action} {w : World} {i : Nat}
  {c : Code}

theorem happens_kind {o o' : Owner} {a : Action} {T T' : Multiset Token}
    (happens : w.Happens i o T a o' T') : o'.kind = o.kind := by
  rcases happens.link with ⟨rfl, -⟩ | ⟨l, step⟩
  · rfl
  · exact step.kind

/-- The code of every poll of an owner used under one code. -/
theorem oneCode_code {o : Owner} {call : Call} {waker : Nat} (owner : w.owners[i]? = some o)
    (single : w.oneCode i c (.task i (.poll call waker)) = true) (kind : call.kind = o.kind) :
    call.code = o.codeOf c := by
  simp only [oneCode, ne_eq, not_true_eq_false, decide_false, Bool.false_or, owner,
    Option.any_some, Bool.or_eq_true, decide_eq_true_eq] at single
  cases hk : o.kind with
  | socket =>
      rw [Owner.codeOf, hk]
      exact Call.code_of_socket (kind.trans hk)
  | handle =>
      rw [Owner.codeOf, hk]
      exact single.resolve_right (by simp [hk])

/-- Nothing is seen of a header before its owner exists. -/
theorem mail_fresh (valid : w.Valid) (none : w.owners[i]? = none) (a : Action) :
    w.mail i a = [] := by
  obtain ⟨-, complete, exchange⟩ := valid.fresh none
  cases a with
  | task j act =>
      simp only [mail]
      split
      case h_1 o owner => exact if_neg fun h => by simp [h, none] at owner
      case h_2 => rfl
  | complete k status => exact mail_silent (complete k status)
  | driver d act =>
      cases act with
      | exchange spurious => exact mail_silent (exchange d spurious)
      | _ => rfl
  | _ => rfl

/-- The header of an owner used under one code is a mailbox in every run whose
exchanges of `header_lock` do not fail on its open word. -/
theorem run_mailbox (steady : ∀ w a, ok w a → w.steady i a = true)
    (code : ∀ w a, ok w a → w.oneCode i c a = true) (run : Run next ok (start loops) as w) :
    ∃ m, Run Mailbox.step anyStep Mailbox.empty (observe next (mail i) (start loops) as) m ∧
      w.Valid ∧ (w.owners[i]? = none → m = Mailbox.empty) ∧
      ∀ o, w.owners[i]? = some o → Link.Tracks (o.codeOf c) m ⟨o, w.tokensOf i⟩ := by
  refine run.simulated (R := fun w m => w.Valid ∧ (w.owners[i]? = none → m = Mailbox.empty) ∧
      ∀ o, w.owners[i]? = some o → Link.Tracks (o.codeOf c) m ⟨o, w.tokensOf i⟩)
    ⟨start_valid loops, fun _ => rfl, by simp [start]⟩ ?_
  rintro w a v m ⟨valid, fresh, tracks⟩ good h
  have stepped := next_stepped h
  have valid' := stepped_valid valid stepped
  cases owner : w.owners[i]? with
  | some o =>
      obtain ⟨o', owner', happens⟩ := stepped_happens valid stepped owner
      obtain ⟨n, next, tracks'⟩ := (tracks o owner).happens owner happens
        (by
          rintro rfl zero
          have := steady w _ good
          simp [World.steady, owner, zero] at this)
        (by
          rintro call waker rfl
          obtain ⟨o'', e, acts, -⟩ := step_task owner (next_eq_some.mp h).1
          exact oneCode_code owner (code w _ good) acts.poll_kind)
      refine ⟨n, next, valid', by simp [owner'], ?_⟩
      intro p hp
      rw [owner', Option.some.injEq] at hp
      subst hp
      rw [Owner.codeOf, happens_kind happens]
      exact tracks'
  | none =>
      rw [mail_fresh valid owner]
      refine ⟨m, .nil, valid', fun _ => fresh owner, ?_⟩
      intro o' owner'
      cases stepped_moves valid stepped owner' with
      | created _ _ own tokens =>
          rw [tokens, own, fresh owner]
          exact .fresh _ _ _ _
      | still owner'' => simp [owner] at owner''
      | moved owner'' => simp [owner] at owner''

/-- The report of an operation is the status it ended with. -/
theorem finish_final {a : Action} {x : Op} {r : Internal} (h : .finish x r ∈ w.mail i a) :
    ∃ status, r = .final x status := by
  cases a with
  | task j act =>
      simp only [mail] at h
      split at h
      case h_1 o owner =>
          split at h
          · cases act <;> simp only [Owner.mail] at h <;> (repeat' split at h) <;> simp_all
          · cases h
      case h_2 => cases h
  | complete k status =>
      simp only [mail] at h
      split at h
      case h_1 op flight =>
          split at h
          · simp only [List.mem_singleton, Event.finish.injEq] at h
            exact ⟨status, h.1 ▸ h.2⟩
          · cases h
      case h_2 => cases h
  | driver d act =>
      cases act <;> simp only [mail] at h <;> (repeat' split at h) <;> simp_all
  | _ => cases h

end Run

end World

end Iocp
