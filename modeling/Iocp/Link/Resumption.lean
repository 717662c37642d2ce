import Iocp.Link.Collection
import Iocp.Link.Lending

/-!
# What a poll finds when it resumes an operation

On an owner used under one code everything that was submitted is of that code,
and the exchange that finds a completed operation decides what is collected:
until then nobody touches the OVERLAPPED.
-/

namespace Iocp

open Totals Transition Mailbox

namespace Request

/-- The code of the operations that make a request. -/
def code : Request → Code
  | readFile _ _ => .read
  | writeFile _ _ => .write
  | deviceIoControl _ _ _ => .ioCtl
  | connectNamedPipe => .connectNamedPipe
  | acceptEx _ _ _ _ _ => .accept

theorem code_read {request : Request} (h : request.code = .read) :
    ∃ slot len, request = .readFile slot len := by
  cases request with
  | readFile slot len => exact ⟨slot, len, rfl⟩
  | _ =>
      simp only [code] at h
      exact absurd h (by decide)

theorem code_write {request : Request} (h : request.code = .write) :
    ∃ slot bytes, request = .writeFile slot bytes := by
  cases request with
  | writeFile slot bytes => exact ⟨slot, bytes, rfl⟩
  | _ =>
      simp only [code] at h
      exact absurd h (by decide)

end Request

/-- A call makes requests of its own code. -/
theorem Call.prepare_code {call : Call} {extra : Nat} {newSocket : Except Nat Nat}
    {pool : BufferPool} {sockets : SocketPool} {request : Request}
    (h : (call.prepare extra newSocket pool sockets).2.2 = .request request) :
    request.code = call.code := by
  cases call with
  | pollRead len | read len =>
      simp only [Call.prepare, Call.prepareRead] at h
      split at h
      · cases h
      · cases h
        rfl
  | pollWrite buf | write buf =>
      simp only [Call.prepare, Call.prepareWrite] at h
      split at h
      · cases h
      · cases h
        rfl
  | deviceIoControl control message =>
      simp only [Call.prepare, Call.prepareDeviceIoControl] at h
      split at h
      · cases h
      · split at h
        · cases h
          rfl
        · cases h
  | connectNamedPipe =>
      cases h
      rfl
  | accept =>
      simp only [Call.prepare, Call.prepareAccept] at h
      split at h
      · cases h
      · cases h
      · split at h
        · cases h
        · cases h
          rfl

theorem Request.admits_le {request : Request} {status : Final}
    (admits : request.admits status = true) : status.transferred ≤ request.len := by
  simp only [Request.admits, Bool.and_eq_true] at admits
  exact of_decide_eq_true admits.1.2

/-- A read stores what it transfers. -/
theorem Request.admits_read {slot len : Nat} {status : Final}
    (admits : (readFile slot len).admits status = true) :
    status.data.length = status.transferred := by
  simp only [Request.admits, Bool.and_eq_true] at admits
  exact of_decide_eq_true admits.2

theorem Op.admits_le {op : Op} {status : Final} (admits : op.admits status = true) :
    status.transferred ≤ op.request.len :=
  Request.admits_le admits

theorem Op.admits_read {op : Op} {slot len : Nat} {status : Final}
    (admits : op.admits status = true) (request : op.request = .readFile slot len) :
    status.data.length = status.transferred := by
  rw [Op.admits, request] at admits
  exact Request.admits_read admits

/-- The result a guard reads is within what was requested. -/
theorem Overlapped.handleResult_le {r : Overlapped} {op : Op} {status : Final} {n : Nat}
    (final : r.internal = .final op status) (admits : op.admits status = true)
    (h : r.handleResult = .ok n) : n ≤ op.request.len := by
  cases status with
  | success transferred data =>
      simp only [handleResult, getOverlappedResult, final, Except.ok.injEq] at h
      exact h ▸ Op.admits_le admits
  | failure code transferred data =>
      simp only [handleResult, getOverlappedResult, final] at h
      split at h
      · cases h
        exact Nat.zero_le _
      · split at h
        · cases h
          exact Nat.zero_le _
        · cases h

/-- `unlock` touches the word only. -/
theorem Header.unlockExchange_raw (h : Header) (old : Int) (spurious : Bool) :
    (h.unlockExchange old spurious).1.raw = h.raw := by
  simp only [unlockExchange, compareExchangeWeak]
  split
  all_goals
    rename_i taken
    split at taken
    all_goals cases taken
    all_goals rfl

namespace Link

/-- Everything an owner used under one code has asked for is of that code, and
the status in the OVERLAPPED is one its operation admits. -/
structure Typed (c : Code) (L : Link) : Prop where
  call : ∀ call, L.owner.pc.call = some call → call.code = c
  prepared : ∀ call request, L.owner.pc = .prepared call request → request.code = c
  flying : ∀ t ∈ L.tokens, t.stage = .inFlight → t.op.request.code = c
  final : ∀ op status, L.owner.header.value.raw.internal = .final op status →
    op.request.code = c ∧ op.admits status = true

section Typed

variable {c : Code} {i : Nat} {o o' : Owner} {pending : Int} {a : TaskAct} {e : Effect}
  {T : Multiset Token} {L' : Link} {l : Label}

theorem Typed.fresh (c : Code) (kind : Kind) (key size : Nat) :
    Typed c ⟨Owner.new kind key size, 0⟩ where
  call := by simp [Owner.new, Pc.call]
  prepared := by simp [Owner.new]
  flying := by simp
  final := by simp [Owner.new, Arc.new, Header.new, Overlapped.zeroed]

/-- A step of the owner that leaves the status alone, or resets it. -/
theorem Typed.task (typed : Typed c ⟨o, T⟩) (acts : o.Acts i pending a o' e)
    (code : ∀ call waker, a = .poll call waker → call.code = c) :
    Typed c ⟨o', e.tokens + T⟩ where
  call := by
    intro call h
    have before : ∀ call, o.pc.call = some call → call.code = c := typed.call
    cases acts with
    | permit pc kind granted =>
        cases h
        exact code _ _ rfl
    | _ => simp_all [Pc.call]
  prepared := by
    intro call request h
    cases acts with
    | prepareRequest pc prepared =>
        cases h
        have own := typed.call call (by simp [pc, Pc.call])
        exact (Call.prepare_code (by rw [prepared])).trans own
    | _ => cases h
  flying := by
    intro t member flight
    rcases Multiset.mem_add.mp member with new | old
    · cases acts with
      | @submit call request answer pc accepted =>
          rw [Effect.tokens, Multiset.mem_singleton] at new
          subst new
          exact typed.prepared call request pc
      | _ => exact absurd new (Multiset.notMem_zero t)
    · exact typed.flying t old flight
  final := by
    intro op status h
    cases acts with
    | submit pc accepted => cases h
    | _ => exact typed.final op status h

/-- The system gives an operation a status that it admits. -/
theorem Typed.background (typed : Typed c ⟨o, T⟩) (step : Step i ⟨o, T⟩ l L')
    (other : ∀ a, l ≠ .task a) : Typed c L' where
  call := by
    rw [background_pc step other]
    exact typed.call
  prepared := by
    rw [background_pc step other]
    exact typed.prepared
  flying := by
    intro t member flight
    exact typed.flying t (background_inFlight step other member flight) flight
  final := by
    intro op status h
    have before := typed.final
    cases step with
    | task acts => exact absurd rfl (other _)
    | @complete _ op' status' R admits =>
        cases h
        exact ⟨typed.flying _ (Multiset.mem_cons_self _ _) rfl, admits⟩
    | exchange =>
        apply before op status
        simpa [Arc.modify, Header.unlockExchange_raw] using h
    | _ => exact before op status h

end Typed

/-- What the exchange that finds a completed operation checks of its status and
of the call holds until the result is collected. -/
structure Resumed (P : Overlapped → Call → Prop) (L : Link) : Prop where
  storing : ∀ call n, L.owner.pc = .storing call n → P L.owner.header.value.raw call
  guarded : ∀ call, L.owner.pc = .guarded call .pending → P L.owner.header.value.raw call

section Resumed

variable {P : Overlapped → Call → Prop} {c : Code} {m : State Op Internal} {i : Nat}
  {o o' : Owner} {pending : Int} {a : TaskAct} {e : Effect} {T : Multiset Token} {L' : Link}
  {l : Label}

theorem Resumed.task (resumed : Resumed P ⟨o, T⟩) (acts : o.Acts i pending a o' e)
    (found : ∀ call spurious, a = .lock spurious → o.pc = .registered call → o.lockWord ≤ 0 →
      (o.lockWord = 0 → spurious = true) → P o.header.value.raw call) :
    Resumed P ⟨o', e.tokens + T⟩ where
  storing := by
    intro call n pc
    cases acts with
    | lockStore pc' word failed =>
        cases pc
        exact found call _ rfl pc' word failed
    | _ => cases pc
  guarded := by
    intro call pc
    cases acts with
    | @storeOpen call' n pc' =>
        simp only [Pc.guarded.injEq] at pc
        exact pc.1 ▸ resumed.storing call' n pc'
    | _ => cases pc

/-- While nothing is under way, nobody but the owner touches the OVERLAPPED. -/
theorem background_raw {L L' : Link} (step : Step i L l L') (other : ∀ a, l ≠ .task a)
    (quiet : L.live = 0) : L'.owner.header.value.raw = L.owner.header.value.raw := by
  cases step with
  | task acts => exact absurd rfl (other _)
  | complete admits => exact absurd (stage_of_live quiet).1 (by simp [Stage.live])
  | exchange => exact Header.unlockExchange_raw _ _ _
  | _ => rfl

/-- Nobody touches the status of a completed operation before it is collected. -/
theorem Resumed.background (resumed : Resumed P ⟨o, T⟩) (tracks : Tracks c m ⟨o, T⟩)
    (step : Step i ⟨o, T⟩ l L') (other : ∀ a, l ≠ .task a) : Resumed P L' := by
  have pc := background_pc step other
  constructor
  · intro call n at'
    rw [pc] at at'
    obtain ⟨-, -, -, -, -, quiet⟩ := tracks.storing at'
    rw [background_raw step other quiet]
    exact resumed.storing call n at'
  · intro call at'
    rw [pc] at at'
    simp only at at'
    obtain ⟨-, quiet, -⟩ := tracks.inside (by simp [at', Pc.outside]) (by simp [at'])
    rw [background_raw step other quiet]
    exact resumed.guarded call at'

end Resumed

end Link

namespace World

section Run

variable {ok : World → Action → Prop} {loops : List Loop} {w : World} {i : Nat} {c : Code}
  {o : Owner}

/-- Where the status fields of a header come from. -/
theorem happens_internal {o' : Owner} {a : Action} {T T' : Multiset Token}
    (happens : w.Happens i o T a o' T') :
    o'.header.value.raw.internal = o.header.value.raw.internal ∨
      o'.header.value.raw.internal = .pending ∨
      ∃ k op status, a = .complete k status ∧ w.inFlight[k]? = some op ∧ op.owner = i ∧
        op.admits status = true ∧ o'.header.value.raw.internal = .final op status := by
  cases happens with
  | task acts =>
      cases acts with
      | submit pc accepted => exact .inr (.inl rfl)
      | _ => exact .inl rfl
  | complete flight own admits tokens =>
      exact .inr (.inr ⟨_, _, _, rfl, flight, own, admits, rfl⟩)
  | exchange thread own tokens =>
      exact .inl (congrArg Overlapped.internal (Header.unlockExchange_raw _ _ _))
  | quiet silent step =>
      cases step <;> exact .inl rfl
  | still silent => exact .inl rfl

/-- What every end of an operation of the owner meets holds of the status in its
OVERLAPPED. -/
theorem reached_final {P : Op → Final → Prop}
    (meets : ∀ w k op status, ok w (.complete k status) → w.inFlight[k]? = some op →
      op.owner = i → P op status)
    (reach : Reached ok (start loops) w) (owner : w.owners[i]? = some o) {op : Op} {status : Final}
    (final : o.header.value.raw.internal = .final op status) : P op status := by
  obtain ⟨as, run⟩ := reach
  induction run generalizing o with
  | nil => simp [start] at owner
  | @snoc as w a v before good h ih =>
      have valid := reached_valid ⟨as, before⟩
      have stepped := next_stepped h
      cases earlier : w.owners[i]? with
      | none =>
          cases stepped_moves valid stepped owner with
          | created _ _ born _ =>
              rw [born] at final
              cases final
          | still same | moved same => simp [earlier] at same
      | some p =>
          obtain ⟨o', present, happens⟩ := stepped_happens valid stepped earlier
          obtain rfl : o = o' := Option.some.inj (owner.symm.trans present)
          rcases happens_internal happens with
            same | pending | ⟨k, x, s, rfl, flight, own, -, ended⟩
          · exact ih earlier (same.symm.trans final)
          · rw [pending] at final
            cases final
          · rw [ended] at final
            cases final
            exact meets w k op status good flight own

theorem reached_typed (code : ∀ w a, ok w a → w.oneCode i c a = true)
    (reach : Reached ok (start loops) w) (owner : w.owners[i]? = some o) :
    Link.Typed (o.codeOf c) ⟨o, w.tokensOf i⟩ := by
  refine reached_links (P := fun j L => j = i → Link.Typed (L.owner.codeOf c) L) reach ?_ ?_
    i o owner rfl
  · intro j kind key size _
    exact .fresh _ kind key size
  · rintro w a j o l L - good present concerns step before rfl
    have same : L.owner.codeOf c = o.codeOf c := by rw [Owner.codeOf, step.kind, Owner.codeOf]
    rw [same]
    rcases step.task_or_other with ⟨pending, act, o', e, rfl, acts, rfl⟩ | other
    · obtain rfl := concerns.task
      refine (before rfl).task acts ?_
      rintro call waker rfl
      exact oneCode_code present (code w _ good) acts.poll_kind
    · exact (before rfl).background step other

/-- A completed header holds the status of an operation. -/
theorem completed_final (steady : ∀ w a, ok w a → w.steady i a = true)
    (code : ∀ w a, ok w a → w.oneCode i c a = true) (reach : Reached ok (start loops) w)
    (owner : w.owners[i]? = some o) (outside : o.pc.outside = true) (word : o.lockWord < 0) :
    ∃ op status, o.header.value.raw.internal = .final op status := by
  obtain ⟨as, run⟩ := reach
  obtain ⟨m, mailbox, -, -, tracks⟩ := run_mailbox steady code run
  have pos := (o.codeOf c).word_pos
  rcases (tracks o owner).word outside with ⟨zero, -⟩ | ⟨locked, -⟩ | ⟨-, x, ready⟩
  · omega
  · omega
  · have holds := (run_accounts mailbox).2
    rw [ready] at holds
    have finished := List.mem_of_getLast? holds.2.2
    obtain ⟨w, a, seen⟩ := mem_observe ((mem_finishes _).mp finished)
    exact ⟨x, finish_final seen⟩

/-- A condition on the exchanges that find a completed operation is met by what
every poll of the owner collects. -/
theorem reached_resumed {P : Overlapped → Call → Prop}
    (steady : ∀ w a, ok w a → w.steady i a = true)
    (code : ∀ w a, ok w a → w.oneCode i c a = true)
    (found : ∀ w o call spurious, ok w (.task i (.lock spurious)) → w.owners[i]? = some o →
      o.pc = .registered call → o.lockWord < 0 →
      (∃ op status, o.header.value.raw.internal = .final op status) → P o.header.value.raw call)
    (reach : Reached ok (start loops) w) (owner : w.owners[i]? = some o) :
    Link.Resumed P ⟨o, w.tokensOf i⟩ := by
  refine reached_links (P := fun j L => j = i → L.Resumed P) reach ?_ ?_ i o owner rfl
  · intro j kind key size _
    exact ⟨by simp [Owner.new], by simp [Owner.new]⟩
  · rintro w a j o l L reach' good present concerns step before rfl
    rcases step.task_or_other with ⟨pending, act, o', e, rfl, acts, rfl⟩ | other
    · obtain rfl := concerns.task
      refine (before rfl).task acts ?_
      rintro call spurious rfl pc word failed
      have closed : o.lockWord ≠ 0 := by
        intro zero
        obtain rfl := failed zero
        have := steady w _ good
        simp [World.steady, present, show o.lockWord = 0 from zero] at this
      have negative : o.lockWord < 0 := lt_of_le_of_ne word closed
      have outside : o.pc.outside = true := by
        rw [show o.pc = .registered call from pc]
        rfl
      exact found w o call spurious good present pc negative
        (completed_final steady code reach' present outside negative)
    · obtain ⟨as, run⟩ := reach'
      obtain ⟨m, -, -, -, tracks⟩ := run_mailbox steady code run
      exact (before rfl).background (tracks o present) step other

end Run

end World

end Iocp
