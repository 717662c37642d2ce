import Iocp.Calls.Serial

/-!
# A handle refines the serial machine

Each step of the system is nothing for the machine of a handle, or one step of
it. That at most one operation is under way, and that a poll finds only its own
completed operation, comes from the mailbox that the header is.
-/

namespace Iocp

open Totals Transition Mailbox

namespace Call

/-- A call of a handle does not look at the pool of sockets. -/
theorem prepare_handle {call : Call} (handle : call.kind = .handle) (extra : Nat)
    (newSocket : Except Nat Nat) (pool : BufferPool) (sockets : SocketPool) :
    (call.prepare extra newSocket pool sockets).1 = (call.prepare extra (.error 0) pool .new).1 ∧
      (call.prepare extra newSocket pool sockets).2.2 =
        (call.prepare extra (.error 0) pool .new).2.2 := by
  cases call with
  | accept => cases handle
  | _ => exact ⟨rfl, rfl⟩

theorem collect_handle {call : Call} (handle : call.kind = .handle) (transferred : Nat)
    (duplicate : Option Nat) (pool : BufferPool) (sockets : SocketPool) :
    (call.collect transferred duplicate pool sockets).1 =
        (call.collect transferred none pool .new).1 ∧
      (call.collect transferred duplicate pool sockets).2.2 =
        (call.collect transferred none pool .new).2.2 := by
  cases call with
  | accept => cases handle
  | _ => exact ⟨rfl, rfl⟩

/-- Only an accept is not a call of a handle. -/
theorem kind_of_code {call : Call} (other : call.code ≠ .accept) : call.kind = .handle := by
  cases call with
  | accept => exact absurd rfl other
  | _ => rfl

end Call

/-- An exchange of `unlock` does not open a word. -/
theorem Header.unlockExchange_zero (h : Header) (old : Int) (spurious : Bool) :
    (h.unlockExchange old spurious).1.lock = 0 ↔ h.lock = 0 := by
  simp only [unlockExchange, compareExchangeWeak]
  by_cases same : spurious = false ∧ h.lock = old
  · simp [same.1, same.2]
  · simp [same]

/-- How far a handle is while it holds its guard, or is about to. -/
def Pc.Holds (internal : Internal) (serving : Serving) : Pc → Prop
  | guarded _ .idle => serving = .free
  | prepared _ request => serving = .asked request
  | storing _ _ => ∃ op status, serving = .ended status ∧ internal = .final op status
  | guarded _ .pending => ∃ op status, serving = .ended status ∧ internal = .final op status
  | dropOverlapped result => serving = .done result ∧ result ≠ .pending
  | dropGuard result => serving = .done result ∧ result ≠ .pending
  | _ => False

namespace Link

variable {c : Code} {m : State Op Internal} {i : Nat} {o o' : Owner} {pending : Int}
  {a : TaskAct} {e : Effect} {T T' : Multiset Token} {L' : Link} {l : Label} {s : Serial}

theorem landed_of_quiet {L : Link} (quiet : L.live = 0) : L.Landed := by
  intro t member flight
  have dead := not_live quiet member
  rw [flight] at dead
  cases dead

/-- While an operation is in flight the word is locked, and it is the only one. -/
theorem flying_alone {op : Op} (tracks : Tracks c m ⟨o, T⟩) (member : ⟨op, .inFlight⟩ ∈ T) :
    o.pc.outside = true ∧ o.lockWord = c.word ∧
      ∃ R, T = ⟨op, .inFlight⟩ ::ₘ R ∧ Link.Landed ⟨o, R⟩ := by
  obtain ⟨R, rfl⟩ := Multiset.exists_cons_of_mem member
  obtain ⟨outside, word, rest, -⟩ := tracks.underWay rfl
  exact ⟨outside, word, R, rfl, landed_of_quiet rest⟩

/-- A step without a guard before and after, that leaves header and pool alone. -/
theorem Serves.stays (serves : Serves ⟨o, T⟩ s) (outside : o.pc.outside = true)
    (outside' : o'.pc.outside = true) (word : o'.lockWord = o.lockWord)
    (raw : o'.header.value.raw = o.header.value.raw) (pool : o'.pool = o.pool)
    (alive : o'.alive = true → o.alive = true)
    (waits : Unanswered ⟨o, T⟩) (waits' : Unanswered ⟨o', T⟩) :
    Serves ⟨o', T⟩ s where
  cursor := by
    rw [raw]
    exact serves.cursor
  stands := by
    have stands := serves.stands
    generalize s.serving = serving at stands ⊢
    have inside {pc : Pc} (own : o.pc = pc) (not : pc.outside = false) :
        At ⟨o', T⟩ s.pool serving := by
      rw [own, not] at outside
      cases outside
    cases stands with
    | out landed _ zero kept _ =>
        exact .out landed outside' (word.trans zero) (pool.trans kept) waits'
    | flying member kept =>
        exact .flying member (fun living => pool.trans (kept (alive living))) waits'
    | waiting landed _ closed final kept =>
        exact .waiting landed outside' (fun zero => closed (word.symm.trans zero))
          ((congrArg Overlapped.internal raw).trans final)
          (fun living => pool.trans (kept (alive living))) waits'
    | idle _ pc | prepared _ pc | storing _ pc | found _ pc | failing _ pc | finished _ pc =>
        exact inside pc rfl
    | returning _ pc notPending => exact absurd (waits _ pc) notPending

/-- A handle that holds its guard has nothing in flight. -/
theorem At.inside {pool : BufferPool} {serving : Serving} (stands : At ⟨o, T⟩ pool serving)
    (tracks : Tracks c m ⟨o, T⟩) (inside : o.pc.outside = false) :
    Landed ⟨o, T⟩ ∧ o.pool = pool ∧ o.pc.Holds o.header.value.raw.internal serving := by
  have at' {pc : Pc} (landed : Landed ⟨o, T⟩) (own : o.pc = pc) (kept : o.pool = pool)
      (holds : pc.Holds o.header.value.raw.internal serving) :
      Landed ⟨o, T⟩ ∧ o.pool = pool ∧ o.pc.Holds o.header.value.raw.internal serving :=
    ⟨landed, kept, own ▸ holds⟩
  cases stands with
  | out _ outside => exact absurd (outside.symm.trans inside) (by simp)
  | waiting _ outside => exact absurd (outside.symm.trans inside) (by simp)
  | flying member => exact absurd ((flying_alone tracks member).1.symm.trans inside) (by simp)
  | idle landed pc kept => exact at' landed pc kept rfl
  | prepared landed pc kept => exact at' landed pc kept rfl
  | storing landed pc final kept => exact at' landed pc kept ⟨_, _, rfl, final⟩
  | found landed pc final kept => exact at' landed pc kept ⟨_, _, rfl, final⟩
  | failing landed pc notPending kept => exact at' landed pc kept ⟨rfl, notPending⟩
  | finished landed pc notPending kept => exact at' landed pc kept ⟨rfl, notPending⟩
  | returning _ pc =>
      have outside : o.pc.outside = true := by rw [show o.pc = _ from pc]; rfl
      exact absurd (outside.symm.trans inside) (by simp)

/-- A handle without a guard is free, or its word is taken. -/
theorem At.outside {pool : BufferPool} {serving : Serving} (stands : At ⟨o, T⟩ pool serving)
    (tracks : Tracks c m ⟨o, T⟩) (outside : o.pc.outside = true) :
    (Unanswered ⟨o, T⟩ ∧
        ((serving = .free ∧ Landed ⟨o, T⟩ ∧ o.lockWord = 0 ∧ o.pool = pool) ∨
          (o.lockWord = c.word ∧ ∃ op, serving = .asked op.request ∧ ⟨op, .inFlight⟩ ∈ T) ∨
          ∃ op status, serving = .ended status ∧ Landed ⟨o, T⟩ ∧ o.lockWord ≠ 0 ∧
            o.header.value.raw.internal = .final op status ∧
            (o.alive = true → o.pool = pool))) ∨
      ∃ result, o.pc = .dropPermit result ∧ serving = .done result ∧ result ≠ .pending ∧
        Landed ⟨o, T⟩ ∧ o.lockWord = 0 ∧ o.pool = pool.clear := by
  cases stands with
  | out landed _ word kept waits => exact .inl ⟨waits, .inl ⟨rfl, landed, word, kept⟩⟩
  | @flying op member kept waits =>
      exact .inl ⟨waits, .inr (.inl ⟨(flying_alone tracks member).2.1, op, rfl, member⟩)⟩
  | @waiting op status landed _ word final kept waits =>
      exact .inl ⟨waits, .inr (.inr ⟨op, status, rfl, landed, word, final, kept⟩)⟩
  | @returning result landed pc notPending word kept =>
      exact .inr ⟨result, pc, rfl, notPending, landed, word, kept⟩
  | idle _ pc | prepared _ pc | storing _ pc | found _ pc | failing _ pc | finished _ pc =>
      rw [show o.pc = _ from pc] at outside
      cases outside

/-- The steps of a poll that the machine does not see. -/
theorem Serves.unseen (serves : Serves ⟨o, T⟩ s) (tracks : Tracks c m ⟨o, T⟩)
    (kind : o.kind = .handle) (acts : o.Acts i pending a o' e)
    (steady : a = .lock true → o.lockWord ≠ 0) (unseen : o.serve a = [])
    (prepare : ∀ extra newSocket, a ≠ .prepare extra newSocket)
    (collect : ∀ duplicate, a ≠ .collect duplicate) : Serves ⟨o', e.tokens + T⟩ s := by
  have pos := c.word_pos
  obtain ⟨cursor, stands⟩ := serves
  have holds (inside : o.pc.outside = false) := stands.inside tracks inside
  cases acts with
  | prepareRequest | prepareFail => exact absurd rfl (prepare _ _)
  | collect => exact absurd rfl (collect _)
  | undoPermit => simp [Owner.serve] at unseen
  | @refuseSubmit _ _ answer _ pc refused =>
      cases answer with
      | none => cases refused
      | some code =>
          by_cases waits : code = Win32.errorIoPending
          · simp [handleIoPending, waits] at refused
          · simp [Owner.serve, waits] at unseen
  | @submit call request answer pc accepted =>
      obtain ⟨-, kept, asked⟩ := holds (by rw [pc]; rfl)
      rw [pc] at asked
      rw [Effect.tokens_some rfl]
      refine ⟨cursor, asked ▸ ?_⟩
      exact @At.flying _ _ (o.submission i call request) (Multiset.mem_cons_self _ _)
        (fun _ => kept) (by simp [Unanswered])
  | @lockOpen call pc word =>
      rw [Effect.tokens_none rfl]
      refine ⟨cursor, ?_⟩
      rcases stands.outside tracks (by rw [pc]; rfl) with
        ⟨-, ⟨free, landed, -, kept⟩ | ⟨closed, -⟩ | ⟨_, _, -, -, closed, -⟩⟩ | ⟨_, closed, -⟩
      · exact free ▸ .idle landed rfl kept
      · omega
      · exact absurd word closed
      · simp [pc] at closed
  | @lockStore call spurious pc word failed =>
      rw [Effect.tokens_none rfl]
      refine ⟨cursor, ?_⟩
      have alive : o.alive = true := by simp [Owner.alive, pc]
      rcases stands.outside tracks (by rw [pc]; rfl) with
        ⟨-, ⟨-, -, zero, -⟩ | ⟨closed, -⟩ | ⟨op, status, ended, landed, -, final, kept⟩⟩ |
          ⟨_, closed, -⟩
      · obtain rfl := failed zero
        exact absurd zero (steady rfl)
      · omega
      · exact ended ▸ .storing landed rfl final (kept alive)
      · simp [pc] at closed
  | @storeOpen call n pc =>
      obtain ⟨landed, kept, ended⟩ := holds (by rw [pc]; rfl)
      rw [pc] at ended
      obtain ⟨op, status, ended, final⟩ := ended
      obtain ⟨-, -, -, word, -, -⟩ := tracks.storing pc
      have own : call.code = c := tracks.code call (by simp [pc, Pc.call])
      rw [Effect.tokens_none rfl]
      refine ⟨cursor, ended ▸ ?_⟩
      exact @At.found _ _ op status call landed (by simp [own, word]) final kept
  | @dropOverlapped result pc =>
      obtain ⟨landed, kept, done⟩ := holds (by rw [pc]; rfl)
      rw [pc] at done
      rw [Effect.tokens_none rfl]
      exact ⟨cursor, done.1 ▸ .finished landed rfl done.2 kept⟩
  | @dropGuard result _ pc =>
      obtain ⟨landed, kept, done⟩ := holds (by rw [pc]; rfl)
      rw [pc] at done
      rw [Effect.tokens_none rfl]
      exact ⟨cursor, done.1 ▸ .returning landed rfl done.2 rfl (by rw [kept])⟩
  | dropGuardPanic pc socket => exact absurd (kind.symm.trans socket) (by simp)
  | @dropPermit result pc =>
      have waits : result = .pending := by
        by_contra answers
        simp [Owner.serve, pc, answers] at unseen
      rw [Effect.tokens_none rfl]
      exact Serves.stays ⟨cursor, stands⟩ (by rw [pc]; rfl) rfl rfl rfl rfl
        (fun _ => by simp [Owner.alive, pc]) (by simp [Unanswered, pc, waits])
        (by simp [Unanswered])
  | permit pc | refusePermit pc | registerWaker pc | lockBusy pc | leaveBusy pc | forget pc
  | drop pc | leaveDrop pc | dropFields pc =>
      rw [Effect.tokens_none rfl]
      exact Serves.stays ⟨cursor, stands⟩ (by rw [pc]; rfl) rfl rfl rfl rfl
        (fun _ => by simp [Owner.alive, pc]) (by simp [Unanswered, pc]) (by simp [Unanswered])

/-- A poll that holds the guard asks for its operation. -/
theorem Serves.prepare {extra : Nat} {newSocket : Except Nat Nat} (serves : Serves ⟨o, T⟩ s)
    (tracks : Tracks c m ⟨o, T⟩) (kind : o.kind = .handle) (other : c ≠ .accept)
    (h : o.prepare extra newSocket = some (o', e)) :
    ∃ s', Run Serial.step anyStep s (o.serve (.prepare extra newSocket)) s' ∧
      Serves ⟨o', T⟩ s' := by
  obtain ⟨cursor, stands⟩ := serves
  obtain ⟨-, call, pc, prepares⟩ := Owner.prepare_prepares h
  obtain ⟨landed, kept, free⟩ := stands.inside tracks (by rw [pc]; rfl)
  rw [pc] at free
  have own : call.code = c := tracks.code call (by simp [pc, Pc.call])
  have pool : o.preparePool = s.pool.clear := by rw [Owner.preparePool, kind, ← kept]
  obtain ⟨pools, results⟩ := Call.prepare_handle (Call.kind_of_code (own ▸ other)) extra
    newSocket s.pool.clear o.sockets
  have asks : s.step (.ask call extra) = some (s.ask call extra) :=
    Serial.ask_eq_some.mpr ⟨free, rfl⟩
  have seen : o.serve (.prepare extra newSocket) = [.ask call extra] := by
    simp only [Owner.serve, pc]
  rw [seen]
  refine ⟨_, .single trivial asks, ?_⟩
  simp only [Serial.ask, ← pools, ← results]
  cases prepares with
  | request made =>
      rw [pool] at made
      simp only [made]
      exact ⟨cursor, .prepared landed rfl rfl⟩
  | error made | panic made =>
      rw [pool] at made
      simp only [made]
      exact ⟨cursor, .failing landed rfl (by simp) rfl⟩

/-- A poll that holds the guard collects the operation that has ended. -/
theorem Serves.collect {duplicate : Option Nat} (serves : Serves ⟨o, T⟩ s)
    (tracks : Tracks c m ⟨o, T⟩) (other : c ≠ .accept)
    (h : o.collect duplicate = some (o', e)) :
    ∃ s', Run Serial.step anyStep s (o.serve (.collect duplicate)) s' ∧ Serves ⟨o', T⟩ s' := by
  obtain ⟨cursor, stands⟩ := serves
  obtain ⟨-, call, pc, collects⟩ := Owner.collect_collects h
  obtain ⟨landed, kept, ended⟩ := stands.inside tracks (by rw [pc]; rfl)
  rw [pc] at ended
  obtain ⟨op, status, ended, final⟩ := ended
  have own : call.code = c := tracks.code call (by simp [pc, Pc.call])
  have collected : s.step (.collect call) = some (s.collect call status) :=
    Serial.collect_eq_some.mpr ⟨status, ended, rfl⟩
  have seen : o.serve (.collect duplicate) = [.collect call] := by
    simp only [Owner.serve, pc]
  have pools (n : Nat) := Call.collect_handle (Call.kind_of_code (own ▸ other)) n duplicate
    s.pool o.sockets
  have moves (outcome : OverlappedOutcome) := outcome.applyTo_move o.header.value.raw
  rw [show o.header.value.raw.cursor = s.cursor from cursor] at moves
  rw [seen]
  refine ⟨_, .single trivial collected, ?_⟩
  simp only [Serial.collect]
  cases collects with
  | unfinished failed =>
      rw [Overlapped.handleResult_final final] at failed
      simp only [failed]
      exact ⟨cursor, .finished landed rfl (by simp) kept⟩
  | @error n _ _ _ found made | @panic n _ _ found made =>
      rw [Overlapped.handleResult_final final] at found
      rw [kept] at made
      simp only [found, ← (pools n).1, ← (pools n).2, made]
      exact ⟨cursor, .finished landed rfl (by simp) rfl⟩
  | @overflow n _ _ _ outcome found made applied =>
      rw [Overlapped.handleResult_final final] at found
      rw [kept] at made
      have stuck := moves outcome
      rw [applied, Option.map_none] at stuck
      simp only [found, ← (pools n).1, ← (pools n).2, made, ← stuck]
      exact ⟨cursor, .finished landed rfl (by simp) rfl⟩
  | @ready n _ _ _ outcome _ found made applied =>
      rw [Overlapped.handleResult_final final] at found
      rw [kept] at made
      have moved := moves outcome
      rw [applied, Option.map_some] at moved
      simp only [found, ← (pools n).1, ← (pools n).2, made, ← moved]
      exact ⟨rfl, .finished landed rfl (by simp) rfl⟩

/-- Every step of a poll is nothing for the machine, or one step of it. -/
theorem Serves.task (serves : Serves ⟨o, T⟩ s) (tracks : Tracks c m ⟨o, T⟩)
    (kind : o.kind = .handle) (other : c ≠ .accept) (steady : a = .lock true → o.lockWord ≠ 0)
    (h : o.act i pending a = some (o', e)) :
    ∃ s', Run Serial.step anyStep s (o.serve a) s' ∧ Serves ⟨o', e.tokens + T⟩ s' := by
  have acts := Owner.act_acts h
  by_cases unseen : o.serve a = [] ∧ (∀ extra newSocket, a ≠ .prepare extra newSocket) ∧
      ∀ duplicate, a ≠ .collect duplicate
  · obtain ⟨nothing, prepare, collect⟩ := unseen
    rw [nothing]
    exact ⟨s, .nil, serves.unseen tracks kind acts steady nothing prepare collect⟩
  · cases a with
    | prepare extra newSocket =>
        have none : e.submit = none := by cases acts <;> rfl
        rw [Effect.tokens_none none]
        exact serves.prepare tracks kind other h
    | collect duplicate =>
        have none : e.submit = none := by cases acts; rfl
        rw [Effect.tokens_none none]
        exact serves.collect tracks other h
    | undoPermit =>
        refine ⟨s, .single trivial rfl, ?_⟩
        cases acts with
        | undoPermit pc =>
            rw [Effect.tokens_none rfl]
            exact serves.stays (by rw [pc]; rfl) rfl rfl rfl rfl
              (fun _ => by simp [Owner.alive, pc]) (by simp [Unanswered, pc]) (by simp [Unanswered])
    | submit answer =>
        obtain ⟨cursor, stands⟩ := serves
        cases answer with
        | none => simp [Owner.serve] at unseen
        | some code =>
            by_cases waits : code = Win32.errorIoPending
            · simp [Owner.serve, waits] at unseen
            · have refused : handleIoPending (some code) = .error (.os code) := by
                simp [handleIoPending, waits]
              simp only [Owner.serve, waits, if_false]
              cases acts with
              | submit pc accepted => rw [refused] at accepted; cases accepted
              | @refuseSubmit call request _ e' pc refused' =>
                  obtain rfl : IoError.os code = e' := by
                    rw [refused] at refused'
                    exact Except.error.inj refused'
                  obtain ⟨landed, kept, asked⟩ := stands.inside tracks (by rw [pc]; rfl)
                  rw [pc] at asked
                  have reports : s.step (.report (.failure code 0 []) true) =
                      some { s with serving := .done (.failed (.os code)) } :=
                    Serial.report_direct.mpr ⟨request, code, 0, [], asked, rfl, rfl⟩
                  rw [Effect.tokens_none rfl]
                  exact ⟨_, .single trivial reports, cursor, .failing landed rfl (by simp) kept⟩
    | dropPermit =>
        obtain ⟨cursor, stands⟩ := serves
        cases acts with
        | @dropPermit result pc =>
            have answers : result ≠ .pending := by
              rintro rfl
              simp [Owner.serve, pc] at unseen
            simp only [Owner.serve, pc, answers, if_false]
            rcases stands.outside tracks (by rw [pc]; rfl) with
              ⟨waits, -⟩ | ⟨result', pc', done, -, landed, word, kept⟩
            · exact absurd (waits result pc) answers
            · obtain rfl : result = result' := Pc.dropPermit.inj (pc.symm.trans pc')
              have answer : s.step (.answer result) = some s.rest :=
                Serial.answer_eq_some.mpr ⟨done, rfl⟩
              rw [Effect.tokens_none rfl]
              exact ⟨_, .single trivial answer, cursor,
                .out landed rfl word kept (by simp [Unanswered])⟩
    | _ => simp [Owner.serve] at unseen

/-- Only the operating system takes an operation out of flight. -/
theorem background_flies {L : Link} {op : Op} (step : Step i L l L') (other : ∀ a, l ≠ .task a)
    (unended : l ≠ .complete) (member : ⟨op, .inFlight⟩ ∈ L.tokens) :
    ⟨op, .inFlight⟩ ∈ L'.tokens := by
  have rest {t : Token} {R : Multiset Token} (member : ⟨op, .inFlight⟩ ∈ t ::ₘ R)
      (away : t.stage ≠ .inFlight) : ⟨op, .inFlight⟩ ∈ R := by
    rcases Multiset.mem_cons.mp member with rfl | old
    · exact absurd rfl away
    · exact old
  cases step with
  | task acts => exact absurd rfl (other _)
  | complete => exact absurd rfl unended
  | drop => exact rest member (by simp)
  | _ => exact Multiset.mem_cons_of_mem (rest member (by simp))

/-- A driving thread leaves the call of a handle alone. -/
theorem Serves.background {L : Link} (serves : Serves L s) (step : Step i L l L')
    (other : ∀ a, l ≠ .task a) (unended : l ≠ .complete) : Serves L' s := by
  have pc := background_pc step other
  have same : L'.owner.header.value.raw = L.owner.header.value.raw ∧
      L'.owner.pool = L.owner.pool ∧ (L'.owner.lockWord = 0 ↔ L.owner.lockWord = 0) := by
    cases step with
    | task acts => exact absurd rfl (other _)
    | complete => exact absurd rfl unended
    | @exchange o op old release spurious T =>
        exact ⟨Header.unlockExchange_raw _ _ _, rfl, Header.unlockExchange_zero _ _ _⟩
    | _ => exact ⟨rfl, rfl, Iff.rfl⟩
  obtain ⟨raw, pool, word⟩ := same
  have landed (landed : L.Landed) : L'.Landed := fun t member flight =>
    landed t (background_inFlight step other member flight) flight
  have waits (waits : L.Unanswered) : L'.Unanswered := fun result at' => waits result (pc ▸ at')
  have final {op : Op} {status : Final}
      (final : L.owner.header.value.raw.internal = .final op status) :
      L'.owner.header.value.raw.internal = .final op status := by
    rw [raw]
    exact final
  have alive : L'.owner.alive = L.owner.alive := by rw [Owner.alive, pc, Owner.alive]
  refine ⟨by rw [raw]; exact serves.cursor, ?_⟩
  have stands := serves.stands
  generalize s.serving = serving at stands ⊢
  cases stands with
  | out land outside zero kept none =>
      exact .out (landed land) (pc ▸ outside) (word.mpr zero) (pool.trans kept) (waits none)
  | idle land at' kept => exact .idle (landed land) (pc.trans at') (pool.trans kept)
  | prepared land at' kept => exact .prepared (landed land) (pc.trans at') (pool.trans kept)
  | flying member kept none =>
      exact .flying (background_flies step other unended member)
        (fun living => pool.trans (kept (alive ▸ living))) (waits none)
  | waiting land outside closed ended kept none =>
      exact .waiting (landed land) (pc ▸ outside) (fun zero => closed (word.mp zero)) (final ended)
        (fun living => pool.trans (kept (alive ▸ living))) (waits none)
  | storing land at' ended kept =>
      exact .storing (landed land) (pc.trans at') (final ended) (pool.trans kept)
  | found land at' ended kept =>
      exact .found (landed land) (pc.trans at') (final ended) (pool.trans kept)
  | failing land at' notPending kept =>
      exact .failing (landed land) (pc.trans at') notPending (pool.trans kept)
  | finished land at' notPending kept =>
      exact .finished (landed land) (pc.trans at') notPending (pool.trans kept)
  | returning land at' notPending zero kept =>
      exact .returning (landed land) (pc.trans at') notPending (word.mpr zero) (pool.trans kept)

section Complete

variable {op : Op} {R : Multiset Token}

/-- The operation in flight is the one that was asked for. -/
theorem Serves.asked (serves : Serves ⟨o, ⟨op, .inFlight⟩ ::ₘ R⟩ s)
    (tracks : Tracks c m ⟨o, ⟨op, .inFlight⟩ ::ₘ R⟩) :
    s.serving = .asked op.request ∧ (o.alive = true → o.pool = s.pool) ∧
      Unanswered ⟨o, ⟨op, .inFlight⟩ ::ₘ R⟩ := by
  have member : (⟨op, .inFlight⟩ : Token) ∈ ⟨op, .inFlight⟩ ::ₘ R := Multiset.mem_cons_self _ _
  obtain ⟨-, -, rest, -⟩ := tracks.underWay rfl
  have grounded (landed : Landed ⟨o, ⟨op, .inFlight⟩ ::ₘ R⟩) : False := landed _ member rfl
  have stands := serves.stands
  generalize s.serving = serving at stands ⊢
  cases stands with
  | flying member' kept waits =>
      rcases Multiset.mem_cons.mp member' with same | other
      · cases same
        exact ⟨rfl, kept, waits⟩
      · exact absurd rfl (landed_of_quiet rest _ other)
  | out landed | idle landed | prepared landed | waiting landed | storing landed | found landed
  | failing landed | finished landed | returning landed => exact (grounded landed).elim

/-- The operation in flight ends with a packet. -/
theorem Serves.complete (serves : Serves ⟨o, ⟨op, .inFlight⟩ ::ₘ R⟩ s)
    (tracks : Tracks c m ⟨o, ⟨op, .inFlight⟩ ::ₘ R⟩) {status : Final}
    (admits : op.admits status = true) :
    ∃ s', Run Serial.step anyStep s [.report status false] s' ∧
      Serves ⟨o.complete op status, ⟨op, .queued status⟩ ::ₘ R⟩ s' := by
  obtain ⟨asked, kept, waits⟩ := serves.asked tracks
  obtain ⟨cursor, stands⟩ := serves
  obtain ⟨outside, word, rest, -⟩ := tracks.underWay rfl
  have reports : s.step (.report status false) = some (s.finish op.request status) :=
    Serial.report_packet.mpr ⟨op.request, asked, admits, rfl⟩
  refine ⟨_, .single trivial reports, cursor, ?_⟩
  have pos := c.word_pos
  refine @At.waiting _ _ op status ?_ outside (fun zero => ?_) rfl (fun living => ?_) waits
  · intro t member' flight
    rcases Multiset.mem_cons.mp member' with rfl | other
    · cases flight
    · exact landed_of_quiet rest t other flight
  · have zero : o.lockWord = 0 := zero
    omega
  · have alive : o.alive = true := living
    have pool := kept alive
    cases slot : op.request.slot <;>
      simp only [Owner.complete, Serial.finish, alive, if_true, pool, slot]

end Complete

end Link

/-- No step of a poll is the end of a write. -/
theorem Owner.serve_written (o : Owner) (act : TaskAct) (s : Serial) :
    observe Serial.step Serial.written s (o.serve act) = [] := by
  refine observe_nil (fun e member t => ?_) s
  cases e with
  | report status direct =>
      -- a report of the system call is direct and one with a packet is no step of a poll
      cases direct with
      | true => cases status <;> rfl
      | false =>
          cases act <;> simp only [serve] at member <;> repeat' split at member
          all_goals simp at member
  | _ => rfl

namespace World

/-- A handle is used under one code, and no exchange of `header_lock` fails on its
open word. -/
def servesOnly (i : Nat) (c : Code) (w : World) (a : Action) : Bool :=
  w.oneCode i c a && w.steady i a

section Run

variable {loops : List Loop} {as : List Action} {w v : World}
  {i : Nat} {c : Code} {o : Owner}

/-- What is not seen of a header is nothing for the machine. -/
theorem serve_silent {a : Action} (silent : w.Silent i a) : w.serve i a = [] := by
  cases a with
  | task j act => exact if_neg silent
  | complete k status =>
      simp only [serve]
      split
      case h_1 op flight => exact if_neg (silent op flight)
      case h_2 => rfl
  | _ => rfl

theorem written_silent {a : Action} (silent : w.Silent i a) : w.written i a = [] := by
  cases a with
  | complete k status =>
      simp only [written]
      split
      case h_1 op flight => exact if_neg (silent op flight)
      case h_2 => rfl
  | _ => rfl

/-- A handle is at rest: no poll runs, the word is open and nothing is under way. -/
structure Rests (w : World) (i : Nat) (o : Owner) : Prop where
  owner : w.owners[i]? = some o
  kind : o.kind = .handle
  pc : o.pc = .out
  word : o.lockWord = 0
  quiet : (Link.mk o (w.tokensOf i)).live = 0

/-- A handle at rest is an empty mailbox and a free machine. -/
theorem Rests.serves (rests : w.Rests i o) (c : Code) :
    Link.Tracks c Mailbox.empty ⟨o, w.tokensOf i⟩ ∧ Link.Serves ⟨o, w.tokensOf i⟩ o.serial := by
  have outside : o.pc.outside = true := by rw [rests.pc]; rfl
  constructor
  · exact ⟨by rw [rests.pc]; rfl, by simp [rests.pc, Pc.call],
      ⟨rests.quiet, (Link.emptyWord_outside outside).mpr ⟨by simp [rests.pc], .inl rests.word⟩⟩⟩
  · exact ⟨rfl, .out (Link.landed_of_quiet rests.quiet) outside rests.word rfl
      (by simp [Link.Unanswered, rests.pc])⟩

/-- What happens to a handle is nothing for its machine, or one step of it. -/
theorem next_serves {m : State Op Internal} {s : Serial} {a : Action} (valid : w.Valid)
    (h : w.next a = some v) (owner : w.owners[i]? = some o) (kind : o.kind = .handle)
    (tracks : Link.Tracks c m ⟨o, w.tokensOf i⟩) (other : c ≠ .accept)
    (steady : w.steady i a = true) (serves : Link.Serves ⟨o, w.tokensOf i⟩ s) :
    ∃ s' o', Run Serial.step anyStep s (w.serve i a) s' ∧
      w.written i a = observe Serial.step Serial.written s (w.serve i a) ∧
      v.owners[i]? = some o' ∧ Link.Serves ⟨o', v.tokensOf i⟩ s' := by
  obtain ⟨o', owner', happens⟩ := stepped_happens valid (next_stepped h) owner
  generalize tokens : v.tokensOf i = T' at happens
  cases happens with
  | @task act _ e acts =>
      obtain ⟨o'', e', hact, rfl⟩ := step_act owner (next_eq_some.mp h).1
      rw [← tokens, afterTask_tokensOf (Owner.act_acts hact)]
      have seen : w.serve i (.task i act) = o.serve act := by simp [serve, owner]
      rw [seen]
      obtain ⟨s', run, serves'⟩ := serves.task tracks kind other (by
        rintro rfl zero
        simp [World.steady, owner, zero] at steady) hact
      exact ⟨s', o'', run, (o.serve_written act s).symm, afterTask_owner owner _ _, serves'⟩
  | @complete k op status R flight own admits moved =>
      have seen : w.serve i (.complete k status) = [.report status false] := by
        simp [serve, flight, own]
      rw [seen]
      rw [moved] at serves tracks
      obtain ⟨s', run, serves'⟩ := serves.complete tracks admits
      have shown : w.written i (.complete k status) = s.written (.report status false) := by
        simp [written, Serial.written, flight, own, (serves.asked tracks).1]
      refine ⟨s', _, run, ?_, owner', serves'⟩
      rw [shown, observe]
      cases s.step (.report status false) <;> simp [observe]
  | exchange thread own moved =>
      rw [moved] at serves
      exact ⟨s, _, .nil, rfl, owner', serves.background (.exchange (i := i)) (by simp) (by simp)⟩
  | quiet silent step =>
      rw [serve_silent silent, written_silent silent]
      exact ⟨s, _, .nil, rfl, owner', serves.background step (by simp) (by simp)⟩
  | still silent =>
      rw [serve_silent silent, written_silent silent]
      exact ⟨s, _, .nil, rfl, owner', serves⟩

/-- What is seen of a handle in a run is a run of its machine, which writes the same bytes. -/
theorem serial_run (other : c ≠ .accept) (reach : Reached anyStep (start loops) w)
    (rests : w.Rests i o) (run : Run next (fun w a => w.servesOnly i c a) w as v) :
    ∃ s o' m, Run Serial.step anyStep o.serial (observe next (serve i) w as) s ∧
      observe next (written i) w as =
        observe Serial.step Serial.written o.serial (observe next (serve i) w as) ∧
      v.owners[i]? = some o' ∧ Link.Tracks c m ⟨o', v.tokensOf i⟩ ∧
      Link.Serves ⟨o', v.tokensOf i⟩ s := by
  obtain ⟨tracks, serves⟩ := rests.serves c
  obtain ⟨s, ran, shown, -, o', m, owner', -, tracks', serves'⟩ := run.simulated_shown
    (written i) Serial.written
    (R := fun u s => u.Valid ∧ ∃ p m, u.owners[i]? = some p ∧ p.kind = .handle ∧
      Link.Tracks c m ⟨p, u.tokensOf i⟩ ∧ Link.Serves ⟨p, u.tokensOf i⟩ s)
    ⟨reached_valid reach, o, _, rests.owner, rests.kind, tracks, serves⟩
    (by
      rintro u a u' s ⟨valid, p, m, owner, kind, tracks, serves⟩ good h
      simp only [servesOnly, Bool.and_eq_true] at good
      obtain ⟨code, steady⟩ := good
      have stepped := next_stepped h
      obtain ⟨s', p', ran, shown, owner', serves'⟩ :=
        next_serves valid h owner kind tracks other steady serves
      obtain ⟨q, present, happens⟩ := stepped_happens valid stepped owner
      obtain rfl : p' = q := Option.some.inj (owner'.symm.trans present)
      obtain ⟨n, -, tracks'⟩ := tracks.happens owner happens
        (by
          rintro rfl zero
          simp [World.steady, owner, zero] at steady)
        (by
          rintro call waker rfl
          obtain ⟨o'', e, acts, -⟩ := step_task owner (next_eq_some.mp h).1
          have own := oneCode_code owner code acts.poll_kind
          rwa [Owner.codeOf, kind] at own)
      exact ⟨s', ran, shown, stepped_valid valid stepped, p', n, owner',
        (happens_kind happens).trans kind, tracks', serves'⟩)
  exact ⟨s, o', m, ran, shown, owner', tracks', serves'⟩

end Run

end World

end Iocp
