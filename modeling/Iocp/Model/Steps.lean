import Iocp.Model.Owner

/-!
# What one step of an owner can do

The transition table of a poll and a drop, read off the step functions once.
Every later argument about owners goes by cases on it, or on the finer tables of the
three steps that touch the pools.
-/

namespace Iocp

namespace Header

/-- The exchange of `header_lock` wins exactly when the word is open and the
hardware does not fail it. -/
theorem headerLock_open {h : Header} {code : Code} (word : h.lock = 0) :
    h.headerLock code false = ({ h with lock := code.word }, .returned (.ok .idle)) := by
  simp [headerLock, compareExchangeWeak, word]

/-- A positive word makes `header_lock` busy, and the flag it computes is then
always true: two positive words never sum to zero. -/
theorem headerLock_busy {h : Header} {code : Code} {spurious : Bool} (word : 0 < h.lock) :
    h.headerLock code spurious = (h, .returned (.busy true)) := by
  have hne : ¬ (spurious = false ∧ h.lock = 0) := by omega
  have hid : code.word ≠ -h.lock := by
    have := code.word_pos
    omega
  simp [headerLock, compareExchangeWeak, hne, word, hid]

/-- Every other word is stored over. -/
theorem headerLock_store {h : Header} {code : Code} {spurious : Bool} (word : h.lock ≤ 0)
    (failed : h.lock = 0 → spurious = true) :
    h.headerLock code spurious = (h, .store h.lock) := by
  have hne : ¬ (spurious = false ∧ h.lock = 0) := by
    rintro ⟨hs, h0⟩
    rw [failed h0] at hs
    cases hs
  have hn : ¬ 0 < h.lock := by omega
  simp [headerLock, compareExchangeWeak, hne, hn]

end Header

namespace Owner

/-- The steps of owner `i` that see a given value of the pending counter. -/
inductive Acts (i : Nat) (o : Owner) (pending : Int) : TaskAct → Owner → Effect → Prop
  | permit {call waker} (pc : o.pc = .out) (kind : call.kind = o.kind) (granted : 0 ≤ pending) :
      Acts i o pending (.poll call waker) { o with pc := .permitted call waker } { add := 1 }
  | refusePermit {call waker} (pc : o.pc = .out) (kind : call.kind = o.kind)
      (refused : pending < 0) :
      Acts i o pending (.poll call waker) { o with pc := .permitFailed } { add := 1 }
  | undoPermit (pc : o.pc = .permitFailed) :
      Acts i o pending .undoPermit
        { o with pc := .out, last := some (.failed (.other "port is shutting down")) }
        { add := -1 }
  | registerWaker {call waker} (pc : o.pc = .permitted call waker) :
      Acts i o pending .registerWaker
        { o with pc := .registered call, header := o.header.modify (·.registerByRef waker) } {}
  | lockOpen {call} (pc : o.pc = .registered call) (word : o.lockWord = 0) :
      Acts i o pending (.lock false)
        { o with
          pc := .guarded call .idle
          header := o.header.modify fun h => { h with lock := call.code.word } } {}
  | lockBusy {call spurious} (pc : o.pc = .registered call) (word : 0 < o.lockWord) :
      Acts i o pending (.lock spurious) { o with pc := .busy call o.lockWord true } {}
  | lockStore {call spurious} (pc : o.pc = .registered call) (word : o.lockWord ≤ 0)
      (failed : o.lockWord = 0 → spurious = true) :
      Acts i o pending (.lock spurious) { o with pc := .storing call o.lockWord } {}
  | storeOpen {call n} (pc : o.pc = .storing call n) :
      Acts i o pending .storeOpen
        { o with
          pc := .guarded call (if call.code.word = -n then .pending else .idle)
          header := o.header.modify fun h => { h with lock := 0 } } {}
  | leaveBusy {call found mismatch} (pc : o.pc = .busy call found mismatch) :
      Acts i o pending .leaveBusy { o with pc := .dropPermit .pending } { cancel := mismatch }
  | prepareRequest {call extra newSocket pool sockets request}
      (pc : o.pc = .guarded call .idle)
      (prepared : call.prepare extra newSocket o.preparePool o.sockets =
        (pool, sockets, .request request)) :
      Acts i o pending (.prepare extra newSocket)
        { o with
          pc := .prepared call request
          header := o.header.clone
          pool := pool
          sockets := sockets } {}
  | prepareFail {call extra newSocket pool sockets result}
      (pc : o.pc = .guarded call .idle) (notPending : result ≠ .pending)
      (slots : o.pool.buffers.length ≤ pool.buffers.length)
      (fails : ∀ r, (call.prepare extra newSocket o.preparePool o.sockets).2.2 ≠ .request r) :
      Acts i o pending (.prepare extra newSocket)
        { o with
          pc := .dropOverlapped result
          header := o.header.clone
          pool := pool
          sockets := sockets } {}
  | submit {call request answer} (pc : o.pc = .prepared call request)
      (accepted : handleIoPending answer = .ok ()) :
      Acts i o pending (.submit answer)
        { o with
          pc := .accepted call
          header := o.header.modify fun h => { h with raw := { h.raw with internal := .pending } } }
        { submit := some (o.submission i call request) }
  | refuseSubmit {call request answer e} (pc : o.pc = .prepared call request)
      (refused : handleIoPending answer = .error e) :
      Acts i o pending (.submit answer) { o with pc := .dropOverlapped (.failed e) } {}
  | forget {call} (pc : o.pc = .accepted call) :
      Acts i o pending .forget { o with pc := .out, last := some .pending } {}
  | dropOverlapped {result} (pc : o.pc = .dropOverlapped result) :
      Acts i o pending .dropOverlapped
        { o with pc := .dropGuard result, header := o.header.drop } {}
  | collect {call duplicate result pool sockets offset offsetHigh}
      (pc : o.pc = .guarded call .pending) (notPending : result ≠ .pending)
      (slots : pool.buffers = o.pool.buffers) :
      Acts i o pending (.collect duplicate)
        { o with
          pc := .dropGuard result
          pool := pool
          sockets := sockets
          header := o.header.modify fun h =>
            { h with raw := ⟨h.raw.internal, offset, offsetHigh⟩ } } {}
  | dropGuard {result sockets} (pc : o.pc = .dropGuard result) :
      Acts i o pending .dropGuard
        { o with
          pc := .dropPermit result
          pool := o.pool.clear
          sockets := sockets
          header := o.header.modify Header.unlockToOpen } {}
  | dropGuardPanic {result} (pc : o.pc = .dropGuard result) (kind : o.kind = .socket) :
      Acts i o pending .dropGuard
        { o with pc := .dropPermit .panicked, pool := o.pool.clear } {}
  | dropPermit {result} (pc : o.pc = .dropPermit result) :
      Acts i o pending .dropPermit { o with pc := .out, last := some result } { add := -1 }
  | drop (pc : o.pc = .out) :
      Acts i o pending .drop { o with pc := .dropping o.header.value.state } {}
  | leaveDrop {state} (pc : o.pc = .dropping state) :
      Acts i o pending .leaveDrop { o with pc := .dropFields } { cancel := state = .pending }
  | dropFields (pc : o.pc = .dropFields) :
      Acts i o pending .dropFields { o with pc := .dropped, header := o.header.drop } {}

/-- How a guard that was entered in state idle goes on. -/
inductive Prepares (o : Owner) (call : Call) (extra : Nat) (newSocket : Except Nat Nat) :
    Owner → Prop
  | request {pool sockets request}
      (made : call.prepare extra newSocket o.preparePool o.sockets =
        (pool, sockets, .request request)) :
      Prepares o call extra newSocket
        { o with
          pc := .prepared call request
          header := o.header.clone
          pool := pool
          sockets := sockets }
  | error {pool sockets code}
      (made : call.prepare extra newSocket o.preparePool o.sockets = (pool, sockets, .error code))
      (known : code ≠ Win32.errorIoPending) :
      Prepares o call extra newSocket
        { o with
          pc := .dropOverlapped (.failed (.os code))
          header := o.header.clone
          pool := pool
          sockets := sockets }
  | panic {pool sockets}
      (made : call.prepare extra newSocket o.preparePool o.sockets = (pool, sockets, .panic)) :
      Prepares o call extra newSocket
        { o with
          pc := .dropOverlapped .panicked
          header := o.header.clone
          pool := pool
          sockets := sockets }

/-- How a guard that was entered in state pending ends. -/
inductive Collects (o : Owner) (call : Call) (duplicate : Option Nat) : Owner → Prop
  | unfinished {e} (failed : o.header.value.raw.handleResult = .error e) :
      Collects o call duplicate { o with pc := .dropGuard (.failed e) }
  | error {n e pool sockets} (found : o.header.value.raw.handleResult = .ok n)
      (made : call.collect n duplicate o.pool o.sockets = (pool, sockets, .error e)) :
      Collects o call duplicate
        { o with pc := .dropGuard (.failed e), pool := pool, sockets := sockets }
  | panic {n pool sockets} (found : o.header.value.raw.handleResult = .ok n)
      (made : call.collect n duplicate o.pool o.sockets = (pool, sockets, .panic)) :
      Collects o call duplicate
        { o with pc := .dropGuard .panicked, pool := pool, sockets := sockets }
  /-- The cursor cannot be advanced. -/
  | overflow {n pool sockets value outcome} (found : o.header.value.raw.handleResult = .ok n)
      (made : call.collect n duplicate o.pool o.sockets = (pool, sockets, .output value outcome))
      (applied : outcome.applyTo o.header.value.raw = none) :
      Collects o call duplicate
        { o with pc := .dropGuard .panicked, pool := pool, sockets := sockets }
  | ready {n pool sockets value outcome raw} (found : o.header.value.raw.handleResult = .ok n)
      (made : call.collect n duplicate o.pool o.sockets = (pool, sockets, .output value outcome))
      (applied : outcome.applyTo o.header.value.raw = some raw) :
      Collects o call duplicate
        { o with
          pc := .dropGuard (.ready value)
          pool := pool
          sockets := sockets
          header := o.header.modify fun h => { h with raw := raw } }

/-- How a guard is dropped. -/
inductive DropsGuard (o : Owner) (result : PollResult) : Owner → Prop
  | handle (kind : o.kind = .handle) :
      DropsGuard o result
        { o with
          pc := .dropPermit result
          pool := o.pool.clear
          header := o.header.modify Header.unlockToOpen }
  | socket {sockets} (kind : o.kind = .socket) (cleared : o.sockets.clear = some sockets) :
      DropsGuard o result
        { o with
          pc := .dropPermit result
          pool := o.pool.clear
          sockets := sockets
          header := o.header.modify Header.unlockToOpen }
  /-- The slice of `SocketPool::clear` panics. -/
  | panic (kind : o.kind = .socket) (failed : o.sockets.clear = none) :
      DropsGuard o result { o with pc := .dropPermit .panicked, pool := o.pool.clear }

variable {i : Nat} {o o' : Owner} {pending : Int} {a : TaskAct} {e : Effect}

/-- A branch of a step function that returns a step of the table. -/
theorem Acts.of_some {next : Owner} {effect : Effect} (h : some (next, effect) = some (o', e))
    (acts : Acts i o pending a next effect) : Acts i o pending a o' e := by
  simp only [Option.some.injEq, Prod.mk.injEq] at h
  obtain ⟨rfl, rfl⟩ := h
  exact acts

theorem poll_acts {call : Call} {waker : Nat} (h : o.poll pending call waker = some (o', e)) :
    Acts i o pending (.poll call waker) o' e := by
  unfold poll at h
  split at h
  case h_1 pc =>
      split at h
      case isTrue kind =>
          apply Acts.of_some h
          by_cases hp : 0 ≤ pending
          · rw [if_pos hp]
            exact .permit pc kind hp
          · rw [if_neg hp]
            exact .refusePermit pc kind (by omega)
      case isFalse => cases h
  case h_2 => cases h

theorem lock_acts {spurious : Bool} (h : o.lock spurious = some (o', e)) :
    Acts i o pending (.lock spurious) o' e := by
  unfold lock at h
  split at h
  case h_1 call pc =>
      apply Acts.of_some h
      rcases Int.lt_trichotomy 0 o.header.value.lock with hp | h0 | hn
      · rw [Header.headerLock_busy hp]
        exact .lockBusy pc hp
      · cases spurious with
        | false =>
            rw [Header.headerLock_open h0.symm]
            exact .lockOpen pc h0.symm
        | true =>
            rw [Header.headerLock_store (by omega) (fun _ => rfl)]
            exact .lockStore pc (by simp only [lockWord]; omega) (fun _ => rfl)
      · rw [Header.headerLock_store (by omega) (fun h => by omega)]
        exact .lockStore pc (by simp only [lockWord]; omega)
          (fun h => by simp only [lockWord] at h; omega)
  case h_2 => cases h

/-- A handle clears its pool before it prepares, which gives up no slot. -/
theorem preparePool_buffers (o : Owner) : o.preparePool.buffers = o.pool.buffers := by
  simp only [preparePool]
  split <;> rfl

/-- Every step that prepares is one of these. -/
theorem prepare_prepares {extra : Nat} {newSocket : Except Nat Nat}
    (h : o.prepare extra newSocket = some (o', e)) :
    e = {} ∧ ∃ call, o.pc = .guarded call .idle ∧ o.Prepares call extra newSocket o' := by
  cases pc : o.pc with
  | guarded call state =>
      cases state with
      | pending => simp [prepare, pc] at h
      | idle =>
          obtain ⟨pool, sockets, prepared, made⟩ : ∃ pool sockets prepared,
              call.prepare extra newSocket o.preparePool o.sockets = (pool, sockets, prepared) :=
            ⟨_, _, _, rfl⟩
          simp only [prepare, pc, made] at h
          cases prepared with
          | request request =>
              cases h
              exact ⟨rfl, call, rfl, .request made⟩
          | error code =>
              by_cases unknown : code = Win32.errorIoPending
              · simp [unknown] at h
              · simp only [unknown, if_false] at h
                cases h
                exact ⟨rfl, call, rfl, .error made unknown⟩
          | panic =>
              cases h
              exact ⟨rfl, call, rfl, .panic made⟩
  | _ => simp [prepare, pc] at h

section Prepares

variable {call : Call} {extra : Nat} {newSocket : Except Nat Nat}

/-- However it goes on, the pools are those that the operation leaves. -/
theorem Prepares.pools (prepares : o.Prepares call extra newSocket o') :
    o'.pool = (call.prepare extra newSocket o.preparePool o.sockets).1 ∧
      o'.sockets = (call.prepare extra newSocket o.preparePool o.sockets).2.1 := by
  cases prepares with
  | request made | error made | panic made => exact ⟨by rw [made], by rw [made]⟩

theorem Prepares.lockWord (prepares : o.Prepares call extra newSocket o') :
    o'.lockWord = o.lockWord := by
  cases prepares <;> rfl

/-- It makes its request next, or it has failed. -/
theorem Prepares.next (prepares : o.Prepares call extra newSocket o') :
    (∃ request, o'.pc = .prepared call request ∧
      (call.prepare extra newSocket o.preparePool o.sockets).2.2 = .request request) ∨
      ∃ result, o'.pc = .dropOverlapped result ∧ ∀ value, result ≠ .ready value := by
  cases prepares with
  | request made => exact .inl ⟨_, rfl, by rw [made]⟩
  | error made known => exact .inr ⟨_, rfl, by simp⟩
  | panic made => exact .inr ⟨_, rfl, by simp⟩

end Prepares

theorem prepare_acts {extra : Nat} {newSocket : Except Nat Nat}
    (h : o.prepare extra newSocket = some (o', e)) :
    Acts i o pending (.prepare extra newSocket) o' e := by
  obtain ⟨rfl, call, pc, prepares⟩ := prepare_prepares h
  have slots := (call.prepare_lends extra newSocket o.preparePool o.sockets).1
  rw [preparePool_buffers, ← prepares.pools.1] at slots
  cases prepares with
  | request made => exact .prepareRequest pc made
  | error made | panic made => exact .prepareFail pc (by simp) slots (by simp [made])

theorem submit_acts {answer : Option Nat} (h : o.submit i answer = some (o', e)) :
    Acts i o pending (.submit answer) o' e := by
  unfold submit at h
  split at h
  case h_1 call request pc =>
      split at h
      case h_1 hok => exact .of_some h (.submit pc hok)
      case h_2 e' herr => exact .of_some h (.refuseSubmit pc herr)
  case h_2 => cases h

/-- Advancing the cursor leaves the status alone. -/
theorem applyTo_internal {outcome : OverlappedOutcome} {raw raw' : Overlapped}
    (h : outcome.applyTo raw = some raw') : raw'.internal = raw.internal := by
  cases outcome with
  | none =>
      simp only [OverlappedOutcome.applyTo, Option.some.injEq] at h
      rw [h]
  | advance n =>
      simp only [OverlappedOutcome.applyTo, Overlapped.advance] at h
      split at h
      · simp only [Option.some.injEq] at h
        rw [← h]
      · cases h

/-- Every step that collects is one of these. -/
theorem collect_collects {duplicate : Option Nat} (h : o.collect duplicate = some (o', e)) :
    e = {} ∧ ∃ call, o.pc = .guarded call .pending ∧ o.Collects call duplicate o' := by
  cases pc : o.pc with
  | guarded call state =>
      cases state with
      | idle => simp [collect, pc] at h
      | pending =>
          simp only [collect, pc] at h
          cases found : o.header.value.raw.handleResult with
          | error e' =>
              simp only [found] at h
              cases h
              exact ⟨rfl, call, rfl, .unfinished found⟩
          | ok n =>
              simp only [found] at h
              obtain ⟨pool, sockets, collected, made⟩ : ∃ pool sockets collected,
                  call.collect n duplicate o.pool o.sockets = (pool, sockets, collected) :=
                ⟨_, _, _, rfl⟩
              simp only [made] at h
              cases collected with
              | error e' =>
                  cases h
                  exact ⟨rfl, call, rfl, .error found made⟩
              | panic =>
                  cases h
                  exact ⟨rfl, call, rfl, .panic found made⟩
              | output value outcome =>
                  cases applied : outcome.applyTo o.header.value.raw with
                  | none =>
                      simp only [applied] at h
                      cases h
                      exact ⟨rfl, call, rfl, .overflow found made applied⟩
                  | some raw =>
                      simp only [applied] at h
                      cases h
                      exact ⟨rfl, call, rfl, .ready found made applied⟩
  | _ => simp [collect, pc] at h

/-- However it ends, the guard is dropped next. -/
theorem Collects.next {call : Call} {duplicate : Option Nat}
    (collects : o.Collects call duplicate o') : ∃ result, o'.pc = .dropGuard result := by
  cases collects <;> exact ⟨_, rfl⟩

/-- The pools change only by the operation, which collects what was reported. -/
theorem Collects.pools {call : Call} {duplicate : Option Nat}
    (collects : o.Collects call duplicate o') :
    (∃ e, o.header.value.raw.handleResult = .error e ∧ o'.pool = o.pool ∧
      o'.sockets = o.sockets) ∨
      ∃ n, o.header.value.raw.handleResult = .ok n ∧
        o'.pool = (call.collect n duplicate o.pool o.sockets).1 ∧
        o'.sockets = (call.collect n duplicate o.pool o.sockets).2.1 := by
  cases collects with
  | unfinished failed => exact .inl ⟨_, failed, rfl, rfl⟩
  | error found made | panic found made | overflow found made | ready found made =>
      exact .inr ⟨_, found, by rw [made], by rw [made]⟩

theorem collect_acts {duplicate : Option Nat} (h : o.collect duplicate = some (o', e)) :
    Acts i o pending (.collect duplicate) o' e := by
  obtain ⟨rfl, call, pc, collects⟩ := collect_collects h
  have slots : o'.pool.buffers = o.pool.buffers := by
    rcases collects.pools with ⟨-, -, same, -⟩ | ⟨n, -, same, -⟩
    · rw [same]
    · rw [same, call.collect_buffers]
  cases collects with
  | unfinished failed | error found made | panic found made | overflow found made =>
      -- the two offset words are those it found
      exact @Acts.collect i o pending call duplicate _ _ _ o.header.value.raw.offset
        o.header.value.raw.offsetHigh pc (by simp) slots
  | @ready n pool sockets value outcome raw found made applied =>
      have hi := applyTo_internal applied
      obtain ⟨internal, offset, offsetHigh⟩ := raw
      simp only at hi
      subst hi
      exact .collect pc (by simp) slots

/-- Every step that drops a guard is one of these. -/
theorem dropGuard_drops (h : o.dropGuard = some (o', e)) :
    e = {} ∧ ∃ result, o.pc = .dropGuard result ∧ o.DropsGuard result o' := by
  have kinds : o.kind = .handle ∨ o.kind = .socket := by cases o.kind <;> simp
  unfold dropGuard at h
  split at h
  case h_1 result pc =>
      simp only at h
      split at h
      case h_1 sockets cleared =>
          rcases kinds with kind | kind
          · rw [kind] at cleared
            obtain rfl := Option.some.inj cleared
            cases h
            exact ⟨rfl, result, pc, .handle kind⟩
          · rw [kind] at cleared
            cases h
            exact ⟨rfl, result, pc, .socket kind cleared⟩
      case h_2 failed =>
          rcases kinds with kind | kind
          · simp [kind] at failed
          · rw [kind] at failed
            cases h
            exact ⟨rfl, result, pc, .panic kind failed⟩
  case h_2 => cases h

theorem dropGuard_acts (h : o.dropGuard = some (o', e)) :
    Acts i o pending .dropGuard o' e := by
  obtain ⟨rfl, result, pc, drops⟩ := dropGuard_drops h
  cases drops with
  | handle kind => exact .dropGuard pc
  | socket kind cleared => exact .dropGuard pc
  | panic kind failed => exact .dropGuardPanic pc kind

/-- Only a guard touches the pool of sockets. -/
theorem Acts.same_sockets (acts : Acts i o pending a o' e)
    (prepare : ∀ extra newSocket, a ≠ .prepare extra newSocket)
    (collect : ∀ duplicate, a ≠ .collect duplicate) (guard : a ≠ .dropGuard) :
    o'.sockets = o.sockets := by
  cases acts with
  | prepareRequest | prepareFail => exact absurd rfl (prepare _ _)
  | collect => exact absurd rfl (collect _)
  | dropGuard | dropGuardPanic => exact absurd rfl guard
  | _ => rfl

/-- Every step of the step function is in the table. -/
theorem act_acts (h : o.act i pending a = some (o', e)) : Acts i o pending a o' e := by
  cases a with
  | poll call waker => exact poll_acts h
  | lock spurious => exact lock_acts h
  | prepare extra newSocket => exact prepare_acts h
  | submit answer => exact submit_acts h
  | collect duplicate => exact collect_acts h
  | dropGuard => exact dropGuard_acts h
  | undoPermit =>
      simp only [act, undoPermit] at h
      split at h
      case h_1 pc => exact .of_some h (.undoPermit pc)
      case h_2 => cases h
  | registerWaker =>
      simp only [act, registerWaker] at h
      split at h
      case h_1 pc => exact .of_some h (.registerWaker pc)
      case h_2 => cases h
  | storeOpen =>
      simp only [act, storeOpen, Header.headerLockStore] at h
      split at h
      case h_1 pc => exact .of_some h (.storeOpen pc)
      case h_2 => cases h
  | leaveBusy =>
      simp only [act, leaveBusy] at h
      split at h
      case h_1 pc => exact .of_some h (.leaveBusy pc)
      case h_2 => cases h
  | forget =>
      simp only [act, forget] at h
      split at h
      case h_1 pc => exact .of_some h (.forget pc)
      case h_2 => cases h
  | dropOverlapped =>
      simp only [act, dropOverlapped] at h
      split at h
      case h_1 pc => exact .of_some h (.dropOverlapped pc)
      case h_2 => cases h
  | dropPermit =>
      simp only [act, dropPermit] at h
      split at h
      case h_1 pc => exact .of_some h (.dropPermit pc)
      case h_2 => cases h
  | drop =>
      simp only [act, drop] at h
      split at h
      case h_1 pc => exact .of_some h (.drop pc)
      case h_2 => cases h
  | leaveDrop =>
      simp only [act, leaveDrop] at h
      split at h
      case h_1 pc => exact .of_some h (.leaveDrop pc)
      case h_2 => cases h
  | dropFields =>
      simp only [act, dropFields] at h
      split at h
      case h_1 pc => exact .of_some h (.dropFields pc)
      case h_2 => cases h

end Owner

end Iocp
