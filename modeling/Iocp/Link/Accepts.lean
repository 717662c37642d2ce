import Iocp.Link.Interference
import Iocp.Pool.Sockets

/-!
# The sockets of accept operations

`SocketPool::clear` sets both indices back to zero and leaves the vector as it
is, so the next accept is handed the first socket of the vector again. After a
first round that socket belongs to a caller or was closed. A socket therefore
goes through one round of accepts, and then no `take` creates a socket again.
-/

namespace Iocp

open Totals Transition SocketUse

theorem Call.prepareAccept_sockets (extra : Nat) (newSocket : Except Nat Nat) (pool : BufferPool)
    (sockets : SocketPool) :
    (prepareAccept extra newSocket pool sockets).2.1 = (sockets.take newSocket).1 := by
  simp only [prepareAccept]
  split
  case h_1 q code h => rw [h]
  case h_2 q h => rw [h]
  case h_3 q raw h =>
      rw [h]
      split <;> rfl

theorem Call.prepareAccept_request {extra : Nat} {newSocket : Except Nat Nat} {pool : BufferPool}
    {sockets : SocketPool} {request : Request}
    (h : (prepareAccept extra newSocket pool sockets).2.2 = .request request) :
    0 < (sockets.take newSocket).1.taken := by
  have some : ∃ raw, (sockets.take newSocket).2 = .ok raw := by
    simp only [prepareAccept] at h
    split at h
    case h_1 => cases h
    case h_2 => cases h
    case h_3 q raw took => exact ⟨_, congrArg Prod.snd took⟩
  obtain ⟨raw, took⟩ := some
  simp only [SocketPool.take] at took ⊢
  split at took
  case isTrue creates =>
      cases newSocket with
      | error code => cases took
      | ok socket => simp [creates]
  case isFalse found => simp [found]

theorem Call.collectAccept_sockets (duplicate : Option Nat) (sockets : SocketPool) :
    (collectAccept duplicate sockets).1 = sockets.release.1 := by
  simp only [collectAccept]
  split
  case h_1 q h => rw [h]
  case h_2 q raw h =>
      rw [h]
      split <;> rfl

namespace Owner

/-- What a step does with the sockets of the pool. -/
def uses (o : Owner) : TaskAct → List SocketUse
  | .prepare _ newSocket =>
      match o.pc with
      | .guarded .accept .idle => o.sockets.hands newSocket
      | _ => []
  | .collect _ =>
      match o.pc, o.header.value.raw.handleResult with
      | .guarded .accept .pending, .ok _ => o.sockets.releases
      | _, _ => []
  | .dropGuard =>
      match o.pc, o.kind with
      | .dropGuard _, .socket => o.sockets.closes
      | _, _ => []
  | _ => []

/-- An accept that is about to take its socket creates it. -/
def creates (o : Owner) : TaskAct → Bool
  | .prepare _ _ =>
      match o.pc with
      | .guarded .accept .idle => o.sockets.sockets.length ≤ o.sockets.taken
      | _ => true
  | _ => true

theorem of_not_creates {o : Owner} {a : TaskAct} (h : o.creates a = false) :
    ∃ extra newSocket, a = .prepare extra newSocket ∧ o.pc = .guarded .accept .idle ∧
      o.sockets.taken < o.sockets.sockets.length := by
  cases a with
  | prepare extra newSocket =>
      simp only [creates] at h
      split at h
      case h_1 pc => exact ⟨extra, newSocket, rfl, pc, by simpa using h⟩
      case h_2 => cases h
  | _ => cases h

/-- No poll of a socket gets past its exchange any more. -/
def rests (o : Owner) : Prop :=
  (∃ call, o.pc = .guarded call .idle) ∨
    (o.lockWord = 0 ∧ (o.pc.outside = true ∨ ∃ call, o.pc = .storing call 0))

/-- An accept is under way or waits to be collected. -/
def begun (o : Owner) : Prop :=
  o.lockWord < 0 ∨ (∃ call n, o.pc = .storing call n ∧ n < 0) ∨
    (∃ call, o.pc = .guarded call .pending) ∨ ∃ call request, o.pc = .prepared call request

end Owner

namespace Link

/-- The pool of a socket in its first round, or after it. -/
structure Round (L : Link) : Prop where
  call : ∀ call, L.owner.pc.call = some call → call = .accept
  begun : L.tokens ≠ 0 ∨ L.owner.begun → 0 < L.owner.sockets.sockets.length
  phase : (L.owner.sockets.taken = L.owner.sockets.sockets.length ∧
      (L.owner.sockets.released = 0 ∨ ∃ result, L.owner.pc = .dropGuard result)) ∨
    (L.owner.sockets.taken = 0 ∧ L.owner.sockets.released = 0 ∧ L.owner.rests)

section Round

variable {i : Nat} {o o' : Owner} {pending : Int} {a : TaskAct} {e : Effect} {T : Multiset Token}
  {L' : Link} {l : Label}

theorem Round.fresh (kind : Kind) (key size : Nat) : Round ⟨Owner.new kind key size, 0⟩ where
  call := by simp [Owner.new, Pc.call]
  begun := by
    rintro (some | begun)
    · exact absurd rfl some
    · simp [Owner.begun, Owner.new, Owner.lockWord, Arc.new, Header.new] at begun
  phase := .inl ⟨rfl, .inl rfl⟩

/-- A step that leaves the pool alone, and begins nothing. -/
theorem Round.still {T' : Multiset Token} (round : Round ⟨o, T⟩) (sockets : o'.sockets = o.sockets)
    (call : ∀ call, o'.pc.call = some call → call = .accept)
    (begun : T' ≠ 0 ∨ o'.begun → T ≠ 0 ∨ o.begun)
    (guard : (∃ result, o.pc = .dropGuard result) → ∃ result, o'.pc = .dropGuard result)
    (rests : o.rests → o'.rests) : Round ⟨o', T'⟩ where
  call := call
  begun := fun h => sockets ▸ round.begun (begun h)
  phase := by
    rw [sockets]
    exact round.phase.imp (And.imp id (Or.imp id guard)) (And.imp id (And.imp id rests))

/-- What the system does behind the back of a socket. -/
theorem Round.background (round : Round ⟨o, T⟩) (step : Step i ⟨o, T⟩ l L')
    (other : ∀ a, l ≠ .task a) : Round L' := by
  have drifts := Owner.background_drifts step other
  have pc : L'.owner.pc = o.pc := drifts.pc
  have tokens : L'.tokens ≠ 0 → T ≠ 0 := by
    cases step with
    | task acts => exact absurd rfl (other _)
    | _ => exact fun _ => Multiset.cons_ne_zero
  have word : L'.owner.lockWord ≠ o.lockWord → T ≠ 0 := by
    cases step with
    | task acts => exact absurd rfl (other _)
    | exchange => exact fun _ => Multiset.cons_ne_zero
    | _ => exact fun h => absurd rfl h
  refine round.still drifts.sockets (by rw [pc]; exact round.call) ?_ ?_ ?_
  · rintro (some | begun)
    · exact .inl (tokens some)
    · by_cases same : L'.owner.lockWord = o.lockWord
      · exact .inr (by simpa only [Owner.begun, pc, same] using begun)
      · exact .inl (word same)
  · rw [pc]
    exact id
  · rintro (idle | ⟨zero, outside⟩)
    · exact .inl (by simpa only [pc] using idle)
    · exact .inr ⟨drifts.opened zero, by simpa only [pc] using outside⟩

/-- The steps of a poll that do not concern the pool of sockets. -/
theorem Round.quiet (round : Round ⟨o, T⟩) (acts : o.Acts i pending a o' e)
    (prepare : ∀ extra newSocket, a ≠ .prepare extra newSocket)
    (collect : ∀ duplicate, a ≠ .collect duplicate) (guard : a ≠ .dropGuard)
    (code : ∀ call waker, a = .poll call waker → call = .accept) :
    Round ⟨o', e.tokens + T⟩ := by
  have call := round.call
  simp only at call
  cases acts with
  | prepareRequest | prepareFail => exact absurd rfl (prepare _ _)
  | collect => exact absurd rfl (collect _)
  | dropGuard | dropGuardPanic => exact absurd rfl guard
  | submit pc accepted =>
      refine round.still rfl (by simp_all [Pc.call]) ?_ (by simp [pc]) ?_
      · intro _
        exact .inr (.inr (.inr (.inr ⟨_, _, pc⟩)))
      · simp [Owner.rests, pc, Pc.outside]
  | permit pc kind granted =>
      rw [Effect.tokens_none rfl]
      refine round.still rfl ?_ ?_ (by simp [pc]) ?_
      · intro call h
        cases h
        exact code _ _ rfl
      · simp [Owner.begun, pc, Owner.lockWord]
      · simp [Owner.rests, pc, Pc.outside, Owner.lockWord]
  | @storeOpen own n pc =>
      rw [Effect.tokens_none rfl]
      refine round.still rfl (by simp_all [Pc.call]) ?_ (by simp [pc]) ?_
      · rintro (some | begun)
        · exact .inl some
        · refine .inr (.inr (.inl ⟨own, n, pc, ?_⟩))
          have pos := own.code.word_pos
          by_cases same : own.code.word = -n
          · omega
          · simp [Owner.begun, Owner.lockWord, Arc.modify, same] at begun
      · rintro (⟨call, idle⟩ | ⟨-, out | ⟨call, stored⟩⟩)
        · simp [pc] at idle
        · simp [pc, Pc.outside] at out
        · have pos := own.code.word_pos
          have zero : n = 0 := by
            rw [pc] at stored
            exact (Pc.storing.inj stored).2
          have unequal : own.code.word ≠ -n := by omega
          exact .inl ⟨own, by simp [unequal]⟩
  | @lockOpen own pc word =>
      rw [Effect.tokens_none rfl]
      refine round.still rfl (by simp_all [Pc.call]) ?_ (by simp [pc]) ?_
      · have pos := own.code.word_pos
        simp only [Owner.begun, Owner.lockWord, Arc.modify]
        rintro (some | negative | ⟨_, _, stored, _⟩ | ⟨_, guarded⟩ | ⟨_, _, prepared⟩)
        · exact .inl some
        · omega
        · cases stored
        · cases guarded
        · cases prepared
      · exact fun _ => .inl ⟨own, rfl⟩
  | @lockBusy own spurious pc word =>
      rw [Effect.tokens_none rfl]
      refine round.still rfl (by simp_all [Pc.call]) ?_ (by simp [pc]) ?_
      · simp [Owner.begun, pc, Owner.lockWord]
      · rintro (⟨call, idle⟩ | ⟨zero, -⟩)
        · simp [pc] at idle
        · omega
  | @lockStore own spurious pc word failed =>
      rw [Effect.tokens_none rfl]
      refine round.still rfl (by simp_all [Pc.call]) ?_ (by simp [pc]) ?_
      · rintro (some | negative | ⟨_, _, stored, negative⟩ | ⟨_, guarded⟩ | ⟨_, _, prepared⟩)
        · exact .inl some
        · exact .inr (.inl negative)
        · cases stored
          exact .inr (.inl negative)
        · cases guarded
        · cases prepared
      · rintro (⟨call, idle⟩ | ⟨zero, -⟩)
        · simp [pc] at idle
        · exact .inr ⟨zero, .inr ⟨own, congrArg (Pc.storing own) zero⟩⟩
  | refusePermit pc | undoPermit pc | registerWaker pc | leaveBusy pc | refuseSubmit pc | forget pc
  | dropOverlapped pc | dropPermit pc | drop pc | leaveDrop pc | dropFields pc =>
      rw [Effect.tokens_none rfl]
      refine round.still rfl (by simp_all [Pc.call]) ?_ (by simp [pc]) ?_
      · simp [Owner.begun, pc, Owner.lockWord, Arc.modify, Arc.drop, Header.registerByRef]
      · simp [Owner.rests, pc, Pc.outside, Owner.lockWord, Arc.modify, Arc.drop,
          Header.registerByRef]

/-- An accept that creates its socket. -/
theorem Round.prepare {extra : Nat} {newSocket : Except Nat Nat} {es : List SocketUse}
    (round : Round ⟨o, T⟩) (ledger : o.sockets.Ledger es)
    (creates : o.creates (.prepare extra newSocket) = true)
    (h : o.prepare extra newSocket = some (o', e)) :
    Round ⟨o', T⟩ ∧ o'.sockets.Ledger (es ++ o.uses (.prepare extra newSocket)) := by
  obtain ⟨-, call, hpc, prepares⟩ := Owner.prepare_prepares h
  obtain rfl := round.call call (by simp [hpc, Pc.call])
  simp only [Owner.creates, hpc, decide_eq_true_eq] at creates
  have full : o.sockets.taken = o.sockets.sockets.length :=
    Nat.le_antisymm ledger.taken creates
  have unreleased : o.sockets.released = 0 := by
    have bound := ledger.released
    rcases round.phase with ⟨-, none | ⟨result, guard⟩⟩ | ⟨-, none, -⟩
    · exact none
    · simp [hpc] at guard
    · exact none
  have sockets : o'.sockets = (o.sockets.take newSocket).1 :=
    prepares.pools.2.trans (Call.prepareAccept_sockets _ _ _ _)
  obtain ⟨grown, full', same⟩ := SocketPool.take_full newSocket full
  refine ⟨⟨?_, ?_, .inl ⟨?_, .inl ?_⟩⟩, ?_⟩
  · intro call about
    rcases prepares.next with ⟨request, pc, -⟩ | ⟨result, pc, -⟩
    · rw [pc] at about
      exact (Option.some.inj about).symm
    · rw [pc] at about
      cases about
  · intro begun
    rw [sockets]
    rcases prepares.next with ⟨request, pc, made⟩ | ⟨result, pc, -⟩
    · exact full' ▸ Call.prepareAccept_request made
    · refine Nat.lt_of_lt_of_le (round.begun ?_) grown
      refine begun.imp id fun begun => .inl ?_
      simpa [Owner.begun, pc, prepares.lockWord] using begun
  · rw [sockets]
    exact full'
  · rw [sockets]
    exact same.trans unreleased
  · simpa only [sockets, Owner.uses, hpc] using ledger.take newSocket creates

/-- Only a socket in its first round collects, and the socket it releases is in use. -/
theorem Round.collect {duplicate : Option Nat} {es : List SocketUse} (round : Round ⟨o, T⟩)
    (ledger : o.sockets.Ledger es) (h : o.collect duplicate = some (o', e)) :
    Round ⟨o', T⟩ ∧ o'.sockets.Ledger (es ++ o.uses (.collect duplicate)) := by
  obtain ⟨-, call, hpc, collects⟩ := Owner.collect_collects h
  obtain rfl := round.call call (by simp [hpc, Pc.call])
  have begun : o.begun := .inr (.inr (.inl ⟨_, hpc⟩))
  have some : 0 < o.sockets.sockets.length := round.begun (.inr begun)
  obtain ⟨full, unreleased⟩ :
      o.sockets.taken = o.sockets.sockets.length ∧ o.sockets.released = 0 := by
    rcases round.phase with ⟨full, none | ⟨result, guard⟩⟩ | ⟨-, -, rests⟩
    · exact ⟨full, none⟩
    · simp [hpc] at guard
    · simp [Owner.rests, hpc, Pc.outside] at rests
  have held : o.sockets.released < o.sockets.taken := by omega
  obtain ⟨result, pc⟩ := collects.next
  -- however the accept is collected, the guard is dropped next
  have dropped (same : o'.sockets = o.sockets ∨ o'.sockets = o.sockets.release.1) :
      Round ⟨o', T⟩ := by
    obtain ⟨length, taken⟩ : o'.sockets.sockets.length = o.sockets.sockets.length ∧
        o'.sockets.taken = o.sockets.taken := by
      rcases same with same | same
      · rw [same]
        exact ⟨rfl, rfl⟩
      · rw [same]
        exact ⟨rfl, rfl⟩
    exact ⟨by simp [pc, Pc.call], fun _ => length ▸ some,
      .inl ⟨taken.trans (full.trans length.symm), .inr ⟨result, pc⟩⟩⟩
  rcases collects.pools with ⟨e', failed, -, same⟩ | ⟨n, found, -, made⟩
  · exact ⟨dropped (.inl same), by simpa [Owner.uses, hpc, failed, same] using ledger⟩
  · have sockets := made.trans (Call.collectAccept_sockets duplicate o.sockets)
    refine ⟨dropped (.inr sockets), ?_⟩
    simp only [Owner.uses, hpc, found, sockets]
    exact ledger.release held

/-- A guard that is dropped ends the round of its socket. -/
theorem Round.dropGuard {es : List SocketUse} (round : Round ⟨o, T⟩)
    (ledger : o.sockets.Ledger es) (kind : o.kind = .socket)
    (h : o.dropGuard = some (o', e)) :
    Round ⟨o', T⟩ ∧ o'.sockets.Ledger (es ++ o.uses .dropGuard) := by
  obtain ⟨-, result, hpc, drops⟩ := Owner.dropGuard_drops h
  obtain ⟨q, cleared, taken, released, same, ledger'⟩ := ledger.clear
  cases drops with
  | handle handle =>
      rw [kind] at handle
      cases handle
  | panic _ failed =>
      rw [cleared] at failed
      cases failed
  | socket _ cleared' =>
      obtain rfl := Option.some.inj (cleared.symm.trans cleared')
      refine ⟨⟨by simp [Pc.call], ?_, ?_⟩, by simpa only [Owner.uses, hpc, kind] using ledger'⟩
      · rintro (some | begun)
        · exact same ▸ round.begun (.inl some)
        · simp [Owner.begun, Owner.lockWord, Arc.modify, Header.unlockToOpen] at begun
      · exact .inr ⟨taken, released, .inr ⟨rfl, .inl rfl⟩⟩

/-- Every step of a socket whose accepts create their sockets. -/
theorem Round.task {es : List SocketUse} (round : Round ⟨o, T⟩) (ledger : o.sockets.Ledger es)
    (kind : o.kind = .socket) (creates : o.creates a = true)
    (h : o.act i pending a = some (o', e)) :
    Round ⟨o', e.tokens + T⟩ ∧ o'.sockets.Ledger (es ++ o.uses a) := by
  have acts := Owner.act_acts h
  have alone (none : e.submit = none) (both : Round ⟨o', T⟩ ∧ o'.sockets.Ledger (es ++ o.uses a)) :
      Round ⟨o', e.tokens + T⟩ ∧ o'.sockets.Ledger (es ++ o.uses a) := by
    rw [Effect.tokens_none none]
    exact both
  have quiet (prepare : ∀ extra newSocket, a ≠ .prepare extra newSocket)
      (collect : ∀ duplicate, a ≠ .collect duplicate) (guard : a ≠ .dropGuard) :
      Round ⟨o', e.tokens + T⟩ ∧ o'.sockets.Ledger (es ++ o.uses a) := by
    refine ⟨round.quiet acts prepare collect guard ?_, ?_⟩
    · rintro call waker rfl
      have socket : call.kind = .socket := acts.poll_kind.trans kind
      cases call with
      | accept => rfl
      | _ => cases socket
    · have none : o.uses a = [] := by
        cases a with
        | prepare extra newSocket => exact absurd rfl (prepare extra newSocket)
        | collect duplicate => exact absurd rfl (collect duplicate)
        | dropGuard => exact absurd rfl guard
        | _ => rfl
      rw [none, acts.same_sockets prepare collect guard, List.append_nil]
      exact ledger
  cases a with
  | prepare extra newSocket =>
      exact alone (by cases acts <;> rfl) (round.prepare ledger creates h)
  | collect duplicate => exact alone (by cases acts; rfl) (round.collect ledger h)
  | dropGuard => exact alone (by cases acts <;> rfl) (round.dropGuard ledger kind h)
  | _ => exact quiet (by simp) (by simp) (by simp)

end Round

end Link

namespace World

/-- What a step does with the sockets of the pool of owner `i`. -/
def uses (i : Nat) (w : World) : Action → List SocketUse
  | .task j act => if j = i then (w.owners[j]?.map (·.uses act)).getD [] else []
  | _ => []

/-- Every accept of owner `i` creates the socket that it is handed. -/
def creates (i : Nat) (w : World) (a : Action) : Bool := w.ownerAt i Owner.creates a

theorem of_not_creates {i : Nat} {w : World} {a : Action} (h : ¬ w.creates i a = true) :
    ∃ act o, a = .task i act ∧ w.owners[i]? = some o ∧ o.creates act = false := by
  cases a with
  | task j act =>
      cases owner : w.owners[j]? with
      | none => simp [creates, ownerAt, owner] at h
      | some o =>
          simp only [creates, ownerAt, owner, Option.all_some, Bool.or_eq_true, decide_eq_true_eq,
            not_or, Decidable.not_not, Bool.not_eq_true] at h
          obtain ⟨rfl, reuses⟩ := h
          exact ⟨act, o, rfl, owner, reuses⟩
  | _ => simp [creates, ownerAt] at h

section Run

variable {loops : List Loop} {as : List Action} {w : World} {i : Nat}

theorem uses_silent {a : Action} (silent : w.Silent i a) : w.uses i a = [] := by
  cases a with
  | task j act => exact if_neg silent
  | _ => rfl

theorem uses_fresh (none : w.owners[i]? = none) (a : Action) : w.uses i a = [] := by
  cases a with
  | task j act =>
      simp only [uses]
      split
      case isTrue own => simp [own, none]
      case isFalse => rfl
  | _ => rfl

/-- The pool of a socket and its history in a run in which every accept creates its socket. -/
theorem run_ledger (run : Run next (fun w a => w.creates i a) (start loops) as w) :
    (w.owners[i]? = none → observe next (uses i) (start loops) as = []) ∧
      ∀ o, w.owners[i]? = some o → o.kind = .socket → Link.Round ⟨o, w.tokensOf i⟩ ∧
        o.sockets.Ledger (observe next (uses i) (start loops) as) := by
  suffices all : w.Valid ∧ (w.owners[i]? = none → observe next (uses i) (start loops) as = []) ∧
      ∀ o, w.owners[i]? = some o → o.kind = .socket → Link.Round ⟨o, w.tokensOf i⟩ ∧
        o.sockets.Ledger (observe next (uses i) (start loops) as) from all.2
  refine run.observed (P := fun w es => w.Valid ∧ (w.owners[i]? = none → es = []) ∧
    ∀ o, w.owners[i]? = some o → o.kind = .socket →
      Link.Round ⟨o, w.tokensOf i⟩ ∧ o.sockets.Ledger es)
    ⟨start_valid loops, fun _ => rfl, by simp [start]⟩ ?_
  rintro w a v es ⟨valid, none, ledgers⟩ good h
  have stepped := next_stepped h
  refine ⟨stepped_valid valid stepped, ?_, ?_⟩
  · intro fresh
    have length := stepped_length stepped
    have before : w.owners[i]? = Option.none := by
      rw [List.getElem?_eq_none_iff] at fresh ⊢
      omega
    rw [none before, uses_fresh before, List.append_nil]
  · intro o' owner' kind'
    cases owner : w.owners[i]? with
    | none =>
        rw [none owner, uses_fresh owner]
        cases stepped_moves valid stepped owner' with
        | created _ _ own tokens =>
            subst own
            rw [tokens]
            exact ⟨.fresh _ _ _, .new⟩
        | still before => simp [owner] at before
        | moved before => simp [owner] at before
    | some o =>
        -- a step that is not one of the socket itself
        have background (silent : w.uses i a = []) (same : o'.sockets = o.sockets)
            (kind : o.kind = .socket) (round : Link.Round ⟨o', v.tokensOf i⟩) :
            Link.Round ⟨o', v.tokensOf i⟩ ∧ o'.sockets.Ledger (es ++ w.uses i a) := by
          rw [silent, same, List.append_nil]
          exact ⟨round, (ledgers o owner kind).2⟩
        obtain ⟨o'', present, happens⟩ := stepped_happens valid stepped owner
        rw [owner', Option.some.injEq] at present
        subst present
        have kind : o.kind = .socket := (happens_kind happens).symm.trans kind'
        have round := (ledgers o owner kind).1
        generalize tokens : v.tokensOf i = T' at happens background ⊢
        cases happens with
        | @task act _ e acts =>
            obtain ⟨o'', e', hact, rfl⟩ := step_act owner (next_eq_some.mp h).1
            rw [afterTask_owner owner, Option.some.injEq] at owner'
            subst owner'
            rw [← tokens, afterTask_tokensOf (Owner.act_acts hact)]
            have creates : o.creates act = true := by
              rw [World.creates, ownerAt_task owner] at good
              exact good
            have uses : w.uses i (.task i act) = o.uses act := by simp [World.uses, owner]
            rw [uses]
            exact round.task (ledgers o owner kind).2 kind creates hact
        | complete flight own admits moved =>
            exact background rfl rfl kind
              ((moved ▸ round).background (.complete (i := i) admits) (by simp))
        | exchange thread own moved =>
            exact background rfl rfl kind
              ((moved ▸ round).background (.exchange (i := i)) (by simp))
        | quiet silent step =>
            have drifts := Owner.background_drifts step (by simp)
            exact background (uses_silent silent) drifts.sockets kind
              (round.background step (by simp))
        | still silent => exact background (uses_silent silent) rfl kind round

end Run

/-- The sockets of an accepting socket are used linearly exactly in the runs in
which every accept creates the socket that it is handed. -/
theorem accept_sockets_linear {i : Nat} {loops : List Loop} {as : List Action} {w : World}
    (run : Run next anyStep (start loops) as w)
    (socket : ∀ o, w.owners[i]? = some o → o.kind = .socket) :
    Linear (observe next (uses i) (start loops) as) ↔
      Run next (fun w a => w.creates i a) (start loops) as w := by
  constructor
  · intro linear
    have sockets := run.backward (P := fun w => ∀ o, w.owners[i]? = some o → o.kind = .socket)
      socket fun w a v reach h last o owner => by
        obtain ⟨o', owner', happens⟩ :=
          stepped_happens (reached_valid reach) (next_stepped h) owner
        exact (happens_kind happens).symm.trans (last o' owner')
    clear run
    induction sockets with
    | nil => exact .nil
    | @snoc as w a v before good h ih =>
        rw [before.observe_snoc] at linear
        have run := ih (fun o owner => good.2 o owner) linear.append_left
        refine run.snoc ?_ h
        by_contra reuses
        obtain ⟨act, o, rfl, owner, reuses⟩ := of_not_creates reuses
        obtain ⟨extra, newSocket, rfl, pc, found⟩ := Owner.of_not_creates reuses
        have uses : w.uses i (.task i (.prepare extra newSocket)) = o.sockets.hands newSocket := by
          simp [World.uses, owner, Owner.uses, pc]
        rw [uses] at linear
        exact ((run_ledger run).2 o owner (good.2 o owner)).2.reused found linear
  · intro creates
    obtain ⟨none, ledgers⟩ := run_ledger creates
    cases owner : w.owners[i]? with
    | none =>
        rw [none owner]
        exact ⟨by simp, by simp [ended]⟩
    | some o => exact (ledgers o owner (socket o owner)).2.linear

/-- A socket whose first accept succeeded. -/
def acceptedOnce : List Action :=
  [.create .socket ⟨0, 32⟩] ++ Schedule.submitted 0 .accept 1 ++
    [.complete 0 (.success 0 [])] ++ Schedule.drive 0 true ++ Schedule.enter 0 .accept 1 ++
    [.task 0 .storeOpen, .task 0 (.collect none), .task 0 .dropGuard, .task 0 .dropPermit]

theorem accept_sockets_linear_once :
    ∃ as w, Run next (fun w a => w.creates 0 a) setup as w ∧
      w.owners.map Owner.last = [some (.ready (.socket 0))] ∧
      Linear (observe next (uses 0) setup as) := by
  obtain ⟨w, o, ⟨as, run⟩, owner, state⟩ :=
    exec_owner (fun w a => w.creates 0 a) setup acceptedOnce 0
      (fun w o => (w.owners.map Owner.last, o.kind)) ([some (.ready (.socket 0))], .socket)
      (by decide)
  simp only [Prod.mk.injEq] at state
  refine ⟨as, w, run, state.1,
    (accept_sockets_linear (run.weaken fun _ _ _ => trivial) ?_).mpr run⟩
  intro o' owner'
  rw [owner, Option.some.injEq] at owner'
  exact owner' ▸ state.2

/-- The second accept is handed the socket that the first gave to its caller. -/
theorem accepted_socket_handed_again :
    ¬ ∀ as w, Run next (fun _ a => a.exact) setup as w →
      (∀ o, w.owners[0]? = some o → o.kind = .socket) →
      Linear (observe next (uses 0) setup as) := by
  intro always
  let again := acceptedOnce ++ Schedule.enter 0 .accept 1 ++ [.task 0 (.prepare 0 (.ok 8))]
  obtain ⟨w, run, seen⟩ := exec_seen (fun _ a => a.exact) setup again (uses 0)
    (fun w es => (w.owners.map Owner.kind, es)) ([.socket], [.hand 0, .release 0, .hand 0])
    (by decide)
  simp only [Prod.mk.injEq] at seen
  have linear := always again w run fun o owner => by
    have member := List.mem_map_of_mem (f := Owner.kind) (List.mem_of_getElem? owner)
    rw [seen.1] at member
    exact List.mem_singleton.mp member
  rw [seen.2] at linear
  have unused := linear.fresh [.hand 0, .release 0] 0 [] rfl
  exact absurd unused (by decide)

end World

end Iocp
