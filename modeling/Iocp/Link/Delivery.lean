import Iocp.Link.Taking

/-!
# The bytes of a read reach a caller

A read asks for as many bytes as the buffer of the submitting call holds, and
they are copied into the buffer of the call that collects them. On a handle
used for reads only, what the operating system stored into the first slot of
the pool stays there until it is collected, and it is collected whole when it
fits into that buffer.
-/

namespace Iocp

open Totals Transition Mailbox

/-- An operation that failed has transferred nothing. -/
def Final.clean : Final → Bool
  | .success _ _ => true
  | .failure _ transferred _ => transferred = 0

/-- The bytes a status stands for, as cells of the buffer. -/
def Internal.cells : Internal → List (Option UInt8)
  | .final _ status => status.data.map some
  | _ => []

/-- What is reported of a read is what was stored for it. -/
theorem Overlapped.handleResult_read {r : Overlapped} {op : Op} {status : Final} {slot len n : Nat}
    (final : r.internal = .final op status) (admits : op.admits status = true)
    (request : op.request = .readFile slot len) (clean : status.clean = true)
    (h : r.handleResult = .ok n) : n = status.data.length := by
  rw [Op.admits_read admits request]
  cases status with
  | success transferred data =>
      simp only [handleResult, getOverlappedResult, final, Except.ok.injEq] at h
      exact h.symm
  | failure code transferred data =>
      obtain rfl : transferred = 0 := of_decide_eq_true clean
      simp only [handleResult, getOverlappedResult, final] at h
      split at h
      · cases h
        rfl
      · split at h
        · cases h
          rfl
        · cases h

/-- A read whose status is an error stored nothing. -/
theorem Overlapped.handleResult_error {r : Overlapped} {op : Op} {status : Final} {slot len : Nat}
    {e : IoError} (final : r.internal = .final op status) (admits : op.admits status = true)
    (request : op.request = .readFile slot len) (clean : status.clean = true)
    (h : r.handleResult = .error e) : status.data = [] := by
  have stored := Op.admits_read admits request
  cases status with
  | success transferred data => simp [handleResult, getOverlappedResult, final] at h
  | failure code transferred data =>
      obtain rfl : transferred = 0 := of_decide_eq_true clean
      exact List.length_eq_zero_iff.mp stored

/-- The room in the buffer that a read brings. -/
def Call.room : Call → Nat
  | pollRead remaining => remaining
  | read len => len
  | _ => 0

namespace BufferPool

/-- The first slot is lent out for a number of bytes. -/
structure Lent (p : BufferPool) (len : Nat) : Prop where
  taken : p.taken = 1
  released : p.released = 0
  room : ∃ b, p.buffers[0]? = some b ∧ len ≤ b.capacity

/-- The first slot is lent out and begins with the bytes. -/
structure Filled (p : BufferPool) (bytes : List UInt8) : Prop where
  taken : p.taken = 1
  released : p.released = 0
  holds : ∃ b, p.buffers[0]? = some b ∧ b.storage.take bytes.length = bytes.map some

variable {p : BufferPool} {len : Nat} {bytes : List UInt8}

theorem Lent.fill (lent : p.Lent len) (bytes : List UInt8) : (p.fill 0 bytes).Filled bytes where
  taken := lent.taken
  released := lent.released
  holds := by
    obtain ⟨b, found, -⟩ := lent.room
    refine ⟨b.fill bytes, by simp [BufferPool.fill, found], ?_⟩
    simp [Buf.fill]

/-- The first bytes of a filled slot are reclaimed. -/
theorem Filled.release_first (filled : p.Filled bytes) {n : Nat}
    (within : n ≤ bytes.length) : (p.release n).2 = some ((bytes.take n).map some) := by
  obtain ⟨b, found, holds⟩ := filled.holds
  have large : bytes.length ≤ b.capacity := by
    have := congrArg List.length holds
    simp only [List.length_take, List.length_map] at this
    simp only [Buf.capacity]
    omega
  have first : b.storage.take n = (bytes.take n).map some := by
    rw [List.map_take, ← holds, List.take_take, Nat.min_eq_left within]
  simp only [BufferPool.release, filled.taken, filled.released, Nat.lt_one_iff, if_true, found,
    if_pos (within.trans large), first]

/-- The bytes of a filled slot are reclaimed. -/
theorem Filled.release (filled : p.Filled bytes) :
    (p.release bytes.length).2 = some (bytes.map some) := by
  rw [filled.release_first le_rfl, List.take_length]

end BufferPool

namespace Call

/-- A read lends the first slot of a cleared pool. -/
theorem prepareRead_lent {len extra : Nat} {p q : BufferPool} {request : Request}
    (taken : p.taken = 0) (released : p.released = 0)
    (h : prepareRead len extra p = (q, .request request)) :
    request.slot = some 0 ∧ q.Lent request.len := by
  simp only [prepareRead] at h
  split at h
  case h_1 => cases h
  case h_2 q' b took =>
      cases h
      obtain ⟨rfl, next, same, buf, found, large⟩ := BufferPool.take_some took
      rw [taken] at next found
      refine ⟨congrArg some taken, next, same.trans released, buf, found, ?_⟩
      exact (Nat.min_le_left _ _).trans large

/-- A read that collects a filled slot hands out its bytes when they fit. -/
theorem collectRead_filled {room : Nat} {p : BufferPool} {bytes : List UInt8}
    (filled : p.Filled bytes) (fits : bytes.length ≤ room) :
    (collectRead room bytes.length p).2 =
      .output (.bytes (bytes.map some)) (.advance bytes.length) := by
  have reclaimed := filled.release
  simp only [collectRead]
  split
  case h_1 q h =>
      rw [h] at reclaimed
      cases reclaimed
  case h_2 q cells h =>
      rw [h] at reclaimed
      cases reclaimed
      simp [fits]

theorem read_cases {call : Call} (h : call.code = .read) :
    (∃ n, call = .pollRead n) ∨ ∃ n, call = .read n := by
  cases call with
  | pollRead n => exact .inl ⟨n, rfl⟩
  | read n => exact .inr ⟨n, rfl⟩
  | _ =>
      simp only [code] at h
      exact absurd h (by decide)

end Call

namespace Link

/-- The bytes of the status in the OVERLAPPED wait in the pool, while it exists. -/
def Kept (o : Owner) : Prop :=
  o.alive = true → ∃ op status, o.header.value.raw.internal = .final op status ∧
    o.pool.Filled status.data

/-- The first slot of a handle is lent to its read, and keeps the bytes of a read
that ended until they are collected. -/
structure Deposited (L : Link) : Prop where
  prepared : ∀ call request, L.owner.pc = .prepared call request →
    request.slot = some 0 ∧ L.owner.pool.Lent request.len
  flying : ∀ t ∈ L.tokens, t.stage = .inFlight → L.owner.alive = true →
    t.op.request.slot = some 0 ∧ L.owner.pool.Lent t.op.request.len
  travelling : ∀ t ∈ L.tokens, t.stage.live = true → t.stage ≠ .inFlight → Kept L.owner
  completed : L.owner.lockWord < 0 → Kept L.owner
  guarded : ∀ call, L.owner.pc = .guarded call .pending → Kept L.owner

section Deposited

variable {m : State Op Internal} {i : Nat} {o o' : Owner} {pending : Int} {a : TaskAct}
  {e : Effect} {T : Multiset Token} {L L' : Link} {l : Label}

theorem not_live {t : Token} (quiet : L.live = 0) (member : t ∈ L.tokens) :
    t.stage.live = false := by
  have := Multiset.filter_eq_nil.mp quiet t member
  simpa using this

/-- Nothing is under way and nothing waits. -/
theorem Deposited.of_quiet (quiet : L.live = 0) (word : 0 ≤ L.owner.lockWord)
    (prepared : ∀ call request, L.owner.pc = .prepared call request →
      request.slot = some 0 ∧ L.owner.pool.Lent request.len)
    (guarded : ∀ call, L.owner.pc = .guarded call .pending → Kept L.owner) : Deposited L where
  prepared := prepared
  flying := by
    intro t member flight
    have dead := not_live quiet member
    rw [flight] at dead
    cases dead
  travelling := by
    intro t member live
    rw [not_live quiet member] at live
    cases live
  completed := fun negative => absurd negative (by omega)
  guarded := guarded

theorem Kept.of_same (kept : Kept o) (alive : o'.alive = true → o.alive = true)
    (pool : o'.pool = o.pool)
    (internal : o'.header.value.raw.internal = o.header.value.raw.internal) : Kept o' := by
  intro living
  obtain ⟨op, status, final, filled⟩ := kept (alive living)
  exact ⟨op, status, internal.trans final, pool ▸ filled⟩

/-- A step that leaves pool and status alone and ends no operation. -/
theorem Deposited.still (deposited : Deposited L)
    (alive : L'.owner.alive = true → L.owner.alive = true) (pool : L'.owner.pool = L.owner.pool)
    (internal : L'.owner.header.value.raw.internal = L.owner.header.value.raw.internal)
    (prepared : ∀ call request, L'.owner.pc = .prepared call request →
      L.owner.pc = .prepared call request)
    (guarded : ∀ call, L'.owner.pc = .guarded call .pending →
      L.owner.pc = .guarded call .pending)
    (flying : ∀ t ∈ L'.tokens, t.stage = .inFlight → t ∈ L.tokens)
    (travelling : ∀ t ∈ L'.tokens, t.stage.live = true → t.stage ≠ .inFlight →
      ∃ u ∈ L.tokens, u.stage.live = true ∧ u.stage ≠ .inFlight)
    (word : L'.owner.lockWord < 0 → L.owner.lockWord < 0 ∨
      ∃ u ∈ L.tokens, u.stage.live = true ∧ u.stage ≠ .inFlight) : Deposited L' where
  prepared := fun call request pc =>
    pool ▸ deposited.prepared call request (prepared call request pc)
  flying := fun t member flight living =>
    pool ▸ deposited.flying t (flying t member flight) flight (alive living)
  travelling := by
    intro t member live away
    obtain ⟨u, member', live', away'⟩ := travelling t member live away
    exact (deposited.travelling u member' live' away').of_same alive pool internal
  completed := by
    intro negative
    rcases word negative with before | ⟨u, member, live, away⟩
    · exact (deposited.completed before).of_same alive pool internal
    · exact (deposited.travelling u member live away).of_same alive pool internal
  guarded := fun call pc => (deposited.guarded call (guarded call pc)).of_same alive pool internal

/-- A step of the owner that leaves pool and status alone and submits nothing. -/
theorem Deposited.idle (deposited : Deposited ⟨o, T⟩)
    (alive : o'.alive = true → o.alive = true) (pool : o'.pool = o.pool)
    (internal : o'.header.value.raw.internal = o.header.value.raw.internal)
    (prepared : ∀ call request, o'.pc ≠ .prepared call request)
    (guarded : ∀ call, o'.pc ≠ .guarded call .pending)
    (word : o'.lockWord < 0 → o.lockWord < 0) : Deposited ⟨o', T⟩ :=
  deposited.still alive pool internal (fun call request pc => absurd pc (prepared call request))
    (fun call pc => absurd pc (guarded call)) (fun _ member _ => member)
    (fun t member live away => ⟨t, member, live, away⟩) fun negative => .inl (word negative)

/-- The word of a header with a guard, which is not completed. -/
theorem emptyWord_nonneg {c : Code} (word : EmptyWord c o) : 0 ≤ o.lockWord := by
  have pos := c.word_pos
  unfold EmptyWord at word
  split at word <;> first | omega | exact word.elim

/-- The steps of the owner that submit nothing. -/
theorem Deposited.unsubmitted (deposited : Deposited ⟨o, T⟩) (kind : o.kind = .handle)
    (tracks : Tracks .read m ⟨o, T⟩) (acts : o.Acts i pending a o' e) (none : e.submit = none) :
    Deposited ⟨o', T⟩ := by
  have inside (pc : o.pc.outside = false) (stored : ∀ call n, o.pc ≠ .storing call n) :
      (Link.mk o T).live = 0 ∧ 0 ≤ o.lockWord := by
    obtain ⟨-, quiet, word⟩ := tracks.inside pc stored
    exact ⟨quiet, emptyWord_nonneg word⟩
  cases acts with
  | submit pc accepted => cases none
  | @prepareRequest call extra newSocket pool sockets request pc prepared =>
      obtain ⟨quiet, word⟩ := inside (by simp [pc, Pc.outside]) (by simp [pc])
      have code : call.code = .read := tracks.code call (by simp [pc, Pc.call])
      refine .of_quiet quiet word ?_ (by simp)
      rintro call' request' pc'
      cases pc'
      have cleared : o.preparePool = o.pool.clear := by rw [Owner.preparePool, kind]
      rw [cleared] at prepared
      rcases Call.read_cases code with ⟨n, rfl⟩ | ⟨n, rfl⟩
      all_goals
        simp only [Call.prepare, Prod.mk.injEq] at prepared
        obtain ⟨hpool, -, hrequest⟩ := prepared
        exact Call.prepareRead_lent rfl rfl (Prod.ext hpool hrequest)
  | prepareFail pc notPending slots fails =>
      obtain ⟨quiet, word⟩ := inside (by simp [pc, Pc.outside]) (by simp [pc])
      exact .of_quiet quiet word (by simp) (by simp)
  | collect pc notPending slots =>
      obtain ⟨quiet, word⟩ := inside (by simp [pc, Pc.outside]) (by simp [pc])
      exact .of_quiet quiet word (by simp) (by simp)
  | dropGuard pc =>
      obtain ⟨quiet, -⟩ := inside (by simp [pc, Pc.outside]) (by simp [pc])
      exact .of_quiet quiet (Int.le_refl 0) (by simp) (by simp)
  | dropGuardPanic pc socket => exact absurd (kind.symm.trans socket) (by simp)
  | @storeOpen call n pc =>
      obtain ⟨x, r, leaving, rfl, internal, quiet⟩ := tracks.storing pc
      refine .of_quiet quiet (Int.le_refl 0) (by simp) ?_
      intro call' _
      have shows := tracks.slot
      rw [leaving] at shows
      have negative : o.lockWord < 0 := by
        have pos := Code.read.word_pos
        have word : o.lockWord = -Code.read.word := shows.2.1
        omega
      exact (deposited.completed negative).of_same (fun _ => by simp [Owner.alive, pc]) rfl rfl
  | @lockOpen call pc word =>
      refine deposited.idle (fun _ => by simp [Owner.alive, pc]) rfl rfl (by simp) (by simp) ?_
      intro negative
      exact absurd call.code.word_pos (not_lt_of_gt negative)
  | dropFields pc =>
      exact deposited.idle (fun _ => by simp [Owner.alive, pc]) rfl rfl (by simp) (by simp) id
  | permit pc | refusePermit pc | undoPermit pc | registerWaker pc | lockBusy pc | lockStore pc
  | leaveBusy pc | forget pc | refuseSubmit pc | dropOverlapped pc | dropPermit pc | drop pc
  | leaveDrop pc =>
      exact deposited.idle (fun _ => by simp [Owner.alive, pc]) rfl rfl (by simp) (by simp) id

theorem Deposited.task (deposited : Deposited ⟨o, T⟩) (kind : o.kind = .handle)
    (tracks : Tracks .read m ⟨o, T⟩) (acts : o.Acts i pending a o' e) :
    Deposited ⟨o', e.tokens + T⟩ := by
  cases submit : e.submit with
  | none =>
      rw [Effect.tokens_none submit]
      exact deposited.unsubmitted kind tracks acts submit
  | some op =>
      rw [Effect.tokens_some submit]
      cases acts with
      | @submit call request answer pc accepted =>
          cases submit
          obtain ⟨-, quiet, word⟩ := tracks.inside (by simp [pc, Pc.outside]) (by simp [pc])
          obtain ⟨slot, lent⟩ := deposited.prepared call request pc
          constructor
          · simp
          · intro t member flight _
            rcases Multiset.mem_cons.mp member with rfl | old
            · exact ⟨slot, lent⟩
            · have dead := not_live quiet old
              rw [flight] at dead
              cases dead
          · intro t member live away
            rcases Multiset.mem_cons.mp member with rfl | old
            · exact absurd rfl away
            · rw [not_live quiet old] at live
              cases live
          · exact fun negative => absurd (emptyWord_nonneg word) (not_le_of_gt negative)
          · simp
      | _ => cases submit

theorem Deposited.background (deposited : Deposited ⟨o, T⟩) (tracks : Tracks .read m ⟨o, T⟩)
    (step : Step i ⟨o, T⟩ l L') (other : ∀ a, l ≠ .task a) : Deposited L' := by
  have moved {t : Token} {stage : Stage} {R : Multiset Token} {L' : Link}
      (tokens : T = t ::ₘ R) (tokens' : L'.tokens = ⟨t.op, stage⟩ ::ₘ R)
      (live : stage.live = true → t.stage.live = true) (away : t.stage ≠ .inFlight)
      (away' : stage ≠ .inFlight)
      (pc : L'.owner.pc = o.pc) (pool : L'.owner.pool = o.pool)
      (internal : L'.owner.header.value.raw.internal = o.header.value.raw.internal)
      (word : L'.owner.lockWord < 0 → o.lockWord < 0 ∨ t.stage.live = true) : Deposited L' := by
    subst tokens
    refine deposited.still (by simp [Owner.alive, pc]) pool internal (by simp [pc])
      (by simp [pc]) ?_ ?_ ?_
    · intro u member flight
      rw [tokens'] at member
      rcases Multiset.mem_cons.mp member with rfl | old
      · exact absurd flight away'
      · exact Multiset.mem_cons_of_mem old
    · intro u member living apart
      rw [tokens'] at member
      rcases Multiset.mem_cons.mp member with rfl | old
      · exact ⟨t, Multiset.mem_cons_self t R, live living, away⟩
      · exact ⟨u, Multiset.mem_cons_of_mem old, living, apart⟩
    · intro negative
      exact (word negative).imp id fun living => ⟨t, Multiset.mem_cons_self t R, living, away⟩
  cases step with
  | task acts => exact absurd rfl (other _)
  | dequeue => exact moved rfl rfl (fun _ => rfl) (by simp) (by simp) rfl rfl rfl .inl
  | account => exact moved rfl rfl (fun _ => rfl) (by simp) (by simp) rfl rfl rfl .inl
  | load =>
      exact moved rfl rfl (fun _ => rfl) (by simp) (afterUnlock_ne_inFlight _ _) rfl rfl rfl .inl
  | exchange =>
      exact moved rfl rfl (fun _ => rfl) (by simp) (afterUnlock_ne_inFlight _ _) rfl rfl
        (congrArg Overlapped.internal (Header.unlockExchange_raw _ _ _)) fun _ => .inr rfl
  | wake => exact moved rfl rfl (by simp [Stage.live]) (by simp) (by simp) rfl rfl rfl .inl
  | skip => exact moved rfl rfl (fun _ => rfl) (by simp) (by simp) rfl rfl rfl .inl
  | @drop _ op R =>
      refine deposited.still (fun living => living) rfl rfl (fun _ _ pc => pc) (fun _ pc => pc)
        (fun t member _ => Multiset.mem_cons_of_mem member) ?_ .inl
      exact fun t member live away => ⟨t, Multiset.mem_cons_of_mem member, live, away⟩
  | @complete _ op status R admits =>
      obtain ⟨outside, word, rest, -⟩ := tracks.underWay rfl
      have kept : Kept (o.complete op status) := by
        intro living
        have alive : o.alive = true := living
        obtain ⟨slot, lent⟩ := deposited.flying _ (Multiset.mem_cons_self _ R) rfl alive
        refine ⟨op, status, rfl, ?_⟩
        simp only [Owner.complete, slot, alive, if_true]
        exact lent.fill status.data
      constructor
      · intro call request pc
        have pc : o.pc = .prepared call request := pc
        simp [pc, Pc.outside] at outside
      · intro t member flight
        rcases Multiset.mem_cons.mp member with rfl | old
        · cases flight
        · have dead := not_live rest old
          rw [flight] at dead
          cases dead
      · exact fun _ _ _ _ => kept
      · exact fun _ => kept
      · exact fun _ _ => kept

end Deposited

end Link

/-- A completed read found by `header_lock` fits into the buffer of the call, and
into the cursor. -/
def Owner.fits (o : Owner) : TaskAct → Bool
  | .lock _ =>
      match o.pc, o.header.value.raw.handleResult with
      | .registered call, .ok n =>
          0 ≤ o.lockWord || n ≤ call.room && o.header.value.raw.cursor + n < 2 ^ 64
      | _, _ => true
  | _ => true

/-- The result a call collects fits into its buffer and into the cursor. -/
def Overlapped.Fits (raw : Overlapped) (call : Call) : Prop :=
  ∀ n, raw.handleResult = .ok n → n ≤ call.room ∧ raw.cursor + n < 2 ^ 64

namespace Owner

/-- The bytes a poll has just copied into the buffer of its caller. -/
def handing (o : Owner) : List (Option UInt8) :=
  match o.pc with
  | .dropGuard (.ready (.bytes data)) => data
  | _ => []

end Owner

namespace World

/-- The bytes the operating system stores for the operations of owner `i`. -/
def transferred (i : Nat) (w : World) : Action → List (Option UInt8)
  | .complete k status =>
      match w.inFlight[k]? with
      | some op => if op.owner = i then status.data.map some else []
      | none => []
  | _ => []

/-- The bytes owner `i` hands to its callers. -/
def handed (i : Nat) (w : World) : Action → List (Option UInt8)
  | .task j (.collect duplicate) =>
      if j = i then ((w.owners[j]?.bind (·.collect duplicate)).map (·.1.handing)).getD [] else []
  | _ => []

/-- An operation of owner `i` that fails has transferred nothing. -/
def failsClean (i : Nat) (w : World) : Action → Bool
  | .complete k status =>
      match w.inFlight[k]? with
      | some op => op.owner ≠ i || status.clean
      | none => true
  | _ => true

/-- The steps under which reads are delivered to their callers. -/
def fitsReads (i : Nat) (w : World) (a : Action) : Bool :=
  w.oneCode i .read a && w.steady i a && w.failsClean i a && w.ownerAt i Owner.fits a

section Reads

variable {loops : List Loop} {as : List Action} {w : World} {i : Nat} {o : Owner}

theorem fitsReads_oneCode (w : World) (a : Action) (h : w.fitsReads i a = true) :
    w.oneCode i .read a = true := by
  simp only [fitsReads, Bool.and_eq_true] at h
  exact h.1.1.1

theorem fitsReads_steady (w : World) (a : Action) (h : w.fitsReads i a = true) :
    w.steady i a = true := by
  simp only [fitsReads, Bool.and_eq_true] at h
  exact h.1.1.2

theorem fitsReads_clean (w : World) (a : Action) (h : w.fitsReads i a = true) :
    w.failsClean i a = true := by
  simp only [fitsReads, Bool.and_eq_true] at h
  exact h.1.2

/-- What an operation of the owner ended with is clean when all its failures are. -/
theorem failsClean_ended {k : Nat} {op : Op} {status : Final}
    (clean : w.failsClean i (.complete k status) = true) (flight : w.inFlight[k]? = some op)
    (own : op.owner = i) : status.clean = true := by
  simpa [failsClean, flight, own] using clean

/-- A read is resumed with a buffer that its result fits into. -/
theorem fitsReads_fits (w : World) (o : Owner) (call : Call) (spurious : Bool)
    (good : w.fitsReads i (.task i (.lock spurious)) = true) (owner : w.owners[i]? = some o)
    (pc : o.pc = .registered call) (word : o.lockWord < 0)
    (_ : ∃ op status, o.header.value.raw.internal = .final op status) :
    o.header.value.raw.Fits call := by
  intro n reported
  simp only [fitsReads, Bool.and_eq_true, ownerAt_task owner] at good
  have fits := good.2
  simp only [Owner.fits, pc, reported, Bool.or_eq_true, decide_eq_true_eq,
    Bool.and_eq_true] at fits
  exact fits.resolve_left (by omega)

theorem reached_deposited (reach : Reached (fun w a => w.fitsReads i a) (start loops) w)
    (owner : w.owners[i]? = some o) (kind : o.kind = .handle) :
    Link.Deposited ⟨o, w.tokensOf i⟩ := by
  refine reached_links (P := fun j L => j = i → L.owner.kind = .handle → L.Deposited) reach ?_ ?_
    i o owner rfl kind
  · intro j kind key size _ _
    exact .of_quiet rfl (Int.le_refl 0) (by simp [Owner.new]) (by simp [Owner.new])
  · rintro w a j o l L reach' good present concerns step before rfl handle
    have kind : o.kind = .handle := step.kind.symm.trans handle
    obtain ⟨as, run⟩ := reach'
    obtain ⟨m, -, -, -, tracks⟩ := run_mailbox fitsReads_steady fitsReads_oneCode run
    have tracks : Link.Tracks .read m ⟨o, w.tokensOf j⟩ := by
      have := tracks o present
      rwa [Owner.codeOf, kind] at this
    rcases step.task_or_other with ⟨pending, act, o', e, rfl, acts, rfl⟩ | other
    · exact (before rfl kind).task kind tracks acts
    · exact (before rfl kind).background tracks step other

/-- A poll that collects a read hands out its bytes and does not panic. -/
theorem collect_delivers {o' : Owner} {call : Call} {duplicate : Option Nat} {e : Effect}
    (reach : Reached (fun w a => w.fitsReads i a) (start loops) w)
    (owner : w.owners[i]? = some o) (kind : o.kind = .handle)
    (pc : o.pc = .guarded call .pending) (collect : o.collect duplicate = some (o', e)) :
    o'.pc ≠ .dropGuard .panicked ∧ o.waiting Internal.cells = o'.handing := by
  have typed := reached_typed fitsReads_oneCode reach owner
  rw [Owner.codeOf, kind] at typed
  have alive : o.alive = true := by simp [Owner.alive, pc]
  obtain ⟨op, status, final, filled⟩ :=
    (reached_deposited reach owner kind).guarded call pc alive
  have fits := (reached_resumed fitsReads_steady fitsReads_oneCode fitsReads_fits reach
    owner).guarded call pc
  obtain ⟨read, admits⟩ := typed.final op status final
  obtain ⟨slot, len, request⟩ := Request.code_read read
  have final : o.header.value.raw.internal = .final op status := final
  have clean : status.clean = true :=
    reached_final (P := fun _ status => status.clean = true)
      (fun w k _ _ good flight own =>
        failsClean_ended (fitsReads_clean w (.complete k _) good) flight own) reach owner final
  have waiting : o.waiting Internal.cells = status.data.map some := by
    simp [Owner.waiting, pc, Internal.cells, final]
  rw [waiting]
  simp only [Owner.collect, pc] at collect
  split at collect
  case h_1 error failed =>
      cases collect
      have none := Overlapped.handleResult_error final admits request clean failed
      simp [Owner.handing, none]
  case h_2 n found =>
      obtain rfl := Overlapped.handleResult_read final admits request clean found
      obtain ⟨room, bound⟩ := fits _ found
      have handed := Call.collectRead_filled filled room
      have code : call.code = .read := typed.call call (by simp [pc, Pc.call])
      have advanced : ∃ raw, o.header.value.raw.advance status.data.length = some raw := by
        simp only [Overlapped.advance, if_pos bound]
        exact ⟨_, rfl⟩
      obtain ⟨raw, advanced⟩ := advanced
      rcases Call.read_cases code with ⟨room, rfl⟩ | ⟨room, rfl⟩
      all_goals
        simp only [Call.collect] at collect
        rw [Call.room] at handed
        simp only [handed, OverlappedOutcome.applyTo, advanced] at collect
        cases collect
        simp [Owner.handing]

/-- What the guards take is handed out. -/
theorem handed_takes {v : World} {a : Action}
    (reach : Reached (fun w a => w.fitsReads i a) (start loops) w) (h : w.next a = some v)
    (handle : ∀ o, w.owners[i]? = some o → o.kind = .handle) :
    w.handed i a = w.takes Internal.cells i a := by
  cases a with
  | task j act =>
      cases act with
      | collect duplicate =>
          by_cases own : j = i
          · subst own
            cases owner : w.owners[j]? with
            | none => simp [handed, takes, owner]
            | some o =>
                obtain ⟨o', e, collect, -⟩ := step_act owner (next_eq_some.mp h).1
                obtain ⟨-, call, pc, -⟩ := Owner.collect_collects collect
                obtain ⟨-, delivered⟩ := collect_delivers reach owner (handle o owner) pc collect
                rw [Owner.act] at collect
                simp [handed, takes, owner, collect, delivered]
          · simp [handed, takes, own]
      | _ => rfl
  | _ => rfl

/-- The bytes stored are those of the operations that finish. -/
theorem transferred_mail (i : Nat) (w : World) (a : Action) :
    w.transferred i a = (finishes (w.mail i a)).flatMap fun finish => finish.2.cells := by
  cases a with
  | complete k status =>
      simp only [transferred, mail]
      cases w.inFlight[k]? with
      | none => rfl
      | some op =>
          by_cases own : op.owner = i <;> simp [own, Internal.cells]
  | task j act =>
      simp only [transferred, mail]
      cases w.owners[j]? with
      | none => rfl
      | some o =>
          by_cases own : j = i
          · simp only [own, if_true]
            cases act <;> simp only [Owner.mail] <;> (repeat' split) <;> simp
          · simp [own]
  | driver d act =>
      cases act with
      | exchange spurious =>
          simp only [transferred, mail]
          repeat' split
          all_goals simp
      | _ => rfl
  | _ => rfl

/-- A handle was a handle before. -/
theorem handle_before {v : World} {a : Action} (valid : w.Valid) (h : w.next a = some v)
    (handle : ∀ o, v.owners[i]? = some o → o.kind = .handle) :
    ∀ o, w.owners[i]? = some o → o.kind = .handle := by
  intro o owner
  obtain ⟨o', owner', happens⟩ := stepped_happens valid (next_stepped h) owner
  exact (happens_kind happens).symm.trans (handle o' owner')

/-- What was collected was handed out, or is about to be. -/
theorem handed_collected (run : Run next (fun w a => w.fitsReads i a) (start loops) as w)
    (handle : ∀ o, w.owners[i]? = some o → o.kind = .handle) :
    (collections (observe next (mail i) (start loops) as)).flatMap Internal.cells =
      observe next (handed i) (start loops) as ++ w.waitingAt Internal.cells i := by
  have handles := run.backward (P := fun w => ∀ o, w.owners[i]? = some o → o.kind = .handle)
    handle fun w a v reach h last => handle_before (reached_valid reach) h last
  have same : observe next (handed i) (start loops) as =
      observe next (takes Internal.cells i) (start loops) as := by
    refine handles.observe_congr ?_
    rintro w a v ⟨cs, before⟩ good h
    exact handed_takes ⟨cs, before.weaken fun _ _ h => h.1⟩ h good.2
  rw [same]
  exact run_taken fitsReads_steady fitsReads_oneCode run

end Reads

/-- What the reads of owner `i` get: no poll that collects one panics, and the
bytes handed out are the bytes stored, in order, without those not yet collected. -/
structure Delivered (i : Nat) (loops : List Loop) (as : List Action) (w : World) : Prop where
  safe : ∀ o call duplicate o' e, w.owners[i]? = some o → o.pc = .guarded call .pending →
    o.collect duplicate = some (o', e) → o'.pc ≠ .dropGuard .panicked
  order : observe next (handed i) (start loops) as <+: observe next (transferred i) (start loops) as
  all : ∀ o, w.owners[i]? = some o → o.pc = .out → o.lockWord = 0 →
    observe next (handed i) (start loops) as = observe next (transferred i) (start loops) as

/-- The bytes of a handle used for reads are delivered in every run whose polls
resume completed reads with a buffer that they fit into. -/
theorem read_delivery {i : Nat} {loops : List Loop} {as : List Action} {w : World}
    (run : Run next (fun w a => w.fitsReads i a) (start loops) as w)
    (handle : ∀ o, w.owners[i]? = some o → o.kind = .handle) : Delivered i loops as w := by
  have reach : Reached (fun w a => w.fitsReads i a) (start loops) w := ⟨as, run⟩
  obtain ⟨m, mailbox, -, -, tracks⟩ := run_mailbox fitsReads_steady fitsReads_oneCode run
  have collected := handed_collected run handle
  have stored : observe next (transferred i) (start loops) as =
      ((finishes (observe next (mail i) (start loops) as)).map Prod.snd).flatMap
        Internal.cells := by
    rw [List.flatMap_map]
    exact observe_derived (mail i)
      (fun es => (finishes es).flatMap fun finish => finish.2.cells) rfl (by simp)
      (transferred_mail i) (start loops) as
  constructor
  · intro o call duplicate o' e owner pc collect
    exact (collect_delivers reach owner (handle o owner) pc collect).1
  · obtain ⟨rest, more⟩ := (run_in_order mailbox).1
    rw [stored, ← more, List.flatMap_append, collected, List.append_assoc]
    exact List.prefix_append _ _
  · intro o owner pc word
    have outside : o.pc.outside = true := by
      rw [pc]
      rfl
    have pos := (o.codeOf .read).word_pos
    rcases (tracks o owner).word outside with ⟨-, empty⟩ | ⟨locked, -⟩ | ⟨ready, -⟩
    · have holds := (run_accounts mailbox).2
      rw [empty] at holds
      rw [stored, holds.1, collected]
      simp [waitingAt, owner, Owner.waiting, pc]
    · omega
    · omega

/-- A read for eight bytes whose future was dropped, collected by another call. -/
def resumedRead (room : Nat) : List Action :=
  Schedule.pendingRead ++ [.complete 0 (.success 4 [1, 2, 3, 4])] ++ Schedule.drive 0 true ++
    Schedule.enter 0 (.read room) 1 ++ [.task 0 .storeOpen]

theorem read_delivery_resumed :
    ∃ as w, Run next (fun w a => w.fitsReads 0 a) setup as w ∧
      w.owners.map Owner.last = [some (.ready (.bytes [some 1, some 2, some 3, some 4]))] ∧
      Delivered 0 [.main] as w := by
  obtain ⟨w, o, ⟨as, run⟩, owner, state⟩ := exec_owner (fun w a => w.fitsReads 0 a) setup
    (resumedRead 4 ++ [.task 0 (.collect none), .task 0 .dropGuard, .task 0 .dropPermit]) 0
    (fun w o => (w.owners.map Owner.last, o.kind))
    ([some (.ready (.bytes [some 1, some 2, some 3, some 4]))], .handle) (by decide)
  simp only [Prod.mk.injEq] at state
  refine ⟨as, w, run, state.1, read_delivery run ?_⟩
  intro o' owner'
  rw [owner, Option.some.injEq] at owner'
  exact owner' ▸ state.2

/-- A read into two bytes panics when it collects the four of a read whose future was dropped. -/
theorem short_read_panics :
    ¬ ∀ as w, Run next (fun w a => a.exact ∧ w.oneCode 0 .read a) setup as w →
      (∀ o, w.owners[0]? = some o → o.kind = .handle) → Delivered 0 [.main] as w := by
  intro always
  obtain ⟨w, o, ⟨as, run⟩, owner, state⟩ :=
    exec_owner (fun w a => a.exact ∧ w.oneCode 0 .read a) setup (resumedRead 2) 0
      (fun _ o => (o.kind, o.pc, (o.collect none).map fun next => next.1.pc))
      (.handle, .guarded (.read 2) .pending, some (.dropGuard .panicked)) (by decide)
  simp only [Prod.mk.injEq] at state
  obtain ⟨kind, pc, collected⟩ := state
  obtain ⟨⟨o', e⟩, collect, panicked⟩ := Option.map_eq_some_iff.mp collected
  have delivered := always as w run fun p present => by
    rw [owner, Option.some.injEq] at present
    exact present ▸ kind
  exact delivered.safe o _ none o' e owner pc collect panicked

end World

end Iocp
