import Iocp.Link.Interference
import Iocp.Model.Schedule

/-!
# The cursor counts what was reported

A result moves the cursor when it is collected, and reaches the caller when the permit
is dropped. Between the two, the cursor is ahead of what was reported by the bytes of
this result, and otherwise it is the sum of the results.
-/

namespace Iocp

open Transition

/-- The bytes that a result counts. -/
def Output.amount : Output → Nat
  | bytes data => data.length
  | count n => n
  | unit => 0
  | socket _ => 0

/-- The operations that move the cursor: `poll_read`, `poll_write` and `Read`. -/
def Call.moves : Call → Bool
  | pollRead _ => true
  | pollWrite _ => true
  | read _ => true
  | _ => false

/-- The bytes of the result that is about to be returned. -/
def PollResult.amount : PollResult → Nat
  | ready value => value.amount
  | _ => 0

namespace Pc

/-- The bytes that were collected and not yet reported. -/
def unreported : Pc → Nat
  | dropOverlapped result => result.amount
  | dropGuard result => result.amount
  | dropPermit result => result.amount
  | _ => 0

end Pc

/-- The bytes that a step reports to the caller of the poll. -/
def Footprint.reported (f : Footprint) : Nat :=
  match f.before.pc with
  | .dropPermit result => result.amount
  | _ => 0

/-- The bytes that were reported so far. -/
def reported (fs : List Footprint) : Nat := (fs.map Footprint.reported).sum

theorem reported_snoc (fs : List Footprint) (f : Footprint) :
    reported (fs ++ [f]) = reported fs + f.reported := by
  rw [reported, List.map_append, List.sum_append, List.map_singleton, List.sum_singleton, reported]

/-- The addition leaves the 64 bits of the cursor. -/
theorem Overlapped.advance_none {r : Overlapped} {amount : Nat} :
    r.advance amount = none ↔ 2 ^ 64 ≤ r.cursor + amount := by
  simp [advance]

/-- Whatever a call that moves the cursor returns, it moves it by what it returns. -/
theorem Call.collect_moves {call : Call} (moves : call.moves = true) {n : Nat}
    {duplicate : Option Nat} {pool q : BufferPool} {sockets sockets' : SocketPool}
    {value : Output} {outcome : OverlappedOutcome}
    (made : call.collect n duplicate pool sockets = (q, sockets', .output value outcome)) :
    outcome = .advance value.amount := by
  have read {room : Nat} (h : (collectRead room n pool).2 = .output value outcome) :
      outcome = .advance value.amount := by
    simp only [collectRead] at h
    split at h
    case h_1 => cases h
    case h_2 q filled released =>
        simp only at h
        split at h
        · cases h
          rfl
        · cases h
  cases call with
  | pollRead room | read room => exact read (congrArg (fun next => next.2.2) made)
  | pollWrite buf =>
      cases made
      rfl
  | _ => cases moves

namespace Owner

/-- Only calls that move the cursor. -/
def movesOnly (_ : Owner) : TaskAct → Bool
  | .poll call _ => call.moves
  | _ => true

/-- The cursor is the number of bytes that were reported, and of those that will be. -/
structure Counts (sum : Nat) (o : Owner) : Prop where
  calls : ∀ call, o.pc.call = some call → call.moves = true
  cursor : o.header.value.raw.cursor = sum + o.pc.unreported

section Counts

variable {i : Nat} {o o' : Owner} {sum : Nat} {pending : Int} {a : TaskAct} {e : Effect}

theorem Counts.fresh (kind : Kind) (key size : Nat) : Counts 0 (new kind key size) where
  calls := by simp [new, Pc.call]
  cursor := by simp [new, Arc.new, Header.new, Overlapped.zeroed, Overlapped.cursor, Pc.unreported]

theorem Counts.drifts (counts : Counts sum o) (drifts : o.Drifts o') : Counts sum o' where
  calls := drifts.pc ▸ counts.calls
  cursor := by rw [drifts.cursor, drifts.pc, counts.cursor]

theorem Counts.collect {duplicate : Option Nat} (counts : Counts sum o)
    (h : o.collect duplicate = some (o', e)) : Counts sum o' := by
  obtain ⟨-, call, pc, collects⟩ := collect_collects h
  have moves : call.moves = true := counts.calls call (by rw [pc]; rfl)
  have cursor : o.header.value.raw.cursor = sum := by
    rw [counts.cursor, pc]
    rfl
  cases collects with
  | ready found made applied =>
      refine ⟨by simp [Pc.call], ?_⟩
      rw [Call.collect_moves moves made] at applied
      exact (Overlapped.advance_cursor applied).1.trans (congrArg (· + _) cursor)
  | _ => exact ⟨by simp [Pc.call], cursor⟩

/-- A step that leaves the cursor alone. -/
theorem Counts.still (counts : Counts sum o) (n : Nat)
    (calls : ∀ call, o'.pc.call = some call → o.pc.call = some call)
    (cursor : o'.header.value.raw.cursor = o.header.value.raw.cursor)
    (reports : n + o'.pc.unreported = o.pc.unreported) : Counts (sum + n) o' where
  calls := fun call about => counts.calls call (calls call about)
  cursor := by rw [cursor, counts.cursor, ← reports, Nat.add_assoc]

/-- Every step of an owner reports what it collected, once. -/
theorem Counts.task (counts : Counts sum o) (handle : o.kind = .handle)
    (moves : o.movesOnly a = true) (h : o.act i pending a = some (o', e)) :
    Counts (sum + (Footprint.mk o o' e).reported) o' := by
  cases act_acts h with
  | permit pc =>
      simp only [Footprint.reported, pc]
      refine ⟨?_, by rw [counts.cursor, pc]; rfl⟩
      rintro call about
      cases about
      exact moves
  | collect pc =>
      simp only [Footprint.reported, pc]
      exact counts.collect h
  | dropGuardPanic pc socket =>
      rw [handle] at socket
      cases socket
  | dropPermit pc =>
      simp only [Footprint.reported, pc]
      exact counts.still _ (by simp [Pc.call]) rfl (by simp [pc, Pc.unreported])
  | @prepareFail call extra newSocket pool sockets result pc notPending =>
      obtain ⟨-, call, -, prepares⟩ := prepare_prepares h
      simp only [Footprint.reported, pc]
      refine counts.still _ (by simp [Pc.call]) rfl ?_
      rcases prepares.next with ⟨request, made, -⟩ | ⟨result', made, failed⟩
      · cases made
      · cases made
        rw [pc, Nat.zero_add]
        cases result with
        | ready value => exact absurd rfl (failed value)
        | _ => rfl
  | refusePermit pc | undoPermit pc | registerWaker pc | lockOpen pc | lockBusy pc
  | lockStore pc | storeOpen pc | leaveBusy pc | prepareRequest pc | submit pc
  | refuseSubmit pc | forget pc | dropOverlapped pc | dropGuard pc | drop pc | leaveDrop pc
  | dropFields pc =>
      simp only [Footprint.reported, pc]
      refine counts.still 0 (by simp [pc, Pc.call]) rfl ?_
      simp [pc, Pc.unreported, PollResult.amount]

end Counts

end Owner

/-- What `LockGuard::advance` does when it is called. -/
theorem Owner.Counts.advanced {sum : Nat} {o o' : Owner} {duplicate : Option Nat} {e : Effect}
    {call : Call} {n amount : Nat} {value : Output} (counts : Owner.Counts sum o)
    (h : o.collect duplicate = some (o', e)) (pc : o.pc = .guarded call .pending)
    (found : o.header.value.raw.handleResult = .ok n)
    (output : (call.collect n duplicate o.pool o.sockets).2.2 = .output value (.advance amount)) :
    amount = value.amount ∧ (o'.pc = .dropGuard .panicked ↔ 2 ^ 64 ≤ sum + amount) ∧
      (o'.pc = .dropGuard .panicked → o'.header = o.header) := by
  obtain ⟨-, call', pc', collects⟩ := Owner.collect_collects h
  obtain rfl : call = call' := by simpa [pc] using pc'
  have moves : call.moves = true := counts.calls call (by rw [pc]; rfl)
  have cursor : o.header.value.raw.cursor = sum := by
    rw [counts.cursor, pc]
    rfl
  cases collects with
  | unfinished failed =>
      rw [failed] at found
      cases found
  | error found' made | panic found' made =>
      obtain rfl := Except.ok.inj (found'.symm.trans found)
      rw [made] at output
      cases output
  | overflow found' made applied =>
      obtain rfl := Except.ok.inj (found'.symm.trans found)
      rw [made] at output
      cases output
      rw [OverlappedOutcome.applyTo, Overlapped.advance_none, cursor] at applied
      exact ⟨OverlappedOutcome.advance.inj (Call.collect_moves moves made),
        iff_of_true rfl applied, fun _ => rfl⟩
  | ready found' made applied =>
      obtain rfl := Except.ok.inj (found'.symm.trans found)
      rw [made] at output
      cases output
      have fits : ¬ 2 ^ 64 ≤ sum + amount := by
        rw [← cursor, ← Overlapped.advance_none]
        rw [OverlappedOutcome.applyTo] at applied
        simp [applied]
      exact ⟨OverlappedOutcome.advance.inj (Call.collect_moves moves made),
        iff_of_false (by simp) fits, by simp⟩

/-- What is known of the cursor when `sum` bytes were reported. -/
structure CursorReported (i : Nat) (sum : Nat) (o : Owner) : Prop where
  /-- Between polls. -/
  between : o.pc = .out →
    o.header.value.raw.offsetHigh.toNat * 2 ^ 32 + o.header.value.raw.offset.toNat = sum
  submitted : ∀ answer o' e op, o.submit i answer = some (o', e) → e.submit = some op →
    op.offset = sum
  /-- When `LockGuard::advance` is called. -/
  advanced : ∀ duplicate o' e call n value amount, o.collect duplicate = some (o', e) →
    o.pc = .guarded call .pending → o.header.value.raw.handleResult = .ok n →
    (call.collect n duplicate o.pool o.sockets).2.2 = .output value (.advance amount) →
    amount = value.amount ∧ (o'.pc = .dropGuard .panicked ↔ 2 ^ 64 ≤ sum + amount) ∧
      (o'.pc = .dropGuard .panicked → o'.header = o.header)

namespace World

variable {loops : List Loop} {w : World} {i : Nat} {o : Owner} {as : List Action}

/-- Only calls that move the cursor are made on owner `i`. -/
def movesOnly (i : Nat) (w : World) (a : Action) : Bool := w.ownerAt i Owner.movesOnly a

/-- The cursor of a handle that is only used for `poll_read`, `poll_write` and `Read`. -/
theorem run_counts (run : Run next (fun w a => w.movesOnly i a) (start loops) as w)
    (owner : w.owners[i]? = some o) (handle : o.kind = .handle) :
    Owner.Counts (reported (observe next (footprints i) (start loops) as)) o := by
  refine run_footprints (Q := fun o fs => o.kind = .handle → Owner.Counts (reported fs) o) .refl
    run (by simp [start]) (fun _ kind key size _ => .fresh kind key size) ?_ ?_
    owner handle
  · rintro w o o' act e fs - owner moves h counts handle
    have kind : o.kind = .handle := (Owner.act_acts h).key_kind.2.symm.trans handle
    rw [movesOnly, ownerAt_task owner] at moves
    rw [reported_snoc]
    exact (counts kind).task kind moves h
  · intro o o' fs drifts counts handle
    exact (counts (drifts.kind.symm.trans handle)).drifts drifts

/-- The cursor is the number of bytes that were reported, each submission is made there,
and it moves for every result unless that would take it out of its 64 bits. -/
theorem cursor_reported (run : Run next (fun w a => w.movesOnly i a) (start loops) as w)
    (owner : w.owners[i]? = some o) (handle : o.kind = .handle) :
    CursorReported i (reported (observe next (footprints i) (start loops) as)) o := by
  have counts := run_counts run owner handle
  have cursor := counts.cursor
  constructor
  · intro pc
    rw [← Overlapped.cursor_eq, cursor, pc]
    rfl
  · intro answer o' e op h submits
    have h : o.act i 0 (.submit answer) = some (o', e) := h
    obtain ⟨call, request, pc, rfl, -⟩ := (Owner.act_acts h).submitted submits
    rw [pc] at cursor
    exact cursor
  · intro duplicate o' e call n value amount h pc found output
    exact counts.advanced h pc found output

/-- A read of four bytes that was reported. -/
def reportedRead : List Action :=
  Schedule.pendingRead ++ [.complete 0 (.success 4 [1, 2, 3, 4])] ++ Schedule.drive 0 true ++
    Schedule.resume 0 (.pollRead 8) 1

theorem cursor_reported_read :
    ∃ as w o, Run next (fun w a => w.movesOnly 0 a) setup as w ∧ w.owners[0]? = some o ∧
      reported (observe next (footprints 0) setup as) = 4 ∧ CursorReported 0 4 o := by
  obtain ⟨w, run, seen⟩ := exec_seen (fun w a => w.movesOnly 0 a = true) setup reportedRead
    (footprints 0) (fun w fs => (w.owners.map Owner.kind, reported fs)) ([.handle], 4) (by decide)
  simp only [Prod.mk.injEq] at seen
  obtain ⟨o, owner, kind⟩ : ∃ o, w.owners[0]? = some o ∧ o.kind = .handle := by
    have first : (w.owners.map Owner.kind)[0]? = some .handle := by rw [seen.1]; rfl
    rwa [List.getElem?_map, Option.map_eq_some_iff] at first
  have counted : CursorReported 0 (reported (observe next (footprints 0) setup reportedRead)) o :=
    cursor_reported run owner kind
  rw [seen.2] at counted
  exact ⟨reportedRead, w, o, run, owner, seen.2, counted⟩

end World

end Iocp
