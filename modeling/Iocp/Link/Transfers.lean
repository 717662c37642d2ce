import Iocp.Calls.Cursor
import Iocp.Library.Extents
import Iocp.Link.Attribution
import Iocp.Link.Delivery
import Iocp.Link.Indices

/-!
# Each transfer continues the one before it

A handle that is only used under one code, for calls that move its cursor, makes
one transfer at a time. Each is submitted at the cursor, when everything that was
transferred before has been collected and has moved the cursor.
-/

namespace Iocp

open Extents Mailbox Totals Transition

/-- The bytes that an operation moved, when it ended with a status. -/
def Op.moved (op : Op) (status : Final) : List UInt8 :=
  match op.request with
  | .writeFile _ bytes => bytes.take status.transferred
  | _ => status.data

/-- The number of bytes that a status reports. -/
def Internal.amount : Internal → Nat
  | .final _ (.success transferred _) => transferred
  | _ => 0

/-- The bytes that a report stands for. -/
def Internal.moved : Internal → List UInt8
  | .final op status => op.moved status
  | _ => []

/-- The transfers that finished, with their positions. -/
def extents (es : List (Event Op Internal)) : List (Extent UInt8) :=
  (finishes es).map fun finish => (finish.1.offset, finish.2.moved)

@[simp] theorem extents_append (ds es : List (Event Op Internal)) :
    extents (ds ++ es) = extents ds ++ extents es := by
  simp [extents]

/-- The bytes that were collected. -/
def collected (es : List (Event Op Internal)) : Nat :=
  ((collections es).map Internal.amount).sum

@[simp] theorem collected_append (ds es : List (Event Op Internal)) :
    collected (ds ++ es) = collected ds + collected es := by
  simp [collected]

/-- The status of an operation of a code, which transferred nothing if it failed. -/
structure Op.Whole (c : Code) (op : Op) (status : Final) : Prop where
  code : op.request.code = c
  admits : op.admits status = true
  clean : status.clean = true

/-- A status without a partial transfer reports what was transferred. -/
theorem Final.clean_amount {status : Final} (clean : status.clean = true) (op : Op) :
    (Internal.final op status).amount = status.transferred := by
  cases status with
  | success transferred data => rfl
  | failure code transferred data => exact (of_decide_eq_true clean).symm

/-- An operation that moves the cursor moves as many bytes as its status reports. -/
theorem Op.moved_length {c : Code} {op : Op} {status : Final} (whole : op.Whole c status)
    (moves : c = .read ∨ c = .write) :
    (op.moved status).length = (Internal.final op status).amount := by
  rw [Final.clean_amount whole.clean]
  rcases moves with rfl | rfl
  · obtain ⟨slot, len, request⟩ := Request.code_read whole.code
    simp only [Op.moved, request]
    exact Op.admits_read whole.admits request
  · obtain ⟨slot, bytes, request⟩ := Request.code_write whole.code
    have bound := Op.admits_le whole.admits
    rw [request, Request.len] at bound
    simp only [Op.moved, request]
    rw [List.length_take, Nat.min_eq_left bound]

/-- A count that is read is the one reported. -/
theorem Overlapped.handleResult_amount {r : Overlapped} {n : Nat} (h : r.handleResult = .ok n) :
    n = r.internal.amount := by
  simp only [handleResult, getOverlappedResult] at h
  cases internal : r.internal with
  | zeroed =>
      rw [internal] at h
      cases h
      rfl
  | pending => simp [internal, Win32.errorIoIncomplete, Win32.errorHandleEof,
      Win32.errorBrokenPipe] at h
  | final op status =>
      cases status with
      | success transferred data =>
          rw [internal] at h
          cases h
          rfl
      | failure code transferred data =>
          simp only [internal] at h
          split at h
          · cases h
            rfl
          · split at h
            · cases h
              rfl
            · cases h

/-- An error reports no bytes. -/
theorem Overlapped.handleResult_no_amount {r : Overlapped} {e : IoError}
    (h : r.handleResult = .error e) : r.internal.amount = 0 := by
  cases internal : r.internal with
  | zeroed | pending => rfl
  | final op status =>
      cases status with
      | success transferred data => simp [handleResult, getOverlappedResult, internal] at h
      | failure code transferred data => rfl

/-- A completed operation found by `header_lock` fits into the cursor, and a read into
the buffer of the call. -/
def Owner.applies (o : Owner) : TaskAct → Bool
  | .lock _ =>
      match o.pc, o.header.value.raw.handleResult with
      | .registered call, .ok n =>
          0 ≤ o.lockWord ||
            (call.code ≠ .read || n ≤ call.room) && o.header.value.raw.cursor + n < 2 ^ 64
      | _, _ => true
  | _ => true

/-- The result a call collects fits into its buffer, when it is a read, and into the cursor. -/
def Overlapped.Applies (raw : Overlapped) (call : Call) : Prop :=
  ∀ n, raw.handleResult = .ok n →
    (call.code = .read → n ≤ call.room) ∧ raw.cursor + n < 2 ^ 64

namespace Owner

/-- The bytes that were collected and have not moved the cursor yet. -/
def unapplied (o : Owner) : Nat := (o.waiting fun r => [r.amount]).sum

end Owner

namespace World

/-- The steps under which owner `i` makes one transfer after the other. -/
def streams (i : Nat) (c : Code) (w : World) (a : Action) : Bool :=
  w.oneCode i c a && w.steady i a && w.failsClean i a && w.movesOnly i a &&
    w.ownerAt i Owner.applies a

section Streams

variable {i : Nat} {c : Code} {loops : List Loop} {as : List Action} {w v : World} {o : Owner}
  {a : Action}

theorem streams_oneCode (w : World) (a : Action) (h : w.streams i c a = true) :
    w.oneCode i c a = true := by
  simp only [streams, Bool.and_eq_true] at h
  exact h.1.1.1.1

theorem streams_steady (w : World) (a : Action) (h : w.streams i c a = true) :
    w.steady i a = true := by
  simp only [streams, Bool.and_eq_true] at h
  exact h.1.1.1.2

theorem streams_clean (w : World) (a : Action) (h : w.streams i c a = true) :
    w.failsClean i a = true := by
  simp only [streams, Bool.and_eq_true] at h
  exact h.1.1.2

theorem streams_moves (w : World) (a : Action) (h : w.streams i c a = true) :
    w.movesOnly i a = true := by
  simp only [streams, Bool.and_eq_true] at h
  exact h.1.2

theorem streams_applies (w : World) (o : Owner) (call : Call) (spurious : Bool)
    (good : w.streams i c (.task i (.lock spurious)) = true) (owner : w.owners[i]? = some o)
    (pc : o.pc = .registered call) (word : o.lockWord < 0)
    (_ : ∃ op status, o.header.value.raw.internal = .final op status) :
    o.header.value.raw.Applies call := by
  intro n reported
  simp only [streams, Bool.and_eq_true, ownerAt_task owner] at good
  have applies := good.2
  simp only [Owner.applies, pc, reported, Bool.or_eq_true, decide_eq_true_eq,
    Bool.and_eq_true] at applies
  obtain ⟨fits, bound⟩ := applies.resolve_left (by omega)
  exact ⟨fun read => fits.resolve_left (by simp [read]), bound⟩

end Streams

end World

/-- The mailbox of a header that is open after its calls have returned is empty. -/
theorem Link.Tracks.settled {c : Code} {m : State Op Internal} {o : Owner} {T : Multiset Token}
    (tracks : Link.Tracks c m ⟨o, T⟩) (pc : o.pc = .out) (word : o.lockWord = 0) :
    m.slot = .empty := by
  have outside : o.pc.outside = true := by
    rw [pc]
    rfl
  have pos := c.word_pos
  rcases tracks.word outside with ⟨-, empty⟩ | ⟨locked, -⟩ | ⟨ready, -⟩
  · exact empty
  · omega
  · omega

/-- What happened at a header used for one transfer after the other: each began where
those before it ended, and so does the one under way. -/
structure Positions (c : Code) (es : List (Event Op Internal)) : Prop where
  contiguous : Contiguous (extents es)
  submitted : ∀ x, submissions es = (finishes es).map Prod.fst ++ [x] →
    x.offset = (contents (extents es)).length
  ended : ∀ finish ∈ finishes es, ∃ status, finish.2 = .final finish.1 status ∧
    finish.1.Whole c status

section Positions

variable {c : Code} {es ds : List (Event Op Internal)} {m : State Op Internal}

/-- Neither a submission nor an end of an operation. -/
theorem Positions.other (positions : Positions c es) (finished : finishes ds = [])
    (submitted : submissions ds = []) : Positions c (es ++ ds) := by
  have same : extents (es ++ ds) = extents es := by simp [extents, finished]
  have ended : finishes (es ++ ds) = finishes es := by simp [finished]
  have begun : submissions (es ++ ds) = submissions es := by simp [submitted]
  constructor
  · rw [same]
    exact positions.contiguous
  · rw [same, ended, begun]
    exact positions.submitted
  · rw [ended]
    exact positions.ended

/-- A submission at the end of everything that was transferred. -/
theorem Positions.submit (positions : Positions c es) {x : Op}
    (settled : submissions es = (finishes es).map Prod.fst)
    (offset : x.offset = (contents (extents es)).length) : Positions c (es ++ [.submit x]) := by
  have same : extents (es ++ [.submit x]) = extents es := by simp [extents]
  have ended : finishes (es ++ [.submit x]) = finishes es := by simp
  constructor
  · rw [same]
    exact positions.contiguous
  · intro y begun
    rw [ended, submissions_append, settled, submissions_single] at begun
    obtain rfl := List.singleton_inj.mp (List.append_cancel_left begun)
    rw [same]
    exact offset
  · rw [ended]
    exact positions.ended

/-- The operation under way ends. -/
theorem Positions.finish (positions : Positions c es) {x : Op} {status : Final}
    (begun : submissions es = (finishes es).map Prod.fst ++ [x]) (whole : x.Whole c status) :
    Positions c (es ++ [.finish x (.final x status)]) := by
  have ended : finishes (es ++ [.finish x (.final x status)]) =
      finishes es ++ [(x, .final x status)] := by simp
  have last : extents (es ++ [.finish x (.final x status)]) =
      extents es ++ [(x.offset, x.moved status)] := by
    rw [extents_append]
    rfl
  constructor
  · rw [last]
    exact positions.contiguous.snoc (positions.submitted x begun)
  · intro y again
    rw [ended, submissions_append, begun, submissions_single] at again
    simpa using congrArg List.length again
  · rw [ended]
    intro finish member
    rcases List.mem_append.mp member with old | new
    · exact positions.ended finish old
    · obtain rfl := List.mem_singleton.mp new
      exact ⟨status, rfl, whole⟩

/-- The bytes transferred are those that were reported. -/
theorem Positions.lengths (positions : Positions c es) (moves : c = .read ∨ c = .write) :
    (contents (extents es)).length = ((finishes es).map fun f => f.2.amount).sum := by
  have each : ∀ f ∈ finishes es, f.2.moved.length = f.2.amount := by
    intro f member
    obtain ⟨status, same, whole⟩ := positions.ended f member
    rw [same]
    exact Op.moved_length whole moves
  rw [contents, extents, List.flatMap_map, List.length_flatMap]
  exact congrArg List.sum (List.map_congr_left each)

/-- The bytes collected are those transferred when every result was collected. -/
theorem Positions.settled (positions : Positions c es) (moves : c = .read ∨ c = .write)
    (all : (finishes es).map Prod.snd = collections es) :
    (contents (extents es)).length = collected es := by
  rw [positions.lengths moves, collected, ← all, List.map_map]
  rfl

end Positions

/-- A reclaimed buffer has the length that was asked for. -/
theorem BufferPool.release_length {p : BufferPool} {n : Nat} {filled : List (Option UInt8)}
    (h : (p.release n).2 = some filled) : filled.length = n := by
  simp only [release] at h
  split at h
  · split at h
    · cases h
    · obtain ⟨large, same⟩ := Option.ite_none_right_eq_some.mp h
      cases same
      rw [List.length_take]
      exact Nat.min_eq_left large
  · cases h

/-- A call that moves the cursor moves it by what was read, when nothing panics. -/
theorem Call.collect_applies {call : Call} (moves : call.moves = true) {n : Nat}
    {duplicate : Option Nat} {pool : BufferPool} {sockets : SocketPool}
    (fits : call.code = .read → n ≤ call.room)
    (released : call.code = .read → (pool.release n).2.isSome) :
    ∃ value, (call.collect n duplicate pool sockets).2.2 = .output value (.advance n) := by
  have read {room : Nat} (fits : n ≤ room) (released : (pool.release n).2.isSome) :
      ∃ value, (collectRead room n pool).2 = .output value (.advance n) := by
    obtain ⟨filled, some⟩ := Option.isSome_iff_exists.mp released
    have length := BufferPool.release_length some
    simp only [collectRead]
    split
    case h_1 q h => simp [h] at some
    case h_2 q cells h =>
        rw [h, Option.some.injEq] at some
        subst some
        exact ⟨_, by rw [if_pos (length ▸ fits), length]⟩
  cases call with
  | pollRead room => exact read (fits rfl) (released rfl)
  | read room => exact read (fits rfl) (released rfl)
  | pollWrite buf => exact ⟨_, rfl⟩
  | _ => cases moves

namespace Owner

variable {i : Nat} {o o' : Owner} {pending : Int} {a : TaskAct} {e : Effect}

/-- A guard that collects moves the cursor by what was reported. -/
theorem applied_collect {call : Call} {duplicate : Option Nat} (pc : o.pc = .guarded call .pending)
    (collect : o.collect duplicate = some (o', e)) (moves : call.moves = true)
    (applies : o.header.value.raw.Applies call)
    (released : ∀ n, o.header.value.raw.handleResult = .ok n → call.code = .read →
      (o.pool.release n).2.isSome) :
    o.header.value.raw.cursor + o.unapplied = o'.header.value.raw.cursor + o'.unapplied := by
  have before : o.unapplied = o.header.value.raw.internal.amount := by simp [unapplied, waiting, pc]
  obtain ⟨-, call', pc', collects⟩ := collect_collects collect
  obtain ⟨rfl, -⟩ := Pc.guarded.inj (pc.symm.trans pc')
  rw [before]
  have output {n : Nat} (found : o.header.value.raw.handleResult = .ok n) :
      ∃ value, (call.collect n duplicate o.pool o.sockets).2.2 = .output value (.advance n) :=
    Call.collect_applies moves (applies n found).1 (released n found)
  cases collects with
  | unfinished failed =>
      rw [Overlapped.handleResult_no_amount failed]
      rfl
  | error found made | panic found made =>
      obtain ⟨value, output⟩ := output found
      rw [made] at output
      cases output
  | overflow found made applied =>
      obtain ⟨value, output⟩ := output found
      rw [made] at output
      cases output
      rw [OverlappedOutcome.applyTo, Overlapped.advance_none] at applied
      have bound := (applies _ found).2
      omega
  | ready found made applied =>
      obtain ⟨value, output⟩ := output found
      rw [made] at output
      cases output
      rw [← Overlapped.handleResult_amount found]
      exact (Overlapped.advance_cursor applied).1.symm

/-- Only a guard that collects moves the cursor. -/
theorem cursor_task (acts : o.Acts i pending a o' e) (other : ∀ duplicate, a ≠ .collect duplicate) :
    o'.header.value.raw.cursor = o.header.value.raw.cursor := by
  cases acts with
  | collect pc => exact absurd rfl (other _)
  | _ => rfl

/-- What the mailbox is told to be collected is about to move the cursor. -/
theorem applied_task (acts : o.Acts i pending a o' e)
    (other : ∀ duplicate, a ≠ .collect duplicate) :
    o.header.value.raw.cursor + o.unapplied + collected (o.mail i pending a) =
      o'.header.value.raw.cursor + o'.unapplied := by
  rw [cursor_task acts other, unapplied, unapplied, ← waiting_task acts other, List.sum_append,
    collected, List.map_eq_flatMap, Nat.add_assoc]

end Owner

namespace World

section Streams

variable {i : Nat} {c : Code} {loops : List Loop} {as : List Action} {w v : World} {o : Owner}
  {a : Action}

/-- The header of a handle and what happened at it so far. -/
structure Placed (i : Nat) (c : Code) (w : World) (es : List (Event Op Internal)) : Prop where
  positions : Positions c es
  absent : w.owners[i]? = none → es = []
  cursor : ∀ o, w.owners[i]? = some o →
    o.header.value.raw.cursor + o.unapplied = collected es

/-- It leaves the cursor alone, too. -/
theorem applied_background {m : State Op Internal} {T : Multiset Token} {L : Link}
    {l : Link.Label} (tracks : Link.Tracks c m ⟨o, T⟩) (step : Link.Step i ⟨o, T⟩ l L)
    (other : ∀ a, l ≠ .task a) :
    L.owner.header.value.raw.cursor + L.owner.unapplied =
      o.header.value.raw.cursor + o.unapplied := by
  have drifts : o.Drifts L.owner := Owner.background_drifts step other
  rw [drifts.cursor, Owner.unapplied, waiting_background tracks step other, Owner.unapplied]

/-- The pools of a handle in any run have what a completed read releases. -/
theorem released_some {call : Call} {n : Nat} (reach : Reached anyStep (start loops) w)
    (owner : w.owners[i]? = some o) (pc : o.pc = .guarded call .pending)
    (found : o.header.value.raw.handleResult = .ok n) (read : call.code = .read) :
    (o.pool.release n).2.isSome := by
  obtain ⟨as, run⟩ := reach
  obtain ⟨indexed, roomed⟩ := run_indexed run owner
  have ready := indexed.reads
  simp only [Owner.Armed, pc] at ready
  obtain ⟨taken, unreleased⟩ := ready read
  have handle : o.kind = .handle :=
    (indexed.kind call (by simp [pc, Pc.call])).symm.trans
      (call.handle_of_code (by rw [read]; decide))
  have holds : o.pool.Holds n := by
    rcases run_requested run owner found with rfl | ⟨x, submitted, short⟩
    · exact roomed.holds
    · exact (roomed.submitted handle x submitted).anti short
  exact holds.release taken unreleased

/-- What a step of the owner is for the mailbox, besides visits, knocks and collections. -/
theorem submissions_mail {o' : Owner} {pending : Int} {act : TaskAct} {e : Effect}
    (acts : o.Acts i pending act o' e) :
    finishes (o.mail i pending act) = [] ∧
      submissions (o.mail i pending act) = e.submit.toList := by
  cases acts with
  | @submit call request answer pc accepted => simp [Owner.mail, pc, accepted]
  | @refuseSubmit call request answer _ pc refused => simp [Owner.mail, pc, refused]
  | @storeOpen call n pc =>
      by_cases own : call.code.word = -n <;>
        simp [Owner.mail, pc, Header.headerLockStore, own]
  | permit pc kind granted => simp [Owner.mail, granted]
  | refusePermit pc kind refused => simp [Owner.mail, not_le_of_gt refused]
  | _ => simp [Owner.mail]

/-- A step of the owner. -/
theorem Placed.task {o' : Owner} {act : TaskAct} {e : Effect} {es : List (Event Op Internal)}
    {m : State Op Internal} {T : Multiset Token} (code : c = .read ∨ c = .write)
    (reach : Reached anyStep (start loops) w) (placed : w.Placed i c es)
    (tracks : Link.Tracks c m ⟨o, T⟩) (accounts : Accounts m es)
    (resumed : Link.Resumed Overlapped.Applies ⟨o, T⟩)
    (moves : ∀ call, o.pc.call = some call → call.moves = true)
    (owner : w.owners[i]? = some o) (hact : o.act i w.pending act = some (o', e)) :
    Positions c (es ++ o.mail i w.pending act) ∧
      o'.header.value.raw.cursor + o'.unapplied = collected (es ++ o.mail i w.pending act) := by
  have acts := Owner.act_acts hact
  have cursor := placed.cursor o owner
  obtain ⟨finished, submitted⟩ := submissions_mail acts
  constructor
  · cases submit : e.submit with
    | none =>
        rw [submit] at submitted
        exact placed.positions.other finished submitted
    | some op =>
        cases acts with
        | @submit call request answer pc accepted =>
            have mail : o.mail i w.pending (.submit answer) =
                [.submit (o.submission i call request)] := by simp [Owner.mail, pc, accepted]
            obtain ⟨empty, -⟩ := tracks.inside (by simp [pc, Pc.outside]) (by simp [pc])
            have holds := accounts.2
            rw [empty] at holds
            rw [mail]
            refine placed.positions.submit holds.2 ?_
            rw [placed.positions.settled code holds.1, ← cursor]
            simp [Owner.submission, Owner.unapplied, Owner.waiting, pc]
        | _ => cases submit
  · rw [collected_append, ← cursor]
    by_cases collect : ∃ duplicate, act = .collect duplicate
    · obtain ⟨duplicate, rfl⟩ := collect
      obtain ⟨-, call, pc, -⟩ := Owner.collect_collects hact
      exact (Owner.applied_collect pc hact (moves call (by simp [pc, Pc.call]))
        (resumed.guarded call pc)
        fun n found read => released_some reach owner pc found read).symm
    · exact (Owner.applied_task acts fun duplicate same => collect ⟨duplicate, same⟩).symm

/-- An owner that is a handle is one whoever looks. -/
theorem handle_at (owner : w.owners[i]? = some o) (handle : o.kind = .handle) :
    ∀ p, w.owners[i]? = some p → p.kind = .handle := by
  intro p present
  rw [owner, Option.some.injEq] at present
  exact present ▸ handle

/-- The calls of a handle that is used for transfers move its cursor. -/
theorem streams_calls (run : Run next (fun w a => w.streams i c a) (start loops) as w)
    (owner : w.owners[i]? = some o) (handle : o.kind = .handle) {call : Call}
    (about : o.pc.call = some call) : call.moves = true :=
  (run_counts (run.weaken streams_moves) owner handle).calls call about

/-- Every step keeps the transfers one after the other. -/
theorem Placed.step (code : c = .read ∨ c = .write)
    (run : Run next (fun w a => w.streams i c a) (start loops) as w)
    (placed : w.Placed i c (observe next (mail i) (start loops) as))
    (handle : ∀ o, w.owners[i]? = some o → o.kind = .handle) (good : w.streams i c a = true)
    (h : w.next a = some v) :
    v.Placed i c (observe next (mail i) (start loops) as ++ w.mail i a) := by
  obtain ⟨m, mailbox, valid, -, tracks⟩ := run_mailbox streams_steady streams_oneCode run
  have accounts := run_accounts mailbox
  have stepped := next_stepped h
  generalize observe next (mail i) (start loops) as = es at placed accounts
  cases owner : w.owners[i]? with
  | none =>
      obtain rfl := placed.absent owner
      rw [mail_fresh valid owner, List.append_nil]
      refine ⟨placed.positions, fun _ => rfl, ?_⟩
      intro o' owner'
      cases stepped_moves valid stepped owner' with
      | created _ _ own =>
          simp [own, Owner.new, Arc.new, Header.new, Overlapped.zeroed, Overlapped.cursor,
            Owner.unapplied, Owner.waiting, collected]
      | still before | moved before => simp [owner] at before
  | some o =>
      obtain ⟨o', owner', happens⟩ := stepped_happens valid stepped owner
      have tracks := tracks o owner
      rw [Owner.codeOf, handle o owner] at tracks
      suffices after : Positions c (es ++ w.mail i a) ∧
          o'.header.value.raw.cursor + o'.unapplied = collected (es ++ w.mail i a) by
        refine ⟨after.1, by simp [owner'], ?_⟩
        intro p present
        rw [owner', Option.some.injEq] at present
        exact present ▸ after.2
      have cursor := placed.cursor o owner
      -- a step of another party that neither submits nor ends anything
      have quiet (mail : submissions (w.mail i a) = [] ∧ finishes (w.mail i a) = [] ∧
          collections (w.mail i a) = [])
          (same : o'.header.value.raw.cursor + o'.unapplied =
            o.header.value.raw.cursor + o.unapplied) : Positions c (es ++ w.mail i a) ∧
              o'.header.value.raw.cursor + o'.unapplied = collected (es ++ w.mail i a) := by
        refine ⟨placed.positions.other mail.2.1 mail.1, ?_⟩
        rw [same, cursor, collected_append, collected, collected, mail.2.2]
        rfl
      generalize v.tokensOf i = T' at happens
      cases happens with
      | @task act _ e acts =>
          obtain ⟨p, e', hact, rfl⟩ := step_act owner (next_eq_some.mp h).1
          rw [afterTask_owner owner, Option.some.injEq] at owner'
          subst owner'
          rw [mail_task owner]
          exact placed.task code ⟨as, run.anyStep⟩ tracks accounts
            (reached_resumed streams_steady streams_oneCode streams_applies ⟨as, run⟩ owner)
            (fun call => streams_calls run owner (handle o owner)) owner hact
      | complete flight own admits tokens =>
          have typed := reached_typed streams_oneCode ⟨as, run⟩ owner
          rw [Owner.codeOf, handle o owner] at typed
          rw [tokens] at typed tracks
          obtain ⟨-, -, -, ⟨-, slot⟩ | ⟨away, -⟩⟩ := tracks.underWay rfl
          · have holds := accounts.2
            rw [slot] at holds
            rw [mail_complete flight own]
            constructor
            · have clean := failsClean_ended (streams_clean w (.complete _ _) good) flight own
              exact placed.positions.finish holds.2
                ⟨typed.flying _ (Multiset.mem_cons_self _ _) rfl, admits, clean⟩
            · rw [applied_background tracks (.complete (i := i) admits) (by simp), cursor]
              simp [collected]
          · exact absurd rfl away
      | exchange thread own tokens =>
          refine quiet ?_ (applied_background (tokens ▸ tracks) (.exchange (i := i)) (by simp))
          rw [mail_exchange thread own owner]
          split <;> simp
      | quiet silent step =>
          refine quiet ?_ (applied_background tracks step (by simp))
          simp [mail_silent silent]
      | still silent => exact quiet (by simp [mail_silent silent]) rfl

/-- The transfers of a handle used under one code, in every run. -/
theorem run_placed (code : c = .read ∨ c = .write)
    (run : Run next (fun w a => w.streams i c a) (start loops) as w)
    (handle : ∀ o, w.owners[i]? = some o → o.kind = .handle) :
    w.Placed i c (observe next (mail i) (start loops) as) := by
  have handles := run.backward (P := fun w => ∀ o, w.owners[i]? = some o → o.kind = .handle)
    handle fun w a v reach h last => handle_before (reached_valid reach) h last
  induction handles with
  | nil =>
      refine ⟨⟨.nil, by simp [observe], by simp [observe]⟩, fun _ => rfl, by simp [start]⟩
  | @snoc as s a t before good h ih =>
      have run := before.weaken fun _ _ h => h.1
      rw [before.observe_snoc]
      exact (ih run good.2).step code run good.2 good.1 h

/-- What was collected was taken, or is about to be. -/
theorem streams_taken {E : Type*} {see : Internal → List E}
    (run : Run next (fun w a => w.streams i c a) (start loops) as w) :
    (collections (observe next (mail i) (start loops) as)).flatMap see =
      observe next (takes see i) (start loops) as ++ w.waitingAt see i :=
  run_taken streams_steady streams_oneCode run

end Streams

end World

end Iocp
