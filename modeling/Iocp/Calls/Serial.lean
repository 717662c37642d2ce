import Iocp.Link.Delivery

/-!
# A handle serves one call at a time

What a caller sees of a handle that is used under one code is a serial machine:
a call asks for an operation, the operating system reports its end, directly or
with a packet, a call collects it and the result is answered. The lock word,
the reference counts, the queue and the polls that find the header busy are gone.

## Implementation notes

The machine calls `prepare` and `collect` of the operations, with a pool of
sockets that no call of a handle looks at.
-/

namespace Iocp

open Totals Transition Mailbox

/-- `OverlappedOutcome::apply_to` on the cursor; `none` when it panics. -/
def OverlappedOutcome.move (cursor : Nat) : OverlappedOutcome → Option Nat
  | .none => some cursor
  | .advance n => if cursor + n < 2 ^ 64 then some (cursor + n) else Option.none

theorem OverlappedOutcome.applyTo_move (outcome : OverlappedOutcome) (r : Overlapped) :
    (outcome.applyTo r).map Overlapped.cursor = outcome.move r.cursor := by
  cases outcome with
  | none => rfl
  | advance n =>
      simp only [applyTo, move]
      by_cases small : r.cursor + n < 2 ^ 64
      · rw [if_pos small, Overlapped.advance, if_pos small, Option.map_some]
        exact congrArg some (Overlapped.cursor_words small _)
      · rw [if_neg small, Overlapped.advance, if_neg small, Option.map_none]

/-- How far a handle is with the call that it serves. -/
inductive Serving
  | free
  /-- The request was prepared and has not ended. -/
  | asked (request : Request)
  /-- The operation has ended with a packet and was not collected. -/
  | ended (status : Final)
  /-- The poll is about to return. -/
  | done (result : PollResult)
  deriving DecidableEq

/-- A handle as a serial machine. -/
structure Serial where
  cursor : Nat
  pool : BufferPool
  serving : Serving
  deriving DecidableEq

/-- What is seen of a handle. -/
inductive SerialAct
  /-- A poll that holds the guard prepares its operation; the allocator grants
  `extra` more bytes. -/
  | ask (call : Call) (extra : Nat)
  /-- The operation ends, by the answer of the system call when `direct` is set. -/
  | report (status : Final) (direct : Bool)
  /-- A poll that holds the guard collects. -/
  | collect (call : Call)
  /-- A poll returns. -/
  | answer (result : PollResult)
  /-- A poll returns because it gets no permit. -/
  | refuse
  deriving DecidableEq

namespace Serial

/-- `LockGuard::prepare` and `prepare` of the operation. -/
def ask (s : Serial) (call : Call) (extra : Nat) : Serial :=
  let next := call.prepare extra (.error 0) s.pool.clear .new
  { s with
    pool := next.1
    serving := match next.2.2 with
      | .request request => .asked request
      | .error code => .done (.failed (.os code))
      | .panic => .done .panicked }

/-- The end of an operation with a packet. -/
def finish (s : Serial) (request : Request) (status : Final) : Serial :=
  { s with
    pool := match request.slot with
      | some slot => s.pool.fill slot status.data
      | none => s.pool
    serving := .ended status }

/-- `handle_result`, `collect` of the operation and its outcome. -/
def collect (s : Serial) (call : Call) (status : Final) : Serial :=
  match status.result with
  | .error e => { s with serving := .done (.failed e) }
  | .ok transferred =>
      let next := call.collect transferred none s.pool .new
      match next.2.2 with
      | .error e => { s with pool := next.1, serving := .done (.failed e) }
      | .panic => { s with pool := next.1, serving := .done .panicked }
      | .output value outcome =>
          match outcome.move s.cursor with
          | none => { s with pool := next.1, serving := .done .panicked }
          | some cursor => { cursor := cursor, pool := next.1, serving := .done (.ready value) }

/-- The answer of a call leaves a free machine with a cleared pool. -/
def rest (s : Serial) : Serial := { s with pool := s.pool.clear, serving := .free }

/-- One step of the machine. -/
def step (s : Serial) : SerialAct → Option Serial
  | .ask call extra =>
      match s.serving with
      | .free => some (s.ask call extra)
      | _ => none
  | .report status direct =>
      match s.serving, status, direct with
      | .asked _, .failure code _ _, true => some { s with serving := .done (.failed (.os code)) }
      | .asked request, status, false =>
          if request.admits status then some (s.finish request status) else none
      | _, _, _ => none
  | .collect call =>
      match s.serving with
      | .ended status => some (s.collect call status)
      | _ => none
  | .answer result =>
      if s.serving = .done result then some s.rest else none
  | .refuse => some s

variable {s t : Serial} {call : Call}

theorem ask_eq_some {extra : Nat} :
    s.step (.ask call extra) = some t ↔ s.serving = .free ∧ s.ask call extra = t := by
  simp only [step]
  cases s.serving <;> simp

theorem report_direct {status : Final} :
    s.step (.report status true) = some t ↔ ∃ request code transferred data,
      s.serving = .asked request ∧ status = .failure code transferred data ∧
      { s with serving := .done (.failed (.os code)) } = t := by
  simp only [step]
  cases s.serving <;> cases status <;> simp

theorem report_packet {status : Final} :
    s.step (.report status false) = some t ↔
      ∃ request, s.serving = .asked request ∧ request.admits status = true ∧
        s.finish request status = t := by
  simp only [step]
  cases s.serving <;> cases status <;> simp

theorem collect_eq_some :
    s.step (.collect call) = some t ↔
      ∃ status, s.serving = .ended status ∧ s.collect call status = t := by
  simp only [step]
  cases s.serving <;> simp

theorem answer_eq_some {result : PollResult} :
    s.step (.answer result) = some t ↔ s.serving = .done result ∧ s.rest = t := by
  simp [step]

end Serial

/-- The bytes that a transfer takes from the buffer of a write. -/
def Request.written (transferred : Nat) : Request → List UInt8
  | writeFile _ bytes => bytes.take transferred
  | _ => []

namespace Serial

/-- The bytes of writes that end with a packet. -/
def written (s : Serial) : SerialAct → List UInt8
  | .report status false =>
      match s.serving with
      | .asked request => request.written status.transferred
      | _ => []
  | _ => []

end Serial

namespace Owner

/-- What is seen of a step of a handle. -/
def serve (o : Owner) : TaskAct → List SerialAct
  | .undoPermit => [.refuse]
  | .prepare extra _ =>
      match o.pc with
      | .guarded call .idle => [.ask call extra]
      | _ => []
  | .submit (some code) =>
      if code = Win32.errorIoPending then [] else [.report (.failure code 0 []) true]
  | .collect _ =>
      match o.pc with
      | .guarded call .pending => [.collect call]
      | _ => []
  | .dropPermit =>
      match o.pc with
      | .dropPermit result => if result = .pending then [] else [.answer result]
      | _ => []
  | _ => []

/-- The machine of a handle at rest. -/
def serial (o : Owner) : Serial := ⟨o.header.value.raw.cursor, o.pool, .free⟩

end Owner

namespace World

/-- What is seen of handle `i` in a step of the system. -/
def serve (i : Nat) (w : World) : Action → List SerialAct
  | .task j act => if j = i then (w.owners[j]?.map (·.serve act)).getD [] else []
  | .complete k status =>
      match w.inFlight[k]? with
      | some op => if op.owner = i then [.report status false] else []
      | none => []
  | _ => []

/-- The bytes that the operating system takes from the writes of handle `i`. -/
def written (i : Nat) (w : World) : Action → List UInt8
  | .complete k status =>
      match w.inFlight[k]? with
      | some op => if op.owner = i then op.request.written status.transferred else []
      | none => []
  | _ => []

end World

namespace Link

/-- No operation of the header is in flight. -/
def Landed (L : Link) : Prop := ∀ t ∈ L.tokens, t.stage ≠ .inFlight

/-- No poll is about to return a result. -/
def Unanswered (L : Link) : Prop :=
  ∀ result, L.owner.pc = .dropPermit result → result = .pending

/-- How far a handle is, by its program point, its word and its tokens. -/
inductive At (L : Link) (pool : BufferPool) : Serving → Prop
  | out (landed : L.Landed) (outside : L.owner.pc.outside = true) (word : L.owner.lockWord = 0)
      (kept : L.owner.pool = pool) (waits : L.Unanswered) : At L pool .free
  | idle {call} (landed : L.Landed) (pc : L.owner.pc = .guarded call .idle)
      (kept : L.owner.pool = pool) : At L pool .free
  | prepared {call request} (landed : L.Landed) (pc : L.owner.pc = .prepared call request)
      (kept : L.owner.pool = pool) : At L pool (.asked request)
  | flying {op} (member : ⟨op, .inFlight⟩ ∈ L.tokens)
      (kept : L.owner.alive = true → L.owner.pool = pool) (waits : L.Unanswered) :
      At L pool (.asked op.request)
  | waiting {op status} (landed : L.Landed) (outside : L.owner.pc.outside = true)
      (word : L.owner.lockWord ≠ 0) (final : L.owner.header.value.raw.internal = .final op status)
      (kept : L.owner.alive = true → L.owner.pool = pool) (waits : L.Unanswered) :
      At L pool (.ended status)
  | storing {op status call n} (landed : L.Landed) (pc : L.owner.pc = .storing call n)
      (final : L.owner.header.value.raw.internal = .final op status)
      (kept : L.owner.pool = pool) : At L pool (.ended status)
  | found {op status call} (landed : L.Landed) (pc : L.owner.pc = .guarded call .pending)
      (final : L.owner.header.value.raw.internal = .final op status)
      (kept : L.owner.pool = pool) : At L pool (.ended status)
  | failing {result} (landed : L.Landed) (pc : L.owner.pc = .dropOverlapped result)
      (notPending : result ≠ .pending) (kept : L.owner.pool = pool) : At L pool (.done result)
  | finished {result} (landed : L.Landed) (pc : L.owner.pc = .dropGuard result)
      (notPending : result ≠ .pending) (kept : L.owner.pool = pool) : At L pool (.done result)
  | returning {result} (landed : L.Landed) (pc : L.owner.pc = .dropPermit result)
      (notPending : result ≠ .pending) (word : L.owner.lockWord = 0)
      (kept : L.owner.pool = pool.clear) : At L pool (.done result)

/-- A handle serves as the machine does. -/
structure Serves (L : Link) (s : Serial) : Prop where
  cursor : L.owner.header.value.raw.cursor = s.cursor
  stands : L.At s.pool s.serving

end Link

end Iocp
