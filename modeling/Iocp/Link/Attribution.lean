import Iocp.Link.Resumption

/-!
# Whose bytes a write reports

A poll that finds a completed write reports its result, whatever buffer the
poll brought itself. The lock word only tells operations of different codes
apart, so the count belongs to the caller's buffer when that buffer begins
with the bytes of the submission.
-/

namespace Iocp

open Totals Transition Mailbox

/-- The bytes handed to the system call. -/
def Request.bytes : Request → List UInt8
  | writeFile _ bytes => bytes
  | deviceIoControl _ _ bytes => bytes
  | _ => []

/-- The bytes a write wants to be written. -/
def Call.bytes : Call → List UInt8
  | pollWrite buf => buf
  | write buf => buf
  | _ => []

/-- The status is that of an operation whose bytes the buffer of the call begins with. -/
def Overlapped.Begins (raw : Overlapped) (call : Call) : Prop :=
  ∃ op status, raw.internal = .final op status ∧ op.request.bytes <+: call.bytes

/-- A completed write found by `header_lock` has bytes that the buffer of the
call begins with. -/
def Owner.resumes (o : Owner) : TaskAct → Bool
  | .lock _ =>
      match o.pc, o.header.value.raw.internal with
      | .registered call, .final op _ => 0 ≤ o.lockWord || op.request.bytes.isPrefixOf call.bytes
      | _, _ => true
  | _ => true

namespace World

/-- The steps under which the results of writes are attributed to their own calls. -/
def resumesWrites (i : Nat) (w : World) (a : Action) : Bool :=
  w.oneCode i .write a && w.steady i a && w.ownerAt i Owner.resumes a

section Writes

variable {loops : List Loop} {w : World} {i : Nat}

theorem resumesWrites_oneCode (w : World) (a : Action) (h : w.resumesWrites i a = true) :
    w.oneCode i .write a = true := by
  simp only [resumesWrites, Bool.and_eq_true] at h
  exact h.1.1

theorem resumesWrites_steady (w : World) (a : Action) (h : w.resumesWrites i a = true) :
    w.steady i a = true := by
  simp only [resumesWrites, Bool.and_eq_true] at h
  exact h.1.2

/-- A write is resumed with a buffer that begins with its bytes. -/
theorem resumesWrites_begins (w : World) (o : Owner) (call : Call) (spurious : Bool)
    (good : w.resumesWrites i (.task i (.lock spurious)) = true) (owner : w.owners[i]? = some o)
    (pc : o.pc = .registered call) (word : o.lockWord < 0)
    (completed : ∃ op status, o.header.value.raw.internal = .final op status) :
    o.header.value.raw.Begins call := by
  obtain ⟨op, status, final⟩ := completed
  simp only [resumesWrites, Bool.and_eq_true, ownerAt_task owner] at good
  have begins := good.2
  simp only [Owner.resumes, pc, final, Bool.or_eq_true, decide_eq_true_eq,
    List.isPrefixOf_iff_prefix] at begins
  exact ⟨op, status, final, begins.resolve_left (by omega)⟩

end Writes

/-- What a write returns to its caller is about the caller's own bytes: the
submission whose result it reports carried the beginning of the buffer. -/
def Attributed (i : Nat) (w : World) : Prop :=
  ∀ o call duplicate o' e n, w.owners[i]? = some o → o.kind = .handle →
    o.pc = .guarded call .pending → o.collect duplicate = some (o', e) →
    o'.pc = .dropGuard (.ready (.count n)) →
    n ≤ call.bytes.length ∧ ∃ op status slot bytes,
      o.header.value.raw.internal = .final op status ∧ op.request = .writeFile slot bytes ∧
        bytes.take n = call.bytes.take n

/-- A poll that returns a count returns the one it read. -/
theorem collect_count {o o' : Owner} {call : Call} {duplicate : Option Nat} {e : Effect} {n : Nat}
    (pc : o.pc = .guarded call .pending) (write : call.code = .write)
    (collect : o.collect duplicate = some (o', e))
    (result : o'.pc = .dropGuard (.ready (.count n))) :
    o.header.value.raw.handleResult = .ok n := by
  obtain ⟨-, call', pc', collects⟩ := Owner.collect_collects collect
  obtain ⟨rfl, -⟩ := Pc.guarded.inj (pc.symm.trans pc')
  cases collects with
  | @ready transferred pool sockets value outcome raw found made applied =>
      cases result
      cases call with
      | pollWrite buf | write buf =>
          cases made
          exact found
      | _ =>
          simp only [Call.code] at write
          exact absurd write (by decide)
  | _ => cases result

/-- Every count a write returns is about the caller's own bytes, in runs whose
polls resume completed writes with a buffer that begins with the bytes written. -/
theorem write_attribution {i : Nat} {loops : List Loop} {w : World}
    (reach : Reached (fun w a => w.resumesWrites i a) (start loops) w) : w.Attributed i := by
  intro o call duplicate o' e n owner kind pc collect result
  have typed := reached_typed resumesWrites_oneCode reach owner
  rw [Owner.codeOf, kind] at typed
  obtain ⟨op, status, final, begins⟩ := (reached_resumed resumesWrites_steady
    resumesWrites_oneCode resumesWrites_begins reach owner).guarded call pc
  obtain ⟨write, admits⟩ := typed.final op status final
  have reported := collect_count pc (typed.call call (by simp [pc, Pc.call])) collect result
  have bound := Overlapped.handleResult_le final admits reported
  obtain ⟨slot, bytes, request⟩ := Request.code_write write
  rw [request, Request.len] at bound
  rw [request, Request.bytes] at begins
  refine ⟨bound.trans begins.length_le, op, status, slot, bytes, final, request, ?_⟩
  rw [List.prefix_iff_eq_take.mp begins, List.take_take, Nat.min_eq_left bound]

/-- A write of three bytes whose future was dropped, collected by a second write of them. -/
def resumedWrite (again : List UInt8) : List Action :=
  [Schedule.handle] ++ Schedule.submitted 0 (.write [1, 2, 3]) 1 ++
    [.complete 0 (.success 3 [])] ++ Schedule.drive 0 true ++
    Schedule.enter 0 (.write again) 1 ++ [.task 0 .storeOpen]

theorem write_attribution_resumed :
    ∃ w o, Reached (fun w a => w.resumesWrites 0 a) setup w ∧ w.owners[0]? = some o ∧
      o.pc = .guarded (.write [1, 2, 3, 4]) .pending ∧ w.Attributed 0 := by
  obtain ⟨w, o, reach, owner, pc⟩ :=
    exec_owner (fun w a => w.resumesWrites 0 a) setup (resumedWrite [1, 2, 3, 4]) 0
      (fun _ o => o.pc) (.guarded (.write [1, 2, 3, 4]) .pending) (by decide)
  exact ⟨w, o, reach, owner, pc, write_attribution reach⟩

/-- A write of one byte reports three, those of a write whose future was dropped. -/
theorem foreign_write_reported :
    ¬ ∀ w, Reached (fun w a => a.exact ∧ w.oneCode 0 .write a) setup w → w.Attributed 0 := by
  intro always
  obtain ⟨w, o, reach, owner, state⟩ :=
    exec_owner (fun w a => a.exact ∧ w.oneCode 0 .write a) setup (resumedWrite [9]) 0
      (fun _ o => (o.kind, o.pc, (o.collect none).map fun next => next.1.pc))
      (.handle, .guarded (.write [9]) .pending, some (.dropGuard (.ready (.count 3)))) (by decide)
  simp only [Prod.mk.injEq] at state
  obtain ⟨kind, pc, collected⟩ := state
  obtain ⟨⟨o', e⟩, collect, result⟩ := Option.map_eq_some_iff.mp collected
  have bound := (always w reach o _ none o' e 3 owner kind pc collect result).1
  exact absurd bound (by decide)

end World

end Iocp
