import Iocp.Link.Files

/-!
# Reading a file to its end

A read of no bytes tells its caller that the file has ended. When the operating system
answers so only at the end of the file, the callers of a handle that were told so have
got all of it, and the callers of its duplicates have got the same.
-/

namespace Iocp

open Extents Mailbox Totals Transition

/-- What a guard takes for the end: nothing was transferred, or the end of the file or of
a pipe was met. -/
def Final.ends : Final → Bool
  | .success transferred _ => transferred = 0
  | .failure code _ _ => code = Win32.errorHandleEof || code = Win32.errorBrokenPipe

theorem Overlapped.handleResult_zero {r : Overlapped} {op : Op} {status : Final}
    (final : r.internal = .final op status) (found : r.handleResult = .ok 0) :
    status.ends = true := by
  simp only [handleResult, getOverlappedResult, final] at found
  cases status with
  | success transferred data => simpa [Final.ends] using found
  | failure code transferred data =>
      simp only at found
      split at found
      case isTrue eof => simp [Final.ends, eof]
      case isFalse =>
          split at found
          case isTrue broken => simp [Final.ends, broken]
          case isFalse => cases found

namespace BufferPool

theorem take_max (p : BufferPool) (size extra : Nat) :
    (p.take size extra).1.maxBufferSize = p.maxBufferSize := by
  simp only [take]
  split <;> rfl

theorem takeAndPut_max (p : BufferPool) (bytes : List UInt8) (extra : Nat) :
    (p.takeAndPut bytes extra).1.maxBufferSize = p.maxBufferSize := by
  have taken := p.take_max bytes.length extra
  simp only [takeAndPut]
  split
  case h_1 q h => exact (h ▸ taken :)
  case h_2 q b h =>
      rw [h] at taken
      split
      · exact taken
      · exact taken

end BufferPool

/-- A read that brings room into a pool with room asks for a byte at least. -/
theorem Call.prepare_asks {call : Call} {extra : Nat} {newSocket : Except Nat Nat}
    {pool pool' : BufferPool} {sockets sockets' : SocketPool} {request : Request}
    (room : 0 < call.room) (max : 0 < pool.maxBufferSize)
    (made : call.prepare extra newSocket pool sockets = (pool', sockets', .request request)) :
    0 < request.len := by
  have read (len : Nat) (room : 0 < len)
      (made : (prepareRead len extra pool).2 = .request request) : 0 < request.len := by
    simp only [prepareRead] at made
    split at made
    case h_1 => cases made
    case h_2 q b taken =>
        obtain ⟨rfl, -⟩ := BufferPool.take_some taken
        cases made
        simp only [Request.len, Win32.dwordMax]
        omega
  cases call with
  | pollRead len | read len =>
      simp only [prepare, Prod.mk.injEq] at made
      exact read len room made.2.2
  | _ => simp [Call.room] at room

/-- A read that hands out no bytes collected none. -/
theorem Call.collect_nothing {call : Call} {n : Nat} {duplicate : Option Nat} {pool : BufferPool}
    {sockets : SocketPool} {outcome : OverlappedOutcome}
    (made : (call.collect n duplicate pool sockets).2.2 = .output (.bytes []) outcome) : n = 0 := by
  have read (room : Nat) (made : (collectRead room n pool).2 = .output (.bytes []) outcome) :
      n = 0 := by
    simp only [collectRead] at made
    split at made
    case h_1 => cases made
    case h_2 q filled released =>
        split at made
        case isTrue =>
            cases made
            exact (BufferPool.release_length (by rw [released])).symm
        case isFalse => cases made
  cases call with
  | pollRead room | read room => exact read room made
  | accept =>
      simp only [collect, collectAccept] at made
      split at made
      · cases made
      · split at made <;> cases made
  | _ => cases made

namespace Owner

/-- A read brings room. -/
def wantsBytes (o : Owner) : TaskAct → Bool
  | .poll call _ => 0 < call.room && 0 < o.pool.maxBufferSize
  | _ => true

/-- The cursor never moves back. -/
theorem cursor_le {i : Nat} {o o' : Owner} {pending : Int} {a : TaskAct} {e : Effect}
    (h : o.act i pending a = some (o', e)) :
    o.header.value.raw.cursor ≤ o'.header.value.raw.cursor := by
  by_cases collect : ∃ duplicate, a = .collect duplicate
  · obtain ⟨duplicate, rfl⟩ := collect
    obtain ⟨-, call, -, collects⟩ := collect_collects h
    cases collects with
    | @ready _ _ _ _ outcome _ found made applied =>
        cases outcome with
        | none => exact le_of_eq (congrArg Overlapped.cursor (Option.some.inj applied))
        | advance n =>
            have moved := (Overlapped.advance_cursor applied).1
            exact (Nat.le_add_right _ n).trans (le_of_eq moved.symm)
    | _ => exact le_rfl
  · exact le_of_eq (cursor_task (act_acts h) fun duplicate same => collect ⟨duplicate, same⟩).symm

/-- The calls bring room, and ask for a byte at least. -/
structure Wants (o : Owner) : Prop where
  room : ∀ call, o.pc.call = some call → 0 < call.room ∧ 0 < o.pool.maxBufferSize
  asks : ∀ call request, o.pc = .prepared call request → 0 < request.len

/-- The result that a poll is about to return, or the last one that was returned. -/
def result (o : Owner) : Option PollResult :=
  match o.pc with
  | .dropOverlapped result | .dropGuard result | .dropPermit result => some result
  | _ => o.last

section Wants

variable {i : Nat} {o o' : Owner} {pending : Int} {a : TaskAct} {e : Effect}

theorem Wants.fresh (kind : Kind) (key size : Nat) : (new kind key size).Wants where
  room := by simp [new, Pc.call]
  asks := by simp [new]

theorem Wants.drifts (wants : o.Wants) (drifts : o.Drifts o') : o'.Wants where
  room := by
    have max : o'.pool.maxBufferSize = o.pool.maxBufferSize := by
      rcases drifts.pool with same | ⟨slot, bytes, filled⟩
      · rw [same]
      · rw [filled]
        rfl
    rw [drifts.pc, max]
    exact wants.room
  asks := drifts.pc ▸ wants.asks

/-- Every step of an owner whose polls bring room. -/
theorem Wants.task (wants : o.Wants) (good : o.wantsBytes a = true)
    (acts : o.Acts i pending a o' e) : o'.Wants := by
  cases acts with
  | permit pc kind granted =>
      simp only [wantsBytes, Bool.and_eq_true, decide_eq_true_eq] at good
      exact ⟨fun call about => Option.some.inj about ▸ good, by simp⟩
  | @prepareRequest call extra newSocket pool sockets request pc prepared =>
      obtain ⟨room, max⟩ := wants.room call (by simp [pc, Pc.call])
      have same : o.preparePool.maxBufferSize = o.pool.maxBufferSize := by
        simp only [preparePool]
        split <;> rfl
      have kept := call.prepare_pool (P := fun q => q.maxBufferSize = o.preparePool.maxBufferSize)
        newSocket o.sockets rfl (fun size => o.preparePool.take_max size extra)
        fun bytes => o.preparePool.takeAndPut_max bytes extra
      rw [prepared] at kept
      have kept : pool.maxBufferSize = o.pool.maxBufferSize := kept.trans same
      refine ⟨fun call about => ?_, fun call' request' same' => ?_⟩
      · cases about
        exact ⟨room, lt_of_lt_of_eq max kept.symm⟩
      · obtain ⟨rfl, rfl⟩ := Pc.prepared.inj same'
        exact Call.prepare_asks room (same ▸ max) prepared
  | registerWaker pc | lockOpen pc | lockBusy pc | lockStore pc | storeOpen pc | submit pc =>
      exact ⟨fun call about => wants.room call (by simpa [pc, Pc.call] using about), by simp⟩
  | _ => exact ⟨by simp [Pc.call], by simp⟩

theorem result_collect {value : Output} {duplicate : Option Nat}
    (h : o.collect duplicate = some (o', e)) (result : o'.result = some (.ready value)) :
    ∃ call n outcome, o.pc = .guarded call .pending ∧ o.header.value.raw.handleResult = .ok n ∧
      (call.collect n duplicate o.pool o.sockets).2.2 = .output value outcome := by
  obtain ⟨-, call, pc, collects⟩ := collect_collects h
  cases collects with
  | ready found made applied =>
      cases result
      exact ⟨call, _, _, pc, found, by rw [made]⟩
  | _ => cases result

/-- A result with a value is new only when it was collected. -/
theorem result_task {value : Output} (h : o.act i pending a = some (o', e))
    (result : o'.result = some (.ready value)) :
    o.result = some (.ready value) ∨ ∃ duplicate call n outcome,
      o.pc = .guarded call .pending ∧ o.header.value.raw.handleResult = .ok n ∧
      (call.collect n duplicate o.pool o.sockets).2.2 = .output value outcome := by
  cases act_acts h with
  | collect pc => exact .inr ⟨_, result_collect h result⟩
  | prepareFail pc =>
      obtain ⟨-, call, -, prepares⟩ := prepare_prepares h
      rcases prepares.next with ⟨request, made, -⟩ | ⟨failure, made, failed⟩
      · cases made
      · cases made
        exact absurd (Option.some.inj result) (failed value)
  | undoPermit pc | leaveBusy pc | refuseSubmit pc | forget pc | dropGuardPanic pc =>
      simp [Owner.result] at result
  | permit pc | refusePermit pc | registerWaker pc | lockOpen pc | lockBusy pc | lockStore pc
  | storeOpen pc | prepareRequest pc | submit pc | dropOverlapped pc | dropGuard pc | dropPermit pc
  | drop pc | leaveDrop pc | dropFields pc =>
      exact .inl (by simpa [Owner.result, pc] using result)

end Wants

end Owner

namespace World

/-- The operating system answers that a file has ended only at its end, or to a request for
nothing. -/
def endsFile (i : Nat) (file : List UInt8) (w : World) : Action → Bool
  | .complete k status =>
      match w.inFlight[k]? with
      | some op => op.owner ≠ i || !status.ends || op.request.len = 0 || file.length ≤ op.offset
      | none => true
  | _ => true

/-- The steps under which owner `i` reads a file to its end. -/
def readsToEnd (i : Nat) (file : List UInt8) (w : World) (a : Action) : Bool :=
  w.readsFile i file a && w.endsFile i file a && w.ownerAt i Owner.wantsBytes a

section Ends

variable {i : Nat} {file : List UInt8} {loops : List Loop} {as : List Action} {w v : World}
  {o : Owner} {a : Action}

theorem readsToEnd_reads (w : World) (a : Action) (h : w.readsToEnd i file a = true) :
    w.readsFile i file a = true := by
  simp only [readsToEnd, Bool.and_eq_true] at h
  exact h.1.1

theorem readsToEnd_ends (w : World) (a : Action) (h : w.readsToEnd i file a = true) :
    w.endsFile i file a = true := by
  simp only [readsToEnd, Bool.and_eq_true] at h
  exact h.1.2

theorem readsToEnd_wants (w : World) (a : Action) (h : w.readsToEnd i file a = true) :
    w.ownerAt i Owner.wantsBytes a = true := by
  simp only [readsToEnd, Bool.and_eq_true] at h
  exact h.2

/-- The reads of an owner whose polls bring room ask for a byte at least. -/
theorem run_wants (run : Run next (fun w a => w.ownerAt i Owner.wantsBytes a) (start loops) as w)
    (owner : w.owners[i]? = some o) :
    o.Wants ∧ ∀ op ∈ submissionsOf (observe next (footprints i) (start loops) as),
      0 < op.request.len := by
  refine run_footprints (Q := fun o fs => o.Wants ∧ ∀ op ∈ submissionsOf fs, 0 < op.request.len)
    .refl run (by simp [start])
    (fun _ kind key size => ⟨Owner.Wants.fresh kind key size, by simp [submissionsOf]⟩) ?_
    (fun o o' fs drifts wants => ⟨wants.1.drifts drifts, wants.2⟩) owner
  rintro w o o' act e fs - owner good h ⟨wants, asked⟩
  rw [ownerAt_task owner] at good
  refine ⟨wants.task good (Owner.act_acts h), ?_⟩
  rw [submissionsOf, List.flatMap_append, List.flatMap_singleton]
  intro op member
  rcases List.mem_append.mp member with old | new
  · exact asked op old
  · obtain ⟨call, request, pc, rfl, -⟩ :=
      (Owner.act_acts h).submitted (Option.mem_toList.mp new)
    exact wants.asks call request pc

/-- A guard that finds no bytes stands at the end of the file. -/
theorem guard_end (run : Run next (fun w a => w.readsToEnd i file a) (start loops) as w)
    (handle : ∀ o, w.owners[i]? = some o → o.kind = .handle) (owner : w.owners[i]? = some o)
    {call : Call} (pc : o.pc = .guarded call .pending)
    (found : o.header.value.raw.handleResult = .ok 0) :
    file.length ≤ o.header.value.raw.cursor := by
  have reads := run.weaken readsToEnd_reads
  have stream := reads_stream (reads.weaken readsFile_fits) handle
  obtain ⟨m, mailbox, -, -, tracks⟩ := run_mailbox streams_steady streams_oneCode stream
  obtain ⟨empty, -⟩ := (tracks o owner).inside (by simp [pc, Pc.outside]) (by simp [pc])
  have placed := run_placed (.inl rfl) stream handle
  have cursor := placed.cursor o owner
  have holds := (run_accounts mailbox).2
  rw [empty] at holds
  -- what it reads is what some read of the file ended with
  have taken : (collections (observe next (mail i) (start loops) as)).flatMap (fun r => [r]) =
      _ ++ w.waitingAt (fun r => [r]) i := streams_taken stream
  have last : o.header.value.raw.internal ∈
      (finishes (observe next (mail i) (start loops) as)).map Prod.snd := by
    have waits : o.header.value.raw.internal ∈
        (collections (observe next (mail i) (start loops) as)).flatMap fun r => [r] := by
      rw [taken]
      simp [waitingAt, owner, Owner.waiting, pc]
    rw [holds.1]
    simpa using waits
  obtain ⟨finish, ended, report⟩ := List.mem_map.mp last
  obtain ⟨status, final, ends⟩ := finishes_meet
    (P := fun op status => status.ends = true → op.request.len = 0 ∨ file.length ≤ op.offset)
    (run.weaken readsToEnd_ends) (fun w k op status good flight own ends => by
      simpa [endsFile, flight, own, ends] using good) finish ended
  rw [report] at final
  -- so the file ended where that read began, which is not behind the cursor
  have asked := (run_wants (run.weaken readsToEnd_wants) owner).2 finish.1
    (run_submitted run.anyStep owner final).2
  have behind := (ends (Overlapped.handleResult_zero final found)).resolve_left (by omega)
  obtain ⟨pre, post, split⟩ := List.append_of_mem
    (List.mem_map_of_mem (f := fun finish => (finish.1.offset, finish.2.moved)) ended)
  have position := placed.positions.contiguous pre _ post split
  have longer : (contents pre).length ≤
      (contents (extents (observe next (mail i) (start loops) as))).length := by
    rw [show extents _ = _ from split]
    simp
  have settled := placed.positions.settled (.inl rfl) holds.1
  have zero : o.unapplied = 0 := by
    simp [Owner.unapplied, Owner.waiting, pc, ← Overlapped.handleResult_amount found]
  simp only at position
  omega

/-- Every step after which a result without bytes stands was taken at the end of the file. -/
theorem result_end (run : Run next (fun w a => w.readsToEnd i file a) (start loops) as w)
    (handle : ∀ o, w.owners[i]? = some o → o.kind = .handle) (owner : w.owners[i]? = some o)
    (result : o.result = some (.ready (.bytes []))) : file.length ≤ o.header.value.raw.cursor := by
  have handles := run.backward (P := fun w => ∀ o, w.owners[i]? = some o → o.kind = .handle)
    handle fun w a v reach h last => handle_before (reached_valid reach) h last
  clear run handle
  induction handles generalizing o with
  | nil => simp [start] at owner
  | @snoc as s a t before good h ih =>
      have run := before.weaken fun _ _ h => h.1
      have valid := reached_valid ⟨as, run⟩
      cases earlier : s.owners[i]? with
      | none =>
          cases stepped_moves valid (next_stepped h) owner with
          | created _ _ born => simp [born, Owner.result, Owner.new] at result
          | still same | moved same => simp [earlier] at same
      | some p =>
          obtain ⟨o', owner', step⟩ := next_owner valid h earlier
          obtain rfl : o = o' := Option.some.inj (owner.symm.trans owner')
          rcases step with ⟨act, e, rfl, hact⟩ | ⟨-, drifts⟩
          · refine le_trans ?_ (Owner.cursor_le hact)
            rcases Owner.result_task hact result with
              same | ⟨duplicate, call, n, outcome, pc, found, made⟩
            · exact ih earlier same
            · obtain rfl : n = 0 := Call.collect_nothing made
              exact guard_end run good.2 earlier pc found
          · rw [drifts.cursor]
            refine ih earlier ?_
            rw [← result, Owner.result, Owner.result, drifts.pc, drifts.last]

/-- The callers of a handle that were told by a read of no bytes that a file has ended have
got all of it, in every run in which the operating system reads the file at the positions
it is given and answers so only at its end, and whose calls bring room for a byte. -/
theorem read_to_end (run : Run next (fun w a => w.readsToEnd i file a) (start loops) as w)
    (owner : w.owners[i]? = some o) (handle : o.kind = .handle) (pc : o.pc = .out)
    (ended : o.last = some (.ready (.bytes []))) :
    observe next (handed i) (start loops) as = file.map some := by
  have handles := handle_at owner handle
  have reads := run.weaken readsToEnd_reads
  have cursor := read_cursor (reads.weaken readsFile_fits) handles owner
  have behind := result_end run handles owner (by simpa [Owner.result, pc] using ended)
  refine (read_beginning reads handles).eq_of_length_le ?_
  rw [List.length_map, ← cursor]
  exact behind

end Ends

/-- A read that is submitted, completed and collected. -/
def oneRead (i : Nat) (status : Final) : List Action :=
  Schedule.submitted i (.pollRead 8) i ++ [.complete 0 status] ++ Schedule.drive 0 true ++
    Schedule.resume i (.pollRead 8) i

/-- Two duplicates read a file of two bytes to its end. -/
def duplicatesRead : List Action :=
  [Schedule.handle, Schedule.handle] ++ oneRead 0 (.success 2 [1, 2]) ++
    oneRead 1 (.success 2 [1, 2]) ++ oneRead 1 (.success 0 []) ++
    oneRead 0 (.failure Win32.errorHandleEof 0 [])

theorem read_to_end_duplicates :
    ∃ w o p, Run next (fun w a => w.readsToEnd 0 [1, 2] a ∧ w.readsToEnd 1 [1, 2] a) setup
        duplicatesRead w ∧
      w.owners[0]? = some o ∧ w.owners[1]? = some p ∧
      observe next (handed 0) setup duplicatesRead = [1, 2].map some ∧
      observe next (handed 1) setup duplicatesRead = [1, 2].map some := by
  obtain ⟨w, run, state⟩ := exec_ended next
    (fun w a => w.readsToEnd 0 [1, 2] a = true ∧ w.readsToEnd 1 [1, 2] a = true) setup
    duplicatesRead (fun w => w.owners.map fun o => (o.kind, o.pc, o.last))
    (List.replicate 2 (.handle, .out, some (.ready (.bytes [])))) (by decide)
  have each {i : Nat} (inside : i < 2) : ∃ o, w.owners[i]? = some o ∧ o.kind = .handle ∧
      o.pc = .out ∧ o.last = some (.ready (.bytes [])) := by
    have there := congrArg (fun xs => xs[i]?) state
    simp only [List.getElem?_map, List.getElem?_replicate, if_pos inside,
      Option.map_eq_some_iff, Prod.mk.injEq] at there
    exact there
  obtain ⟨o, first, handle, out, ended⟩ := each (by decide : 0 < 2)
  obtain ⟨p, second, handle', out', ended'⟩ := each (by decide : 1 < 2)
  exact ⟨w, o, p, run, first, second,
    read_to_end (run.weaken fun _ _ h => h.1) first handle out ended,
    read_to_end (run.weaken fun _ _ h => h.2) second handle' out' ended'⟩

end World

end Iocp
