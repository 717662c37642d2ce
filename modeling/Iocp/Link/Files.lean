import Iocp.Link.Transfers

/-!
# A handle on a file

When the operating system reads at the position it is given, the callers of a
handle used for reads get the file from its beginning, however their buffers
and the results are cut. When it stores what it accepts at that position, a
handle used for `poll_write` leaves the bytes that its callers were told, one
after the other.
-/

namespace Iocp

open Extents Mailbox Totals Transition

/-- A read moves the bytes that were stored for it. -/
theorem Op.moved_read {op : Op} {status : Final} (read : op.request.code = .read) :
    op.moved status = status.data := by
  obtain ⟨slot, len, request⟩ := Request.code_read read
  simp only [moved, request]

/-- A report is nothing or that of an operation used under a code. -/
def Internal.Typed (c : Code) (r : Internal) : Prop :=
  ∀ op status, r = .final op status → op.Whole c status

/-- What an operation moved is as long as its status reports. -/
theorem Internal.Typed.moved_length {c : Code} {r : Internal} (typed : r.Typed c)
    (moves : c = .read ∨ c = .write) : r.moved.length = r.amount := by
  cases r with
  | zeroed | pending => rfl
  | final op status => exact Op.moved_length (typed op status rfl) moves

/-- What a guard reads of a completed read are the bytes moved. -/
theorem Internal.Typed.cells_moved {r : Internal} (typed : r.Typed .read) :
    r.cells = r.moved.map some := by
  cases r with
  | zeroed | pending => rfl
  | final op status =>
      rw [cells, moved, Op.moved_read (typed op status rfl).code]

theorem Positions.typed {c : Code} {es : List (Event Op Internal)} (positions : Positions c es)
    {finish : Op × Internal} (member : finish ∈ finishes es) : finish.2.Typed c := by
  obtain ⟨status, report, whole⟩ := positions.ended finish member
  intro op status' final
  obtain ⟨rfl, rfl⟩ := Internal.final.inj (report.symm.trans final)
  exact whole

/-- What is seen of the collected results is as long as they report. -/
theorem Positions.seen_length {E : Type*} {see : Internal → List E} {c : Code}
    {es : List (Event Op Internal)} (positions : Positions c es)
    (each : ∀ r : Internal, r.Typed c → (see r).length = r.amount)
    (order : collections es <+: (finishes es).map Prod.snd) :
    ((collections es).flatMap see).length = collected es := by
  rw [List.length_flatMap, collected]
  refine congrArg List.sum (List.map_congr_left fun r member => ?_)
  obtain ⟨finish, ended, rfl⟩ := List.mem_map.mp (order.subset member)
  exact each finish.2 (positions.typed ended)

/-- So is what is seen of the result that a guard is about to take. -/
theorem Owner.waiting_length {E : Type*} {see : Internal → List E} {o : Owner}
    (each : (see o.header.value.raw.internal).length = o.header.value.raw.internal.amount) :
    (o.waiting see).length = o.unapplied := by
  cases pc : o.pc with
  | guarded call found => cases found <;> simp [unapplied, waiting, pc, each]
  | _ => simp [unapplied, waiting, pc]

namespace World

section Streams

variable {i : Nat} {c : Code} {loops : List Loop} {as : List Action} {w : World} {o : Owner}

/-- The report in the OVERLAPPED of a handle that makes one transfer after the other. -/
theorem streams_typed (reach : Reached (fun w a => w.streams i c a) (start loops) w)
    (owner : w.owners[i]? = some o) (handle : o.kind = .handle) :
    o.header.value.raw.internal.Typed c := by
  intro op status final
  have typed := reached_typed streams_oneCode reach owner
  rw [Owner.codeOf, handle] at typed
  obtain ⟨code, admits⟩ := typed.final op status final
  have clean := reached_final (P := fun _ status => status.clean = true)
    (fun w k _ _ good flight own =>
      failsClean_ended (streams_clean w (.complete k _) good) flight own) reach owner final
  exact ⟨code, admits, clean⟩

/-- The cursor of a handle that makes one transfer after the other counts what its
guards took. -/
theorem taken_cursor {E : Type*} {see : Internal → List E} (code : c = .read ∨ c = .write)
    (each : ∀ r : Internal, r.Typed c → (see r).length = r.amount)
    (run : Run next (fun w a => w.streams i c a) (start loops) as w)
    (handle : ∀ o, w.owners[i]? = some o → o.kind = .handle) (owner : w.owners[i]? = some o) :
    o.header.value.raw.cursor = (observe next (takes see i) (start loops) as).length := by
  obtain ⟨m, mailbox, -⟩ := run_mailbox streams_steady streams_oneCode run
  have placed := run_placed code run handle
  have cursor := placed.cursor o owner
  have taken := congrArg List.length (streams_taken run : _ = observe next (takes see i) _ _ ++ _)
  rw [placed.positions.seen_length each (run_in_order mailbox).1, List.length_append] at taken
  have typed := streams_typed ⟨as, run⟩ owner (handle o owner)
  have waiting : (w.waitingAt see i).length = o.unapplied := by
    simpa [waitingAt, owner] using Owner.waiting_length (each _ typed)
  omega

end Streams

end World

/-- What ended was read from a file at its position. -/
def Served (file : List UInt8) (es : List (Event Op Internal)) : Prop :=
  ∀ finish ∈ finishes es, ∃ status,
    finish.2 = .final finish.1 status ∧ status.data <+: file.drop finish.1.offset

section Served

variable {file : List UInt8} {es : List (Event Op Internal)}

/-- Reads one after the other find the file from its beginning. -/
theorem Served.beginning (served : Served file es) (positions : Positions .read es) :
    (finishes es).flatMap (fun finish => finish.2.cells) <+: file.map some := by
  have cells : ∀ finish ∈ finishes es, finish.2.cells = finish.2.moved.map some :=
    fun _ member => (positions.typed member).cells_moved
  have reads : ∀ t ∈ extents es, ReadFrom file t := by
    intro t member
    obtain ⟨finish, ended, rfl⟩ := List.mem_map.mp member
    obtain ⟨status, report, whole⟩ := positions.ended finish ended
    obtain ⟨status', report', found⟩ := served finish ended
    obtain rfl := (Internal.final.inj (report.symm.trans report')).2
    simpa only [ReadFrom, report, Internal.moved, Op.moved_read whole.code]
      using found
  have same : (finishes es).flatMap (fun finish => finish.2.cells) =
      (contents (extents es)).map some := by
    rw [contents, extents, List.flatMap_map, List.map_flatMap]
    exact List.flatMap_congr cells
  rw [same]
  exact (positions.contiguous.read reads).map some

end Served

namespace World

/-- An operation ends at a completion. -/
theorem finish_complete {i : Nat} {w : World} {a : Action} {x : Op} {r : Internal}
    (h : .finish x r ∈ w.mail i a) :
    ∃ k status, a = .complete k status ∧ w.inFlight[k]? = some x ∧ x.owner = i ∧
      r = .final x status := by
  cases a with
  | complete k status =>
      simp only [mail] at h
      split at h
      case h_1 op flight =>
          split at h
          case isTrue own =>
              obtain ⟨rfl, rfl⟩ := Event.finish.inj (List.mem_singleton.mp h)
              exact ⟨k, status, rfl, flight, own, rfl⟩
          case isFalse => cases h
      case h_2 => cases h
  | task j act =>
      simp only [mail] at h
      split at h
      case h_1 o owner =>
          split at h
          · cases act <;> simp only [Owner.mail] at h <;> (repeat' split at h) <;> simp_all
          · cases h
      case h_2 => cases h
  | driver d act =>
      cases act <;> simp only [mail] at h <;> (repeat' split at h) <;> simp_all
  | _ => cases h

/-- The operating system serves the reads of owner `i` from a file: what it stores
for one of them is found at the position of the read. -/
def servesFile (i : Nat) (file : List UInt8) (w : World) : Action → Bool
  | .complete k status =>
      match w.inFlight[k]? with
      | some op => op.owner ≠ i || status.data.isPrefixOf (file.drop op.offset)
      | none => true
  | _ => true

/-- The steps under which owner `i` reads a file. -/
def readsFile (i : Nat) (file : List UInt8) (w : World) (a : Action) : Bool :=
  w.fitsReads i a && w.servesFile i file a

section Reads

variable {i : Nat} {file : List UInt8} {loops : List Loop} {as : List Action} {w : World}
  {o : Owner} {a : Action}

theorem readsFile_fits (w : World) (a : Action) (h : w.readsFile i file a = true) :
    w.fitsReads i a = true := by
  simp only [readsFile, Bool.and_eq_true] at h
  exact h.1

theorem readsFile_serves (w : World) (a : Action) (h : w.readsFile i file a = true) :
    w.servesFile i file a = true := by
  simp only [readsFile, Bool.and_eq_true] at h
  exact h.2

/-- Every step under which the reads of a handle are delivered makes one transfer after
the other. -/
theorem fitsReads_streams (handle : ∀ o, w.owners[i]? = some o → o.kind = .handle)
    (good : w.fitsReads i a = true) : w.streams i .read a = true := by
  simp only [fitsReads, streams, Bool.and_eq_true] at good ⊢
  refine ⟨⟨good.1, ?_⟩, ?_⟩
  · refine ownerAt_of fun o act owner same => ?_
    subst same
    cases act with
    | poll call waker =>
        have code := good.1.1.1
        simp only [oneCode, ne_eq, not_true_eq_false, decide_false, Bool.false_or, owner,
          Option.any_some, handle o owner, reduceCtorEq, Bool.or_false, decide_eq_true_eq] at code
        rcases Call.read_cases code with ⟨room, rfl⟩ | ⟨room, rfl⟩ <;> rfl
    | _ => rfl
  · refine ownerAt_of fun o act owner same => ?_
    subst same
    have fits := good.2
    rw [ownerAt_task owner] at fits
    cases act with
    | lock spurious =>
        simp only [Owner.fits, Owner.applies] at fits ⊢
        split
        case h_1 call n pc reported =>
            simp only [pc, reported, Bool.or_eq_true, Bool.and_eq_true] at fits ⊢
            exact fits.imp_right fun fits => ⟨.inr fits.1, fits.2⟩
        case h_2 => rfl
    | _ => rfl

/-- The steps of a run that delivers reads make one transfer after the other. -/
theorem reads_stream (run : Run next (fun w a => w.fitsReads i a) (start loops) as w)
    (handle : ∀ o, w.owners[i]? = some o → o.kind = .handle) :
    Run next (fun w a => w.streams i .read a) (start loops) as w := by
  have handles := run.backward (P := fun w => ∀ o, w.owners[i]? = some o → o.kind = .handle)
    handle fun w a v reach h last => handle_before (reached_valid reach) h last
  exact handles.weaken fun w a good => fitsReads_streams good.2 good.1

/-- What every completion meets holds of all that ended. -/
theorem finishes_meet {ok : World → Action → Prop} {P : Op → Final → Prop}
    (run : Run next ok (start loops) as w)
    (meets : ∀ w k op status, ok w (.complete k status) → w.inFlight[k]? = some op →
      op.owner = i → P op status) :
    ∀ finish ∈ finishes (observe next (mail i) (start loops) as),
      ∃ status, finish.2 = .final finish.1 status ∧ P finish.1 status := by
  refine run.observed (P := fun _ (es : List (Event Op Internal)) => ∀ finish ∈ finishes es,
    ∃ status, finish.2 = .final finish.1 status ∧ P finish.1 status) (by simp [finishes]) ?_
  intro w a v es before good _ finish member
  rw [finishes_append, List.mem_append] at member
  rcases member with old | new
  · exact before finish old
  · obtain ⟨k, status, rfl, flight, own, report⟩ := finish_complete ((mem_finishes _).mp new)
    exact ⟨status, report, meets w k finish.1 status good flight own⟩

/-- What the reads of a file found is at their positions. -/
theorem served_finishes (run : Run next (fun w a => w.servesFile i file a) (start loops) as w) :
    Served file (observe next (mail i) (start loops) as) :=
  finishes_meet (P := fun op status => status.data <+: file.drop op.offset) run
    fun w k op status good flight own => by simpa [servesFile, flight, own] using good

/-- The bytes stored for the reads are those of the reads that ended. -/
theorem transferred_finished (i : Nat) (loops : List Loop) (as : List Action) :
    observe next (transferred i) (start loops) as =
      ((finishes (observe next (mail i) (start loops) as)).map Prod.snd).flatMap
        Internal.cells := by
  rw [List.flatMap_map]
  exact observe_derived (mail i) (fun es => (finishes es).flatMap fun finish => finish.2.cells)
    rfl (by simp) (transferred_mail i) (start loops) as

/-- The callers of a handle used for reads get the first of the bytes stored for it. -/
theorem handed_first (run : Run next (fun w a => w.fitsReads i a) (start loops) as w)
    (handle : ∀ o, w.owners[i]? = some o → o.kind = .handle) :
    observe next (handed i) (start loops) as <+: observe next (transferred i) (start loops) as := by
  obtain ⟨m, mailbox, -⟩ := run_mailbox fitsReads_steady fitsReads_oneCode run
  obtain ⟨rest, more⟩ := (run_in_order mailbox).1
  rw [transferred_finished, ← more, List.flatMap_append, handed_collected run handle,
    List.append_assoc]
  exact List.prefix_append _ _

/-- They got all of them when no read is under way. -/
theorem handed_all (run : Run next (fun w a => w.fitsReads i a) (start loops) as w)
    (handle : ∀ o, w.owners[i]? = some o → o.kind = .handle) (owner : w.owners[i]? = some o)
    (pc : o.pc = .out) (word : o.lockWord = 0) :
    observe next (handed i) (start loops) as = observe next (transferred i) (start loops) as := by
  obtain ⟨m, mailbox, -, -, tracks⟩ := run_mailbox fitsReads_steady fitsReads_oneCode run
  have holds := (run_accounts mailbox).2
  rw [(tracks o owner).settled pc word] at holds
  rw [transferred_finished, holds.1, handed_collected run handle]
  simp [waitingAt, owner, Owner.waiting, pc]

/-- The bytes read through a handle used for reads begin the file. -/
theorem read_beginning (run : Run next (fun w a => w.readsFile i file a) (start loops) as w)
    (handle : ∀ o, w.owners[i]? = some o → o.kind = .handle) :
    observe next (handed i) (start loops) as <+: file.map some := by
  have fits := run.weaken readsFile_fits
  have placed := run_placed (.inl rfl) (reads_stream fits handle) handle
  refine (handed_first fits handle).trans ?_
  rw [transferred_finished, List.flatMap_map]
  exact (served_finishes (run.weaken readsFile_serves)).beginning placed.positions

/-- The cursor of a handle used for reads is where the bytes that were handed out end. -/
theorem read_cursor (run : Run next (fun w a => w.fitsReads i a) (start loops) as w)
    (handle : ∀ o, w.owners[i]? = some o → o.kind = .handle) (owner : w.owners[i]? = some o) :
    o.header.value.raw.cursor = (observe next (handed i) (start loops) as).length := by
  have stream := reads_stream run handle
  have same : observe next (handed i) (start loops) as =
      observe next (takes Internal.cells i) (start loops) as := by
    have taken := (handed_collected run handle).symm.trans (streams_taken stream)
    exact List.append_cancel_right taken
  rw [same]
  refine taken_cursor (.inl rfl) (fun r typed => ?_) stream handle owner
  rw [typed.cells_moved, List.length_map, typed.moved_length (.inl rfl)]

end Reads

/-- What the callers of handle `i` got of a file: its beginning without a gap, up to the
cursor, where the next read is submitted. -/
structure ReadInOrder (i : Nat) (file : List UInt8) (given : List (Option UInt8)) (o : Owner) :
    Prop where
  beginning : given <+: file.map some
  cursor : o.header.value.raw.cursor = given.length
  next : ∀ answer o' e op, o.submit i answer = some (o', e) → e.submit = some op →
    op.offset = given.length

/-- A handle used for reads hands out the file that the operating system reads at the
positions it is given, in every run whose polls resume completed reads with a buffer
that they fit into. -/
theorem file_read_in_order {i : Nat} {file : List UInt8} {loops : List Loop} {as : List Action}
    {w : World} {o : Owner} (run : Run next (fun w a => w.readsFile i file a) (start loops) as w)
    (owner : w.owners[i]? = some o) (handle : o.kind = .handle) :
    ReadInOrder i file (observe next (handed i) (start loops) as) o := by
  have handles := handle_at owner handle
  have cursor := read_cursor (run.weaken readsFile_fits) handles owner
  refine ⟨read_beginning run handles, cursor, ?_⟩
  intro answer o' e op submit submits
  have submit : o.act i 0 (.submit answer) = some (o', e) := submit
  obtain ⟨call, request, -, rfl, -⟩ := (Owner.act_acts submit).submitted submits
  exact cursor

/-- A file of six bytes, read in two pieces. -/
def fileRead : List Action :=
  Schedule.pendingRead ++ [.complete 0 (.success 4 [1, 2, 3, 4])] ++ Schedule.drive 0 true ++
    Schedule.resume 0 (.pollRead 8) 1 ++ Schedule.submitted 0 (.pollRead 8) 1 ++
    [.complete 0 (.success 2 [5, 6])] ++ Schedule.drive 0 true ++
    Schedule.resume 0 (.pollRead 8) 1

theorem file_read_in_order_twice :
    ∃ as w o, Run next (fun w a => w.readsFile 0 [1, 2, 3, 4, 5, 6] a) setup as w ∧
      w.owners[0]? = some o ∧ o.header.value.raw.cursor = 6 ∧
      ReadInOrder 0 [1, 2, 3, 4, 5, 6] ([1, 2, 3, 4, 5, 6].map some) o := by
  obtain ⟨w, run, seen⟩ := exec_seen (fun w a => w.readsFile 0 [1, 2, 3, 4, 5, 6] a = true) setup
    fileRead (handed 0) (fun w given => (w.owners[0]?.map Owner.kind, given))
    (some .handle, [1, 2, 3, 4, 5, 6].map some) (by decide)
  simp only [Prod.mk.injEq] at seen
  obtain ⟨o, owner, kind⟩ := Option.map_eq_some_iff.mp seen.1
  have read : ReadInOrder 0 [1, 2, 3, 4, 5, 6] (observe next (handed 0) setup fileRead) o :=
    file_read_in_order run owner kind
  rw [seen.2] at read
  exact ⟨fileRead, w, o, run, owner, read.cursor, read⟩

end World

/-- A write moves the first of its bytes. -/
theorem Op.moved_write {op : Op} {status : Final} (write : op.request.code = .write) :
    op.moved status <+: op.request.bytes := by
  obtain ⟨slot, bytes, request⟩ := Request.code_write write
  simp only [moved, request, Request.bytes]
  exact List.take_prefix _ _

/-- The only write that moves the cursor is `poll_write`. -/
theorem Call.moves_write {call : Call} (write : call.code = .write) (counts : call.moves = true) :
    ∃ buf, call = .pollWrite buf := by
  cases call with
  | pollWrite buf => exact ⟨buf, rfl⟩
  | pollRead room | read room => exact absurd write (by decide : Code.read ≠ Code.write)
  | _ => cases counts

/-- The bytes a write reports as written when its guard took the result. -/
def Owner.acknowledging (o o' : Owner) : List UInt8 :=
  match o.pc, o'.pc with
  | .guarded call _, .dropGuard (.ready (.count n)) => call.bytes.take n
  | _, _ => []

/-- A guard that collects a write reports the bytes that were moved. -/
theorem Owner.acknowledging_collect {o o' : Owner} {call : Call} {duplicate : Option Nat}
    {e : Effect} (pc : o.pc = .guarded call .pending)
    (collect : o.collect duplicate = some (o', e)) (write : call.code = .write)
    (counts : call.moves = true) (begins : o.header.value.raw.Begins call)
    (typed : o.header.value.raw.internal.Typed .write)
    (applies : o.header.value.raw.Applies call) :
    o.acknowledging o' = o.waiting Internal.moved := by
  obtain ⟨buf, rfl⟩ := Call.moves_write write counts
  obtain ⟨op, status, final, begins⟩ := begins
  have length := typed.moved_length (.inr rfl)
  have first : o.header.value.raw.internal.moved <+: buf := by
    rw [final, Internal.moved]
    exact (Op.moved_write (typed op status final).code).trans begins
  have waits : o.waiting Internal.moved = o.header.value.raw.internal.moved := by
    simp [waiting, pc]
  rw [waits]
  obtain ⟨-, call', pc', collects⟩ := collect_collects collect
  obtain ⟨rfl, -⟩ := Pc.guarded.inj (pc.symm.trans pc')
  cases collects with
  | unfinished failed =>
      rw [Overlapped.handleResult_no_amount failed] at length
      rw [List.length_eq_zero_iff.mp length]
      simp [acknowledging, pc]
  | error found made | panic found made => cases made
  | overflow found made applied =>
      cases made
      rw [OverlappedOutcome.applyTo, Overlapped.advance_none] at applied
      have bound := (applies _ found).2
      omega
  | ready found made applied =>
      cases made
      rw [← Overlapped.handleResult_amount found] at length
      rw [List.prefix_iff_eq_take.mp first, length]
      simp [acknowledging, pc, Call.bytes]

namespace World

/-- What the operating system stores for the writes of owner `i`, with the positions. -/
def stores (i : Nat) (w : World) : Action → List (Extent UInt8)
  | .complete k status =>
      match w.inFlight[k]? with
      | some op => if op.owner = i then [(op.offset, op.moved status)] else []
      | none => []
  | _ => []

/-- The bytes whose writing owner `i` reports to its callers. -/
def acknowledged (i : Nat) (w : World) : Action → List UInt8
  | .task j (.collect duplicate) =>
      if j = i then
        (w.owners[j]?.bind fun o =>
          (o.collect duplicate).map fun next => o.acknowledging next.1).getD []
      else []
  | _ => []

/-- The steps under which owner `i` writes a file. -/
def writesFile (i : Nat) (w : World) (a : Action) : Bool :=
  w.resumesWrites i a && w.failsClean i a && w.movesOnly i a && w.ownerAt i Owner.applies a

section Writes

variable {i : Nat} {loops : List Loop} {as : List Action} {w v : World} {o : Owner} {a : Action}

theorem writesFile_resumes (w : World) (a : Action) (h : w.writesFile i a = true) :
    w.resumesWrites i a = true := by
  simp only [writesFile, Bool.and_eq_true] at h
  exact h.1.1.1

theorem writesFile_streams (w : World) (a : Action) (h : w.writesFile i a = true) :
    w.streams i .write a = true := by
  simp only [writesFile, resumesWrites, streams, Bool.and_eq_true] at h ⊢
  exact ⟨⟨⟨h.1.1.1.1, h.1.1.2⟩, h.1.2⟩, h.2⟩

/-- What is stored is what the writes that end have moved. -/
theorem stores_mail (i : Nat) (w : World) (a : Action) : w.stores i a = extents (w.mail i a) := by
  cases a with
  | complete k status =>
      simp only [stores, mail]
      cases w.inFlight[k]? with
      | none => rfl
      | some op => by_cases own : op.owner = i <;> simp [own, extents, Internal.moved]
  | _ =>
      refine Eq.symm (List.map_eq_nil_iff.mpr (List.eq_nil_iff_forall_not_mem.mpr ?_))
      rintro ⟨x, r⟩ member
      obtain ⟨k, status, same, -⟩ := finish_complete ((mem_finishes _).mp member)
      cases same

/-- What a guard takes of the writes of a handle is what it reports. -/
theorem acknowledged_takes (run : Run next (fun w a => w.writesFile i a) (start loops) as w)
    (handle : ∀ o, w.owners[i]? = some o → o.kind = .handle) (h : w.next a = some v) :
    w.acknowledged i a = w.takes Internal.moved i a := by
  have stream := run.weaken writesFile_streams
  cases a with
  | task j act =>
      cases act with
      | collect duplicate =>
          by_cases own : j = i
          · subst own
            cases owner : w.owners[j]? with
            | none => simp [acknowledged, takes, owner]
            | some o =>
                obtain ⟨o', e, collect, -⟩ := step_act owner (next_eq_some.mp h).1
                obtain ⟨-, call, pc, -⟩ := Owner.collect_collects collect
                have code := (reached_typed streams_oneCode ⟨as, stream⟩ owner).call
                rw [Owner.codeOf, handle o owner] at code
                have typed := streams_typed ⟨as, stream⟩ owner (handle o owner)
                have about : o.pc.call = some call := by simp [pc, Pc.call]
                have resumed := (reached_resumed resumesWrites_steady resumesWrites_oneCode
                  resumesWrites_begins ⟨as, run.weaken writesFile_resumes⟩ owner).guarded call pc
                have applies := (reached_resumed streams_steady streams_oneCode streams_applies
                  ⟨as, stream⟩ owner).guarded call pc
                rw [Owner.act] at collect
                simp only [acknowledged, takes, if_true, owner, Option.bind_some, collect,
                  Option.map_some, Option.getD_some]
                exact Owner.acknowledging_collect pc collect (code call about)
                  (streams_calls stream owner (handle o owner) about) resumed typed applies
          · simp [acknowledged, takes, own]
      | _ => rfl
  | _ => rfl

/-- What was reported was collected, but for what a guard is about to take. -/
theorem acknowledged_collected (run : Run next (fun w a => w.writesFile i a) (start loops) as w)
    (handle : ∀ o, w.owners[i]? = some o → o.kind = .handle) :
    (collections (observe next (mail i) (start loops) as)).flatMap Internal.moved =
      observe next (acknowledged i) (start loops) as ++ w.waitingAt Internal.moved i := by
  have handles := run.backward (P := fun w => ∀ o, w.owners[i]? = some o → o.kind = .handle)
    handle fun w a v reach h last => handle_before (reached_valid reach) h last
  have same : observe next (acknowledged i) (start loops) as =
      observe next (takes Internal.moved i) (start loops) as := by
    refine handles.observe_congr ?_
    rintro w a v ⟨cs, before⟩ good h
    exact acknowledged_takes (before.weaken fun _ _ h => h.1) good.2 h
  rw [same]
  exact streams_taken (run.weaken writesFile_streams)

/-- What was reported is everything that ended, when all of it was collected and no guard
is about to take a result. -/
theorem acknowledged_ended {m : State Op Internal}
    (run : Run next (fun w a => w.writesFile i a) (start loops) as w)
    (handle : ∀ o, w.owners[i]? = some o → o.kind = .handle)
    (mailbox : Run Mailbox.step anyStep Mailbox.empty (observe next (mail i) (start loops) as) m)
    (empty : m.slot = .empty) (none : w.waitingAt Internal.moved i = []) :
    observe next (acknowledged i) (start loops) as =
      ((finishes (observe next (mail i) (start loops) as)).map Prod.snd).flatMap
        Internal.moved := by
  have holds := (run_accounts mailbox).2
  rw [empty] at holds
  rw [holds.1, acknowledged_collected run handle, none, List.append_nil]

/-- The file holds everything that was moved. -/
theorem stored_moved (run : Run next (fun w a => w.streams i .write a) (start loops) as w)
    (handle : ∀ o, w.owners[i]? = some o → o.kind = .handle) :
    stored (observe next (stores i) (start loops) as) =
      ((finishes (observe next (mail i) (start loops) as)).map Prod.snd).flatMap
        Internal.moved := by
  have placed := run_placed (.inr rfl) run handle
  have same : observe next (stores i) (start loops) as =
      extents (observe next (mail i) (start loops) as) :=
    observe_derived (mail i) extents rfl extents_append (stores_mail i) (start loops) as
  rw [same, placed.positions.contiguous.stored, contents, extents, List.flatMap_map,
    List.flatMap_map]

/-- The bytes whose writing was reported begin the file. -/
theorem acknowledged_first (run : Run next (fun w a => w.writesFile i a) (start loops) as w)
    (handle : ∀ o, w.owners[i]? = some o → o.kind = .handle) :
    observe next (acknowledged i) (start loops) as <+:
      stored (observe next (stores i) (start loops) as) := by
  have stream := run.weaken writesFile_streams
  obtain ⟨m, mailbox, -⟩ := run_mailbox streams_steady streams_oneCode stream
  obtain ⟨rest, more⟩ := (run_in_order mailbox).1
  rw [stored_moved stream handle, ← more, List.flatMap_append, acknowledged_collected run handle,
    List.append_assoc]
  exact List.prefix_append _ _

/-- They are the file when no write is under way. -/
theorem acknowledged_all (run : Run next (fun w a => w.writesFile i a) (start loops) as w)
    (handle : ∀ o, w.owners[i]? = some o → o.kind = .handle) (owner : w.owners[i]? = some o)
    (pc : o.pc = .out) (word : o.lockWord = 0) :
    observe next (acknowledged i) (start loops) as =
      stored (observe next (stores i) (start loops) as) := by
  have stream := run.weaken writesFile_streams
  obtain ⟨m, mailbox, -, -, tracks⟩ := run_mailbox streams_steady streams_oneCode stream
  rw [stored_moved stream handle]
  exact acknowledged_ended run handle mailbox ((tracks o owner).settled pc word)
    (by simp [waitingAt, owner, Owner.waiting, pc])

end Writes

/-- What the callers of handle `i` were told of a file that it writes: the bytes they
were told begin the file without a gap, nothing else is in it when no write is under
way, and the next write is submitted at its end. -/
structure WrittenInOrder (i : Nat) (file told : List UInt8) (o : Owner) : Prop where
  beginning : told <+: file
  settled : o.pc = .out → o.lockWord = 0 → told = file
  cursor : o.header.value.raw.cursor = told.length
  next : ∀ answer o' e op, o.submit i answer = some (o', e) → e.submit = some op →
    told = file ∧ op.offset = file.length

/-- A handle used for `poll_write` leaves in a file, written at the positions that the
operating system is given, what its callers were told, in every run whose polls resume
completed writes with a buffer that begins with their bytes. -/
theorem file_written_in_order {i : Nat} {loops : List Loop} {as : List Action} {w : World}
    {o : Owner} (run : Run next (fun w a => w.writesFile i a) (start loops) as w)
    (owner : w.owners[i]? = some o) (handle : o.kind = .handle) :
    WrittenInOrder i (stored (observe next (stores i) (start loops) as))
      (observe next (acknowledged i) (start loops) as) o := by
  have handles := handle_at owner handle
  have stream := run.weaken writesFile_streams
  obtain ⟨m, mailbox, -, -, tracks⟩ := run_mailbox streams_steady streams_oneCode stream
  have tracks := tracks o owner
  have told := acknowledged_collected run handles
  have cursor : o.header.value.raw.cursor =
      (observe next (acknowledged i) (start loops) as).length := by
    have same : observe next (acknowledged i) (start loops) as =
        observe next (takes Internal.moved i) (start loops) as :=
      List.append_cancel_right (told.symm.trans (streams_taken stream))
    rw [same]
    exact taken_cursor (.inr rfl) (fun r typed => typed.moved_length (.inr rfl)) stream handles
      owner
  refine ⟨acknowledged_first run handles, acknowledged_all run handles owner, cursor, ?_⟩
  intro answer o' e op submit submits
  have submit : o.act i 0 (.submit answer) = some (o', e) := submit
  obtain ⟨call, request, pc, rfl, -⟩ := (Owner.act_acts submit).submitted submits
  obtain ⟨empty, -⟩ := tracks.inside (by simp [pc, Pc.outside]) (by simp [pc])
  have all := acknowledged_ended run handles mailbox empty
    (by simp [waitingAt, owner, Owner.waiting, pc])
  rw [← stored_moved stream handles] at all
  exact ⟨all, all ▸ cursor⟩

/-- A file of three bytes, of which the first write stored two. -/
def fileWritten : List Action :=
  [Schedule.handle] ++ Schedule.submitted 0 (.pollWrite [1, 2, 3]) 1 ++
    [.complete 0 (.success 2 [])] ++ Schedule.drive 0 true ++
    Schedule.resume 0 (.pollWrite [1, 2, 3]) 1 ++ Schedule.submitted 0 (.pollWrite [3]) 1 ++
    [.complete 0 (.success 1 [])]

theorem file_written_in_order_short :
    ∃ as w o, Run next (fun w a => w.writesFile 0 a) setup as w ∧ w.owners[0]? = some o ∧
      o.header.value.raw.cursor = 2 ∧ WrittenInOrder 0 [1, 2, 3] [1, 2] o := by
  obtain ⟨w, run, seen⟩ := exec_seen (fun w a => w.writesFile 0 a = true) setup fileWritten
    (stores 0) (fun w file => (w.owners[0]?.map Owner.kind, stored file))
    (some .handle, [1, 2, 3]) (by decide)
  simp only [Prod.mk.injEq] at seen
  obtain ⟨o, owner, kind⟩ := Option.map_eq_some_iff.mp seen.1
  have told : observe next (acknowledged 0) setup fileWritten = [1, 2] := by decide
  have written : WrittenInOrder 0 (stored (observe next (stores 0) setup fileWritten))
      (observe next (acknowledged 0) setup fileWritten) o := file_written_in_order run owner kind
  rw [seen.2, told] at written
  exact ⟨fileWritten, w, o, run, owner, written.cursor, written⟩

end World

end Iocp
