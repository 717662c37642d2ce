import Iocp.Link.Resumption

/-!
# What the guards read

A guard that is entered in state pending finds the final status of an operation in
the OVERLAPPED of its header, and nobody touches it until the poll has read it. So the
results that polls read, and those that they return, are the ones that were collected
when their guards were entered, in the order of the submissions.
-/

namespace Iocp

open Totals Transition Mailbox

/-- What `handle_result` makes of the status of an operation. -/
def Final.result : Final → Except IoError Nat
  | .success transferred _ => .ok transferred
  | .failure code _ _ =>
      if code = Win32.errorHandleEof then .ok 0
      else if code = Win32.errorBrokenPipe then .ok 0
      else .error (.os code)

theorem Overlapped.handleResult_final {r : Overlapped} {op : Op} {status : Final}
    (final : r.internal = .final op status) : r.handleResult = status.result := by
  cases status <;> simp [handleResult, getOverlappedResult, final, Final.result]

namespace Owner

/-- What the guard that collects is about to take, as seen by an observer. -/
def waiting {E : Type*} (see : Internal → List E) (o : Owner) : List E :=
  match o.pc with
  | .guarded _ .pending => see o.header.value.raw.internal
  | _ => []

/-- What a poll reports of an operation that ended with a status: the error that
`handle_result` finds, or what `collect` of the operation makes of the bytes it reports,
if the cursor can follow. -/
def Reports (o : Owner) (call : Call) (duplicate : Option Nat) (status : Final) (o' : Owner) :
    Prop :=
  match status.result with
  | .error e => o'.pc = .dropGuard (.failed e)
  | .ok transferred =>
      match (call.collect transferred duplicate o.pool o.sockets).2.2 with
      | .error e => o'.pc = .dropGuard (.failed e)
      | .panic => o'.pc = .dropGuard .panicked
      | .output value outcome =>
          match outcome.applyTo o.header.value.raw with
          | some _ => o'.pc = .dropGuard (.ready value)
          | none => o'.pc = .dropGuard .panicked

section Waiting

variable {i : Nat} {o o' : Owner} {pending : Int} {a : TaskAct} {e : Effect}

/-- A poll that collects reports the status in the OVERLAPPED. -/
theorem collect_reports {call : Call} {duplicate : Option Nat} {op : Op} {status : Final}
    (pc : o.pc = .guarded call .pending) (collect : o.collect duplicate = some (o', e))
    (final : o.header.value.raw.internal = .final op status) :
    o.Reports call duplicate status o' := by
  obtain ⟨-, call', pc', collects⟩ := collect_collects collect
  obtain ⟨rfl, -⟩ := Pc.guarded.inj (pc.symm.trans pc')
  rw [Reports, ← Overlapped.handleResult_final final]
  cases collects with
  | unfinished failed => simp only [failed]
  | error found made | panic found made => simp only [found, made]
  | overflow found made applied | ready found made applied => simp only [found, made, applied]

/-- What the mailbox is told to be collected waits in a guard. -/
theorem waiting_task {E : Type*} {see : Internal → List E} (acts : o.Acts i pending a o' e)
    (other : ∀ duplicate, a ≠ .collect duplicate) :
    o.waiting see ++ (collections (o.mail i pending a)).flatMap see = o'.waiting see := by
  cases acts with
  | collect pc => exact absurd rfl (other _)
  | @storeOpen call n pc =>
      simp only [waiting, pc, mail, Header.headerLockStore]
      by_cases own : call.code.word = -n
      · simp [own, Arc.modify]
      · simp [own]
  | @submit call request answer pc accepted => simp [waiting, mail, pc, accepted]
  | @refuseSubmit call request answer _ pc refused => simp [waiting, mail, pc, refused]
  | permit pc kind granted => simp [waiting, mail, pc, granted]
  | refusePermit pc kind refused => simp [waiting, mail, pc, not_le_of_gt refused]
  | undoPermit pc | registerWaker pc | lockOpen pc | lockBusy pc | lockStore pc | leaveBusy pc
  | prepareRequest pc | prepareFail pc | forget pc | dropOverlapped pc | dropGuard pc
  | dropGuardPanic pc | dropPermit pc | drop pc | leaveDrop pc | dropFields pc =>
      simp [waiting, mail, pc]

end Waiting

end Owner

namespace World

section Takes

variable {ok : World → Action → Prop} {i : Nat} {c : Code} {loops : List Loop} {as : List Action}
  {w v : World} {o : Owner} {a : Action}

/-- A step that is not one of the owner leaves alone what its guard is about to take. -/
theorem waiting_background {E : Type*} {see : Internal → List E} {m : State Op Internal}
    {T : Multiset Token} {L : Link} {l : Link.Label} (tracks : Link.Tracks c m ⟨o, T⟩)
    (step : Link.Step i ⟨o, T⟩ l L) (other : ∀ a, l ≠ .task a) :
    L.owner.waiting see = o.waiting see := by
  have pc : L.owner.pc = o.pc := Link.background_pc step other
  simp only [Owner.waiting, pc]
  split
  case h_1 call at' =>
      obtain ⟨-, quiet, -⟩ := tracks.inside (by simp [at', Pc.outside]) (by simp [at'])
      rw [Link.background_raw step other quiet]
  case h_2 => rfl

/-- What the guards of owner `i` take, as seen by an observer. -/
def takes {E : Type*} (see : Internal → List E) (i : Nat) (w : World) : Action → List E
  | .task j (.collect _) => if j = i then (w.owners[i]?.map (Owner.waiting see)).getD [] else []
  | _ => []

theorem takes_silent {E : Type*} {see : Internal → List E} (silent : w.Silent i a) :
    w.takes see i a = [] := by
  cases a with
  | task j act =>
      cases act with
      | collect duplicate => exact if_neg silent
      | _ => rfl
  | _ => rfl

/-- What a guard of owner `i` is about to take. -/
def waitingAt {E : Type*} (see : Internal → List E) (i : Nat) (w : World) : List E :=
  (w.owners[i]?.map (Owner.waiting see)).getD []

/-- Before its owner exists nothing is about to be taken from a header. -/
theorem waiting_before {E : Type*} {see : Internal → List E} (valid : w.Valid)
    (stepped : w.Stepped a v) (none : w.owners[i]? = none) :
    w.waitingAt see i = [] ∧ w.takes see i a = [] ∧ v.waitingAt see i = [] := by
  refine ⟨by simp [waitingAt, none], ?_, ?_⟩
  · cases a with
    | task j act =>
        cases act with
        | collect duplicate => simp [takes, none]
        | _ => rfl
    | _ => rfl
  · cases owner : v.owners[i]? with
    | none => simp [waitingAt, owner]
    | some o =>
        cases stepped_moves valid stepped owner with
        | created _ _ own => simp [waitingAt, owner, own, Owner.waiting, Owner.new]
        | still before | moved before => simp [none] at before

/-- The step that reads the result takes what was about to be taken. -/
theorem waiting_collect {E : Type*} {see : Internal → List E} {duplicate : Option Nat}
    {o' : Owner} {e : Effect} (owner : w.owners[i]? = some o)
    (h : o.collect duplicate = some (o', e)) :
    w.takes see i (.task i (.collect duplicate)) = o.waiting see ∧ o'.waiting see = [] := by
  obtain ⟨-, call, -, collects⟩ := Owner.collect_collects h
  obtain ⟨result, pc⟩ := collects.next
  constructor
  · simp [takes, owner]
  · simp [Owner.waiting, pc]

/-- What is collected was about to be taken or is taken at once. -/
theorem waiting_keeps {E : Type*} {see : Internal → List E}
    (steady : ∀ w a, ok w a → w.steady i a = true) (code : ∀ w a, ok w a → w.oneCode i c a = true)
    (run : Run next ok (start loops) as w) (h : w.next a = some v) :
    w.waitingAt see i ++ (collections (w.mail i a)).flatMap see =
      w.takes see i a ++ v.waitingAt see i := by
  obtain ⟨m, -, valid, -, tracks⟩ := run_mailbox steady code run
  have stepped := next_stepped h
  cases owner : w.owners[i]? with
  | none =>
      obtain ⟨nobody, none, fresh⟩ := waiting_before valid stepped owner
      rw [mail_fresh valid owner, nobody, none, fresh]
      rfl
  | some o =>
      obtain ⟨o', owner', happens⟩ := stepped_happens valid stepped owner
      have tracks := tracks o owner
      simp only [waitingAt, owner, owner', Option.map_some, Option.getD_some]
      -- a step that is not one of the owner
      have quiet (mail : collections (w.mail i a) = []) (none : w.takes see i a = [])
          (same : o'.waiting see = o.waiting see) :
          o.waiting see ++ (collections (w.mail i a)).flatMap see =
            w.takes see i a ++ o'.waiting see := by
        rw [mail, none, same, List.flatMap_nil, List.append_nil, List.nil_append]
      generalize v.tokensOf i = T' at happens
      cases happens with
      | @task act _ e acts =>
          rw [mail_task owner]
          by_cases collect : ∃ duplicate, act = .collect duplicate
          · obtain ⟨duplicate, rfl⟩ := collect
            obtain ⟨o'', e', hact, rfl⟩ := step_act owner (next_eq_some.mp h).1
            obtain rfl : o'' = o' :=
              Option.some.inj ((afterTask_owner owner o'' e').symm.trans owner')
            obtain ⟨taken, left⟩ := waiting_collect owner hact
            rw [taken, left]
            simp [Owner.mail]
          · have other : ∀ duplicate, act ≠ .collect duplicate := fun duplicate same =>
              collect ⟨duplicate, same⟩
            have none : w.takes see i (.task i act) = [] := by
              cases act with
              | collect duplicate => exact absurd rfl (other duplicate)
              | _ => rfl
            rw [none, Owner.waiting_task acts other, List.nil_append]
      | complete flight own admits tokens =>
          refine quiet (by simp [mail_complete flight own]) rfl ?_
          exact waiting_background (tokens ▸ tracks) (.complete (i := i) admits) (by simp)
      | exchange thread own tokens =>
          refine quiet ?_ rfl (waiting_background (tokens ▸ tracks) (.exchange (i := i)) (by simp))
          rw [mail_exchange thread own owner]
          split <;> simp
      | quiet silent step =>
          exact quiet (by simp [mail_silent silent]) (takes_silent silent)
            (waiting_background tracks step (by simp))
      | still silent =>
          exact quiet (by simp [mail_silent silent]) (takes_silent silent) rfl

/-- What was collected was taken, or is about to be. -/
theorem run_taken {E : Type*} {see : Internal → List E}
    (steady : ∀ w a, ok w a → w.steady i a = true) (code : ∀ w a, ok w a → w.oneCode i c a = true)
    (run : Run next ok (start loops) as w) :
    (collections (observe next (mail i) (start loops) as)).flatMap see =
      observe next (takes see i) (start loops) as ++ w.waitingAt see i := by
  rw [← run.conserved (waitingAt see i) (fun w a => (collections (w.mail i a)).flatMap see)
    (takes see i) (by simp [waitingAt, start]) fun w a v reach good h =>
      waiting_keeps steady code reach.choose_spec h]
  exact (observe_derived (mail i) (fun es => (collections es).flatMap see) rfl (by simp)
    (fun _ _ => rfl) (start loops) as).symm

end Takes

/-- Results are collected once, in the order of the submissions, and the one
that was unlocked is collected next. -/
structure InOrder (es : List (Event Op Internal)) : Prop where
  /-- The `k`-th guard entered in state pending finds the final status of the
  `k`-th accepted submission. -/
  paired : ∀ (k : Nat) r, (collections es)[k]? = some r → ∃ op status,
    (submissions es)[k]? = some op ∧ (finishes es)[k]? = some (op, Internal.final op status) ∧
      r = Internal.final op status
  /-- Nothing is submitted before every earlier result was collected. -/
  alone : ∀ ds op rest, es = ds ++ .submit op :: rest →
    (collections ds).length = (submissions ds).length
  /-- After an unlock the last submission is the one to collect, and the poll that
  makes the next exchange collects it: the one that runs, or the next one begun. -/
  next : ∀ ds rest, es = ds ++ .unlock :: rest → ∃ op status,
    (submissions ds).getLast? = some op ∧
      (submissions ds).length = (collections ds).length + 1 ∧
      (finishes ds).getLast? = some (op, Internal.final op status) ∧
      Next (visiting ds) (Internal.final op status) rest

theorem inOrder_of_run {es : List (Event Op Internal)} {m : State Op Internal}
    (run : Run Mailbox.step anyStep Mailbox.empty es m)
    (final : ∀ x r, .finish x r ∈ es → ∃ status, r = .final x status) : InOrder es := by
  have reported {ds : List (Event Op Internal)} {x : Op} {r : Internal} (sub : ds ⊆ es)
      (member : (x, r) ∈ finishes ds) : ∃ status, r = .final x status :=
    final x r (sub ((mem_finishes ds).mp member))
  constructor
  · intro k r h
    obtain ⟨collected, finished, -⟩ := run_in_order run
    obtain ⟨hlt, rfl⟩ := List.getElem?_eq_some_iff.mp h
    have collect := List.prefix_iff_getElem?.mp collected k hlt
    rw [List.getElem?_map] at collect
    obtain ⟨⟨x, r⟩, finish, hr⟩ := Option.map_eq_some_iff.mp collect
    simp only at hr
    obtain ⟨status, rfl⟩ := reported (List.Subset.refl es) (List.mem_of_getElem? finish)
    obtain ⟨hlt', found⟩ := List.getElem?_eq_some_iff.mp finish
    have submit := List.prefix_iff_getElem?.mp finished k (by simpa using hlt')
    rw [List.getElem_map, found] at submit
    exact ⟨x, status, submit, finish, hr.symm⟩
  · rintro ds op rest rfl
    obtain ⟨collected, submitted⟩ := submit_after_collection run
    rw [submitted, ← collected, List.length_map, List.length_map]
  · rintro ds rest rfl
    obtain ⟨x, r, collected, submitted, last, next⟩ := unlock_then_collected run
    obtain ⟨status, rfl⟩ := reported (List.subset_append_left ds _) (List.mem_of_getLast? last)
    have length := congrArg List.length collected
    simp only [List.length_map, List.length_append, List.length_singleton] at length
    refine ⟨x, status, ?_, ?_, last, next⟩
    · rw [submitted, List.getLast?_map, last, Option.map_some]
    · rw [submitted, List.length_map, length]

/-- A guard in state pending is the last that was entered. The OVERLAPPED holds the final
status of the submission with its number, and that is what its poll reports. -/
def GuardReads (es : List (Event Op Internal)) (o : Owner) : Prop :=
  ∀ call, o.pc = .guarded call .pending → ∃ k op status,
    (collections es).length = k + 1 ∧ (submissions es)[k]? = some op ∧
      (finishes es)[k]? = some (op, Internal.final op status) ∧
      o.header.value.raw.internal = .final op status ∧
      ∀ duplicate o' e, o.collect duplicate = some (o', e) → o.Reports call duplicate status o'

theorem InOrder.guard_reads {es : List (Event Op Internal)} {taken : List Internal} {o : Owner}
    (inOrder : InOrder es)
    (held : collections es = taken ++ o.waiting fun r => [r]) : GuardReads es o := by
  intro call pc
  rw [Owner.waiting, pc] at held
  have last : (collections es)[taken.length]? = some o.header.value.raw.internal := by
    rw [held, List.getElem?_concat_length]
  obtain ⟨op, status, submitted, finished, final⟩ := inOrder.paired taken.length _ last
  refine ⟨taken.length, op, status, by rw [held]; simp, submitted, finished, final, ?_⟩
  exact fun duplicate o' e collect => Owner.collect_reports pc collect final

/-- Results are collected in order on every handle used under one code and on
every socket, when no weak exchange fails on a match: a poll that holds a guard in
state pending reports the status that its guard was entered on. Before `poll` has
taken a shutdown message or another posted one every poll is granted its permit. -/
theorem results_collected_in_order {i : Nat} {c : Code} {loops : List Loop} {as : List Action}
    {w : World} (run : Run next (fun w a => a.exact ∧ w.oneCode i c a) (start loops) as w) :
    InOrder (observe next (mail i) (start loops) as) ∧
      (∀ o, w.owners[i]? = some o → GuardReads (observe next (mail i) (start loops) as) o) ∧
      (w.tally.shutdowns = 0 → w.tally.posts = 0 → w.Grants) := by
  have steady : ∀ (w : World) (a : Action), a.exact ∧ w.oneCode i c a → w.steady i a = true :=
    fun w a h => steady_of_exact i h.1
  obtain ⟨m, mailbox, -⟩ := run_mailbox steady (fun w a h => h.2) run
  have inOrder : InOrder (observe next (mail i) (start loops) as) := by
    refine inOrder_of_run mailbox fun x r member => ?_
    obtain ⟨w, a, seen⟩ := mem_observe member
    exact finish_final seen
  refine ⟨inOrder, fun o owner => ?_, ?_⟩
  · have taken : (collections (observe next (mail i) (start loops) as)).flatMap (fun r => [r]) =
        _ ++ w.waitingAt (fun r => [r]) i := run_taken steady (fun w a h => h.2) run
    rw [List.flatMap_singleton', waitingAt, owner] at taken
    exact inOrder.guard_reads taken
  · intro shutdowns posts
    apply grants_of_nonneg
    rw [pending_before ⟨as, run⟩ posts shutdowns]
    omega

/-- A read is collected by the poll begun after its unlock. -/
theorem results_collected_in_order_read :
    ∃ as w o, Run next (fun w a => a.exact ∧ w.oneCode 0 .read a) setup as w ∧
      w.owners[0]? = some o ∧ o.pc = .guarded (.pollRead 8) .pending ∧
      InOrder (observe next (mail 0) setup as) ∧ GuardReads (observe next (mail 0) setup as) o ∧
      w.Grants := by
  obtain ⟨w, run, state⟩ := exec_ended next (fun w a => a.exact ∧ w.oneCode 0 .read a) setup
    collectedRead (fun w => (w.owners[0]?.map (·.pc), w.tally.shutdowns, w.tally.posts))
    (some (.guarded (.pollRead 8) .pending), 0, 0) (by decide)
  simp only [Prod.mk.injEq, Option.map_eq_some_iff] at state
  obtain ⟨⟨o, owner, pc⟩, shutdowns, posts⟩ := state
  obtain ⟨inOrder, reads, grants⟩ := results_collected_in_order run
  exact ⟨collectedRead, w, o, run, owner, pc, inOrder, reads o owner, grants shutdowns posts⟩

/-- A poll of the read has begun when its completion is unlocked, and goes on. -/
def unlockedMidPoll : List Action :=
  Schedule.pendingRead ++ [.complete 0 (.success 4 [1, 2, 3, 4]), .task 0 (.poll (.pollRead 8) 1),
    .task 0 .registerWaker] ++ Schedule.drive 0 true ++ [.task 0 (.lock false), .task 0 .storeOpen]

/-- The poll that collects a result need not have begun after its unlock. -/
theorem collected_by_running_poll :
    ¬ ∀ as w, Run next (fun w a => a.exact ∧ w.oneCode 0 .read a) setup as w →
      ∀ ds visits r rest,
        observe next (mail 0) setup as = ds ++ .unlock :: (visits ++ .collect r :: rest) →
        .visit ∈ visits := by
  intro always
  let op : Op := ⟨0, 0, .read, .readFile 0 8, 0⟩
  let r : Internal := .final op (.success 4 [1, 2, 3, 4])
  obtain ⟨w, run, seen⟩ :=
    exec_seen (fun w a => a.exact ∧ w.oneCode 0 .read a) setup unlockedMidPoll (mail 0)
      (fun _ es => es)
      [.visit, .knock, .submit op, .finish op r, .visit, .unlock, .knock, .collect r] (by decide)
  have visit := always unlockedMidPoll w run [.visit, .knock, .submit op, .finish op r, .visit]
    [.knock] r [] seen
  simp at visit

end World

end Iocp
