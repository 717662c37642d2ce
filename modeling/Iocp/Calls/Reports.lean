import Iocp.Calls.Blank
import Iocp.Calls.Refinement
import Iocp.Port.Shares

/-!
# The two ways in which an error is reported

`ReadFile` returns an error at once, and `handle_io_pending` passes it on, or it
answers that I/O is pending, and `handle_result` finds the error when the packet
is collected. Only the second takes the end of a file for a read of no bytes.
-/

namespace Iocp

open Totals Transition

/-- What is told of a status: what a success transferred, or the error. -/
def Final.told : Final → Except Nat (Nat × List UInt8)
  | .success transferred data => .ok (transferred, data)
  | .failure code _ _ => .error code

/-- A caller learns no more of a status than what is told of it. -/
theorem Final.result_told {status status' : Final} (told : status.told = status'.told) :
    status.result = status'.result := by
  cases status <;> cases status' <;> cases told <;> rfl

/-- The bytes that are reported of two statuses of which the same is told are the same. -/
theorem Final.taken_told {status status' : Final} {n : Nat} (told : status.told = status'.told)
    (whole : status.data.length = status.transferred) (found : status.result = .ok n) :
    n ≤ status.data.length ∧ n ≤ status'.data.length ∧
      status.data.take n = status'.data.take n := by
  cases status with
  | success transferred data =>
      cases status' with
      | failure code transferred' data' => cases told
      | success transferred' data' =>
          cases told
          cases found
          exact ⟨whole.ge, whole.ge, rfl⟩
  | failure code transferred data =>
      obtain rfl : n = 0 := by
        simp only [result] at found
        split at found
        · exact (Except.ok.inj found).symm
        · split at found
          · exact (Except.ok.inj found).symm
          · cases found
      exact ⟨Nat.zero_le _, Nat.zero_le _, rfl⟩

/-- A call that is driven to completion, with the grant of the allocator and the
report of the operating system, if the call gets as far as its system call. -/
structure Drive where
  call : Call
  extra : Nat
  report : Option (Final × Bool)
  deriving DecidableEq

namespace Drive

/-- What is seen of a call that is driven to completion. -/
def acts (d : Drive) (result : PollResult) : List SerialAct :=
  match d.report with
  | none => [.ask d.call d.extra, .answer result]
  | some (status, true) => [.ask d.call d.extra, .report status true, .answer result]
  | some (status, false) =>
      [.ask d.call d.extra, .report status false, .collect d.call, .answer result]

/-- What is seen of calls that are driven to completion one after the other. -/
def served (ds : List (Drive × PollResult)) : List SerialAct := ds.flatMap fun d => d.1.acts d.2

theorem served_cons (x : Drive × PollResult) (xs : List (Drive × PollResult)) :
    served (x :: xs) = x.1.acts x.2 ++ served xs :=
  List.flatMap_cons

/-- The same call with the same status, which may be reported in another way. -/
structure Alike (d d' : Drive) : Prop where
  call : d.call = d'.call
  extra : d.extra = d'.extra
  status : d.report.map (·.1.told) = d'.report.map (·.1.told)

/-- The system call itself returns the end of the file or of the pipe. -/
def endsAtOnce (d : Drive) : Bool :=
  match d.report with
  | some (.failure code _ _, direct) =>
      direct && (code = Win32.errorHandleEof || code = Win32.errorBrokenPipe)
  | _ => false

end Drive

/-- Without a socket in its pool no call fails to collect. -/
theorem Call.collect_new (call : Call) (transferred : Nat) (pool : BufferPool) (e : IoError) :
    (call.collect transferred none pool .new).2.2 ≠ .error e := by
  have read (room : Nat) : (collectRead room transferred pool).2 ≠ .error e := by
    simp only [collectRead]
    split
    · simp
    · split <;> simp
  cases call with
  | pollRead room => exact read room
  | read len => exact read len
  | accept => simp [collect, collectAccept, SocketPool.release, SocketPool.new]
  | _ => simp [collect]

namespace Serial

variable {s t t' : Serial} {d d' : Drive} {r r' : PollResult}

/-- The machine after the report, before the answer. -/
def reported (s : Serial) (d : Drive) : Option Serial :=
  match d.report, s.serving with
  | none, _ => some s
  | some (.failure code _ _, true), .asked _ =>
      some { s with serving := .done (.failed (.os code)) }
  | some (status, false), .asked request =>
      if request.admits status then some ((s.finish request status).collect d.call status)
      else none
  | _, _ => none

/-- A call that is driven to completion. -/
theorem drive_run (run : Run step anyStep s (d.acts r) t) :
    s.serving = .free ∧ ∃ u, (s.ask d.call d.extra).reported d = some u ∧ u.serving = .done r ∧
      u.rest = t := by
  simp only [Drive.acts] at run
  split at run
  case h_1 none =>
      obtain ⟨u, -, asks, run⟩ := run.uncons
      obtain ⟨free, rfl⟩ := ask_eq_some.mp asks
      exact ⟨free, _, by simp [reported, none], answer_eq_some.mp run.one⟩
  case h_2 status direct =>
      obtain ⟨u, -, asks, run⟩ := run.uncons
      obtain ⟨free, rfl⟩ := ask_eq_some.mp asks
      obtain ⟨v, -, reports, run⟩ := run.uncons
      obtain ⟨request, code, transferred, data, asked, rfl, rfl⟩ := report_direct.mp reports
      exact ⟨free, _, by simp [reported, direct, asked], answer_eq_some.mp run.one⟩
  case h_3 status packet =>
      obtain ⟨u, -, asks, run⟩ := run.uncons
      obtain ⟨free, rfl⟩ := ask_eq_some.mp asks
      obtain ⟨v, -, reports, run⟩ := run.uncons
      obtain ⟨request, asked, admits, rfl⟩ := report_packet.mp reports
      obtain ⟨x, -, collects, run⟩ := run.uncons
      obtain ⟨status', ended, rfl⟩ := collect_eq_some.mp collects
      cases ended
      exact ⟨free, _, by cases status <;> simp [reported, packet, asked, admits],
        answer_eq_some.mp run.one⟩

/-- Two machines that differ in the bytes of their pools only. -/
structure Alike (s t : Serial) : Prop where
  cursor : s.cursor = t.cursor
  pool : s.pool.blank = t.pool.blank
  serving : s.serving = t.serving

theorem Alike.ask (alike : s.Alike t) (call : Call) (extra : Nat) :
    (s.ask call extra).Alike (t.ask call extra) := by
  obtain ⟨pool, prepared⟩ := call.prepare_alike (p := s.pool.clear) (q := t.pool.clear)
    (by rw [BufferPool.blank_clear, BufferPool.blank_clear, alike.pool]) extra 0
  exact ⟨alike.cursor, pool, by simp only [Serial.ask, prepared]⟩

theorem Alike.rest (alike : s.Alike t) : s.rest.Alike t.rest where
  cursor := alike.cursor
  pool := by simp only [Serial.rest, BufferPool.blank_clear, alike.pool]
  serving := rfl

section Asked

variable {call : Call} {extra : Nat} {request : Request} {status : Final}

/-- A request that was asked for is one that the call prepared. -/
theorem ask_prepared (asked : (s.ask call extra).serving = .asked request) :
    (call.prepare extra (.error 0) s.pool.clear .new).2.2 = .request request := by
  simp only [ask] at asked
  split at asked
  case h_1 made =>
      cases asked
      exact made
  case h_2 => cases asked
  case h_3 => cases asked

/-- A read that was asked for is lent the first slot. -/
theorem ask_lent (asked : (s.ask call extra).serving = .asked request) (read : call.code = .read) :
    request.slot = some 0 ∧ (s.ask call extra).pool.Lent request.len := by
  have made := ask_prepared asked
  rcases Call.read_cases read with ⟨len, rfl⟩ | ⟨len, rfl⟩
  all_goals exact Call.prepareRead_lent rfl rfl (Prod.ext rfl made)

/-- What ends a read is found in the pool. -/
theorem ask_filled (asked : (s.ask call extra).serving = .asked request)
    (read : call.code = .read) :
    ((s.ask call extra).finish request status).pool.Filled status.data := by
  obtain ⟨slot, lent⟩ := ask_lent asked read
  simp only [finish, slot]
  exact lent.fill status.data

/-- The bytes that a request admits fit into the slot that was lent to it. -/
theorem ask_fits (asked : (s.ask call extra).serving = .asked request)
    (admits : request.admits status = true) :
    ((s.ask call extra).finish request status).pool.blank = (s.ask call extra).pool.blank := by
  have code := Call.prepare_code (ask_prepared asked)
  by_cases read : call.code = .read
  · obtain ⟨slot, lent⟩ := ask_lent asked read
    obtain ⟨b, found, large⟩ := lent.room
    obtain ⟨place, len, rfl⟩ := Request.code_read (code.trans read)
    have stored := Request.admits_read admits
    have within := Request.admits_le admits
    simp only [finish, slot]
    refine BufferPool.blank_fill fun b' found' => ?_
    obtain rfl : b = b' := Option.some.inj (found.symm.trans found')
    exact stored.le.trans (within.trans large)
  · have empty : status.data = [] := by
      cases request with
      | readFile place len => exact absurd code.symm read
      | acceptEx socket place len localLen remoteLen =>
          cases call with
          | accept => cases asked
          | _ => cases code
      | _ =>
          simp only [Request.admits, Bool.and_eq_true, List.isEmpty_iff] at admits
          exact admits.2
    simp only [finish, empty]
    split
    · exact BufferPool.blank_fill fun b _ => Nat.zero_le _
    · rfl

/-- Reports of which the same is told, collected by machines that asked for the same, leave
the same but for the bytes of the pools. -/
theorem ask_collect {status' : Final} (alike : (s.ask call extra).Alike (t.ask call extra))
    (asked : (s.ask call extra).serving = .asked request) (told : status.told = status'.told)
    (admits : request.admits status = true) (admits' : request.admits status' = true) :
    (((s.ask call extra).finish request status).collect call status).Alike
      (((t.ask call extra).finish request status').collect call status') := by
  have asked' := alike.serving.symm.trans asked
  have pools : ((s.ask call extra).finish request status).pool.blank =
      ((t.ask call extra).finish request status').pool.blank := by
    rw [ask_fits asked admits, ask_fits asked' admits', alike.pool]
  have cursor : ((s.ask call extra).finish request status).cursor =
      ((t.ask call extra).finish request status').cursor := alike.cursor
  have released (n : Nat) (found : status.result = .ok n) (read : call.code = .read) :
      (((s.ask call extra).finish request status).pool.release n).2 =
        (((t.ask call extra).finish request status').pool.release n).2 := by
    obtain ⟨place, len, rfl⟩ :=
      Request.code_read ((Call.prepare_code (ask_prepared asked)).trans read)
    obtain ⟨within, within', same⟩ := Final.taken_told told (Request.admits_read admits) found
    rw [(ask_filled asked read).release_first within,
      (ask_filled asked' read).release_first within', same]
  generalize (s.ask call extra).finish request status = u at pools cursor released
  generalize (t.ask call extra).finish request status' = u' at pools cursor released
  have result := Final.result_told told
  simp only [collect]
  rw [← result]
  cases found : status.result with
  | error e => exact ⟨cursor, pools, rfl⟩
  | ok n =>
      obtain ⟨left, made⟩ := Call.collect_alike pools (released n found) none .new
      simp only [← made]
      cases (call.collect n none u.pool .new).2.2 with
      | error e => exact ⟨cursor, left, rfl⟩
      | panic => exact ⟨cursor, left, rfl⟩
      | output value outcome =>
          simp only [← cursor]
          cases outcome.move u.cursor with
          | none => exact ⟨rfl, left, rfl⟩
          | some c => exact ⟨rfl, left, rfl⟩

/-- A packet with an error that is no end leaves what the error leaves that is returned at
once, but for the bytes of the pools. -/
theorem collect_failure {code transferred : Nat} {data : List UInt8}
    (asked : (s.ask call extra).serving = .asked request)
    (admits : request.admits (.failure code transferred data) = true)
    (other : ¬ (code = Win32.errorHandleEof ∨ code = Win32.errorBrokenPipe)) :
    (((s.ask call extra).finish request (.failure code transferred data)).collect call
        (.failure code transferred data)).Alike
      { s.ask call extra with serving := .done (.failed (.os code)) } := by
  have result : (Final.failure code transferred data).result = .error (.os code) := by
    simp only [not_or] at other
    simp [Final.result, other.1, other.2]
  have fits := ask_fits asked admits
  have cursor : ((s.ask call extra).finish request (.failure code transferred data)).cursor =
      (s.ask call extra).cursor := rfl
  generalize (s.ask call extra).finish request (.failure code transferred data) = u at fits cursor
  simp only [collect, result]
  exact ⟨cursor, fits, rfl⟩

end Asked

/-- A packet with an end of the file or of the pipe is no error. -/
theorem collect_end {request : Request} {call : Call} {code transferred : Nat} {data : List UInt8}
    (ends : code = Win32.errorHandleEof ∨ code = Win32.errorBrokenPipe) (e : IoError) :
    ((s.finish request (.failure code transferred data)).collect call
      (.failure code transferred data)).serving ≠ .done (.failed e) := by
  have result : (Final.failure code transferred data).result = .ok 0 := by
    rcases ends with rfl | rfl <;> simp [Final.result]
  have collected :=
    call.collect_new 0 (s.finish request (.failure code transferred data)).pool
  simp only [collect, result]
  split
  case h_1 e' failed => exact absurd failed (collected e')
  case h_2 => simp
  case h_3 => split <;> simp

theorem Alike.symm (alike : s.Alike t) : t.Alike s :=
  ⟨alike.cursor.symm, alike.pool.symm, alike.serving.symm⟩

theorem Alike.trans {u : Serial} (first : s.Alike t) (second : t.Alike u) : s.Alike u :=
  ⟨first.cursor.trans second.cursor, first.pool.trans second.pool,
    first.serving.trans second.serving⟩

/-- Of a call that got a report, what was asked and how it was reported. -/
theorem reported_cases {u : Serial} {status : Final} {direct : Bool}
    (report : d.report = some (status, direct)) (h : s.reported d = some u) :
    ∃ request, s.serving = .asked request ∧
      ((direct = true ∧ ∃ code transferred data, status = .failure code transferred data ∧
          u = { s with serving := .done (.failed (.os code)) }) ∨
        (direct = false ∧ request.admits status = true ∧
          u = (s.finish request status).collect d.call status)) := by
  simp only [reported, report] at h
  split at h
  case h_1 same => cases same
  case h_2 code transferred data request same asked =>
      cases same
      exact ⟨request, asked, .inl ⟨rfl, code, transferred, data, rfl, (Option.some.inj h).symm⟩⟩
  case h_3 request same asked =>
      cases same
      obtain ⟨admits, h⟩ := Option.ite_none_right_eq_some.mp h
      exact ⟨request, asked, .inr ⟨rfl, admits, (Option.some.inj h).symm⟩⟩
  case h_4 => cases h

/-- What is told of two alike calls that both got a report. -/
theorem told_alike (alike : d.Alike d') {status : Final} {direct : Bool}
    (report : d.report = some (status, direct)) :
    ∃ status' direct', d'.report = some (status', direct') ∧ status.told = status'.told := by
  have told := alike.status
  rw [report] at told
  obtain ⟨⟨status', direct'⟩, report', same⟩ := Option.map_eq_some_iff.mp told.symm
  exact ⟨status', direct', report', same.symm⟩

/-- Machines that asked for the same call and got reports of which the same is told: they
stand alike, but for an end that is returned at once to one of them. -/
theorem reported_alike {u u' : Serial} (asks : (s.ask d.call d.extra).Alike (t.ask d.call d.extra))
    (alike : d.Alike d') (h : (s.ask d.call d.extra).reported d = some u)
    (h' : (t.ask d.call d.extra).reported d' = some u') :
    (d.endsAtOnce = d'.endsAtOnce → u.Alike u') ∧
      (d.endsAtOnce ≠ d'.endsAtOnce → u.serving ≠ u'.serving) := by
  cases report : d.report with
  | none =>
      have report' : d'.report = none := by simpa [report] using alike.status.symm
      simp only [reported, report, report', Option.some.injEq] at h h'
      subst h h'
      exact ⟨fun _ => asks, fun differ => by simp [Drive.endsAtOnce, report, report'] at differ⟩
  | some r =>
      obtain ⟨status, direct⟩ := r
      obtain ⟨status', direct', report', told⟩ := told_alike alike report
      obtain ⟨request, asked, way⟩ := reported_cases report h
      obtain ⟨request', asked', way'⟩ := reported_cases report' h'
      obtain rfl : request = request' :=
        Serving.asked.inj (asked.symm.trans (asks.serving.trans asked'))
      simp only [Drive.endsAtOnce, report, report']
      rw [← alike.call] at way'
      rcases way with ⟨rfl, code, n, data, rfl, rfl⟩ | ⟨rfl, admits, rfl⟩ <;>
        rcases way' with ⟨rfl, code', n', data', rfl, rfl⟩ | ⟨rfl, admits', rfl⟩
      · cases told
        exact ⟨fun _ => ⟨asks.cursor, asks.pool, rfl⟩, fun differ => absurd rfl differ⟩
      · obtain ⟨n', data', rfl⟩ : ∃ n' data', status' = .failure code n' data' := by
          cases status' <;> cases told
          exact ⟨_, _, rfl⟩
        refine ⟨fun same => ?_, fun differ same => ?_⟩
        · refine .trans ?_ (collect_failure asked' admits' (by simpa using same)).symm
          exact ⟨asks.cursor, asks.pool, rfl⟩
        · exact collect_end (by simpa [or_iff_not_imp_left] using differ) _ same.symm
      · obtain ⟨n', data', rfl⟩ : ∃ n data, status = .failure code' n data := by
          cases status <;> cases told
          exact ⟨_, _, rfl⟩
        refine ⟨fun same => ?_, fun differ => ?_⟩
        · refine (collect_failure asked admits (by simpa using same.symm)).trans ?_
          exact ⟨asks.cursor, asks.pool, rfl⟩
        · exact collect_end (by simpa [or_iff_not_imp_left] using differ) _
      · have ended : status.told = status'.told := told
        refine ⟨fun _ => ask_collect asks asked told admits admits', fun differ => ?_⟩
        cases status <;> cases status' <;> cases ended <;> simp at differ

/-- Two calls that are driven to completion by machines that stand alike. -/
theorem drives_agree {s' : Serial} (stand : s.Alike s') (alike : d.Alike d')
    (run : Run step anyStep s (d.acts r) t) (run' : Run step anyStep s' (d'.acts r') t') :
    (d.endsAtOnce = d'.endsAtOnce → r = r' ∧ t.Alike t') ∧
      (r = r' → d.endsAtOnce = d'.endsAtOnce) := by
  obtain ⟨-, u, reports, answers, rfl⟩ := drive_run run
  obtain ⟨-, u', reports', answers', rfl⟩ := drive_run run'
  rw [← alike.call, ← alike.extra] at reports'
  obtain ⟨agree, differ⟩ := reported_alike (stand.ask d.call d.extra) alike reports reports'
  constructor
  · intro same
    have ends := agree same
    exact ⟨Serving.done.inj (answers.symm.trans (ends.serving.trans answers')), ends.rest⟩
  · intro same
    by_contra ends
    exact differ ends (by rw [answers, answers', same])

/-- Calls that are driven to completion one after the other leave a free machine. -/
theorem served_free {xs : List (Drive × PollResult)} (free : s.serving = .free)
    (run : Run step anyStep s (Drive.served xs) t) : t.serving = .free := by
  induction xs generalizing s with
  | nil => exact (run.state_unique (.nil : Run step anyStep s [] s)) ▸ free
  | cons x xs ih =>
      rw [Drive.served_cons] at run
      obtain ⟨u, first, later⟩ := Run.split run
      obtain ⟨-, v, -, -, rfl⟩ := drive_run first
      exact ih rfl later

/-- Sequences of calls whose reports differ only in their way give the same results
exactly if no end that is returned at once in one of them is in the other not. They
then leave machines that stand alike. -/
theorem served_agree {s' : Serial} {xs ys : List (Drive × PollResult)} (stand : s.Alike s')
    (alike : List.Forall₂ (fun x y => x.1.Alike y.1) xs ys)
    (run : Run step anyStep s (Drive.served xs) t)
    (run' : Run step anyStep s' (Drive.served ys) t') :
    (List.Forall₂ (fun x y => x.1.endsAtOnce = y.1.endsAtOnce) xs ys →
        xs.map Prod.snd = ys.map Prod.snd ∧ t.Alike t') ∧
      (xs.map Prod.snd = ys.map Prod.snd →
        List.Forall₂ (fun x y => x.1.endsAtOnce = y.1.endsAtOnce) xs ys) := by
  induction alike generalizing s s' with
  | nil =>
      have still : s = t := run.state_unique (.nil : Run step anyStep s [] s) ▸ rfl
      have still' : s' = t' := run'.state_unique (.nil : Run step anyStep s' [] s') ▸ rfl
      exact ⟨fun _ => ⟨rfl, still ▸ still' ▸ stand⟩, fun _ => .nil⟩
  | @cons x y xs ys both alike ih =>
      rw [Drive.served_cons] at run run'
      obtain ⟨u, first, later⟩ := Run.split run
      obtain ⟨u', first', later'⟩ := Run.split run'
      obtain ⟨agree, result⟩ := drives_agree stand both first first'
      constructor
      · intro ends
        obtain ⟨same, ends⟩ := List.forall₂_cons.mp ends
        obtain ⟨head, stand⟩ := agree same
        obtain ⟨results, last⟩ := (ih stand later later').1 ends
        exact ⟨by rw [List.map_cons, List.map_cons, head, results], last⟩
      · intro results
        obtain ⟨head, results⟩ := List.cons_eq_cons.mp results
        have same := result head
        exact .cons same ((ih (agree same).2 later later').2 results)

end Serial

/-- An operation whose packet no poll has returned was not processed. -/
theorem Stage.live_of_awaits {stage : Stage} (awaits : stage.awaits = true) :
    stage.live = true := by
  cases stage <;> first | rfl | cases awaits

namespace World

variable {loops : List Loop} {w v v' : World} {i : Nat} {o p p' : Owner}
  {xs ys : List (Drive × PollResult)}

/-- From `w` on the handle is used for reads only, each driven to completion before
the next, and it is `p` when the last has returned. -/
structure Reads (w : World) (i : Nat) (xs : List (Drive × PollResult)) (v : World) (p : Owner) :
    Prop where
  run : ∃ as, Run next (fun w a => w.servesOnly i .read a) w as v ∧
    observe next (serve i) w as = Drive.served xs
  owner : v.owners[i]? = some p
  returned : p.pc = .out

/-- Reads that were driven to completion leave a handle at rest, in the state of the
serial machine. -/
theorem Reads.rests (reads : w.Reads i xs v p) (reach : Reached anyStep (start loops) w)
    (rests : w.Rests i o) :
    ∃ s, Run Serial.step anyStep o.serial (Drive.served xs) s ∧
      p.header.value.raw.cursor = s.cursor ∧ p.pool = s.pool ∧ p.lockWord = 0 ∧
      (Link.mk p (v.tokensOf i)).live = 0 := by
  obtain ⟨as, run, seen⟩ := reads.run
  obtain ⟨s, q, m, ran, -, owner, tracks, cursor, stands⟩ :=
    serial_run (c := .read) (by decide) reach rests run
  obtain rfl : q = p := Option.some.inj (owner.symm.trans reads.owner)
  rw [seen] at ran
  have outside : q.pc.outside = true := by rw [reads.returned]; rfl
  have free := Serial.served_free rfl ran
  generalize s.serving = serving at free stands
  cases stands with
  | out landed _ word kept _ =>
      exact ⟨s, ran, cursor, kept, word, tracks.quiet outside word⟩
  | idle _ pc =>
      rw [reads.returned] at pc
      cases pc
  | _ => cases free

/-- A handle at rest adds nothing to the pending counter. -/
theorem Reads.pending (reads : w.Reads i xs v p) (reach : Reached anyStep (start loops) w)
    (quiet : (Link.mk p (v.tokensOf i)).live = 0) : v.pending = isize (v.elsewhere i) := by
  obtain ⟨as, run, -⟩ := reads.run
  have balanced := reached_balanced (reach.trans ⟨as, run.anyStep⟩)
  have none : v.awaitingOf i = 0 := by
    rw [awaitingOf, Multiset.countP_eq_zero]
    intro t member awaits
    have live := Stage.live_of_awaits awaits
    rw [Link.not_live quiet member] at live
    cases live
  rw [pending_shares balanced reads.owner, none, reads.returned]
  simp [Pc.permits, Pc.failing]

/-- A schedule in which every read is driven to completion. -/
theorem exec_reads (w : World) (i : Nat) (xs : List (Drive × PollResult)) (as : List Action)
    (h : (exec next (fun w a => w.servesOnly i .read a) w as).map (fun v =>
      (observe next (serve i) w as, v.owners[i]?.map (·.pc))) = some (Drive.served xs, some .out)) :
    ∃ v p, w.Reads i xs v p := by
  obtain ⟨v, ran, state⟩ := Option.map_eq_some_iff.mp h
  obtain ⟨seen, returned⟩ := Prod.mk.inj state
  obtain ⟨p, owner, out⟩ := Option.map_eq_some_iff.mp returned
  exact ⟨v, p, ⟨as, exec_run ran, seen⟩, owner, out⟩

/-- A handle that was just registered. -/
def registered (maxBufferSize : Nat) : World :=
  { setup with owners := [.new .handle 0 maxBufferSize] }

theorem registered_reached (maxBufferSize : Nat) :
    Reached anyStep setup (registered maxBufferSize) :=
  ⟨_, Run.single (a := .create .handle ⟨0, maxBufferSize⟩) trivial rfl⟩

theorem registered_rests (maxBufferSize : Nat) :
    (registered maxBufferSize).Rests 0 (.new .handle 0 maxBufferSize) :=
  ⟨rfl, rfl, rfl, rfl, rfl⟩

/-- A read whose system call returns an error. -/
def directRead (code : Nat) : List Action :=
  Schedule.enter 0 (.read 8) 1 ++ [.task 0 (.prepare 0 (.ok 0)), .task 0 (.submit (some code)),
    .task 0 .dropOverlapped, .task 0 .dropGuard, .task 0 .dropPermit]

/-- A read that is completed and collected. -/
def completedRead (status : Final) : List Action :=
  Schedule.submitted 0 (.read 8) 1 ++ [.complete 0 status] ++ Schedule.drive 0 true ++
    Schedule.resume 0 (.read 8) 1

end World

end Iocp
