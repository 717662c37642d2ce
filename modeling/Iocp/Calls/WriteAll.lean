import Iocp.Calls.Reports
import Iocp.Pool.Capacity

/-!
# Writing a slice that is larger than the buffer

`take` clamps its size to the maximum of the pool and `write_overlapped` clamps the
length to a DWORD, but between them `put_slice` copies the whole slice. A slice that
is no longer than the maximum goes through, also when the operating system takes it
in pieces and the caller submits what is left.
-/

namespace Iocp

open Totals Transition

namespace Call

/-- The slice of a write. -/
def payload : Call → Option (List UInt8)
  | pollWrite buf => some buf
  | write buf => some buf
  | _ => none

/-- Both ways to write prepare the slice alike. -/
theorem prepare_payload {call : Call} {bytes : List UInt8} (payload : call.payload = some bytes)
    (extra : Nat) (newSocket : Except Nat Nat) (pool : BufferPool) (sockets : SocketPool) :
    call.prepare extra newSocket pool sockets =
      ((prepareWrite bytes extra pool).1, sockets, (prepareWrite bytes extra pool).2) := by
  cases call with
  | pollWrite buf | write buf =>
      cases payload
      rfl
  | _ => cases payload

/-- A write from a roomy pool submits its slice, up to a DWORD, exactly if the slice is no
longer than the maximum of the pool, and panics otherwise. -/
theorem prepareWrite_roomy {pool : BufferPool} {bytes : List UInt8}
    (roomy : pool.Roomy bytes.length) (taken : pool.taken = 0) (extra : Nat) :
    ∃ q, prepareWrite bytes extra pool =
        (q, if bytes.length ≤ pool.maxBufferSize
          then .request (.writeFile 0 (bytes.take Win32.dwordMax)) else .panic) ∧
      q.maxBufferSize = pool.maxBufferSize ∧
      (bytes.length ≤ pool.maxBufferSize → q.Roomy bytes.length) := by
  obtain ⟨q, put, size, left⟩ := roomy.takeAndPut taken extra
  refine ⟨q, ?_, size, left⟩
  by_cases short : bytes.length ≤ pool.maxBufferSize
  · rw [if_pos short] at put ⊢
    rw [prepareWrite, put]
  · rw [if_neg short] at put ⊢
    rw [prepareWrite, put]

/-- A write collects what was transferred. -/
theorem collect_payload {call : Call} {bytes : List UInt8} (payload : call.payload = some bytes)
    (transferred : Nat) (pool : BufferPool) :
    ∃ outcome, call.collect transferred none pool .new =
        (pool, .new, .output (.count transferred) outcome) ∧
      (outcome = .none ∨ outcome = .advance transferred) := by
  cases call with
  | pollWrite buf => exact ⟨_, rfl, .inr rfl⟩
  | write buf => exact ⟨_, rfl, .inl rfl⟩
  | _ => cases payload

end Call

/-- The beginning of a slice that fits into a buffer and into a DWORD. -/
def submitted (maxBufferSize : Nat) (bytes : List UInt8) : List UInt8 :=
  bytes.take (min bytes.length (min maxBufferSize Win32.dwordMax))

/-- Only the DWORD clamps a slice that is no longer than the maximum. -/
theorem submitted_short {maxBufferSize : Nat} {bytes : List UInt8}
    (short : bytes.length ≤ maxBufferSize) :
    submitted maxBufferSize bytes = bytes.take Win32.dwordMax := by
  rw [submitted, List.take_eq_take_iff]
  omega

/-- The number of bytes that a write answers. -/
def PollResult.written : PollResult → Nat
  | .ready (.count n) => n
  | _ => 0

namespace Drive

/-- What is left of a slice after some writes. -/
def unwritten (bytes : List UInt8) : List (Drive × PollResult) → List UInt8
  | [] => bytes
  | x :: xs => unwritten (bytes.drop x.2.written) xs

/-- The operating system takes at least one and at most all of the submitted bytes. -/
def Transfers (d : Drive) (submitted : List UInt8) : Prop :=
  ∀ report, d.report = some report →
    ∃ n, report = (.success n [], false) ∧ 1 ≤ n ∧ n ≤ submitted.length

/-- A caller goes on with what is left of the slice until nothing is. -/
def Resubmits (maxBufferSize : Nat) : List UInt8 → List (Drive × PollResult) → Prop
  | _, [] => True
  | rest, x :: xs =>
      rest ≠ [] ∧ x.1.call.payload = some rest ∧ x.1.Transfers (submitted maxBufferSize rest) ∧
        Resubmits maxBufferSize (rest.drop x.2.written) xs

end Drive

namespace Serial

variable {s t : Serial} {d : Drive} {r : PollResult} {bytes : List UInt8}

/-- A free machine that can write slices of up to `n` bytes without a panic. -/
structure Writes (s : Serial) (n maxBufferSize : Nat) : Prop where
  roomy : s.pool.Roomy n
  size : s.pool.maxBufferSize = maxBufferSize
  short : n ≤ maxBufferSize
  cursor : s.cursor + n < 2 ^ 64

theorem ask_write {maxBufferSize : Nat} {call : Call} (writes : s.Writes bytes.length maxBufferSize)
    (payload : call.payload = some bytes) (extra : Nat) :
    ∃ q, s.ask call extra =
        { s with pool := q, serving := .asked (.writeFile 0 (bytes.take Win32.dwordMax)) } ∧
      q.maxBufferSize = maxBufferSize ∧ q.Roomy bytes.length := by
  have short : bytes.length ≤ s.pool.clear.maxBufferSize := writes.size ▸ writes.short
  have roomy : s.pool.clear.Roomy bytes.length := ⟨writes.roomy.first⟩
  obtain ⟨q, prepared, size, left⟩ := Call.prepareWrite_roomy roomy rfl extra
  rw [if_pos short] at prepared
  refine ⟨q, ?_, size.trans writes.size, left short⟩
  simp only [ask, Call.prepare_payload payload, prepared]

theorem finish_write (s : Serial) (bytes : List UInt8) (n : Nat) :
    s.finish (.writeFile 0 bytes) (.success n []) =
      ⟨s.cursor, s.pool.fill 0 [], .ended (.success n [])⟩ :=
  rfl

/-- A write that is collected answers what was transferred. -/
theorem collect_write {call : Call} (payload : call.payload = some bytes) (s : Serial) (n : Nat)
    (data : List UInt8) (small : s.cursor + n < 2 ^ 64) :
    ∃ cursor, s.collect call (.success n data) = ⟨cursor, s.pool, .done (.ready (.count n))⟩ ∧
      cursor ≤ s.cursor + n := by
  obtain ⟨outcome, collected, none | advance⟩ := Call.collect_payload payload n s.pool
  · subst none
    refine ⟨s.cursor, ?_, by omega⟩
    simp only [collect, Final.result, collected, OverlappedOutcome.move]
  · subst advance
    refine ⟨s.cursor + n, ?_, Nat.le_refl _⟩
    simp only [collect, Final.result, collected, OverlappedOutcome.move, if_pos small]

/-- Of a write that ends with a packet the transferred bytes are seen. -/
theorem observe_write {call : Call} {extra slot n : Nat} {q : BufferPool} (free : s.serving = .free)
    (asked : s.ask call extra = { s with pool := q, serving := .asked (.writeFile slot bytes) })
    (within : n ≤ bytes.length) (as : List SerialAct)
    (silent : ∀ a ∈ as, ∀ u : Serial, u.written a = []) :
    observe step written s (.ask call extra :: .report (.success n []) false :: as) =
      bytes.take n := by
  have admits : (Request.writeFile slot bytes).admits (.success n []) = true := by
    simp [Request.admits, Final.ended, Final.transferred, Request.len, Final.data, within]
  rw [observe, ask_eq_some.mpr ⟨free, asked⟩, Option.elim_some, observe,
    report_packet.mpr ⟨_, rfl, admits, rfl⟩, Option.elim_some, observe_nil silent]
  simp [written, Request.written, Final.transferred]

/-- A write that is driven to completion takes the beginning of its slice and leaves a
machine that can write the rest. -/
theorem write_drive {maxBufferSize : Nat} (writes : s.Writes bytes.length maxBufferSize)
    (payload : d.call.payload = some bytes)
    (transfers : d.Transfers (submitted maxBufferSize bytes))
    (run : Run step anyStep s (d.acts r) t) :
    ∃ n, 1 ≤ n ∧ n ≤ bytes.length ∧ r = .ready (.count n) ∧
      observe step written s (d.acts r) = bytes.take n ∧
      t.Writes (bytes.length - n) maxBufferSize := by
  obtain ⟨free, u, reports, answers, rfl⟩ := drive_run run
  obtain ⟨q, asked, size, roomy⟩ := ask_write writes payload d.extra
  rw [asked] at reports
  cases report : d.report with
  | none =>
      simp only [reported, report, Option.some.injEq] at reports
      subst reports
      cases answers
  | some way =>
      obtain ⟨n, rfl, some, all⟩ := transfers way report
      rw [submitted_short writes.short, List.length_take] at all
      have cursor := writes.cursor
      obtain ⟨request, same, ⟨direct, -⟩ | ⟨-, -, rfl⟩⟩ :=
        reported_cases report reports
      · cases direct
      cases same
      obtain ⟨position, collected, moved⟩ := collect_write payload
        ⟨s.cursor, q.fill 0 [], .ended (.success n [])⟩ n [] (by simp only; omega)
      simp only [finish_write, collected] at answers moved ⊢
      cases answers
      refine ⟨n, some, by omega, rfl, ?_, ?_⟩
      · rw [Drive.acts, report]
        refine (observe_write free asked (by rw [List.length_take]; exact all)
          [.collect d.call, .answer _] (by simp [written])).trans ?_
        rw [List.take_take, Nat.min_eq_left (by omega)]
      · obtain ⟨b, found, -⟩ := roomy.first
        have left := (roomy.fill [] found (Nat.zero_le _)).anti (Nat.sub_le _ n)
        have short := writes.short
        exact ⟨⟨left.first⟩, size, by omega, by simp only [rest]; omega⟩

/-- The caller of a loop of writes gets a count from each, and what was taken and what is
left are the slice. Each write takes a byte, so the loop ends. -/
theorem write_loop {maxBufferSize : Nat} {xs : List (Drive × PollResult)}
    (writes : s.Writes bytes.length maxBufferSize)
    (loop : Drive.Resubmits maxBufferSize bytes xs)
    (run : Run step anyStep s (Drive.served xs) t) :
    (∀ x ∈ xs, ∃ n, x.2 = .ready (.count n)) ∧
      observe step written s (Drive.served xs) ++ Drive.unwritten bytes xs = bytes ∧
      xs.length + (Drive.unwritten bytes xs).length ≤ bytes.length := by
  induction xs generalizing s bytes with
  | nil => exact ⟨by simp, rfl, by simp [Drive.unwritten]⟩
  | cons x xs ih =>
      obtain ⟨-, payload, transfers, loop⟩ := loop
      rw [Drive.served_cons] at run ⊢
      obtain ⟨u, first, later⟩ := Run.split run
      obtain ⟨n, some, all, result, taken, writes⟩ := write_drive writes payload transfers first
      have answered : x.2.written = n := by rw [result]; rfl
      rw [answered] at loop
      rw [← List.length_drop] at writes
      obtain ⟨counts, whole, ends⟩ := ih writes loop later
      rw [first.observe_append, taken, Drive.unwritten, answered, List.append_assoc, whole]
      rw [List.length_drop] at ends
      refine ⟨?_, List.take_append_drop n bytes, by rw [List.length_cons]; omega⟩
      intro y member
      rcases List.mem_cons.mp member with rfl | member
      · exact ⟨n, result⟩
      · exact counts y member

end Serial

namespace World

variable {w u v : World} {i maxBufferSize : Nat} {o : Owner} {call : Call} {bytes : List UInt8}

/-- Handle `i` is the last that was created, in the step before. -/
def JustRegistered (w : World) (i maxBufferSize : Nat) : Prop :=
  ∃ loops before key, Reached anyStep (start loops) before ∧ before.owners.length = i ∧
    before.next (.create .handle ⟨key, maxBufferSize⟩) = some w

/-- A handle that was just registered is at rest and has its first pool. -/
theorem JustRegistered.rests (registered : w.JustRegistered i maxBufferSize) :
    ∃ loops o, Reached anyStep (start loops) w ∧ w.Rests i o ∧
      o.pool = BufferPool.new maxBufferSize ∧ o.serial.cursor = 0 := by
  obtain ⟨loops, before, key, reach, rfl, creates⟩ := registered
  have stepped := next_stepped creates
  generalize made : Action.create .handle ⟨key, maxBufferSize⟩ = a at stepped
  cases stepped with
  | create reserved =>
      cases made
      have owner := List.getElem?_concat_length (l := before.owners)
        (a := .new .handle key maxBufferSize)
      have quiet := stepped_moves (reached_valid reach) (next_stepped creates) owner
      cases quiet with
      | created _ _ _ tokens =>
          refine ⟨loops, _, reach.snoc trivial creates, ⟨owner, rfl, rfl, rfl, ?_⟩, rfl,
            show Overlapped.zeroed.cursor = 0 by decide⟩
          rw [Link.live, tokens]
          rfl
      | still present => simp at present
      | moved present => simp at present
  | _ => cases made

/-- A write of the slice is the first call that gets the guard of the handle. -/
structure FirstWrite (w : World) (i : Nat) (bytes : List UInt8) (u : World) (o : Owner)
    (call : Call) : Prop where
  run : ∃ as, Run next (fun w a => w.servesOnly i .write a) w as u ∧
    observe next (serve i) w as = []
  owner : u.owners[i]? = some o
  pc : o.pc = .guarded call .idle
  payload : call.payload = some bytes

/-- The handle is used by one caller, that writes a slice and goes on with what is left. -/
structure WriteLoop (w : World) (i maxBufferSize : Nat) (bytes : List UInt8) (as : List Action)
    (xs : List (Drive × PollResult)) (v : World) : Prop where
  run : Run next (fun w a => w.servesOnly i .write a) w as v
  seen : observe next (serve i) w as = Drive.served xs
  resubmits : Drive.Resubmits maxBufferSize bytes xs

/-- The guard of the first write has the pool that the handle was registered with. -/
theorem FirstWrite.pool (first : w.FirstWrite i bytes u o call)
    (registered : w.JustRegistered i maxBufferSize) :
    o.pool = BufferPool.new maxBufferSize := by
  obtain ⟨loops, p, reach, rests, pool, -⟩ := registered.rests
  obtain ⟨as, run, nothing⟩ := first.run
  obtain ⟨s, q, m, ran, -, owner, -, -, stands⟩ :=
    serial_run (c := .write) (by decide) reach rests run
  obtain rfl : q = o := Option.some.inj (owner.symm.trans first.owner)
  rw [nothing] at ran
  obtain rfl := ran.state_unique (.nil : Run Serial.step anyStep p.serial [] p.serial)
  have free : p.serial.serving = .free := rfl
  generalize p.serial.serving = serving at free stands
  cases stands with
  | out _ outside =>
      have outside : q.pc.outside = true := outside
      rw [first.pc] at outside
      cases outside
  | idle _ _ kept => exact kept.trans pool
  | _ => cases free

/-- A write on a handle that was just registered submits the beginning of its slice without
a panic, and a loop of writes transmits the slice, exactly if the slice is no longer than
the maximum that the handle was registered with. -/
theorem writes_go_through (registered : w.JustRegistered i maxBufferSize)
    (slice : bytes.length < 2 ^ 64) (first : w.FirstWrite i bytes u o call) :
    ((∀ extra newSocket o' e, o.prepare extra newSocket = some (o', e) →
        o'.pc = .prepared call (.writeFile 0 (submitted maxBufferSize bytes))) ∧
      ∀ as xs v, w.WriteLoop i maxBufferSize bytes as xs v →
        (∀ x ∈ xs, ∃ n, x.2 = .ready (.count n)) ∧
          observe next (written i) w as ++ Drive.unwritten bytes xs = bytes ∧
          xs.length + (Drive.unwritten bytes xs).length ≤ bytes.length) ↔
      bytes.length ≤ maxBufferSize := by
  have prepares (extra : Nat) (newSocket : Except Nat Nat) :
      (o.prepare extra newSocket).map (fun next => next.1.pc) =
        some (if bytes.length ≤ maxBufferSize
          then .prepared call (.writeFile 0 (bytes.take Win32.dwordMax))
          else .dropOverlapped .panicked) := by
    have pool : o.preparePool = BufferPool.new maxBufferSize := by
      rw [Owner.preparePool, first.pool registered]
      cases o.kind <;> rfl
    obtain ⟨q, prepared, -⟩ := Call.prepareWrite_roomy
      (BufferPool.new_roomy bytes.length maxBufferSize) rfl extra
    have size : (BufferPool.new maxBufferSize).maxBufferSize = maxBufferSize := rfl
    rw [size] at prepared
    simp only [Owner.prepare, first.pc, pool, Call.prepare_payload first.payload, prepared]
    by_cases short : bytes.length ≤ maxBufferSize
    · simp only [if_pos short, Option.map_some]
    · simp only [if_neg short, Option.map_some]
  constructor
  · rintro ⟨submits, -⟩
    by_contra long
    obtain ⟨⟨o', e⟩, prepared, pc⟩ := Option.map_eq_some_iff.mp (prepares 0 (.ok 0))
    rw [if_neg long] at pc
    rw [submits 0 (.ok 0) o' e prepared] at pc
    cases pc
  · intro short
    constructor
    · intro extra newSocket o' e prepared
      have pc := prepares extra newSocket
      rw [prepared, if_pos short] at pc
      rw [submitted_short short]
      exact Option.some.inj pc
    · intro as xs v loop
      obtain ⟨loops, p, reach, rests, pool, cursor⟩ := registered.rests
      obtain ⟨s, q, m, ran, shown, -⟩ :=
        serial_run (c := .write) (by decide) reach rests loop.run
      rw [loop.seen] at ran shown
      rw [shown]
      have roomy : p.pool.Roomy bytes.length := by
        rw [pool]
        exact BufferPool.new_roomy bytes.length maxBufferSize
      have writes : p.serial.Writes bytes.length maxBufferSize :=
        ⟨roomy, congrArg BufferPool.maxBufferSize pool, short, by omega⟩
      exact Serial.write_loop writes loop.resubmits ran

theorem registered_just (maxBufferSize : Nat) :
    (registered maxBufferSize).JustRegistered 0 maxBufferSize :=
  ⟨[.main], setup, 0, .refl, rfl, rfl⟩

/-- A schedule whose last step takes the guard for the first write. -/
theorem exec_firstWrite (w : World) (i : Nat) (call : Call) (as : List Action)
    (payload : call.payload = some bytes)
    (h : (exec next (fun w a => w.servesOnly i .write a) w as).map (fun v =>
      (observe next (serve i) w as, v.owners[i]?.map (·.pc))) =
        some ([], some (.guarded call .idle))) :
    ∃ u o, w.FirstWrite i bytes u o call := by
  obtain ⟨u, ran, state⟩ := Option.map_eq_some_iff.mp h
  obtain ⟨seen, guarded⟩ := Prod.mk.inj state
  obtain ⟨o, owner, pc⟩ := Option.map_eq_some_iff.mp guarded
  exact ⟨u, o, ⟨as, exec_run ran, seen⟩, owner, pc, payload⟩

/-- A write that is completed with a count and collected. -/
def completedWrite (buf : List UInt8) (n : Nat) : List Action :=
  Schedule.submitted 0 (.pollWrite buf) 1 ++ [.complete 0 (.success n [])] ++
    Schedule.drive 0 true ++ Schedule.resume 0 (.pollWrite buf) 1

/-- Three bytes that the operating system takes in two pieces. -/
theorem writes_go_through_twice :
    ∃ as v, ∃ xs : List (Drive × PollResult),
      (registered 32).WriteLoop 0 32 [1, 2, 3] as xs v ∧ xs.length = 2 ∧
      Drive.unwritten [1, 2, 3] xs = [] ∧
      observe next (written 0) (registered 32) as = [1, 2, 3] := by
  obtain ⟨u, o, first⟩ := exec_firstWrite (registered 32) 0 (.pollWrite [1, 2, 3])
    (Schedule.enter 0 (.pollWrite [1, 2, 3]) 1) rfl (by decide)
  let write (buf : List UInt8) (n : Nat) : Drive × PollResult :=
    (⟨.pollWrite buf, 0, some (.success n [], false)⟩, .ready (.count n))
  let as := completedWrite [1, 2, 3] 2 ++ completedWrite [3] 1
  let xs := [write [1, 2, 3] 2, write [3] 1]
  have ran : (exec next (fun w a => w.servesOnly 0 .write a) (registered 32) as).map
      (fun _ => observe next (serve 0) (registered 32) as) = some (Drive.served xs) := by decide
  obtain ⟨v, run, seen⟩ := Option.map_eq_some_iff.mp ran
  have transfers (buf : List UInt8) (n : Nat) (some : 1 ≤ n)
      (all : n ≤ (submitted 32 buf).length) : (write buf n).1.Transfers (submitted 32 buf) := by
    rintro report same
    cases same
    exact ⟨n, rfl, some, all⟩
  have loop : (registered 32).WriteLoop 0 32 [1, 2, 3] as xs v :=
    ⟨exec_run run, seen, by simp, rfl, transfers _ _ (by decide) (by decide),
      by simp [write, PollResult.written], rfl, transfers _ _ (by decide) (by decide), trivial⟩
  obtain ⟨-, whole, -⟩ := ((writes_go_through (registered_just 32) (by decide) first).mpr
    (by decide)).2 as xs v loop
  have left : Drive.unwritten [1, 2, 3] xs = [] := rfl
  rw [left, List.append_nil] at whole
  exact ⟨as, v, xs, loop, rfl, left, whole⟩

/-- A write of three bytes on a handle whose buffers hold two panics. -/
theorem long_write_panics :
    ¬ ∀ w i maxBufferSize bytes u o call, 0 < maxBufferSize →
      JustRegistered w i maxBufferSize → bytes.length < 2 ^ 64 →
      w.FirstWrite i bytes u o call →
      ∀ extra newSocket o' e, o.prepare extra newSocket = some (o', e) →
        o'.pc = .prepared call (.writeFile 0 (submitted maxBufferSize bytes)) := by
  intro always
  have ran : ((exec next (fun w a => w.servesOnly 0 .write a) (registered 2)
      (Schedule.enter 0 (.write [1, 2, 3]) 1)).bind fun u => u.owners[0]?.map fun o =>
        ((observe next (serve 0) (registered 2) (Schedule.enter 0 (.write [1, 2, 3]) 1), o.pc),
          (o.prepare 0 (.ok 0)).map (·.1.pc))) =
      some (([], .guarded (.write [1, 2, 3]) .idle), some (.dropOverlapped .panicked)) := by decide
  obtain ⟨u, run, state⟩ := Option.bind_eq_some_iff.mp ran
  obtain ⟨o, owner, state⟩ := Option.map_eq_some_iff.mp state
  obtain ⟨before, after⟩ := Prod.mk.inj state
  obtain ⟨seen, pc⟩ := Prod.mk.inj before
  obtain ⟨⟨o', e⟩, prepared, panics⟩ := Option.map_eq_some_iff.mp after
  have submits := always _ 0 2 [1, 2, 3] u o _ (by decide) (registered_just 2) (by decide)
    ⟨⟨_, exec_run run, seen⟩, owner, pc, rfl⟩ 0 (.ok 0) o' e prepared
  rw [panics] at submits
  cases submits

end World

end Iocp
