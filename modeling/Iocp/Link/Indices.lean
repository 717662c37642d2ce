import Iocp.Link.Accepts
import Iocp.Pool.Capacity

/-!
# The indices of the pools of an owner

A poll that collects releases what an earlier poll took: the guard of that poll was
forgotten, so nothing has cleared the pool since. What connects the two is the lock
word. While its absolute value is the word of a code, the pool is as the last `prepare`
under this code left it.
-/

namespace Iocp

open Transition

/-- The sign of the word does not matter for its code. -/
theorem Code.word_natAbs {c d : Code} (h : c.word.natAbs = d.word.natAbs) : c = d := by
  have hc := c.word_pos
  have hd := d.word_pos
  exact word_injective (by omega)

namespace SocketPool

/-- The slice of `clear` is in bounds. -/
structure Bounded (p : SocketPool) : Prop where
  released : p.released ≤ p.taken
  taken : p.taken ≤ p.sockets.length

variable {p : SocketPool}

theorem Bounded.take (bounded : p.Bounded) (newSocket : Except Nat Nat) :
    (p.take newSocket).1.Bounded ∧ (p.take newSocket).1.released = p.released := by
  obtain ⟨released, taken⟩ := bounded
  simp only [SocketPool.take]
  split
  · cases newSocket with
    | error code => exact ⟨⟨released, taken⟩, rfl⟩
    | ok socket =>
        refine ⟨⟨Nat.le_succ_of_le released, ?_⟩, rfl⟩
        rw [List.length_append, List.length_singleton]
        exact Nat.succ_le_succ taken
  · exact ⟨⟨Nat.le_succ_of_le released, by simp only; omega⟩, rfl⟩

/-- The first `release` since a `clear` is in bounds, and keeps the slice of the next
`clear` in bounds. -/
theorem Bounded.release (bounded : p.Bounded) (taken : 0 < p.taken)
    (unreleased : p.released = 0) : p.release.1.Bounded ∧ p.release.2.isSome := by
  have some : 0 < p.sockets.length := Nat.lt_of_lt_of_le taken bounded.taken
  refine ⟨⟨?_, bounded.taken⟩, by simp [SocketPool.release, unreleased, some]⟩
  simp only [SocketPool.release, unreleased]
  exact taken

theorem Bounded.clear (bounded : p.Bounded) :
    ∃ q, p.clear = some q ∧ q.Bounded ∧ q.released = 0 :=
  ⟨_, if_pos ⟨bounded.released, bounded.taken⟩, ⟨Nat.le_refl 0, Nat.zero_le _⟩, rfl⟩

end SocketPool

namespace Call

variable {n extra : Nat} {newSocket : Except Nat Nat} {p q : BufferPool}
  {sockets sockets' : SocketPool} {request : Request}

/-- `prepare` leaves the room that the first vector has. -/
theorem prepare_holds (call : Call) (holds : p.Holds n) :
    (call.prepare extra newSocket p sockets).1.Holds n :=
  call.prepare_pool newSocket sockets holds (fun size => holds.take size extra)
    (fun bytes => holds.takeAndPut bytes extra)

/-- What an operation of a handle requests, the first vector has room for, and a read
has taken it. -/
theorem prepare_requested {call : Call} (handle : call.kind = .handle) (holds : p.Holds 0)
    (empty : p.taken = 0)
    (prepared : call.prepare extra newSocket p sockets = (q, sockets', .request request)) :
    q.Holds request.len ∧ (call.code = .read → 0 < q.taken ∧ q.released = p.released) := by
  have read {len : Nat} (h : prepareRead len extra p = (q, .request request)) :
      q.Holds request.len ∧ 0 < q.taken ∧ q.released = p.released := by
    simp only [prepareRead] at h
    split at h
    case h_1 => cases h
    case h_2 q b took =>
        cases h
        obtain ⟨room, taken, released⟩ := holds.taken empty took
        exact ⟨room.anti (Nat.min_le_left _ _), by omega, released⟩
  have write {buf : List UInt8} (h : prepareWrite buf extra p = (q, .request request)) :
      q.Holds request.len := by
    simp only [prepareWrite] at h
    split at h
    case h_1 => cases h
    case h_2 q b put =>
        cases h
        refine (holds.put empty put).1.anti ?_
        simp only [Request.len, List.length_take]
        exact Nat.min_le_right _ _
  cases call with
  | pollRead len | read len =>
      simp only [prepare, Prod.mk.injEq] at prepared
      obtain ⟨room, taken⟩ := read (Prod.ext prepared.1 prepared.2.2)
      exact ⟨room, fun _ => taken⟩
  | pollWrite buf | write buf =>
      simp only [prepare, Prod.mk.injEq] at prepared
      exact ⟨write (Prod.ext prepared.1 prepared.2.2), by simp [code, Code.read, Code.write]⟩
  | deviceIoControl control message =>
      refine ⟨?_, by simp [code, Code.read, Code.ioCtl]⟩
      simp only [prepare, prepareDeviceIoControl] at prepared
      split at prepared
      case h_1 => simp at prepared
      case h_2 q b put =>
          simp only [Prod.mk.injEq] at prepared
          obtain ⟨rfl, -, made⟩ := prepared
          split at made
          · cases made
            exact (holds.put empty put).1
          · cases made
  | connectNamedPipe =>
      cases prepared
      exact ⟨holds, by simp [code, Code.read, Code.connectNamedPipe]⟩
  | accept => cases handle

/-- Only the code of an accept belongs to a socket. -/
theorem accept_of_code {call : Call} (code : call.code = .accept) : call = .accept := by
  cases call with
  | accept => rfl
  | _ => simp [Call.code, Code.read, Code.write, Code.ioCtl, Code.connectNamedPipe,
      Code.accept] at code

theorem handle_of_code (call : Call) (other : call.code ≠ .accept) : call.kind = .handle := by
  cases call with
  | accept => exact absurd rfl other
  | _ => rfl

/-- Only an accept uses the sockets, and it takes one. -/
theorem prepare_bounded (call : Call) (bounded : sockets.Bounded) (extra : Nat)
    (newSocket : Except Nat Nat) (p : BufferPool) :
    (call.prepare extra newSocket p sockets).2.1.Bounded ∧
      (call.prepare extra newSocket p sockets).2.1.released = sockets.released := by
  cases call with
  | accept =>
      simp only [prepare, prepareAccept_sockets]
      exact bounded.take newSocket
  | _ => exact ⟨bounded, rfl⟩

end Call

namespace Owner

/-- A forgotten guard of code `c` has left the pools ready for the poll that collects.
The word tells the code, whatever its sign. -/
def Armed (c : Code) (ready : BufferPool → SocketPool → Prop) (o : Owner) : Prop :=
  match o.pc with
  | .guarded call .idle => o.lockWord = 0 ∨ o.lockWord.natAbs = call.code.word.natAbs
  | .guarded call .pending => call.code = c → ready o.pool o.sockets
  | .prepared call _ =>
      (o.lockWord = 0 ∨ o.lockWord.natAbs = call.code.word.natAbs) ∧
        (call.code = c → ready o.pool o.sockets)
  | .accepted call =>
      (o.lockWord = 0 ∨ o.lockWord.natAbs = call.code.word.natAbs) ∧
        (call.code = c → ready o.pool o.sockets)
  | .storing _ n =>
      o.lockWord.natAbs = n.natAbs ∧ (n.natAbs = c.word.natAbs → ready o.pool o.sockets)
  | .dropOverlapped _ => True
  | .dropGuard _ => True
  | _ => o.lockWord.natAbs = c.word.natAbs → ready o.pool o.sockets

section Armed

variable {i : Nat} {o o' : Owner} {c : Code} {ready : BufferPool → SocketPool → Prop}
  {pending : Int} {a : TaskAct} {e : Effect}

/-- The others neither change the code of the word nor the indices. -/
theorem Armed.drifts (armed : o.Armed c ready) (drifts : o.Drifts o')
    (kept : ready o.pool o.sockets → ready o'.pool o'.sockets) : o'.Armed c ready := by
  have open_word {n : Nat} (h : o.lockWord = 0 ∨ o.lockWord.natAbs = n) :
      o'.lockWord = 0 ∨ o'.lockWord.natAbs = n :=
    h.imp drifts.opened drifts.word.trans
  unfold Armed at armed ⊢
  rw [drifts.pc]
  cases pc : o.pc with
  | guarded call state =>
      cases state with
      | idle =>
          simp only [pc] at armed ⊢
          exact open_word armed
      | pending =>
          simp only [pc] at armed ⊢
          exact fun code => kept (armed code)
  | prepared call request | accepted call =>
      simp only [pc] at armed ⊢
      exact ⟨open_word armed.1, fun code => kept (armed.2 code)⟩
  | storing call n =>
      simp only [pc] at armed ⊢
      exact ⟨drifts.word.trans armed.1, fun word => kept (armed.2 word)⟩
  | dropOverlapped result | dropGuard result => trivial
  | _ =>
      simp only [pc, drifts.word] at armed ⊢
      exact fun word => kept (armed word)

/-- Every step that prepares leaves the pools ready, and nothing but the end of a guard
moves the indices otherwise. -/
theorem Armed.task (armed : o.Armed c ready) (h : o.act i pending a = some (o', e))
    (prepared : ∀ call request, o'.pc = .prepared call request → call.code = c →
      o.pc = .guarded call .idle → ready o'.pool o'.sockets)
    (opened : a = .dropGuard → o'.lockWord = 0) : o'.Armed c ready := by
  have pos := c.word_pos
  unfold Armed at armed
  cases act_acts h with
  | lockOpen pc word => exact .inr rfl
  | lockStore pc word failed =>
      simp only [pc] at armed
      exact ⟨rfl, armed⟩
  | @storeOpen call n pc =>
      simp only [pc] at armed
      by_cases own : call.code.word = -n
      · rw [if_pos own]
        intro code
        apply armed.2
        rw [← code, own, Int.natAbs_neg]
      · rw [if_neg own]
        exact .inl rfl
  | prepareRequest pc made =>
      simp only [pc] at armed
      exact ⟨armed, fun code => prepared _ _ rfl code pc⟩
  | prepareFail | refuseSubmit | dropOverlapped | collect => trivial
  | dropGuard pc =>
      intro word
      have zero : (0 : Int).natAbs = c.word.natAbs := word
      omega
  | dropGuardPanic pc kind =>
      intro word
      rw [opened rfl] at word
      omega
  | forget pc =>
      simp only [pc] at armed
      obtain ⟨own, ready⟩ := armed
      intro word
      rcases own with zero | same
      · have zero : (0 : Int).natAbs = c.word.natAbs := zero ▸ word
        omega
      · exact ready (Code.word_natAbs (same.symm.trans word))
  | submit pc accepted | permit pc | refusePermit pc | undoPermit pc | registerWaker pc
  | lockBusy pc | leaveBusy pc | dropPermit pc | drop pc | leaveDrop pc | dropFields pc =>
      simp only [pc] at armed
      exact armed

end Armed

/-- The pools of an owner, at every program point. -/
structure Indexed (o : Owner) : Prop where
  kind : ∀ call, o.pc.call = some call → call.kind = o.kind
  reads : o.Armed .read fun pool _ => 0 < pool.taken ∧ pool.released = 0
  accepts : o.Armed .accept fun _ sockets => 0 < sockets.taken ∧ sockets.released = 0
  bounded : o.sockets.Bounded
  unreleased : o.kind = .handle ∨ (∀ result, o.pc ≠ .dropGuard result) → o.sockets.released = 0

/-- The first vector of a handle has room for every operation that was submitted, and
for the one that is about to be. -/
structure Roomed (xs : List Op) (o : Owner) : Prop where
  holds : o.pool.Holds 0
  submitted : o.kind = .handle → ∀ x ∈ xs, o.pool.Holds x.request.len
  prepared : o.kind = .handle → ∀ call request, o.pc = .prepared call request →
    o.pool.Holds request.len

section Indexed

variable {i : Nat} {o o' : Owner} {pending : Int} {a : TaskAct} {e : Effect} {xs : List Op}

theorem Indexed.fresh (kind : Kind) (key size : Nat) : (new kind key size).Indexed where
  kind := by simp [new, Pc.call]
  reads := by
    intro word
    have zero : (0 : Int).natAbs = Code.read.word.natAbs := word
    have pos := Code.read.word_pos
    omega
  accepts := by
    intro word
    have zero : (0 : Int).natAbs = Code.accept.word.natAbs := word
    have pos := Code.accept.word_pos
    omega
  bounded := ⟨Nat.le_refl 0, Nat.le_refl 0⟩
  unreleased := fun _ => rfl

theorem Roomed.fresh (kind : Kind) (key size : Nat) : Roomed [] (new kind key size) :=
  ⟨BufferPool.new_holds size, by simp, by simp [new]⟩

theorem Indexed.drifts (indexed : o.Indexed) (drifts : o.Drifts o') : o'.Indexed where
  kind := by
    rw [drifts.pc, drifts.kind]
    exact indexed.kind
  reads := indexed.reads.drifts drifts fun ready => by
    rw [drifts.indices.1, drifts.indices.2]
    exact ready
  accepts := indexed.accepts.drifts drifts fun ready => drifts.sockets ▸ ready
  bounded := drifts.sockets ▸ indexed.bounded
  unreleased := by
    rw [drifts.pc, drifts.kind, drifts.sockets]
    exact indexed.unreleased

theorem Drifts.holds {n : Nat} (drifts : o.Drifts o') (holds : o.pool.Holds n) :
    o'.pool.Holds n := by
  rcases drifts.pool with same | ⟨slot, bytes, filled⟩
  · exact same ▸ holds
  · exact filled ▸ holds.fill slot bytes

theorem Roomed.drifts (roomed : Roomed xs o) (drifts : o.Drifts o') : Roomed xs o' where
  holds := drifts.holds roomed.holds
  submitted := by
    rw [drifts.kind]
    exact fun handle x member => drifts.holds (roomed.submitted handle x member)
  prepared := by
    rw [drifts.pc, drifts.kind]
    exact fun handle call request pc => drifts.holds (roomed.prepared handle call request pc)

/-- The pool that a handle hands to an operation is empty. -/
theorem preparePool_handle (handle : o.kind = .handle) : o.preparePool = o.pool.clear := by
  rw [preparePool, handle]

/-- A step of a poll is about the call that the poll was made with. -/
theorem Indexed.call (indexed : o.Indexed) (h : o.act i pending a = some (o', e)) :
    ∀ call, o'.pc.call = some call → call.kind = o'.kind := by
  have acts := act_acts h
  rw [acts.key_kind.2]
  intro call about
  cases acts with
  | permit pc kind granted =>
      cases about
      exact kind
  | registerWaker pc | lockOpen pc | lockBusy pc | lockStore pc | storeOpen pc
  | prepareRequest pc | submit pc =>
      apply indexed.kind
      rw [pc]
      exact about
  | _ => cases about

/-- A guard that is dropped opens the word and leaves no socket in use. -/
theorem Indexed.dropGuard (indexed : o.Indexed) (h : o.dropGuard = some (o', e)) :
    o'.lockWord = 0 ∧ o'.sockets.Bounded ∧ o'.sockets.released = 0 := by
  obtain ⟨-, result, pc, drops⟩ := dropGuard_drops h
  obtain ⟨q, cleared, bounded, released⟩ := indexed.bounded.clear
  cases drops with
  | handle kind => exact ⟨rfl, indexed.bounded, indexed.unreleased (.inl kind)⟩
  | socket kind cleared' =>
      obtain rfl := Option.some.inj (cleared.symm.trans cleared')
      exact ⟨rfl, bounded, released⟩
  | panic kind failed =>
      rw [cleared] at failed
      cases failed

/-- What a guard does to the sockets when it collects. -/
theorem Indexed.collect {duplicate : Option Nat} (indexed : o.Indexed)
    (h : o.collect duplicate = some (o', e)) :
    o'.sockets.Bounded ∧ (o.kind = .handle → o'.sockets.released = 0) := by
  obtain ⟨-, call, pc, collects⟩ := collect_collects h
  have unreleased : o.sockets.released = 0 := indexed.unreleased (.inr (by simp [pc]))
  have kind : call.kind = o.kind := indexed.kind call (by simp [pc, Pc.call])
  have used := indexed.accepts
  simp only [Armed, pc] at used
  have next (n : Nat) : (call.collect n duplicate o.pool o.sockets).2.1.Bounded ∧
      (o.kind = .handle →
        (call.collect n duplicate o.pool o.sockets).2.1.released = 0) := by
    cases call with
    | accept =>
        obtain ⟨taken, released⟩ := used rfl
        simp only [Call.collect, Call.collectAccept_sockets]
        refine ⟨(indexed.bounded.release taken released).1, fun handle => ?_⟩
        rw [handle] at kind
        cases kind
    | _ => exact ⟨indexed.bounded, fun _ => unreleased⟩
  rcases collects.pools with ⟨-, -, -, same⟩ | ⟨n, -, -, made⟩
  · rw [same]
    exact ⟨indexed.bounded, fun _ => unreleased⟩
  · rw [made]
    exact next n

theorem Indexed.sockets (indexed : o.Indexed) (h : o.act i pending a = some (o', e)) :
    o'.sockets.Bounded ∧
      (o'.kind = .handle ∨ (∀ result, o'.pc ≠ .dropGuard result) →
        o'.sockets.released = 0) := by
  have acts := act_acts h
  have kind := acts.key_kind.2
  cases a with
  | prepare extra newSocket =>
      obtain ⟨-, call, pc, prepares⟩ := prepare_prepares h
      rw [prepares.pools.2]
      obtain ⟨bounded, released⟩ :=
        call.prepare_bounded indexed.bounded extra newSocket o.preparePool
      exact ⟨bounded, fun _ => released.trans (indexed.unreleased (.inr (by simp [pc])))⟩
  | collect duplicate =>
      obtain ⟨bounded, released⟩ := indexed.collect h
      refine ⟨bounded, ?_⟩
      rintro (handle | away)
      · exact released (kind ▸ handle)
      · obtain ⟨-, call, -, collects⟩ := collect_collects h
        obtain ⟨result, pc⟩ := collects.next
        exact absurd pc (away result)
  | dropGuard =>
      obtain ⟨-, bounded, released⟩ := indexed.dropGuard h
      exact ⟨bounded, fun _ => released⟩
  | _ =>
      have away : ∀ result, o.pc ≠ .dropGuard result := by cases acts <;> simp [*]
      rw [acts.same_sockets (by simp) (by simp) (by simp)]
      exact ⟨indexed.bounded, fun _ => indexed.unreleased (.inr away)⟩

/-- A read that is about to be submitted has taken the buffer that its result is
collected from. -/
theorem Indexed.reads_prepared (indexed : o.Indexed) (holds : o.pool.Holds 0)
    (h : o.act i pending a = some (o', e)) {call : Call} {request : Request}
    (pc' : o'.pc = .prepared call request) (code : call.code = .read)
    (pc : o.pc = .guarded call .idle) : 0 < o'.pool.taken ∧ o'.pool.released = 0 := by
  have handle : call.kind = .handle := call.handle_of_code (by rw [code]; decide)
  have kind : o.kind = .handle := (indexed.kind call (by simp [pc, Pc.call])).symm.trans handle
  cases act_acts h with
  | @prepareRequest call' extra newSocket pool sockets request' _ made =>
      cases pc'
      rw [preparePool_handle kind] at made
      exact (Call.prepare_requested handle holds.clear rfl made).2 code
  | _ => cases pc'

/-- An accept that is about to be submitted has taken a socket. -/
theorem Indexed.accepts_prepared (indexed : o.Indexed) (h : o.act i pending a = some (o', e))
    {call : Call} {request : Request} (pc' : o'.pc = .prepared call request)
    (code : call.code = .accept) (pc : o.pc = .guarded call .idle) :
    0 < o'.sockets.taken ∧ o'.sockets.released = 0 := by
  refine ⟨?_, (indexed.sockets h).2 (.inr (by simp [pc']))⟩
  cases act_acts h with
  | @prepareRequest call' extra newSocket pool sockets request' _ made =>
      cases pc'
      obtain rfl := call.accept_of_code code
      simp only [Call.prepare] at made
      have taken := Call.prepareAccept_request (congrArg (fun next => next.2.2) made)
      rw [← Call.prepareAccept_sockets extra, made] at taken
      exact taken
  | _ => cases pc'

/-- Every step of an owner keeps its indices in order. -/
theorem Indexed.task (indexed : o.Indexed) (holds : o.pool.Holds 0)
    (h : o.act i pending a = some (o', e)) : o'.Indexed where
  kind := indexed.call h
  reads := indexed.reads.task h
    (fun _ _ pc' code pc => indexed.reads_prepared holds h pc' code pc)
    (by rintro rfl; exact (indexed.dropGuard h).1)
  accepts := indexed.accepts.task h
    (fun _ _ pc' code pc => indexed.accepts_prepared h pc' code pc)
    (by rintro rfl; exact (indexed.dropGuard h).1)
  bounded := (indexed.sockets h).1
  unreleased := (indexed.sockets h).2

/-- Every step of an owner leaves its first vector room for what was submitted. -/
theorem Roomed.task (roomed : Roomed xs o) (indexed : o.Indexed)
    (h : o.act i pending a = some (o', e)) : Roomed (xs ++ e.submit.toList) o' := by
  have acts := act_acts h
  have kind := acts.key_kind.2
  have left {n : Nat} (holds : o.pool.Holds n) : o'.pool.Holds n := by
    cases acts with
    | prepareRequest | prepareFail =>
        obtain ⟨-, call, -, prepares⟩ := prepare_prepares h
        rw [prepares.pools.1]
        exact call.prepare_holds (holds.of_buffers (preparePool_buffers o))
    | collect pc notPending slots => exact holds.of_buffers slots
    | _ => exact holds.of_buffers rfl
  constructor
  · exact left roomed.holds
  · rw [kind]
    intro handle x member
    rcases List.mem_append.mp member with earlier | last
    · exact left (roomed.submitted handle x earlier)
    · obtain ⟨call, request, pc, rfl, rfl⟩ := acts.submitted (Option.mem_toList.mp last)
      exact roomed.prepared handle call request pc
  · rw [kind]
    intro handle call request pc'
    cases acts with
    | @prepareRequest call' extra newSocket pool sockets request' pc made =>
        cases pc'
        have own : call.kind = .handle := (indexed.kind call (by simp [pc, Pc.call])).trans handle
        rw [preparePool_handle handle] at made
        exact (Call.prepare_requested own roomed.holds.clear rfl made).1
    | _ => cases pc'

end Indexed

end Owner

namespace World

/-- The operations that the footprints of an owner hand to the operating system. -/
def submissionsOf (fs : List Footprint) : List Op := fs.flatMap fun f => f.effect.submit.toList

/-- `GetOverlappedResult` reports no more bytes than some operation requested that was
submitted on the header. -/
def Requested (xs : List Op) (n : Nat) : Prop := n = 0 ∨ ∃ x ∈ xs, n ≤ x.request.len

/-- No assertion of `BufferPool::release` fails, and no index or slice of the socket pool
is out of bounds. -/
structure IndicesSafe (o : Owner) (xs : List Op) : Prop where
  released : ∀ call n, o.pc = .guarded call .pending → call.code = .read → Requested xs n →
    (o.pool.release n).2.isSome
  bounded : o.sockets.Bounded
  accepted : o.pc = .guarded .accept .pending → o.sockets.release.2.isSome
  cleared : o.sockets.clear.isSome

section Run

variable {loops : List Loop} {as : List Action} {w v : World} {i : Nat} {o o' : Owner}
  {a : Action} {T T' : Multiset Token}

/-- The pools of an owner in every run. -/
theorem run_indexed (run : Run next anyStep (start loops) as w) (owner : w.owners[i]? = some o) :
    o.Indexed ∧ Owner.Roomed (submissionsOf (observe next (footprints i) (start loops) as)) o := by
  refine run_footprints (Q := fun o fs => o.Indexed ∧ Owner.Roomed (submissionsOf fs) o) .refl run
    (by simp [start]) (fun _ kind key size => ⟨.fresh kind key size, .fresh kind key size⟩) ?_
    (fun o o' fs drifts kept => ⟨kept.1.drifts drifts, kept.2.drifts drifts⟩) owner
  rintro w o o' act e fs - - - h ⟨indexed, roomed⟩
  refine ⟨indexed.task roomed.holds h, ?_⟩
  rw [submissionsOf, List.flatMap_append, List.flatMap_singleton]
  exact roomed.task indexed h

/-- An operation in flight on the header of owner `i` was handed out by a step of it. -/
theorem next_flying (h : w.next a = some v) {op : Op} (member : op ∈ v.inFlight)
    (own : op.owner = i) : op ∈ w.inFlight ∨ op ∈ submissionsOf (w.footprints i a) := by
  cases a with
  | task j act =>
      cases actor : w.owners[j]? with
      | none => simp [next, step, task, actor] at h
      | some p =>
          obtain ⟨p', e, hact, rfl⟩ := step_act actor (next_eq_some.mp h).1
          rcases List.mem_append.mp member with old | new
          · exact .inl old
          · have same := ((Owner.act_acts hact).submit_known (Option.mem_toList.mp new)).2
            obtain rfl : j = i := same.symm.trans own
            rw [footprints_task actor hact, submissionsOf, List.flatMap_singleton]
            exact .inr new
  | complete k status =>
      cases next_stepped h with
      | complete flight admits => exact .inl (List.mem_of_mem_eraseIdx member)
  | driver d act =>
      cases next_stepped h with
      | driver thread driven => cases driven <;> exact .inl member
  | _ => cases next_stepped h <;> exact .inl member

/-- What the operating system reports on a header belongs to an operation that was
submitted on it. -/
theorem run_submitted (run : Run next anyStep (start loops) as w) (owner : w.owners[i]? = some o)
    {op : Op} {status : Final} (final : o.header.value.raw.internal = .final op status) :
    op.admits status = true ∧
      op ∈ submissionsOf (observe next (footprints i) (start loops) as) := by
  suffices all : w.Valid ∧
      (∀ op ∈ w.inFlight, op.owner = i →
        op ∈ submissionsOf (observe next (footprints i) (start loops) as)) ∧
      ∀ o, w.owners[i]? = some o → ∀ op status, o.header.value.raw.internal = .final op status →
        op.admits status = true ∧
          op ∈ submissionsOf (observe next (footprints i) (start loops) as) from
    all.2.2 o owner op status final
  refine run.observed (P := fun w fs => w.Valid ∧
    (∀ op ∈ w.inFlight, op.owner = i → op ∈ submissionsOf fs) ∧
    ∀ o, w.owners[i]? = some o → ∀ op status, o.header.value.raw.internal = .final op status →
      op.admits status = true ∧ op ∈ submissionsOf fs)
    ⟨start_valid loops, by simp [start], by simp [start]⟩ ?_
  rintro w a v fs ⟨valid, flying, ended⟩ - h
  have stepped := next_stepped h
  have later {op : Op} (earlier : op ∈ submissionsOf fs) :
      op ∈ submissionsOf (fs ++ w.footprints i a) := by
    rw [submissionsOf, List.flatMap_append]
    exact List.mem_append_left _ earlier
  refine ⟨stepped_valid valid stepped, ?_, ?_⟩
  · intro op member own
    rcases next_flying h member own with old | new
    · exact later (flying op old own)
    · rw [submissionsOf, List.flatMap_append]
      exact List.mem_append_right _ new
  · intro o' owner' op status final
    cases owner : w.owners[i]? with
    | none =>
        cases stepped_moves valid stepped owner' with
        | created _ _ born _ =>
            rw [born] at final
            cases final
        | still before | moved before => simp [owner] at before
    | some o =>
        obtain ⟨p, present, happens⟩ := stepped_happens valid stepped owner
        obtain rfl : p = o' := Option.some.inj (present.symm.trans owner')
        rcases happens_internal happens with
          same | pending | ⟨k, x, s, -, flight, own, admits, ended'⟩
        · obtain ⟨admits, earlier⟩ := ended o owner op status (same.symm.trans final)
          exact ⟨admits, later earlier⟩
        · rw [pending] at final
          cases final
        · rw [ended'] at final
          cases final
          exact ⟨admits, later (flying _ (List.mem_of_getElem? flight) own)⟩

/-- What a guard finds reported was requested. -/
theorem run_requested (run : Run next anyStep (start loops) as w) (owner : w.owners[i]? = some o)
    {n : Nat} (found : o.header.value.raw.handleResult = .ok n) :
    Requested (submissionsOf (observe next (footprints i) (start loops) as)) n := by
  cases internal : o.header.value.raw.internal with
  | zeroed =>
      simp only [Overlapped.handleResult, Overlapped.getOverlappedResult, internal] at found
      cases found
      exact .inl rfl
  | pending =>
      simp [Overlapped.handleResult, Overlapped.getOverlappedResult, internal,
        Win32.errorIoIncomplete, Win32.errorHandleEof, Win32.errorBrokenPipe] at found
  | final op status =>
      obtain ⟨admits, submitted⟩ := run_submitted run owner internal
      exact .inr ⟨op, submitted, Overlapped.handleResult_le internal admits found⟩

/-- The indices of the pools are safe in every run, with any mix of codes and any spurious
failure, for every number of bytes that some submitted operation requested; and no other
number is reported. -/
theorem pool_indices_safe (run : Run next anyStep (start loops) as w)
    (owner : w.owners[i]? = some o) :
    IndicesSafe o (submissionsOf (observe next (footprints i) (start loops) as)) ∧
      ∀ n, o.header.value.raw.handleResult = .ok n →
        Requested (submissionsOf (observe next (footprints i) (start loops) as)) n := by
  obtain ⟨indexed, roomed⟩ := run_indexed run owner
  refine ⟨⟨?_, indexed.bounded, ?_, ?_⟩, fun n found => run_requested run owner found⟩
  · intro call n pc code requested
    have ready := indexed.reads
    simp only [Owner.Armed, pc] at ready
    obtain ⟨taken, unreleased⟩ := ready code
    have handle : o.kind = .handle :=
      (indexed.kind call (by simp [pc, Pc.call])).symm.trans
        (call.handle_of_code (by rw [code]; decide))
    have holds : o.pool.Holds n := by
      rcases requested with rfl | ⟨x, submitted, short⟩
      · exact roomed.holds
      · exact (roomed.submitted handle x submitted).anti short
    exact holds.release taken unreleased
  · intro pc
    have ready := indexed.accepts
    simp only [Owner.Armed, pc] at ready
    obtain ⟨taken, unreleased⟩ := ready rfl
    exact (indexed.bounded.release taken unreleased).2
  · obtain ⟨q, cleared, -⟩ := indexed.bounded.clear
    exact Option.isSome_iff_exists.mpr ⟨q, cleared⟩

theorem pool_indices_safe_collected :
    ∃ as w o, Run next anyStep setup as w ∧ w.owners[0]? = some o ∧
      o.pc = .guarded (.pollRead 8) .pending ∧
      IndicesSafe o (submissionsOf (observe next (footprints 0) setup as)) := by
  obtain ⟨w, o, ⟨as, run⟩, owner, pc⟩ :=
    exec_owner anyStep setup collectedRead 0 (fun _ o => o.pc)
      (.guarded (.pollRead 8) .pending) (by decide)
  exact ⟨as, w, o, run, owner, pc, (pool_indices_safe run owner).1⟩

end Run

end World

end Iocp
