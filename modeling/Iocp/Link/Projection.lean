import Iocp.Link.View
import Mathlib.Tactic.Abel

/-!
# The system projects onto each of its headers

Every step of the system is, for each header, no step at all, one step of its
link, or the creation of its owner. A property kept by the steps of a link is
therefore an invariant of every header of every reachable system.
-/

namespace Iocp

open Totals Transition

namespace World

/-- An operation on a created header, under a key that is not reserved. -/
def Knows (w : World) (op : Op) : Prop :=
  op.key < reservedPorts ∧ op.owner < w.owners.length

/-- Every operation in the system is known, wherever its packet has travelled. -/
structure Valid (w : World) : Prop where
  owners : ∀ o ∈ w.owners, o.key < reservedPorts
  flights : ∀ op ∈ w.inFlight, w.Knows op
  packets : ∀ p ∈ w.queue, ∀ op status, p.io = some (op, status) → p.key = op.key ∧ w.Knows op
  statuses : ∀ t ∈ w.drivers, ∀ s, t.pc.held = some s → ∀ op, s.op = some op →
    s.completionKey = op.key ∧ w.Knows op

theorem Valid.key {w : World} (valid : w.Valid) {t : Driver} (member : t ∈ w.drivers) {s : Status}
    (held : t.pc.held = some s) {op : Op} (pointer : s.op = some op) :
    s.completionKey < reservedPorts := by
  obtain ⟨key, known⟩ := valid.statuses t member s held op pointer
  exact key ▸ known.1

theorem Valid.in_scope {w : World} (valid : w.Valid) {k : Token} (h : k ∈ w.tokens) :
    k.op.owner < w.owners.length := by
  simp only [tokens, Multiset.mem_add, mem_total] at h
  rcases h with (⟨op, hop, hk⟩ | ⟨p, hp, hk⟩) | ⟨t, ht, hk⟩
  · rw [Multiset.mem_singleton.mp hk]
    exact (valid.flights op hop).2
  · obtain ⟨status, hio, -⟩ := Packet.mem_tokens hk
    exact (valid.packets p hp k.op status hio).2.2
  · obtain ⟨-, s, held, pointer⟩ := DriverPc.mem_tokens hk
    exact (valid.statuses t ht s held k.op pointer).2.2

section Tokens

variable {w : World} {d : Nat} {t : Driver}

theorem afterTask_tokens (i : Nat) (o : Owner) (e : Effect) :
    (w.afterTask i o e).tokens = e.tokens + w.tokens := by
  simp only [tokens, afterTask, total_append]
  cases h : e.submit with
  | none => simp [Effect.tokens, h]
  | some op =>
      simp only [Effect.tokens, h, Option.toList_some, total_cons, total_nil, add_zero]
      abel

theorem afterComplete_tokens {k : Nat} {op : Op} (flight : w.inFlight[k]? = some op)
    (status : Final) :
    ∃ R, w.tokens = ⟨op, .inFlight⟩ ::ₘ R ∧
      (w.afterComplete k op status).tokens = ⟨op, .queued status⟩ ::ₘ R := by
  refine ⟨total (fun op => {⟨op, .inFlight⟩}) (w.inFlight.eraseIdx k) +
    total Packet.tokens w.queue + total (fun t => t.pc.tokens) w.drivers, ?_, ?_⟩
  · simp only [tokens, total_eraseIdx _ flight, ← Multiset.singleton_add]
    abel
  · simp only [tokens, afterComplete, total_append, total_cons, total_nil, Packet.tokens,
      ← Multiset.singleton_add]
    abel

/-- Replacing the state of one thread replaces its token. -/
theorem thread_tokens (thread : w.drivers[d]? = some t) :
    ∃ R, w.tokens = t.pc.tokens + R ∧
      ∀ (v : World) (u : Driver), v.inFlight = w.inFlight → v.queue = w.queue →
        v.drivers = w.drivers.set d u → v.tokens = u.pc.tokens + R := by
  refine ⟨total (fun op => {⟨op, .inFlight⟩}) w.inFlight + total Packet.tokens w.queue +
    total (fun t => t.pc.tokens) (w.drivers.eraseIdx d), ?_, ?_⟩
  · simp only [tokens, total_eraseIdx _ thread]
    abel
  · intro v u hf hq hd
    simp only [tokens, hf, hq, hd, total_set _ thread]
    abel

/-- Dequeueing moves the token of the packet to the thread. -/
theorem dequeue_tokens {p : Packet} {rest : List Packet} {u : Driver}
    (thread : w.drivers[d]? = some t) (pc : t.pc = .ready) (queue : w.queue = p :: rest) :
    ∃ R, w.tokens = p.tokens + R ∧
      ({ w with queue := rest, drivers := w.drivers.set d u } : World).tokens =
        u.pc.tokens + R := by
  refine ⟨total (fun op => {⟨op, .inFlight⟩}) w.inFlight + total Packet.tokens rest +
    total (fun t => t.pc.tokens) (w.drivers.eraseIdx d), ?_, ?_⟩
  · have none : t.pc.tokens = 0 := by rw [pc, DriverPc.tokens]
    simp only [tokens, queue, total_cons, total_eraseIdx _ thread, none, zero_add]
    abel
  · simp only [tokens, total_set _ thread]
    abel

end Tokens

/-- Which label an action of the system has for the header of owner `i`. -/
def Concerns (w : World) (a : Action) (i : Nat) (l : Link.Label) : Prop :=
  match a, l with
  | .task j act, .task act' => j = i ∧ act = act'
  | .complete _ _, .complete => True
  | .driver d act, .driver act' =>
      act = act' ∧ ∃ t, w.drivers[d]? = some t ∧ (act = .skip → t.loop = .user) ∧
        ∀ release, act = .load release → ∃ s op, t.pc = .status s ∧ s.op = some op ∧
          op.owner = i ∧ t.mayProcess s release = true
  | .driver d (.exchange spurious), .unlock release spurious' =>
      spurious = spurious' ∧ ∃ t s old op, w.drivers[d]? = some t ∧
        t.pc = .unlocking s old release ∧ s.op = some op ∧ op.owner = i
  | _, _ => False

/-- What a step of the system is for the owner found at index `i` after it. -/
inductive Moves (w : World) (a : Action) (v : World) (i : Nat) (o' : Owner) : Prop
  | created {kind options} (fresh : w.owners[i]? = none) (action : a = .create kind options)
      (owner : o' = Owner.new kind options.key options.maxBufferSize)
      (tokens : v.tokensOf i = 0)
  | still (owner : w.owners[i]? = some o') (tokens : v.tokensOf i = w.tokensOf i)
  | moved {o l} (owner : w.owners[i]? = some o) (concerns : w.Concerns a i l)
      (step : Link.Step i ⟨o, w.tokensOf i⟩ l ⟨o', v.tokensOf i⟩)

section Moves

variable {w v : World} {a : Action} {i : Nat} {o' : Owner}

/-- A step that touches neither the owners nor the tokens. -/
theorem Moves.of_same (owners : v.owners = w.owners) (tokens : v.tokens = w.tokens)
    (h : v.owners[i]? = some o') : Moves w a v i o' :=
  .still (owners ▸ h) (by rw [tokensOf, tokensOf, tokens])

/-- A step that moves one token and touches at most the owner of its header. -/
theorem Moves.of_token {op : Op} {s : Stage} {B R : Multiset Token} {f : Owner → Owner}
    {l : Link.Label} (before : w.tokens = ⟨op, s⟩ ::ₘ R) (after : v.tokens = B + R)
    (own : ∀ t ∈ B, t.op.owner = op.owner)
    (owners : ∀ j, v.owners[j]? = w.owners[j]?.map fun o => if op.owner = j then f o else o)
    (concerns : w.Concerns a op.owner l)
    (step : ∀ o T, w.owners[op.owner]? = some o →
      Link.Step op.owner ⟨o, ⟨op, s⟩ ::ₘ T⟩ l ⟨f o, B + T⟩)
    (h : v.owners[i]? = some o') : Moves w a v i o' := by
  rw [owners i] at h
  obtain ⟨o, ho, hf⟩ := Option.map_eq_some_iff.mp h
  by_cases hi : op.owner = i
  · subst hi
    rw [if_pos rfl] at hf
    have hB : B.filter (fun t => t.op.owner = op.owner) = B := Multiset.filter_eq_self.mpr own
    refine .moved ho concerns ?_
    simp only [tokensOf, before, after, Multiset.filter_add, hB,
      Multiset.filter_cons_of_pos (p := fun t : Token => t.op.owner = op.owner)
        (s := R) (a := ⟨op, s⟩) rfl]
    exact hf ▸ step o _ ho
  · rw [if_neg hi] at hf
    have hB : B.filter (fun t => t.op.owner = i) = 0 :=
      Multiset.filter_eq_nil.mpr fun t ht hti => hi (own t ht ▸ hti)
    refine .still (hf ▸ ho) ?_
    simp only [tokensOf, before, after, Multiset.filter_add, hB, zero_add]
    rw [Multiset.filter_cons_of_neg _ (by simpa using hi)]

theorem getElem?_modify_if (f : Owner → Owner) (l : List Owner) (k j : Nat) :
    (l.modify k f)[j]? = l[j]?.map fun o => if k = j then f o else o := by
  rw [List.getElem?_modify]
  by_cases h : k = j <;> simp [h]

theorem getElem?_set_if {l : List Owner} {k : Nat} {o : Owner} (h : l[k]? = some o)
    (f : Owner → Owner) (j : Nat) :
    (l.set k (f o))[j]? = l[j]?.map fun o => if k = j then f o else o := by
  by_cases hk : k = j
  · subst hk
    obtain ⟨hlt, _⟩ := List.getElem?_eq_some_iff.mp h
    simp [List.getElem?_set_self hlt, h]
  · simp [List.getElem?_set_ne hk, hk]

theorem getElem?_map_self (l : List Owner) (k j : Nat) :
    l[j]? = l[j]?.map fun o => if k = j then id o else o := by
  simp

/-- What `poll` makes of the status of an operation. -/
theorem polled_status {t : Driver} {s : Status} {pending : Int}
    (key : s.completionKey < reservedPorts) :
    (t.polled s (s.poll pending).2).pc = .status s := by
  simp [Status.poll, Nat.not_le.mpr key, Driver.polled]

/-- What `poll_during_shutdown` makes of the status of an operation. -/
theorem drained_status {t : Driver} {s : Status} (key : s.completionKey < reservedPorts) :
    (t.drained s s.pollDuringShutdown).pc = .status s := by
  simp [Status.pollDuringShutdown, Nat.not_le.mpr key, Driver.drained]

/-- Whatever `poll` makes of a message, the thread holds no token afterwards. -/
theorem polled_null {t : Driver} {s : Status} {pending : Int} (null : s.op = none) :
    (t.polled s (s.poll pending).2).pc.tokens = 0 := by
  rcases s.poll_cases pending with ⟨-, h⟩ | ⟨-, h⟩ | ⟨-, -, h⟩
  all_goals
    rw [h]
    exact Status.tokens_none null _

theorem drained_null {t : Driver} {s : Status} (null : s.op = none) :
    (t.drained s s.pollDuringShutdown).pc.tokens = 0 := by
  rcases s.pollDuringShutdown_cases with ⟨-, h⟩ | ⟨-, h⟩ | ⟨-, -, h⟩
  all_goals
    rw [h]
    exact Status.tokens_none null _

/-- A poll only submits on its own header. -/
theorem acts_tokens {j : Nat} {o : Owner} {pending : Int} {act : TaskAct} {e : Effect}
    (acts : o.Acts j pending act o' e) : ∀ t ∈ e.tokens, t.op.owner = j := by
  cases acts
  case submit => simp [Effect.tokens, Owner.submission]
  all_goals simp [Effect.tokens]

theorem task_moves {j : Nat} {o p : Owner} {act : TaskAct} {e : Effect}
    (owner : w.owners[j]? = some o) (acts : o.Acts j w.pending act p e)
    (h : (w.afterTask j p e).owners[i]? = some o') :
    Moves w (.task j act) (w.afterTask j p e) i o' := by
  have own := acts_tokens acts
  obtain ⟨hlt, _⟩ := List.getElem?_eq_some_iff.mp owner
  by_cases hi : j = i
  · subst hi
    simp only [afterTask, List.getElem?_set_self hlt, Option.some.injEq] at h
    subst h
    refine .moved (l := .task act) owner ⟨rfl, rfl⟩ ?_
    have he : e.tokens.filter (fun t => t.op.owner = j) = e.tokens :=
      Multiset.filter_eq_self.mpr own
    simp only [tokensOf, afterTask_tokens, Multiset.filter_add, he]
    exact .task acts
  · simp only [afterTask, List.getElem?_set_ne hi] at h
    have he : e.tokens.filter (fun t => t.op.owner = i) = 0 :=
      Multiset.filter_eq_nil.mpr fun t ht hti => hi (own t ht ▸ hti)
    exact .still h (by simp only [tokensOf, afterTask_tokens, Multiset.filter_add, he, zero_add])

theorem complete_moves {k : Nat} {op : Op} {status : Final} (flight : w.inFlight[k]? = some op)
    (admits : op.admits status = true)
    (h : (w.afterComplete k op status).owners[i]? = some o') :
    Moves w (.complete k status) (w.afterComplete k op status) i o' := by
  obtain ⟨R, before, after⟩ := afterComplete_tokens flight status
  exact .of_token (l := .complete) before (by rw [after, ← Multiset.singleton_add])
    (by simp) (getElem?_modify_if _ _ _) trivial
    (fun o T _ => by rw [Multiset.singleton_add]; exact .complete admits) h

/-- A step of a thread that moves the token of the status it holds. -/
theorem thread_moves {d : Nat} {t u : Driver} {op : Op} {s s' : Stage} {act : DriverAct}
    {l : Link.Label} {f : Owner → Owner} (thread : w.drivers[d]? = some t)
    (holds : t.pc.tokens = {⟨op, s⟩}) (then_holds : u.pc.tokens = {⟨op, s'⟩})
    (flights : v.inFlight = w.inFlight) (queue : v.queue = w.queue)
    (drivers : v.drivers = w.drivers.set d u)
    (owners : ∀ j, v.owners[j]? = w.owners[j]?.map fun o => if op.owner = j then f o else o)
    (concerns : w.Concerns (.driver d act) op.owner l)
    (step : ∀ o T, w.owners[op.owner]? = some o →
      Link.Step op.owner ⟨o, ⟨op, s⟩ ::ₘ T⟩ l ⟨f o, ⟨op, s'⟩ ::ₘ T⟩)
    (h : v.owners[i]? = some o') : Moves w (.driver d act) v i o' := by
  obtain ⟨R, before, after⟩ := thread_tokens thread
  exact .of_token (by rw [before, holds, Multiset.singleton_add])
    ((after v u flights queue drivers).trans (by rw [then_holds])) (by simp) owners concerns
    (fun o T ho => by rw [Multiset.singleton_add]; exact step o T ho) h

/-- A step of a thread that holds no token before and after. -/
theorem thread_same {d : Nat} {t u : Driver} (thread : w.drivers[d]? = some t)
    (holds : t.pc.tokens = u.pc.tokens)
    (flights : v.inFlight = w.inFlight) (queue : v.queue = w.queue)
    (drivers : v.drivers = w.drivers.set d u) : v.tokens = w.tokens := by
  obtain ⟨R, before, after⟩ := thread_tokens thread
  rw [after v u flights queue drivers, before, holds]

theorem concerns_driver {d : Nat} {t : Driver} {act : DriverAct} (thread : w.drivers[d]? = some t)
    (skip : act ≠ .skip) (load : ∀ release, act ≠ .load release) (j : Nat) :
    w.Concerns (.driver d act) j (.driver act) :=
  ⟨rfl, t, thread, fun h => absurd h skip, fun release h => absurd h (load release)⟩

/-- The packet that a thread has dequeued is returned by its poll. -/
theorem account_moves {d : Nat} {t u : Driver} {during : Bool} {s : Status} (valid : w.Valid)
    (thread : w.drivers[d]? = some t) (pc : t.pc = .dequeued during s)
    (null : s.op = none → u.pc.tokens = 0)
    (status : s.completionKey < reservedPorts → u.pc = .status s)
    (owners : v.owners = w.owners) (flights : v.inFlight = w.inFlight) (queue : v.queue = w.queue)
    (drivers : v.drivers = w.drivers.set d u) (h : v.owners[i]? = some o') :
    Moves w (.driver d .account) v i o' := by
  cases hop : s.op with
  | none =>
      have same := thread_same thread
        (by rw [pc, DriverPc.tokens, Status.tokens_none hop, null hop]) flights queue drivers
      exact .of_same owners same h
  | some op =>
      have key := valid.key (List.mem_of_getElem? thread) (by rw [pc, DriverPc.held]) hop
      exact thread_moves (f := id) thread (by rw [pc, DriverPc.tokens, Status.tokens_some hop])
        (by rw [status key, DriverPc.tokens, Status.tokens_some hop]) flights queue drivers
        (by rw [owners]; exact getElem?_map_self _ _)
        (concerns_driver thread (by simp) (by simp) _) (fun o T _ => .account) h

theorem driven_moves {d : Nat} {t : Driver} {act : DriverAct} (valid : w.Valid)
    (thread : w.drivers[d]? = some t) (driven : w.Driven d t act v)
    (h : v.owners[i]? = some o') : Moves w (.driver d act) v i o' := by
  cases driven with
  | @dequeue during p rest pc queue may =>
      obtain ⟨R, before, after⟩ := dequeue_tokens thread pc queue
        (u := { t with pc := .dequeued during p.status })
      rcases p.status_tokens during with ⟨h0, h1⟩ | ⟨op, status, _, h0, h1⟩
      · exact .of_same rfl (by rw [after, before, DriverPc.tokens, h0, h1]) h
      · exact .of_token (f := id) (by rw [before, h0, Multiset.singleton_add])
          (by rw [after, DriverPc.tokens, h1]) (by simp) (getElem?_map_self _ _)
          (concerns_driver thread (by simp) (by simp) _)
          (fun o T _ => by rw [Multiset.singleton_add]; exact .dequeue) h
  | poll pc =>
      exact account_moves valid thread pc polled_null polled_status rfl rfl rfl rfl h
  | pollDuringShutdown pc =>
      exact account_moves valid thread pc drained_null drained_status rfl rfl rfl rfl h
  | @loadNull s release pc may null =>
      exact .of_same rfl (thread_same thread
        (by rw [pc, DriverPc.tokens, Driver.processed, DriverPc.tokens, Status.tokens_none null,
          Status.tokens_none null]) rfl rfl rfl) h
  | @load s release op o pc may pointer owner =>
      refine thread_moves (l := .driver (.load release)) (f := id) thread
        (by rw [pc, DriverPc.tokens, Status.tokens_some pointer])
        (by rw [Driver.unlocked_tokens, Status.tokens_some pointer]) rfl rfl rfl
        (getElem?_map_self _ _)
        ⟨rfl, t, thread, by simp, fun r hr => ⟨s, op, pc, pointer, rfl, ?_⟩⟩ (fun p T hp => ?_) h
      · cases hr
        exact may
      · rw [owner, Option.some.injEq] at hp
        exact hp ▸ .load
  | @exchange s old release spurious op o pc pointer owner =>
      let f (o : Owner) : Owner := { o with
        header := o.header.modify fun _ => (o.header.value.unlockExchange old spurious).1 }
      refine thread_moves (l := .unlock release spurious) (f := f) thread
        (by rw [pc, DriverPc.tokens, Status.tokens_some pointer])
        (by rw [Driver.unlocked_tokens, Status.tokens_some pointer]) rfl rfl rfl
        (getElem?_set_if owner f) ⟨rfl, t, s, old, op, thread, pc, pointer, rfl⟩
        (fun p T hp => ?_) h
      rw [owner, Option.some.injEq] at hp
      exact hp ▸ .exchange
  | @wake s op pc pointer =>
      exact thread_moves thread (by rw [pc, DriverPc.tokens, Status.tokens_some pointer])
        (by rw [Driver.processed, DriverPc.tokens, Status.tokens_some pointer]) rfl rfl rfl
        (getElem?_modify_if _ _ _) (concerns_driver thread (by simp) (by simp) _)
        (fun o T _ => .wake) h
  | @skip s pc user =>
      cases hop : s.op with
      | none =>
          exact .of_same rfl (thread_same thread
            (by rw [pc, DriverPc.tokens, DriverPc.tokens, Status.tokens_none hop,
              Status.tokens_none hop]) rfl rfl rfl) h
      | some op =>
          exact thread_moves (l := .driver .skip) (f := id) thread
            (by rw [pc, DriverPc.tokens, Status.tokens_some hop])
            (by rw [DriverPc.tokens, Status.tokens_some hop]) rfl rfl rfl
            (getElem?_map_self _ _) ⟨rfl, t, thread, fun _ => user, by simp⟩
            (fun o T _ => .skip) h
  | @dropNull s pc null =>
      exact .of_same rfl (thread_same thread
        (by rw [pc, DriverPc.tokens, DriverPc.tokens, Status.tokens_none null]) rfl rfl rfl) h
  | @drop s op pc pointer =>
      obtain ⟨R, before, after⟩ := thread_tokens thread
      let v : World := { w with
        owners := w.owners.modify op.owner fun o => { o with header := o.header.drop }
        drivers := w.drivers.set d { t with pc := .ready } }
      have after := after v { t with pc := .ready } rfl rfl rfl
      exact .of_token (l := .driver .drop)
        (by rw [before, pc, DriverPc.tokens, Status.tokens_some pointer, Multiset.singleton_add])
        after (by simp [DriverPc.tokens])
        (getElem?_modify_if _ _ _) (concerns_driver thread (by simp) (by simp) _)
        (fun o T _ => by rw [DriverPc.tokens, zero_add]; exact .drop) h
  | finish pc loop =>
      exact .of_same rfl (thread_same (u := { t with loop := .returned (.ok ()) }) thread
        rfl rfl rfl rfl) h

/-- Every step of the system moves each header by at most one step of its link. -/
theorem stepped_moves (valid : w.Valid) (stepped : w.Stepped a v) (h : v.owners[i]? = some o') :
    Moves w a v i o' := by
  cases stepped with
  | task owner acts => exact task_moves owner acts h
  | complete flight admits => exact complete_moves flight admits h
  | driver thread driven => exact driven_moves valid thread driven h
  | @post key =>
      exact .of_same rfl (by simp [World.tokens, World.post, Packet.tokens]) h
  | permit granted => exact .of_same rfl rfl h
  | refusePermit refused => exact .of_same rfl rfl h
  | undo failed => exact .of_same rfl rfl h
  | release holds => exact .of_same rfl rfl h
  | @create kind options key =>
      by_cases hi : i < w.owners.length
      · rw [List.getElem?_append_left hi] at h
        exact .still h rfl
      · obtain ⟨hlt, ho⟩ := List.getElem?_eq_some_iff.mp h
        have hi' : i = w.owners.length := by
          simp only [List.length_append, List.length_singleton] at hlt
          omega
        subst hi'
        simp only [List.getElem_concat_length] at ho
        refine .created (by simp) rfl ho.symm (Multiset.filter_eq_nil.mpr ?_)
        intro t ht hti
        exact absurd (valid.in_scope ht) (by omega)

end Moves

end World

end Iocp
