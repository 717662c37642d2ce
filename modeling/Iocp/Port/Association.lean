import Iocp.Link.Accepts

/-!
# The association of sockets with their port

The operating system queues a packet for an operation only when its socket was
associated with a port. `register_handle` and `register_socket` make the
association, a duplicate denotes the socket it was made from, and the socket
that an accept returns is wrapped with the port but never associated.

## Implementation notes

Everything derived from a registration stores a clone of the same port, so one
port is enough. A raw socket is named by a number that is not given out twice,
and the vector of a pool keeps the names of all that it created. No caller sees
the raw socket of a pool or of a `Socket`, so only one of its own is registered.
The key of an accepted socket is never read, since no packet carries it.
-/

namespace Iocp

open Totals Transition

namespace Call

/-- Only an accept that finds no socket in its pool adds one. -/
theorem prepare_sockets (call : Call) (extra : Nat) (newSocket : Except Nat Nat)
    (pool : BufferPool) (sockets : SocketPool) :
    (call.prepare extra newSocket pool sockets).2.1.sockets = sockets.sockets ∨
      ∃ raw, newSocket = .ok raw ∧
        (call.prepare extra newSocket pool sockets).2.1.sockets = sockets.sockets ++ [raw] := by
  cases call with
  | accept =>
      simp only [prepare, prepareAccept_sockets, SocketPool.take]
      split
      · cases newSocket with
        | error code => exact .inl rfl
        | ok raw => exact .inr ⟨raw, rfl, rfl⟩
      · exact .inl rfl
  | _ => exact .inl rfl

/-- A `collect` moves an index of the pool and no socket. -/
theorem collect_sockets (call : Call) (transferred : Nat) (duplicate : Option Nat)
    (pool : BufferPool) (sockets : SocketPool) :
    (call.collect transferred duplicate pool sockets).2.1.sockets = sockets.sockets := by
  cases call with
  | accept => simp only [collect, collectAccept_sockets, SocketPool.release]
  | _ => rfl

theorem collect_returns {call : Call} {transferred : Nat} {duplicate : Option Nat}
    {pool : BufferPool} {sockets : SocketPool} {raw : Nat} {outcome : OverlappedOutcome}
    (h : (call.collect transferred duplicate pool sockets).2.2 = .output (.socket raw) outcome) :
    raw ∈ sockets.sockets := by
  have read (room : Nat) :
      (collectRead room transferred pool).2 ≠ .output (.socket raw) outcome := by
    simp only [collectRead]
    split
    · simp
    · split <;> simp
  cases call with
  | pollRead room => exact absurd h (read room)
  | read len => exact absurd h (read len)
  | accept =>
      simp only [collect, collectAccept, SocketPool.release] at h
      split at h
      case h_1 => cases h
      case h_2 q raw' released =>
          split at h
          case h_1 => cases h
          case h_2 =>
              cases h
              exact List.mem_of_getElem? (congrArg Prod.snd released)
  | _ => simp [collect] at h

end Call

/-- Sockets are closed and keep their names. -/
theorem SocketPool.clear_sockets (p : SocketPool) {q : SocketPool} (h : p.clear = some q) :
    q.sockets = p.sockets := by
  obtain ⟨-, h⟩ := Option.ite_none_right_eq_some.mp h
  cases h
  rfl

namespace Owner

variable {i : Nat} {o o' : Owner} {pending : Int} {a : TaskAct} {e : Effect}

/-- The vector of the pool only grows, by the socket that a `prepare` creates. -/
theorem act_pool (h : o.act i pending a = some (o', e)) :
    o'.sockets.sockets = o.sockets.sockets ∨
      ∃ extra raw, a = .prepare extra (.ok raw) ∧
        o'.sockets.sockets = o.sockets.sockets ++ [raw] := by
  cases a with
  | prepare extra newSocket =>
      obtain ⟨-, call, -, prepares⟩ := prepare_prepares h
      rw [prepares.pools.2]
      rcases call.prepare_sockets extra newSocket o.preparePool o.sockets with
        same | ⟨raw, rfl, made⟩
      · exact .inl same
      · exact .inr ⟨extra, raw, rfl, made⟩
  | collect duplicate =>
      obtain ⟨-, call, -, collects⟩ := collect_collects h
      left
      rcases collects.pools with ⟨-, -, -, same⟩ | ⟨n, -, -, made⟩
      · rw [same]
      · rw [made, call.collect_sockets]
  | dropGuard =>
      obtain ⟨-, result, -, drops⟩ := dropGuard_drops h
      left
      cases drops with
      | handle kind => rfl
      | socket kind cleared => exact o.sockets.clear_sockets cleared
      | panic kind failed => rfl
  | _ => exact .inl (congrArg _ ((act_acts h).same_sockets (by simp) (by simp) (by simp)))

/-- A socket that a `collect` returns is one of the pool. -/
theorem collect_socket {duplicate : Option Nat} {raw : Nat}
    (h : o.collect duplicate = some (o', e)) (pc : o'.pc = .dropGuard (.ready (.socket raw))) :
    raw ∈ o.sockets.sockets := by
  obtain ⟨-, call, -, collects⟩ := collect_collects h
  cases collects with
  | ready found made applied =>
      cases pc
      exact call.collect_returns (congrArg (fun next => next.2.2) made)
  | _ => cases pc

end Owner

/-- The step is handed a new socket for a pool. -/
def Action.makes (raw : Nat) : Action → Prop
  | .task _ (.prepare _ (.ok new)) => new = raw
  | _ => False

namespace World

/-- The raw socket that a step wraps after an accept, with the options of the result. -/
def wraps (w : World) : Action → Option (Nat × RegisterOptions)
  | .task i (.collect duplicate) =>
      match w.owners[i]? with
      | none => none
      | some o =>
          (o.collect duplicate).bind fun (next, _) =>
            match next.pc with
            | .dropGuard (.ready (.socket raw)) => some (raw, ⟨o.key, o.pool.maxBufferSize⟩)
            | _ => none
  | _ => none

/-- The raw sockets that the pools created. -/
def pooled (w : World) : List Nat := w.owners.flatMap fun o => o.sockets.sockets

/-- The operating system ends operation `k` and queues no packet. -/
def completeUnseen (w : World) (k : Nat) (status : Final) : Option World :=
  match w.inFlight[k]? with
  | none => none
  | some op =>
      if op.admits status then
        some { w with
          inFlight := w.inFlight.eraseIdx k
          owners := w.owners.modify op.owner (·.complete op status) }
      else none

section Pooled

variable {w v : World} {a : Action}

theorem mem_pooled {raw : Nat} : raw ∈ w.pooled ↔ ∃ o ∈ w.owners, raw ∈ o.sockets.sockets :=
  List.mem_flatMap

/-- A step that keeps the pool of every owner. -/
theorem pooled_congr (same : v.owners.map Owner.sockets = w.owners.map Owner.sockets) :
    v.pooled = w.pooled := by
  have flat (u : World) : u.pooled = (u.owners.map Owner.sockets).flatMap (·.sockets) := by
    rw [pooled, List.flatMap_map]
  rw [flat, flat, same]

/-- A change of the owner at an index that keeps its pool. -/
theorem modify_sockets {os : List Owner} {i : Nat} {f : Owner → Owner}
    (keep : ∀ o, (f o).sockets = o.sockets) :
    (os.modify i f).map Owner.sockets = os.map Owner.sockets := by
  apply List.ext_getElem?
  intro j
  rw [List.getElem?_map, List.getElem?_map, List.getElem?_modify]
  cases os[j]? with
  | none => split <;> rfl
  | some o => split <;> simp [keep]

/-- A driving thread moves no pool. -/
theorem driven_pooled {d : Nat} {t : Driver} {act : DriverAct} (driven : w.Driven d t act v) :
    v.pooled = w.pooled := by
  apply pooled_congr
  cases driven with
  | exchange pc pointer owner =>
      obtain ⟨bound, rfl⟩ := List.getElem?_eq_some_iff.mp owner
      rw [List.map_set, ← List.getElem_map Owner.sockets (h := by simpa using bound)]
      exact List.set_getElem_self _
  | wake => exact modify_sockets fun _ => rfl
  | drop => exact modify_sockets fun _ => rfl
  | _ => rfl

/-- The owner of a step is replaced by one with a pool that has grown. -/
theorem task_pooled {i : Nat} {o o' : Owner} {e : Effect} (owner : w.owners[i]? = some o)
    (grows : o.sockets.sockets ⊆ o'.sockets.sockets) {raw : Nat} (old : raw ∈ w.pooled) :
    raw ∈ (w.afterTask i o' e).pooled := by
  obtain ⟨o₁, member, holds⟩ := mem_pooled.mp old
  obtain ⟨j, found⟩ := List.mem_iff_getElem?.mp member
  rw [mem_pooled]
  have bound : i < w.owners.length := (List.getElem?_eq_some_iff.mp owner).1
  by_cases own : i = j
  · subst own
    rw [owner, Option.some.injEq] at found
    subst found
    exact ⟨o', List.mem_of_getElem? (List.getElem?_set_self bound), grows holds⟩
  · exact ⟨o₁, List.mem_of_getElem? ((List.getElem?_set_ne own).trans found), holds⟩

/-- The pools only grow, by the socket that a `prepare` creates. -/
theorem next_pooled (h : w.next a = some v) :
    (∀ raw ∈ w.pooled, raw ∈ v.pooled) ∧ ∀ raw ∈ v.pooled, raw ∈ w.pooled ∨ a.makes raw := by
  have stepped := next_stepped h
  have keep (same : v.pooled = w.pooled) :
      (∀ raw ∈ w.pooled, raw ∈ v.pooled) ∧ ∀ raw ∈ v.pooled, raw ∈ w.pooled ∨ a.makes raw := by
    rw [same]
    exact ⟨fun _ => id, fun _ => .inl⟩
  cases stepped with
  | @task i o act _ _ owner _ =>
      obtain ⟨o', e, hact, same⟩ := step_act owner (next_eq_some.mp h).1
      rw [same]
      have pool := Owner.act_pool hact
      have grows : o.sockets.sockets ⊆ o'.sockets.sockets := by
        rcases pool with same | ⟨_, _, _, made⟩
        · exact same ▸ List.Subset.refl _
        · exact made ▸ List.subset_append_left _ _
      refine ⟨fun raw => task_pooled owner grows, fun raw member => ?_⟩
      obtain ⟨o₁, member, holds⟩ := mem_pooled.mp member
      rcases List.mem_or_eq_of_mem_set member with old | rfl
      · exact .inl (mem_pooled.mpr ⟨o₁, old, holds⟩)
      · rcases pool with same | ⟨extra, new, rfl, made⟩
        · exact .inl (mem_pooled.mpr ⟨o, List.mem_of_getElem? owner, same ▸ holds⟩)
        · rw [made, List.mem_append, List.mem_singleton] at holds
          rcases holds with old | rfl
          · exact .inl (mem_pooled.mpr ⟨o, List.mem_of_getElem? owner, old⟩)
          · exact .inr rfl
  | complete flight admits => exact keep (pooled_congr (modify_sockets fun _ => rfl))
  | driver thread driven => exact keep (driven_pooled driven)
  | create key => exact keep (by simp [pooled, Owner.new, SocketPool.new])
  | _ => exact keep rfl

/-- An accept returns a socket of its pool. -/
theorem wraps_pooled {raw : Nat} {options : RegisterOptions}
    (h : w.wraps a = some (raw, options)) : raw ∈ w.pooled := by
  simp only [wraps] at h
  split at h
  case h_1 i duplicate =>
      split at h
      case h_1 => cases h
      case h_2 o owner =>
          obtain ⟨⟨next, e⟩, collected, h⟩ := Option.bind_eq_some_iff.mp h
          split at h
          case h_1 raw' pc =>
              cases h
              exact mem_pooled.mpr
                ⟨o, List.mem_of_getElem? owner, Owner.collect_socket collected pc⟩
          case h_2 => cases h
  case h_2 => cases h

end Pooled

end World

/-- The system with the raw socket of each owner, the raw sockets that were
associated with the port, and the operations that ended without a packet. -/
structure Registry where
  world : World
  raws : List Nat
  associated : List Nat
  lost : List Op

/-- The steps by which sockets are made, and all others. -/
inductive RegistryAct
  /-- `register_handle` or `register_socket`. -/
  | register (kind : Kind) (raw : Nat) (options : RegisterOptions)
  /-- A `register_socket` whose `Socket::new` fails. -/
  | associate (raw : Nat)
  /-- `duplicate`, with a clone that denotes the same raw socket. -/
  | duplicate (i : Nat)
  | run (a : Action)

namespace Registry

/-- A port without sockets. -/
def start (loops : List Loop) : Registry := ⟨World.start loops, [], [], []⟩

/-- A new owner for a raw socket. -/
def create (r : Registry) (kind : Kind) (raw : Nat) (options : RegisterOptions) :
    Option Registry :=
  (r.world.next (.create kind options)).map fun w =>
    { r with world := w, raws := r.raws ++ [raw] }

/-- `Socket::new` for the raw socket of an accept that has ended. -/
def wrap (r : Registry) : Option (Nat × RegisterOptions) → Option Registry
  | none => some r
  | some (raw, options) => r.create .socket raw options

/-- The packet of operation `k` reaches the port. -/
def seen (r : Registry) (k : Nat) : Bool :=
  match r.world.inFlight[k]? with
  | none => true
  | some op => (r.raws[op.owner]?).any fun raw => raw ∈ r.associated

/-- A raw socket that neither a pool nor a caller has seen. -/
def fresh (r : Registry) (raw : Nat) : Bool := raw ∉ r.world.pooled ∧ raw ∉ r.associated

/-- A raw socket that is made for a pool is a new one, and so is one that a
caller registers: a socket is associated once. -/
def admits (r : Registry) : RegistryAct → Bool
  | .register _ raw _ => r.fresh raw
  | .associate raw => r.fresh raw
  | .run (.task _ (.prepare _ (.ok raw))) => r.fresh raw
  | _ => true

/-- One step of the system with its sockets. -/
def perform (r : Registry) : RegistryAct → Option Registry
  | .register kind raw options =>
      { r with associated := r.associated ++ [raw] }.create kind raw options
  | .associate raw => some { r with associated := r.associated ++ [raw] }
  | .duplicate i =>
      match r.world.owners[i]?, r.raws[i]? with
      | some o, some raw =>
          if o.alive then r.create o.kind raw ⟨o.key, o.pool.maxBufferSize⟩ else none
      | _, _ => none
  | .run (.create _ _) => none
  | .run (.complete k status) =>
      if r.seen k then (r.world.next (.complete k status)).map fun w => { r with world := w }
      else (r.world.completeUnseen k status).map fun w =>
        { r with world := w, lost := r.lost ++ r.world.inFlight[k]?.toList }
  | .run a =>
      (r.world.next a).bind fun w => { r with world := w }.wrap (r.world.wraps a)

/-- The steps that the operating system admits. -/
def step (r : Registry) (a : RegistryAct) : Option Registry :=
  if r.admits a then r.perform a else none

/-- The raw socket of every owner was associated with the port. -/
def Associated (r : Registry) : Prop := ∀ raw ∈ r.raws, raw ∈ r.associated

/-- No accept returns a socket. -/
def wrapsNone (r : Registry) : RegistryAct → Bool
  | .run a => r.world.wraps a = none
  | _ => true

/-- What the steps do to the raw sockets of owners, pools and the port. -/
structure Extends (r : Registry) (a : RegistryAct) (s : Registry) : Prop where
  raws : ∀ raw ∈ r.raws, raw ∈ s.raws
  kept : ∀ raw ∈ r.world.pooled, raw ∈ s.world.pooled
  pooled : ∀ raw ∈ s.world.pooled, raw ∈ r.world.pooled ∨ ∃ act, a = .run act ∧ act.makes raw
  associated : ∀ raw ∈ s.associated,
    raw ∈ r.associated ∨ a = .associate raw ∨ ∃ kind options, a = .register kind raw options
  wrapped : r.wrapsNone a = false → ∃ raw ∈ s.raws, raw ∈ s.world.pooled

/-- No pool created a raw socket that is associated with the port. -/
def Apart (r : Registry) : Prop := ∀ raw ∈ r.world.pooled, raw ∉ r.associated

/-- No owner has a raw socket that a pool created. -/
def Unpooled (r : Registry) : Prop := ∀ raw ∈ r.raws, raw ∉ r.world.pooled

section Extends

variable {r s t : Registry} {a : RegistryAct}

/-- A new owner has an empty pool. -/
theorem create_extends {kind : Kind} {raw : Nat} {options : RegisterOptions}
    (h : s.create kind raw options = some t) :
    t.raws = s.raws ++ [raw] ∧ t.associated = s.associated ∧ t.world.pooled = s.world.pooled := by
  obtain ⟨w, next, rfl⟩ := Option.map_eq_some_iff.mp h
  refine ⟨rfl, rfl, ?_⟩
  cases World.next_stepped next with
  | create key => simp [World.pooled, Owner.new, SocketPool.new]

/-- The packet of an operation that ends moves no pool. -/
theorem completeUnseen_pooled {w v : World} {k : Nat} {status : Final}
    (h : w.completeUnseen k status = some v) : v.pooled = w.pooled := by
  simp only [World.completeUnseen] at h
  split at h
  case h_1 => cases h
  case h_2 op flight =>
      split at h
      · cases h
        exact World.pooled_congr (World.modify_sockets fun _ => rfl)
      · cases h

/-- A step of the system, and the end of an accept. -/
theorem wrap_extends {act : Action} {w : World} (next : r.world.next act = some w)
    (h : { r with world := w }.wrap (r.world.wraps act) = some s) : Extends r (.run act) s := by
  have pooled := World.next_pooled next
  cases wraps : r.world.wraps act with
  | none =>
      rw [wraps] at h
      cases h
      exact ⟨fun _ => id, pooled.1, fun raw member => (pooled.2 raw member).imp id
        fun makes => ⟨act, rfl, makes⟩, fun _ => .inl, by simp [wrapsNone, wraps]⟩
  | some new =>
      obtain ⟨raw, options⟩ := new
      rw [wraps] at h
      obtain ⟨raws, associated, same⟩ := create_extends h
      refine ⟨?_, ?_, ?_, ?_, ?_⟩
      · exact fun raw' member => raws ▸ List.mem_append_left _ member
      · exact fun raw' member => same ▸ pooled.1 raw' member
      · exact fun raw' member => (pooled.2 raw' (same ▸ member)).imp id
          fun makes => ⟨act, rfl, makes⟩
      · exact fun raw' member => .inl (associated ▸ member)
      · exact fun _ => ⟨raw, raws ▸ List.mem_append_right _ (List.mem_singleton_self raw),
          same ▸ pooled.1 raw (World.wraps_pooled wraps)⟩

/-- Everything a step can do. -/
theorem perform_extends (h : r.perform a = some s) : Extends r a s := by
  cases a with
  | register kind raw options =>
      obtain ⟨raws, associated, same⟩ := create_extends h
      refine ⟨?_, ?_, ?_, ?_, by simp [wrapsNone]⟩
      · exact fun raw' member => raws ▸ List.mem_append_left _ member
      · exact fun raw' member => same ▸ member
      · exact fun raw' member => .inl (same ▸ member)
      · intro raw' member
        rw [associated, List.mem_append, List.mem_singleton] at member
        exact member.imp id fun new => .inr ⟨kind, options, by rw [new]⟩
  | associate raw =>
      cases h
      refine ⟨fun _ => id, fun _ => id, fun _ => .inl, ?_, by simp [wrapsNone]⟩
      intro raw' member
      exact (List.mem_append.mp member).imp id fun new =>
        .inl (by rw [List.mem_singleton.mp new])
  | duplicate i =>
      simp only [perform] at h
      split at h
      case h_1 o raw owner named =>
          split at h
          · obtain ⟨raws, associated, same⟩ := create_extends h
            refine ⟨?_, ?_, ?_, ?_, by simp [wrapsNone]⟩
            · exact fun raw' member => raws ▸ List.mem_append_left _ member
            · exact fun raw' member => same ▸ member
            · exact fun raw' member => .inl (same ▸ member)
            · exact fun raw' member => .inl (associated ▸ member)
          · cases h
      case h_2 => cases h
  | run act =>
      cases act
      case create => cases h
      case complete k status =>
          simp only [perform] at h
          split at h
          · obtain ⟨w, next, rfl⟩ := Option.map_eq_some_iff.mp h
            exact wrap_extends next rfl
          · obtain ⟨w, ends, rfl⟩ := Option.map_eq_some_iff.mp h
            have same := completeUnseen_pooled ends
            exact ⟨fun _ => id, fun raw member => same ▸ member,
              fun raw member => .inl (same ▸ member), fun _ => .inl,
              by simp [wrapsNone, World.wraps]⟩
      all_goals
        obtain ⟨w, next, rest⟩ := Option.bind_eq_some_iff.mp h
        exact wrap_extends next rest

theorem step_eq_some : r.step a = some s ↔ r.admits a = true ∧ r.perform a = some s := by
  simp [step]

theorem step_extends (h : r.step a = some s) : Extends r a s :=
  perform_extends (step_eq_some.mp h).2

/-- The sockets of pools and those of callers stay apart. -/
theorem step_apart (apart : r.Apart) (h : r.step a = some s) : s.Apart := by
  have ext := step_extends h
  have admits := (step_eq_some.mp h).1
  intro raw pooled associated
  rcases ext.pooled raw pooled with old | ⟨act, rfl, makes⟩
  · rcases ext.associated raw associated with known | rfl | ⟨kind, options, rfl⟩
    · exact apart raw old known
    · simp [Registry.admits, fresh, old] at admits
    · simp [Registry.admits, fresh, old] at admits
  · rcases ext.associated raw associated with known | none | ⟨kind, options, none⟩
    · unfold Action.makes at makes
      split at makes
      case h_1 i extra new => simp [Registry.admits, fresh, makes, known] at admits
      case h_2 => exact makes
    · cases none
    · cases none

/-- An owner with a raw socket of a pool keeps it. -/
theorem Extends.unpooled (ext : Extends r a s) (unpooled : s.Unpooled) : r.Unpooled :=
  fun raw owned pooled => unpooled raw (ext.raws raw owned) (ext.kept raw pooled)

theorem Extends.wrapsNone (ext : Extends r a s) (unpooled : s.Unpooled) :
    r.wrapsNone a = true := by
  by_contra wraps
  obtain ⟨raw, owned, pooled⟩ := ext.wrapped (by simpa using wraps)
  exact unpooled raw owned pooled

end Extends

/-- What a registry is when every socket is associated with the port. -/
structure Sound (loops : List Loop) (r : Registry) : Prop where
  associated : r.Associated
  lost : r.lost = []
  owned : r.raws.length = r.world.owners.length
  reached : World.Reached anyStep (World.start loops) r.world

section Sound

variable {loops : List Loop} {r s : Registry}

theorem start_sound (loops : List Loop) : Sound loops (start loops) where
  associated := by simp [Associated, start]
  lost := rfl
  owned := rfl
  reached := .refl

/-- A new owner of an associated raw socket. -/
theorem Sound.create {kind : Kind} {raw : Nat} {options : RegisterOptions}
    (sound : Sound loops r) (known : raw ∈ r.associated)
    (h : r.create kind raw options = some s) : Sound loops s := by
  obtain ⟨w, next, rfl⟩ := Option.map_eq_some_iff.mp h
  have made := World.next_stepped next
  refine ⟨?_, sound.lost, ?_, sound.reached.snoc trivial next⟩
  · intro raw' member
    rcases List.mem_append.mp member with old | new
    · exact sound.associated raw' old
    · exact List.mem_singleton.mp new ▸ known
  · cases made with
    | create key => simp [sound.owned]

/-- A step of the system that makes no owner. -/
theorem Sound.run {a : Action} {w : World} (sound : Sound loops r)
    (other : ∀ kind options, a ≠ .create kind options) (h : r.world.next a = some w) :
    Sound loops { r with world := w } where
  associated := sound.associated
  lost := sound.lost
  owned := sound.owned.trans (World.stepped_owners (World.next_stepped h) other).symm
  reached := sound.reached.snoc trivial h

/-- The packets of all operations reach the port. -/
theorem Sound.seen (sound : Sound loops r) (k : Nat) : r.seen k = true := by
  simp only [Registry.seen]
  split
  case h_1 => rfl
  case h_2 op flight =>
      have known := ((World.reached_valid sound.reached).flights op
        (List.mem_of_getElem? flight)).2
      have bound : op.owner < r.raws.length := sound.owned ▸ known
      rw [List.getElem?_eq_getElem bound, Option.any_some, decide_eq_true_eq]
      exact sound.associated _ (List.getElem_mem bound)

theorem Sound.step {a : RegistryAct} (sound : Sound loops r) (wraps : r.wrapsNone a = true)
    (h : r.perform a = some s) : Sound loops s := by
  have more (raw : Nat) : Sound loops { r with associated := r.associated ++ [raw] } :=
    ⟨fun raw' member => List.mem_append_left _ (sound.associated raw' member), sound.lost,
      sound.owned, sound.reached⟩
  cases a with
  | register kind raw options =>
      exact (more raw).create (List.mem_append_right _ (List.mem_singleton_self raw)) h
  | associate raw => exact Option.some.inj h ▸ more raw
  | duplicate i =>
      simp only [perform] at h
      split at h
      case h_1 o raw owner named =>
          split at h
          · exact sound.create (sound.associated raw (List.mem_of_getElem? named)) h
          · cases h
      case h_2 => cases h
  | run act =>
      simp only [wrapsNone, decide_eq_true_eq] at wraps
      cases act
      case create => cases h
      case complete k status =>
          simp only [perform, sound.seen k, if_true] at h
          obtain ⟨w, next, rfl⟩ := Option.map_eq_some_iff.mp h
          exact sound.run (by simp) next
      all_goals
        obtain ⟨w, next, rest⟩ := Option.bind_eq_some_iff.mp h
        rw [wraps] at rest
        exact Option.some.inj rest ▸ sound.run (by simp) next

end Sound

/-- Every socket is associated with its port and every operation has its packet
exactly in the runs in which no accept returns a socket. -/
theorem sockets_associated {loops : List Loop} {as : List RegistryAct} {r : Registry}
    (run : Run step anyStep (start loops) as r) :
    (r.Associated ∧ r.lost = []) ↔ Run step (fun r a => r.wrapsNone a) (start loops) as r := by
  constructor
  · rintro ⟨associated, -⟩
    have apart : r.Apart :=
      run.invariant (P := Apart) (by simp [Apart, start, World.start, World.pooled])
        fun _ _ _ apart _ h => step_apart apart h
    have unpooled : r.Unpooled := fun raw owned pooled =>
      apart raw pooled (associated raw owned)
    clear associated apart
    induction run with
    | nil => exact .nil
    | snoc before _ h ih =>
        have ext := step_extends h
        exact (ih (ext.unpooled unpooled)).snoc (ext.wrapsNone unpooled) h
  · intro none
    have sound := none.invariant (start_sound loops) fun _ _ _ sound wraps h =>
      sound.step wraps (step_eq_some.mp h).2
    exact ⟨sound.associated, sound.lost⟩

/-- A registered socket submits an accept. -/
def accepting : List RegistryAct :=
  .register .socket 7 ⟨0, 32⟩ :: (Schedule.submitted 0 .accept 1).map .run

theorem sockets_associated_duplicated :
    ∃ as r, Run step (fun r a => r.wrapsNone a) (start [.main]) as r ∧
      r.raws = [7, 7] ∧ r.world.queue.length = 1 ∧ r.Associated ∧ r.lost = [] := by
  let as := accepting ++ [.duplicate 0, .run (.complete 0 (.success 0 []))]
  have ran : (exec step (fun r a => r.wrapsNone a) (start [.main]) as).map
      (fun r => (r.raws, r.world.queue.length)) = some ([7, 7], 1) := by decide
  obtain ⟨r, run, state⟩ := Option.map_eq_some_iff.mp ran
  simp only [Prod.mk.injEq] at state
  have run := exec_run run
  exact ⟨as, r, run, state.1, state.2,
    (sockets_associated (run.weaken fun _ _ _ => trivial)).mpr run⟩

/-- The first operation of an accepted socket ends without a packet. -/
theorem accepted_socket_unassociated :
    ¬ ∀ as r, Run step anyStep (start [.main]) as r → r.Associated ∧ r.lost = [] := by
  intro always
  let accepted : List Action :=
    [.complete 0 (.success 0 [])] ++ Schedule.drive 0 true ++ Schedule.enter 0 .accept 1 ++
      [.task 0 .storeOpen, .task 0 (.collect none)]
  let again : List Action :=
    Schedule.enter 1 .accept 1 ++
      [.task 1 (.prepare 0 (.ok 1)), .task 1 (.submit (some Win32.errorIoPending)),
        .task 1 .forget, .complete 0 (.success 0 [])]
  let as := accepting ++ (accepted ++ again).map .run
  have ran : (exec step anyStep (start [.main]) as).map (fun r => r.lost.length) = some 1 := by
    decide
  obtain ⟨r, run, lost⟩ := Option.map_eq_some_iff.mp ran
  rw [(always as r (exec_run run)).2] at lost
  cases lost

end Registry

end Iocp
