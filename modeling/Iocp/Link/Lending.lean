import Iocp.Link.LockWord

/-!
# Buffers lent to the operating system

A submission hands the storage of a pool slot to the operating system until
the operation ends. The header is kept alive by a reference of the operation,
the pool is not: it lives in the owner, and dropping the owner only requests
the cancellation of what is in flight.
-/

namespace Iocp

open Totals Transition

namespace Owner

variable {i : Nat} {o o' : Owner} {pending : Int} {a : TaskAct} {e : Effect}

/-- No step gives up a slot of the pool. -/
theorem Acts.slots (acts : o.Acts i pending a o' e) :
    o.pool.buffers.length ≤ o'.pool.buffers.length := by
  cases acts with
  | @prepareRequest call extra newSocket pool sockets request pc prepared =>
      have slots := (call.prepare_lends extra newSocket o.preparePool o.sockets).1
      rw [preparePool_buffers, prepared] at slots
      exact slots
  | prepareFail pc notPending slots => exact slots
  | collect pc notPending slots => exact (congrArg List.length slots).ge
  | _ => exact Nat.le_refl _

/-- The request about to be submitted is lent a slot of the pool. -/
theorem Acts.prepared_slot (acts : o.Acts i pending a o' e) {call : Call} {request : Request}
    (pc : o'.pc = .prepared call request) {slot : Nat} (lends : request.slot = some slot) :
    slot < o'.pool.buffers.length := by
  cases acts with
  | @prepareRequest call extra newSocket pool sockets request pc' prepared =>
      have slots := (call.prepare_lends extra newSocket o.preparePool o.sockets).2
      rw [prepared] at slots
      cases pc
      exact slots request rfl slot lends
  | _ => cases pc

/-- Only the drop of its fields ends an owner. -/
theorem Acts.alive (acts : o.Acts i pending a o' e) (fields : a ≠ .dropFields) :
    o'.alive = true := by
  cases acts with
  | dropFields pc => exact absurd rfl fields
  | _ => rfl

end Owner

namespace Link

/-- Every slot lent, or about to be, is one of a pool that still exists. -/
structure Lent (L : Link) : Prop where
  prepared : ∀ call request, L.owner.pc = .prepared call request →
    ∀ slot, request.slot = some slot → slot < L.owner.pool.buffers.length
  flying : ∀ t ∈ L.tokens, t.stage = .inFlight → ∀ slot, t.op.request.slot = some slot →
    L.owner.alive = true ∧ slot < L.owner.pool.buffers.length

section Task

variable {i : Nat} {o o' : Owner} {pending : Int} {a : TaskAct} {e : Effect} {T : Multiset Token}

/-- The steps of a poll keep lent slots in an existing pool, and so does
dropping the fields while no slot is lent. -/
theorem Lent.task (lent : Lent ⟨o, T⟩) (acts : o.Acts i pending a o' e)
    (unlent : a = .dropFields → ∀ t ∈ T, t.stage = .inFlight → t.op.request.slot = none) :
    Lent ⟨o', e.tokens + T⟩ where
  prepared := fun _ _ pc _ lends => acts.prepared_slot pc lends
  flying := by
    intro t member flight slot lends
    rcases Multiset.mem_add.mp member with new | old
    · cases acts with
      | @submit call request answer pc accepted =>
          rw [Effect.tokens, Multiset.mem_singleton] at new
          subst new
          exact ⟨rfl, lent.prepared call request pc slot lends⟩
      | _ => exact absurd new (Multiset.notMem_zero t)
    · by_cases fields : a = .dropFields
      · rw [unlent fields t old flight] at lends
        cases lends
      · obtain ⟨-, bound⟩ := lent.flying t old flight slot lends
        exact ⟨acts.alive fields, Nat.lt_of_lt_of_le bound acts.slots⟩

end Task

section Background

variable {i : Nat} {L L' : Link} {l : Label}

theorem afterUnlock_ne_inFlight (release : Bool) (u : UnlockStep) :
    Stage.afterUnlock release u ≠ .inFlight := by
  cases u with
  | retry old => simp [Stage.afterUnlock]
  | returned unlocked =>
      cases unlocked with
      | false => simp [Stage.afterUnlock]
      | true => cases release <;> simp [Stage.afterUnlock]

/-- Only the owner itself puts an operation in flight. -/
theorem background_inFlight (step : Step i L l L') (other : ∀ a, l ≠ .task a) {t : Token}
    (member : t ∈ L'.tokens) (flight : t.stage = .inFlight) : t ∈ L.tokens := by
  have tail {u u' : Token} {T : Multiset Token} (moved : u'.stage ≠ .inFlight)
      (member : t ∈ u' ::ₘ T) : t ∈ u ::ₘ T := by
    rcases Multiset.mem_cons.mp member with rfl | member
    · exact absurd flight moved
    · exact Multiset.mem_cons_of_mem member
  cases step with
  | task acts => exact absurd rfl (other _)
  | complete admits => exact tail (by simp) member
  | dequeue => exact tail (by simp) member
  | account => exact tail (by simp) member
  | load => exact tail (afterUnlock_ne_inFlight _ _) member
  | exchange => exact tail (afterUnlock_ne_inFlight _ _) member
  | wake => exact tail (by simp) member
  | skip => exact tail (by simp) member
  | drop => exact Multiset.mem_cons_of_mem member

/-- Nobody but the owner touches the pool, save for the bytes stored into it. -/
theorem background_pool (step : Step i L l L') (other : ∀ a, l ≠ .task a) :
    L'.owner.pool.buffers.length = L.owner.pool.buffers.length := by
  cases step with
  | task acts => exact absurd rfl (other _)
  | complete admits =>
      simp only [Owner.complete]
      split
      · split
        · simp
        · rfl
      · rfl
  | _ => rfl

theorem Lent.background (lent : Lent L) (step : Step i L l L') (other : ∀ a, l ≠ .task a) :
    Lent L' := by
  have pc := background_pc step other
  have pool := background_pool step other
  constructor
  · intro call request hpc slot lends
    rw [pool]
    exact lent.prepared call request (pc ▸ hpc) slot lends
  · intro t member flight slot lends
    obtain ⟨alive, bound⟩ :=
      lent.flying t (background_inFlight step other member flight) flight slot lends
    exact ⟨by rwa [Owner.alive, pc], by rwa [pool]⟩

/-- Every step keeps lent slots in an existing pool, unless it drops the
fields of an owner while a slot is lent. -/
theorem Lent.step (lent : Lent L) (step : Step i L l L')
    (unlent : l = .task .dropFields →
      ∀ t ∈ L.tokens, t.stage = .inFlight → t.op.request.slot = none) : Lent L' := by
  rcases step.task_or_other with ⟨pending, a, o', e, rfl, acts, rfl⟩ | other
  · exact lent.task acts fun fields => unlent (congrArg Label.task fields)
  · exact lent.background step other

end Background

end Link

namespace World

/-- The fields of an owner are dropped only while no slot of its pool is lent. -/
def dropsUnlent (w : World) : Action → Bool
  | .task i .dropFields => (w.flying i).all fun op => op.request.slot = none
  | _ => true

/-- The tokens in flight are the operations in flight. -/
theorem mem_flying {w : World} {i : Nat} {t : Token} (flight : t.stage = .inFlight) :
    t ∈ w.tokensOf i ↔ t.op ∈ w.flying i := by
  obtain ⟨op, stage⟩ := t
  simp only at flight
  subst flight
  simp only [tokensOf, tokens, flying, Multiset.mem_filter, Multiset.mem_add, mem_total,
    List.mem_filter, decide_eq_true_eq]
  constructor
  · rintro ⟨(⟨op', member, h⟩ | ⟨p, -, h⟩) | ⟨u, -, h⟩, own⟩
    · cases Multiset.mem_singleton.mp h
      exact ⟨member, own⟩
    · obtain ⟨status, -, left⟩ := Packet.mem_tokens h
      cases left
    · exact absurd rfl (DriverPc.mem_tokens h).1
  · rintro ⟨member, own⟩
    exact ⟨.inl (.inl ⟨op, member, Multiset.mem_singleton_self _⟩), own⟩

/-- The lent slots of every header in runs that drop no pool with a lent slot. -/
theorem reached_lent {ok : World → Action → Prop} {loops : List Loop} {w : World}
    (unlent : ∀ w a, ok w a → w.dropsUnlent a = true) (reach : Reached ok (start loops) w) :
    w.AllLinks fun _ => Link.Lent := by
  refine reached_links reach ?_ ?_
  · intro i kind key size
    constructor
    · intro call request pc
      cases pc
    · intro t member
      exact absurd member (Multiset.notMem_zero t)
  · intro w a i o l L _ good owner concerns step lent
    apply lent.step step
    rintro rfl t member flight
    have drops := unlent w a good
    rw [concerns.task, dropsUnlent, List.all_eq_true] at drops
    simpa using drops t.op ((mem_flying flight).mp member)

/-- Buffers lent to the operating system are owned: each belongs to a pool
that still exists, and no two operations in flight have been lent the same. -/
structure Lends (w : World) : Prop where
  owned : ∀ op ∈ w.inFlight, ∀ slot, op.request.slot = some slot →
    ∃ o, w.owners[op.owner]? = some o ∧ o.alive = true ∧ slot < o.pool.buffers.length
  alone : ∀ i slot, ((w.flying i).filter fun op => op.request.slot = some slot).length ≤ 1

/-- Lent buffers stay owned in every run that keeps the lock word and drops no
owner of a lent slot. -/
theorem lent_buffers_owned {loops : List Loop} {w : World}
    (reach : Reached (fun w a => w.keepsWord a ∧ w.dropsUnlent a) (start loops) w) : w.Lends := by
  have valid := reached_valid reach
  have lent := reached_lent (fun _ _ h => h.2) reach
  have sound := reached_sound (fun _ _ h => h.1) reach
  constructor
  · intro op member slot lends
    have known : op.owner < w.owners.length := (valid.flights op member).2
    obtain ⟨o, owner⟩ : ∃ o, w.owners[op.owner]? = some o := ⟨_, List.getElem?_eq_getElem known⟩
    have flying : op ∈ w.flying op.owner := List.mem_filter.mpr ⟨member, by simp⟩
    have token : (⟨op, .inFlight⟩ : Token) ∈ w.tokensOf op.owner := (mem_flying rfl).mpr flying
    exact ⟨o, owner, (lent op.owner o owner).flying _ token rfl slot lends⟩
  · intro i slot
    apply (List.length_filter_le _ _).trans
    cases owner : w.owners[i]? with
    | some o => exact (exclusive_of_sound (sound i o owner)).flying
    | none =>
        have none : w.flying i = [] := by
          apply List.filter_eq_nil_iff.mpr
          intro op member own
          have known := (valid.flights op member).2
          rw [List.getElem?_eq_none_iff] at owner
          simp only [decide_eq_true_eq] at own
          omega
        simp [none]

theorem lent_buffers_owned_read :
    ∃ w, Reached (fun w a => w.keepsWord a ∧ w.dropsUnlent a) setup w ∧
      (w.flying 0).length = 1 ∧ w.Lends := by
  obtain ⟨w, reach, flight⟩ :=
    exec_state (fun w a => w.keepsWord a ∧ w.dropsUnlent a) setup Schedule.pendingRead
      (fun w => (w.flying 0).length) 1 (by decide)
  exact ⟨w, reach, flight, lent_buffers_owned reach⟩

/-- Dropping a handle with a read in flight frees the buffer the operating
system is about to write to. -/
theorem dropped_handle_frees_lent_buffer :
    ¬ ∀ w, Reached anyStep setup w → w.Lends := by
  intro always
  obtain ⟨w, o, reach, owner, state⟩ :=
    exec_owner anyStep setup (Schedule.pendingRead ++ Schedule.dropOwner 0) 0
      (fun w o => (o.alive, w.inFlight.map fun op => (op.owner, op.request.slot)))
      (false, [(0, some 0)]) (by decide)
  simp only [Prod.mk.injEq] at state
  obtain ⟨dropped, flights⟩ := state
  obtain ⟨op, member, hop⟩ : ∃ op ∈ w.inFlight, (op.owner, op.request.slot) = (0, some 0) := by
    apply List.mem_map.mp
    rw [flights]
    exact List.mem_singleton_self _
  simp only [Prod.mk.injEq] at hop
  obtain ⟨own, lends⟩ := hop
  obtain ⟨p, owner', alive, -⟩ := (always w reach).owned op member 0 lends
  rw [own, owner, Option.some.injEq] at owner'
  rw [← owner', dropped] at alive
  cases alive

end World

end Iocp
