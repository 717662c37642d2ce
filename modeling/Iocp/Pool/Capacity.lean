import Iocp.Library.Transition
import Iocp.Model.Pool

/-!
# When a buffer pool delivers

`take` reserves the bytes its vector lacks in capacity, while `Vec::reserve`
counts from the length, which the pool never updates. Whether a vector that
is too small grows enough therefore depends on the two numbers and on the
allocator.
-/

namespace Iocp

open Transition

namespace Buf

@[simp] theorem withCapacity_capacity (size extra : Nat) :
    (withCapacity size extra).capacity = size + extra := by
  simp [withCapacity, capacity]

/-- `Vec::reserve` does nothing when there is room, and otherwise grows to the
requested size and by what the allocator grants beyond it. -/
theorem reserve_capacity {b : Buf} (fits : b.len ≤ b.capacity) (additional extra : Nat) :
    (b.reserve additional extra).capacity =
      if b.len + additional ≤ b.capacity then b.capacity else b.len + additional + extra := by
  rw [reserve]
  split
  · rfl
  · simp only [capacity] at fits
    simp [capacity, Nat.min_eq_left fits, Nat.add_assoc]

@[simp] theorem reserve_len (b : Buf) (additional extra : Nat) :
    (b.reserve additional extra).len = b.len := by
  rw [reserve]
  split <;> rfl

/-- No reservation makes a vector too small for its contents. -/
theorem reserve_fits {b : Buf} (fits : b.len ≤ b.capacity) (additional extra : Nat) :
    (b.reserve additional extra).len ≤ (b.reserve additional extra).capacity := by
  rw [reserve_len, reserve_capacity fits]
  split <;> omega

end Buf

/-- The calls on a buffer pool, with the bytes the allocator grants beyond a reservation. -/
inductive PoolAct
  | take (size extra : Nat)
  | release (len : Nat)
  | clear

namespace BufferPool

/-- A call on the pool; a release must respect its assertions. -/
def step (p : BufferPool) : PoolAct → Option BufferPool
  | .take size extra => some (p.take size extra).1
  | .release len => (p.release len).2.map fun _ => (p.release len).1
  | .clear => some p.clear

/-- A `take` returns a buffer of the requested size, or of the maximum. -/
def Delivers (maxBufferSize : Nat) (p : BufferPool) : PoolAct → Prop
  | .take size extra => ∃ b, (p.take size extra).2 = some b ∧ b.size = min size maxBufferSize
  | _ => True

/-- The vector that `take` finds is large enough, or the reservation reallocates
it and the allocator makes up for the length that was left out of the sum. -/
def Reserves (p : BufferPool) : PoolAct → Prop
  | .take size extra =>
      ∀ b, p.buffers[p.taken]? = some b →
        min size p.maxBufferSize ≤ b.capacity ∨
          (b.capacity < b.len + (min size p.maxBufferSize - b.capacity) ∧
            b.capacity ≤ b.len + extra)
  | _ => True

/-- The indices of a pool stay in bounds, and so do the lengths of its vectors. -/
structure WellFormed (maxBufferSize : Nat) (p : BufferPool) : Prop where
  size : p.maxBufferSize = maxBufferSize
  taken : p.taken ≤ p.buffers.length
  fits : ∀ b ∈ p.buffers, b.len ≤ b.capacity

theorem new_wellFormed (maxBufferSize : Nat) : (new maxBufferSize).WellFormed maxBufferSize where
  size := rfl
  taken := Nat.zero_le _
  fits := by simp [new, Buf.capacity]

section Take

variable {maxBufferSize : Nat} {p : BufferPool} {size extra : Nat}

/-- A slot that does not exist yet is created with enough capacity. -/
theorem take_new (taken : p.taken = p.buffers.length) :
    p.take size extra =
      ({ p with
          buffers := p.buffers ++ [Buf.withCapacity (min size p.maxBufferSize) extra]
          taken := p.taken + 1 },
        some ⟨p.taken, min size p.maxBufferSize⟩) := by
  have enough (size : Nat) : ¬ (Buf.withCapacity size extra).capacity < size := by
    rw [Buf.withCapacity_capacity]
    omega
  simp only [take, taken, Nat.le_refl, if_true, List.getElem?_concat_length, enough, if_false]
  simp

/-- The vector that `take` leaves in a slot it found. -/
def grown (b : Buf) (size extra : Nat) : Buf :=
  if b.capacity < size then b.reserve (size - b.capacity) extra else b

/-- A slot that exists is enlarged when it is too small, and handed out when it then is not. -/
theorem take_old {b : Buf} (found : p.buffers[p.taken]? = some b) :
    p.take size extra =
      ({ p with
          buffers := p.buffers.set p.taken (grown b (min size p.maxBufferSize) extra)
          taken := p.taken + 1 },
        if min size p.maxBufferSize ≤ (grown b (min size p.maxBufferSize) extra).capacity
          then some ⟨p.taken, min size p.maxBufferSize⟩ else none) := by
  obtain ⟨hlt, -⟩ := List.getElem?_eq_some_iff.mp found
  have exist : ¬ p.buffers.length ≤ p.taken := by omega
  simp only [take, if_neg exist, found]
  rfl

theorem grown_fits {b : Buf} (fits : b.len ≤ b.capacity) (size extra : Nat) :
    (grown b size extra).len ≤ (grown b size extra).capacity := by
  rw [grown]
  split
  · exact Buf.reserve_fits fits _ _
  · exact fits

/-- When a vector is large enough after the reservation. -/
theorem grown_capacity {b : Buf} (fits : b.len ≤ b.capacity) (size extra : Nat) :
    size ≤ (grown b size extra).capacity ↔
      size ≤ b.capacity ∨
        (b.capacity < b.len + (size - b.capacity) ∧ b.capacity ≤ b.len + extra) := by
  rw [grown]
  split
  case isTrue small =>
      rw [Buf.reserve_capacity fits]
      split <;> omega
  case isFalse large => omega

/-- A `take` delivers exactly when its reservation is enough. -/
theorem take_delivers (wf : p.WellFormed maxBufferSize) :
    p.Delivers maxBufferSize (.take size extra) ↔ p.Reserves (.take size extra) := by
  cases found : p.buffers[p.taken]? with
  | none =>
      have taken : p.taken = p.buffers.length :=
        Nat.le_antisymm wf.taken (List.getElem?_eq_none_iff.mp found)
      simp [Delivers, Reserves, found, take_new taken, wf.size]
  | some b =>
      have fits := wf.fits b (List.mem_of_getElem? found)
      have enough := grown_capacity fits (min size p.maxBufferSize) extra
      simp only [Delivers, Reserves, found, take_old found, Option.some.injEq, forall_eq',
        ← enough]
      split <;> simp_all [wf.size]

theorem WellFormed.take (wf : p.WellFormed maxBufferSize) :
    (p.take size extra).1.WellFormed maxBufferSize := by
  cases found : p.buffers[p.taken]? with
  | none =>
      have taken : p.taken = p.buffers.length :=
        Nat.le_antisymm wf.taken (List.getElem?_eq_none_iff.mp found)
      rw [take_new taken]
      refine ⟨wf.size, by simp [taken], ?_⟩
      intro b member
      rcases List.mem_append.mp member with old | new
      · exact wf.fits b old
      · rw [List.mem_singleton.mp new, Buf.withCapacity_capacity]
        exact Nat.zero_le _
  | some b =>
      obtain ⟨hlt, -⟩ := List.getElem?_eq_some_iff.mp found
      rw [take_old found]
      refine ⟨wf.size, by simpa [Nat.succ_le_iff] using hlt, ?_⟩
      intro c member
      rcases List.mem_or_eq_of_mem_set member with old | rfl
      · exact wf.fits c old
      · exact grown_fits (wf.fits b (List.mem_of_getElem? found)) _ _

/-- The first vector is large enough for `n` bytes, or its length is its capacity, so that
a reservation is enough. -/
structure Roomy (n : Nat) (p : BufferPool) : Prop where
  first : ∃ b, p.buffers[0]? = some b ∧ b.len ≤ b.capacity ∧ (b.len = b.capacity ∨ n ≤ b.capacity)

theorem new_roomy (n maxBufferSize : Nat) : (new maxBufferSize).Roomy n :=
  ⟨_, rfl, Nat.le_refl 64, .inl rfl⟩

theorem Roomy.anti {m n : Nat} (roomy : p.Roomy n) (smaller : m ≤ n) : p.Roomy m := by
  obtain ⟨b, found, fits, enough⟩ := roomy.first
  exact ⟨b, found, fits, enough.imp_right (Nat.le_trans smaller)⟩

/-- A `take` from a roomy pool delivers, and leaves room for the next of its size. -/
theorem Roomy.take (roomy : p.Roomy size) (taken : p.taken = 0) (extra : Nat) :
    ∃ q b, p.take size extra = (q, some ⟨0, min size p.maxBufferSize⟩) ∧
      q.maxBufferSize = p.maxBufferSize ∧ q.buffers[0]? = some b ∧ b.len ≤ b.capacity ∧
      min size p.maxBufferSize ≤ b.capacity := by
  obtain ⟨b, found, fits, enough⟩ := roomy.first
  obtain ⟨hlt, -⟩ := List.getElem?_eq_some_iff.mp found
  have large := (grown_capacity fits (min size p.maxBufferSize) extra).mpr (by omega)
  rw [← taken] at found
  rw [take_old found, if_pos large, taken]
  exact ⟨_, _, rfl, rfl, List.getElem?_set_self hlt, grown_fits fits _ _, large⟩

/-- Bytes that fit into the first vector leave its capacity. -/
theorem Roomy.fill {n : Nat} {b : Buf} (roomy : p.Roomy n) (bytes : List UInt8)
    (found : p.buffers[0]? = some b) (fits : bytes.length ≤ b.capacity) :
    (p.fill 0 bytes).Roomy n := by
  obtain ⟨c, found', inside, enough⟩ := roomy.first
  obtain rfl := Option.some.inj (found.symm.trans found')
  have capacity : (b.fill bytes).capacity = b.capacity := by
    simp only [Buf.capacity] at fits ⊢
    simp only [Buf.fill, List.length_append, List.length_map, List.length_drop]
    omega
  refine ⟨b.fill bytes, ?_, ?_, ?_⟩
  · simp [BufferPool.fill, found]
  · rw [capacity]
    exact inside
  · rw [capacity]
    exact enough

/-- The whole slice is put into the buffer exactly if it is no longer than the maximum. -/
theorem Roomy.takeAndPut {bytes : List UInt8} (roomy : p.Roomy bytes.length)
    (taken : p.taken = 0) (extra : Nat) :
    ∃ q, p.takeAndPut bytes extra =
        (q, if bytes.length ≤ p.maxBufferSize then some ⟨0, bytes.length⟩ else none) ∧
      q.maxBufferSize = p.maxBufferSize ∧
      (bytes.length ≤ p.maxBufferSize → q.Roomy bytes.length) := by
  obtain ⟨q, b, took, size, found, inside, large⟩ := roomy.take taken extra
  simp only [BufferPool.takeAndPut, took]
  by_cases short : bytes.length ≤ p.maxBufferSize
  · rw [Nat.min_eq_left short] at large ⊢
    have left : q.Roomy bytes.length := ⟨b, found, inside, .inr large⟩
    simp only [Nat.le_refl, if_true, if_pos short]
    exact ⟨_, rfl, size, fun _ => left.fill bytes found large⟩
  · have cut : ¬ bytes.length ≤ min bytes.length p.maxBufferSize := by omega
    simp only [if_neg cut, if_neg short]
    exact ⟨q, rfl, size, fun fits => absurd fits short⟩

end Take

/-- The first vector has room for `n` bytes. -/
structure Holds (n : Nat) (p : BufferPool) : Prop where
  first : ∃ b, p.buffers[0]? = some b ∧ b.len ≤ b.capacity ∧ n ≤ b.capacity

section Holds

variable {n size extra : Nat} {p q : BufferPool} {bytes : List UInt8} {b : ReadBuf}

theorem new_holds (maxBufferSize : Nat) : (new maxBufferSize).Holds 0 :=
  ⟨_, rfl, Nat.le_refl 64, Nat.zero_le _⟩

theorem Holds.anti {m : Nat} (holds : p.Holds n) (smaller : m ≤ n) : p.Holds m := by
  obtain ⟨b, found, fits, room⟩ := holds.first
  exact ⟨b, found, fits, Nat.le_trans smaller room⟩

theorem Holds.of_buffers (holds : p.Holds n) (same : q.buffers = p.buffers) : q.Holds n :=
  ⟨same ▸ holds.first⟩

theorem Holds.clear (holds : p.Holds n) : p.clear.Holds n := holds.of_buffers rfl

/-- No reservation makes a vector smaller. -/
theorem capacity_le_grown {b : Buf} (fits : b.len ≤ b.capacity) (size extra : Nat) :
    b.capacity ≤ (grown b size extra).capacity := by
  rw [grown]
  split
  · rw [Buf.reserve_capacity fits]
    split <;> omega
  · exact Nat.le_refl _

/-- A `take` leaves the room that the first vector has. -/
theorem Holds.take (holds : p.Holds n) (size extra : Nat) : (p.take size extra).1.Holds n := by
  obtain ⟨b, first, fits, room⟩ := holds.first
  obtain ⟨some, -⟩ := List.getElem?_eq_some_iff.mp first
  cases found : p.buffers[p.taken]? with
  | some c =>
      obtain ⟨hlt, -⟩ := List.getElem?_eq_some_iff.mp found
      rw [take_old found]
      by_cases taken : p.taken = 0
      · rw [taken] at found
        obtain rfl : c = b := Option.some.inj (found.symm.trans first)
        refine ⟨grown c (min size p.maxBufferSize) extra, ?_, grown_fits fits _ _,
          Nat.le_trans room (capacity_le_grown fits _ _)⟩
        simp [taken, some]
      · exact ⟨b, by rw [List.getElem?_set_ne taken, first], fits, room⟩
  | none =>
      have full : p.buffers.length ≤ p.taken := List.getElem?_eq_none_iff.mp found
      have taken : p.taken ≠ 0 := by omega
      simp only [BufferPool.take, if_pos full]
      split
      · exact ⟨b, by rw [List.getElem?_append_left some, first], fits, room⟩
      · refine ⟨b, ?_, fits, room⟩
        rw [List.getElem?_set_ne taken, List.getElem?_append_left some, first]

/-- Bytes stored into a slot leave the room that the first vector has. -/
theorem Holds.fill (holds : p.Holds n) (slot : Nat) (bytes : List UInt8) :
    (p.fill slot bytes).Holds n := by
  obtain ⟨b, found, fits, room⟩ := holds.first
  have larger : b.capacity ≤ (b.fill bytes).capacity := by
    simp only [Buf.capacity, Buf.fill, List.length_append, List.length_map, List.length_drop]
    omega
  by_cases first : slot = 0
  · refine ⟨b.fill bytes, ?_, Nat.le_trans fits larger, Nat.le_trans room larger⟩
    simp [BufferPool.fill, first, found]
  · exact ⟨b, by simp [BufferPool.fill, first, found], fits, room⟩

/-- What the first `take` hands out, the first vector has room for. -/
theorem Holds.taken (holds : p.Holds n) (empty : p.taken = 0)
    (took : p.take size extra = (q, some b)) :
    q.Holds b.size ∧ q.taken = 1 ∧ q.released = p.released := by
  obtain ⟨-, taken, released, buf, found, large⟩ := take_some took
  have left := holds.take size extra
  rw [took] at left
  obtain ⟨c, first, fits, -⟩ := left.first
  rw [empty] at found taken
  obtain rfl : buf = c := Option.some.inj (found.symm.trans first)
  exact ⟨⟨buf, found, fits, large⟩, taken, released⟩

theorem Holds.takeAndPut (holds : p.Holds n) (bytes : List UInt8) (extra : Nat) :
    (p.takeAndPut bytes extra).1.Holds n := by
  have left := holds.take bytes.length extra
  simp only [BufferPool.takeAndPut]
  split
  case h_1 q h => exact (h ▸ left :)
  case h_2 q b h =>
      rw [h] at left
      split
      · exact left.fill _ _
      · exact left

theorem Holds.put (holds : p.Holds n) (empty : p.taken = 0)
    (put : p.takeAndPut bytes extra = (q, some b)) :
    q.Holds bytes.length ∧ q.taken = 1 ∧ q.released = p.released := by
  simp only [BufferPool.takeAndPut] at put
  cases took : p.take bytes.length extra with
  | mk r taken =>
      cases taken with
      | none => simp [took] at put
      | some c =>
          obtain ⟨room, taken, released⟩ := holds.taken empty took
          simp only [took] at put
          split at put
          · cases put
            exact ⟨(room.anti ‹_›).fill _ _, taken, released⟩
          · cases put

/-- The first `release` since a `clear` meets its assertions. -/
theorem Holds.release (holds : p.Holds n) (taken : 0 < p.taken) (unreleased : p.released = 0) :
    (p.release n).2.isSome := by
  obtain ⟨b, found, -, room⟩ := holds.first
  simp [BufferPool.release, unreleased, taken, found, room]

end Holds

theorem release_next (p : BufferPool) (len : Nat) :
    (p.release len).1 = { p with released := p.released + 1 } := by
  rw [BufferPool.release]
  split
  · split <;> rfl
  · rfl

/-- A `release` that meets its assertions. -/
theorem release_some {p : BufferPool} {len : Nat} {filled : List (Option UInt8)} :
    (p.release len).2 = some filled ↔
      p.released < p.taken ∧ ∃ b, p.buffers[p.released]? = some b ∧ len ≤ b.capacity ∧
        b.storage.take len = filled := by
  rw [BufferPool.release]
  split
  case isTrue used =>
      cases found : p.buffers[p.released]? with
      | none => simp
      | some b => simp [used]
  case isFalse unused => simp [unused]

/-- No call takes the indices of a pool out of bounds. -/
theorem WellFormed.step {maxBufferSize : Nat} {p q : BufferPool} {a : PoolAct}
    (wf : p.WellFormed maxBufferSize) (h : p.step a = some q) : q.WellFormed maxBufferSize := by
  cases a with
  | take size extra => exact Option.some.inj h ▸ wf.take
  | clear => exact Option.some.inj h ▸ ⟨wf.size, Nat.zero_le _, wf.fits⟩
  | release len =>
      obtain ⟨-, -, rfl⟩ := Option.map_eq_some_iff.mp h
      exact p.release_next len ▸ ⟨wf.size, wf.taken, wf.fits⟩

theorem delivers_iff {maxBufferSize : Nat} {p : BufferPool} (wf : p.WellFormed maxBufferSize)
    (a : PoolAct) : p.Delivers maxBufferSize a ↔ p.Reserves a := by
  cases a with
  | take size extra => exact take_delivers wf
  | _ => exact Iff.rfl

/-- The runs of a pool in which every `take` delivers are the runs in which
every reservation is enough. -/
theorem take_always_delivers (maxBufferSize : Nat) (as : List PoolAct) (p : BufferPool) :
    Run step (Delivers maxBufferSize) (new maxBufferSize) as p ↔
      Run step Reserves (new maxBufferSize) as p := by
  have wellFormed {ok : BufferPool → PoolAct → Prop} {as : List PoolAct} {p : BufferPool}
      (run : Run step ok (new maxBufferSize) as p) : p.WellFormed maxBufferSize :=
    run.invariant (new_wellFormed maxBufferSize) fun _ _ _ wf _ h => wf.step h
  constructor
  · intro run
    induction run with
    | nil => exact .nil
    | snoc before good h ih => exact .snoc ih ((delivers_iff (wellFormed before) _).mp good) h
  · intro run
    induction run with
    | nil => exact .nil
    | snoc before good h ih => exact .snoc ih ((delivers_iff (wellFormed before) _).mpr good) h

/-- A vector enlarged to 100 bytes is not enlarged to 120: the reservation of 20
more fits beside the 64 bytes of its length. -/
theorem reused_vector_too_small :
    ¬ ∀ maxBufferSize as p, Run step anyStep (new maxBufferSize) as p →
      ∀ a, p.Delivers maxBufferSize a := by
  intro always
  have first : Run step anyStep (new 256) [.take 100 0] ((new 256).take 100 0).1 :=
    .snoc .nil trivial rfl
  obtain ⟨b, delivered, -⟩ := always 256 _ _ (first.snoc (a := .clear) trivial rfl) (.take 120 0)
  have none : (((new 256).take 100 0).1.clear.take 120 0).2 = none := by decide
  rw [none] at delivered
  cases delivered

end BufferPool

end Iocp
