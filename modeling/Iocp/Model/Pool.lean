import Iocp.Model.Basic

/-!
# Buffer and socket pools

`pool::BufferPool` and `pool::SocketPool`. A function that may panic returns
the pool as it stands at the panic together with `none`.

## Implementation notes

A vector is its length and its allocation, one cell per byte of capacity and
`none` for a byte that was never written. `Vec::with_capacity` and
`Vec::reserve` take the number of bytes the allocator grants beyond what was
asked for, so their growth policy stays open.
-/

namespace Iocp

/-- One `Vec<u8>` of the pool. -/
structure Buf where
  len : Nat
  storage : List (Option UInt8)
  deriving DecidableEq

namespace Buf

def capacity (b : Buf) : Nat := b.storage.length

/-- `Vec::with_capacity`. -/
def withCapacity (size extra : Nat) : Buf := ⟨0, List.replicate (size + extra) none⟩

/-- `Vec::reserve`: only the first `len` bytes survive a reallocation. -/
def reserve (b : Buf) (additional extra : Nat) : Buf :=
  if b.len + additional ≤ b.capacity then b
  else ⟨b.len, b.storage.take b.len ++ List.replicate (additional + extra) none⟩

/-- Store bytes at the start of the allocation. -/
def fill (b : Buf) (bytes : List UInt8) : Buf :=
  ⟨b.len, bytes.map some ++ b.storage.drop bytes.length⟩

end Buf

/-- The empty `ReadBuf` handed out over the first `size` bytes of a slot. -/
structure ReadBuf where
  slot : Nat
  size : Nat
  deriving DecidableEq

/-- `pool::BufferPool`. -/
structure BufferPool where
  buffers : List Buf
  taken : Nat
  released : Nat
  maxBufferSize : Nat
  deriving DecidableEq

namespace BufferPool

/-- `BufferPool::new`. -/
def new (maxBufferSize : Nat) : BufferPool where
  buffers := [⟨64, List.replicate 64 (some 0)⟩]
  taken := 0
  released := 0
  maxBufferSize := maxBufferSize

/-- `BufferPool::take`. The second component is `none` when an index or the
slice `buf[..size]` panics. -/
def take (p : BufferPool) (size extra : Nat) : BufferPool × Option ReadBuf :=
  let size := min size p.maxBufferSize
  let buffers := if p.buffers.length ≤ p.taken
    then p.buffers ++ [Buf.withCapacity size extra] else p.buffers
  match buffers[p.taken]? with
  | none => ({ p with buffers := buffers, taken := p.taken + 1 }, none)
  | some buf =>
      let buf := if buf.capacity < size then buf.reserve (size - buf.capacity) extra else buf
      ({ p with buffers := buffers.set p.taken buf, taken := p.taken + 1 },
        if size ≤ buf.capacity then some ⟨p.taken, size⟩ else none)

/-- `BufferPool::release`, with the filled bytes of the returned buffer, or
`none` when one of its assertions fails. -/
def release (p : BufferPool) (len : Nat) : BufferPool × Option (List (Option UInt8)) :=
  let q := { p with released := p.released + 1 }
  if p.released < p.taken then
    match p.buffers[p.released]? with
    | none => (q, none)
    | some buf => (q, if len ≤ buf.capacity then some (buf.storage.take len) else none)
  else (q, none)

/-- `BufferPool::clear`. -/
def clear (p : BufferPool) : BufferPool := { p with taken := 0, released := 0 }

/-- Store bytes into the allocation of one slot. -/
def fill (p : BufferPool) (slot : Nat) (bytes : List UInt8) : BufferPool :=
  { p with buffers := p.buffers.modify slot (·.fill bytes) }

/-- `BufferPool::take` followed by `ReadBuf::put_slice` of the whole slice,
which panics when the slice is longer than the buffer. -/
def takeAndPut (p : BufferPool) (bytes : List UInt8) (extra : Nat) :
    BufferPool × Option ReadBuf :=
  match p.take bytes.length extra with
  | (q, none) => (q, none)
  | (q, some b) => if bytes.length ≤ b.size then (q.fill b.slot bytes, some b) else (q, none)

/-- A slot handed out is one of the slots of the pool, and no slot is given up. -/
theorem take_slots (p : BufferPool) (size extra : Nat) :
    p.buffers.length ≤ (p.take size extra).1.buffers.length ∧
      ∀ b, (p.take size extra).2 = some b → b.slot < (p.take size extra).1.buffers.length := by
  simp only [take]
  split
  case h_1 => exact ⟨by split <;> simp, by simp⟩
  case h_2 buf found =>
      obtain ⟨hlt, -⟩ := List.getElem?_eq_some_iff.mp found
      refine ⟨by simp only [List.length_set]; split <;> simp, ?_⟩
      intro b hb
      obtain ⟨-, hb⟩ := Option.ite_none_right_eq_some.mp hb
      cases hb
      simpa only [List.length_set] using hlt

/-- A buffer handed out is the next slot, and the slot is large enough for it. -/
theorem take_some {p q : BufferPool} {size extra : Nat} {b : ReadBuf}
    (h : p.take size extra = (q, some b)) :
    b = ⟨p.taken, min size p.maxBufferSize⟩ ∧ q.taken = p.taken + 1 ∧ q.released = p.released ∧
      ∃ buf, q.buffers[p.taken]? = some buf ∧ b.size ≤ buf.capacity := by
  simp only [take] at h
  split at h
  case h_1 => cases h
  case h_2 buf found =>
      obtain ⟨hlt, -⟩ := List.getElem?_eq_some_iff.mp found
      simp only [Prod.mk.injEq] at h
      obtain ⟨rfl, h⟩ := h
      obtain ⟨large, h⟩ := Option.ite_none_right_eq_some.mp h
      cases h
      exact ⟨rfl, rfl, rfl, _, List.getElem?_set_self hlt, large⟩

@[simp] theorem fill_length (p : BufferPool) (slot : Nat) (bytes : List UInt8) :
    (p.fill slot bytes).buffers.length = p.buffers.length := by
  simp [fill]

@[simp] theorem clear_buffers (p : BufferPool) : p.clear.buffers = p.buffers := rfl

theorem release_buffers (p : BufferPool) (len : Nat) : (p.release len).1.buffers = p.buffers := by
  simp only [release]
  split
  · split <;> rfl
  · rfl

theorem takeAndPut_slots (p : BufferPool) (bytes : List UInt8) (extra : Nat) :
    p.buffers.length ≤ (p.takeAndPut bytes extra).1.buffers.length ∧
      ∀ b, (p.takeAndPut bytes extra).2 = some b →
        b.slot < (p.takeAndPut bytes extra).1.buffers.length := by
  have slots := p.take_slots bytes.length extra
  simp only [takeAndPut]
  split
  case h_1 q h =>
      rw [h] at slots
      exact ⟨slots.1, by simp⟩
  case h_2 q b h =>
      rw [h] at slots
      split
      · exact ⟨by simpa using slots.1, by simpa using slots.2⟩
      · exact ⟨slots.1, by simp⟩

end BufferPool

/-- `pool::SocketPool`. The closed list records the `closesocket` calls. -/
structure SocketPool where
  sockets : List Nat
  taken : Nat
  released : Nat
  closed : List Nat
  deriving DecidableEq

namespace SocketPool

/-- `SocketPool::new`. -/
def new : SocketPool := ⟨[], 0, 0, []⟩

/-- `SocketPool::take`, given the answer of `WSASocketW`. -/
def take (p : SocketPool) (newSocket : Except Nat Nat) : SocketPool × Except Nat (Option Nat) :=
  if p.sockets.length ≤ p.taken then
    match newSocket with
    | .error code => (p, .error code)
    | .ok socket =>
        let q := { p with sockets := p.sockets ++ [socket], taken := p.taken + 1 }
        (q, .ok q.sockets[p.taken]?)
  else ({ p with taken := p.taken + 1 }, .ok p.sockets[p.taken]?)

/-- `SocketPool::release`; the index may be out of bounds. -/
def release (p : SocketPool) : SocketPool × Option Nat :=
  ({ p with released := p.released + 1 }, p.sockets[p.released]?)

/-- `SocketPool::clear`; the slice `sockets[released..taken]` may panic. -/
def clear (p : SocketPool) : Option SocketPool :=
  if p.released ≤ p.taken ∧ p.taken ≤ p.sockets.length then
    some { p with
      closed := p.closed ++ (p.sockets.take p.taken).drop p.released
      released := 0
      taken := 0 }
  else none

end SocketPool

end Iocp
