import Iocp.Link.Delivery

/-!
# A pool without the bytes it holds

What a call does with a pool depends on its indices and on the sizes of its buffers;
only the bytes that a read hands out depend on what the buffers hold. Two pools that are
equal once their bytes are blanked are prepared and collected alike.
-/

namespace Iocp

namespace Buf

/-- The buffer with its bytes taken out. -/
def blank (b : Buf) : Buf := ⟨b.len, List.replicate b.capacity none⟩

@[simp] theorem blank_capacity (b : Buf) : b.blank.capacity = b.capacity := by
  simp [blank, capacity]

@[simp] theorem blank_withCapacity (size extra : Nat) :
    (withCapacity size extra).blank = withCapacity size extra := by
  simp [blank, withCapacity, capacity]

theorem blank_reserve (b : Buf) (additional extra : Nat) :
    b.blank.reserve additional extra = (b.reserve additional extra).blank := by
  have len : b.blank.len = b.len := rfl
  simp only [reserve, blank_capacity, len]
  split
  · rfl
  · simp only [blank, capacity, List.length_append, List.length_take, List.length_replicate,
      List.take_replicate, List.replicate_append_replicate]

/-- Bytes that fit do not show in a blank buffer. -/
theorem blank_fill {b : Buf} {bytes : List UInt8} (fits : bytes.length ≤ b.capacity) :
    (b.fill bytes).blank = b.blank := by
  have same : (b.fill bytes).capacity = b.capacity := by
    simp only [fill, capacity, List.length_append, List.length_map, List.length_drop] at fits ⊢
    omega
  simp only [blank, same]
  rfl

end Buf

namespace BufferPool

variable {p q : BufferPool}

/-- The pool with the bytes of its buffers taken out. -/
def blank (p : BufferPool) : BufferPool := { p with buffers := p.buffers.map Buf.blank }

theorem blank_clear (p : BufferPool) : p.clear.blank = p.blank.clear := rfl

/-- `take` looks at no bytes. -/
theorem blank_take (p : BufferPool) (size extra : Nat) :
    p.blank.take size extra = ((p.take size extra).1.blank, (p.take size extra).2) := by
  have length : p.blank.buffers.length = p.buffers.length := by simp [blank]
  have buffers (small : Nat) : (if p.buffers.length ≤ p.taken
      then p.blank.buffers ++ [Buf.withCapacity small extra] else p.blank.buffers) =
      (if p.buffers.length ≤ p.taken
        then p.buffers ++ [Buf.withCapacity small extra] else p.buffers).map Buf.blank := by
    split <;> simp [blank]
  have taken : p.blank.taken = p.taken := rfl
  have max : p.blank.maxBufferSize = p.maxBufferSize := rfl
  simp only [take, length, taken, max, buffers, List.getElem?_map]
  cases found : (if p.buffers.length ≤ p.taken
      then p.buffers ++ [Buf.withCapacity (min size p.maxBufferSize) extra]
      else p.buffers)[p.taken]? with
  | none => rfl
  | some buf =>
      have grown : (if buf.capacity < min size p.maxBufferSize
          then buf.blank.reserve (min size p.maxBufferSize - buf.capacity) extra
          else buf.blank) = (if buf.capacity < min size p.maxBufferSize
          then buf.reserve (min size p.maxBufferSize - buf.capacity) extra else buf).blank := by
        rw [Buf.blank_reserve]
        split <;> rfl
      simp only [Option.map_some, Buf.blank_capacity, grown, blank, List.map_set]

/-- Bytes that fit into their slot do not show in a blank pool. -/
theorem blank_fill {slot : Nat} {bytes : List UInt8}
    (fits : ∀ b, p.buffers[slot]? = some b → bytes.length ≤ b.capacity) :
    (p.fill slot bytes).blank = p.blank := by
  have same : (p.buffers.modify slot (·.fill bytes)).map Buf.blank = p.buffers.map Buf.blank := by
    refine List.ext_getElem? fun k => ?_
    rw [List.getElem?_map, List.getElem?_map, List.getElem?_modify]
    cases found : p.buffers[k]? with
    | none => rfl
    | some b =>
        by_cases own : slot = k
        · subst own
          simp [Buf.blank_fill (fits b found)]
        · simp [own]
  simp only [blank, fill, same]

/-- What `take` does is the same for pools that differ in their bytes. -/
theorem take_alike (alike : p.blank = q.blank) (size extra : Nat) :
    (p.take size extra).1.blank = (q.take size extra).1.blank ∧
      (p.take size extra).2 = (q.take size extra).2 := by
  have same := p.blank_take size extra
  rw [alike, q.blank_take size extra] at same
  exact ⟨(congrArg Prod.fst same).symm, (congrArg Prod.snd same).symm⟩

/-- A slice that is put into a buffer that was taken fits there. -/
theorem blank_takeAndPut (p : BufferPool) (bytes : List UInt8) (extra : Nat) :
    (p.takeAndPut bytes extra).1.blank = (p.take bytes.length extra).1.blank := by
  simp only [takeAndPut]
  split
  case h_1 q none => rw [none]
  case h_2 q b some =>
      obtain ⟨rfl, -, -, buf, found, large⟩ := take_some some
      rw [some]
      split
      case isTrue fits =>
          refine blank_fill fun buf' found' => ?_
          obtain rfl : buf = buf' := Option.some.inj (found.symm.trans found')
          exact fits.trans large
      case isFalse => rfl

theorem takeAndPut_made (p : BufferPool) (bytes : List UInt8) (extra : Nat) :
    (p.takeAndPut bytes extra).2 =
      (p.take bytes.length extra).2.filter fun b => bytes.length ≤ b.size := by
  simp only [takeAndPut]
  split
  case h_1 q none => rw [none]; rfl
  case h_2 q b some =>
      rw [some]
      split
      case isTrue fits => simp [Option.filter, fits]
      case isFalse short => simp [Option.filter, short]

theorem takeAndPut_alike (alike : p.blank = q.blank) (bytes : List UInt8) (extra : Nat) :
    (p.takeAndPut bytes extra).1.blank = (q.takeAndPut bytes extra).1.blank ∧
      (p.takeAndPut bytes extra).2 = (q.takeAndPut bytes extra).2 := by
  obtain ⟨pools, buffers⟩ := take_alike alike bytes.length extra
  constructor
  · rw [blank_takeAndPut, blank_takeAndPut, pools]
  · rw [takeAndPut_made, takeAndPut_made, buffers]

theorem release_alike (alike : p.blank = q.blank) (n : Nat) :
    (p.release n).1.blank = (q.release n).1.blank := by
  have step (r : BufferPool) : (r.release n).1.blank =
      { r.blank with released := r.blank.released + 1 } := by
    simp only [release]
    split
    · split <;> rfl
    · rfl
  rw [step, step, alike]

end BufferPool

namespace Call

variable {p q : BufferPool} {n : Nat}

theorem prepareRead_made (len extra : Nat) (p : BufferPool) :
    (prepareRead len extra p).2 = (p.take len extra).2.elim .panic fun b =>
      .request (.readFile b.slot (min b.size Win32.dwordMax)) := by
  rw [prepareRead]
  split <;> simp [*]

theorem prepareWrite_made (buf : List UInt8) (extra : Nat) (p : BufferPool) :
    (prepareWrite buf extra p).2 = (p.takeAndPut buf extra).2.elim .panic fun b =>
      .request (.writeFile b.slot (buf.take Win32.dwordMax)) := by
  rw [prepareWrite]
  split <;> simp [*]

theorem prepareDeviceIoControl_made (control : Nat) (message : List UInt8) (extra : Nat)
    (p : BufferPool) :
    (prepareDeviceIoControl control message extra p).2 =
      (p.takeAndPut message extra).2.elim .panic fun b =>
        if message.length ≤ Win32.dwordMax
          then .request (.deviceIoControl control b.slot message) else .panic := by
  rw [prepareDeviceIoControl]
  split <;> simp [*]

/-- What `prepare` does is the same for pools that differ in their bytes. A machine that
serves a handle makes no socket. -/
theorem prepare_alike (call : Call) (alike : p.blank = q.blank) (extra code : Nat) :
    (call.prepare extra (.error code) p .new).1.blank =
        (call.prepare extra (.error code) q .new).1.blank ∧
      (call.prepare extra (.error code) p .new).2 =
        (call.prepare extra (.error code) q .new).2 := by
  cases call with
  | pollRead len | read len =>
      obtain ⟨pools, buffers⟩ := BufferPool.take_alike alike len extra
      simp only [prepare, prepareRead_pool, prepareRead_made, pools, buffers, and_self]
  | pollWrite buf | write buf =>
      obtain ⟨pools, buffers⟩ := BufferPool.takeAndPut_alike alike buf extra
      simp only [prepare, prepareWrite_pool, prepareWrite_made, pools, buffers, and_self]
  | deviceIoControl control message =>
      obtain ⟨pools, buffers⟩ := BufferPool.takeAndPut_alike alike message extra
      simp only [prepare, prepareDeviceIoControl_pool, prepareDeviceIoControl_made, pools, buffers,
        and_self]
  | connectNamedPipe => exact ⟨alike, rfl⟩
  | accept => exact ⟨alike, rfl⟩

theorem collectRead_pool (room n : Nat) (p : BufferPool) :
    (collectRead room n p).1 = (p.release n).1 := by
  rw [collectRead]
  split <;> simp [*]

theorem collectRead_made (room n : Nat) (p : BufferPool) :
    (collectRead room n p).2 = (p.release n).2.elim .panic fun filled =>
      if filled.length ≤ room then .output (.bytes filled) (.advance filled.length)
      else .panic := by
  rw [collectRead]
  split <;> simp [*]

/-- What `collect` does is the same for pools that differ in their bytes, if those that
a read reclaims are the same. -/
theorem collect_alike {call : Call} (alike : p.blank = q.blank)
    (same : call.code = .read → (p.release n).2 = (q.release n).2) (duplicate : Option Nat)
    (sockets : SocketPool) :
    (call.collect n duplicate p sockets).1.blank = (call.collect n duplicate q sockets).1.blank ∧
      (call.collect n duplicate p sockets).2 = (call.collect n duplicate q sockets).2 := by
  cases call with
  | pollRead room | read room =>
      simp only [collect, collectRead_pool, collectRead_made, BufferPool.release_alike alike n,
        same rfl, and_self]
  | _ => exact ⟨alike, rfl⟩

end Call

end Iocp
