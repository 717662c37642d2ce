import Iocp.Library.Loans
import Iocp.Pool.Capacity
import Mathlib.Data.List.Induction

/-!
# The buffers of a pool in memory

The vectors of a buffer pool with the addresses of their allocations. A buffer that is
handed out is the start of an allocation, so whether it stays there, and whether two of
them overlap, is a question about addresses.

## Implementation notes

The allocator chooses the address of a vector that `take` creates or enlarges. It may
be any that keeps the new allocation apart from those of the other vectors. Growing the
vector of vectors moves their headers, and no allocation.
-/

namespace Iocp

open Transition Loans

/-- A buffer pool and the addresses of the allocations of its vectors. -/
structure Lender where
  pool : BufferPool
  addresses : List Nat

/-- The calls on a pool in memory, with the choices of the allocator, and a write of a
byte to any address. -/
inductive LenderAct
  | take (size extra address : Nat)
  | release (len : Nat)
  | clear
  | write (x : Nat) (byte : UInt8)

namespace BufferPool

/-- The vector that `take` leaves in the slot that it hands out. -/
def next (p : BufferPool) (size extra : Nat) : Buf :=
  match p.buffers[p.taken]? with
  | none => Buf.withCapacity (min size p.maxBufferSize) extra
  | some b => grown b (min size p.maxBufferSize) extra

/-- `take` allocates: the slot is new, or its vector is reallocated. -/
def allocates (p : BufferPool) (size : Nat) : Bool :=
  match p.buffers[p.taken]? with
  | none => true
  | some b =>
      b.capacity < min size p.maxBufferSize &&
        b.capacity < b.len + (min size p.maxBufferSize - b.capacity)

section Next

variable {maxBufferSize size extra : Nat} {p q : BufferPool} {b : ReadBuf}

/-- Only the vector of the slot that is handed out changes. -/
theorem take_buffers (wf : p.WellFormed maxBufferSize) (size extra : Nat) :
    (p.take size extra).1.buffers =
      p.buffers.take p.taken ++ p.next size extra :: p.buffers.drop (p.taken + 1) := by
  cases found : p.buffers[p.taken]? with
  | none =>
      have taken : p.taken = p.buffers.length :=
        Nat.le_antisymm wf.taken (List.getElem?_eq_none_iff.mp found)
      simp only [take_new taken, next, found]
      simp [taken]
  | some b =>
      obtain ⟨hlt, -⟩ := List.getElem?_eq_some_iff.mp found
      simp only [take_old found, next, found]
      rw [List.set_eq_take_append_cons_drop, if_pos hlt]

/-- A `take` that does not allocate finds its vector as it leaves it. -/
theorem next_of_not_allocates (old : p.allocates size = false) (extra : Nat) :
    p.buffers[p.taken]? = some (p.next size extra) := by
  cases found : p.buffers[p.taken]? with
  | none => simp [allocates, found] at old
  | some b =>
      simp only [allocates, found, Bool.and_eq_false_imp, decide_eq_true_eq,
        decide_eq_false_iff_not] at old
      simp only [next, found, grown]
      split
      case isTrue small =>
          have room : b.len + (min size p.maxBufferSize - b.capacity) ≤ b.capacity := by
            have := old small
            omega
          rw [Buf.reserve, if_pos room]
      case isFalse => rfl

/-- The buffer that is handed out is the start of that vector. -/
theorem take_next (wf : p.WellFormed maxBufferSize) (took : p.take size extra = (q, some b)) :
    b.size ≤ (p.next size extra).capacity := by
  obtain ⟨rfl, -, -, buf, found, large⟩ := take_some took
  have buffers := take_buffers wf size extra
  rw [took] at buffers
  have taken := wf.taken
  rw [buffers, List.getElem?_append_right (List.length_take_le _ _)] at found
  simp only [List.length_take, Nat.min_eq_left taken, Nat.sub_self, List.getElem?_cons_zero,
    Option.some.injEq] at found
  exact found ▸ large

end Next

/-- One more byte goes behind those that were stored. -/
theorem fill_snoc {b : Buf} {bytes : List UInt8} (fits : bytes.length < b.capacity)
    (byte : UInt8) :
    b.fill (bytes ++ [byte]) =
      ⟨(b.fill bytes).len, (b.fill bytes).storage.set bytes.length (some byte)⟩ := by
  have rest : b.storage.drop bytes.length =
      b.storage[bytes.length] :: b.storage.drop (bytes.length + 1) :=
    List.drop_eq_getElem_cons fits
  simp [Buf.fill, rest, List.set_append_right]

@[simp] theorem fill_nil (p : BufferPool) (slot : Nat) : p.fill slot [] = p := by
  have same : (fun b : Buf => b.fill []) = id := rfl
  rw [fill, same, List.modify_id]

end BufferPool

namespace Lender

/-- A new pool, whose vector is somewhere. -/
def new (maxBufferSize address : Nat) : Lender := ⟨.new maxBufferSize, [address]⟩

/-- The allocations of the vectors. -/
def blocks (l : Lender) : List (Block (Option UInt8)) :=
  List.zipWith (fun address b => ⟨address, b.storage⟩) l.addresses l.pool.buffers

/-- A `take` that does not panic. -/
def take (l : Lender) (size extra address : Nat) : Option Lender :=
  match l.pool.take size extra with
  | (_, none) => none
  | (q, some _) =>
      if l.pool.allocates size then
        if ∀ b ∈ l.blocks.eraseIdx l.pool.taken,
            b.Apart ⟨address, (l.pool.next size extra).storage⟩ then
          some { pool := q
                 addresses := l.addresses.take l.pool.taken ++
                   address :: l.addresses.drop (l.pool.taken + 1) }
        else none
      else some { l with pool := q }

/-- Every vector whose allocation has the address gets the byte. -/
def write (l : Lender) (x : Nat) (byte : UInt8) : Lender :=
  { l with
    pool := { l.pool with
      buffers := List.zipWith
        (fun address b => ⟨b.len, ((Block.mk address b.storage).write x (some byte)).cells⟩)
        l.addresses l.pool.buffers } }

/-- Store bytes into the vector of one slot. -/
def fill (l : Lender) (slot : Nat) (bytes : List UInt8) : Lender :=
  { l with pool := l.pool.fill slot bytes }

/-- A call that does not panic, or a write. -/
def step (l : Lender) : LenderAct → Option Lender
  | .take size extra address => l.take size extra address
  | .release len => (l.pool.release len).2.map fun _ => { l with pool := (l.pool.release len).1 }
  | .clear => some { l with pool := l.pool.clear }
  | .write x byte => some (l.write x byte)

/-- What a call hands out or gives back, and what is written. -/
def see (l : Lender) : LenderAct → List (Act (Option UInt8))
  | .take size extra address =>
      match l.take size extra address, (l.pool.take size extra).2 with
      | some next, some b =>
          (next.blocks[b.slot]?.map fun block => Act.lend ⟨block, b.size⟩).toList
      | _, _ => []
  | .release len =>
      match l.blocks[l.pool.released]?, (l.pool.release len).2 with
      | some block, some filled => [.giveBack len block.address filled]
      | _, _ => []
  | .clear => [.reset]
  | .write x byte => [.write x (some byte)]

/-- The vectors of a pool in memory are allocations of their own. -/
structure Sound (maxBufferSize : Nat) (l : Lender) : Prop where
  wellFormed : l.pool.WellFormed maxBufferSize
  addresses : l.addresses.length = l.pool.buffers.length
  apart : l.blocks.Pairwise Block.Apart

/-- The loans are the vectors that were taken since the last `clear`. -/
structure Shows (l : Lender) (s : State (Option UInt8)) : Prop where
  lent : s.lent.map Loan.block = l.blocks.take l.pool.taken
  returned : s.returned = l.pool.released

/-- The next `release` of no more bytes than `take` was asked for returns the first bytes of
the oldest buffer that was handed out and not given back. -/
def Returns (l : Lender) (s : State (Option UInt8)) : Prop :=
  ∀ loan len, s.lent[s.returned]? = some loan → len ≤ loan.size →
    (l.pool.release len).2 = some (loan.usable.take len)

section Step

variable {maxBufferSize : Nat} {l l' : Lender} {a : LenderAct} {s : State (Option UInt8)}

theorem Sound.new (maxBufferSize address : Nat) :
    (new maxBufferSize address).Sound maxBufferSize where
  wellFormed := BufferPool.new_wellFormed maxBufferSize
  addresses := rfl
  apart := List.pairwise_singleton _ _

theorem Sound.length (sound : l.Sound maxBufferSize) :
    l.blocks.length = l.pool.buffers.length := by
  rw [blocks, List.length_zipWith, sound.addresses, Nat.min_self]

/-- Every vector has its allocation. -/
theorem Sound.block {k : Nat} {b : Buf} (sound : l.Sound maxBufferSize)
    (found : l.pool.buffers[k]? = some b) :
    ∃ address, l.addresses[k]? = some address ∧ l.blocks[k]? = some ⟨address, b.storage⟩ := by
  obtain ⟨hlt, -⟩ := List.getElem?_eq_some_iff.mp found
  have bound : k < l.addresses.length := sound.addresses ▸ hlt
  have address := List.getElem?_eq_getElem bound
  refine ⟨l.addresses[k], address, ?_⟩
  rw [blocks, List.getElem?_zipWith, address, found]

/-- What a `take` does to the allocations: it replaces at most the one of its slot, by one
that is apart from the others. -/
structure Takes (l : Lender) (size : Nat) (fresh : Block (Option UInt8)) (l' : Lender) :
    Prop where
  wellFormed : l'.pool.WellFormed l.pool.maxBufferSize
  addresses : l'.addresses.length = l'.pool.buffers.length
  taken : l'.pool.taken = l.pool.taken + 1
  released : l'.pool.released = l.pool.released
  size : min size l.pool.maxBufferSize ≤ fresh.cells.length
  blocks : l'.blocks = l.blocks.take l.pool.taken ++ fresh :: l.blocks.drop (l.pool.taken + 1)
  apart : ∀ b ∈ l.blocks.take l.pool.taken ++ l.blocks.drop (l.pool.taken + 1), b.Apart fresh

theorem Sound.take {size extra address : Nat} (sound : l.Sound maxBufferSize)
    (h : l.take size extra address = some l') :
    (l.pool.take size extra).2 = some ⟨l.pool.taken, min size l.pool.maxBufferSize⟩ ∧
      ∃ fresh, l.Takes size fresh l' := by
  have wf := sound.wellFormed
  have buffers := BufferPool.take_buffers wf size extra
  have kept : (l.pool.take size extra).1.WellFormed maxBufferSize := wf.take
  simp only [Lender.take] at h
  cases took : l.pool.take size extra with
  | mk q taken =>
      cases taken with
      | none => simp [took] at h
      | some b =>
          simp only [took] at h buffers kept
          have large := BufferPool.take_next wf took
          obtain ⟨rfl, taken, released, -⟩ := BufferPool.take_some took
          refine ⟨rfl, ?_⟩
          cases grows : l.pool.allocates size with
          | true =>
              simp only [grows, if_true] at h
              obtain ⟨apart, h⟩ := Option.ite_none_right_eq_some.mp h
              cases h
              rw [List.eraseIdx_eq_take_drop_succ] at apart
              refine ⟨⟨address, (l.pool.next size extra).storage⟩, sound.wellFormed.size ▸ kept,
                ?_, taken, released, large, ?_, apart⟩
              · simp only [buffers, List.length_append, List.length_take, List.length_cons,
                  List.length_drop, sound.addresses]
              · simp only [blocks, buffers]
                exact zipWith_replaced _ sound.addresses _ _ _
          | false =>
              simp only [grows, Bool.false_eq_true, if_false] at h
              cases h
              have found := BufferPool.next_of_not_allocates grows extra
              have same : q.buffers = l.pool.buffers := buffers.trans (replaced_self found)
              obtain ⟨place, -, block⟩ := sound.block found
              refine ⟨⟨place, (l.pool.next size extra).storage⟩, sound.wellFormed.size ▸ kept,
                ?_, taken, released, large, ?_, ?_⟩
              · simp only [same, sound.addresses]
              · simp only [blocks, same]
                exact (replaced_self block).symm
              · exact apart_replaced sound.apart block

/-- After a `take` there is one more loan, the start of the vector of its slot. -/
theorem Sound.taken {size extra address : Nat} (sound : l.Sound maxBufferSize)
    (shows' : l.Shows s) (h : l.step (.take size extra address) = some l') :
    l'.Sound maxBufferSize ∧
      ∃ t, Run Loans.step anyStep s (l.see (.take size extra address)) t ∧ l'.Shows t := by
  have h : l.take size extra address = some l' := h
  obtain ⟨took, fresh, takes⟩ := sound.take h
  have bound : l.pool.taken ≤ l.blocks.length := sound.length ▸ sound.wellFormed.taken
  have length : (l.blocks.take l.pool.taken).length = l.pool.taken := by
    rw [List.length_take, Nat.min_eq_left bound]
  have block : l'.blocks[l.pool.taken]? = some fresh := by
    rw [takes.blocks, List.getElem?_append_right (Nat.le_of_eq length), length, Nat.sub_self,
      List.getElem?_cons_zero]
  have seen : l.see (.take size extra address) =
      [.lend ⟨fresh, min size l.pool.maxBufferSize⟩] := by
    simp only [see, h, took, block, Option.map_some, Option.toList_some]
  have lends : Loans.step s (.lend ⟨fresh, min size l.pool.maxBufferSize⟩) =
      some { s with lent := s.lent ++ [⟨fresh, min size l.pool.maxBufferSize⟩] } := by
    refine if_pos ⟨takes.size, fun loan member => takes.apart _ (List.mem_append_left _ ?_)⟩
    rw [← shows'.lent]
    exact List.mem_map_of_mem member
  rw [seen]
  refine ⟨⟨sound.wellFormed.size ▸ takes.wellFormed, takes.addresses, ?_⟩,
    _, .single trivial lends, ?_, ?_⟩
  · rw [takes.blocks]
    exact pairwise_replaced sound.apart takes.apart
  · rw [List.map_append, shows'.lent, takes.blocks, takes.taken, take_replaced bound]
    rfl
  · exact shows'.returned.trans takes.released.symm

/-- What `release` returns is the start of the oldest loan that was not given back. -/
theorem Sound.released {len : Nat} (sound : l.Sound maxBufferSize) (shows' : l.Shows s)
    (h : l.step (.release len) = some l') :
    l'.Sound maxBufferSize ∧
      ∃ t, Run Loans.step anyStep s (l.see (.release len)) t ∧ l'.Shows t := by
  obtain ⟨filled, released, rfl⟩ := Option.map_eq_some_iff.mp h
  obtain ⟨used, b, found, fits, taken⟩ := BufferPool.release_some.mp released
  obtain ⟨place, -, allocated⟩ := sound.block found
  obtain ⟨loan, oldest, same⟩ : ∃ loan, s.lent[l.pool.released]? = some loan ∧
      loan.block = ⟨place, b.storage⟩ := by
    rw [← Option.map_eq_some_iff, ← List.getElem?_map, shows'.lent, List.getElem?_take, if_pos used]
    exact allocated
  have seen : l.see (.release len) = [.giveBack len place filled] := by
    simp only [see, allocated, released]
  have back : Loans.step s (.giveBack len place filled) =
      some { s with returned := s.returned + 1 } := by
    refine giveBack_eq_some.mpr ⟨loan, ?_, congrArg Block.address same, ?_, ?_, rfl⟩
    · rw [shows'.returned, oldest]
    · rw [same]
      exact fits
    · rw [same]
      exact taken
  rw [seen, BufferPool.release_next]
  exact ⟨⟨⟨sound.wellFormed.size, sound.wellFormed.taken, sound.wellFormed.fits⟩, sound.addresses,
    sound.apart⟩, _, .single trivial back, shows'.lent, congrArg (· + 1) shows'.returned⟩

/-- A write reaches the blocks that have the address. -/
theorem blocks_write (l : Lender) (x : Nat) (byte : UInt8) :
    (l.write x byte).blocks = l.blocks.map fun b => b.write x (some byte) := by
  obtain ⟨⟨buffers, taken, released, size⟩, addresses⟩ := l
  simp only [write, blocks]
  induction addresses generalizing buffers with
  | nil => rfl
  | cons address addresses ih =>
      cases buffers with
      | nil => rfl
      | cons b buffers =>
          rw [List.zipWith_cons_cons, List.zipWith_cons_cons, List.zipWith_cons_cons,
            List.map_cons, ih]
          exact congrArg (· :: _) (Block.mk_write ⟨address, b.storage⟩ x (some byte))

/-- A write moves no allocation. -/
theorem Sound.write (sound : l.Sound maxBufferSize) (x : Nat) (byte : UInt8) :
    (l.write x byte).Sound maxBufferSize := by
  have length : (l.write x byte).pool.buffers.length = l.pool.buffers.length := by
    simp [Lender.write, sound.addresses]
  refine ⟨⟨sound.wellFormed.size, ?_, ?_⟩, ?_, ?_⟩
  · rw [length]
    exact sound.wellFormed.taken
  · intro b member
    simp only [Lender.write, ← List.map_uncurry_zip_eq_zipWith] at member
    obtain ⟨⟨address, c⟩, pair, rfl⟩ := List.mem_map.mp member
    have fits := sound.wellFormed.fits c (List.of_mem_zip pair).2
    simpa [Buf.capacity] using fits
  · rw [length]
    exact sound.addresses
  · rw [blocks_write, List.pairwise_map]
    simpa using sound.apart

/-- Every loan with the address gets the byte. -/
theorem Sound.written (sound : l.Sound maxBufferSize) (shows' : l.Shows s) (x : Nat)
    (byte : UInt8) :
    (l.write x byte).Sound maxBufferSize ∧
      ∃ t, Run Loans.step anyStep s (l.see (.write x byte)) t ∧ (l.write x byte).Shows t := by
  refine ⟨sound.write x byte, _, .single trivial rfl, ?_, shows'.returned⟩
  rw [blocks_write, List.map_map]
  have lent := congrArg (List.map fun b => Block.write b x (some byte)) shows'.lent
  rw [List.map_map] at lent
  exact lent.trans (List.map_take ..)

/-- A write to a vector changes that vector alone. -/
theorem Sound.write_block {slot k : Nat} {block : Block (Option UInt8)}
    (sound : l.Sound maxBufferSize) (found : l.blocks[slot]? = some block)
    (fits : k < block.cells.length) (byte : UInt8) :
    (l.write (block.address + k) byte).pool.buffers =
      l.pool.buffers.modify slot fun b => ⟨b.len, b.storage.set k (some byte)⟩ := by
  have others := apart_replaced sound.apart found
  rw [← List.eraseIdx_eq_take_drop_succ] at others
  refine List.ext_getElem? fun j => ?_
  simp only [Lender.write, List.getElem?_modify, List.getElem?_zipWith]
  cases buffer : l.pool.buffers[j]? with
  | none => simp
  | some b =>
      obtain ⟨place, address, allocated⟩ := sound.block buffer
      rw [address]
      by_cases own : slot = j
      · subst own
        obtain rfl : block = ⟨place, b.storage⟩ := Option.some.inj (found.symm.trans allocated)
        simp [Block.write]
      · have apart := others _ (List.mem_eraseIdx_iff_getElem?.mpr ⟨j, Ne.symm own, allocated⟩)
        have away := fun covered =>
          Block.apart_iff.mp apart (block.address + k) covered ⟨by omega, by omega⟩
        simp [Block.write_outside away, own]

/-- One more byte is stored by one more write. -/
theorem Sound.fill_next {slot : Nat} {block : Block (Option UInt8)} {bytes : List UInt8}
    (sound : (l.fill slot bytes).Sound maxBufferSize)
    (found : (l.fill slot bytes).blocks[slot]? = some block)
    (fits : bytes.length < block.cells.length) (byte : UInt8) :
    (l.fill slot bytes).write (block.address + bytes.length) byte =
      l.fill slot (bytes ++ [byte]) := by
  have stored := sound.write_block found fits byte
  refine congrArg (fun buffers => Lender.mk { l.pool with buffers := buffers } l.addresses)
    (stored.trans ?_)
  simp only [fill, BufferPool.fill, List.modify_modify_eq]
  refine List.ext_getElem? fun j => ?_
  simp only [List.getElem?_modify]
  cases buffer : l.pool.buffers[j]? with
  | none => rfl
  | some b =>
      by_cases own : slot = j
      · subst own
        have filled : (l.fill slot bytes).pool.buffers[slot]? = some (b.fill bytes) := by
          simp [fill, BufferPool.fill, buffer]
        obtain ⟨place, -, same⟩ := sound.block filled
        obtain rfl := Option.some.inj (found.symm.trans same)
        have room : bytes.length < b.capacity := by
          rw [Buf.fill, List.length_append, List.length_map, List.length_drop] at fits
          rw [Buf.capacity]
          omega
        simp [BufferPool.fill_snoc room]
      · simp [own]

/-- Storing bytes into a vector is writing them one after the other. -/
theorem Sound.fill_run {slot : Nat} {block : Block (Option UInt8)} {bytes : List UInt8}
    (sound : l.Sound maxBufferSize) (found : l.blocks[slot]? = some block)
    (fits : bytes.length ≤ block.cells.length) :
    Run step anyStep l (bytes.mapIdx fun k byte => .write (block.address + k) byte)
      (l.fill slot bytes) := by
  suffices all : Run step anyStep l (bytes.mapIdx fun k byte => .write (block.address + k) byte)
      (l.fill slot bytes) ∧ (l.fill slot bytes).Sound maxBufferSize ∧
      ∃ filled, (l.fill slot bytes).blocks[slot]? = some filled ∧
        filled.address = block.address ∧ filled.cells.length = block.cells.length from all.1
  induction bytes using List.reverseRecOn with
  | nil =>
      rw [fill, BufferPool.fill_nil]
      exact ⟨.nil, sound, block, found, rfl, rfl⟩
  | append_singleton bytes byte ih =>
      rw [List.length_append, List.length_singleton] at fits
      obtain ⟨run, kept, filled, stored, address, length⟩ := ih (by omega)
      have next := kept.fill_next stored (by omega) byte
      rw [List.mapIdx_concat, ← next, ← address]
      rw [← address] at run
      refine ⟨run.snoc trivial rfl, kept.write _ _,
        filled.write (filled.address + bytes.length) (some byte), ?_, by simp, ?_⟩
      · rw [blocks_write, List.getElem?_map, stored]
        rfl
      · rw [Block.write_length, length]

/-- Every call on the pool is one on its loans. -/
theorem Sound.next (sound : l.Sound maxBufferSize) (shows' : l.Shows s)
    (h : l.step a = some l') :
    l'.Sound maxBufferSize ∧ ∃ t, Run Loans.step anyStep s (l.see a) t ∧ l'.Shows t := by
  cases a with
  | take size extra address => exact sound.taken shows' h
  | release len => exact sound.released shows' h
  | clear =>
      cases h
      exact ⟨⟨⟨sound.wellFormed.size, Nat.zero_le _, sound.wellFormed.fits⟩, sound.addresses,
        sound.apart⟩, Loans.empty, .single trivial rfl, rfl, rfl⟩
  | write x byte =>
      cases h
      exact sound.written shows' x byte

/-- Only a `clear` ends the loans. -/
theorem see_kept (kept : a ≠ .clear) : ∀ e ∈ l.see a, e ≠ .reset := by
  intro e member
  cases a with
  | clear => exact absurd rfl kept
  | write x byte =>
      rw [List.mem_singleton.mp member]
      simp
  | take size extra address =>
      simp only [see] at member
      split at member
      · obtain ⟨block, -, rfl⟩ := Option.map_eq_some_iff.mp (Option.mem_toList.mp member)
        simp
      · cases member
  | release len =>
      simp only [see] at member
      split at member
      · rw [List.mem_singleton.mp member]
        simp
      · cases member

/-- A loan is the vector of its slot. -/
theorem Shows.block (shows' : l.Shows s) {k : Nat} {b : Block (Option UInt8)} :
    (∃ loan, s.lent[k]? = some loan ∧ loan.block = b) ↔
      k < l.pool.taken ∧ l.blocks[k]? = some b := by
  rw [← Option.map_eq_some_iff, ← List.getElem?_map, shows'.lent, List.getElem?_take]
  split
  case isTrue lent => simp [lent]
  case isFalse free => simp [free]

/-- A `release` of no more bytes than were lent goes through. -/
theorem Shows.returns (shows' : l.Shows s) (sound : l.Sound maxBufferSize)
    (sized : ∀ loan ∈ s.lent, loan.size ≤ loan.block.cells.length) : l.Returns s := by
  intro loan len oldest within
  obtain ⟨used, allocated⟩ := shows'.block.mp ⟨loan, oldest, rfl⟩
  rw [shows'.returned] at used allocated
  have bound : l.pool.released < l.pool.buffers.length :=
    Nat.lt_of_lt_of_le used sound.wellFormed.taken
  obtain ⟨place, -, same⟩ := sound.block (List.getElem?_eq_getElem bound)
  have cells : loan.block.cells = l.pool.buffers[l.pool.released].storage :=
    congrArg Block.cells (Option.some.inj (allocated.symm.trans same))
  refine BufferPool.release_some.mpr ⟨used, _, List.getElem?_eq_getElem bound, ?_, ?_⟩
  · rw [Buf.capacity, ← cells]
    exact Nat.le_trans within (sized loan (List.mem_of_getElem? oldest))
  · rw [loan.usable_take within, cells]

end Step

section Run

variable {maxBufferSize address : Nat} {start l l' : Lender} {as bs : List LenderAct}
  {s : State (Option UInt8)}

/-- What is seen of a pool is a run of loans. -/
theorem run_loans {ok : Lender → LenderAct → Prop} {p : Act (Option UInt8) → Prop}
    (run : Run step ok start as l) (sound : start.Sound maxBufferSize) (shows' : start.Shows s)
    (seen : ∀ l a, ok l a → ∀ e ∈ l.see a, p e) :
    l.Sound maxBufferSize ∧
      ∃ t, Run Loans.step (fun _ e => p e) s (observe step see start as) t ∧ l.Shows t := by
  suffices all : ∃ t, Run Loans.step (fun _ e => p e) s (observe step see start as) t ∧
      l.Sound maxBufferSize ∧ l.Shows t by
    obtain ⟨t, loans, sound, shows'⟩ := all
    exact ⟨sound, t, loans, shows'⟩
  refine run.simulated (R := fun l s => l.Sound maxBufferSize ∧ l.Shows s) ⟨sound, shows'⟩ ?_
  rintro l a l' s ⟨sound, shows'⟩ good h
  obtain ⟨sound, t, next, shows'⟩ := sound.next shows' h
  exact ⟨t, next.only (seen l a good), sound, shows'⟩

/-- What the buffers of a pool are after calls that did not panic. -/
structure InOrder (start : Lender) (as : List LenderAct) (l : Lender) : Prop where
  /-- A `release` returns the start of the oldest loan that was not given back, with what
  was written into it. -/
  loans : ∃ s, Run Loans.step anyStep Loans.empty (observe step see start as) s ∧
    l.Shows s ∧ l.Returns s
  /-- Since the last `clear`, the buffers released are the first of those taken. -/
  first : returns (observe step see start as) <+: lends (observe step see start as)
  /-- The allocations taken since the last `clear` do not overlap. -/
  apart : (l.blocks.take l.pool.taken).Pairwise Block.Apart
  /-- Until the next `clear` they stay where they are, and only writes change them. -/
  steady : ∀ bs l', Run step (fun _ a => a ≠ .clear) l bs l' →
    ∀ k b, k < l.pool.taken → l.blocks[k]? = some b →
      l'.blocks[k]? = some (b.writeAll (writes (observe step see l bs)))
  /-- Storing bytes into a vector is writing them one after the other. -/
  stores : ∀ slot block bytes, l.blocks[slot]? = some block →
    bytes.length ≤ block.cells.length →
    Run step anyStep l (bytes.mapIdx fun k byte => .write (block.address + k) byte)
      (l.fill slot bytes)

/-- The buffers of a pool are lent in order, for any sequence of calls that do not panic,
and any writes in between. -/
theorem buffers_lent_in_order
    (run : Run step anyStep (new maxBufferSize address) as l) :
    InOrder (new maxBufferSize address) as l := by
  obtain ⟨sound, s, loans, shows'⟩ := run_loans (s := Loans.empty) (p := fun _ => True) run
    (.new maxBufferSize address) ⟨rfl, rfl⟩ (fun _ _ _ _ _ => trivial)
  refine ⟨⟨s, loans, shows', shows'.returns sound (run_sized loans)⟩, returns_prefix loans, ?_,
    ?_, fun _ _ _ found fits => sound.fill_run found fits⟩
  · rw [← shows'.lent]
    exact List.pairwise_map.mpr (run_apart loans)
  · intro bs l' later k b lent found
    obtain ⟨-, t, kept, shows''⟩ := run_loans later sound shows'
      (fun l a kept => see_kept kept)
    obtain ⟨loan, member, rfl⟩ := shows'.block.mpr ⟨lent, found⟩
    exact (shows''.block.mp ⟨_, run_loan kept member, rfl⟩).2

/-- Two buffers are taken, one byte is written into the first, and both are released. -/
def lentTwice : List LenderAct :=
  [.take 4 0 0, .take 2 0 100, .write 1 7, .release 2, .release 1]

theorem buffers_lent_in_order_twice :
    ∃ l, Run step anyStep (new 32 0) lentTwice l ∧ InOrder (new 32 0) lentTwice l ∧
      returns (observe step see (new 32 0) lentTwice) = [0, 100] := by
  have enabled : (exec step anyStep (new 32 0) lentTwice).isSome = true := by decide
  obtain ⟨l, ran⟩ := Option.isSome_iff_exists.mp enabled
  exact ⟨l, exec_run ran, buffers_lent_in_order (exec_run ran), by decide⟩

end Run

end Lender

end Iocp
