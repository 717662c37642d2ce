import Iocp.Library.Transition

/-!
# Memory lent in order

A lender hands out blocks of memory, and takes them back in the order in which it
handed them out, until a reset ends all loans. Anybody may write to any address at any
time. A block is lent whole, and its borrower is told how many of its cells to use.
-/

namespace Iocp.Loans

open Transition

variable {α : Type*}

/-- Adjacent cells of memory. -/
structure Block (α : Type*) where
  address : Nat
  cells : List α
  deriving DecidableEq

namespace Block

variable {b c : Block α} {x : Nat} {v : α}

/-- The address is one of the block. -/
def Covers (b : Block α) (x : Nat) : Prop := b.address ≤ x ∧ x < b.address + b.cells.length

/-- Two blocks that do not overlap; an empty block may be anywhere. -/
def Apart (b c : Block α) : Prop :=
  b.cells.length = 0 ∨ c.cells.length = 0 ∨ b.address + b.cells.length ≤ c.address ∨
    c.address + c.cells.length ≤ b.address

instance (b c : Block α) : Decidable (b.Apart c) := by
  unfold Apart
  infer_instance

theorem apart_iff : b.Apart c ↔ ∀ x, b.Covers x → ¬ c.Covers x := by
  simp only [Apart, Covers]
  constructor
  · intro apart x hb hc
    omega
  · intro apart
    by_contra overlap
    -- the later of the two first addresses is in both
    exact apart (max b.address c.address) (by omega) (by omega)

theorem Apart.symm (apart : b.Apart c) : c.Apart b := by
  simp only [Apart] at apart ⊢
  omega

/-- Write one cell, if the address is one of the block. -/
def write (b : Block α) (x : Nat) (v : α) : Block α :=
  if b.address ≤ x then { b with cells := b.cells.set (x - b.address) v } else b

@[simp] theorem write_address (b : Block α) (x : Nat) (v : α) :
    (b.write x v).address = b.address := by
  rw [write]
  split <;> rfl

@[simp] theorem write_length (b : Block α) (x : Nat) (v : α) :
    (b.write x v).cells.length = b.cells.length := by
  rw [write]
  split <;> simp

theorem mk_write (b : Block α) (x : Nat) (v : α) :
    ⟨b.address, (b.write x v).cells⟩ = b.write x v := by
  rw [write]
  split <;> rfl

/-- A write anywhere else is not seen. -/
theorem write_outside (away : ¬ b.Covers x) : b.write x v = b := by
  rw [write]
  split
  case isTrue low =>
      have high : b.cells.length ≤ x - b.address := by
        simp only [Covers, not_and] at away
        have := away low
        omega
      rw [List.set_eq_of_length_le high]
  case isFalse => rfl

/-- Writing moves no block. -/
@[simp] theorem write_apart {y : Nat} {u : α} :
    (b.write x v).Apart (c.write y u) ↔ b.Apart c := by
  simp [Apart]

end Block

section Replaced

variable {β γ δ : Type*} {xs : List β} {n : Nat} {x : β}

/-- An element put in its own place. -/
theorem replaced_self (found : xs[n]? = some x) : xs.take n ++ x :: xs.drop (n + 1) = xs := by
  obtain ⟨hlt, rfl⟩ := List.getElem?_eq_some_iff.mp found
  rw [List.getElem_cons_drop, List.take_append_drop]

theorem take_replaced (bound : n ≤ xs.length) :
    (xs.take n ++ x :: xs.drop (n + 1)).take (n + 1) = xs.take n ++ [x] := by
  simp [List.take_append, List.take_take, bound]

theorem zipWith_replaced (f : β → γ → δ) {ys : List γ} (length : xs.length = ys.length) (n : Nat)
    (x : β) (y : γ) :
    List.zipWith f (xs.take n ++ x :: xs.drop (n + 1)) (ys.take n ++ y :: ys.drop (n + 1)) =
      (List.zipWith f xs ys).take n ++ f x y :: (List.zipWith f xs ys).drop (n + 1) := by
  rw [List.zipWith_append (by simp [length]), List.zipWith_cons_cons, List.take_zipWith,
    List.drop_zipWith]

/-- One block of several is apart from the others. -/
theorem apart_replaced {blocks : List (Block δ)} {b : Block δ}
    (apart : blocks.Pairwise Block.Apart) (found : blocks[n]? = some b) :
    ∀ c ∈ blocks.take n ++ blocks.drop (n + 1), c.Apart b := by
  rw [← replaced_self found, List.pairwise_append, List.pairwise_cons] at apart
  obtain ⟨-, ⟨later, -⟩, earlier⟩ := apart
  intro c member
  rcases List.mem_append.mp member with before | after
  · exact earlier c before b List.mem_cons_self
  · exact (later c after).symm

theorem pairwise_replaced {blocks : List (Block δ)} {b : Block δ}
    (apart : blocks.Pairwise Block.Apart)
    (fresh : ∀ c ∈ blocks.take n ++ blocks.drop (n + 1), c.Apart b) :
    (blocks.take n ++ b :: blocks.drop (n + 1)).Pairwise Block.Apart := by
  rw [List.pairwise_middle Block.Apart.symm]
  refine List.pairwise_cons.mpr ⟨fun c member => (fresh c member).symm, ?_⟩
  rw [← List.eraseIdx_eq_take_drop_succ]
  exact apart.sublist (List.eraseIdx_sublist _ _)

end Replaced

/-- A block and the number of its cells that the borrower may use. -/
structure Loan (α : Type*) where
  block : Block α
  size : Nat
  deriving DecidableEq

def Loan.write (loan : Loan α) (x : Nat) (v : α) : Loan α :=
  { loan with block := loan.block.write x v }

/-- The cells that the borrower may use. -/
def Loan.usable (loan : Loan α) : List α := loan.block.cells.take loan.size

theorem Loan.usable_take (loan : Loan α) {len : Nat} (within : len ≤ loan.size) :
    loan.usable.take len = loan.block.cells.take len := by
  rw [usable, List.take_take, Nat.min_eq_left within]

/-- The loans since the last reset, and how many of them were given back. -/
structure State (α : Type*) where
  lent : List (Loan α)
  returned : Nat

/-- No loans. -/
def empty : State α := ⟨[], 0⟩

/-- What happens to the loans. -/
inductive Act (α : Type*)
  | lend (loan : Loan α)
  | write (x : Nat) (v : α)
  /-- The first cells of a block are given back. -/
  | giveBack (len address : Nat) (cells : List α)
  | reset
  deriving DecidableEq

/-- A block is lent that overlaps no other, and the oldest that was not given back is. -/
def step [DecidableEq α] (s : State α) : Act α → Option (State α)
  | .lend loan =>
      if loan.size ≤ loan.block.cells.length ∧ ∀ l ∈ s.lent, l.block.Apart loan.block then
        some { s with lent := s.lent ++ [loan] }
      else none
  | .write x v => some { s with lent := s.lent.map (·.write x v) }
  | .giveBack len address cells =>
      match s.lent[s.returned]? with
      | none => none
      | some loan =>
          if loan.block.address = address ∧ len ≤ loan.block.cells.length ∧
              loan.block.cells.take len = cells then
            some { s with returned := s.returned + 1 }
          else none
  | .reset => some empty

/-- The addresses of the blocks lent since the last reset, after one more act. -/
def lendsAfter (xs : List Nat) : Act α → List Nat
  | .lend loan => xs ++ [loan.block.address]
  | .reset => []
  | _ => xs

/-- The addresses of the blocks lent since the last reset, in order. -/
def lends (es : List (Act α)) : List Nat := es.foldl lendsAfter []

/-- The addresses of the blocks given back since the last reset, after one more act. -/
def returnsAfter (xs : List Nat) : Act α → List Nat
  | .giveBack _ address _ => xs ++ [address]
  | .reset => []
  | _ => xs

/-- The addresses of the blocks given back since the last reset, in order. -/
def returns (es : List (Act α)) : List Nat := es.foldl returnsAfter []

/-- The writes of a history, in order. -/
def writes (es : List (Act α)) : List (Nat × α) :=
  es.filterMap fun
    | .write x v => some (x, v)
    | _ => none

@[simp] theorem writes_append (es fs : List (Act α)) :
    writes (es ++ fs) = writes es ++ writes fs := by
  simp [writes]

/-- A block after a number of writes. -/
def Block.writeAll (b : Block α) (ws : List (Nat × α)) : Block α :=
  ws.foldl (fun b w => b.write w.1 w.2) b

@[simp] theorem Block.writeAll_snoc (b : Block α) (ws : List (Nat × α)) (x : Nat) (v : α) :
    b.writeAll (ws ++ [(x, v)]) = (b.writeAll ws).write x v := by
  simp [writeAll]

section Rules

variable [DecidableEq α] {s t : State α} {es : List (Act α)}

/-- What is given back is the oldest block that was not. -/
theorem giveBack_eq_some {len address : Nat} {cells : List α} :
    step s (.giveBack len address cells) = some t ↔
      ∃ loan, s.lent[s.returned]? = some loan ∧ loan.block.address = address ∧
        len ≤ loan.block.cells.length ∧ loan.block.cells.take len = cells ∧
        { s with returned := s.returned + 1 } = t := by
  cases oldest : s.lent[s.returned]? with
  | none => simp [step, oldest]
  | some loan => simp [step, oldest, and_assoc]

/-- Different loans since the same reset do not overlap. -/
theorem run_apart (run : Run step anyStep empty es s) :
    s.lent.Pairwise fun l m => l.block.Apart m.block := by
  refine run.invariant (P := fun s => s.lent.Pairwise fun l m => l.block.Apart m.block) .nil ?_
  intro s e t apart _ h
  cases e with
  | lend loan =>
      obtain ⟨⟨-, fresh⟩, h⟩ := Option.ite_none_right_eq_some.mp h
      cases h
      exact List.pairwise_append.mpr ⟨apart, List.pairwise_singleton _ _, by simpa using fresh⟩
  | write x v =>
      cases h
      simpa [List.pairwise_map, Loan.write] using apart
  | giveBack len address cells =>
      obtain ⟨-, -, -, -, -, rfl⟩ := giveBack_eq_some.mp h
      exact apart
  | reset =>
      cases h
      exact .nil

/-- No borrower is told to use more cells than it was lent. -/
theorem run_sized (run : Run step anyStep empty es s) :
    ∀ loan ∈ s.lent, loan.size ≤ loan.block.cells.length := by
  refine run.invariant (P := fun s => ∀ loan ∈ s.lent, loan.size ≤ loan.block.cells.length)
    (by simp [empty]) ?_
  intro s e t sized _ h
  cases e with
  | lend loan =>
      obtain ⟨⟨fits, -⟩, h⟩ := Option.ite_none_right_eq_some.mp h
      cases h
      intro l member
      rcases List.mem_append.mp member with old | new
      · exact sized l old
      · rw [List.mem_singleton.mp new]
        exact fits
  | write x v =>
      cases h
      simpa [Loan.write] using sized
  | giveBack len address cells =>
      obtain ⟨-, -, -, -, -, rfl⟩ := giveBack_eq_some.mp h
      exact sized
  | reset =>
      cases h
      simp [empty]

/-- The blocks come back in the order in which they were lent. -/
theorem run_history (run : Run step anyStep empty es s) :
    lends es = s.lent.map (·.block.address) ∧ returns es = (lends es).take s.returned ∧
      s.returned ≤ s.lent.length := by
  induction run with
  | nil => exact ⟨rfl, rfl, Nat.le_refl 0⟩
  | @snoc es s e t run _ h ih =>
      obtain ⟨lent, back, bound⟩ := ih
      simp only [lends, returns, List.foldl_append, List.foldl_cons, List.foldl_nil] at lent back ⊢
      cases e with
      | lend loan =>
          obtain ⟨-, h⟩ := Option.ite_none_right_eq_some.mp h
          cases h
          simp only [lendsAfter, returnsAfter, back, lent, List.map_append, List.map_singleton]
          refine ⟨trivial, ?_, by simp; omega⟩
          rw [List.take_append_of_le_length (by simpa using bound)]
      | write x v =>
          cases h
          simpa [lendsAfter, returnsAfter, back, lent, Loan.write] using bound
      | giveBack len address cells =>
          obtain ⟨loan, oldest, rfl, -, -, rfl⟩ := giveBack_eq_some.mp h
          obtain ⟨hlt, -⟩ := List.getElem?_eq_some_iff.mp oldest
          refine ⟨lent, ?_, hlt⟩
          simp only [lendsAfter, returnsAfter, back, lent]
          rw [List.take_add_one, List.getElem?_map, oldest]
          rfl
      | reset =>
          cases h
          exact ⟨rfl, rfl, Nat.le_refl 0⟩

/-- The blocks given back are the first of those lent. -/
theorem returns_prefix (run : Run step anyStep empty es s) : returns es <+: lends es := by
  obtain ⟨-, back, -⟩ := run_history run
  rw [back]
  exact List.take_prefix _ _

/-- Until the next reset a loan stays where it is, and only writes change it. -/
theorem run_loan (run : Run step (fun _ e => e ≠ .reset) s es t) {k : Nat} {loan : Loan α}
    (found : s.lent[k]? = some loan) :
    t.lent[k]? = some ⟨loan.block.writeAll (writes es), loan.size⟩ := by
  induction run with
  | nil => exact found
  | @snoc es u e t run kept h ih =>
      rw [writes_append]
      cases e with
      | lend new =>
          obtain ⟨-, h⟩ := Option.ite_none_right_eq_some.mp h
          cases h
          obtain ⟨hlt, -⟩ := List.getElem?_eq_some_iff.mp ih
          rw [List.getElem?_append_left hlt, ih]
          simp [writes]
      | write x v =>
          cases h
          simp [List.getElem?_map, ih, Loan.write, writes]
      | giveBack len address cells =>
          obtain ⟨loan', oldest, -, -, -, rfl⟩ := giveBack_eq_some.mp h
          simpa [writes] using ih
      | reset => exact absurd rfl kept

end Rules

end Iocp.Loans
