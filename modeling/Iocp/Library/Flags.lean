import Mathlib.Data.BitVec

/-!
# Flags in a word

Options that share one word, each with a mask of its own. Setting or clearing
one flag is seen by a reader of that flag and by no reader of a disjoint one.
-/

namespace Iocp.Flags

variable {w : Nat} {x y flag mask : BitVec w} {t : Bool}

/-- Set or clear a flag. -/
def put (x flag : BitVec w) (t : Bool) : BitVec w := if t then x ||| flag else x &&& ~~~flag

/-- Some bit of the flag is set. -/
def has (x flag : BitVec w) : Bool := x &&& flag != 0#w

/-- Words without a common bit. -/
theorem and_eq_zero : x &&& y = 0#w ↔ ∀ i, x.getLsbD i = true → y.getLsbD i = false := by
  constructor
  · intro h i set
    have bit := congrArg (fun z => z.getLsbD i) h
    simpa [set] using bit
  · intro apart
    apply BitVec.eq_of_getLsbD_eq
    intro i _
    cases set : x.getLsbD i with
    | false => simp [set]
    | true => simp [set, apart i set]

theorem has_eq_true : has x flag = true ↔ ∃ i, x.getLsbD i = true ∧ flag.getLsbD i = true := by
  simp [has, and_eq_zero]

theorem getLsbD_put (i : Nat) :
    (put x flag t).getLsbD i = ((flag.getLsbD i && t) || (x.getLsbD i && !flag.getLsbD i)) := by
  by_cases inside : i < w
  · cases t
    · simp only [put, Bool.false_eq_true, if_false, BitVec.getLsbD_and, BitVec.getLsbD_not, inside,
        decide_true, Bool.true_and, Bool.and_false, Bool.false_or]
    · simp only [put, if_true, BitVec.getLsbD_or, Bool.and_true]
      cases flag.getLsbD i <;> cases x.getLsbD i <;> rfl
  · have outside : w ≤ i := Nat.not_lt.mp inside
    simp [BitVec.getLsbD_of_ge _ _ outside]

theorem has_or : has (x ||| y) flag = (has x flag || has y flag) := by
  rw [Bool.eq_iff_iff, Bool.or_eq_true, has_eq_true, has_eq_true, has_eq_true]
  simp only [BitVec.getLsbD_or, Bool.or_eq_true, or_and_right, exists_or]

/-- A word without a bit of the mask has none of its flags. -/
theorem has_of_apart (apart : x &&& mask = 0#w) (within : flag &&& ~~~mask = 0#w) :
    has x flag = false := by
  rw [and_eq_zero] at apart within
  rw [Bool.eq_false_iff, Ne, has_eq_true]
  rintro ⟨i, set, own⟩
  have outside := within i own
  have inside := BitVec.lt_of_getLsbD own
  simp only [BitVec.getLsbD_not, inside, apart i set] at outside
  cases outside

/-- A flag that was put is read back. -/
theorem has_put_self (nonzero : flag ≠ 0#w) : has (put x flag t) flag = t := by
  cases t with
  | true =>
      have bit : has flag flag = true := by simpa [has] using nonzero
      simp [put, has_or, bit]
  | false =>
      rw [Bool.eq_false_iff, Ne, has_eq_true]
      rintro ⟨i, set, own⟩
      simp [getLsbD_put, own] at set

/-- No disjoint flag is touched. -/
theorem has_put_other (apart : flag &&& mask = 0#w) : has (put x flag t) mask = has x mask := by
  rw [and_eq_zero] at apart
  rw [Bool.eq_iff_iff, has_eq_true, has_eq_true]
  apply exists_congr
  intro i
  cases own : flag.getLsbD i with
  | true => simp [apart i own]
  | false => simp [getLsbD_put, own]

/-- A word keeps to a mask when the flag does. -/
theorem put_within (inside : flag &&& ~~~mask = 0#w) (within : x &&& ~~~mask = 0#w) :
    put x flag t &&& ~~~mask = 0#w := by
  rw [and_eq_zero] at inside within ⊢
  intro i set
  rw [getLsbD_put, Bool.or_eq_true, Bool.and_eq_true, Bool.and_eq_true] at set
  rcases set with ⟨own, -⟩ | ⟨old, -⟩
  · exact inside i own
  · exact within i old

/-- Bits outside of a mask are read back from beside a word that keeps to it. -/
theorem or_and_not (apart : y &&& mask = 0#w) (within : x &&& ~~~mask = 0#w) :
    (y ||| x) &&& ~~~mask = y := by
  rw [and_eq_zero] at apart within
  apply BitVec.eq_of_getLsbD_eq
  intro i inside
  cases other : y.getLsbD i with
  | true =>
      simp only [BitVec.getLsbD_and, BitVec.getLsbD_or, BitVec.getLsbD_not, other,
        apart i other, inside, decide_true, Bool.true_or, Bool.not_false, Bool.and_self]
  | false =>
      cases own : x.getLsbD i with
      | true => simpa [other, own, inside] using within i own
      | false => simp [other, own]

end Iocp.Flags
