import Mathlib.Algebra.BigOperators.Group.List.Basic
import Mathlib.Data.List.Perm.Basic
import Mathlib.Algebra.Order.Group.Multiset

/-!
# Totals over a list

The sum of a weight over the elements of a list, in any commutative monoid.
Replacing one element changes the total by the two weights and by nothing
else, which is what accounting arguments over indexed components use.
-/

namespace Iocp.Totals

variable {α M : Type*} [AddCommMonoid M]

/-- The sum of the weights of the elements. -/
def total (f : α → M) (l : List α) : M := (l.map f).sum

@[simp] theorem total_nil (f : α → M) : total f [] = 0 := rfl

@[simp] theorem total_cons (f : α → M) (x : α) (l : List α) :
    total f (x :: l) = f x + total f l := by
  simp [total]

@[simp] theorem total_append (f : α → M) (l m : List α) :
    total f (l ++ m) = total f l + total f m := by
  simp [total]

/-- Counting the elements of a total adds up what each weight counts. -/
theorem countP_total {β : Type*} (p : β → Prop) [DecidablePred p] (f : α → Multiset β)
    (l : List α) : (total f l).countP p = total (fun x => (f x).countP p) l := by
  induction l with
  | nil => rfl
  | cons x l ih => rw [total_cons, total_cons, Multiset.countP_add, ih]

/-- A permutation has the same total. -/
theorem total_perm (f : α → M) {l m : List α} (h : l.Perm m) : total f l = total f m :=
  (h.map f).sum_eq

/-- Removing the element at an index removes its weight. -/
theorem total_eraseIdx (f : α → M) {l : List α} {i : Nat} {x : α} (h : l[i]? = some x) :
    total f l = f x + total f (l.eraseIdx i) := by
  obtain ⟨hi, rfl⟩ := List.getElem?_eq_some_iff.mp h
  calc
    total f l = total f (l[i] :: l.eraseIdx i) :=
      (total_perm f (List.getElem_cons_eraseIdx_perm hi)).symm
    _ = f l[i] + total f (l.eraseIdx i) := total_cons f _ _

/-- Replacing the element at an index replaces its weight. -/
theorem total_set (f : α → M) {l : List α} {i : Nat} {x : α} (h : l[i]? = some x) (y : α) :
    total f (l.set i y) = f y + total f (l.eraseIdx i) := by
  obtain ⟨hi, rfl⟩ := List.getElem?_eq_some_iff.mp h
  calc
    total f (l.set i y) = total f (y :: l.eraseIdx i) :=
      total_perm f (List.set_perm_cons_eraseIdx hi y)
    _ = f y + total f (l.eraseIdx i) := total_cons f _ _

/-- Updating an element without changing its weight keeps the total. -/
theorem total_modify (f : α → M) (g : α → α) (hg : ∀ x, f (g x) = f x) (l : List α) (i : Nat) :
    total f (l.modify i g) = total f l := by
  cases h : l[i]? with
  | none =>
      rw [List.modify_eq_self (by simpa using h)]
  | some x =>
      have hm : l.modify i g = l.set i (g x) := by
        obtain ⟨hi, rfl⟩ := List.getElem?_eq_some_iff.mp h
        exact List.modify_eq_set_get g hi
      rw [hm, total_set f h, total_eraseIdx f h, hg]

/-- The total of a constant weight zero. -/
theorem total_eq_zero {f : α → M} {l : List α} (h : ∀ x ∈ l, f x = 0) : total f l = 0 := by
  induction l with
  | nil => rfl
  | cons x l ih =>
      rw [total_cons, h x (by simp), ih fun y hy => h y (by simp [hy]), add_zero]

/-- A natural total that vanishes has only vanishing weights. -/
theorem eq_zero_of_total {f : α → Nat} {l : List α} (h : total f l = 0) {x : α} (hx : x ∈ l) :
    f x = 0 := by
  induction l with
  | nil => cases hx
  | cons y l ih =>
      rw [total_cons] at h
      rcases List.mem_cons.mp hx with rfl | hx
      · omega
      · exact ih (by omega) hx

/-- Smaller weights have a smaller total. -/
theorem total_le {f g : α → Nat} {l : List α} (h : ∀ x ∈ l, f x ≤ g x) : total f l ≤ total g l := by
  induction l with
  | nil => exact Nat.le_refl _
  | cons x l ih =>
      have head := h x (by simp)
      have rest := ih fun y hy => h y (by simp [hy])
      rw [total_cons, total_cons]
      omega

/-- Bounded weights have a total bounded by their number. -/
theorem total_le_mul {f : α → Nat} {c : Nat} {l : List α} (h : ∀ x ∈ l, f x ≤ c) :
    total f l ≤ c * l.length := by
  induction l with
  | nil => exact Nat.le_refl _
  | cons x l ih =>
      have head := h x (by simp)
      have rest := ih fun y hy => h y (by simp [hy])
      rw [total_cons, List.length_cons, Nat.mul_add]
      omega

/-- Membership in a total of multisets. -/
theorem mem_total {β : Type*} {f : α → Multiset β} {l : List α} {b : β} :
    b ∈ total f l ↔ ∃ x ∈ l, b ∈ f x := by
  induction l with
  | nil => simp
  | cons x l ih => simp [ih]

end Iocp.Totals
