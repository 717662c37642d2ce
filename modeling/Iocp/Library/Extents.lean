import Mathlib.Data.List.Induction

/-!
# Transfers at consecutive positions

A list of transfers, each with its position and its elements. When every one
begins where the one before it ended, reading them from a file gives a piece of
the file, and storing them into an empty file gives all of them in order.
-/

namespace Iocp.Extents

variable {α : Type*}

/-- A transfer: the position and the elements. -/
abbrev Extent (α : Type*) := Nat × List α

/-- The elements of all transfers, in order. -/
def contents (ts : List (Extent α)) : List α := ts.flatMap Prod.snd

@[simp] theorem contents_nil : contents ([] : List (Extent α)) = [] := rfl

@[simp] theorem contents_append (ts us : List (Extent α)) :
    contents (ts ++ us) = contents ts ++ contents us := by
  simp [contents]

@[simp] theorem contents_single (t : Extent α) : contents [t] = t.2 := by simp [contents]

/-- Each transfer begins where those before it ended. -/
def Contiguous (ts : List (Extent α)) : Prop :=
  ∀ pre t post, ts = pre ++ t :: post → t.1 = (contents pre).length

theorem Contiguous.nil : Contiguous ([] : List (Extent α)) := by
  intro pre t post split
  simp at split

/-- A transfer at the end. -/
theorem Contiguous.snoc {ts : List (Extent α)} {t : Extent α} (before : Contiguous ts)
    (position : t.1 = (contents ts).length) : Contiguous (ts ++ [t]) := by
  intro pre u post split
  rcases List.eq_nil_or_concat post with rfl | ⟨rest, v, rfl⟩
  · obtain ⟨rfl, same⟩ := List.append_inj' split rfl
    obtain rfl := List.singleton_inj.mp same
    exact position
  · rw [List.concat_eq_append, ← List.cons_append, ← List.append_assoc] at split
    obtain ⟨rest, -⟩ := List.append_inj' split rfl
    exact before pre u _ rest

theorem Contiguous.init {ts : List (Extent α)} {t : Extent α} (all : Contiguous (ts ++ [t])) :
    Contiguous ts ∧ t.1 = (contents ts).length := by
  refine ⟨?_, all ts t [] rfl⟩
  rintro pre u post rfl
  exact all pre u (post ++ [t]) (by simp)

/-- What is read of a file, at its position. -/
def ReadFrom (file : List α) (t : Extent α) : Prop := t.2 <+: file.drop t.1

/-- Consecutive reads from the start give a beginning of the file. -/
theorem Contiguous.read {file : List α} {ts : List (Extent α)} (all : Contiguous ts)
    (reads : ∀ t ∈ ts, ReadFrom file t) : contents ts <+: file := by
  induction ts using List.reverseRecOn with
  | nil => exact List.nil_prefix
  | append_singleton ts t ih =>
      obtain ⟨before, position⟩ := all.init
      obtain ⟨rest, first⟩ := ih before fun u member => reads u (List.mem_append_left _ member)
      have last : t.2 <+: file.drop t.1 := reads t List.mem_concat_self
      rw [contents_append, contents_single]
      rw [position, ← first, List.drop_left] at last
      rw [← first]
      exact (List.prefix_append_right_inj _).mpr last

/-- Elements stored into a file at a position within it or at its end. -/
def store (file : List α) (t : Extent α) : List α :=
  file.take t.1 ++ t.2 ++ file.drop (t.1 + t.2.length)

/-- The file after transfers were stored one after the other. -/
def stored (ts : List (Extent α)) : List α := ts.foldl store []

/-- Consecutive stores from the start leave everything that was stored. -/
theorem Contiguous.stored {ts : List (Extent α)} (all : Contiguous ts) :
    stored ts = contents ts := by
  induction ts using List.reverseRecOn with
  | nil => rfl
  | append_singleton ts t ih =>
      obtain ⟨before, position⟩ := all.init
      have file := ih before
      rw [Extents.stored] at file ⊢
      rw [List.foldl_append, file, contents_append, contents_single]
      simp only [List.foldl_cons, List.foldl_nil, store, position]
      rw [List.take_length, List.drop_eq_nil_of_le (Nat.le_add_right _ _), List.append_nil]

end Iocp.Extents
