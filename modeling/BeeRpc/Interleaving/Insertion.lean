import Mathlib.Data.List.Basic

namespace Interleaving

variable {α : Type} {p : α → Prop}

-- The second list is the first one with entries of a kind put in.
inductive Inserts (p : α → Prop) : List α → List α → Prop where
  | nil : Inserts p [] []
  | keep (a : α) {s t : List α} : Inserts p s t → Inserts p (a :: s) (a :: t)
  | insert {a : α} {s t : List α} : p a → Inserts p s t → Inserts p s (a :: t)

namespace Inserts

variable {s t : List α}

theorem refl (s : List α) : Inserts p s s := by
  induction s with
  | nil => exact .nil
  | cons a s ih => exact .keep a ih

theorem sublist (h : Inserts p s t) : s.Sublist t := by
  induction h with
  | nil => exact .slnil
  | keep a _ ih => exact ih.cons_cons a
  | insert _ _ ih => exact ih.cons _

theorem mem (h : Inserts p s t) {a : α} (ha : a ∈ t) : a ∈ s ∨ p a := by
  induction h with
  | nil => exact Or.inl ha
  | keep b _ ih =>
      rcases List.mem_cons.mp ha with rfl | ha
      · exact Or.inl (List.mem_cons_self ..)
      · exact (ih ha).imp_left (List.mem_cons_of_mem _)
  | insert hb _ ih =>
      rcases List.mem_cons.mp ha with rfl | ha
      · exact Or.inr hb
      · exact ih ha

-- What is put in makes the list longer.
theorem eq_of_length (h : Inserts p s t) (hlength : t.length ≤ s.length) : t = s :=
  (h.sublist.eq_of_length_le hlength).symm

end Inserts

end Interleaving
