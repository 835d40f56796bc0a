import Mathlib.Data.List.Basic
import Mathlib.Data.List.Nodup
import Mathlib.Data.List.Perm.Subperm

namespace Naming

-- Finitely many names, each given a value by a rule that may ask for the values of
-- other names. A rule that has its answer keeps it when more names have values.
structure System (κ α : Type) where
  names : List κ
  rule : κ → (κ → Option α) → Option α
  named : ∀ k f v, rule k f = some v → k ∈ names
  monotone : ∀ k f g, (∀ j v, f j = some v → g j = some v) →
    ∀ v, rule k f = some v → rule k g = some v

namespace System

variable {κ α : Type}

-- The values that the rules give within a number of rounds.
def within (s : System κ α) : Nat → κ → Option α
  | 0, _ => none
  | n + 1, k => s.rule k (s.within n)

-- A name that depends on itself never gets a value, and a chain of dependencies
-- meets every name once, so the number of names is a proved bound on the rounds.
def value (s : System κ α) (k : κ) : Option α := s.within s.names.length k

variable (s : System κ α)

theorem within_succ (n : Nat) : ∀ k v, s.within n k = some v → s.within (n + 1) k = some v := by
  induction n with
  | zero => intro k v h; simp [within] at h
  | succ n ih => exact fun k v h => s.monotone k _ _ ih v h

theorem within_mono {m n : Nat} (hmn : m ≤ n) (k : κ) (v : α) (h : s.within m k = some v) :
    s.within n k = some v := by
  induction hmn with
  | refl => exact h
  | step _ ih => exact s.within_succ _ k v ih

-- A name that gets its value in the last round alone depends on one that got its own
-- in the round before, and so on down.
theorem exists_chain (n : Nat) : ∀ k, s.within n k = none → s.within (n + 1) k ≠ none →
    ∃ chain : List κ, chain.Nodup ∧ chain.length = n + 1 ∧
      ∀ j ∈ chain, j ∈ s.names ∧ s.within (n + 1) j ≠ none := by
  induction n with
  | zero =>
      intro k _ hk
      obtain ⟨v, hv⟩ := Option.ne_none_iff_exists'.mp hk
      refine ⟨[k], by simp, rfl, ?_⟩
      intro j hj
      obtain rfl := List.mem_singleton.mp hj
      exact ⟨s.named _ _ v hv, hk⟩
  | succ n ih =>
      intro k hnone hk
      obtain ⟨v, hv⟩ := Option.ne_none_iff_exists'.mp hk
      -- were every value already there a round earlier, the rule would have answered then
      have hnew : ∃ j, s.within n j = none ∧ s.within (n + 1) j ≠ none := by
        by_contra hall
        have hold : ∀ j w, s.within (n + 1) j = some w → s.within n j = some w := by
          intro j w hw
          cases hj : s.within n j with
          | none => exact absurd ⟨j, hj, by simp [hw]⟩ hall
          | some u => rw [← hw, s.within_succ n j u hj]
        have : s.within (n + 1) k = some v := s.monotone k _ _ hold v hv
        rw [hnone] at this
        cases this
      obtain ⟨j, hj, hj'⟩ := hnew
      obtain ⟨chain, hnodup, hlen, hmem⟩ := ih j hj hj'
      refine ⟨k :: chain, List.nodup_cons.mpr ⟨?_, hnodup⟩, by simp [hlen], ?_⟩
      · intro hin
        exact (hmem k hin).2 hnone
      · intro i hi
        rcases List.mem_cons.mp hi with rfl | hi
        · exact ⟨s.named _ _ v hv, hk⟩
        · obtain ⟨w, hw⟩ := Option.ne_none_iff_exists'.mp (hmem i hi).2
          exact ⟨(hmem i hi).1, by simp [s.within_succ _ i w hw]⟩

theorem value_of_within (n : Nat) (k : κ) (v : α) (h : s.within n k = some v) :
    s.value k = some v := by
  induction n with
  | zero => simp [within] at h
  | succ n ih =>
      cases hn : s.within n k with
      | some w =>
          have hw : w = v := Option.some.inj ((s.within_succ n k w hn).symm.trans h)
          exact ih (hw ▸ hn)
      | none =>
          obtain ⟨chain, hnodup, hlen, hmem⟩ := s.exists_chain n k hn (by simp [h])
          have hle : chain.length ≤ s.names.length :=
            (List.subperm_of_subset hnodup fun j hj => (hmem j hj).1).length_le
          exact s.within_mono (by omega) k v h

theorem value_iff (k : κ) (v : α) : s.value k = some v ↔ ∃ n, s.within n k = some v :=
  ⟨fun h => ⟨_, h⟩, fun ⟨n, h⟩ => s.value_of_within n k v h⟩

-- The values answer their own rules.
theorem value_eq (k : κ) : s.value k = s.rule k s.value := by
  cases h : s.rule k s.value with
  | some v => exact s.value_of_within (s.names.length + 1) k v h
  | none =>
      cases hv : s.value k with
      | none => rfl
      | some v =>
          have : s.rule k s.value = some v := s.within_succ _ k v hv
          rw [h] at this
          cases this

-- What a rule passes on from the names it asks for holds of every value.
theorem value_induction {P : κ → α → Prop}
    (step : ∀ k v f, (∀ j w, f j = some w → s.value j = some w ∧ P j w) →
      s.rule k f = some v → P k v) (k : κ) (v : α) (h : s.value k = some v) : P k v := by
  obtain ⟨n, hn⟩ := (s.value_iff k v).mp h
  clear h
  induction n generalizing k v with
  | zero => simp [within] at hn
  | succ n ih =>
      exact step k v _ (fun j w hw => ⟨s.value_of_within n j w hw, ih j w hw⟩) hn

-- Rules that keep their answers in a larger system keep the values.
theorem value_extends (t : System κ α)
    (hrule : ∀ k f v, s.rule k f = some v → t.rule k f = some v)
    (k : κ) (v : α) (h : s.value k = some v) : t.value k = some v := by
  refine s.value_induction (P := fun k v => t.value k = some v) ?_ k v h
  intro k v f hf hk
  rw [t.value_eq]
  exact t.monotone k f _ (fun j w hw => (hf j w hw).2) v (hrule k f v hk)

end System

end Naming
