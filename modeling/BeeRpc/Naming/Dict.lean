import Mathlib.Data.List.Basic
import Mathlib.Data.List.Nodup
import Mathlib.Data.List.Sort
import Mathlib.Algebra.BigOperators.Group.List.Basic

namespace Naming

-- A dictionary that remembers the order in which its keys came.
abbrev Dict (κ α : Type) := List (κ × α)

namespace Dict

variable {κ α : Type} [DecidableEq κ]

def set (k : κ) (v : α) : Dict κ α → Dict κ α
  | [] => [(k, v)]
  | (j, w) :: rest => if j = k then (j, v) :: rest else (j, w) :: set k v rest

def update (d : Dict κ α) (entries : List (κ × α)) : Dict κ α :=
  entries.foldl (fun d entry => set entry.1 entry.2 d) d

def ofList (entries : List (κ × α)) : Dict κ α := update [] entries

-- A dictionary of lists, one value more under a key.
def append (k : κ) (v : α) : Dict κ (List α) → Dict κ (List α)
  | [] => [(k, [v])]
  | (j, vs) :: rest => if j = k then (j, vs ++ [v]) :: rest else (j, vs) :: append k v rest

def group (entries : List (κ × α)) : Dict κ (List α) :=
  entries.foldl (fun d entry => append entry.1 entry.2 d) []

-- `sorted` by the key, and with `reverse=True`.
def ascending (d : Dict Nat α) : Dict Nat α := d.insertionSort fun a b => a.1 ≤ b.1

def descending (d : Dict Nat α) : Dict Nat α := d.insertionSort fun a b => b.1 ≤ a.1

def ungroup (d : Dict κ (List α)) : List (κ × α) :=
  d.flatMap fun entry => entry.2.map fun v => (entry.1, v)

attribute [local simp] set append

theorem set_of_notMem (k : κ) (v : α) (d : Dict κ α) (h : k ∉ d.map Prod.fst) :
    set k v d = d ++ [(k, v)] := by
  induction d with
  | nil => rfl
  | cons entry rest ih =>
      simp only [List.map_cons, List.mem_cons, not_or] at h
      simp only [set, if_neg (Ne.symm h.1), ih h.2, List.cons_append]

-- Entries under keys of their own are added one after another.
theorem update_of_nodup (d : Dict κ α) (entries : List (κ × α))
    (h : ((d ++ entries).map Prod.fst).Nodup) : update d entries = d ++ entries := by
  induction entries generalizing d with
  | nil => simp [update]
  | cons entry rest ih =>
      have hkey : entry.1 ∉ d.map Prod.fst := by
        rw [List.map_append, List.map_cons] at h
        exact fun hm => (List.nodup_append.mp h).2.2 _ hm _ (by simp) rfl
      have hset : set entry.1 entry.2 d = d ++ [entry] := set_of_notMem _ _ _ hkey
      have hrest := ih (d ++ [entry]) (by simpa using h)
      simpa [update, hset] using hrest

theorem ofList_of_nodup (entries : List (κ × α)) (h : (entries.map Prod.fst).Nodup) :
    ofList entries = entries := by
  simpa [ofList] using update_of_nodup [] entries (by simpa using h)

theorem lookup_of_nodup (d : Dict κ α) (h : (d.map Prod.fst).Nodup) (k : κ) (v : α)
    (hm : (k, v) ∈ d) : d.lookup k = some v := by
  induction d with
  | nil => cases hm
  | cons entry rest ih =>
      simp only [List.map_cons, List.nodup_cons] at h
      rcases List.mem_cons.mp hm with rfl | hm
      · simp
      · have hne : k ≠ entry.1 := fun he => h.1 (he ▸ List.mem_map_of_mem hm)
        rw [List.lookup_cons, beq_false_of_ne hne]
        exact ih h.2 hm

theorem lookup_eq_none (d : Dict κ α) (k : κ) (h : k ∉ d.map Prod.fst) :
    d.lookup k = none := by
  induction d with
  | nil => rfl
  | cons entry rest ih =>
      simp only [List.map_cons, List.mem_cons, not_or] at h
      rw [List.lookup_cons, beq_false_of_ne h.1]
      exact ih h.2

theorem lookup_set [BEq κ] [LawfulBEq κ] (k j : κ) (v : α) (d : Dict κ α) :
    (set k v d).lookup j = if j = k then some v else d.lookup j := by
  induction d with
  | nil =>
      by_cases hj : j = k
      · simp [hj]
      · simp [List.lookup_cons, beq_false_of_ne hj, hj]
  | cons entry rest ih =>
      obtain ⟨i, w⟩ := entry
      by_cases hi : i = k
      · subst hi
        by_cases hj : j = i
        · simp [hj]
        · simp [List.lookup_cons, beq_false_of_ne hj, hj]
      · by_cases hj : j = i
        · subst hj
          simp [hi]
        · simp [hi, List.lookup_cons, beq_false_of_ne hj, ih]

theorem set_ne_nil (k : κ) (v : α) (d : Dict κ α) : set k v d ≠ [] := by
  cases d with
  | nil => simp
  | cons entry rest => by_cases hk : entry.1 = k <;> simp [hk]

theorem keys_set (k : κ) (v : α) (d : Dict κ α) :
    (set k v d).map Prod.fst = if k ∈ d.map Prod.fst then d.map Prod.fst else d.map Prod.fst ++ [k] := by
  induction d with
  | nil => simp
  | cons entry rest ih =>
      by_cases hk : entry.1 = k
      · simp [hk]
      · simp only [set, if_neg hk, List.map_cons, ih, List.mem_cons, Ne.symm hk, false_or,
          List.cons_append]
        split <;> rfl

theorem nodup_set {k : κ} {v : α} {d : Dict κ α} (h : (d.map Prod.fst).Nodup) :
    ((set k v d).map Prod.fst).Nodup := by
  rw [keys_set]
  split
  · exact h
  · rename_i hk
    exact List.nodup_append.mpr ⟨h, List.nodup_singleton k, by
      rintro j hj i hi rfl
      exact hk (List.mem_singleton.mp hi ▸ hj)⟩

theorem mem_keys_set (k j : κ) (v : α) (d : Dict κ α) :
    j ∈ (set k v d).map Prod.fst ↔ j = k ∨ j ∈ d.map Prod.fst := by
  rw [keys_set]
  split
  · rename_i hk
    exact ⟨Or.inr, fun h => h.elim (fun hj => hj ▸ hk) id⟩
  · rw [List.mem_append, List.mem_singleton, or_comm]

theorem mem_keys_update (j : κ) (d : Dict κ α) (entries : List (κ × α)) :
    j ∈ (update d entries).map Prod.fst ↔ j ∈ d.map Prod.fst ∨ j ∈ entries.map Prod.fst := by
  induction entries generalizing d with
  | nil => simp [update]
  | cons entry rest ih =>
      refine (ih (set entry.1 entry.2 d)).trans ?_
      rw [mem_keys_set, List.map_cons, List.mem_cons]
      tauto

theorem nodup_update {d : Dict κ α} (h : (d.map Prod.fst).Nodup) (entries : List (κ × α)) :
    ((update d entries).map Prod.fst).Nodup := by
  induction entries generalizing d with
  | nil => exact h
  | cons entry rest ih => exact ih (nodup_set h)

section Sums

variable {M : Type} [AddCommMonoid M] (f : α → M)

-- The sum of the values under the keys that count.
def sumOf (counts : κ → Bool) (d : Dict κ α) : M :=
  ((d.filter fun entry => counts entry.1).map fun entry => f entry.2).sum

omit [DecidableEq κ] in
theorem sumOf_entry (counts : κ → Bool) (entry : κ × α) (rest : Dict κ α) :
    sumOf f counts (entry :: rest) =
      (if counts entry.1 then f entry.2 else 0) + sumOf f counts rest := by
  by_cases hk : counts entry.1 <;> simp [sumOf, hk]

omit [DecidableEq κ] in
theorem sumOf_congr {counts counts' : κ → Bool} {d : Dict κ α}
    (h : ∀ k ∈ d.map Prod.fst, counts k = counts' k) : sumOf f counts d = sumOf f counts' d := by
  rw [sumOf, sumOf, List.filter_congr fun entry he => h entry.1 (List.mem_map_of_mem he)]

theorem sumOf_set (counts : κ → Bool) (k : κ) (v : α) {d : Dict κ α} (h : (d.map Prod.fst).Nodup) :
    sumOf f counts (set k v d) =
      (if counts k then f v else 0) + sumOf f (fun j => counts j && decide (j ≠ k)) d := by
  induction d with
  | nil => rw [set, sumOf_entry]; rfl
  | cons entry rest ih =>
      obtain ⟨j, w⟩ := entry
      rw [List.map_cons, List.nodup_cons] at h
      by_cases hj : j = k
      · subst hj
        have hrest : sumOf f (fun i => counts i && decide (i ≠ j)) rest = sumOf f counts rest := by
          refine sumOf_congr f fun i hi => ?_
          have hne : i ≠ j := fun heq => h.1 (heq ▸ hi)
          rw [decide_eq_true hne, Bool.and_true]
        rw [set, if_pos rfl, sumOf_entry, sumOf_entry, hrest, decide_eq_false (not_not.mpr rfl),
          Bool.and_false, if_neg Bool.false_ne_true, zero_add]
      · rw [set, if_neg hj, sumOf_entry, sumOf_entry, ih h.2, decide_eq_true hj, Bool.and_true,
          add_left_comm]

-- Of the entries under one key the last counts.
theorem sumOf_update {d : Dict κ α} (h : (d.map Prod.fst).Nodup) (entries : List (κ × α)) :
    sumOf f (fun _ => true) (update d entries) =
      sumOf f (fun j => decide (j ∉ entries.map Prod.fst)) d +
        sumOf f (fun _ => true) (ofList entries) := by
  induction entries generalizing d with
  | nil =>
      rw [show ofList ([] : List (κ × α)) = [] from rfl]
      simp [update, sumOf]
  | cons entry rest ih =>
      have hhead : ofList (entry :: rest) = update [entry] rest := rfl
      have hstep : update d (entry :: rest) = update (set entry.1 entry.2 d) rest := rfl
      have hcounts : (fun j => decide (j ∉ rest.map Prod.fst) && decide (j ≠ entry.1)) =
          fun j => decide (j ∉ (entry :: rest).map Prod.fst) := by
        funext j
        rw [List.map_cons, ← Bool.decide_and, decide_eq_decide, List.mem_cons, not_or, and_comm]
      have hone : (([entry] : Dict κ α).map Prod.fst).Nodup := List.nodup_singleton _
      rw [hstep, hhead, ih (nodup_set h), ih hone, sumOf_set f _ _ _ h, hcounts, sumOf_entry, show sumOf f _ ([] : Dict κ α) = 0 from rfl, add_zero, add_left_comm, add_assoc]

theorem sumOf_cons (entry : κ × α) (entries : List (κ × α)) :
    sumOf f (fun _ => true) (ofList (entry :: entries)) =
      (if entry.1 ∈ entries.map Prod.fst then 0 else f entry.2) +
        sumOf f (fun _ => true) (ofList entries) := by
  have hone : (([entry] : Dict κ α).map Prod.fst).Nodup := List.nodup_singleton _
  have hhead : ofList (entry :: entries) = update [entry] entries := rfl
  rw [hhead, sumOf_update f hone, sumOf_entry, show sumOf f _ ([] : Dict κ α) = 0 from rfl, add_zero]
  by_cases hk : entry.1 ∈ entries.map Prod.fst <;> simp only [hk, not_true_eq_false,
    not_false_eq_true, decide_true, decide_false, if_true, if_false, Bool.false_eq_true]

omit [DecidableEq κ] in
theorem sumOf_all (d : Dict κ α) :
    sumOf f (fun _ => true) d = (d.map fun entry => f entry.2).sum := by
  rw [sumOf, List.filter_eq_self.mpr fun _ _ => rfl]

-- Entries that count nothing.
theorem sumOf_append (front entries : List (κ × α)) (h : ∀ entry ∈ front, f entry.2 = 0) :
    sumOf f (fun _ => true) (ofList (front ++ entries)) = sumOf f (fun _ => true) (ofList entries) := by
  induction front with
  | nil => rfl
  | cons entry front ih =>
      rw [List.forall_mem_cons] at h
      rw [List.cons_append, sumOf_cons, h.1, ite_self, zero_add, ih h.2]

end Sums

theorem lookup_update (k : κ) (d : Dict κ α) (entries : List (κ × α)) :
    (∀ v, (update d entries).lookup k = some v → (k, v) ∈ entries ∨ d.lookup k = some v) ∧
      ((update d entries).lookup k = none → k ∉ entries.map Prod.fst ∧ d.lookup k = none) := by
  induction entries generalizing d with
  | nil => exact ⟨fun v h => Or.inr h, fun h => ⟨List.not_mem_nil, h⟩⟩
  | cons entry rest ih =>
      obtain ⟨hsome, hnone⟩ := ih (set entry.1 entry.2 d)
      rw [lookup_set] at hsome hnone
      constructor
      · intro v h
        rcases hsome v h with h | h
        · exact Or.inl (List.mem_cons_of_mem _ h)
        · split at h
          · rename_i hk
            obtain rfl := Option.some.inj h
            exact Or.inl (hk ▸ List.mem_cons_self ..)
          · exact Or.inr h
      · intro h
        obtain ⟨hrest, hd⟩ := hnone h
        split at hd
        · cases hd
        · rename_i hk
          exact ⟨fun hm => (List.mem_cons.mp hm).elim hk hrest, hd⟩

theorem mem_of_lookup_ofList {k : κ} {v : α} {entries : List (κ × α)}
    (h : (ofList entries).lookup k = some v) : (k, v) ∈ entries :=
  ((lookup_update k [] entries).1 v h).resolve_right (by simp)

theorem exists_lookup_ofList {k : κ} {v : α} {entries : List (κ × α)} (h : (k, v) ∈ entries) :
    ∃ u, (ofList entries).lookup k = some u := by
  cases hlookup : (ofList entries).lookup k with
  | none => exact absurd (List.mem_map_of_mem h) ((lookup_update k [] entries).2 hlookup).1
  | some u => exact ⟨u, rfl⟩

theorem ungroup_append (k : κ) (v : α) (d : Dict κ (List α)) :
    (ungroup (append k v d)).Perm (ungroup d ++ [(k, v)]) := by
  induction d with
  | nil => simp [ungroup]
  | cons entry rest ih =>
      obtain ⟨j, vs⟩ := entry
      by_cases hj : j = k
      · subst hj
        simp only [append, if_true, ungroup, List.flatMap_cons, List.map_append, List.map_cons,
          List.map_nil, List.append_assoc]
        exact List.Perm.append_left _ List.perm_append_comm
      · simp only [append, if_neg hj, ungroup, List.flatMap_cons, List.append_assoc] at ih ⊢
        exact List.Perm.append_left _ ih

-- Grouping loses nothing and adds nothing.
theorem ungroup_group (entries : List (κ × α)) : (ungroup (group entries)).Perm entries := by
  have hstep : ∀ (d : Dict κ (List α)) (entries : List (κ × α)),
      (ungroup (entries.foldl (fun d entry => append entry.1 entry.2 d) d)).Perm
        (ungroup d ++ entries) := by
    intro d entries
    induction entries generalizing d with
    | nil => simp
    | cons entry rest ih =>
        refine (ih _).trans ?_
        refine ((ungroup_append entry.1 entry.2 d).append_right rest).trans ?_
        simp
  simpa [group, ungroup] using hstep [] entries

theorem mem_keys_append (k j : κ) (v : α) (d : Dict κ (List α)) :
    j ∈ (append k v d).map Prod.fst ↔ j = k ∨ j ∈ d.map Prod.fst := by
  induction d with
  | nil => simp
  | cons entry rest ih =>
      obtain ⟨i, vs⟩ := entry
      by_cases hi : i = k
      · subst hi
        simp
      · simp only [append, if_neg hi, List.map_cons, List.mem_cons, ih]
        tauto

theorem mem_keys_group (entries : List (κ × α)) (j : κ) :
    j ∈ (group entries).map Prod.fst ↔ j ∈ entries.map Prod.fst := by
  have hstep : ∀ (d : Dict κ (List α)) (entries : List (κ × α)),
      j ∈ (entries.foldl (fun d entry => append entry.1 entry.2 d) d).map Prod.fst ↔
        j ∈ d.map Prod.fst ∨ j ∈ entries.map Prod.fst := by
    intro d entries
    induction entries generalizing d with
    | nil => simp
    | cons entry rest ih =>
        simp only [List.foldl_cons, ih, mem_keys_append, List.map_cons, List.mem_cons]
        tauto
  simpa [group] using hstep [] entries

-- What the entries hold under a key, in order.
def values (k : κ) (entries : List (κ × α)) : List α :=
  (entries.filter fun entry => entry.1 = k).map Prod.snd

theorem lookup_append (k j : κ) (v : α) (d : Dict κ (List α)) :
    (append k v d).lookup j = if j = k then some ((d.lookup k).getD [] ++ [v]) else d.lookup j := by
  induction d with
  | nil =>
      by_cases hj : j = k
      · simp [hj]
      · simp [List.lookup_cons, beq_false_of_ne hj, hj]
  | cons entry rest ih =>
      obtain ⟨i, vs⟩ := entry
      by_cases hi : i = k
      · subst hi
        by_cases hj : j = i
        · simp [hj]
        · simp [List.lookup_cons, beq_false_of_ne hj, hj]
      · by_cases hj : j = i
        · subst hj
          simp [hi]
        · simp only [append, if_neg hi, List.lookup_cons, beq_false_of_ne hj, ih,
            beq_false_of_ne (Ne.symm hi)]

theorem getD_lookup_group (k : κ) (entries : List (κ × α)) :
    ((group entries).lookup k).getD [] = values k entries := by
  have hstep : ∀ (d : Dict κ (List α)) (entries : List (κ × α)),
      ((entries.foldl (fun d entry => append entry.1 entry.2 d) d).lookup k).getD [] =
        (d.lookup k).getD [] ++ values k entries := by
    intro d entries
    induction entries generalizing d with
    | nil => simp [values]
    | cons entry rest ih =>
        rw [List.foldl_cons, ih, lookup_append]
        by_cases hk : entry.1 = k
        · subst hk
          simp [values]
        · simp [values, Ne.symm hk, hk]
  simpa [group] using hstep [] entries

-- Entries whose keys come in one order are told apart by their groups.
theorem group_injective {entries entries' : List (κ × α)}
    (hkeys : entries.map Prod.fst = entries'.map Prod.fst)
    (h : group entries = group entries') : entries = entries' := by
  have hvalues : ∀ k, values k entries = values k entries' := by
    intro k
    rw [← getD_lookup_group, h, getD_lookup_group]
  clear h
  induction entries generalizing entries' with
  | nil => simpa using hkeys
  | cons entry rest ih =>
      cases entries' with
      | nil => simp at hkeys
      | cons entry' rest' =>
          obtain ⟨k, v⟩ := entry
          obtain ⟨k', v'⟩ := entry'
          simp only [List.map_cons, List.cons.injEq] at hkeys
          obtain ⟨rfl, hkeys⟩ := hkeys
          have hv := hvalues k
          simp only [values, List.filter_cons, decide_true, if_true, List.map_cons,
            List.cons.injEq] at hv
          obtain ⟨rfl, hk⟩ := hv
          have hrest : rest = rest' := by
            refine ih hkeys fun j => ?_
            by_cases hj : k = j
            · subst hj
              exact hk
            · have := hvalues j
              simpa [values, List.filter_cons, hj] using this
          rw [hrest]

section Sorting

variable {β : Type}

instance : Std.Total fun a b : Nat × β => a.1 ≤ b.1 := ⟨fun a b => Nat.le_total a.1 b.1⟩

instance : IsTrans (Nat × β) fun a b => a.1 ≤ b.1 := ⟨fun _ _ _ => Nat.le_trans⟩

instance : Std.Total fun a b : Nat × β => b.1 ≤ a.1 := ⟨fun a b => Nat.le_total b.1 a.1⟩

instance : IsTrans (Nat × β) fun a b => b.1 ≤ a.1 := ⟨fun _ _ _ h h' => Nat.le_trans h' h⟩

-- Keys that differ have one order.
theorem pairwise_lt_unique {l : List (Nat × β)} (hl : l.Pairwise fun a b => a.1 < b.1)
    {a b : Nat × β} (ha : a ∈ l) (hb : b ∈ l) (h : a.1 = b.1) : a = b := by
  by_contra hne
  have := List.Pairwise.forall_of_forall_of_flip (R := fun x y => x = y ∨ x.1 ≠ y.1)
    (fun x _ => Or.inl rfl) (hl.imp fun h => Or.inr (Nat.ne_of_lt h))
    (hl.imp fun h => Or.inr (Nat.ne_of_gt h)) ha hb
  rcases this with h' | h'
  · exact hne h'
  · exact h' h

theorem ascending_eq {d l : Dict Nat β} (hp : d.Perm l) (hl : l.Pairwise fun a b => a.1 < b.1) :
    ascending d = l := by
  refine List.Perm.eq_of_pairwise ?_ (List.pairwise_insertionSort _ d)
    (hl.imp fun h => Nat.le_of_lt h) ((List.perm_insertionSort _ d).trans hp)
  intro a b ha hb hab hba
  have ha : a ∈ l := hp.mem_iff.mp ((List.perm_insertionSort _ d).mem_iff.mp ha)
  exact pairwise_lt_unique hl ha hb (Nat.le_antisymm hab hba)

theorem descending_eq {d l : Dict Nat β} (hp : d.Perm l) (hl : l.Pairwise fun a b => a.1 < b.1) :
    descending d = l.reverse := by
  refine List.Perm.eq_of_pairwise ?_ (List.pairwise_insertionSort _ d)
    (List.pairwise_reverse.mpr (hl.imp fun h => Nat.le_of_lt h))
    ((List.perm_insertionSort _ d).trans (hp.trans l.reverse_perm.symm))
  intro a b ha hb hab hba
  have ha : a ∈ l := hp.mem_iff.mp ((List.perm_insertionSort _ d).mem_iff.mp ha)
  exact pairwise_lt_unique hl ha (List.mem_reverse.mp hb) (Nat.le_antisymm hba hab)

end Sorting

end Dict

end Naming
