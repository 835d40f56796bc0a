import BeeRpc.Walk
import Mathlib.Data.Set.Function

namespace BeeRpc

open Wire Naming

namespace Registry

-- The contents that a split has to do with: those of the registry, and what lies in the block.
def involved (registry : Registry) (content : Bytes) : Set Bytes :=
  { bytes | (∃ id, registry.expansion id = some bytes) ∨ bytes <:+: content }

theorem lookup_remove_ne (registry : Registry) {id other : BlockId} (h : other ≠ id) :
    (registry.remove id).lookup other = registry.lookup other := by
  induction registry with
  | nil => rfl
  | cons entry registry ih =>
      unfold remove at ih ⊢
      rw [List.filter_cons]
      by_cases hid : entry.1 = id
      · rw [if_neg (by simpa using hid), ih, List.lookup_cons]
        have hne : (other == entry.1) = false := by
          rw [hid]
          exact beq_false_of_ne h
        rw [hne]
      · rw [if_pos (by simpa using hid), List.lookup_cons, List.lookup_cons, ih]

theorem lookup_remove_self (registry : Registry) (id : BlockId) :
    (registry.remove id).lookup id = none := by
  rw [List.lookup_eq_none_iff]
  intro entry hentry
  have hne := (List.mem_filter.mp hentry).2
  simp only [decide_eq_true_eq] at hne
  exact bne_iff_ne.mpr (Ne.symm hne)

end Registry

-- A directory expands as well where only what is no longer than it is known.
theorem expandEntries_short (directory : Directory) {sub more : BlockId → Option Bytes} {n : Nat}
    (h : ∀ id content, sub id = some content → content.length ≤ n → more id = some content)
    (entries : List JsonEntry) (content : Bytes) (hn : content.length ≤ n)
    (hs : directory.expandEntries sub entries = some content) :
    directory.expandEntries more entries = some content := by
  induction entries generalizing content with
  | nil => exact hs
  | cons entry rest ih =>
      cases entry with
      | part index =>
          obtain ⟨head, tail, hhead, htail, rfl⟩ := Directory.expandEntries_part_eq_some.mp hs
          rw [List.length_append] at hn
          exact Directory.expandEntries_part_eq_some.mpr
            ⟨head, tail, hhead, ih tail (by omega) htail, rfl⟩
      | block id positions =>
          obtain ⟨head, tail, hhead, htail, rfl⟩ := Directory.expandEntries_block_eq_some.mp hs
          rw [List.length_append] at hn
          exact Directory.expandEntries_block_eq_some.mpr
            ⟨head, tail, h id head hhead (by omega), ih tail (by omega) htail, rfl⟩

section Replace

variable {before after : Registry} {id : BlockId} {directory : Directory} {content : Bytes}

-- Another form of a block that is made of shorter ones: every block expands to what it did.
theorem expansion_replace (hcontent : before.expansion id = some content)
    (hother : ∀ other, other ≠ id → after.lookup other = before.lookup other)
    (hself : after.lookup id = some (.dir directory))
    (hform : ∀ sub : BlockId → Option Bytes,
      (∀ other bytes, before.expansion other = some bytes → bytes.length < content.length →
        sub other = some bytes) → directory.expandWith sub = some content)
    (other : BlockId) (bytes : Bytes) (h : before.expansion other = some bytes) :
    after.expansion other = some bytes := by
  have hrule : ∀ other sub, other ≠ id → after.expandRule other sub = before.expandRule other sub := by
    intro other sub hne
    rw [Registry.expandRule, Registry.expandRule, hother other hne]
  have hshort : ∀ other bytes, before.expansion other = some bytes →
      bytes.length < content.length → after.expansion other = some bytes := by
    intro other bytes h
    refine before.contents.value_induction
      (P := fun other bytes => bytes.length < content.length → after.expansion other = some bytes)
      ?_ other bytes h
    intro other bytes sub hsub hexpands hlt
    have hbytes : before.expansion other = some bytes := by
      rw [Registry.expansion_eq]
      exact before.contents.monotone other sub _ (fun j w hj => (hsub j w hj).1) bytes hexpands
    have hne : other ≠ id := by
      rintro rfl
      rw [hcontent] at hbytes
      obtain rfl := Option.some.inj hbytes
      exact Nat.lt_irrefl _ hlt
    rw [Registry.expansion_eq, hrule other _ hne]
    have hexpands : before.expandRule other sub = some bytes := hexpands
    unfold Registry.expandRule at hexpands ⊢
    split at hexpands
    · cases hexpands
    · exact hexpands
    · refine expandEntries_short _ (n := bytes.length) ?_ _ bytes (Nat.le_refl _) hexpands
      intro j w hj hw
      exact (hsub j w hj).2 (by omega)
  have hid : after.expansion id = some content := by
    rw [Registry.expansion_dir hself]
    exact hform _ hshort
  refine before.contents.value_induction
    (P := fun other bytes => after.expansion other = some bytes) ?_ other bytes h
  intro other bytes sub hsub hexpands
  by_cases hne : other = id
  · subst hne
    have hbytes : before.expansion other = some bytes := by
      rw [Registry.expansion_eq]
      exact before.contents.monotone other sub _ (fun j w hj => (hsub j w hj).1) bytes hexpands
    rw [hid, ← hcontent, hbytes]
  · rw [Registry.expansion_eq, hrule other _ hne]
    exact before.contents.monotone other sub _ (fun j w hj => (hsub j w hj).2) bytes hexpands

end Replace

section Keep

variable {env : Enviroment} {registry : Registry} {content : Bytes}

theorem keep_grows (registry : Registry) (bytes : Bytes) :
    registry.Grows (registry.keep env bytes) := by
  by_cases hexists : registry.blockExists (env.hashFactory bytes) = true
  · rw [keep_of_exists hexists]
    exact .refl registry
  · rw [keep_of_not_exists hexists]
    exact .store _ (Registry.blockExists_eq_false.mp (Bool.eq_false_of_not_eq_true hexists))

-- What is kept is there under its digest, and nothing else comes with it.
theorem keep_spec (haddressed : registry.ContentAddressed env)
    (hinjective : Set.InjOn env.hashFactory (registry.involved content)) {bytes : Bytes}
    (hbytes : bytes <:+: content) :
    (registry.keep env bytes).ContentAddressed env ∧
      (registry.keep env bytes).expansion (env.hashFactory bytes) = some bytes ∧
      (registry.keep env bytes).involved content ⊆ registry.involved content := by
  have hinvolved : bytes ∈ registry.involved content := Or.inr hbytes
  by_cases hexists : registry.blockExists (env.hashFactory bytes) = true
  · rw [keep_of_exists hexists]
    obtain ⟨stored, hstored⟩ := Registry.blockExists_eq_true.mp hexists
    obtain ⟨found, hfound, hname⟩ := haddressed _ stored hstored
    obtain rfl := hinjective (Or.inl ⟨_, hfound⟩) hinvolved hname
    exact ⟨haddressed, hfound, subset_rfl⟩
  · rw [keep_of_not_exists hexists]
    have hnew := Registry.blockExists_eq_false.mp (Bool.eq_false_of_not_eq_true hexists)
    have hexpansion : (registry.store (env.hashFactory bytes) (.file bytes)).expansion
        (env.hashFactory bytes) = some bytes :=
      Registry.expansion_file (Registry.lookup_store_self ..)
    refine ⟨haddressed.store hnew hexpansion rfl, hexpansion, ?_⟩
    rintro other (⟨id, hid⟩ | hother)
    · by_cases hself : id = env.hashFactory bytes
      · rw [hself, hexpansion] at hid
        obtain rfl := Option.some.inj hid
        exact hinvolved
      · obtain ⟨stored, hstored⟩ := Registry.exists_lookup_of_expansion hid
        rw [Registry.lookup_store_ne _ _ hself] at hstored
        obtain ⟨found, hfound, -⟩ := haddressed id stored hstored
        rw [(Registry.Grows.store _ hnew).expansion hfound] at hid
        obtain rfl := Option.some.inj hid
        exact Or.inl ⟨id, hfound⟩
    · exact Or.inr hother

theorem keepAll_grows (registry : Registry) (contents : List Bytes) :
    registry.Grows (registry.keepAll env contents) := by
  induction contents generalizing registry with
  | nil => exact .refl registry
  | cons bytes contents ih => exact (keep_grows registry bytes).trans (ih _)

theorem keepAll_spec (haddressed : registry.ContentAddressed env)
    (hinjective : Set.InjOn env.hashFactory (registry.involved content)) (contents : List Bytes)
    (hcontents : ∀ bytes ∈ contents, bytes <:+: content) :
    (registry.keepAll env contents).ContentAddressed env ∧
      ∀ bytes ∈ contents,
        (registry.keepAll env contents).expansion (env.hashFactory bytes) = some bytes := by
  induction contents generalizing registry with
  | nil => exact ⟨haddressed, fun _ h => by cases h⟩
  | cons first contents ih =>
      obtain ⟨hkept, hfirst, hsub⟩ :=
        keep_spec haddressed hinjective (hcontents first (List.mem_cons_self ..))
      obtain ⟨hall, hmore⟩ := ih hkept (hinjective.mono hsub)
        fun bytes hbytes => hcontents bytes (List.mem_cons_of_mem _ hbytes)
      refine ⟨hall, fun bytes hbytes => ?_⟩
      rcases List.mem_cons.mp hbytes with rfl | hbytes
      · exact (keepAll_grows _ contents).expansion hfirst
      · exact hmore bytes hbytes

end Keep

end BeeRpc
