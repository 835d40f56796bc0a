import BeeRpc.Measure
import BeeRpc.Reader
import Mathlib.Logic.Relation

namespace BeeRpc

open Wire

namespace Directory

-- The block is one of the entries of `_.json`.
def Mentions (directory : Directory) (id : BlockId) : Prop :=
  ∃ positions, JsonEntry.block id positions ∈ directory.json

-- Every part file that `_.json` numbers is there.
def HasParts (directory : Directory) : Prop :=
  ∀ index, JsonEntry.part index ∈ directory.json → ∃ content, directory.part index = some content

end Directory

namespace Registry

variable (registry : Registry)

def Refers (above below : BlockId) : Prop :=
  ∃ directory, registry.lookup above = some (.dir directory) ∧ directory.Mentions below

def Reaches : BlockId → BlockId → Prop := Relation.ReflTransGen registry.Refers

-- Reachable from itself.
def Inside (id : BlockId) : Prop := Relation.TransGen registry.Refers id id

def Present (id : BlockId) : Prop :=
  ∃ stored, registry.lookup id = some stored ∧
    ∀ directory, stored = .dir directory → directory.HasParts

-- All that is reachable is there, and none of it is inside itself.
def Whole (id : BlockId) : Prop :=
  ∀ other, registry.Reaches id other → registry.Present other ∧ ¬ registry.Inside other

variable {registry}

theorem Reaches.trans_refers {id above below : BlockId} (hreaches : registry.Reaches id above)
    (hrefers : registry.Refers above below) : registry.Reaches id below :=
  Relation.ReflTransGen.tail hreaches hrefers

theorem Whole.of_refers {above below : BlockId} (hwhole : registry.Whole above)
    (hrefers : registry.Refers above below) : registry.Whole below :=
  fun other hreaches => hwhole other (Relation.ReflTransGen.head hrefers hreaches)

end Registry

namespace Directory

theorem expandEntries_parts {directory : Directory} {sub : BlockId → Option Bytes}
    {entries : List JsonEntry} {content : Bytes}
    (h : directory.expandEntries sub entries = some content) :
    (∀ index, JsonEntry.part index ∈ entries → ∃ part, directory.part index = some part) ∧
      ∀ id positions, JsonEntry.block id positions ∈ entries → ∃ inner, sub id = some inner := by
  induction entries generalizing content with
  | nil => exact ⟨fun _ h => by simp at h, fun _ _ h => by simp at h⟩
  | cons entry rest ih =>
      cases entry with
      | part index =>
          obtain ⟨head, more, hhead, hmore, -⟩ := expandEntries_part_eq_some.mp h
          obtain ⟨hparts, hblocks⟩ := ih hmore
          refine ⟨fun other hmem => ?_, fun id positions hmem => ?_⟩
          · rcases List.mem_cons.mp hmem with heq | hmem
            · obtain rfl := JsonEntry.part.inj heq
              exact ⟨head, hhead⟩
            · exact hparts other hmem
          · exact hblocks id positions (by simpa using hmem)
      | block id positions =>
          obtain ⟨head, more, hhead, hmore, -⟩ := expandEntries_block_eq_some.mp h
          obtain ⟨hparts, hblocks⟩ := ih hmore
          refine ⟨fun other hmem => hparts other (by simpa using hmem), fun other chain hmem => ?_⟩
          rcases List.mem_cons.mp hmem with heq | hmem
          · obtain ⟨rfl, -⟩ := JsonEntry.block.inj heq
            exact ⟨head, hhead⟩
          · exact hblocks other chain hmem

end Directory

namespace Registry

variable {registry : Registry}

-- What a block refers to has its value a round earlier.
theorem within_of_refers {n : Nat} {above below : BlockId} {content : Bytes}
    (hwithin : registry.contents.within (n + 1) above = some content)
    (hrefers : registry.Refers above below) :
    ∃ inner, registry.contents.within n below = some inner := by
  obtain ⟨directory, hlookup, positions, hmem⟩ := hrefers
  rw [within_dir hlookup] at hwithin
  exact (Directory.expandEntries_parts hwithin).2 below positions hmem

theorem within_of_inside {above below : BlockId}
    (hbelow : Relation.TransGen registry.Refers above below) :
    ∀ {n content}, registry.contents.within n above = some content →
      ∃ m inner, m < n ∧ registry.contents.within m below = some inner := by
  have hstep : ∀ {id other : BlockId}, registry.Refers id other → ∀ {n content},
      registry.contents.within n id = some content →
        ∃ m inner, m < n ∧ registry.contents.within m other = some inner := by
    intro id other hrefers n content hwithin
    cases n with
    | zero => cases hwithin
    | succ n =>
        obtain ⟨inner, hinner⟩ := within_of_refers hwithin hrefers
        exact ⟨n, inner, Nat.lt_succ_self n, hinner⟩
  induction hbelow with
  | single hrefers => exact fun h => hstep hrefers h
  | tail _ hrefers ih =>
      intro n content hwithin
      obtain ⟨m, inner, hm, hmid⟩ := ih hwithin
      obtain ⟨k, last, hk, hlast⟩ := hstep hrefers hmid
      exact ⟨k, last, by omega, hlast⟩

-- What has a value is not inside itself: it would have it ever earlier.
theorem not_inside_of_within {id : BlockId} (n : Nat) :
    ∀ content, registry.contents.within n id = some content → ¬ registry.Inside id := by
  induction n using Nat.strongRecOn with
  | ind n ih =>
      intro content hwithin hinside
      obtain ⟨m, inner, hm, hearlier⟩ := within_of_inside hinside hwithin
      exact ih m hm inner hearlier hinside

theorem present_of_expansion {id : BlockId} {content : Bytes}
    (hexpansion : registry.expansion id = some content) : registry.Present id := by
  obtain ⟨stored, hlookup⟩ := exists_lookup_of_expansion hexpansion
  refine ⟨stored, hlookup, ?_⟩
  rintro directory rfl index hmem
  rw [expansion_dir hlookup] at hexpansion
  exact (Directory.expandEntries_parts hexpansion).1 index hmem

theorem expansion_of_reaches {id other : BlockId} (hreaches : registry.Reaches id other)
    (hexpansion : ∃ content, registry.expansion id = some content) :
    ∃ content, registry.expansion other = some content := by
  induction hreaches with
  | refl => exact hexpansion
  | tail _ hrefers ih =>
      obtain ⟨directory, hlookup, positions, hmem⟩ := hrefers
      obtain ⟨content, hcontent⟩ := ih
      rw [expansion_dir hlookup] at hcontent
      exact (Directory.expandEntries_parts hcontent).2 _ positions hmem

theorem whole_of_expansion {id : BlockId} {content : Bytes}
    (hexpansion : registry.expansion id = some content) : registry.Whole id := by
  intro other hreaches
  obtain ⟨inner, hinner⟩ := expansion_of_reaches hreaches ⟨content, hexpansion⟩
  exact ⟨present_of_expansion hinner, not_inside_of_within _ inner (within_length hinner)⟩

end Registry

section

variable {registry : Registry}

theorem sizeOfEntries_error {directory : Directory} {blockLength : BlockId → Except Err Nat}
    {entries : List JsonEntry} {e : Err}
    (h : sizeOfEntries directory blockLength entries = .error e) :
    (∃ index, JsonEntry.part index ∈ entries ∧ directory.part index = none ∧ e = .fileNotFound) ∨
      ∃ id positions, JsonEntry.block id positions ∈ entries ∧ blockLength id = .error e := by
  induction entries with
  | nil => cases h
  | cons entry rest ih =>
      have hlater : sizeOfEntries directory blockLength rest = .error e →
          (∃ index, JsonEntry.part index ∈ entry :: rest ∧ directory.part index = none ∧
            e = .fileNotFound) ∨
          ∃ id positions, JsonEntry.block id positions ∈ entry :: rest ∧
            blockLength id = .error e := by
        intro hrest
        rcases ih hrest with ⟨index, hmem, hpart⟩ | ⟨id, positions, hmem, hlength⟩
        · exact Or.inl ⟨index, List.mem_cons_of_mem _ hmem, hpart⟩
        · exact Or.inr ⟨id, positions, List.mem_cons_of_mem _ hmem, hlength⟩
      cases entry with
      | part index =>
          cases hpart : directory.part index with
          | none =>
              simp only [sizeOfEntries, hpart, Except.error.injEq] at h
              exact Or.inl ⟨index, List.mem_cons_self .., hpart, h.symm⟩
          | some content =>
              apply hlater
              simp only [sizeOfEntries, hpart] at h
              cases hrest : sizeOfEntries directory blockLength rest with
              | ok n => rw [hrest] at h; cases h
              | error e' => rw [hrest] at h; exact h
      | block id positions =>
          simp only [sizeOfEntries] at h
          cases hlength : blockLength id with
          | error e' =>
              rw [hlength] at h
              obtain rfl := Except.error.inj h
              exact Or.inr ⟨id, positions, List.mem_cons_self .., hlength⟩
          | ok n =>
              apply hlater
              rw [hlength, ok_bind] at h
              cases hrest : sizeOfEntries directory blockLength rest with
              | ok m => rw [hrest] at h; cases h
              | error e' => rw [hrest] at h; exact h

-- A measure that raises has come to something that is not there or is inside itself,
-- unless its fuel is out.
theorem expandedLengthLoop_error (fuel : Nat) :
    ∀ seen id e, expandedLengthLoop registry fuel seen id = .error e →
      (∀ other ∈ seen, Relation.TransGen registry.Refers other id) →
      e = .recursionLimit ∨ ¬ registry.Whole id := by
  have hloop : ∀ (seen : List BlockId) id, id ∈ seen →
      (∀ other ∈ seen, Relation.TransGen registry.Refers other id) → ¬ registry.Whole id :=
    fun seen id hmem hstack hwhole => (hwhole id .refl).2 (hstack id hmem)
  have hmissing : ∀ id, registry.lookup id = none → ¬ registry.Whole id := by
    intro id hlookup hwhole
    obtain ⟨stored, hstored, -⟩ := (hwhole id .refl).1
    rw [hlookup] at hstored
    cases hstored
  induction fuel with
  | zero =>
      intro seen id e h hstack
      unfold expandedLengthLoop at h
      by_cases hmem : id ∈ seen
      · exact Or.inr (hloop seen id hmem hstack)
      · rw [if_neg hmem] at h
        cases hlookup : registry.lookup id with
        | none => exact Or.inr (hmissing id hlookup)
        | some stored =>
            cases stored with
            | file content => simp only [hlookup, reduceCtorEq] at h
            | dir directory =>
                simp only [hlookup, Except.error.injEq] at h
                exact Or.inl h.symm
  | succ fuel ih =>
      intro seen id e h hstack
      unfold expandedLengthLoop at h
      by_cases hmem : id ∈ seen
      · exact Or.inr (hloop seen id hmem hstack)
      · rw [if_neg hmem] at h
        cases hlookup : registry.lookup id with
        | none => exact Or.inr (hmissing id hlookup)
        | some stored =>
            cases stored with
            | file content => simp only [hlookup, reduceCtorEq] at h
            | dir directory =>
                simp only [hlookup] at h
                rcases sizeOfEntries_error h with
                  ⟨index, hentry, hpart, -⟩ | ⟨sub, positions, hentry, hsub⟩
                · refine Or.inr fun hwhole => ?_
                  obtain ⟨stored, hstored, hparts⟩ := (hwhole id .refl).1
                  obtain rfl := Option.some.inj (hlookup.symm.trans hstored)
                  obtain ⟨content, hcontent⟩ := hparts directory rfl index hentry
                  rw [hpart] at hcontent
                  cases hcontent
                · have hrefers : registry.Refers id sub := ⟨directory, hlookup, positions, hentry⟩
                  refine (ih (id :: seen) sub e hsub ?_).imp_right fun hsub hwhole =>
                    hsub (hwhole.of_refers hrefers)
                  intro other hother
                  rcases List.mem_cons.mp hother with rfl | hother
                  · exact .single hrefers
                  · exact .tail (hstack other hother) hrefers

-- The stack holds names of the registry, each once: it is as long as the registry by the
-- time the fuel is out, and what is met next is on it.
theorem expandedLengthLoop_ne_recursionLimit (fuel : Nat) :
    ∀ seen id, seen.Nodup → (∀ other ∈ seen, other ∈ registry.map Prod.fst) →
      registry.length ≤ fuel + seen.length →
      expandedLengthLoop registry fuel seen id ≠ .error .recursionLimit := by
  induction fuel with
  | zero =>
      intro seen id hnodup hnames hfuel h
      unfold expandedLengthLoop at h
      by_cases hmem : id ∈ seen
      · rw [if_pos hmem] at h
        cases h
      · rw [if_neg hmem] at h
        cases hlookup : registry.lookup id with
        | none => rw [hlookup] at h; cases h
        | some stored =>
            have hname := Registry.mem_names_of_lookup hlookup
            have hlonger : (id :: seen).length ≤ (registry.map Prod.fst).length := by
              refine (List.subperm_of_subset (List.nodup_cons.mpr ⟨hmem, hnodup⟩) ?_).length_le
              intro other hother
              rcases List.mem_cons.mp hother with rfl | hother
              · exact hname
              · exact hnames other hother
            rw [List.length_cons, List.length_map] at hlonger
            omega
  | succ fuel ih =>
      intro seen id hnodup hnames hfuel h
      unfold expandedLengthLoop at h
      by_cases hmem : id ∈ seen
      · rw [if_pos hmem] at h
        cases h
      · rw [if_neg hmem] at h
        cases hlookup : registry.lookup id with
        | none => rw [hlookup] at h; cases h
        | some stored =>
            cases stored with
            | file content => simp only [hlookup, reduceCtorEq] at h
            | dir directory =>
                simp only [hlookup] at h
                rcases sizeOfEntries_error h with ⟨index, -, -, he⟩ | ⟨sub, positions, -, hsub⟩
                · cases he
                · refine ih (id :: seen) sub (List.nodup_cons.mpr ⟨hmem, hnodup⟩) ?_ ?_ hsub
                  · intro other hother
                    rcases List.mem_cons.mp hother with rfl | hother
                    · exact Registry.mem_names_of_lookup hlookup
                    · exact hnames other hother
                  · rw [List.length_cons]
                    omega

theorem getExpandedBlockLength_ne_recursionLimit (registry : Registry) (id : BlockId) :
    getExpandedBlockLength registry id ≠ .error .recursionLimit :=
  expandedLengthLoop_ne_recursionLimit _ [] id List.nodup_nil (by simp) (by simp)

theorem getExpandedBlockLength_iff_whole {id : BlockId} :
    (∃ n, getExpandedBlockLength registry id = .ok n) ↔ registry.Whole id := by
  constructor
  · rintro ⟨n, hn⟩
    obtain ⟨content, hcontent⟩ := expansion_of_getExpandedBlockLength hn
    exact Registry.whole_of_expansion hcontent
  · intro hwhole
    cases h : getExpandedBlockLength registry id with
    | ok n => exact ⟨n, rfl⟩
    | error e =>
        rcases expandedLengthLoop_error _ [] id e h (by simp) with rfl | hnot
        · exact absurd h (getExpandedBlockLength_ne_recursionLimit registry id)
        · exact absurd hwhole hnot

-- A block has an expansion exactly where all it reaches is there and nothing is inside itself.
theorem Registry.expansion_iff_whole {id : BlockId} :
    (∃ content, registry.expansion id = some content) ↔ registry.Whole id := by
  constructor
  · rintro ⟨content, hcontent⟩
    exact Registry.whole_of_expansion hcontent
  · intro hwhole
    obtain ⟨n, hn⟩ := getExpandedBlockLength_iff_whole.mpr hwhole
    exact expansion_of_getExpandedBlockLength hn

-- A measure always ends; it is a number exactly where all that the block reaches is there
-- and none of it inside itself, and then it is the number of bytes that a reader gives.
theorem getExpandedBlockLength_measures (env : Enviroment) (registry : Registry) (id : BlockId) :
    getExpandedBlockLength registry id ≠ .error .recursionLimit ∧
    ((∃ n, getExpandedBlockLength registry id = .ok n) ↔
      ∀ other, registry.Reaches id other →
        registry.Present other ∧ ¬ Relation.TransGen registry.Refers other other) ∧
    ∀ n, getExpandedBlockLength registry id = .ok n →
      (∀ other content, registry.Reaches id other →
        registry.lookup other = some (.file content) → env.hashFactory content = other) →
      ∃ pieces : List Bytes,
        readBlock env registry id true = .pure (pieces.map .inl) ∧ pieces.flatten.length = n := by
  refine ⟨getExpandedBlockLength_ne_recursionLimit registry id, getExpandedBlockLength_iff_whole, ?_⟩
  intro n hn hfiles
  obtain ⟨content, hcontent⟩ := expansion_of_getExpandedBlockLength hn
  have hlength : content.length = n :=
    Except.ok.inj ((getExpandedBlockLength_of_expansion hcontent).symm.trans hn)
  obtain ⟨pieces, hpieces, hflatten⟩ := readBlockLoop_flat_of (registry.Reaches id) hfiles
    (fun above directory sub positions habove hlookup hmem =>
      habove.trans_refers ⟨directory, hlookup, positions, hmem⟩)
    registry.length (registry.length + 1) 1 id content (Nat.le_succ _) .refl
    (Registry.within_length hcontent)
  exact ⟨pieces, hpieces, by rw [hflatten, hlength]⟩

end

end BeeRpc
