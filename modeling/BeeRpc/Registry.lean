import BeeRpc.HashTypes
import BeeRpc.Naming.System

namespace BeeRpc

open Wire

-- An entry of `_.json`: the number of a part file, or a block with the positions of
-- the length varints around it.
inductive JsonEntry where
  | part (index : Nat)
  | block (id : BlockId) (positions : List Nat)
  deriving Repr, DecidableEq

-- A multiblock directory: its part files, its `_.json` and its `wbp.bin`.
structure Directory where
  parts : List (Nat × Bytes)
  json : List JsonEntry
  wbp : Option Bytes := none
  deriving Repr, DecidableEq

inductive Stored where
  | file (content : Bytes)
  | dir (directory : Directory)
  deriving Repr, DecidableEq

namespace Directory

def part (directory : Directory) (index : Nat) : Option Bytes := directory.parts.lookup index

-- The blocks of `_.json`, each with its positions, in order.
def blocks (directory : Directory) : List (BlockId × List Nat) :=
  directory.json.filterMap fun
    | .part _ => none
    | .block id positions => some (id, positions)

-- The parts and the blocks one after another, where all of them are there.
def expandEntries (directory : Directory) (sub : BlockId → Option Bytes) :
    List JsonEntry → Option Bytes
  | [] => some []
  | .part index :: rest => do
      let content ← directory.part index
      let more ← directory.expandEntries sub rest
      return content ++ more
  | .block id _ :: rest => do
      let content ← sub id
      let more ← directory.expandEntries sub rest
      return content ++ more

def expandWith (directory : Directory) (sub : BlockId → Option Bytes) : Option Bytes :=
  directory.expandEntries sub directory.json

theorem expandEntries_part_eq_some {directory : Directory} {sub : BlockId → Option Bytes}
    {index : Nat} {rest : List JsonEntry} {content : Bytes} :
    directory.expandEntries sub (.part index :: rest) = some content ↔
      ∃ head more, directory.part index = some head ∧
        directory.expandEntries sub rest = some more ∧ content = head ++ more := by
  simp only [expandEntries, Option.bind_eq_bind, Option.bind_eq_some_iff, Option.pure_def,
    Option.some.injEq]
  constructor
  · rintro ⟨head, hhead, more, hmore, rfl⟩
    exact ⟨head, more, hhead, hmore, rfl⟩
  · rintro ⟨head, more, hhead, hmore, rfl⟩
    exact ⟨head, hhead, more, hmore, rfl⟩

theorem expandEntries_block_eq_some {directory : Directory} {sub : BlockId → Option Bytes}
    {id : BlockId} {positions : List Nat} {rest : List JsonEntry} {content : Bytes} :
    directory.expandEntries sub (.block id positions :: rest) = some content ↔
      ∃ head more, sub id = some head ∧
        directory.expandEntries sub rest = some more ∧ content = head ++ more := by
  simp only [expandEntries, Option.bind_eq_bind, Option.bind_eq_some_iff, Option.pure_def,
    Option.some.injEq]
  constructor
  · rintro ⟨head, hhead, more, hmore, rfl⟩
    exact ⟨head, more, hhead, hmore, rfl⟩
  · rintro ⟨head, more, hhead, hmore, rfl⟩
    exact ⟨head, hhead, more, hmore, rfl⟩

theorem expandEntries_mono (directory : Directory) {sub more : BlockId → Option Bytes}
    (h : ∀ id content, sub id = some content → more id = some content)
    (entries : List JsonEntry) (content : Bytes)
    (hs : directory.expandEntries sub entries = some content) :
    directory.expandEntries more entries = some content := by
  induction entries generalizing content with
  | nil => exact hs
  | cons entry rest ih =>
      cases entry with
      | part index =>
          obtain ⟨head, tail, hhead, htail, rfl⟩ := expandEntries_part_eq_some.mp hs
          exact expandEntries_part_eq_some.mpr ⟨head, tail, hhead, ih tail htail, rfl⟩
      | block id positions =>
          obtain ⟨head, tail, hhead, htail, rfl⟩ := expandEntries_block_eq_some.mp hs
          exact expandEntries_block_eq_some.mpr ⟨head, tail, h id head hhead, ih tail htail, rfl⟩

end Directory

-- What is stored, as the bytes it stands for.
def Stored.expandWith (sub : BlockId → Option Bytes) : Stored → Option Bytes
  | .file content => some content
  | .dir directory => directory.expandWith sub

-- What stands under `Enviroment.block_dir`, by name.
abbrev Registry := List (BlockId × Stored)

-- The `_.json` of parts and blocks in turn, the parts numbered from `index` on.
def weave (index : Nat) : List (BlockId × List Nat) → List JsonEntry
  | [] => [.part index]
  | block :: blocks => .part index :: .block block.1 block.2 :: weave (index + 1) blocks

theorem weave_blocks (index : Nat) (chains : List (BlockId × List Nat)) (directory : Directory)
    (h : directory.json = weave index chains) : directory.blocks = chains := by
  rw [Directory.blocks, h]
  clear h
  induction chains generalizing index with
  | nil => rfl
  | cons chain chains ih =>
      simp only [weave, List.filterMap_cons]
      rw [ih]

namespace Registry

-- `os.replace` of a finished file or directory to its final name.
def store (registry : Registry) (id : BlockId) (stored : Stored) : Registry :=
  (id, stored) :: registry

-- reader.block_exists
def blockExists (registry : Registry) (id : BlockId) : Bool := (registry.lookup id).isSome

def expandRule (registry : Registry) (id : BlockId) (sub : BlockId → Option Bytes) :
    Option Bytes :=
  match registry.lookup id with
  | none => none
  | some (.file content) => some content
  | some (.dir directory) => directory.expandWith sub

theorem mem_names_of_lookup {registry : Registry} {id : BlockId} {stored : Stored}
    (h : registry.lookup id = some stored) : id ∈ registry.map Prod.fst := by
  obtain ⟨left, right, rfl, _⟩ := List.lookup_eq_some_iff.mp h
  simp

-- What a block name stands for: a file's bytes, a directory's parts and blocks.
def contents (registry : Registry) : Naming.System BlockId Bytes where
  names := registry.map Prod.fst
  rule := registry.expandRule
  named id sub content h := by
    simp only [expandRule] at h
    split at h
    · cases h
    · rename_i hl; exact mem_names_of_lookup hl
    · rename_i hl; exact mem_names_of_lookup hl
  monotone id sub more hsub content h := by
    simp only [expandRule] at h ⊢
    split at h
    · cases h
    · exact h
    · exact Directory.expandEntries_mono _ hsub _ content h

-- The expansion of a block, where all of it is present and no block is inside itself.
def expansion (registry : Registry) (id : BlockId) : Option Bytes := registry.contents.value id

-- Every entry is complete and named by the digest of what it expands to.
def ContentAddressed (env : Enviroment) (registry : Registry) : Prop :=
  ∀ id stored, registry.lookup id = some stored →
    ∃ content, registry.expansion id = some content ∧ env.hashFactory content = id

-- Nothing that was there is changed.
def Grows (before after : Registry) : Prop :=
  ∀ id stored, before.lookup id = some stored → after.lookup id = some stored

theorem expansion_eq (registry : Registry) (id : BlockId) :
    registry.expansion id = registry.expandRule id registry.expansion :=
  registry.contents.value_eq id

theorem expansion_file {registry : Registry} {id : BlockId} {content : Bytes}
    (h : registry.lookup id = some (.file content)) : registry.expansion id = some content := by
  rw [expansion_eq, expandRule, h]

theorem expansion_dir {registry : Registry} {id : BlockId} {directory : Directory}
    (h : registry.lookup id = some (.dir directory)) :
    registry.expansion id = directory.expandWith registry.expansion := by
  rw [expansion_eq, expandRule, h]

theorem within_file {registry : Registry} {id : BlockId} {content : Bytes}
    (h : registry.lookup id = some (.file content)) (n : Nat) :
    registry.contents.within (n + 1) id = some content := by
  simp only [Naming.System.within, contents, expandRule, h]

theorem within_dir {registry : Registry} {id : BlockId} {directory : Directory}
    (h : registry.lookup id = some (.dir directory)) (n : Nat) :
    registry.contents.within (n + 1) id = directory.expandWith (registry.contents.within n) := by
  simp only [Naming.System.within, contents, expandRule, h]

theorem within_missing {registry : Registry} {id : BlockId} (h : registry.lookup id = none)
    (n : Nat) : registry.contents.within n id = none := by
  cases n with
  | zero => rfl
  | succ n => simp only [Naming.System.within, contents, expandRule, h]

theorem exists_lookup_of_expansion {registry : Registry} {id : BlockId} {content : Bytes}
    (h : registry.expansion id = some content) : ∃ stored, registry.lookup id = some stored := by
  rw [expansion_eq, expandRule] at h
  cases hl : registry.lookup id with
  | none => simp [hl] at h
  | some stored => exact ⟨stored, rfl⟩

theorem within_length {registry : Registry} {id : BlockId} {content : Bytes}
    (h : registry.expansion id = some content) :
    registry.contents.within registry.length id = some content := by
  have hlen : registry.contents.names.length = registry.length := by
    simp [contents]
  rw [← hlen]
  exact h

theorem Grows.refl (registry : Registry) : registry.Grows registry := fun _ _ h => h

theorem Grows.trans {a b c : Registry} (h : a.Grows b) (h' : b.Grows c) : a.Grows c :=
  fun id stored hl => h' id stored (h id stored hl)

@[simp] theorem lookup_store_self (registry : Registry) (id : BlockId) (stored : Stored) :
    (registry.store id stored).lookup id = some stored := by
  simp [store]

theorem lookup_store_ne (registry : Registry) {id other : BlockId} (stored : Stored)
    (h : other ≠ id) : (registry.store id stored).lookup other = registry.lookup other := by
  rw [store, List.lookup_cons, beq_false_of_ne h]

theorem blockExists_eq_false {registry : Registry} {id : BlockId} :
    registry.blockExists id = false ↔ registry.lookup id = none := by
  simp [blockExists]

theorem blockExists_eq_true {registry : Registry} {id : BlockId} :
    registry.blockExists id = true ↔ ∃ stored, registry.lookup id = some stored := by
  simp [blockExists, Option.isSome_iff_exists]

theorem blockExists_iff_mem {registry : Registry} {id : BlockId} :
    registry.blockExists id = true ↔ id ∈ registry.map Prod.fst := by
  simp only [blockExists, Option.isSome_iff_exists]
  constructor
  · rintro ⟨stored, hl⟩
    exact mem_names_of_lookup hl
  · intro hmem
    cases hl : registry.lookup id with
    | some stored => exact ⟨stored, rfl⟩
    | none =>
        obtain ⟨entry, hentry, rfl⟩ := List.mem_map.mp hmem
        have := List.lookup_eq_none_iff.mp hl entry hentry
        simp at this

theorem Grows.store {registry : Registry} {id : BlockId} (stored : Stored)
    (h : registry.lookup id = none) : registry.Grows (registry.store id stored) := by
  intro other old hl
  have hne : other ≠ id := by
    rintro rfl
    simp [h] at hl
  rw [lookup_store_ne registry stored hne]
  exact hl

theorem Grows.expansion {before after : Registry} (h : before.Grows after)
    {id : BlockId} {content : Bytes} (hc : before.expansion id = some content) :
    after.expansion id = some content := by
  refine Naming.System.value_extends _ after.contents ?_ id content hc
  intro id sub content hr
  simp only [contents, expandRule] at hr ⊢
  split at hr
  · cases hr
  · rename_i hl; rw [h _ _ hl]; exact hr
  · rename_i hl; rw [h _ _ hl]; exact hr

-- A complete entry under a new name, named by its digest, keeps the registry addressed
-- by content.
theorem ContentAddressed.store {env : Enviroment} {registry : Registry} {id : BlockId}
    {stored : Stored} {content : Bytes} (hca : registry.ContentAddressed env)
    (hnew : registry.lookup id = none)
    (hexp : (registry.store id stored).expansion id = some content)
    (hid : env.hashFactory content = id) : (registry.store id stored).ContentAddressed env := by
  intro other old hl
  by_cases hne : other = id
  · subst hne
    exact ⟨content, hexp, hid⟩
  · rw [lookup_store_ne registry stored hne] at hl
    obtain ⟨bytes, hb, hd⟩ := hca other old hl
    exact ⟨bytes, (Grows.store stored hnew).expansion hb, hd⟩

-- The expansion of a block, of which there are no bytes where it is not complete.
def content (registry : Registry) (id : BlockId) : Bytes :=
  (registry.expansion id).getD []

theorem content_eq {registry : Registry} {id : BlockId}
    (h : ∃ content, registry.expansion id = some content) :
    registry.expansion id = some (content registry id) := by
  obtain ⟨bytes, hc⟩ := h
  rw [content, hc, Option.getD_some]

-- A file block and a block around it.
def sample : Registry :=
  [([1, 5, 6], .file [5, 6]),
    ([1, 10, 2, 5, 6], .dir {
      parts := [(1, [10, 2]), (2, [])]
      json := [.part 1, .block [1, 5, 6] [1], .part 2] })]

theorem sample_contentAddressed : sample.ContentAddressed .sample := by
  intro id stored h
  rw [sample, List.lookup_cons, List.lookup_cons] at h
  split at h
  · rename_i hid
    obtain rfl := eq_of_beq hid
    exact ⟨[5, 6], by decide, rfl⟩
  · split at h
    · rename_i hid
      obtain rfl := eq_of_beq hid
      exact ⟨[10, 2, 5, 6], by decide, rfl⟩
    · cases h

end Registry

end BeeRpc
