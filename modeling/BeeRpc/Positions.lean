import BeeRpc.Reach

namespace BeeRpc

open Wire

-- What a file adds to the expansion of the list it stands in.
def Path.bytes (registry : Registry) : Path → Bytes
  | .part content => content.getD []
  | .block id => registry.content id

-- The expansion of a file list.
def expandedFileList (registry : Registry) (fileList : List Path) : Bytes :=
  fileList.flatMap (Path.bytes registry)

-- The regular file that begins behind `left` in the expansion: a part, a block that is
-- a file, or one of these in the list of a block that is a directory.
inductive FileAt (registry : Registry) : List Path → Bytes → Bytes → Prop
  | part {before after : List Path} {file : Bytes} :
      FileAt registry (before ++ .part (some file) :: after) (expandedFileList registry before) file
  | file {before after : List Path} {id : BlockId} {file : Bytes} :
      registry.lookup id = some (.file file) →
      FileAt registry (before ++ .block id :: after) (expandedFileList registry before) file
  | dir {before after : List Path} {id : BlockId} {directory : Directory} {left file : Bytes} :
      registry.lookup id = some (.dir directory) → FileAt registry directory.paths left file →
      FileAt registry (before ++ .block id :: after) (expandedFileList registry before ++ left) file

section

variable {registry : Registry}

theorem expandedFileList_append (before after : List Path) :
    expandedFileList registry (before ++ after) =
      expandedFileList registry before ++ expandedFileList registry after :=
  List.flatMap_append

theorem expandedFileList_cons (path : Path) (rest : List Path) :
    expandedFileList registry (path :: rest) =
      path.bytes registry ++ expandedFileList registry rest :=
  List.flatMap_cons

theorem content_of_expansion {id : BlockId} {content : Bytes}
    (h : registry.expansion id = some content) : registry.content id = content := by
  rw [Registry.content, h, Option.getD_some]

theorem expandedFileList_entries {directory : Directory} {entries : List JsonEntry}
    {content : Bytes} (h : directory.expandEntries registry.expansion entries = some content) :
    expandedFileList registry (entries.map directory.path) = content := by
  induction entries generalizing content with
  | nil => exact Option.some.inj h
  | cons entry rest ih =>
      cases entry with
      | part index =>
          obtain ⟨head, more, hhead, hmore, rfl⟩ := Directory.expandEntries_part_eq_some.mp h
          rw [List.map_cons, expandedFileList_cons, ih hmore, Directory.path, hhead]
          rfl
      | block id positions =>
          obtain ⟨head, more, hhead, hmore, rfl⟩ := Directory.expandEntries_block_eq_some.mp h
          rw [List.map_cons, expandedFileList_cons, ih hmore]
          exact congrArg (· ++ more) (content_of_expansion hhead)

-- A directory block adds what the list of its own entries expands to.
theorem expandedFileList_paths {id : BlockId} {directory : Directory} {content : Bytes}
    (hlookup : registry.lookup id = some (.dir directory))
    (hexpansion : registry.expansion id = some content) :
    expandedFileList registry directory.paths = content := by
  rw [Registry.expansion_dir hlookup] at hexpansion
  exact expandedFileList_entries hexpansion

theorem getsize_bytes {path : Path}
    (hwhole : ∀ id, path = .block id → ∃ content, registry.expansion id = some content) :
    getsize registry path = .ok (path.bytes registry).length := by
  cases path with
  | part content => rfl
  | block id =>
      obtain ⟨content, hcontent⟩ := hwhole id rfl
      rw [getsize_of_expansion hcontent]
      exact congrArg (fun bytes : Bytes => Except.ok bytes.length)
        (content_of_expansion hcontent).symm

-- The walk passes over the files in front of the position.
theorem seekEntries_before (enter : BlockId → Nat → Except Err (Bytes × Nat)) (position : Nat)
    (before rest : List Path) (remaining : Nat)
    (hwhole : ∀ id, Path.block id ∈ before → ∃ content, registry.expansion id = some content) :
    seekEntries (getsize registry) enter position
      ((expandedFileList registry before).length + remaining) (before ++ rest) =
      seekEntries (getsize registry) enter position remaining rest := by
  induction before with
  | nil => simp [expandedFileList]
  | cons path before ih =>
      have hsize : getsize registry path = .ok (path.bytes registry).length :=
        getsize_bytes fun id heq => hwhole id (heq ▸ List.mem_cons_self ..)
      have hrest := ih fun id hmem => hwhole id (List.mem_cons_of_mem _ hmem)
      have hlater : (expandedFileList registry (path :: before)).length + remaining -
          (path.bytes registry).length = (expandedFileList registry before).length + remaining := by
        rw [expandedFileList_cons, List.length_append]
        omega
      have hpassed : ¬ (expandedFileList registry (path :: before)).length + remaining <
          (path.bytes registry).length := by
        rw [expandedFileList_cons, List.length_append]
        omega
      simp only [List.cons_append, seekEntries, hsize, ok_bind]
      rw [if_neg hpassed, hlater, hrest]

theorem seekEntries_past (enter : BlockId → Nat → Except Err (Bytes × Nat)) (position : Nat)
    (fileList : List Path) (remaining : Nat)
    (hwhole : ∀ id, Path.block id ∈ fileList → ∃ content, registry.expansion id = some content)
    (hpast : (expandedFileList registry fileList).length ≤ remaining) :
    seekEntries (getsize registry) enter position remaining fileList =
      .error (.outOfBufferRange position) := by
  obtain ⟨more, rfl⟩ := Nat.exists_eq_add_of_le hpast
  have h := seekEntries_before enter position fileList [] more hwhole
  rw [List.append_nil] at h
  rw [h]
  rfl

theorem FileAt.cons {fileList : List Path} {left file : Bytes} (path : Path)
    (hat : FileAt registry fileList left file) :
    FileAt registry (path :: fileList) (path.bytes registry ++ left) file := by
  cases hat with
  | @part before after =>
      rw [← expandedFileList_cons]
      exact @FileAt.part registry (path :: before) after file
  | @file before after id _ hlookup =>
      rw [← expandedFileList_cons]
      exact @FileAt.file registry (path :: before) after id file hlookup
  | @dir before after id directory left _ hlookup hinner =>
      rw [← List.append_assoc, ← expandedFileList_cons]
      exact @FileAt.dir registry (path :: before) after id directory left file hlookup hinner

-- The rounds within which all blocks of a list have their expansion.
def Within (registry : Registry) (n : Nat) (fileList : List Path) : Prop :=
  ∀ id, Path.block id ∈ fileList → ∃ content, registry.contents.within n id = some content

theorem Within.expansion {n : Nat} {fileList : List Path} (hwithin : Within registry n fileList)
    (id : BlockId) (hmem : Path.block id ∈ fileList) :
    ∃ content, registry.expansion id = some content := by
  obtain ⟨content, hcontent⟩ := hwithin id hmem
  exact ⟨content, registry.contents.value_of_within n id content hcontent⟩

theorem Within.paths {n : Nat} {fileList : List Path} {id : BlockId} {directory : Directory}
    (hwithin : Within registry (n + 1) fileList) (hmem : Path.block id ∈ fileList)
    (hlookup : registry.lookup id = some (.dir directory)) :
    Within registry n directory.paths := by
  intro sub hsub
  obtain ⟨content, hcontent⟩ := hwithin id hmem
  rw [Registry.within_dir hlookup] at hcontent
  obtain ⟨entry, hentry, heq⟩ := List.mem_map.mp hsub
  cases entry with
  | part index => cases heq
  | block other positions =>
      obtain rfl := Path.block.inj heq
      exact (Directory.expandEntries_parts hcontent).2 other positions hentry

theorem FileAt.mem {fileList : List Path} {left file : Bytes} {n : Nat}
    (hat : FileAt registry fileList left file) (hwithin : Within registry n fileList) :
    ∃ right, expandedFileList registry fileList = left ++ file ++ right := by
  induction hat generalizing n with
  | @part before after file =>
      refine ⟨expandedFileList registry after, ?_⟩
      rw [expandedFileList_append, expandedFileList_cons, List.append_assoc]
      rfl
  | @file before after id file hlookup =>
      refine ⟨expandedFileList registry after, ?_⟩
      rw [expandedFileList_append, expandedFileList_cons, List.append_assoc, Path.bytes,
        content_of_expansion (Registry.expansion_file hlookup)]
  | @dir before after id directory left file hlookup hinner ih =>
      have hmem : Path.block id ∈ before ++ Path.block id :: after := by simp
      obtain ⟨content, hcontent⟩ := hwithin.expansion id hmem
      cases n with
      | zero =>
          obtain ⟨_, hnone⟩ := hwithin id hmem
          cases hnone
      | succ n =>
          obtain ⟨right, hright⟩ := ih (hwithin.paths hmem hlookup)
          rw [expandedFileList_paths hlookup hcontent] at hright
          refine ⟨right ++ expandedFileList registry after, ?_⟩
          rw [expandedFileList_append, expandedFileList_cons, Path.bytes,
            content_of_expansion hcontent, hright]
          simp

-- Every position that a regular file holds is looked up in that file.
theorem FileAt.seek {fileList : List Path} {left file : Bytes} {offset : Nat}
    (hat : FileAt registry fileList left file) (hoffset : offset < file.length) :
    ∀ n, Within registry n fileList →
      seekLoop registry (n + 1) (left.length + offset) fileList = .ok (file, offset) := by
  induction hat with
  | @part before after file =>
      intro n hwithin
      rw [seekLoop, seekEntries_before _ _ before _ offset fun id hmem =>
        hwithin.expansion id (by simp [hmem])]
      exact if_pos hoffset
  | @file before after id file hlookup =>
      intro n hwithin
      have hsize := getsize_of_expansion (Registry.expansion_file hlookup)
      rw [seekLoop, seekEntries_before _ _ before _ offset fun id hmem =>
        hwithin.expansion id (by simp [hmem]), seekEntries, hsize, ok_bind, if_pos hoffset]
      simp only [hlookup]
  | @dir before after id directory left file hlookup hinner ih =>
      intro n hwithin
      have hmem : Path.block id ∈ before ++ Path.block id :: after := by simp
      obtain ⟨content, hcontent⟩ := hwithin.expansion id hmem
      cases n with
      | zero =>
          obtain ⟨_, hnone⟩ := hwithin id hmem
          cases hnone
      | succ n =>
          have hpaths := hwithin.paths hmem hlookup
          obtain ⟨right, hright⟩ := hinner.mem hpaths
          rw [expandedFileList_paths hlookup hcontent] at hright
          have hinside : left.length + offset < content.length := by
            rw [hright, List.length_append, List.length_append]
            omega
          rw [seekLoop, List.length_append, Nat.add_assoc,
            seekEntries_before _ _ before _ _ fun id hmem => hwithin.expansion id (by simp [hmem]),
            seekEntries, getsize_of_expansion hcontent, ok_bind, if_pos hinside]
          simp only [hlookup]
          exact ih hoffset n hpaths

theorem FileAt.of_head {path : Path} {file : Bytes} (rest : List Path)
    (hfile : path = .part (some file) ∨
      ∃ id, path = .block id ∧ registry.lookup id = some (.file file)) :
    FileAt registry (path :: rest) [] file := by
  rcases hfile with rfl | ⟨id, rfl, hlookup⟩
  · exact @FileAt.part registry [] rest file
  · exact @FileAt.file registry [] rest id file hlookup

-- A position in a list is in one of its files, or in the list of one of its directories.
theorem exists_fileAt_of (fileList : List Path) (position : Nat)
    (hwhole : ∀ id, Path.block id ∈ fileList → ∃ content, registry.expansion id = some content)
    (hinner : ∀ id directory position, Path.block id ∈ fileList →
      registry.lookup id = some (.dir directory) →
      position < (expandedFileList registry directory.paths).length →
      ∃ left file, FileAt registry directory.paths left file ∧ left.length ≤ position ∧
        position < left.length + file.length)
    (hposition : position < (expandedFileList registry fileList).length) :
    ∃ left file, FileAt registry fileList left file ∧ left.length ≤ position ∧
      position < left.length + file.length := by
  induction fileList generalizing position with
  | nil => exact absurd hposition (Nat.not_lt_zero _)
  | cons path rest ih =>
      rw [expandedFileList_cons, List.length_append] at hposition
      by_cases hhere : position < (path.bytes registry).length
      · cases path with
        | part content =>
            cases content with
            | none => exact absurd hhere (Nat.not_lt_zero _)
            | some file =>
                refine ⟨[], file, .of_head rest (Or.inl rfl), Nat.zero_le _, ?_⟩
                simpa [Path.bytes] using hhere
        | block id =>
            obtain ⟨content, hcontent⟩ := hwhole id (List.mem_cons_self ..)
            obtain ⟨stored, hlookup⟩ := Registry.exists_lookup_of_expansion hcontent
            rw [Path.bytes, content_of_expansion hcontent] at hhere
            cases stored with
            | file file =>
                have heq := hcontent.symm.trans (Registry.expansion_file hlookup)
                obtain rfl := Option.some.inj heq
                refine ⟨[], content, .of_head rest (Or.inr ⟨id, rfl, hlookup⟩), Nat.zero_le _, ?_⟩
                simpa using hhere
            | dir directory =>
                rw [← expandedFileList_paths hlookup hcontent] at hhere
                obtain ⟨left, file, hat, hfrom, hto⟩ :=
                  hinner id directory position (List.mem_cons_self ..) hlookup hhere
                exact ⟨left, file, @FileAt.dir registry [] rest id directory left file hlookup hat, hfrom, hto⟩
      · obtain ⟨left, file, hat, hfrom, hto⟩ := ih (position - (path.bytes registry).length)
          (fun id hmem => hwhole id (List.mem_cons_of_mem _ hmem))
          (fun id directory position hmem => hinner id directory position (List.mem_cons_of_mem _ hmem))
          (by omega)
        refine ⟨_, file, hat.cons path, ?_, ?_⟩
        · rw [List.length_append]
          omega
        · rw [List.length_append]
          omega

theorem exists_fileAt (n : Nat) : ∀ fileList position, Within registry n fileList →
    position < (expandedFileList registry fileList).length →
    ∃ left file, FileAt registry fileList left file ∧ left.length ≤ position ∧
      position < left.length + file.length := by
  induction n with
  | zero =>
      intro fileList position hwithin
      refine exists_fileAt_of fileList position hwithin.expansion ?_
      intro id directory _ hmem
      obtain ⟨_, hnone⟩ := hwithin id hmem
      cases hnone
  | succ n ih =>
      intro fileList position hwithin
      refine exists_fileAt_of fileList position hwithin.expansion ?_
      intro id directory inner hmem hlookup
      exact ih directory.paths inner (hwithin.paths hmem hlookup)

-- A position of the expansion is found in the regular file that holds its byte, a varint
-- that one file holds is read whole, and a position past the end is refused.
theorem seekExpandedPosition_resolves (fileList : List Path) (position : Nat)
    (hwhole : ∀ id, Path.block id ∈ fileList → registry.Whole id) :
    (position < (expandedFileList registry fileList).length →
      ∃ left file offset, FileAt registry fileList left file ∧ position = left.length + offset ∧
        seekExpandedPosition registry position fileList = .ok (file, offset) ∧
        offset < file.length ∧
        file[offset]? = (expandedFileList registry fileList)[position]?) ∧
    (∀ left file n value, FileAt registry fileList left file → left.length ≤ position →
      position + n ≤ left.length + file.length →
      Varint.span? ((expandedFileList registry fileList).drop position) = some n →
      Varint.decode? ((expandedFileList registry fileList).drop position) = some value →
      getVarintAtPosition registry position fileList = .ok value) ∧
    ((expandedFileList registry fileList).length ≤ position →
      seekExpandedPosition registry position fileList = .error (.outOfBufferRange position) ∧
        getVarintAtPosition registry position fileList = .error (.outOfBufferRange position)) := by
  have hexpansion : ∀ id, Path.block id ∈ fileList → ∃ content, registry.expansion id = some content :=
    fun id hmem => Registry.expansion_iff_whole.mpr (hwhole id hmem)
  have hwithin : Within registry registry.length fileList := by
    intro id hmem
    obtain ⟨content, hcontent⟩ := hexpansion id hmem
    exact ⟨content, Registry.within_length hcontent⟩
  refine ⟨?_, ?_, ?_⟩
  · intro hposition
    obtain ⟨left, file, hat, hfrom, hto⟩ := exists_fileAt _ fileList position hwithin hposition
    obtain ⟨offset, rfl⟩ := Nat.exists_eq_add_of_le hfrom
    have hoffset : offset < file.length := by omega
    obtain ⟨right, hright⟩ := hat.mem hwithin
    refine ⟨left, file, offset, hat, rfl, hat.seek hoffset _ hwithin, hoffset, ?_⟩
    rw [hright, List.append_assoc, List.getElem?_append_right (by omega), Nat.add_sub_cancel_left,
      List.getElem?_append_left hoffset]
  · intro left file n value hat hfrom hto hspan hvalue
    obtain ⟨offset, rfl⟩ := Nat.exists_eq_add_of_le hfrom
    obtain ⟨right, hright⟩ := hat.mem hwithin
    have hdrop : (expandedFileList registry fileList).drop (left.length + offset) =
        file.drop offset ++ right := by
      rw [hright, List.append_assoc, ← List.drop_drop, List.drop_left,
        List.drop_append_of_le_length (by omega)]
    rw [hdrop] at hspan hvalue
    have hpos := Varint.span?_pos hspan
    have hoffset : offset < file.length := by omega
    have hseek := hat.seek hoffset _ hwithin
    unfold getVarintAtPosition seekExpandedPosition
    rw [hseek, ok_bind]
    have hinside : n ≤ (file.drop offset).length := by
      rw [List.length_drop]
      omega
    exact congrArg Except.ok (Varint.decodeUpToEnd_of_span hinside hspan hvalue)
  · intro hpast
    have hseek : seekExpandedPosition registry position fileList =
        .error (.outOfBufferRange position) := seekEntries_past _ position fileList position hexpansion hpast
    refine ⟨hseek, ?_⟩
    rw [getVarintAtPosition, hseek]
    rfl

-- A part, a directory block with a file block inside it, and an empty part.
theorem seekExpandedPosition_resolves_sample :
    let fileList := [Path.part (some [7]), .block [1, 10, 2, 5, 6], .part (some [])]
    (3 < (expandedFileList Registry.sample fileList).length →
      ∃ left file offset, FileAt Registry.sample fileList left file ∧ 3 = left.length + offset ∧
        seekExpandedPosition Registry.sample 3 fileList = .ok (file, offset) ∧
        offset < file.length ∧
        file[offset]? = (expandedFileList Registry.sample fileList)[3]?) ∧
    (∀ left file n value, FileAt Registry.sample fileList left file → left.length ≤ 3 →
      3 + n ≤ left.length + file.length →
      Varint.span? ((expandedFileList Registry.sample fileList).drop 3) = some n →
      Varint.decode? ((expandedFileList Registry.sample fileList).drop 3) = some value →
      getVarintAtPosition Registry.sample 3 fileList = .ok value) ∧
    ((expandedFileList Registry.sample fileList).length ≤ 3 →
      seekExpandedPosition Registry.sample 3 fileList = .error (.outOfBufferRange 3) ∧
        getVarintAtPosition Registry.sample 3 fileList = .error (.outOfBufferRange 3)) := by
  intro fileList
  refine seekExpandedPosition_resolves fileList 3 ?_
  intro id hmem
  have hid : id = [1, 10, 2, 5, 6] := by simpa [fileList] using hmem
  subst hid
  exact Registry.expansion_iff_whole.mp ⟨[10, 2, 5, 6], by decide⟩

-- The fourth byte there is the first of the inner file block.
example : seekExpandedPosition Registry.sample 3
    [Path.part (some [7]), .block [1, 10, 2, 5, 6], .part (some [])] = .ok ([5, 6], 0) := by
  decide

end

end BeeRpc
