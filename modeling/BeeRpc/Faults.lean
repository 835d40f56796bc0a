import BeeRpc.Reader

namespace BeeRpc

open Wire

-- The reads of files that a reader makes: the `_.json` of a directory, the check of a file
-- block, and the chunks of a part or of a file block.
inductive FileRead where
  | metadata
  | check
  | chunks
  deriving Repr, DecidableEq

-- After how many chunks the reads fail, told by the entries that lead to the file from
-- the directory read. A file that is not there fails whatever is said here.
abbrev Faults := List Nat → FileRead → Option Nat

def Faults.under (faults : Faults) (entry : Nat) : Faults := fun entries => faults (entry :: entries)

def Faults.none : Faults := fun _ _ => Option.none

-- What ends a reader: an exception of the library, or that of a read.
inductive ReadErr where
  | library (e : Err)
  | failedRead
  deriving Repr, DecidableEq

-- What a reader gives before it ends or raises.
structure Given where
  items : List (Bytes ⊕ Block)
  raised : Option ReadErr := none
  deriving Repr, DecidableEq

def Given.andThen (first second : Given) : Given :=
  match first.raised with
  | some e => ⟨first.items, some e⟩
  | none => ⟨first.items ++ second.items, second.raised⟩

-- reader.read_file_by_chunks, which keeps every exception to itself.
def chunksGiven (faults : Faults) : Option Bytes → List Bytes
  | none => []
  | some content =>
      match faults [] .chunks with
      | none => readFileByChunks content
      | some k => (readFileByChunks content).take k

-- The loop of reader.read_multiblock_directory from the entry with this number on.
def giveEntries (env : Enviroment) (read : Faults → Bool → Nat → BlockId → Given)
    (directory : Directory) (ignoreBlocks : Bool) (depth : Nat) (faults : Faults) :
    Nat → List JsonEntry → Given
  | _, [] => ⟨[], none⟩
  | entry, .part index :: rest =>
      Given.andThen
        ⟨(chunksGiven (faults.under entry) (directory.part index)).map .inl, none⟩
        (giveEntries env read directory ignoreBlocks depth faults (entry + 1) rest)
  | entry, .block id positions :: rest =>
      let more := giveEntries env read directory ignoreBlocks depth faults (entry + 1) rest
      if ignoreBlocks then (read (faults.under entry) true 1 id).andThen more
      else
        let block := { blockPointer env id with previousLengthsPosition := positions }
        let nested : Bool := depth < env.blockDepth
        Given.andThen ⟨[.inr block], none⟩
          ((read (faults.under entry) (!nested) (depth + 1) id).andThen
            (Given.andThen ⟨[.inr block], none⟩ more))

-- `json.load(open(directory + '_.json'))`, and then the entries.
def giveDirectory (env : Enviroment) (read : Faults → Bool → Nat → BlockId → Given)
    (directory : Directory) (ignoreBlocks : Bool) (depth : Nat) (faults : Faults) : Given :=
  match faults [] .metadata with
  | some _ => ⟨[], some .failedRead⟩
  | none => giveEntries env read directory ignoreBlocks depth faults 0 directory.json

def giveBlock (env : Enviroment) (registry : Registry) : Nat → Faults → Bool → Nat → BlockId → Given
  | 0, _, _, _, _ => ⟨[], some (.library .recursionLimit)⟩
  | fuel + 1, faults, ignoreBlocks, depth, id =>
      match registry.lookup id with
      | none => ⟨[], some (.library (.readingBlock id))⟩
      | some (.file content) =>
          match faults [] .check with
          | some _ => ⟨[], some .failedRead⟩
          | none =>
              let digest := env.hashFactory content
              if digest ≠ id then
                ⟨[], some (.library (.corruptBlock id digest content.length))⟩
              else ⟨(chunksGiven faults (some content)).map .inl, none⟩
      | some (.dir directory) =>
          giveDirectory env (giveBlock env registry fuel) directory ignoreBlocks depth faults

-- reader.read_multiblock_directory, with reads that may fail.
def giveMultiblockDirectory (env : Enviroment) (registry : Registry) (faults : Faults)
    (directory : Directory) (ignoreBlocks : Bool := true) (depth : Nat := 1) : Given :=
  giveDirectory env (giveBlock env registry (registry.length + 1)) directory ignoreBlocks depth faults

-- The files that are read by chunks, and the entries that lead there.
inductive ChunkFile (registry : Registry) : Directory → List Nat → Option Bytes → Prop
  | part {directory : Directory} {entry index : Nat} :
      directory.json[entry]? = some (.part index) →
      ChunkFile registry directory [entry] (directory.part index)
  | file {directory : Directory} {entry : Nat} {id : BlockId} {positions : List Nat}
      {content : Bytes} :
      directory.json[entry]? = some (.block id positions) →
      registry.lookup id = some (.file content) →
      ChunkFile registry directory [entry] (some content)
  | dir {directory inner : Directory} {entry : Nat} {id : BlockId} {positions : List Nat}
      {entries : List Nat} {content : Option Bytes} :
      directory.json[entry]? = some (.block id positions) →
      registry.lookup id = some (.dir inner) → ChunkFile registry inner entries content →
      ChunkFile registry directory (entry :: entries) content

-- The file is there, and its read does not fail before its last chunk.
def InFull (faults : Faults) (content : Option Bytes) : Prop :=
  ∃ bytes, content = some bytes ∧
    ∀ k, faults [] .chunks = some k → (readFileByChunks bytes).length ≤ k

-- The same of the files that a block leads to.
def BlockInFull (registry : Registry) (faults : Faults) (id : BlockId) : Prop :=
  (∀ content, registry.lookup id = some (.file content) → InFull faults (some content)) ∧
    ∀ directory entries content, registry.lookup id = some (.dir directory) →
      ChunkFile registry directory entries content →
      InFull (fun more => faults (entries ++ more)) content

def EntryInFull (registry : Registry) (directory : Directory) (faults : Faults) : JsonEntry → Prop
  | .part index => InFull faults (directory.part index)
  | .block id _ => BlockInFull registry faults id

section

variable {env : Enviroment} {registry : Registry}

-- What a reader gives where no read of a file that is there fails.
def Given.ofYielded (yielded : Yielded (Bytes ⊕ Block)) : Given :=
  ⟨yielded.items, yielded.raised.map .library⟩

theorem ofYielded_andThen (first second : Yielded (Bytes ⊕ Block)) :
    Given.ofYielded (first.andThen second) =
      (Given.ofYielded first).andThen (Given.ofYielded second) := by
  unfold Yielded.andThen Given.andThen Given.ofYielded
  cases first.raised <;> rfl

theorem Given.andThen_assoc (first second third : Given) :
    (first.andThen second).andThen third = first.andThen (second.andThen third) := by
  unfold Given.andThen
  cases hfirst : first.raised with
  | some e => simp
  | none => cases second.raised <;> simp

theorem chunksGiven_none (content : Option Bytes) :
    chunksGiven .none content = readFileByChunks (content.getD []) := by
  cases content <;> rfl

theorem giveEntries_none {read : Faults → Bool → Nat → BlockId → Given}
    {read' : Bool → Nat → BlockId → Yielded (Bytes ⊕ Block)} (directory : Directory)
    (ignoreBlocks : Bool) (depth : Nat)
    (hread : ∀ ignoreBlocks depth id,
      read .none ignoreBlocks depth id = .ofYielded (read' ignoreBlocks depth id))
    (entries : List JsonEntry) : ∀ n,
    giveEntries env read directory ignoreBlocks depth .none n entries =
      .ofYielded (readEntries env read' directory ignoreBlocks depth entries) := by
  induction entries with
  | nil => exact fun _ => rfl
  | cons entry rest ih =>
      intro n
      have hunder : Faults.none.under n = Faults.none := rfl
      cases entry with
      | part index =>
          rw [giveEntries, readEntries, ofYielded_andThen, ih, hunder, chunksGiven_none]
          rfl
      | block id positions =>
          simp only [giveEntries, readEntries, hunder, hread, ih]
          by_cases hflat : ignoreBlocks = true
          · rw [if_pos hflat, if_pos hflat, ofYielded_andThen]
          · rw [if_neg hflat, if_neg hflat]
            simp only [ofYielded_andThen, Given.andThen_assoc]
            rfl

theorem giveBlock_none (fuel : Nat) : ∀ ignoreBlocks depth id,
    giveBlock env registry fuel .none ignoreBlocks depth id =
      .ofYielded (readBlockLoop env registry fuel ignoreBlocks depth id) := by
  induction fuel with
  | zero => exact fun _ _ _ => rfl
  | succ fuel ih =>
      intro ignoreBlocks depth id
      unfold giveBlock readBlockLoop
      cases hlookup : registry.lookup id with
      | none => rfl
      | some stored =>
          cases stored with
          | file content =>
              show (if env.hashFactory content ≠ id then _ else _) = _
              by_cases hdigest : env.hashFactory content ≠ id
              · simp only [if_pos hdigest]
                rfl
              · simp only [if_neg hdigest]
                rfl
          | dir directory => exact giveEntries_none directory ignoreBlocks depth ih directory.json 0

-- Without failing reads this is the reader of the other modules.
theorem giveMultiblockDirectory_none (directory : Directory) (ignoreBlocks : Bool) (depth : Nat) :
    giveMultiblockDirectory env registry .none directory ignoreBlocks depth =
      .ofYielded (readMultiblockDirectory env registry directory ignoreBlocks depth) :=
  giveEntries_none directory ignoreBlocks depth (giveBlock_none (registry.length + 1)) directory.json 0

theorem chunkLoop_ne_nil (fuel : Nat) : ∀ content, ∀ chunk ∈ chunkLoop fuel content, chunk ≠ [] := by
  induction fuel with
  | zero => intro content chunk hmem; simp [chunkLoop] at hmem
  | succ fuel ih =>
      intro content chunk hmem
      unfold chunkLoop at hmem
      by_cases hempty : content = []
      · simp [hempty] at hmem
      · rw [if_neg hempty] at hmem
        rcases List.mem_cons.mp hmem with rfl | hmem
        · rw [ne_eq, List.take_eq_nil_iff, not_or]
          exact ⟨by simp [CHUNK_SIZE], hempty⟩
        · exact ih _ chunk hmem

theorem take_append_drop_chunks (content : Bytes) (k : Nat) :
    ((readFileByChunks content).take k).flatten ++ ((readFileByChunks content).drop k).flatten =
      content := by
  rw [← List.flatten_append, List.take_append_drop, readFileByChunks_flatten]

-- Chunks that are left out are missing from the content.
theorem take_chunks_eq_iff (content : Bytes) (k : Nat) :
    ((readFileByChunks content).take k).flatten = content ↔ (readFileByChunks content).length ≤ k := by
  constructor
  · intro htaken
    have hsplit := take_append_drop_chunks content k
    rw [htaken] at hsplit
    have hnothing := List.append_right_eq_self.mp hsplit
    rw [← List.drop_eq_nil_iff, List.eq_nil_iff_forall_not_mem]
    intro chunk hmem
    have hchunk := List.flatten_eq_nil_iff.mp hnothing chunk hmem
    exact chunkLoop_ne_nil _ content chunk (List.mem_of_mem_drop hmem) hchunk
  · intro hall
    rw [List.take_of_length_le hall, readFileByChunks_flatten]

-- What a reader that has not raised tells about an expansion: it is all of it exactly if
-- the files have been read in full, and else it is shorter.
def Tells (given : Given) (expansion : Option Bytes) (inFull : Prop) : Prop :=
  given.raised = none →
    (expansion = some (contentOf given.items) ↔ inFull) ∧
      ∀ content, expansion = some content → (contentOf given.items).length ≤ content.length

theorem Tells.andThen {first second : Given} {front back : Option Bytes} {inFront inBack : Prop}
    (hfront : Tells first front inFront) (hback : Tells second back inBack) :
    Tells (first.andThen second)
      (front.bind fun content => back.map (content ++ ·)) (inFront ∧ inBack) := by
  intro hends
  unfold Given.andThen at hends ⊢
  cases hfirst : first.raised with
  | some e => rw [hfirst] at hends; cases hends
  | none =>
      rw [hfirst] at hends
      obtain ⟨hfront, hfrontLe⟩ := hfront hfirst
      obtain ⟨hback, hbackLe⟩ := hback hends
      simp only [contentOf_append]
      refine ⟨?_, ?_⟩
      · rw [← hfront, ← hback]
        constructor
        · intro heq
          obtain ⟨content, hcontent, heq⟩ := Option.bind_eq_some_iff.mp heq
          obtain ⟨more, hmore, heq⟩ := Option.map_eq_some_iff.mp heq
          have hle := hfrontLe content hcontent
          have hle' := hbackLe more hmore
          have hlength := congrArg List.length heq
          rw [List.length_append, List.length_append] at hlength
          obtain ⟨rfl, rfl⟩ := List.append_inj heq (by omega)
          exact ⟨hcontent, hmore⟩
        · rintro ⟨hcontent, hmore⟩
          rw [hcontent, hmore]
          rfl
      · intro content hcontent
        obtain ⟨head, hhead, hcontent⟩ := Option.bind_eq_some_iff.mp hcontent
        obtain ⟨more, hmore, rfl⟩ := Option.map_eq_some_iff.mp hcontent
        have hle := hfrontLe head hhead
        have hle' := hbackLe more hmore
        rw [List.length_append, List.length_append]
        omega

-- A marker is no content.
theorem Tells.marker {given : Given} {expansion : Option Bytes} {inFull : Prop} (block : Block)
    (h : Tells given expansion inFull) :
    Tells (Given.andThen ⟨[.inr block], none⟩ given) expansion inFull := by
  intro hends
  exact h hends

theorem Tells.of_raised {given : Given} {e : ReadErr} (expansion : Option Bytes) (inFull : Prop)
    (hraised : given.raised = some e) : Tells given expansion inFull := by
  intro hends
  rw [hraised] at hends
  cases hends

theorem tells_chunks (faults : Faults) (content : Option Bytes) :
    Tells ⟨(chunksGiven faults content).map .inl, none⟩ content (InFull faults content) := by
  intro _
  rw [contentOf_pieces]
  unfold InFull chunksGiven
  cases content with
  | none => simp
  | some bytes =>
      cases hfault : faults [] .chunks with
      | none => simp [readFileByChunks_flatten]
      | some k =>
          simp only [Option.some.injEq, exists_eq_left', forall_eq']
          refine ⟨eq_comm.trans (take_chunks_eq_iff bytes k), ?_⟩
          have hsplit := congrArg List.length (take_append_drop_chunks bytes k)
          rw [List.length_append] at hsplit
          omega

theorem forall_getElem?_cons {α : Type} {P : Nat → α → Prop} (a : α) (l : List α) :
    (∀ j b, (a :: l)[j]? = some b → P j b) ↔ P 0 a ∧ ∀ j b, l[j]? = some b → P (j + 1) b := by
  constructor
  · intro h
    exact ⟨h 0 a rfl, fun j b hb => h (j + 1) b hb⟩
  · rintro ⟨hzero, hsucc⟩ j b hb
    cases j with
    | zero =>
        obtain rfl := Option.some.inj hb
        exact hzero
    | succ j => exact hsucc j b hb

theorem Directory.expandEntries_part (directory : Directory) (sub : BlockId → Option Bytes) (index : Nat)
    (rest : List JsonEntry) : directory.expandEntries sub (.part index :: rest) =
      (directory.part index).bind fun content =>
        (directory.expandEntries sub rest).map (content ++ ·) := by
  show ((directory.part index).bind fun content =>
    (directory.expandEntries sub rest).bind fun more => some (content ++ more)) = _
  simp only [Option.map_eq_bind, Function.comp_def]

theorem Directory.expandEntries_block (directory : Directory) (sub : BlockId → Option Bytes) (id : BlockId)
    (positions : List Nat) (rest : List JsonEntry) :
    directory.expandEntries sub (.block id positions :: rest) =
      (sub id).bind fun content => (directory.expandEntries sub rest).map (content ++ ·) := by
  show ((sub id).bind fun content =>
    (directory.expandEntries sub rest).bind fun more => some (content ++ more)) = _
  simp only [Option.map_eq_bind, Function.comp_def]

theorem tells_entries {read : Faults → Bool → Nat → BlockId → Given} (directory : Directory)
    (ignoreBlocks : Bool) (depth : Nat) (faults : Faults)
    (hread : ∀ faults ignoreBlocks depth id,
      Tells (read faults ignoreBlocks depth id) (registry.expansion id)
        (BlockInFull registry faults id))
    (entries : List JsonEntry) : ∀ n,
    Tells (giveEntries env read directory ignoreBlocks depth faults n entries)
      (directory.expandEntries registry.expansion entries)
      (∀ j entry, entries[j]? = some entry →
        EntryInFull registry directory (faults.under (n + j)) entry) := by
  induction entries with
  | nil =>
      intro n _
      refine ⟨⟨fun _ j entry h => by simp at h, fun _ => rfl⟩, ?_⟩
      intro content _
      exact Nat.zero_le _
  | cons entry rest ih =>
      intro n
      have hrest := ih (n + 1)
      simp only [Nat.add_assoc, Nat.add_comm 1] at hrest
      rw [forall_getElem?_cons]
      cases entry with
      | part index =>
          rw [Directory.expandEntries_part]
          exact (tells_chunks (faults.under n) (directory.part index)).andThen hrest
      | block id positions =>
          have hblock := fun ignoreBlocks depth => hread (faults.under n) ignoreBlocks depth id
          rw [Directory.expandEntries_block]
          unfold giveEntries
          by_cases hflat : ignoreBlocks = true
          · rw [if_pos hflat]
            exact (hblock true 1).andThen hrest
          · rw [if_neg hflat]
            exact ((hblock _ _).andThen (hrest.marker _)).marker _

theorem chunkFile_iff_entries (directory : Directory) (faults : Faults) :
    (∀ entries content, ChunkFile registry directory entries content →
      InFull (fun more => faults (entries ++ more)) content) ↔
      ∀ j entry, directory.json[j]? = some entry →
        EntryInFull registry directory (faults.under j) entry := by
  constructor
  · intro hall j entry hentry
    cases entry with
    | part index => exact hall [j] _ (.part hentry)
    | block id positions =>
        refine ⟨fun content hlookup => hall [j] _ (.file hentry hlookup), ?_⟩
        intro inner entries content hlookup hfile
        exact hall (j :: entries) content (.dir hentry hlookup hfile)
  · intro hall entries content hfile
    cases hfile with
    | part hentry => exact hall _ _ hentry
    | file hentry hlookup => exact (hall _ _ hentry).1 _ hlookup
    | dir hentry hlookup hinner => exact (hall _ _ hentry).2 _ _ _ hlookup hinner

theorem tells_directory {read : Faults → Bool → Nat → BlockId → Given} (directory : Directory)
    (ignoreBlocks : Bool) (depth : Nat) (faults : Faults)
    (hread : ∀ faults ignoreBlocks depth id,
      Tells (read faults ignoreBlocks depth id) (registry.expansion id)
        (BlockInFull registry faults id)) :
    Tells (giveDirectory env read directory ignoreBlocks depth faults)
      (directory.expandWith registry.expansion)
      (∀ entries content, ChunkFile registry directory entries content →
        InFull (fun more => faults (entries ++ more)) content) := by
  unfold giveDirectory
  cases faults [] .metadata with
  | some k => exact .of_raised _ _ rfl
  | none =>
      rw [chunkFile_iff_entries]
      have h := @tells_entries env _ _ directory ignoreBlocks depth faults hread directory.json 0
      simp only [Nat.zero_add] at h
      exact h

theorem tells_block (fuel : Nat) : ∀ faults ignoreBlocks depth id,
    Tells (giveBlock env registry fuel faults ignoreBlocks depth id) (registry.expansion id)
      (BlockInFull registry faults id) := by
  induction fuel with
  | zero => exact fun _ _ _ _ => .of_raised _ _ rfl
  | succ fuel ih =>
      intro faults ignoreBlocks depth id
      unfold giveBlock
      cases hlookup : registry.lookup id with
      | none => exact .of_raised _ _ rfl
      | some stored =>
          cases stored with
          | file content =>
              have hfull : BlockInFull registry faults id ↔ InFull faults (some content) := by
                simp [BlockInFull, hlookup]
              rw [hfull, Registry.expansion_file hlookup]
              cases faults [] .check with
              | some k => exact .of_raised _ _ rfl
              | none =>
                  by_cases hdigest : env.hashFactory content ≠ id
                  · simp only [if_pos hdigest]
                    exact .of_raised _ _ rfl
                  · simp only [if_neg hdigest]
                    exact tells_chunks faults (some content)
          | dir directory =>
              have hfull : BlockInFull registry faults id ↔
                  ∀ entries content, ChunkFile registry directory entries content →
                    InFull (fun more => faults (entries ++ more)) content := by
                refine ⟨fun h entries content => h.2 directory entries content hlookup, fun h => ?_⟩
                refine ⟨fun content hfile => ?_, fun other entries content hother => ?_⟩
                · rw [hlookup] at hfile
                  cases hfile
                · obtain rfl := Stored.dir.inj (Option.some.inj (hlookup.symm.trans hother))
                  exact h entries content
              rw [hfull, Registry.expansion_dir hlookup]
              exact tells_directory directory ignoreBlocks depth faults ih

-- A read that fails leaves a directory short, and nothing is raised.
theorem giveMultiblockDirectory_shortens :
    let directory : Directory := { parts := [(1, [7, 8])], json := [.part 1] }
    let faults : Faults := fun entries read =>
      if entries = [0] ∧ read = .chunks then some 0 else none
    let given := giveMultiblockDirectory .sample [] faults directory
    given.raised = none ∧
      directory.expandWith (Registry.expansion []) ≠ some (contentOf given.items) := by
  decide

-- A reader that runs to its end has given the whole expansion exactly where every part is
-- there and no read of the chunks of a part or of a file block has failed before the last.
theorem giveMultiblockDirectory_whole (env : Enviroment) (registry : Registry) (faults : Faults)
    (directory : Directory) (ignoreBlocks : Bool) (depth : Nat)
    (hends : (giveMultiblockDirectory env registry faults directory ignoreBlocks depth).raised =
      none) :
    directory.expandWith registry.expansion =
        some (contentOf
          (giveMultiblockDirectory env registry faults directory ignoreBlocks depth).items) ↔
      ∀ entries content, ChunkFile registry directory entries content →
        ∃ bytes, content = some bytes ∧
          ∀ k, faults entries .chunks = some k → (readFileByChunks bytes).length ≤ k := by
  have h := (tells_directory directory ignoreBlocks depth faults
    (tells_block (registry.length + 1)) hends).1
  simp only [InFull, List.append_nil] at h
  exact h

theorem giveMultiblockDirectory_whole_sample :
    let directory : Directory :=
      { parts := [(1, [7]), (2, [])], json := [.part 1, .block [1, 5, 6] [0], .part 2] }
    let faults : Faults := fun entries read =>
      if entries = [0] ∧ read = .chunks then some 1 else none
    directory.expandWith Registry.sample.expansion =
        some (contentOf
          (giveMultiblockDirectory .sample Registry.sample faults directory false 1).items) ↔
      ∀ entries content, ChunkFile Registry.sample directory entries content →
        ∃ bytes, content = some bytes ∧
          ∀ k, faults entries .chunks = some k → (readFileByChunks bytes).length ≤ k := by
  intro directory faults
  exact giveMultiblockDirectory_whole .sample Registry.sample faults directory false 1 (by decide)

end

end BeeRpc
