import BeeRpc.Nesting
import BeeRpc.Rewriting

namespace BeeRpc

open Wire Naming

section

variable (env : Enviroment) (registry : Registry)

-- What the metadata promises about a block: the varint at the last of its positions, read in the
-- expanded stream, is how many bytes it expands to.
def Directory.States (directory : Directory) (entry : BlockId × List Nat) : Prop :=
  ∃ expanded last content, directory.expandWith registry.expansion = some expanded ∧
    entry.2.getLast? = some last ∧ registry.expansion entry.1 = some content ∧
    Varint.decode? (expanded.drop last) = some content.length

-- What validate_lengths_tree asks for: the number that is read there may be short of the block by
-- the length of a pointer, and be any larger one.
def WbpInput.Passes (input : WbpInput) (entry : BlockId × List Nat) : Prop :=
  ∃ last stated pointerLength content, entry.2.getLast? = some last ∧
    getVarintAtPosition registry last input.fileList = .ok stated ∧
    input.pointerLengths.lookup last = some pointerLength ∧
    registry.expansion entry.1 = some content ∧ content.length ≤ stated + pointerLength

-- It gets by with a wrong number: the bytes from its last position to the end of their file read
-- as one that passes, and the varint there states another number than the block's length. Where
-- it runs on behind its file, what it states is read on in the stream.
def WbpInput.Slips (input : WbpInput) (entry : BlockId × List Nat) : Prop :=
  ∃ last file offset pointerLength content, entry.2.getLast? = some last ∧
    seekExpandedPosition registry last input.fileList = .ok (file, offset) ∧
    input.pointerLengths.lookup last = some pointerLength ∧
    registry.expansion entry.1 = some content ∧
    content.length ≤ Varint.decodeUpToEnd (file.drop offset) + pointerLength ∧
    ((∃ value, Varint.decode? (file.drop offset) = some value ∧ value ≠ content.length) ∨
      Varint.decode? (file.drop offset) = none ∧
        Varint.decode? ((expandedFileList registry input.fileList).drop last) ≠ some content.length)

-- The number that is read at a position, and what a block leaves out when its pointer takes its
-- place there.
def WbpInput.stated (input : WbpInput) (position : Nat) : Nat :=
  match getVarintAtPosition registry position input.fileList with
  | .ok value => value
  | .error _ => 0

def WbpInput.gone (input : WbpInput) (position : Nat) (id : BlockId) : Int :=
  (registry.content id).length - (input.pointerLengths.lookup position).getD 0

-- What is in the tree of the position lists, in the order in which they were gathered.
def WbpInput.tree (input : WbpInput) : LengthsTree := .nest input.blocks.ungroup

-- What an object has to be for a pointer form to be written: no block is longer than what is
-- stated and its pointer, no position list goes on from an earlier one, every field states at
-- least what the fields in it lose, and all varints to be rewritten lie in the parts.
structure WbpInput.Taken (input : WbpInput) (directory : Directory) : Prop where
  passes : ∀ entry ∈ directory.blocks, input.Passes registry entry
  ordered : input.blocks.ungroup.Pairwise fun outer inner => ¬ LengthsTree.Around outer.2 inner.2
  enough : input.tree.Enough (input.stated registry) (input.gone registry)
  inParts : ∀ position ∈ input.tree.positions, InPart registry input.buffer position

-- What generate_wbp_file has gathered when it has gone through `_.json`.
structure WbpInput.Gathered (input : WbpInput) (directory : Directory) : Prop where
  blocks : input.blocks = Dict.group directory.blocks
  runs : directory.runs directory.json = some input.buffer
  chains : ∀ entry ∈ directory.blocks, entry.2 ≠ [] ∧ entry.2.IsChain (· ≤ ·)

end

section

variable {env : Enviroment} {registry : Registry}

theorem forM_eq_ok {ε α : Type} (items : List α) (check : α → Except ε Unit) :
    items.forM check = .ok () ↔ ∀ item ∈ items, check item = .ok () := by
  induction items with
  | nil => exact ⟨fun _ _ h => absurd h List.not_mem_nil, fun _ => rfl⟩
  | cons item items ih =>
      rw [List.forall_mem_cons, ← ih]
      change (check item >>= fun _ => items.forM check) = .ok () ↔ _
      rw [bind_eq_ok]
      exact ⟨fun ⟨_, hitem, hrest⟩ => ⟨hitem, hrest⟩, fun ⟨hitem, hrest⟩ => ⟨(), hitem, hrest⟩⟩

theorem validateChain_eq_ok (input : WbpInput) (entry : BlockId × List Nat) :
    validateChain registry input entry.1 entry.2 = .ok () ↔ input.Passes registry entry := by
  unfold validateChain WbpInput.Passes
  cases entry.2.getLast? with
  | none => simp
  | some last =>
      simp only [Option.some.injEq, exists_and_left, exists_eq_left']
      cases getVarintAtPosition registry last input.fileList with
      | error e => simp
      | ok stated =>
          simp only [Except.ok.injEq, exists_eq_left']
          cases input.pointerLengths.lookup last with
          | none => simp
          | some pointerLength =>
              simp only [Option.some.injEq, exists_eq_left']
              cases hexpansion : registry.expansion entry.1 with
              | none =>
                  have hmissing : ∀ length,
                      getPrunedBlockLength registry entry.1 pointerLength ≠ .ok length := by
                    intro length h
                    obtain ⟨measured, hmeasured, -⟩ := bind_eq_ok.mp h
                    obtain ⟨content, hcontent⟩ := expansion_of_getExpandedBlockLength hmeasured
                    rw [hexpansion] at hcontent
                    cases hcontent
                  refine iff_of_false (fun h => ?_) (fun ⟨content, h, _⟩ => by cases h)
                  simp only [ok_bind] at h
                  obtain ⟨length, hlength, -⟩ := bind_eq_ok.mp h
                  exact hmissing length hlength
              | some content =>
                  simp only [getPrunedBlockLength_of_expansion hexpansion, ok_bind, Option.some.injEq,
                    exists_eq_left']
                  split
                  · exact iff_of_false (fun h => by cases h) (by omega)
                  · exact iff_of_true rfl (by omega)

-- What has been gathered of the entries.
theorem loadEntry_gathers {directory : Directory} {omitTypes : Bool} (entries : List JsonEntry)
    {input loaded : WbpInput}
    (h : entries.foldlM (loadEntry env directory omitTypes) input = .ok loaded) :
    loaded.blocks = (Directory.blocks { directory with json := entries }).foldl
      (fun d entry => Dict.append entry.1 entry.2 d) input.blocks ∧
      (∃ runs, directory.runs entries = some runs ∧ loaded.buffer = input.buffer ++ runs) ∧
      ∀ entry ∈ Directory.blocks { directory with json := entries },
        entry.2 ≠ [] ∧ entry.2.IsChain (· ≤ ·) := by
  induction entries generalizing input with
  | nil =>
      obtain rfl := Except.ok.inj h
      exact ⟨rfl, ⟨[], rfl, (List.append_nil _).symm⟩, fun _ h => absurd h List.not_mem_nil⟩
  | cons entry entries ih =>
      rw [List.foldlM_cons, bind_eq_ok] at h
      obtain ⟨next, hnext, hrest⟩ := h
      obtain ⟨hblocks, ⟨runs, hruns, hbuffer⟩, hchains⟩ := ih hrest
      cases entry with
      | part index =>
          rw [loadEntry] at hnext
          split at hnext
          · cases hnext
          · rename_i content hpart
            obtain rfl := Except.ok.inj hnext
            refine ⟨hblocks, ⟨_, runs_part_eq_some.mpr ⟨content, runs, hpart, hruns, rfl⟩, ?_⟩, hchains⟩
            rw [hbuffer, List.append_assoc]
            rfl
      | block id positions =>
          rw [loadEntry] at hnext
          split at hnext
          · cases hnext
          · rename_i last hlast
            split at hnext
            · rename_i hsorted
              obtain rfl := Except.ok.inj hnext
              refine ⟨hblocks, ⟨_, runs_block_eq_some.mpr ⟨runs, hruns, rfl⟩, ?_⟩, ?_⟩
              · rw [hbuffer, List.append_assoc]
                rfl
              · refine List.forall_mem_cons.mpr ⟨⟨fun hnil => ?_, hsorted⟩, hchains⟩
                rw [show positions = [] from hnil] at hlast
                cases hlast
            · cases hnext

theorem gathered_of_load {directory : Directory} {omitTypes : Bool} {input : WbpInput}
    (h : directory.json.foldlM (loadEntry env directory omitTypes) {} = .ok input) :
    input.Gathered directory := by
  obtain ⟨hblocks, ⟨runs, hruns, hbuffer⟩, hchains⟩ := loadEntry_gathers directory.json h
  exact ⟨hblocks, hruns.trans (congrArg some hbuffer.symm), hchains⟩

theorem validateLengthsTree_eq_ok {directory : Directory} {input : WbpInput}
    (hblocks : input.blocks = Dict.group directory.blocks) :
    validateLengthsTree registry input = .ok () ↔
      ∀ entry ∈ directory.blocks, input.Passes registry entry := by
  rw [validateLengthsTree, forM_eq_ok, hblocks]
  simp only [validateChain_eq_ok]
  constructor
  · exact fun h entry he => h entry ((Dict.ungroup_group _).mem_iff.mpr he)
  · exact fun h entry he => h entry ((Dict.ungroup_group _).mem_iff.mp he)

theorem mem_runs {directory : Directory} {entries : List JsonEntry}
    {runs : List (Bytes ⊕ BlockId)} (h : directory.runs entries = some runs) (id : BlockId)
    (hid : .inr id ∈ runs) :
    ∃ positions, (id, positions) ∈ Directory.blocks { directory with json := entries } := by
  induction entries generalizing runs with
  | nil =>
      obtain rfl := Option.some.inj h
      exact absurd hid List.not_mem_nil
  | cons entry entries ih =>
      cases entry with
      | part index =>
          obtain ⟨content, more, -, hmore, rfl⟩ := runs_part_eq_some.mp h
          exact ih hmore ((List.mem_cons.mp hid).resolve_left (by simp))
      | block other positions =>
          obtain ⟨more, hmore, rfl⟩ := runs_block_eq_some.mp h
          rcases List.mem_cons.mp hid with heq | hid
          · obtain rfl := Sum.inr.inj heq
            exact ⟨positions, List.mem_cons_self ..⟩
          · obtain ⟨others, hothers⟩ := ih hmore hid
            exact ⟨others, List.mem_cons_of_mem _ hothers⟩

theorem expandedFileList_runs (runs : List (Bytes ⊕ BlockId)) :
    expandedFileList registry (runs.map Path.ofRun) =
      runs.flatMap fun run => run.elim id registry.content := by
  rw [expandedFileList, List.flatMap_map]
  exact congrArg (runs.flatMap ·) (funext fun run => by cases run <;> rfl)

section

variable {directory : Directory} {input : WbpInput} (hgathered : input.Gathered directory)
  (hpasses : ∀ entry ∈ directory.blocks, input.Passes registry entry)

include hgathered hpasses

theorem gathered_whole (id : BlockId) (hid : .inr id ∈ input.buffer) :
    ∃ content, registry.expansion id = some content := by
  obtain ⟨positions, hentry⟩ := mem_runs hgathered.runs id hid
  obtain ⟨_, _, _, content, -, -, -, hcontent, -⟩ := hpasses (id, positions) hentry
  exact ⟨content, hcontent⟩

theorem gathered_expands :
    directory.expandWith registry.expansion = some (expandedFileList registry input.fileList) := by
  rw [WbpInput.fileList, expandedFileList_runs]
  exact expandEntries_of_runs registry.expansion registry.content directory.json input.buffer
    hgathered.runs fun id hid => Registry.content_eq (gathered_whole hgathered hpasses id hid)

theorem fileList_whole (id : BlockId) (hid : Path.block id ∈ input.fileList) :
    ∃ content, registry.expansion id = some content := by
  obtain ⟨run, hrun, heq⟩ := List.mem_map.mp hid
  cases run with
  | inl content => cases heq
  | inr other =>
      obtain rfl := Path.block.inj heq
      exact gathered_whole hgathered hpasses other hrun

-- What can be read further behind can be read here.
theorem stated_of_le {position last value : Nat} (hle : position ≤ last)
    (hlast : getVarintAtPosition registry last input.fileList = .ok value) :
    getVarintAtPosition registry position input.fileList = .ok (input.stated registry position) := by
  have hresolves := fun position => seekExpandedPosition_resolves input.fileList position
    fun id hid => Registry.expansion_iff_whole.mp (fileList_whole hgathered hpasses id hid)
  have hinside : position < (expandedFileList registry input.fileList).length := by
    by_contra hpast
    have hrefused := ((hresolves last).2.2 (by omega)).2
    rw [hlast] at hrefused
    cases hrefused
  obtain ⟨_, file, offset, -, -, hseek, -⟩ := (hresolves position).1 hinside
  have hread : getVarintAtPosition registry position input.fileList =
      .ok (Varint.decodeUpToEnd (file.drop offset)) := by
    rw [getVarintAtPosition, hseek]
    rfl
  rw [WbpInput.stated, hread]

theorem tree_reads : input.tree.Reads registry input.fileList input.pointerLengths
    (input.stated registry) (input.gone registry) := by
  refine LengthsTree.all_nest fun entry he => ?_
  rw [hgathered.blocks] at he
  have hentry := (Dict.ungroup_group _).mem_iff.mp he
  obtain ⟨last, value, length, content, hlast, hread, hlength, hcontent, hle⟩ := hpasses entry hentry
  constructor
  · intro other hother
    obtain rfl := Option.some.inj (hlast.symm.trans hother)
    have hstated := stated_of_le hgathered hpasses (Nat.le_refl last) hread
    have hvalue : value = input.stated registry last := Except.ok.inj (hread.symm.trans hstated)
    have hgone : input.gone registry last entry.1 = content.length - length := by
      rw [WbpInput.gone, hlength, content_of_expansion hcontent, Option.getD_some]
    refine ⟨hstated, ?_, length, hlength, ?_⟩
    · rw [hgone, ← hvalue]
      omega
    · rw [hgone]
      exact getPrunedBlockLength_of_expansion hcontent length
  · intro position hposition
    have hsorted : entry.2.Pairwise (· ≤ ·) :=
      List.isChain_iff_pairwise.mp (hgathered.chains entry hentry).2
    obtain ⟨front, hfront⟩ := List.getLast?_eq_some_iff.mp hlast
    refine stated_of_le hgathered hpasses ?_ hread
    rw [hfront] at hsorted hposition
    rcases List.mem_append.mp hposition with hin | hin
    · exact (List.pairwise_append.mp hsorted).2.2 position hin last (List.mem_singleton_self last)
    · exact Nat.le_of_eq (List.mem_singleton.mp hin)

-- Of an entry that the inequality lets through, the varint states the length or slips.
theorem states_iff_not_slips {entry : BlockId × List Nat} (hentry : entry ∈ directory.blocks) :
    directory.States registry entry ↔ ¬ input.Slips registry entry := by
  obtain ⟨last, value, length, content, hlast, hread, hlength, hcontent, hle⟩ := hpasses entry hentry
  have hexpansion := fileList_whole hgathered hpasses
  have hwithin : Within registry registry.length input.fileList := by
    intro id hid
    obtain ⟨bytes, hbytes⟩ := hexpansion id hid
    exact ⟨bytes, Registry.within_length hbytes⟩
  have hresolves := seekExpandedPosition_resolves input.fileList last
    fun id hid => Registry.expansion_iff_whole.mp (hexpansion id hid)
  have hinside : last < (expandedFileList registry input.fileList).length := by
    by_contra hpast
    have hrefused := (hresolves.2.2 (by omega)).2
    rw [hread] at hrefused
    cases hrefused
  obtain ⟨left, file, offset, hat, rfl, hseek, hoffset, -⟩ := hresolves.1 hinside
  obtain ⟨right, hright⟩ := hat.mem hwithin
  have hvalue : value = Varint.decodeUpToEnd (file.drop offset) := by
    rw [getVarintAtPosition, hseek] at hread
    exact (Except.ok.inj hread).symm
  have hdrop : (expandedFileList registry input.fileList).drop (left.length + offset) =
      file.drop offset ++ right := by
    rw [hright, List.append_assoc, ← List.drop_drop, List.drop_left,
      List.drop_append_of_le_length (Nat.le_of_lt hoffset)]
  have hstates : directory.States registry entry ↔
      Varint.decode? (file.drop offset ++ right) = some content.length := by
    simp only [Directory.States, gathered_expands hgathered hpasses, hlast, hcontent,
      Option.some.injEq, exists_and_left, exists_eq_left', hdrop]
  have hslips : input.Slips registry entry ↔
      (∃ value, Varint.decode? (file.drop offset) = some value ∧ value ≠ content.length) ∨
        Varint.decode? (file.drop offset) = none ∧
          Varint.decode? (file.drop offset ++ right) ≠ some content.length := by
    rw [← hdrop]
    constructor
    · rintro ⟨_, _, _, _, _, hlast', hseek', -, hcontent', -, hslips⟩
      obtain rfl := Option.some.inj (hlast.symm.trans hlast')
      obtain ⟨rfl, rfl⟩ := Prod.mk.inj (Except.ok.inj (hseek.symm.trans hseek'))
      obtain rfl := Option.some.inj (hcontent.symm.trans hcontent')
      exact hslips
    · exact fun hslips => ⟨_, file, offset, length, content, hlast, hseek, hlength, hcontent,
        hvalue ▸ hle, hslips⟩
  rw [hstates, hslips]
  cases hdecode : Varint.decode? (file.drop offset) with
  | none => simp
  | some stated => simp [Varint.decode?_append hdecode]

end

-- compute_wbp_lengths keeps one length for each position of the tree.
theorem computeWbpLengths_eq_ok {tree : LengthsTree} {fileList : List Path}
    {pointerLengths : Dict Nat Nat} {stated : Nat → Nat} {gone : Nat → BlockId → Int}
    (hreads : tree.Reads registry fileList pointerLengths stated gone) :
    ((∃ lengths, computeWbpLengths registry tree fileList pointerLengths = .ok lengths) ↔
      tree.Enough stated gone) ∧
    ∀ lengths, computeWbpLengths registry tree fileList pointerLengths = .ok lengths →
      (lengths.map Prod.fst).Nodup ∧
        ∀ position, position ∈ lengths.map Prod.fst ↔ position ∈ tree.positions := by
  obtain ⟨hends, hneeds⟩ := collect_wbp tree hreads
  constructor
  · constructor
    · rintro ⟨lengths, h⟩
      obtain ⟨all, hall, -⟩ := bind_eq_ok.mp h
      exact hneeds ⟨all, hall⟩
    · intro henough
      obtain ⟨all, hall, -⟩ := hends henough
      exact ⟨_, by rw [computeWbpLengths, hall]; rfl⟩
  · intro lengths h
    obtain ⟨all, hall, h⟩ := bind_eq_ok.mp h
    obtain rfl := Except.ok.inj h
    obtain ⟨_, hagain, hgathers⟩ := hends (hneeds ⟨all, hall⟩)
    obtain rfl := Except.ok.inj (hall.symm.trans hagain)
    have hkeys : (((Dict.ofList all.flatten).map fun entry => (entry.1, entry.2.1)).map Prod.fst) =
        (Dict.ofList all.flatten).map Prod.fst := by
      rw [List.map_map]
      rfl
    rw [hkeys]
    have hempty : (([] : Dict Nat (Int × Int)).map Prod.fst).Nodup := List.nodup_nil
    refine ⟨Dict.nodup_update hempty _, fun position => ?_⟩
    rw [← hgathers.keys, Dict.ofList, Dict.mem_keys_update]
    simp

-- The buffer takes all lengths where each of the positions lies in a part.
theorem regenerateBuffer_eq_ok (env : Enviroment) {lengths : Dict Nat Int}
    {buffer : List (Bytes ⊕ BlockId)} (omitTypes : Bool) (hnodup : (lengths.map Prod.fst).Nodup)
    (hwhole : ∀ id, .inr id ∈ buffer → ∃ content, registry.expansion id = some content) :
    (∃ wbp, regenerateBuffer env registry lengths buffer omitTypes = .ok wbp) ↔
      ∀ position ∈ lengths.map Prod.fst, InPart registry buffer position := by
  have hperm : (Dict.descending lengths).Perm lengths := List.perm_insertionSort _ lengths
  have hsorted : (Dict.descending lengths).Pairwise fun a b => b.1 < a.1 := by
    have hdistinct : (Dict.descending lengths).Pairwise fun a b => a.1 ≠ b.1 :=
      List.pairwise_map.mp ((hperm.map Prod.fst).nodup_iff.mpr hnodup)
    exact ((List.pairwise_insertionSort (fun a b : Nat × Int => b.1 ≤ a.1) lengths).and hdistinct).imp
      fun h => Nat.lt_of_le_of_ne h.1 h.2.symm
  have hall := setVarintValue_all _ hsorted buffer hwhole
  rw [List.forall_mem_map]
  constructor
  · rintro ⟨wbp, h⟩ entry he
    obtain ⟨changed, hchanged, -⟩ := bind_eq_ok.mp h
    exact hall.mp ⟨changed, hchanged⟩ entry (hperm.mem_iff.mpr he)
  · intro h
    obtain ⟨changed, hchanged⟩ := hall.mpr fun entry he => h entry (hperm.mem_iff.mp he)
    exact ⟨_, by rw [regenerateBuffer, hchanged]; rfl⟩

-- The object is taken exactly where it is what it has to be.
theorem generateWbpFile_eq_ok {directory : Directory} {inherited : Option (List Bytes)}
    {input : WbpInput}
    (hinput : directory.json.foldlM (loadEntry env directory inherited.isSome) {} = .ok input) :
    (∃ written, generateWbpFile env registry directory inherited = .ok written) ↔
      input.Taken registry directory := by
  have hgathered := gathered_of_load hinput
  have hvalid := @validateLengthsTree_eq_ok registry _ _ hgathered.blocks
  have hne : ∀ entry ∈ input.blocks.ungroup, entry.2 ≠ [] := by
    intro entry he
    rw [hgathered.blocks] at he
    exact (hgathered.chains entry ((Dict.ungroup_group _).mem_iff.mp he)).1
  simp only [generateWbpFile, wbpBytes, parts_present _ _ hgathered.runs, Bool.false_eq_true, if_false,
    ok_bind, hinput]
  constructor
  · rintro ⟨written, h⟩
    obtain ⟨wbp, hbytes, -⟩ := bind_eq_ok.mp h
    obtain ⟨_, hvalidated, hbuilt⟩ := bind_eq_ok.mp hbytes
    obtain ⟨tree, htree, hcomputed⟩ := bind_eq_ok.mp hbuilt
    obtain ⟨lengths, hlengths, hwbp⟩ := bind_eq_ok.mp hcomputed
    have hpasses := hvalid.mp hvalidated
    obtain ⟨hordered, rfl⟩ := (LengthsTree.build_nil_eq_ok hne).mp htree
    obtain ⟨henough, hkeys⟩ := computeWbpLengths_eq_ok (tree_reads hgathered hpasses)
    obtain ⟨hnodup, hpositions⟩ := hkeys lengths hlengths
    refine ⟨hpasses, hordered, henough.mp ⟨lengths, hlengths⟩, fun position hposition => ?_⟩
    exact (regenerateBuffer_eq_ok env _ hnodup (gathered_whole hgathered hpasses)).mp ⟨wbp, hwbp⟩ position
      ((hpositions position).mpr hposition)
  · intro h
    have htree : createLengthsTree input.blocks = .ok input.tree :=
      (LengthsTree.build_nil_eq_ok hne).mpr ⟨h.ordered, rfl⟩
    obtain ⟨henough, hkeys⟩ := computeWbpLengths_eq_ok (tree_reads hgathered h.passes)
    obtain ⟨lengths, hlengths⟩ := henough.mpr h.enough
    obtain ⟨hnodup, hpositions⟩ := hkeys lengths hlengths
    obtain ⟨wbp, hwbp⟩ := (regenerateBuffer_eq_ok env inherited.isSome hnodup
      (gathered_whole hgathered h.passes)).mpr fun position hposition =>
        h.inParts position ((hpositions position).mp hposition)
    refine ⟨{ directory with wbp := some wbp }, ?_⟩
    rw [hvalid.mpr h.passes]
    simp only [ok_bind, htree, hlengths, hwbp]
    rfl

-- The last varint of every block that is taken states its length exactly where none slips
-- through, or where the object is not one that a pointer form is written for.
theorem generateWbpFile_states_iff (env : Enviroment) (registry : Registry) (directory : Directory)
    (inherited : Option (List Bytes)) (input : WbpInput)
    (hinput : directory.json.foldlM (loadEntry env directory inherited.isSome) {} = .ok input) :
    ((∃ written, generateWbpFile env registry directory inherited = .ok written) →
        ∀ entry ∈ directory.blocks, directory.States registry entry) ↔
      (∀ entry ∈ directory.blocks, ¬ input.Slips registry entry) ∨
        ¬ input.Taken registry directory := by
  rw [generateWbpFile_eq_ok hinput]
  by_cases htaken : input.Taken registry directory
  · have hstates := fun entry he =>
      @states_iff_not_slips registry _ _ (gathered_of_load hinput) htaken.passes entry he
    rw [or_iff_left (not_not.mpr htaken)]
    exact ⟨fun h entry he => (hstates entry he).mp (h htaken entry he),
      fun h _ entry he => (hstates entry he).mpr (h entry he)⟩
  · exact iff_of_true (fun h => absurd h htaken) (Or.inr htaken)

end

-- A block of two bytes behind a varint that states seven.
def Directory.overstated : Directory where
  parts := [(1, [10, 7]), (2, [])]
  json := [.part 1, .block [1, 5, 6] [1], .part 2]

theorem generateWbpFile_states_iff_sample :
    let input : WbpInput :=
      { blocks := [([1, 5, 6], [[1]])]
        pointerLengths := [(1, blockPointerLength .sample [1, 5, 6] false)]
        buffer := [.inl [10, 7], .inr [1, 5, 6], .inl []] }
    ((∃ written, generateWbpFile .sample .sample .overstated none = .ok written) →
        ∀ entry ∈ Directory.overstated.blocks, Directory.overstated.States .sample entry) ↔
      (∀ entry ∈ Directory.overstated.blocks, ¬ input.Slips .sample entry) ∨
        ¬ input.Taken .sample .overstated :=
  generateWbpFile_states_iff .sample .sample .overstated none _ rfl

-- It is taken all the same, and the pointer form states five more than the pointer has.
theorem generateWbpFile_overstated :
    (∃ written, generateWbpFile .sample .sample .overstated none = .ok written) ∧
      Directory.overstated.expandWith Registry.sample.expansion = some [10, 7, 5, 6] ∧
      Varint.decode? ([10, 7, 5, 6].drop 1) = some 7 ∧
      Registry.sample.expansion [1, 5, 6] = some [5, 6] ∧
      ¬ ∀ entry ∈ Directory.overstated.blocks, Directory.overstated.States .sample entry := by
  have hexpand : Directory.overstated.expandWith Registry.sample.expansion =
      some [10, 7, 5, 6] := by decide
  have hblock : Registry.sample.expansion [1, 5, 6] = some [5, 6] := by decide
  refine ⟨⟨{ Directory.overstated with wbp := some ([10, 15] ++ blockPointerBytes .sample [1, 5, 6]) },
    by decide⟩, hexpand, by decide, hblock, fun h => ?_⟩
  obtain ⟨expanded, last, content, hexpanded, hlast, hcontent, hstated⟩ :=
    h ([1, 5, 6], [1]) (by decide)
  obtain rfl := Option.some.inj (hexpand.symm.trans hexpanded)
  obtain rfl := Option.some.inj hlast
  obtain rfl := Option.some.inj (hblock.symm.trans hcontent)
  exact absurd hstated (by decide)

end BeeRpc
