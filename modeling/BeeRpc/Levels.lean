import BeeRpc.Rehydrate
import BeeRpc.Transfer

namespace BeeRpc

open Wire

-- No block is reached from itself.
def Registry.Acyclic (registry : Registry) : Prop :=
  ∃ rank : BlockId → Nat, ∀ id directory, registry.lookup id = some (.dir directory) →
    ∀ chain ∈ directory.blocks, rank chain.1 < rank id

-- The blocks directly inside a block, with their positions.
def Registry.blocksOf (registry : Registry) (id : BlockId) : List (BlockId × List Nat) :=
  match registry.lookup id with
  | some (.dir directory) => directory.blocks
  | _ => []

-- What a block of the registry expands to.
def Registry.whole (env : Enviroment) (registry : Registry) (id : BlockId) : Option Bytes :=
  (AtRest.left env { registry }).value id

namespace Forest

-- The content with that of the blocks, as it stands between their markers.
def content : Forest → Bytes
  | nil => []
  | chunk _ content rest => content ++ rest.content
  | block _ _ body rest => body.content ++ rest.content

-- How many blocks are open at once.
def height : Forest → Nat
  | nil => 0
  | chunk _ _ rest => rest.height
  | block _ _ body rest => max (body.height + 1) rest.height

-- No marker stands between the two of its own block.
def Unmixed (around : List BlockId) : Forest → Prop
  | nil => True
  | chunk _ _ rest => rest.Unmixed around
  | block id _ body rest => id ∉ around ∧ body.Unmixed (id :: around) ∧ rest.Unmixed around

end Forest

section

variable (env : Enviroment) (registry : Registry)

-- The blocks that are framed inside a block that stands on a level: its own, as long as the next
-- level is one of those to be framed.
def levelBlocks (depth : Nat) (id : BlockId) : List (BlockId × List Nat) :=
  if depth < env.blockDepth then registry.blocksOf id else []

-- Each block has its expansion between its markers, and the blocks in it framed or not.
def Forest.Levels (depth : Nat) : Forest → Prop
  | .nil => True
  | .chunk _ _ rest => rest.Levels depth
  | .block id _ body rest =>
      registry.whole env id = some body.content ∧ body.blocks = levelBlocks env registry depth id ∧
        body.Levels (depth + 1) ∧ rest.Levels depth

end

namespace Cut

def blocks : Cut → List (BlockId × List Nat)
  | last forest => forest.blocks
  | inside before id positions _ => before.blocks ++ [(id, positions)]

def height : Cut → Nat
  | last forest => forest.height
  | inside before _ _ inner => max before.height (inner.height + 1)

def Unmixed (around : List BlockId) : Cut → Prop
  | last forest => forest.Unmixed around
  | inside before id _ inner => before.Unmixed around ∧ id ∉ around ∧ inner.Unmixed (id :: around)

def Levels (env : Enviroment) (registry : Registry) (depth : Nat) : Cut → Prop
  | last forest => forest.Levels env registry depth
  | inside before id _ inner =>
      before.Levels env registry depth ∧ inner.blocks <+: levelBlocks env registry depth id ∧
        inner.Levels env registry (depth + 1)

end Cut

section

variable {env : Enviroment} {registry : Registry}

theorem append_unmixed (forest more : Forest) (around : List BlockId) :
    (forest.append more).Unmixed around ↔ forest.Unmixed around ∧ more.Unmixed around := by
  induction forest with
  | nil => exact ⟨fun h => ⟨trivial, h⟩, And.right⟩
  | chunk skip content rest ih => exact ih
  | block id positions body rest _ ih => simp only [Forest.append, Forest.Unmixed, ih, and_assoc]

theorem append_levels (forest more : Forest) (depth : Nat) :
    (forest.append more).Levels env registry depth ↔
      forest.Levels env registry depth ∧ more.Levels env registry depth := by
  induction forest with
  | nil => exact ⟨fun h => ⟨trivial, h⟩, And.right⟩
  | chunk skip content rest ih => exact ih
  | block id positions body rest _ ih => simp only [Forest.append, Forest.Levels, ih, and_assoc]

theorem behind_blocks (before : Forest) (cut : Cut) :
    (cut.behind before).blocks = before.blocks ++ cut.blocks := by
  cases cut with
  | last forest => exact append_blocks before forest
  | inside nearer id positions inner =>
      simp only [Cut.behind, Cut.blocks, append_blocks, List.append_assoc]

theorem behind_unmixed {before : Forest} {cut : Cut} {around : List BlockId}
    (hbefore : before.Unmixed around) (hcut : cut.Unmixed around) :
    (cut.behind before).Unmixed around := by
  cases cut with
  | last forest => exact (append_unmixed ..).mpr ⟨hbefore, hcut⟩
  | inside nearer id positions inner => exact ⟨(append_unmixed ..).mpr ⟨hbefore, hcut.1⟩, hcut.2⟩

theorem behind_levels {before : Forest} {cut : Cut} {depth : Nat}
    (hbefore : before.Levels env registry depth) (hcut : cut.Levels env registry depth) :
    (cut.behind before).Levels env registry depth := by
  cases cut with
  | last forest => exact (append_levels ..).mpr ⟨hbefore, hcut⟩
  | inside nearer id positions inner => exact ⟨(append_levels ..).mpr ⟨hbefore, hcut.1⟩, hcut.2⟩

-- Where no block is framed, none is open; one level further there is one level fewer.
theorem levels_height {forest : Forest} {depth : Nat} (h : forest.Levels env registry depth)
    (hframed : depth ≤ env.blockDepth ∨ forest.blocks = []) :
    forest.height ≤ env.blockDepth + 1 - depth := by
  induction forest generalizing depth with
  | nil => exact Nat.zero_le _
  | chunk skip content rest ih => exact ih h hframed
  | block id positions body rest ihBody ihRest =>
      obtain ⟨-, hblocks, hbody, hrest⟩ := h
      have hdepth := hframed.resolve_right (by simp [Forest.blocks])
      have hrestHeight := ihRest hrest (Or.inl hdepth)
      have hbodyHeight := ihBody hbody (by
        by_cases hdeeper : depth < env.blockDepth
        · exact Or.inl hdeeper
        · exact Or.inr (by rw [hblocks, levelBlocks, if_neg hdeeper]))
      simp only [Forest.height]
      omega

theorem cut_levels_height {cut : Cut} {depth : Nat} (h : cut.Levels env registry depth)
    (hframed : depth ≤ env.blockDepth ∨ cut.blocks = []) :
    cut.height ≤ env.blockDepth + 1 - depth := by
  induction cut generalizing depth with
  | last forest => exact levels_height h hframed
  | inside before id positions inner ih =>
      obtain ⟨hbefore, hblocks, hinner⟩ := h
      have hdepth := hframed.resolve_right (by simp [Cut.blocks])
      have hbeforeHeight := levels_height hbefore (Or.inl hdepth)
      have hinnerHeight := ih hinner (by
        by_cases hdeeper : depth < env.blockDepth
        · exact Or.inl hdeeper
        · rw [levelBlocks, if_neg hdeeper] at hblocks
          exact Or.inr (List.prefix_nil.mp hblocks))
      simp only [Cut.height]
      omega

theorem stream_content (forest : Forest) :
    (forest.stream env).flatMap Buffer.content = forest.content := by
  induction forest with
  | nil => rfl
  | chunk skip content rest ih => exact congrArg (content ++ ·) ih
  | block id positions body rest ihBody ihRest =>
      have hmarker : (marker env id positions).content = [] := rfl
      simp only [Forest.stream, Forest.content, List.flatMap_append, List.flatMap_cons, hmarker, ihBody,
        ihRest, List.nil_append]

theorem contentOf_forest {items : List (Bytes ⊕ Block)} {forest : Forest}
    (h : items.map Buffer.ofItem = forest.stream env) : contentOf items = forest.content := by
  rw [← @stream_content env, ← h, List.flatMap_map]
  exact congrArg (items.flatMap ·) (funext fun item => by cases item <;> rfl)

theorem contentOf_filter (items : List (Bytes ⊕ Block)) :
    contentOf (items.filter Sum.isLeft) = contentOf items := by
  induction items with
  | nil => rfl
  | cons item items ih =>
      cases item with
      | inl content => exact congrArg (content ++ ·) ih
      | inr block => exact ih

end

section

variable (env : Enviroment) (registry : Registry)

-- How a reading with markers goes with the reading without: they end or raise alike, the same
-- pieces come in between, and the markers frame what they should as far as it has come.
structure FramesLike (depth : Nat) (around : List BlockId) (blocks : List (BlockId × List Nat))
    (framed flat : Yielded (Bytes ⊕ Block)) : Prop where
  raised : framed.raised = flat.raised
  pieces : framed.items.filter Sum.isLeft = flat.items
  levels : ∃ cut : Cut, framed.items.map Buffer.ofItem = cut.stream env ∧ cut.blocks <+: blocks ∧
    cut.Levels env registry depth ∧ cut.Unmixed around ∧
      (framed.raised = none → ∃ forest, cut = .last forest ∧ forest.blocks = blocks)

end

section

variable {env : Enviroment} {registry : Registry}

-- The blocks of the entries of a `_.json`.
def entryBlocks (entries : List JsonEntry) : List (BlockId × List Nat) :=
  Directory.blocks { parts := [], json := entries }

theorem pieces_levels (chunks : List Bytes) (rest : Forest) (depth : Nat) :
    (Forest.pieces chunks rest).Levels env registry depth ↔ rest.Levels env registry depth := by
  induction chunks with
  | nil => rfl
  | cons content chunks ih => exact ih

theorem pieces_unmixed (chunks : List Bytes) (rest : Forest) (around : List BlockId) :
    (Forest.pieces chunks rest).Unmixed around ↔ rest.Unmixed around := by
  induction chunks with
  | nil => rfl
  | cons content chunks ih => exact ih

theorem pieces_isLeft (chunks : List Bytes) :
    (chunks.map (Sum.inl : Bytes → Bytes ⊕ Block)).filter Sum.isLeft = chunks.map .inl :=
  List.filter_eq_self.mpr fun item hitem => by
    obtain ⟨chunk, -, rfl⟩ := List.mem_map.mp hitem
    rfl

-- Content alone.
theorem framesLike_pieces (depth : Nat) (around : List BlockId) (chunks : List Bytes)
    (raised : Option Err) (blocks : List (BlockId × List Nat))
    (hblocks : raised = none → blocks = []) :
    FramesLike env registry depth around blocks ⟨chunks.map .inl, raised⟩ ⟨chunks.map .inl, raised⟩ where
  raised := rfl
  pieces := pieces_isLeft chunks
  levels := by
    refine ⟨.last (Forest.pieces chunks .nil), ?_, ?_, (pieces_levels ..).mpr trivial,
      (pieces_unmixed ..).mpr trivial, fun h => ⟨_, rfl, ?_⟩⟩
    · rw [map_ofItem_pieces, Cut.stream, Forest.pieces_stream, Forest.stream, List.append_nil]
    · rw [Cut.blocks, Forest.pieces_blocks]
      exact List.nil_prefix
    · rw [Forest.pieces_blocks, hblocks h]
      rfl

-- With more content in front.
theorem FramesLike.behind {depth : Nat} {around : List BlockId}
    {blocks : List (BlockId × List Nat)} {framed flat : Yielded (Bytes ⊕ Block)}
    (h : FramesLike env registry depth around blocks framed flat) (chunks : List Bytes) :
    FramesLike env registry depth around blocks ((Yielded.pure (chunks.map .inl)).andThen framed)
      ((Yielded.pure (chunks.map .inl)).andThen flat) where
  raised := h.raised
  pieces := by
    rw [Yielded.pure_andThen, Yielded.pure_andThen, List.filter_append, pieces_isLeft, h.pieces]
  levels := by
    obtain ⟨cut, hstream, hblocks, hlevels, hunmixed, hended⟩ := h.levels
    have hbefore : (Forest.pieces chunks .nil).blocks = [] := Forest.pieces_blocks ..
    refine ⟨cut.behind (Forest.pieces chunks .nil), ?_, ?_,
      behind_levels ((pieces_levels ..).mpr trivial) hlevels,
      behind_unmixed ((pieces_unmixed ..).mpr trivial) hunmixed, fun hnone => ?_⟩
    · rw [Yielded.pure_andThen, List.map_append, map_ofItem_pieces, hstream, behind_stream,
        Forest.pieces_stream, Forest.stream, List.append_nil]
    · rwa [behind_blocks, hbefore, List.nil_append]
    · obtain ⟨forest, rfl, hforest⟩ := hended hnone
      exact ⟨_, rfl, by rw [append_blocks, hbefore, List.nil_append, hforest]⟩

-- A block between its markers, with what comes after it.
theorem FramesLike.block {depth : Nat} {around : List BlockId} {blocks : List (BlockId × List Nat)}
    {id : BlockId} {inside insideFlat framed flat : Yielded (Bytes ⊕ Block)}
    (hinside : FramesLike env registry (depth + 1) (id :: around) (levelBlocks env registry depth id)
      inside insideFlat)
    (hwhole : insideFlat.raised = none → registry.whole env id = some (contentOf insideFlat.items))
    (hnew : id ∉ around) (h : FramesLike env registry depth around blocks framed flat)
    (positions : List Nat) :
    let mark : Block := { blockPointer env id with previousLengthsPosition := positions }
    FramesLike env registry depth around ((id, positions) :: blocks)
      (((Yielded.pure [.inr mark]).andThen (inside.andThen (.pure [.inr mark]))).andThen framed)
      (insideFlat.andThen flat) := by
  intro mark
  obtain ⟨inner, hinner, hinnerBlocks, hinnerLevels, hinnerUnmixed, hinnerEnded⟩ := hinside.levels
  obtain ⟨cut, hstream, hblocks, hlevels, hunmixed, hended⟩ := h.levels
  have hmark : Buffer.ofItem (.inr mark) = marker env id positions := rfl
  obtain ⟨items, raised⟩ := inside
  obtain ⟨flatItems, flatRaised⟩ := insideFlat
  obtain rfl : raised = flatRaised := hinside.raised
  have hpieces : items.filter Sum.isLeft = flatItems := hinside.pieces
  cases raised with
  | some e =>
      -- it raises inside the block
      refine ⟨rfl, hpieces, .inside .nil id positions inner, ?_, ?_,
        ⟨trivial, hinnerBlocks, hinnerLevels⟩, ⟨trivial, hnew, hinnerUnmixed⟩, fun h => by cases h⟩
      · exact congrArg (marker env id positions :: ·) hinner
      · exact List.cons_prefix_cons.mpr ⟨rfl, List.nil_prefix⟩
  | none =>
      obtain ⟨body, rfl, hbody⟩ := hinnerEnded rfl
      have hcontent : registry.whole env id = some body.content := by
        rw [hwhole rfl, ← hpieces, contentOf_filter, contentOf_forest hinner]
      have hitems : (((Yielded.pure [.inr mark]).andThen
          ((⟨items, none⟩ : Yielded (Bytes ⊕ Block)).andThen (.pure [.inr mark]))).andThen
            framed).items = .inr mark :: (items ++ .inr mark :: framed.items) := by
        simp only [Yielded.andThen, Yielded.pure, List.cons_append, List.nil_append,
          List.append_assoc]
      refine ⟨h.raised, ?_, cut.behind (.block id positions body .nil), ?_, ?_,
        behind_levels ⟨hcontent, hbody, hinnerLevels, trivial⟩ hlevels,
        behind_unmixed ⟨hnew, hinnerUnmixed, trivial⟩ hunmixed, fun hnone => ?_⟩
      · have hmarks : ∀ more : List (Bytes ⊕ Block),
            (Sum.inr mark :: more).filter Sum.isLeft = more.filter Sum.isLeft := fun more => rfl
        rw [hitems, hmarks, List.filter_append, hmarks, hpieces, h.pieces]
        rfl
      · rw [hitems, behind_stream, List.map_cons, List.map_append, List.map_cons, hinner, hstream, hmark]
        simp only [Forest.stream, Cut.stream, List.cons_append, List.append_assoc, List.nil_append]
      · rw [behind_blocks]
        exact List.cons_prefix_cons.mpr ⟨rfl, hblocks⟩
      · obtain ⟨forest, rfl, hforest⟩ := hended hnone
        exact ⟨_, rfl, congrArg ((id, positions) :: ·) hforest⟩

-- The entries of a `_.json` on a level that is framed.
theorem readEntries_levels {read : Bool → Nat → BlockId → Yielded (Bytes ⊕ Block)}
    {directory : Directory} {depth : Nat} {around : List BlockId} (entries : List JsonEntry)
    (hread : ∀ chain ∈ entryBlocks entries, chain.1 ∉ around ∧
      FramesLike env registry (depth + 1) (chain.1 :: around) (levelBlocks env registry depth chain.1)
        (read (!decide (depth < env.blockDepth)) (depth + 1) chain.1) (read true 1 chain.1) ∧
      ((read true 1 chain.1).raised = none →
        registry.whole env chain.1 = some (contentOf (read true 1 chain.1).items))) (other : Nat) :
    FramesLike env registry depth around (entryBlocks entries)
      (readEntries env read directory false depth entries)
      (readEntries env read directory true other entries) := by
  induction entries with
  | nil => exact framesLike_pieces depth around [] none [] fun _ => rfl
  | cons entry entries ih =>
      cases entry with
      | part index => exact (ih hread).behind _
      | block id positions =>
          obtain ⟨hnew, hframes, hwhole⟩ := hread (id, positions) (List.mem_cons_self ..)
          have hrest := ih fun chain hchain => hread chain (List.mem_cons_of_mem _ hchain)
          exact hframes.block hwhole hnew hrest positions

-- Without markers the depth does not matter, and there is nothing but content.
theorem readEntries_depth {read : Bool → Nat → BlockId → Yielded (Bytes ⊕ Block)}
    (directory : Directory) (depth other : Nat) (entries : List JsonEntry) :
    readEntries env read directory true depth entries =
      readEntries env read directory true other entries := by
  induction entries with
  | nil => rfl
  | cons entry entries ih =>
      cases entry with
      | part index => exact congrArg (Yielded.andThen _) ih
      | block id positions => exact congrArg (Yielded.andThen (read true 1 id)) ih

def Yielded.Plain (read : Yielded (Bytes ⊕ Block)) : Prop :=
  ∃ chunks : List Bytes, read.items = chunks.map .inl

theorem plain_andThen {first second : Yielded (Bytes ⊕ Block)} (hfirst : first.Plain)
    (hsecond : second.Plain) : (first.andThen second).Plain := by
  obtain ⟨chunks, hchunks⟩ := hfirst
  obtain ⟨more, hmore⟩ := hsecond
  unfold Yielded.andThen
  split
  · exact ⟨chunks, hchunks⟩
  · exact ⟨chunks ++ more, by rw [List.map_append, ← hchunks, ← hmore]⟩

theorem readEntries_plain {read : Bool → Nat → BlockId → Yielded (Bytes ⊕ Block)}
    (hread : ∀ id, (read true 1 id).Plain) (directory : Directory) (depth : Nat)
    (entries : List JsonEntry) : (readEntries env read directory true depth entries).Plain := by
  induction entries with
  | nil => exact ⟨[], rfl⟩
  | cons entry entries ih =>
      cases entry with
      | part index => exact plain_andThen ⟨_, rfl⟩ ih
      | block id positions => exact plain_andThen (hread id) ih

theorem readBlockLoop_plain (fuel depth : Nat) (id : BlockId) :
    (readBlockLoop env registry fuel true depth id).Plain := by
  induction fuel generalizing depth id with
  | zero => exact ⟨[], rfl⟩
  | succ fuel ih =>
      rw [readBlockLoop]
      cases registry.lookup id with
      | none => exact ⟨[], rfl⟩
      | some stored =>
          cases stored with
          | file content =>
              simp only
              split
              · exact ⟨[], rfl⟩
              · exact ⟨_, rfl⟩
          | dir directory => exact readEntries_plain (ih 1) directory depth _

theorem framesLike_plain {depth : Nat} {around : List BlockId} {blocks : List (BlockId × List Nat)}
    {read : Yielded (Bytes ⊕ Block)} (h : read.Plain) (hblocks : read.raised = none → blocks = []) :
    FramesLike env registry depth around blocks read read := by
  obtain ⟨items, raised⟩ := read
  obtain ⟨chunks, rfl⟩ := h
  exact framesLike_pieces depth around chunks raised blocks hblocks

theorem whole_of_read {fuel depth : Nat} {id : BlockId}
    (h : (readBlockLoop env registry fuel true depth id).raised = none) :
    registry.whole env id = some (contentOf (readBlockLoop env registry fuel true depth id).items) := by
  have hwhole := @readBlockLoop_whole env { registry } fuel id
  rw [readBlockLoop_loaded (fun _ => rfl) fuel depth id, Yielded.whole, h] at hwhole
  exact (AtRest.left env { registry }).value_of_within fuel id _ hwhole.symm

-- A block on a level that is framed or not, with all blocks around it of a higher rank.
theorem readBlockLoop_levels {rank : BlockId → Nat}
    (hrank : ∀ id directory, registry.lookup id = some (.dir directory) →
      ∀ chain ∈ directory.blocks, rank chain.1 < rank id) (fuel : Nat) :
    ∀ (depth : Nat) (id : BlockId) (around : List BlockId), (∀ other ∈ around, rank id ≤ rank other) →
      FramesLike env registry (depth + 1) around (levelBlocks env registry depth id)
        (readBlockLoop env registry fuel (!decide (depth < env.blockDepth)) (depth + 1) id)
        (readBlockLoop env registry fuel true 1 id) := by
  induction fuel with
  | zero => exact fun depth id around _ => framesLike_plain ⟨[], rfl⟩ fun h => by cases h
  | succ fuel ih =>
      intro depth id around haround
      rw [readBlockLoop, readBlockLoop, levelBlocks, Registry.blocksOf]
      cases hl : registry.lookup id with
      | none => exact framesLike_plain ⟨[], rfl⟩ fun h => by cases h
      | some stored =>
          cases stored with
          | file content =>
              simp only [ite_self]
              split
              · exact framesLike_plain ⟨[], rfl⟩ fun h => by cases h
              · exact framesLike_plain ⟨_, rfl⟩ fun _ => rfl
          | dir directory =>
              simp only
              by_cases hdeeper : depth < env.blockDepth
              · rw [if_pos hdeeper, decide_eq_true hdeeper, Bool.not_true]
                refine readEntries_levels directory.json (fun chain hchain => ?_) 1
                have hlower := hrank id directory hl chain hchain
                refine ⟨fun hmem => ?_, ih (depth + 1) chain.1 _ fun other hother => ?_, whole_of_read⟩
                · exact absurd (haround _ hmem) (Nat.not_le.mpr hlower)
                · rcases List.mem_cons.mp hother with rfl | hother
                  · exact Nat.le_refl _
                  · exact hlower.le.trans (haround other hother)
              · rw [if_neg hdeeper, decide_eq_false hdeeper, Bool.not_false, readEntries_depth _ _ 1]
                exact framesLike_plain (readEntries_plain (readBlockLoop_plain fuel 1) directory 1 _)
                  fun _ => rfl

-- Every marker states the type of its hash.
theorem forest_stream_typed (forest : Forest) : ∀ b ∈ forest.stream env, ∀ block ∈ b.block,
    ∃ id, block.hashes = [⟨env.hashType, id⟩] := by
  refine forall_mem_stream (fun skip content block hblock => ?_) (fun id positions block hblock => ?_)
    forest
  · cases hblock
  · obtain rfl := Option.some.inj hblock
    exact ⟨id, rfl⟩

theorem cut_stream_typed (cut : Cut) : ∀ b ∈ cut.stream env, ∀ block ∈ b.block,
    ∃ id, block.hashes = [⟨env.hashType, id⟩] := by
  induction cut with
  | last forest => exact forest_stream_typed forest
  | inside before id positions inner ih =>
      intro b hb block hblock
      rcases List.mem_append.mp hb with hb | hb
      · exact forest_stream_typed before b hb block hblock
      · rcases List.mem_cons.mp hb with rfl | hb
        · obtain rfl := Option.some.inj hblock
          exact ⟨id, rfl⟩
        · exact ih b hb block hblock

-- What is all there expands to the same.
theorem whole_of_expansion (hfiles : registry.FilesNamed env) {id : BlockId} {content : Bytes}
    (h : registry.expansion id = some content) : registry.whole env id = some content := by
  refine registry.contents.value_extends (AtRest.left env { registry }) (fun id sub content h => ?_)
    id content h
  have hrule : registry.expandRule id sub = some content := h
  change AtRest.leftRule env { registry } id sub = some content
  rw [Registry.expandRule] at hrule
  rw [AtRest.leftRule]
  cases hl : registry.lookup id with
  | none => simp only [hl, reduceCtorEq] at hrule
  | some stored =>
      cases stored with
      | file bytes =>
          simp only [hl] at hrule ⊢
          rw [if_neg (not_not.mpr (hfiles id bytes hl)), hrule]
      | dir directory =>
          simp only [hl] at hrule
          exact AtRest.leftEntries_of_expand directory sub directory.json content hrule

end

-- Without markers a directory gives what is left of its entries.
theorem readMultiblockDirectory_whole (env : Enviroment) (registry : Registry)
    (directory : Directory) :
    (readMultiblockDirectory env registry directory true).whole =
      AtRest.leftEntries directory (registry.whole env) directory.json := by
  refine readEntries_whole (fun id => ?_) directory 1 directory.json
  have hloaded := @readBlock_loaded env { registry } (fun _ => rfl) id
  rw [Registry.whole, ← readBlock_whole, hloaded]
  rfl

theorem leftEntries_isSome (directory : Directory) (sub : BlockId → Option Bytes)
    (entries : List JsonEntry) :
    (AtRest.leftEntries directory sub entries).isSome ↔
      ∀ chain ∈ entryBlocks entries, (sub chain.1).isSome := by
  induction entries with
  | nil => exact iff_of_true rfl fun _ h => absurd h List.not_mem_nil
  | cons entry entries ih =>
      cases entry with
      | part index =>
          have hblocks : entryBlocks (.part index :: entries) = entryBlocks entries := rfl
          rw [hblocks, ← ih, AtRest.leftEntries]
          cases AtRest.leftEntries directory sub entries <;> rfl
      | block id positions =>
          have hblocks : entryBlocks (.block id positions :: entries) =
              (id, positions) :: entryBlocks entries := rfl
          rw [hblocks, List.forall_mem_cons, ← ih, AtRest.leftEntries]
          cases sub id with
          | none => simp
          | some head => cases AtRest.leftEntries directory sub entries <;> simp

-- It comes to its end exactly where every block that it names is whole.
theorem readMultiblockDirectory_ends (env : Enviroment) (registry : Registry)
    (directory : Directory) :
    (readMultiblockDirectory env registry directory true).raised = none ↔
      ∀ chain ∈ directory.blocks, (registry.whole env chain.1).isSome := by
  have hentries : entryBlocks directory.json = directory.blocks := rfl
  rw [← hentries, ← leftEntries_isSome, ← readMultiblockDirectory_whole, Yielded.whole]
  split
  · rename_i hraised
    simp [hraised]
  · rename_i hended
    simp [hended]

-- The stream of a directory with its blocks framed: the flat stream between markers, which frame
-- each level down to the depth that is sent and none below. Where a block is missing it stops as
-- the flat stream does, inside the blocks that are open then; where all of them are whole it ends,
-- with the directory's expansion in it.
theorem readMultiblockDirectory_levels (env : Enviroment) (registry : Registry)
    (hd : env.Digests) (hfiles : registry.FilesNamed env) (hacyclic : registry.Acyclic)
    (hdepth : 1 ≤ env.blockDepth) (directory : Directory) :
    let framed := readMultiblockDirectory env registry directory false
    let flat := readMultiblockDirectory env registry directory true
    framed.raised = flat.raised ∧ framed.items.filter Sum.isLeft = flat.items ∧
      (∃ cut : Cut, framed.items.map Buffer.ofItem = cut.stream env ∧ cut.Unmixed [] ∧
        cut.height ≤ env.blockDepth ∧ cut.blocks <+: directory.blocks ∧ cut.Levels env registry 1 ∧
        (framed.raised = none → ∃ forest, cut = .last forest ∧ forest.blocks = directory.blocks)) ∧
      (∀ block, .inr block ∈ framed.items → ∃ id, block.hashes = [⟨env.hashType, id⟩]) ∧
      env.hashType ≠ [] ∧
      (framed.raised = none ↔ ∀ chain ∈ directory.blocks, (registry.whole env chain.1).isSome) ∧
      (∀ content, directory.expandWith registry.expansion = some content →
        framed.raised = none ∧ contentOf flat.items = content) ∧
      ∀ id content, registry.expansion id = some content → registry.whole env id = some content := by
  intro framed flat
  obtain ⟨rank, hrank⟩ := hacyclic
  have hframes : FramesLike env registry 1 [] directory.blocks framed flat :=
    readEntries_levels directory.json (fun chain _ => ⟨List.not_mem_nil,
      readBlockLoop_levels hrank _ 1 chain.1 [chain.1] (fun other hother =>
        List.mem_singleton.mp hother ▸ Nat.le_refl _), whole_of_read⟩) 1
  obtain ⟨cut, hstream, hblocks, hlevels, hunmixed, hended⟩ := hframes.levels
  have hheight : cut.height ≤ env.blockDepth := by
    have h := cut_levels_height hlevels (Or.inl hdepth)
    omega
  refine ⟨hframes.raised, hframes.pieces, ⟨cut, hstream, hunmixed, hheight, hblocks, hlevels, hended⟩,
    fun block hblock => ?_, hd [], ?_, fun content hcontent => ?_,
    fun id content => whole_of_expansion hfiles⟩
  · exact cut_stream_typed cut _ (hstream ▸ List.mem_map_of_mem hblock) block rfl
  · rw [hframes.raised]
    exact readMultiblockDirectory_ends env registry directory
  · obtain ⟨pieces, hflat, hpieces⟩ := readMultiblockDirectory_flat hfiles 1 hcontent
    have hitems : flat = .pure (pieces.map .inl) := hflat
    rw [hframes.raised, hitems]
    exact ⟨rfl, (contentOf_pieces pieces).trans hpieces⟩

theorem sample_acyclic : Registry.sample.Acyclic := by
  refine ⟨List.length, fun id directory hl => ?_⟩
  rw [Registry.sample, List.lookup_cons, List.lookup_cons] at hl
  split at hl
  · cases hl
  · split at hl
    · rename_i hid
      obtain rfl := eq_of_beq hid
      obtain rfl := Stored.dir.inj (Option.some.inj hl)
      decide
    · cases hl

theorem readMultiblockDirectory_levels_sample :
    let env := Sender.sample.env
    let framed := readMultiblockDirectory env .sample .around false
    let flat := readMultiblockDirectory env .sample .around true
    framed.raised = flat.raised ∧ framed.items.filter Sum.isLeft = flat.items ∧
      (∃ cut : Cut, framed.items.map Buffer.ofItem = cut.stream env ∧ cut.Unmixed [] ∧
        cut.height ≤ env.blockDepth ∧ cut.blocks <+: Directory.around.blocks ∧
        cut.Levels env .sample 1 ∧
        (framed.raised = none →
          ∃ forest, cut = .last forest ∧ forest.blocks = Directory.around.blocks)) ∧
      (∀ block, .inr block ∈ framed.items → ∃ id, block.hashes = [⟨env.hashType, id⟩]) ∧
      env.hashType ≠ [] ∧
      (framed.raised = none ↔
        ∀ chain ∈ Directory.around.blocks, (Registry.sample.whole env chain.1).isSome) ∧
      (∀ content, Directory.around.expandWith Registry.sample.expansion = some content →
        framed.raised = none ∧ contentOf flat.items = content) ∧
      ∀ id content, Registry.sample.expansion id = some content →
        Registry.sample.whole env id = some content :=
  readMultiblockDirectory_levels Sender.sample.env .sample (fun _ => List.cons_ne_nil _ _)
    sample_correct.addressed.filesNamed sample_acyclic (by decide) .around

end BeeRpc
