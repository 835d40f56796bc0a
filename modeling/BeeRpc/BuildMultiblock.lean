import BeeRpc.Built

namespace BeeRpc

open Wire Naming

-- A pointer in the form block_pointer writes, which protobuf reads as it was written.
def IsWritten (env : Enviroment) (parse : ParseBlock) (value : Bytes) (omitTypes : Bool) : Prop :=
  ∃ id, value = blockPointerBytes env id omitTypes ∧
    parse value = some (blockPointer env id omitTypes, value.length)

section

variable (env : Enviroment) (registry : Registry)

theorem idContent_eq {id : BlockId} (hfiles : registry.FilesNamed env)
    (h : ∃ content, registry.expansion id = some content) :
    idContent env registry id = .ok (registry.content id) := by
  obtain ⟨content, hc⟩ := h
  obtain ⟨stored, hl⟩ := Registry.exists_lookup_of_expansion hc
  cases stored with
  | file bytes =>
      rw [Registry.content, hc, idContent, hl]
      rw [Registry.expansion_file hl] at hc
      rw [Option.some.inj hc, Option.getD_some]
  | dir directory =>
      rw [Registry.content, hc, idContent, hl]
      rw [Registry.expansion_dir hl] at hc
      obtain ⟨pieces, hpieces, hbytes⟩ := readMultiblockDirectory_flat hfiles 1 hc
      simp only [hpieces, Yielded.pure, contentOf_pieces, hbytes, Option.getD_some]

-- The hasher is fed the parts and the blocks in their order in the encoding.
theorem idLoop_cut {ι : Type} (name : ι → BlockId) (fill : ι → Bytes)
    (pieces : List (Piece ι)) (current : Bytes)
    (h : ∀ i ∈ pieces.filterMap Piece.hole?, idContent env registry (name i) = .ok (fill i)) :
    idLoop env registry ((Piece.cut current pieces).1 ++ [(Piece.cut current pieces).2])
      ((pieces.filterMap Piece.hole?).map name) =
      .ok (current ++ pieces.flatMap (Piece.render fill)) := by
  induction pieces generalizing current with
  | nil => simp [Piece.cut, idLoop, List.mapM_nil]
  | cons piece pieces ih =>
      cases piece with
      | bytes b =>
          rw [Piece.filterMap_hole?_bytes] at h ⊢
          rw [Piece.cut, ih (current ++ b) h]
          simp [Piece.render]
      | hole i =>
          rw [Piece.filterMap_hole?_hole] at h ⊢
          rw [Piece.cut, List.cons_append, List.map_cons, idLoop,
            h i (List.mem_cons_self ..), ok_bind,
            ih [] fun j hj => h j (List.mem_cons_of_mem _ hj), ok_bind, pure_ok]
          simp [Piece.render]

-- A directory that holds these parts has them in its `_.json` at their places.
theorem layOut_cut {ι : Type} (name : ι → BlockId) (pieces : List (Piece ι)) (current : Bytes)
    (index : Nat) (chains : List (BlockId × List Nat))
    (hchains : chains.map Prod.fst = (pieces.filterMap Piece.hole?).map name) :
    ∃ parts, layOut index ((Piece.cut current pieces).1 ++ [(Piece.cut current pieces).2]) chains =
        .ok (parts, weave index chains) ∧
      parts.map Prod.fst = List.range' index (chains.length + 1) ∧
      ∀ directory : Directory, (∀ part ∈ parts, directory.part part.1 = some part.2) →
        directory.runs (weave index chains) =
          some ((Piece.alternate current pieces).map (Sum.map id name)) := by
  induction pieces generalizing current index chains with
  | nil =>
      obtain rfl : chains = [] := by simpa using hchains
      refine ⟨[(index, current)], rfl, rfl, fun directory hparts => ?_⟩
      have := hparts (index, current) (List.mem_cons_self ..)
      exact runs_part_eq_some.mpr ⟨current, [], this, rfl, rfl⟩
  | cons piece pieces ih =>
      cases piece with
      | bytes b => exact ih (current ++ b) index chains hchains
      | hole i =>
          cases chains with
          | nil => simp at hchains
          | cons chain chains =>
              rw [Piece.filterMap_hole?_hole, List.map_cons, List.map_cons] at hchains
              obtain ⟨hname, hchains⟩ := List.cons.inj hchains
              obtain ⟨parts, hlay, hnumbers, hruns⟩ := ih [] (index + 1) chains hchains
              refine ⟨(index, current) :: parts, ?_, ?_, fun directory hparts => ?_⟩
              · rw [Piece.cut, List.cons_append, layOut, hlay]
                rfl
              · simp [hnumbers, List.range'_succ]
              · have hrest := hruns directory fun part hp =>
                  hparts part (List.mem_cons_of_mem _ hp)
                refine runs_part_eq_some.mpr ⟨current, _, hparts _ (List.mem_cons_self ..), ?_, rfl⟩
                refine runs_block_eq_some.mpr ⟨_, hrest, ?_⟩
                rw [hname]
                rfl

theorem paths_of_runs {directory : Directory} (entries : List JsonEntry)
    (runs : List (Bytes ⊕ BlockId)) (h : directory.runs entries = some runs) :
    entries.map directory.path = runs.map Path.ofRun := by
  induction entries generalizing runs with
  | nil =>
      obtain rfl := Option.some.inj h
      rfl
  | cons entry rest ih =>
      cases entry with
      | part index =>
          obtain ⟨content, more, hc, hm, rfl⟩ := runs_part_eq_some.mp h
          rw [List.map_cons, List.map_cons, ih more hm, Directory.path, hc]
          rfl
      | block id positions =>
          obtain ⟨more, hm, rfl⟩ := runs_block_eq_some.mp h
          rw [List.map_cons, List.map_cons, ih more hm]
          rfl

end

section Build

variable (env : Enviroment) (registry : Registry) (parse : ParseBlock) (blocks : List BlockId)
  (inherited : Option (List Bytes)) (message : Message)

-- The encoding of a message around the pointers to the blocks it is built with.
abbrev objectDocument : Document (BlockId × Bytes) :=
  message.document (pointerOf env parse blocks inherited)

theorem pointerOf_holes (pointer? : Bytes → Option BlockId) :
    ∀ pointer ∈ (message.document pointer?).holes, pointer? pointer.2 = some pointer.1 := by
  induction message with
  | unknown fields => simp [Message.document, Document.holes]
  | message number value rest ihValue ihRest =>
      intro pointer hp
      exact (List.mem_append.mp hp).elim (ihValue pointer) (ihRest pointer)
  | group number value rest ihValue ihRest =>
      intro pointer hp
      simp only [Message.document, Document.holes, Document.holes_append] at hp
      exact (List.mem_append.mp hp).elim (ihValue pointer) (ihRest pointer)
  | bytes number value rest ih =>
      intro pointer hp
      simp only [Message.document] at hp
      cases hv : pointer? value with
      | none =>
          rw [hv] at hp
          exact ih pointer hp
      | some id =>
          rw [hv] at hp
          rcases List.mem_cons.mp hp with rfl | hp
          · exact hv
          · exact ih pointer hp
  | string number value rest ih => exact ih
  | other encoding rest ih => exact ih

theorem document_tagged (pointer? : Bytes → Option BlockId) :
    (message.document pointer?).Tagged := by
  induction message with
  | unknown fields => trivial
  | message number value rest ihValue ihRest => exact ⟨Varint.encode_ne_nil _, ihValue, ihRest⟩
  | group number value rest ihValue ihRest =>
      have happend : ∀ doc more : Document (BlockId × Bytes), doc.Tagged → more.Tagged →
          (doc.append more).Tagged := by
        intro doc more hd hm
        induction doc with
        | nil => exact hm
        | raw bytes rest ih => exact ih hd
        | sub tag body rest _ ih => exact ⟨hd.1, hd.2.1, ih hd.2.2⟩
        | hole tag i rest ih => exact ⟨hd.1, ih hd.2⟩
      exact happend _ _ ihValue ihRest
  | bytes number value rest ih =>
      simp only [Message.document]
      split
      · exact ⟨Varint.encode_ne_nil _, ih⟩
      · exact ih
  | string number value rest ih => exact ih
  | other encoding rest ih => exact ih

theorem found_last (pointer? : Bytes → Option BlockId) (own : Bytes) (position : Nat) :
    ∀ entry ∈ message.found pointer? own position, entry.chain.getLast? = some entry.position := by
  induction message generalizing own position with
  | unknown fields => simp [Message.found]
  | message number value rest ihValue ihRest =>
      intro entry he
      rcases List.mem_append.mp he with he | he
      · obtain ⟨inner, hi, rfl⟩ := List.mem_map.mp he
        have := ihValue _ _ inner hi
        simp only [Message.Found.under, List.getLast?_cons, this, Option.getD_some]
      · exact ihRest _ _ entry he
  | group number value rest ihValue ihRest =>
      intro entry he
      rcases List.mem_append.mp he with he | he
      · obtain ⟨inner, hi, rfl⟩ := List.mem_map.mp he
        have := ihValue _ _ inner hi
        simp only [Message.Found.under, List.getLast?_cons, this, Option.getD_some]
      · exact ihRest _ _ entry he
  | bytes number value rest ih =>
      intro entry he
      simp only [Message.found] at he
      split at he
      · rcases List.mem_cons.mp he with rfl | he
        · rfl
        · exact ih _ _ entry he
      · exact ih _ _ entry he
  | string number value rest ih => exact ih _ _
  | other encoding rest ih => exact ih _ _

theorem found_lengths (pointer? : Bytes → Option BlockId) (own : Bytes) (position : Nat) :
    (message.found pointer? own position).map Message.Found.length =
      (message.document pointer?).holes.map fun pointer => pointer.2.length := by
  induction message generalizing own position with
  | unknown fields => rfl
  | message number value rest ihValue ihRest =>
      simp only [Message.found, Message.document, Document.holes, List.map_append, List.map_map,
        ihRest]
      rw [← ihValue value.unknownFields (position + 1 + width value.byteSize)]
      rfl
  | group number value rest ihValue ihRest =>
      simp only [Message.found, Message.document, Document.holes, Document.holes_append,
        List.map_append, List.map_map, ihRest]
      rw [← ihValue value.unknownFields (position + 1 + width value.byteSize)]
      rfl
  | bytes number value rest ih =>
      simp only [Message.found, Message.document]
      split
      · simp only [List.map_cons, Document.holes, ih]
      · simp only [ih, Document.holes]
  | string number value rest ih => exact ih _ _
  | other encoding rest ih => exact ih _ _

theorem leaves_holes {ι : Type} (fill : ι → Bytes) (base : Nat) (doc : Document ι) :
    (doc.leaves fill base).map Prod.fst = doc.holes := by
  have h := congrArg (List.map Prod.fst) (Document.chains_leaves fill base doc)
  rw [List.map_map, List.map_map] at h
  rw [← Document.chains_holes fill base doc]
  exact h.symm

variable {message}

-- search_on_message where its miscounts cancel: true chains, and the length of each pointer
-- under its position.
theorem searchOnMessage_balanced
    (hbalanced : message.Balanced (pointerOf env parse blocks inherited) message.unknownFields 0) :
    searchOnMessage env parse blocks inherited message =
      { container := Dict.group (LengthsTree.chainsOf Prod.fst asPointer 0
          (objectDocument env parse blocks inherited message))
        pointerLengths := ((objectDocument env parse blocks inherited message).leaves asPointer
          0).map fun leaf => (leaf.2, leaf.1.2.length) } := by
  have hfound : message.foundChains (pointerOf env parse blocks inherited) message.unknownFields 0 =
      message.trueChains (pointerOf env parse blocks inherited) 0 := by
    apply (Message.foundChains_eq_iff _ message message.unknownFields 0 0).mpr
    rwa [Nat.cast_zero, sub_zero]
  have hpositions : (message.found (pointerOf env parse blocks inherited) message.unknownFields 0).map
      Message.Found.position = ((objectDocument env parse blocks inherited message).leaves
        asPointer 0).map Prod.snd := by
    have hlast : (message.foundChains (pointerOf env parse blocks inherited) message.unknownFields 0).map
        (fun entry => entry.2.getLast?) =
        (message.found (pointerOf env parse blocks inherited) message.unknownFields 0).map
          fun entry => some entry.position := by
      rw [Message.foundChains, List.map_map]
      exact List.map_congr_left fun entry he => found_last message _ _ _ entry he
    have hleaves := congrArg (List.map Prod.snd) (Document.chains_leaves asPointer 0
      (objectDocument env parse blocks inherited message))
    rw [List.map_map, List.map_map] at hleaves
    have hsome : Function.Injective (List.map (some : Nat → Option Nat)) :=
      List.map_injective_iff.mpr (Option.some_injective _)
    refine hsome ?_
    rw [List.map_map, List.map_map]
    refine (hlast.symm.trans ?_).trans hleaves
    rw [hfound, Message.trueChains, List.map_map]
    rfl
  have hlengths : (message.found (pointerOf env parse blocks inherited) message.unknownFields 0).map
      Message.Found.length = ((objectDocument env parse blocks inherited message).leaves
        asPointer 0).map fun leaf => leaf.1.2.length := by
    rw [found_lengths, ← leaves_holes asPointer 0, List.map_map]
    rfl
  have hpairs : (message.found (pointerOf env parse blocks inherited) message.unknownFields 0).map
      (fun entry => (entry.position, entry.length)) =
      ((objectDocument env parse blocks inherited message).leaves asPointer 0).map
        fun leaf => (leaf.2, leaf.1.2.length) := by
    rw [← List.zip_map', ← List.zip_map']
    exact congrArg₂ List.zip hpositions hlengths
  have hnodup : ((((objectDocument env parse blocks inherited message).leaves asPointer 0).map
      fun leaf => (leaf.2, leaf.1.2.length)).map Prod.fst).Nodup := by
    rw [List.map_map]
    exact Document.leaves_nodup asPointer 0 _
  rw [searchOnMessage, Message.searchLoop_eq, hpairs]
  congr 1
  · rw [Dict.group, ← show message.trueChains (pointerOf env parse blocks inherited) 0 =
      LengthsTree.chainsOf Prod.fst asPointer 0 _ from rfl, ← hfound, Message.foundChains,
      List.foldl_map]
    rfl
  · exact Dict.ofList_of_nodup _ hnodup

theorem Message.Plain.balanced_own (hplain : message.Plain) (pointer? : Bytes → Option BlockId) :
    message.Balanced pointer? message.unknownFields 0 := by
  rw [hplain.unknownFields]
  exact hplain.balanced _

variable (message)

-- What a message is built from: its pointers, in the form block_pointer writes, name the
-- blocks, and the blocks are all there.
structure Pointed : Prop where
  plain : message.Plain
  written : ∀ pointer ∈ (objectDocument env parse blocks inherited message).holes,
    ∃ omitTypes, IsWritten env parse pointer.2 omitTypes
  covers : ∀ id ∈ blocks, id ∈ (objectDocument env parse blocks inherited message).holes.map Prod.fst
  complete : ∀ pointer ∈ (objectDocument env parse blocks inherited message).holes,
    ∃ content, registry.expansion pointer.1 = some content

-- The blocks of a message with the positions of the lengths around them once expanded.
abbrev objectChains : List (BlockId × List Nat) :=
  LengthsTree.chainsOf Prod.fst (asBlock registry.content) 0
    (objectDocument env parse blocks inherited message)

-- What the second walk looks its lengths up in.
abbrev objectLengths : Dict Nat RealLength :=
  ((objectDocument env parse blocks inherited message).marks asPointer
    (asBlock registry.content) 0).map realLengthOf

-- The expanded encoding without the blocks.
abbrev objectParts : List Bytes :=
  let pieces := (objectDocument env parse blocks inherited message).pieces
    (asBlock registry.content)
  (Piece.cut [] pieces).1 ++ [(Piece.cut [] pieces).2]

variable {message}

theorem chainsOf_fst {ι : Type} (name : ι → BlockId) (fill : ι → Bytes) (base : Nat)
    (doc : Document ι) :
    (LengthsTree.chainsOf name fill base doc).map Prod.fst = doc.holes.map name := by
  rw [← Document.chains_holes fill base doc, LengthsTree.chainsOf, List.map_map, List.map_map]
  rfl

theorem getBlockLength_of_expansion {id : BlockId}
    (h : ∃ content, registry.expansion id = some content) :
    getBlockLength registry id = .ok (registry.content id).length := by
  have hc := Registry.content_eq h
  have hexists : registry.blockExists id = true :=
    Registry.blockExists_eq_true.mpr (Registry.exists_lookup_of_expansion hc)
  rw [getBlockLength, if_pos hexists, getExpandedBlockLength_of_expansion hc]

theorem Pointed.parse_length (h : Pointed env registry parse blocks inherited message) :
    ∀ pointer ∈ (objectDocument env parse blocks inherited message).holes,
      (parse pointer.2).map Prod.snd = some pointer.2.length := by
  intro pointer hp
  obtain ⟨omitTypes, id, -, hparse⟩ := h.written pointer hp
  rw [hparse, Option.map_some]

theorem measured_of_complete
    (hcomplete : ∀ pointer ∈ (objectDocument env parse blocks inherited message).holes,
      ∃ content, registry.expansion pointer.1 = some content) :
    Measured registry message.serializeToString
      (((objectDocument env parse blocks inherited message).leaves asPointer 0).map fun leaf =>
        (leaf.2, leaf.1.2.length))
      Prod.fst asPointer (asBlock registry.content) 0
      (objectDocument env parse blocks inherited message) where
  marks mark hm := by
    have := Document.marks_decode asPointer (asBlock registry.content) _ mark hm
    rw [Message.document_render] at this
    simp only [getPositionLength, this]
  leaves leaf hl := by
    refine Dict.lookup_of_nodup _ ?_ _ _ (List.mem_map_of_mem hl)
    rw [List.map_map]
    exact Document.leaves_nodup asPointer 0 _
  holes pointer hp := getBlockLength_of_expansion registry (hcomplete pointer hp)
  tagged := document_tagged message _

-- Up to the second walk, nothing is raised where the blocks are named and are all there.
theorem buildMultiblock_walk
    (hbalanced : message.Balanced (pointerOf env parse blocks inherited) message.unknownFields 0)
    (hcovers : ∀ id ∈ blocks,
      id ∈ (objectDocument env parse blocks inherited message).holes.map Prod.fst)
    (hcomplete : ∀ pointer ∈ (objectDocument env parse blocks inherited message).holes,
      ∃ content, registry.expansion pointer.1 = some content) :
    buildMultiblock env registry parse message blocks inherited =
      (searchRealLoop registry parse (pointerOf env parse blocks inherited)
        (objectLengths env registry parse blocks inherited message) message []
        message.unknownFields 0 0 []).bind fun container =>
          (generateId env registry (objectParts env registry parse blocks inherited message)
            (container.map Prod.fst)).bind fun objectId =>
              (layOut 1 (objectParts env registry parse blocks inherited message) container).bind
                fun written => .ok (objectId,
                  ⟨written.1, written.2, some message.serializeToString⟩) := by
  have hsearch := searchOnMessage_balanced env parse blocks inherited hbalanced
  have hmissing : (blocks.filter fun id => decide (id ∉ (Dict.group (LengthsTree.chainsOf Prod.fst
      asPointer 0 (objectDocument env parse blocks inherited message))).map Prod.fst)) = [] := by
    refine List.filter_eq_nil_iff.mpr fun id hid => ?_
    have := (Dict.mem_keys_group (LengthsTree.chainsOf Prod.fst asPointer 0
      (objectDocument env parse blocks inherited message)) id).mpr
        (by rw [chainsOf_fst]; exact hcovers id hid)
    simpa using this
  obtain ⟨tree, htree, hlengths⟩ := computeRealLengths_marks registry Prod.fst asPointer
    (asBlock registry.content) _ _
    (Message.document_render _ message ▸
      measured_of_complete env registry parse blocks inherited hcomplete)
    _ (Dict.ungroup_group (LengthsTree.chainsOf Prod.fst asPointer 0
      (objectDocument env parse blocks inherited message)))
  have hbuffers := generateBuffer_cut asPointer (asBlock registry.content)
    (objectDocument env parse blocks inherited message)
  rw [Message.document_render] at hlengths hbuffers
  simp only [buildMultiblock, hsearch, hmissing, ne_eq, not_true_eq_false, if_false, htree,
    ok_bind, hlengths, hbuffers]
  rfl

-- A directory with these parts and this `_.json` is laid out as the expanded encoding.
theorem describes_of_layOut {directory : Directory}
    (hjson : directory.json = weave 1 (objectChains env registry parse blocks inherited message))
    (hruns : directory.runs directory.json = some ((Piece.alternate []
      ((objectDocument env parse blocks inherited message).pieces
        (asBlock registry.content))).map (Sum.map id Prod.fst))) :
    directory.Describes registry.content
      ((objectDocument env parse blocks inherited message).map Prod.fst) where
  runs := by
    rw [hruns, Document.pieces_map, Piece.alternate_map]
  chains := by
    rw [weave_blocks 1 _ directory hjson, Document.chains_map]
    rfl

-- Up to the digest of the object, nothing is raised, and what is written is laid out as
-- the expanded encoding.
theorem buildMultiblock_layout (h : Pointed env registry parse blocks inherited message) :
    ∃ directory : Directory,
      directory.json = weave 1 (objectChains env registry parse blocks inherited message) ∧
      directory.wbp = some message.serializeToString ∧
      directory.Describes registry.content
        ((objectDocument env parse blocks inherited message).map Prod.fst) ∧
      buildMultiblock env registry parse message blocks inherited =
        (generateId env registry (objectParts env registry parse blocks inherited message)
          ((objectDocument env parse blocks inherited message).holes.map Prod.fst)).bind
            fun objectId => .ok (objectId, directory) := by
  have hreal := searchRealLoop_plain registry parse (pointerOf env parse blocks inherited)
    registry.content message h.plain [] 0 0 [] _ (fun _ _ _ => rfl) h.parse_length
    (fun pointer hp => getBlockLength_of_expansion registry (h.complete pointer hp))
  obtain ⟨parts, hlay, hnumbers, hruns⟩ := layOut_cut Prod.fst
    ((objectDocument env parse blocks inherited message).pieces (asBlock registry.content)) [] 1
    (objectChains env registry parse blocks inherited message)
    (by rw [Document.pieces_holes, chainsOf_fst])
  have hnodup : (parts.map Prod.fst).Nodup := by
    rw [hnumbers]
    exact List.nodup_range' ..
  refine ⟨⟨parts, weave 1 (objectChains env registry parse blocks inherited message),
    some message.serializeToString⟩, rfl, rfl, describes_of_layOut env registry parse blocks
      inherited rfl (hruns _ fun part hp => Dict.lookup_of_nodup parts hnodup _ _ hp), ?_⟩
  have hids : (objectChains env registry parse blocks inherited message).map Prod.fst =
      (objectDocument env parse blocks inherited message).holes.map Prod.fst := chainsOf_fst ..
  have hwritten : layOut 1 (objectParts env registry parse blocks inherited message)
      (objectChains env registry parse blocks inherited message) = _ := hlay
  simp only [List.nil_append] at hreal
  rw [buildMultiblock_walk env registry parse blocks inherited (h.plain.balanced_own _) h.covers
    h.complete, h.plain.unknownFields, hreal]
  change (generateId env registry _ ((objectChains env registry parse blocks inherited message).map
    Prod.fst)).bind (fun objectId => (layOut 1 _ (objectChains env registry parse blocks inherited
      message)).bind _) = _
  rw [hids, hwritten]
  rfl

theorem generateId_objectParts (hfiles : registry.FilesNamed env)
    (h : Pointed env registry parse blocks inherited message) :
    generateId env registry (objectParts env registry parse blocks inherited message)
        ((objectDocument env parse blocks inherited message).holes.map Prod.fst) =
      .ok (env.hashFactory (message.replacePointers (pointerOf env parse blocks inherited)
        registry.content).serializeToString) := by
  have hloop := idLoop_cut env registry Prod.fst (asBlock registry.content)
    ((objectDocument env parse blocks inherited message).pieces (asBlock registry.content)) []
    fun pointer hp => idContent_eq env registry hfiles (h.complete pointer (by
      rwa [Document.pieces_holes] at hp))
  rw [Document.pieces_holes, List.nil_append] at hloop
  have hrender := Message.document_render_replace (pointerOf env parse blocks inherited)
    registry.content message
  rw [← Document.pieces_render] at hrender
  rw [generateId, objectParts, hloop, ok_bind, pure_ok]
  exact congrArg (fun bytes => Except.ok (env.hashFactory bytes)) hrender

theorem describes_expands {directory : Directory}
    (h : Pointed env registry parse blocks inherited message)
    (hd : directory.Describes registry.content
      ((objectDocument env parse blocks inherited message).map Prod.fst)) :
    directory.expandWith registry.expansion =
      some (message.replacePointers (pointerOf env parse blocks inherited)
        registry.content).serializeToString := by
  rw [hd.expands registry.expansion, Document.render_map, Message.document_render_replace]
  intro id hid
  rw [Document.holes_map] at hid
  obtain ⟨pointer, hp, rfl⟩ := List.mem_map.mp hid
  exact Registry.content_eq (h.complete pointer hp)

end Build

section Sample

-- A message with a block in a field of its own and the block around it beside it.
def Message.sample : Message :=
  .message 1 (.bytes 2 (blockPointerBytes .sample [1, 5, 6]) (.unknown []))
    (.string 3 ['a'] (.bytes 4 (blockPointerBytes .sample [1, 10, 2, 5, 6]) (.unknown [])))

abbrev Message.sampleBlocks : List BlockId := [[1, 10, 2, 5, 6], [1, 5, 6]]

-- protobuf where it is given a pointer to one of these blocks.
def ParseBlock.sample : ParseBlock := fun value =>
  (Message.sampleBlocks.find? fun id => value = blockPointerBytes .sample id).map fun id =>
    (blockPointer .sample id, value.length)

-- What is built from the message.
def Directory.sample : Directory where
  parts := [(1, [10, 4, 18, 2]), (2, [26, 1, 97, 34, 4]), (3, [])]
  json := [.part 1, .block [1, 5, 6] [1, 3], .part 2, .block [1, 10, 2, 5, 6] [10], .part 3]
  wbp := some Message.sample.serializeToString

theorem sample_holes :
    (objectDocument .sample .sample Message.sampleBlocks none .sample).holes =
      Message.sampleBlocks.reverse.map fun id => (id, blockPointerBytes .sample id) := by
  decide

theorem sample_written :
    ∀ pointer ∈ (objectDocument .sample .sample Message.sampleBlocks none .sample).holes,
      IsWritten .sample .sample pointer.2 false := by
  rw [sample_holes]
  intro pointer hp
  obtain ⟨id, hid, rfl⟩ := List.mem_map.mp hp
  refine ⟨id, rfl, ?_⟩
  revert id
  decide

theorem sample_pointed : Pointed .sample .sample .sample Message.sampleBlocks none .sample where
  plain := by decide
  written pointer hp := ⟨false, sample_written pointer hp⟩
  covers := by decide
  complete := by
    intro pointer hp
    refine Option.isSome_iff_exists.mp ?_
    revert pointer
    decide

theorem sample_built :
    buildMultiblock .sample .sample .sample .sample Message.sampleBlocks none =
      .ok ([1, 10, 4, 18, 2, 5, 6, 26, 1, 97, 34, 4, 10, 2, 5, 6], Directory.sample) := by
  rfl

end Sample

section Results

variable (env : Enviroment) (registry : Registry) (parse : ParseBlock) (blocks : List BlockId)
  (inherited : Option (List Bytes)) {message : Message}

-- The object that is written is the message with every block in place of its pointer.
theorem buildMultiblock_preserves (hfiles : registry.FilesNamed env)
    (h : Pointed env registry parse blocks inherited message) :
    let object := (message.replacePointers (pointerOf env parse blocks inherited)
      registry.content).serializeToString
    ∃ directory, buildMultiblock env registry parse message blocks inherited =
        .ok (env.hashFactory object, directory) ∧
      directory.expandWith registry.expansion = some object := by
  obtain ⟨directory, -, -, hd, hbuild⟩ :=
    buildMultiblock_layout env registry parse blocks inherited h
  refine ⟨directory, ?_, describes_expands env registry parse blocks inherited h hd⟩
  rw [hbuild, generateId_objectParts env registry parse blocks inherited hfiles h]
  rfl

theorem buildMultiblock_preserves_sample :
    let object := (Message.sample.replacePointers
      (pointerOf .sample .sample Message.sampleBlocks none)
      Registry.sample.content).serializeToString
    ∃ directory, buildMultiblock .sample .sample .sample .sample Message.sampleBlocks none =
        .ok (Enviroment.sample.hashFactory object, directory) ∧
      directory.expandWith Registry.sample.expansion = some object :=
  buildMultiblock_preserves .sample .sample .sample Message.sampleBlocks none
    Registry.sample_contentAddressed.filesNamed sample_pointed

theorem realNode_error (buffer : Bytes) (key : Nat) (e : Err) (first : RealKid) :
    realNode buffer key (.error e) ≠ .ok first := by
  intro h
  obtain ⟨length, -, hkids⟩ := bind_eq_ok.mp h
  cases hkids

-- What is accepted names its blocks, and they are all there.
theorem complete_of_buildMultiblock
    (hbalanced : message.Balanced (pointerOf env parse blocks inherited) message.unknownFields 0)
    {built : Bytes × Directory}
    (hbuilt : buildMultiblock env registry parse message blocks inherited = .ok built) :
    (∀ id ∈ blocks, id ∈ (objectDocument env parse blocks inherited message).holes.map Prod.fst) ∧
      ∀ pointer ∈ (objectDocument env parse blocks inherited message).holes,
        ∃ content, registry.expansion pointer.1 = some content := by
  have hsearch := searchOnMessage_balanced env parse blocks inherited hbalanced
  simp only [buildMultiblock, hsearch] at hbuilt
  split at hbuilt
  · cases hbuilt
  · rename_i hmissing
    obtain ⟨tree, htree, hbuilt⟩ := bind_eq_ok.mp hbuilt
    obtain ⟨realLengths, hlengths, -⟩ := bind_eq_ok.mp hbuilt
    obtain ⟨kids, hkids, -⟩ := bind_eq_ok.mp hlengths
    have hleaves := LengthsTree.collect_leaves _ _ (realNode_error message.serializeToString) 0
      (objectDocument env parse blocks inherited message) _
      (Dict.ungroup_group (LengthsTree.chainsOf Prod.fst asPointer 0 _)) tree htree kids hkids
    refine ⟨fun id hid => ?_, fun pointer hp => ?_⟩
    · rw [ne_eq, not_not] at hmissing
      have hin := List.filter_eq_nil_iff.mp hmissing id hid
      rw [decide_not, Bool.not_eq_true, Bool.not_eq_false', decide_eq_true_iff,
        Dict.mem_keys_group, chainsOf_fst] at hin
      exact hin
    · rw [← leaves_holes asPointer 0] at hp
      obtain ⟨leaf, hl, rfl⟩ := List.mem_map.mp hp
      obtain ⟨first, hfirst⟩ := hleaves leaf hl
      rw [realLeaf] at hfirst
      split at hfirst
      · cases hfirst
      · obtain ⟨length, hlength, -⟩ := bind_eq_ok.mp hfirst
        rw [getBlockLength] at hlength
        split at hlength
        · exact expansion_of_getExpandedBlockLength hlength
        · cases hlength

theorem pointed_of_buildMultiblock (hplain : message.Plain)
    (hwritten : ∀ pointer ∈ (objectDocument env parse blocks inherited message).holes,
      ∃ omitTypes, IsWritten env parse pointer.2 omitTypes) {built : Bytes × Directory}
    (hbuilt : buildMultiblock env registry parse message blocks inherited = .ok built) :
    Pointed env registry parse blocks inherited message := by
  obtain ⟨hcovers, hcomplete⟩ :=
    complete_of_buildMultiblock env registry parse blocks inherited (hplain.balanced_own _) hbuilt
  exact ⟨hplain, hwritten, hcovers, hcomplete⟩

-- The `_.json` is that of the expanded encoding: its positions are those of the lengths
-- around each block, and there the lengths can be read.
theorem buildMultiblock_describes (hplain : message.Plain)
    (hwritten : ∀ pointer ∈ (objectDocument env parse blocks inherited message).holes,
      ∃ omitTypes, IsWritten env parse pointer.2 omitTypes)
    {objectId : Bytes} {directory : Directory}
    (hbuilt : buildMultiblock env registry parse message blocks inherited =
      .ok (objectId, directory)) :
    let document := objectDocument env parse blocks inherited message
    let spine := document.spine (asBlock registry.content) 0
    directory.expandWith registry.expansion = some (document.render (asBlock registry.content)) ∧
      directory.json =
        weave 1 (spine.map fun entry => (entry.1.1, entry.2.map Prod.fst)) ∧
      spine.map Prod.fst = document.holes ∧
      ∀ entry ∈ spine, (entry.2.map Prod.fst).Pairwise (· < ·) ∧
        ∀ p ∈ entry.2, getVarintAtPosition registry p.1 directory.paths = .ok p.2 := by
  have h := pointed_of_buildMultiblock env registry parse blocks inherited hplain hwritten hbuilt
  obtain ⟨written, hjson, -, hd, hbuild⟩ :=
    buildMultiblock_layout env registry parse blocks inherited h
  obtain rfl : written = directory := by
    rw [hbuild] at hbuilt
    obtain ⟨id, -, heq⟩ := bind_eq_ok.mp hbuilt
    exact (Prod.mk.inj (Except.ok.inj heq)).2
  refine ⟨?_, ?_, Document.spine_holes _ _ _, fun entry he => ⟨?_, fun p hp => ?_⟩⟩
  · rw [describes_expands env registry parse blocks inherited h hd,
      ← Message.document_render_replace]
  · rw [hjson, objectChains, LengthsTree.chainsOf, Document.chains, List.map_map]
    rfl
  · exact List.pairwise_map.mpr (Document.chain_strictly_ascending _ 0 _ entry he)
  · have hmap := Document.spine_map Prod.fst registry.content 0
      (objectDocument env parse blocks inherited message)
    have hentry : (entry.1.1, entry.2) ∈
        ((objectDocument env parse blocks inherited message).map Prod.fst).spine
          registry.content 0 := by
      rw [hmap]
      exact List.mem_map_of_mem he
    obtain ⟨mark, hmark, hpos, hold⟩ := Document.spine_marks registry.content registry.content 0
      _ _ hentry p hp
    have hread := marks_read registry registry.content (fun id hid => by
      rw [Document.holes_map] at hid
      obtain ⟨pointer, hpointer, rfl⟩ := List.mem_map.mp hid
      exact Registry.content_eq (h.complete pointer hpointer)) mark hmark
    rw [← paths_of_runs _ _ hd.runs, hpos, hold] at hread
    exact hread

theorem buildMultiblock_describes_sample :
    let document := objectDocument .sample .sample Message.sampleBlocks none .sample
    let spine := document.spine (asBlock Registry.sample.content) 0
    Directory.sample.expandWith Registry.sample.expansion =
        some (document.render (asBlock Registry.sample.content)) ∧
      Directory.sample.json =
        weave 1 (spine.map fun entry => (entry.1.1, entry.2.map Prod.fst)) ∧
      spine.map Prod.fst = document.holes ∧
      ∀ entry ∈ spine, (entry.2.map Prod.fst).Pairwise (· < ·) ∧
        ∀ p ∈ entry.2,
          getVarintAtPosition Registry.sample p.1 Directory.sample.paths = .ok p.2 :=
  buildMultiblock_describes .sample .sample .sample Message.sampleBlocks none (by decide)
    (fun pointer hp => ⟨false, sample_written pointer hp⟩) sample_built

theorem pointerOf_written {value : Bytes} {omitTypes : Bool} {id : BlockId}
    (hw : IsWritten env parse value omitTypes)
    (h : pointerOf env parse blocks inherited value = some id) :
    value = blockPointerBytes env id omitTypes := by
  obtain ⟨written, rfl, hparse⟩ := hw
  rw [pointerOf, hparse] at h
  split at h
  · simp only [Option.bind_some, blockIdFromPointer] at h
    split at h
    · cases h
    · simp only [blockPointer, Option.map_eq_some_iff] at h
      obtain ⟨entry, hfind, rfl⟩ := h
      have hmem := List.mem_of_find?_eq_some hfind
      have hhash := (List.of_mem_zip hmem).1
      rw [List.mem_singleton] at hhash
      rw [hhash]
  · cases h

-- The pointer form comes back from the expansion, for every directory laid out as some
-- encoding, and so for what build_multiblock writes.
theorem generateWbpFile_recovers :
    (∀ (directory : Directory) (fill : BlockId → Bytes) (document : Document BlockId)
        (inherited : Option (List Bytes)), directory.Describes fill document →
      (∀ id ∈ document.holes, registry.expansion id = some (fill id)) →
      directory.expandWith registry.expansion = some (document.render fill) ∧
        generateWbpFile env registry directory inherited = .ok { directory with
          wbp := some (document.render fun id => blockPointerBytes env id inherited.isSome) }) ∧
      ∀ (message : Message) (objectId : Bytes) (directory : Directory), message.Plain →
        (∀ pointer ∈ (objectDocument env parse blocks inherited message).holes,
          IsWritten env parse pointer.2 false) →
        buildMultiblock env registry parse message blocks inherited =
          .ok (objectId, directory) →
        generateWbpFile env registry directory none =
          .ok { directory with wbp := some message.serializeToString } := by
  have hgeneral : ∀ (directory : Directory) (fill : BlockId → Bytes)
      (document : Document BlockId) (inherited : Option (List Bytes)),
      directory.Describes fill document →
      (∀ id ∈ document.holes, registry.expansion id = some (fill id)) →
      directory.expandWith registry.expansion = some (document.render fill) ∧
        generateWbpFile env registry directory inherited = .ok { directory with
          wbp := some (document.render fun id => blockPointerBytes env id inherited.isSome) } := by
    intro directory fill document inherited hd hfill
    refine ⟨hd.expands _ hfill, ?_⟩
    rw [generateWbpFile, wbpBytes_describes env registry hd hfill, ok_bind, pure_ok]
  refine ⟨hgeneral, fun message objectId directory hplain hwritten hbuilt => ?_⟩
  have h := pointed_of_buildMultiblock env registry parse blocks inherited hplain
    (fun pointer hp => ⟨false, hwritten pointer hp⟩) hbuilt
  obtain ⟨written, -, -, hd, hbuild⟩ :=
    buildMultiblock_layout env registry parse blocks inherited h
  obtain rfl : written = directory := by
    rw [hbuild] at hbuilt
    obtain ⟨id, -, heq⟩ := bind_eq_ok.mp hbuilt
    exact (Prod.mk.inj (Except.ok.inj heq)).2
  obtain ⟨-, hgenerated⟩ := hgeneral written registry.content _ none hd fun id hid => by
    rw [Document.holes_map] at hid
    obtain ⟨pointer, hpointer, rfl⟩ := List.mem_map.mp hid
    exact Registry.content_eq (h.complete pointer hpointer)
  rw [hgenerated, Document.render_map, ← Message.document_render (pointerOf env parse blocks
    inherited) message]
  congr 3
  refine Document.render_congr _ _ _ fun pointer hp => ?_
  exact (pointerOf_written env parse blocks inherited (hwritten pointer hp)
    (pointerOf_holes message _ pointer hp)).symm

theorem generateWbpFile_recovers_sample :
    (let document : Document BlockId := .raw [5] (.hole [10] [1, 5, 6] .nil)
      let directory : Directory := {
        parts := [(1, [5, 10, 2]), (2, [])]
        json := [.part 1, .block [1, 5, 6] [2], .part 2] }
      directory.expandWith Registry.sample.expansion =
          some (document.render Registry.sample.content) ∧
        generateWbpFile .sample .sample directory (some [[1]]) = .ok { directory with
          wbp := some (document.render fun id => blockPointerBytes .sample id true) }) ∧
      generateWbpFile .sample .sample Directory.sample none =
        .ok { Directory.sample with wbp := some Message.sample.serializeToString } := by
  obtain ⟨hgeneral, hbuilt⟩ :=
    generateWbpFile_recovers .sample .sample .sample Message.sampleBlocks none
  refine ⟨hgeneral _ _ _ _ ⟨by decide, by decide⟩ (by decide), ?_⟩
  exact hbuilt _ _ _ (by decide) sample_written sample_built

end Results

end BeeRpc
