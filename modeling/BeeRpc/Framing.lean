import BeeRpc.Driver
import BeeRpc.Sender

namespace BeeRpc

open Wire Naming

-- A directory that is as it was stored: its parts are there and numbered in order, and its
-- positions are those of the lengths in its own expansion.
structure Directory.Complete (registry : Registry) (directory : Directory) : Prop where
  woven : directory.json = weave 1 directory.blocks
  described : ∃ doc : Document BlockId, directory.Describes registry.content doc ∧
    ∀ id ∈ doc.holes, ∃ content, registry.expansion id = some content

def Stored.Complete (registry : Registry) : Stored → Prop
  | .file _ => True
  | .dir directory => directory.Complete registry

-- What a sender reads from.
structure Registry.Correct (env : Enviroment) (registry : Registry) : Prop where
  addressed : registry.ContentAddressed env
  complete : ∀ id stored, registry.lookup id = some stored → stored.Complete registry

namespace Forest

-- The blocks are laid out in the expansion as in some encoding.
def Laid (registry : Registry) (forest : Forest) : Prop :=
  ∃ doc : Document BlockId, forest.layout [] = Piece.alternate [] (doc.pieces registry.content) ∧
    forest.blocks = doc.chains registry.content 0

-- Every block is framed around what its name stands for.
def Faithful (registry : Registry) : Forest → Prop
  | nil => True
  | chunk _ _ rest => rest.Faithful registry
  | block id _ body rest =>
      registry.expansion id = some (body.expand registry.content) ∧
        (body.blocks ≠ [] → body.Laid registry) ∧ body.Faithful registry ∧ rest.Faithful registry

section

variable (fill : BlockId → Bytes)

theorem expand_layout (forest : Forest) (current : Bytes) :
    ((forest.layout current).flatMap fun run => run.elim id fill) =
      current ++ forest.expand fill := by
  induction forest generalizing current with
  | nil => simp [layout, expand]
  | chunk skip content rest ih => simp [layout, expand, ih]
  | block id positions body rest ihBody ihRest => simp [layout, expand, ihRest]

theorem mem_layout (forest : Forest) (current : Bytes) (id : BlockId) :
    .inr id ∈ forest.layout current ↔ id ∈ forest.blocks.map Prod.fst := by
  induction forest generalizing current with
  | nil => simp [layout, blocks]
  | chunk skip content rest ih => exact ih _
  | block other positions body rest ihBody ihRest => simp [layout, blocks, ihRest]

theorem pieces_layout (chunks : List Bytes) (rest : Forest) (current : Bytes) :
    (pieces chunks rest).layout current = rest.layout (current ++ chunks.flatten) := by
  induction chunks generalizing current with
  | nil => simp [pieces]
  | cons content chunks ih =>
      rw [List.flatten_cons, ← List.append_assoc, ← ih]
      rfl

theorem pieces_stream (env : Enviroment) (chunks : List Bytes) (rest : Forest) :
    (pieces chunks rest).stream env = chunks.map (chunkBuffer none) ++ rest.stream env := by
  induction chunks with
  | nil => rfl
  | cons content chunks ih => exact congrArg (chunkBuffer none content :: ·) ih

theorem pieces_blocks (chunks : List Bytes) (rest : Forest) :
    (pieces chunks rest).blocks = rest.blocks := by
  induction chunks with
  | nil => rfl
  | cons content chunks ih => exact ih

theorem pieces_expand (chunks : List Bytes) (rest : Forest) :
    (pieces chunks rest).expand fill = chunks.flatten ++ rest.expand fill := by
  induction chunks with
  | nil => rfl
  | cons content chunks ih =>
      rw [List.flatten_cons, List.append_assoc, ← ih]
      rfl

theorem pieces_faithful (registry : Registry) (chunks : List Bytes) (rest : Forest) :
    (pieces chunks rest).Faithful registry ↔ rest.Faithful registry := by
  induction chunks with
  | nil => rfl
  | cons content chunks ih => exact ih

theorem pieces_nests (around : List BlockId) (chunks : List Bytes) (rest : Forest) :
    (pieces chunks rest).Nests around ↔ rest.Nests around := by
  induction chunks with
  | nil => rfl
  | cons content chunks ih => exact ih

end

end Forest

section

variable {env : Enviroment} {registry : Registry}

-- The reading of a block is its body as a forest.
def Framed (env : Enviroment) (registry : Registry) (around : List BlockId) (id : BlockId)
    (read : Yielded (Bytes ⊕ Block)) : Prop :=
  ∃ items body, read = .pure items ∧ items.map Buffer.ofItem = Forest.stream env body ∧
    registry.expansion id = some (body.expand registry.content) ∧
    (body.blocks ≠ [] → body.Laid registry) ∧ body.Faithful registry ∧ body.Nests (id :: around)

theorem map_ofItem_pieces (chunks : List Bytes) :
    (chunks.map .inl).map Buffer.ofItem = chunks.map (chunkBuffer none) := by
  rw [List.map_map]
  rfl

-- Content alone is a forest of one piece after another.
theorem framed_pieces {around : List BlockId} {id : BlockId} {chunks : List Bytes}
    (h : registry.expansion id = some chunks.flatten) :
    Framed env registry around id (.pure (chunks.map .inl)) := by
  refine ⟨_, Forest.pieces chunks .nil, rfl, ?_, ?_, ?_, ?_, ?_⟩
  · rw [map_ofItem_pieces, Forest.pieces_stream, Forest.stream, List.append_nil]
  · rw [Forest.pieces_expand, Forest.expand, List.append_nil, h]
  · rw [Forest.pieces_blocks]
    exact fun h => absurd rfl h
  · exact (Forest.pieces_faithful ..).mpr trivial
  · exact (Forest.pieces_nests ..).mpr trivial

theorem readEntries_framed {read : Bool → Nat → BlockId → Yielded (Bytes ⊕ Block)}
    {directory : Directory} {depth : Nat} {around : List BlockId}
    (haround : around.length < MAX_BLOCK_NESTING) (chains : List (BlockId × List Nat))
    (index : Nat) (runs : List (Bytes ⊕ BlockId))
    (hruns : directory.runs (weave index chains) = some runs)
    (hread : ∀ chain ∈ chains, chain.1 ≠ [] ∧ chain.1 ∉ around ∧
      Framed env registry around chain.1 (read (!decide (depth < env.blockDepth)) (depth + 1) chain.1)) :
    ∃ items forest, readEntries env read directory false depth (weave index chains) = .pure items ∧
      items.map Buffer.ofItem = Forest.stream env forest ∧ forest.layout [] = runs ∧
      forest.blocks = chains ∧ forest.Faithful registry ∧ forest.Nests around := by
  induction chains generalizing index runs with
  | nil =>
      obtain ⟨content, more, hcontent, hmore, rfl⟩ := runs_part_eq_some.mp hruns
      obtain rfl := Option.some.inj hmore
      refine ⟨(readFileByChunks content).map .inl, Forest.pieces (readFileByChunks content) .nil,
        ?_, ?_, ?_, ?_, ?_, ?_⟩
      · simp only [weave, readEntries, hcontent, Option.getD_some]
        rw [pure_andThen_pure, List.append_nil]
      · rw [map_ofItem_pieces, Forest.pieces_stream, Forest.stream, List.append_nil]
      · rw [Forest.pieces_layout, readFileByChunks_flatten]
        rfl
      · rw [Forest.pieces_blocks]
        rfl
      · exact (Forest.pieces_faithful ..).mpr trivial
      · exact (Forest.pieces_nests ..).mpr trivial
  | cons chain chains ih =>
      obtain ⟨content, _, hcontent, hbehind, rfl⟩ := runs_part_eq_some.mp hruns
      obtain ⟨more, hmore, rfl⟩ := runs_block_eq_some.mp hbehind
      obtain ⟨items, forest, hitems, hstream, hlayout, hblocks, hfaithful, hnests⟩ :=
        ih (index + 1) more hmore fun other ho => hread other (List.mem_cons_of_mem _ ho)
      obtain ⟨hid, hnew, inner, body, hinner, hbody, hexpand, hlaid, hfaithful', hnests'⟩ :=
        hread chain (List.mem_cons_self ..)
      let mark : Block := { blockPointer env chain.1 with previousLengthsPosition := chain.2 }
      refine ⟨(readFileByChunks content).map .inl ++ (.inr mark :: inner ++ .inr mark :: items),
        Forest.pieces (readFileByChunks content) (.block chain.1 chain.2 body forest),
        ?_, ?_, ?_, ?_, ?_, ?_⟩
      · simp only [weave, readEntries, hcontent, Option.getD_some, Bool.false_eq_true, if_false,
          hinner, hitems, pure_andThen_pure, List.append_assoc, List.cons_append]
        rfl
      · rw [Forest.pieces_stream, Forest.stream, List.map_append, map_ofItem_pieces, ← hstream,
          ← hbody]
        simp only [List.map_append, List.map_cons, List.cons_append]
        rfl
      · rw [Forest.pieces_layout, readFileByChunks_flatten, Forest.layout, hlayout,
          List.nil_append]
      · rw [Forest.pieces_blocks, Forest.blocks, hblocks]
      · exact (Forest.pieces_faithful ..).mpr ⟨hexpand, hlaid, hfaithful', hfaithful⟩
      · exact (Forest.pieces_nests ..).mpr ⟨hid, hnew, haround, hnests', hnests⟩

theorem block_mem_weave (index : Nat) (chains : List (BlockId × List Nat)) :
    ∀ chain ∈ chains, .block chain.1 chain.2 ∈ weave index chains := by
  induction chains generalizing index with
  | nil => simp
  | cons chain chains ih =>
      intro other hother
      rcases List.mem_cons.mp hother with rfl | hother
      · simp [weave]
      · exact List.mem_cons_of_mem _ (List.mem_cons_of_mem _ (ih _ other hother))

theorem expandEntries_block {directory : Directory} {sub : BlockId → Option Bytes}
    {entries : List JsonEntry} {content : Bytes}
    (h : directory.expandEntries sub entries = some content) {id : BlockId} {positions : List Nat}
    (hmem : .block id positions ∈ entries) : ∃ bytes, sub id = some bytes := by
  induction entries generalizing content with
  | nil => cases hmem
  | cons entry rest ih =>
      cases entry with
      | part index =>
          obtain ⟨_, _, -, hmore, -⟩ := Directory.expandEntries_part_eq_some.mp h
          exact ih hmore ((List.mem_cons.mp hmem).resolve_left (by simp))
      | block other positions' =>
          obtain ⟨bytes, _, hbytes, hmore, -⟩ := Directory.expandEntries_block_eq_some.mp h
          rcases List.mem_cons.mp hmem with heq | hmem
          · exact ⟨bytes, (JsonEntry.block.inj heq).1 ▸ hbytes⟩
          · exact ih hmore hmem

theorem id_ne_nil (hd : env.Digests) (h : registry.ContentAddressed env) {id : BlockId}
    {stored : Stored} (hl : registry.lookup id = some stored) : id ≠ [] := by
  obtain ⟨content, -, hid⟩ := h id stored hl
  exact hid ▸ hd content

-- A complete directory, framed by a forest.
structure Directory.FramedBy (registry : Registry) (directory : Directory) (forest : Forest) :
    Prop where
  blocks : forest.blocks = directory.blocks
  runs : directory.runs directory.json = some (forest.layout [])
  laid : forest.Laid registry

theorem Directory.FramedBy.expands {directory : Directory} {forest : Forest}
    (h : directory.FramedBy registry forest)
    (hcomplete : ∀ id ∈ forest.blocks.map Prod.fst, ∃ content, registry.expansion id = some content) :
    directory.expandWith registry.expansion = some (forest.expand registry.content) := by
  have hexpand := expandEntries_of_runs registry.expansion registry.content directory.json _ h.runs
    fun id hid => Registry.content_eq (hcomplete id ((Forest.mem_layout ..).mp hid))
  rw [Forest.expand_layout, List.nil_append] at hexpand
  exact hexpand

theorem readDirectory_framed {read : Bool → Nat → BlockId → Yielded (Bytes ⊕ Block)}
    {directory : Directory} (hdirectory : directory.Complete registry) {depth : Nat}
    {around : List BlockId} (haround : around.length < MAX_BLOCK_NESTING)
    (hread : ∀ chain ∈ directory.blocks, chain.1 ≠ [] ∧ chain.1 ∉ around ∧
      Framed env registry around chain.1 (read (!decide (depth < env.blockDepth)) (depth + 1) chain.1)) :
    ∃ items forest, readEntries env read directory false depth directory.json = .pure items ∧
      items.map Buffer.ofItem = Forest.stream env forest ∧ directory.FramedBy registry forest ∧
      forest.Faithful registry ∧ forest.Nests around := by
  obtain ⟨doc, hdoc, -⟩ := hdirectory.described
  have hruns := hdoc.runs
  rw [hdirectory.woven] at hruns
  obtain ⟨items, forest, hitems, hstream, hlayout, hblocks, hfaithful, hnests⟩ :=
    readEntries_framed haround directory.blocks 1 _ hruns hread
  rw [← hdirectory.woven] at hitems
  refine ⟨items, forest, hitems, hstream, ⟨hblocks, hlayout ▸ hdoc.runs, doc, hlayout, ?_⟩, hfaithful,
    hnests⟩
  rw [hblocks, hdoc.chains]

-- A block that has its value in fewer rounds than the blocks around it is none of them.
theorem readBlockLoop_framed (hd : env.Digests) (hregistry : registry.Correct env)
    (hdepth : env.blockDepth ≤ MAX_BLOCK_NESTING) (n : Nat) :
    ∀ (fuel depth : Nat) (ignoreBlocks : Bool) (id : BlockId) (around : List BlockId)
      (content : Bytes), n ≤ fuel → registry.contents.within n id = some content →
      (∀ other ∈ around, registry.contents.within n other = none) →
      (ignoreBlocks = false → depth = around.length + 2 ∧ depth ≤ env.blockDepth) →
      Framed env registry around id (readBlockLoop env registry fuel ignoreBlocks depth id) := by
  induction n using Nat.strong_induction_on with
  | _ n ih =>
      intro fuel depth ignoreBlocks id around content hfuel hcontent haround hframes
      have hexpansion : registry.expansion id = some content :=
        registry.contents.value_of_within n id content hcontent
      by_cases hignore : ignoreBlocks = true
      · obtain ⟨chunks, hchunks, hflatten⟩ := readBlockLoop_flat hregistry.addressed.filesNamed n fuel
          depth id content hfuel hcontent
        rw [hignore, hchunks]
        exact framed_pieces (hflatten ▸ hexpansion)
      · obtain rfl := Bool.eq_false_of_not_eq_true hignore
        obtain ⟨hlevel, hlimit⟩ := hframes rfl
        obtain ⟨stored, hl⟩ := Registry.exists_lookup_of_expansion hexpansion
        obtain ⟨fuel, rfl⟩ : ∃ m, fuel = m + 1 := by
          cases n with
          | zero => simp [Naming.System.within] at hcontent
          | succ n => exact ⟨fuel - 1, by omega⟩
        cases stored with
        | file bytes =>
            simp only [readBlockLoop, hl, hregistry.addressed.filesNamed id bytes hl, ne_eq,
              not_true_eq_false, if_false]
            refine framed_pieces ?_
            rw [readFileByChunks_flatten, Registry.expansion_file hl]
        | dir directory =>
            simp only [readBlockLoop, hl]
            -- the first round in which it has its value
            obtain ⟨m, hm, hnone, bytes, hbytes⟩ : ∃ m, m < n ∧
                registry.contents.within m id = none ∧
                ∃ bytes, registry.contents.within (m + 1) id = some bytes := by
              clear ih hfuel haround
              induction n with
              | zero => simp [Naming.System.within] at hcontent
              | succ n ihn =>
                  cases hn : registry.contents.within n id with
                  | none => exact ⟨n, Nat.lt_succ_self _, hn, content, hcontent⟩
                  | some bytes =>
                      have heq := registry.contents.within_succ n id bytes hn
                      rw [hcontent] at heq
                      obtain ⟨m, hm, h⟩ := ihn (Option.some.inj heq ▸ hn)
                      exact ⟨m, hm.trans (Nat.lt_succ_self _), h⟩
            have hexpand : directory.expandWith (registry.contents.within m) = some bytes := by
              simp only [Naming.System.within, Registry.contents, Registry.expandRule, hl] at hbytes
              exact hbytes
            have hdirectory : directory.Complete registry := hregistry.complete id _ hl
            have hwithin : ∀ chain ∈ directory.blocks, ∃ bytes,
                registry.contents.within m chain.1 = some bytes := by
              intro chain hchain
              refine @expandEntries_block _ _ _ _ hexpand _ chain.2 ?_
              rw [hdirectory.woven]
              exact block_mem_weave 1 _ chain hchain
            have hnones : ∀ other ∈ id :: around, registry.contents.within m other = none := by
              intro other hother
              rcases List.mem_cons.mp hother with rfl | hother
              · exact hnone
              · cases hother' : registry.contents.within m other with
                | none => rfl
                | some found =>
                    have := registry.contents.within_mono hm.le other found hother'
                    rw [haround other hother] at this
                    cases this
            obtain ⟨items, forest, hitems, hstream, hframed, hfaithful, hnests⟩ :=
              @readDirectory_framed env _ (readBlockLoop env registry fuel) _ hdirectory depth
                (id :: around) (by simp; omega) (by
                  intro chain hchain
                  obtain ⟨found, hfound⟩ := hwithin chain hchain
                  obtain ⟨inner, hinner⟩ := Registry.exists_lookup_of_expansion
                    (registry.contents.value_of_within m chain.1 found hfound)
                  refine ⟨id_ne_nil hd hregistry.addressed hinner, ?_, ?_⟩
                  · intro hmem
                    rw [hnones chain.1 hmem] at hfound
                    cases hfound
                  · refine ih m hm fuel (depth + 1) _ chain.1 (id :: around) found (by omega) hfound
                      hnones fun h => ?_
                    simp only [Bool.not_eq_false', decide_eq_true_eq] at h
                    exact ⟨by simp; omega, h⟩)
            refine ⟨items, forest, hitems, hstream, ?_, fun _ => hframed.laid, hfaithful, hnests⟩
            rw [Registry.expansion_dir hl]
            refine hframed.expands fun other hother => ?_
            rw [hframed.blocks] at hother
            obtain ⟨chain, hchain, rfl⟩ := List.mem_map.mp hother
            obtain ⟨found, hfound⟩ := hwithin chain hchain
            exact ⟨found, registry.contents.value_of_within m chain.1 found hfound⟩

theorem Directory.Complete.holds {directory : Directory} (h : directory.Complete registry) :
    ∀ chain ∈ directory.blocks, ∃ content, registry.expansion chain.1 = some content := by
  obtain ⟨doc, hdoc, hholes⟩ := h.described
  intro chain hchain
  rw [hdoc.chains] at hchain
  refine hholes chain.1 ?_
  rw [← Document.chains_holes registry.content 0]
  exact List.mem_map_of_mem hchain

-- A stored object, framed by a forest.
structure Stored.FramedBy (registry : Registry) (stored : Stored) (forest : Forest) : Prop where
  faithful : forest.Faithful registry
  nests : forest.Nests []
  expands : stored.expandWith registry.expansion = some (forest.expand registry.content)
  file : ∀ content, stored = .file content → forest.blocks = []
  dir : ∀ directory, stored = .dir directory → directory.FramedBy registry forest

-- What is sent of a complete object frames it.
theorem readFromRegistry_framed (hd : env.Digests) (hregistry : registry.Correct env)
    (hdepth : env.blockDepth ≤ MAX_BLOCK_NESTING) {stored : Stored}
    (hstored : stored.Complete registry) :
    ∃ forest, readFromRegistry env registry stored = .pure (forest.stream env) ∧
      stored.FramedBy registry forest := by
  cases stored with
  | file content =>
      refine ⟨Forest.pieces (readFileByChunks content) .nil, ?_, ?_, ?_, ?_, ?_, ?_⟩
      · rw [Forest.pieces_stream, Forest.stream, List.append_nil, ← map_ofItem_pieces]
        rfl
      · exact (Forest.pieces_faithful ..).mpr trivial
      · exact (Forest.pieces_nests ..).mpr trivial
      · rw [Forest.pieces_expand, readFileByChunks_flatten, Forest.expand, List.append_nil]
        rfl
      · intro _ _
        rw [Forest.pieces_blocks, Forest.blocks]
      · intro directory h
        cases h
  | dir directory =>
      have hcomplete : directory.Complete registry := hstored
      obtain ⟨items, forest, hitems, hstream, hframed, hfaithful, hnests⟩ :=
        @readDirectory_framed env _ (readBlockLoop env registry (registry.length + 1)) _ hcomplete 1 []
          (by decide) (by
            intro chain hchain
            obtain ⟨content, hcontent⟩ := hcomplete.holds chain hchain
            obtain ⟨inner, hinner⟩ := Registry.exists_lookup_of_expansion hcontent
            refine ⟨id_ne_nil hd hregistry.addressed hinner, List.not_mem_nil, ?_⟩
            refine readBlockLoop_framed hd hregistry hdepth registry.length _ 2 _ chain.1 [] content
              (Nat.le_succ _) (Registry.within_length hcontent) (by simp) fun h => ⟨rfl, ?_⟩
            have hdeeper : 1 < env.blockDepth := by simpa using h
            exact hdeeper)
      refine ⟨forest, ?_, hfaithful, hnests, ?_, ?_, ?_⟩
      · simp only [readFromRegistry, readMultiblockDirectory, hitems, Yielded.map, Yielded.pure,
          hstream]
      · refine hframed.expands fun id hid => ?_
        rw [hframed.blocks] at hid
        obtain ⟨chain, hchain, rfl⟩ := List.mem_map.mp hid
        exact hcomplete.holds chain hchain
      · intro content h
        cases h
      · intro other h
        obtain rfl := Stored.dir.inj h
        exact hframed

-- A message on the wire: its content between its head and a separator, or all of it in one
-- buffer.
inductive Sent where
  | framed (head : Head) (forest : Forest)
  | single (head : Head) (content : Bytes)
  deriving Repr, DecidableEq

namespace Sent

def head : Sent → Head
  | framed head _ => head
  | single head _ => head

def forest : Sent → Forest
  | framed _ forest => forest
  | single _ content => .chunk none content .nil

def stream (env : Enviroment) : Sent → List Buffer
  | framed head forest => { head := some head } :: forest.stream env ++ [separatorBuffer]
  | single head content => [singleBuffer head content]

end Sent

-- What a message has on the disk when it is sent.
def Outgoing.stored : Outgoing → Stored
  | dir stored _ => stored
  | other => .file other.messageToBytes

-- A message and what was sent of it.
structure Outgoing.SentAs (registry : Registry) (indexOf : Field → Option Int)
    (message : Outgoing) (sent : Sent) : Prop where
  head : indexOf message.type = some sent.head.index
  framed : message.stored.FramedBy registry sent.forest

theorem framed_of_sent {indexOf : Field → Option Int} {messages : List Outgoing} {sents : List Sent}
    (h : List.Forall₂ (Outgoing.SentAs registry indexOf) messages sents) :
    ∀ sent ∈ sents, ∃ stored : Stored, stored.FramedBy registry sent.forest := by
  induction h with
  | nil => exact fun sent hsent => absurd hsent List.not_mem_nil
  | cons hone _ ih =>
      intro sent hsent
      rcases List.mem_cons.mp hsent with rfl | hsent
      · exact ⟨_, hone.framed⟩
      · exact ih sent hsent

theorem carries_append (forest : Forest) (hnests : forest.Nests []) {rest : List Buffer}
    {behind : Forest} {more : List Buffer} (h : Carries env false rest behind more) :
    Carries env false (forest.stream env ++ rest) (forest.append behind) more := by
  induction forest with
  | nil => exact h
  | chunk skip content rest ih => exact .chunk skip content (ih hnests)
  | block id positions body rest ihBody ihRest =>
      obtain ⟨hid, -, -, hbody, hrest⟩ := hnests
      have hblock := Carries.block positions hid hbody (ihRest hrest)
      rw [Forest.stream, List.append_assoc]
      exact hblock

theorem carries_closed (read : Forest) (hnests : read.Nests []) (more : List Buffer) :
    Carries env false (read.stream env ++ separatorBuffer :: more) read more := by
  have h := carries_append read hnests (@Carries.separator env more)
  rwa [append_nil] at h

theorem carries_cut (cut : Cut) (hnests : cut.Nests []) :
    Carries env false (cut.stream env) cut.close [] := by
  cases cut with
  | last forest =>
      have h := carries_append forest hnests (@Carries.ended env)
      rwa [append_nil, List.append_nil] at h
  | inside before id positions inner =>
      obtain ⟨hbefore, hid, -, -, hinner⟩ := hnests
      exact carries_append before hbefore (.cut positions hid hinner)

theorem Sent.carries (sent : Sent) (hnests : sent.forest.Nests []) (more : List Buffer) :
    Carries env true (sent.stream env ++ more) sent.forest more := by
  cases sent with
  | framed head forest =>
      have h := @carries_closed env forest hnests more
      have hstream : (Sent.framed head forest).stream env ++ more =
          { head := some head } :: (forest.stream env ++ separatorBuffer :: more) := by
        simp [stream]
      rw [hstream]
      exact .head head h
  | single head content => exact .single head content more

end

section

variable {sender : Sender}

-- The indices that the types of the messages are sent under.
def Sender.indexOf (sender : Sender) (messages : List Outgoing) (type : Field) : Option Int :=
  (sender.allIndices messages).toOption.bind fun indices =>
    (Sender.reversed indices).lookup type

theorem sendFile_framed (hd : sender.env.Digests) (hregistry : sender.registry.Correct sender.env)
    (hdepth : sender.env.blockDepth ≤ MAX_BLOCK_NESTING) (hskips : sender.skips = none)
    {stored : Stored} (hstored : stored.Complete sender.registry) (number : Nat) (head : Head) :
    ∃ forest, sender.sendFile number head stored =
        .pure ((Sent.framed head forest).stream sender.env) ∧
      stored.FramedBy sender.registry forest := by
  obtain ⟨forest, hread, hframed⟩ := readFromRegistry_framed hd hregistry hdepth hstored
  refine ⟨forest, ?_, hframed⟩
  simp only [Sender.sendFile, Sender.sendStored, hskips, hread, pure_andThen_pure, Sent.stream]
  rfl

-- What is sent of one message.
def Sender.send (sender : Sender) (number : Nat) (head : Head) : Outgoing → Yielded Buffer
  | .dir stored _ => sender.sendFile number head stored
  | message => sender.sendMessage number head message

theorem payload_cons (indices : Dict Field Int) (number : Nat) (message : Outgoing)
    (messages : List Outgoing) {index : Int} (hindex : indices.lookup message.type = some index) :
    sender.payload indices number (message :: messages) =
      (sender.send number ⟨index⟩ message).andThen (sender.payload indices (number + 1) messages) := by
  simp only [Sender.payload, hindex]
  cases message <;> rfl

-- The messages one by one.
theorem payload_forall {sentAs : Outgoing → Sent → Prop} (indices : Dict Field Int)
    (messages : List Outgoing) (number : Nat)
    (h : ∀ message ∈ messages, ∃ index, indices.lookup message.type = some index ∧
      ∀ number, ∃ sent : Sent, sender.send number ⟨index⟩ message = .pure (sent.stream sender.env) ∧
        sentAs message sent) :
    ∃ sents, sender.payload indices number messages =
        .pure (sents.flatMap (Sent.stream sender.env)) ∧ List.Forall₂ sentAs messages sents := by
  induction messages generalizing number with
  | nil => exact ⟨[], rfl, .nil⟩
  | cons message messages ih =>
      obtain ⟨sents, hsents, hall⟩ := ih (number + 1) fun other ho =>
        h other (List.mem_cons_of_mem _ ho)
      obtain ⟨index, hindex, hsend⟩ := h message (List.mem_cons_self ..)
      obtain ⟨sent, hstream, hsent⟩ := hsend number
      refine ⟨sent :: sents, ?_, .cons hsent hall⟩
      rw [payload_cons indices number message messages hindex, hstream, hsents, pure_andThen_pure,
        List.flatMap_cons]

-- A message goes in one buffer, or the way a file goes.
theorem send_cases (number : Nat) (head : Head) (message : Outgoing) :
    (∃ content, message.stored = .file content ∧
      sender.send number head message = .pure [singleBuffer head content]) ∨
      sender.send number head message = sender.sendFile number head message.stored := by
  cases message with
  | dir stored type => exact Or.inr rfl
  | message cls value =>
      exact (sendMessage_cases number head (.message cls value)).imp (fun h => ⟨_, rfl, h⟩) id
  | bytes content =>
      exact (sendMessage_cases number head (.bytes content)).imp (fun h => ⟨_, rfl, h⟩) id
  | str content =>
      exact (sendMessage_cases number head (.str content)).imp (fun h => ⟨_, rfl, h⟩) id

theorem payload_sent (hd : sender.env.Digests) (hregistry : sender.registry.Correct sender.env)
    (hdepth : sender.env.blockDepth ≤ MAX_BLOCK_NESTING) (hskips : sender.skips = none)
    (indices : Dict Field Int) (messages : List Outgoing) (number : Nat)
    (hcomplete : ∀ message ∈ messages, message.stored.Complete sender.registry)
    (hindices : ∀ message ∈ messages, ∃ index, indices.lookup message.type = some index) :
    ∃ sents, sender.payload indices number messages =
        .pure (sents.flatMap (Sent.stream sender.env)) ∧
      List.Forall₂ (Outgoing.SentAs sender.registry fun type => indices.lookup type)
        messages sents := by
  refine payload_forall indices messages number fun message hmessage => ?_
  obtain ⟨index, hindex⟩ := hindices message hmessage
  refine ⟨index, hindex, fun number => ?_⟩
  rcases @send_cases sender number ⟨index⟩ message with ⟨content, hstored, hsend⟩ | hsend
  · refine ⟨.single ⟨index⟩ content, hsend, hindex, ?_⟩
    rw [hstored]
    refine ⟨trivial, trivial, ?_, fun _ _ => rfl, fun _ h => by cases h⟩
    rw [Sent.forest, Forest.expand, Forest.expand, List.append_nil]
    rfl
  · obtain ⟨forest, hstream, hframed⟩ := sendFile_framed hd hregistry hdepth hskips
      (hcomplete message hmessage) number ⟨index⟩
    exact ⟨.framed ⟨index⟩ forest, hsend.trans hstream, hindex, hframed⟩

theorem exists_indices (messages : List Outgoing)
    (hready : messages ≠ [] ∨ 1 < (Dict.set 0 .bytes sender.indices).length) :
    ∃ indices, sender.allIndices messages = .ok indices := by
  simp only [Sender.allIndices]
  split
  · cases messages with
    | nil =>
        rename_i hlen
        rcases hready with h | h
        · exact absurd rfl h
        · omega
    | cons message messages => cases message <;> exact ⟨_, rfl⟩
  · exact ⟨_, rfl⟩

-- What a sender with a correct registry sends of complete messages.
theorem serializeToBuffer_sent (hd : sender.env.Digests)
    (hregistry : sender.registry.Correct sender.env)
    (hdepth : sender.env.blockDepth ≤ MAX_BLOCK_NESTING) (hskips : sender.skips = none)
    (messages : List Outgoing)
    (hready : messages ≠ [] ∨ 1 < (Dict.set 0 .bytes sender.indices).length)
    (hcomplete : ∀ message ∈ messages, message.stored.Complete sender.registry)
    (hindices : ∀ message ∈ messages, ∃ index, sender.indexOf messages message.type = some index) :
    ∃ sents, serializeToBuffer sender messages =
        .pure (sents.flatMap (Sent.stream sender.env)) ∧
      List.Forall₂ (Outgoing.SentAs sender.registry (sender.indexOf messages)) messages sents := by
  obtain ⟨indices, hall⟩ := exists_indices messages hready
  have hindexOf : sender.indexOf messages = fun type => (Sender.reversed indices).lookup type := by
    funext type
    rw [Sender.indexOf, hall]
    rfl
  rw [hindexOf] at hindices ⊢
  simp only [serializeToBuffer, hall]
  exact payload_sent hd hregistry hdepth hskips _ messages 0 hcomplete hindices

end

end BeeRpc
