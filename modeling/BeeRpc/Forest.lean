import BeeRpc.Parser

namespace BeeRpc

open Wire

-- A stream of buffers with its blocks closed: pieces of content, any of which may carry a
-- skip request, and blocks between their two markers.
inductive Forest where
  | nil
  | chunk (skip : Option Block) (content : Bytes) (rest : Forest)
  | block (id : BlockId) (positions : List Nat) (body rest : Forest)
  deriving Repr, DecidableEq

-- A piece of content on the wire.
def chunkBuffer (skip : Option Block) (content : Bytes) : Buffer := { chunk := some content, skip }

-- The start and the end of a block, as read_multiblock_directory yields them.
def marker (env : Enviroment) (id : BlockId) (positions : List Nat) : Buffer :=
  { block := some { blockPointer env id with previousLengthsPosition := positions } }

def separatorBuffer : Buffer := { separator := some true }

namespace Forest

variable (env : Enviroment)

def stream : Forest → List Buffer
  | nil => []
  | chunk skip content rest => chunkBuffer skip content :: rest.stream
  | block id positions body rest =>
      marker env id positions :: body.stream ++ marker env id positions :: rest.stream

-- What a reader of parser_iterator gets of it while a block is open around it.
def events : Forest → List Event
  | nil => []
  | chunk skip content rest => .pull :: .buffer (chunkBuffer skip content) :: rest.events
  | block id positions body rest =>
      .pull :: .ask id :: .buffer (marker env id positions) :: body.events ++
        .pull :: .buffer (marker env id positions) :: rest.events

-- No block is inside itself or in one of those open around the forest, and none is deeper
-- than a receiver reads.
def Nests (blocks : List BlockId) : Forest → Prop
  | nil => True
  | chunk _ _ rest => rest.Nests blocks
  | block id _ body rest =>
      id ≠ [] ∧ id ∉ blocks ∧ blocks.length < MAX_BLOCK_NESTING ∧ body.Nests (id :: blocks) ∧
        rest.Nests blocks

def append : Forest → Forest → Forest
  | nil, more => more
  | chunk skip content rest, more => chunk skip content (rest.append more)
  | block id positions body rest, more => block id positions body (rest.append more)

-- The blocks that no other block is around, with their positions.
def blocks : Forest → List (BlockId × List Nat)
  | nil => []
  | chunk _ _ rest => rest.blocks
  | block id positions _ rest => (id, positions) :: rest.blocks

-- The content before the first block, between blocks and after the last one.
def parts (current : Bytes) : Forest → List Bytes
  | nil => [current]
  | chunk _ content rest => rest.parts (current ++ content)
  | block _ _ _ rest => current :: rest.parts []

-- That content and those blocks in turn.
def layout (current : Bytes) : Forest → List (Bytes ⊕ BlockId)
  | nil => [.inl current]
  | chunk _ content rest => rest.layout (current ++ content)
  | block id _ _ rest => .inl current :: .inr id :: rest.layout []

-- The content with that of the blocks.
def expand (fill : BlockId → Bytes) : Forest → Bytes
  | nil => []
  | chunk _ content rest => content ++ rest.expand fill
  | block id _ _ rest => fill id ++ rest.expand fill

-- Pieces of content in front of a forest.
def pieces (chunks : List Bytes) (rest : Forest) : Forest :=
  chunks.foldr (fun content rest => chunk none content rest) rest

end Forest

section

variable (env : Enviroment)

@[simp] theorem chunkBuffer_blockHash (skip : Option Block) (content : Bytes) :
    (chunkBuffer skip content).blockHash env = none := rfl

variable {env}

-- The buffers of a forest are pieces of content and markers.
theorem forall_mem_stream {p : Buffer → Prop} (hchunk : ∀ skip content, p (chunkBuffer skip content))
    (hmarker : ∀ id positions, p (marker env id positions)) (forest : Forest) :
    ∀ b ∈ forest.stream env, p b := by
  induction forest with
  | nil => exact fun b hb => absurd hb List.not_mem_nil
  | chunk skip content rest ih =>
      intro b hb
      rcases List.mem_cons.mp hb with rfl | hb
      · exact hchunk skip content
      · exact ih b hb
  | block id positions body rest ihBody ihRest =>
      intro b hb
      simp only [Forest.stream, List.cons_append, List.mem_cons, List.mem_append] at hb
      rcases hb with rfl | hb | rfl | hb
      · exact hmarker id positions
      · exact ihBody b hb
      · exact hmarker id positions
      · exact ihRest b hb

theorem marker_blockHash (hd : env.Digests) (id : BlockId) (positions : List Nat) :
    (marker env id positions).blockHash env = some id :=
  getHashFromBlock_blockPointer env hd id positions

theorem marker_truthy (hd : env.Digests) {id : BlockId} (hid : id ≠ []) (positions : List Nat) :
    truthy ((marker env id positions).blockHash env) = some id :=
  truthy_eq_some.mpr ⟨marker_blockHash hd id positions, hid⟩

theorem andThen_andThen {α : Type} (left right : List α) (more : Yielded α) :
    (Yielded.pure left).andThen ((Yielded.pure right).andThen more) =
      (Yielded.pure (left ++ right)).andThen more := by
  simp [Yielded.andThen, Yielded.pure]

theorem pure_andThen_pure {α : Type} (left right : List α) :
    (Yielded.pure left).andThen (Yielded.pure right) = Yielded.pure (left ++ right) := rfl

theorem nil_andThen {α : Type} (more : Yielded α) : (Yielded.pure []).andThen more = more := rfl

-- A piece of content is passed on, whatever is open.
theorem parserIterator_chunk (frames : Frames) (blocks : List BlockId) (skip : Option Block)
    (content : Bytes) (rest : List Buffer) :
    parserIterator env frames blocks (chunkBuffer skip content :: rest) =
      (Yielded.pure [.pull, .buffer (chunkBuffer skip content)]).andThen
        (parserIterator env frames blocks rest) := rfl

theorem parserIterator_open (hd : env.Digests) (frames : Frames) (blocks : List BlockId)
    {id : BlockId} (positions : List Nat) (rest : List Buffer) (hid : id ≠ [])
    (hnew : id ∉ blocks) (hdepth : blocks.length < MAX_BLOCK_NESTING) :
    parserIterator env frames blocks (marker env id positions :: rest) =
      (Yielded.pure [.pull, .ask id, .buffer (marker env id positions)]).andThen
        (parserIterator env (marker env id positions :: frames) (id :: blocks) rest) := by
  rw [parserIterator, marker_truthy hd hid]
  simp only [if_neg hnew, if_neg (Nat.not_le.mpr hdepth)]
  rfl

-- The end of a block in another one is passed on to whom reads the one around it.
theorem parserIterator_close (hd : env.Digests) (frames : Frames) (blocks : List BlockId)
    {id : BlockId} (positions : List Nat) (rest : List Buffer) (hid : id ≠ [])
    (hframes : frames ≠ []) (hblocks : blocks ≠ []) (opening : Buffer) :
    parserIterator env (opening :: frames) (id :: blocks) (marker env id positions :: rest) =
      (Yielded.pure [.pull, .buffer (marker env id positions)]).andThen
        (parserIterator env frames blocks rest) := by
  obtain ⟨outer, frames, rfl⟩ := List.exists_cons_of_ne_nil hframes
  rw [parserIterator, marker_truthy hd hid]
  simp only [List.mem_cons_self, if_true, List.head?_cons, List.tail_cons, hblocks, if_false, leave]
  rfl

-- Inside a block a forest is passed on as it is.
theorem parserIterator_forest (hd : env.Digests) (forest : Forest) (frames : Frames)
    (blocks : List BlockId) (rest : List Buffer) (hframes : frames ≠ []) (hblocks : blocks ≠ [])
    (hnests : forest.Nests blocks) :
    parserIterator env frames blocks (forest.stream env ++ rest) =
      (Yielded.pure (forest.events env)).andThen (parserIterator env frames blocks rest) := by
  induction forest generalizing frames blocks rest with
  | nil => rfl
  | chunk skip content more ih =>
      rw [Forest.stream, List.cons_append, parserIterator_chunk, ih _ _ _ hframes hblocks hnests,
        andThen_andThen]
      rfl
  | block id positions body more ihBody ihMore =>
      obtain ⟨hid, hnew, hdepth, hbody, hmore⟩ := hnests
      simp only [Forest.stream, List.cons_append, List.append_assoc]
      rw [parserIterator_open hd _ _ positions _ hid hnew hdepth,
        ihBody _ _ _ (List.cons_ne_nil _ _) (List.cons_ne_nil _ _) hbody,
        parserIterator_close hd _ _ positions _ hid hframes hblocks,
        ihMore _ _ _ hframes hblocks hmore, andThen_andThen, andThen_andThen, andThen_andThen]
      simp [Forest.events]

-- Outside all blocks it ends behind a block, whose end it keeps to itself.
theorem parserIterator_topBlock (hd : env.Digests) {id : BlockId} (positions : List Nat)
    (body : Forest) (rest : List Buffer) (hid : id ≠ []) (hbody : body.Nests [id]) :
    parserIterator env [] [] (marker env id positions :: body.stream env ++
        marker env id positions :: rest) =
      .pure (.pull :: .ask id :: .buffer (marker env id positions) :: body.events env ++
        [.pull]) := by
  rw [List.cons_append, parserIterator_open hd _ _ positions _ hid List.not_mem_nil
    (by decide), parserIterator_forest hd body _ _ _ (List.cons_ne_nil _ _)
    (List.cons_ne_nil _ _) hbody, parserIterator, marker_truthy hd hid]
  simp only [List.mem_cons_self, if_true, List.head?_cons, List.tail_cons]
  rfl

theorem parserIterator_separator (rest : List Buffer) :
    parserIterator env [] [] (separatorBuffer :: rest) = .pure [.pull] := rfl

theorem parserIterator_head (head : Head) (rest : List Buffer) :
    parserIterator env [] [] ({ head := some head } :: rest) =
      (Yielded.pure [.pull]).andThen (parserIterator env [] [] rest) := rfl

end

end BeeRpc
