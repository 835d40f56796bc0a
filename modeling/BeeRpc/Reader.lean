import BeeRpc.Registry

namespace BeeRpc

open Wire

def CHUNK_SIZE : Nat := 1024 * 1024

-- What a generator gives before it ends or raises.
structure Yielded (α : Type) where
  items : List α
  raised : Option Err := none
  deriving Repr, DecidableEq

namespace Yielded

variable {α β : Type}

def pure (items : List α) : Yielded α := ⟨items, none⟩

def raise (e : Err) : Yielded α := ⟨[], some e⟩

-- `yield from` one generator and then another.
def andThen (first second : Yielded α) : Yielded α :=
  match first.raised with
  | some e => ⟨first.items, some e⟩
  | none => ⟨first.items ++ second.items, second.raised⟩

def map (f : α → β) (y : Yielded α) : Yielded β := ⟨y.items.map f, y.raised⟩

@[simp] theorem pure_andThen (items : List α) (second : Yielded α) :
    (pure items).andThen second = ⟨items ++ second.items, second.raised⟩ := rfl

@[simp] theorem mk_none_andThen (items : List α) (second : Yielded α) :
    (⟨items, none⟩ : Yielded α).andThen second = ⟨items ++ second.items, second.raised⟩ := rfl

end Yielded

-- Each piece takes at least a byte, so the content's length is enough fuel.
def chunkLoop : Nat → Bytes → List Bytes
  | 0, _ => []
  | fuel + 1, content =>
      if content = [] then []
      else content.take CHUNK_SIZE :: chunkLoop fuel (content.drop CHUNK_SIZE)

def readFileByChunks (content : Bytes) : List Bytes := chunkLoop content.length content

section

variable (env : Enviroment) (registry : Registry)

-- reader.read_multiblock_directory over the entries of a `_.json`: `.inl` is a piece of
-- content, `.inr` a marker. A part that is missing reads as no bytes, since
-- read_file_by_chunks keeps its exception to itself.
def readEntries (read : Bool → Nat → BlockId → Yielded (Bytes ⊕ Block)) (directory : Directory)
    (ignoreBlocks : Bool) (depth : Nat) : List JsonEntry → Yielded (Bytes ⊕ Block)
  | [] => .pure []
  | .part index :: rest =>
      (Yielded.pure ((readFileByChunks ((directory.part index).getD [])).map .inl)).andThen
        (readEntries read directory ignoreBlocks depth rest)
  | .block id positions :: rest =>
      if ignoreBlocks then
        (read true 1 id).andThen (readEntries read directory ignoreBlocks depth rest)
      else
        let block := { blockPointer env id with previousLengthsPosition := positions }
        let nested : Bool := depth < env.blockDepth
        ((Yielded.pure [.inr block]).andThen
          ((read (!nested) (depth + 1) id).andThen (.pure [.inr block]))).andThen
          (readEntries read directory ignoreBlocks depth rest)

-- reader.read_block. A block inside itself is read until Python's recursion limit.
def readBlockLoop : Nat → Bool → Nat → BlockId → Yielded (Bytes ⊕ Block)
  | 0, _, _, _ => .raise .recursionLimit
  | fuel + 1, ignoreBlocks, depth, id =>
      match registry.lookup id with
      | none => .raise (.readingBlock id)
      | some (.file content) =>
          -- _verify_single_file_block
          let digest := env.hashFactory content
          if digest ≠ id then .raise (.corruptBlock id digest content.length)
          else .pure ((readFileByChunks content).map .inl)
      | some (.dir directory) =>
          readEntries env (readBlockLoop fuel) directory ignoreBlocks depth directory.json

def readBlock (id : BlockId) (ignoreBlocks : Bool := true) (depth : Nat := 1) :
    Yielded (Bytes ⊕ Block) :=
  readBlockLoop env registry (registry.length + 1) ignoreBlocks depth id

def readMultiblockDirectory (directory : Directory) (ignoreBlocks : Bool := true)
    (depth : Nat := 1) : Yielded (Bytes ⊕ Block) :=
  readEntries env (readBlockLoop env registry (registry.length + 1)) directory ignoreBlocks depth
    directory.json

-- `Buffer(chunk=c) if type(c) is bytes else Buffer(block=c)`
def Buffer.ofItem : Bytes ⊕ Block → Buffer
  | .inl c => { chunk := some c }
  | .inr c => { block := some c }

-- reader.read_from_registry
def readFromRegistry (stored : Stored) : Yielded Buffer :=
  let items : Yielded (Bytes ⊕ Block) :=
    match stored with
    | .file content => .pure ((readFileByChunks content).map .inl)
    | .dir directory => readMultiblockDirectory env registry directory false
  items.map Buffer.ofItem

end

theorem chunkLoop_flatten (fuel : Nat) : ∀ content : Bytes, content.length ≤ fuel →
    (chunkLoop fuel content).flatten = content := by
  induction fuel with
  | zero =>
      intro content hc
      obtain rfl := List.length_eq_zero_iff.mp (Nat.le_zero.mp hc)
      rfl
  | succ fuel ih =>
      intro content hc
      simp only [chunkLoop]
      split
      · rename_i h
        simp [h]
      · rename_i h
        have hpos := List.length_pos_iff.mpr h
        rw [List.flatten_cons, ih, List.take_append_drop]
        simp only [List.length_drop, CHUNK_SIZE]
        omega

-- Chunks put together again are the file.
theorem readFileByChunks_flatten (content : Bytes) :
    (readFileByChunks content).flatten = content :=
  chunkLoop_flatten _ content (Nat.le_refl _)

-- Every file block is the content that its name is the digest of: what a reader checks
-- before it gives out a byte.
def Registry.FilesNamed (env : Enviroment) (registry : Registry) : Prop :=
  ∀ id content, registry.lookup id = some (.file content) → env.hashFactory content = id

theorem Registry.ContentAddressed.filesNamed {env : Enviroment} {registry : Registry}
    (h : registry.ContentAddressed env) : registry.FilesNamed env := by
  intro id content hl
  obtain ⟨bytes, hb, hd⟩ := h id _ hl
  rw [Registry.expansion_file hl] at hb
  rwa [Option.some.inj hb]

-- The content among what a reader gives.
def contentOf (items : List (Bytes ⊕ Block)) : Bytes :=
  items.flatMap fun item => item.elim id fun _ => []

@[simp] theorem contentOf_pieces (pieces : List Bytes) :
    contentOf (pieces.map .inl) = pieces.flatten := by
  simp [contentOf, List.flatMap_map, List.flatMap_id']

theorem contentOf_append (items more : List (Bytes ⊕ Block)) :
    contentOf (items ++ more) = contentOf items ++ contentOf more :=
  List.flatMap_append

theorem readEntries_flat {env : Enviroment}
    {read : Bool → Nat → BlockId → Yielded (Bytes ⊕ Block)} {sub : BlockId → Option Bytes}
    {directory : Directory} (depth : Nat) (entries : List JsonEntry) (content : Bytes)
    (h : ∀ id positions content, JsonEntry.block id positions ∈ entries → sub id = some content →
      ∃ pieces : List Bytes, read true 1 id = .pure (pieces.map .inl) ∧ pieces.flatten = content)
    (hc : directory.expandEntries sub entries = some content) :
    ∃ pieces : List Bytes, readEntries env read directory true depth entries =
      .pure (pieces.map .inl) ∧ pieces.flatten = content := by
  induction entries generalizing content with
  | nil =>
      obtain rfl := Option.some.inj hc
      exact ⟨[], rfl, rfl⟩
  | cons entry rest ih =>
      have hrest := fun more => ih more fun id positions content hmem =>
        h id positions content (List.mem_cons_of_mem _ hmem)
      cases entry with
      | part index =>
          obtain ⟨head, more, hhead, hmore, rfl⟩ := Directory.expandEntries_part_eq_some.mp hc
          obtain ⟨pieces, hpieces, hcontent⟩ := hrest more hmore
          refine ⟨readFileByChunks head ++ pieces, ?_, ?_⟩
          · simp only [readEntries, hhead, Option.getD_some, hpieces, List.map_append]
            rfl
          · rw [List.flatten_append, readFileByChunks_flatten, hcontent]
      | block id positions =>
          obtain ⟨head, more, hhead, hmore, rfl⟩ := Directory.expandEntries_block_eq_some.mp hc
          obtain ⟨pieces, hpieces, hcontent⟩ := hrest more hmore
          obtain ⟨inner, hinner, hbytes⟩ := h id positions head (List.mem_cons_self ..) hhead
          refine ⟨inner ++ pieces, ?_, ?_⟩
          · simp only [readEntries, hinner, hpieces, List.map_append]
            rfl
          · rw [List.flatten_append, hbytes, hcontent]

-- Only the files that the block leads to are read.
theorem readBlockLoop_flat_of {env : Enviroment} {registry : Registry} (met : BlockId → Prop)
    (hfiles : ∀ id content, met id → registry.lookup id = some (.file content) →
      env.hashFactory content = id)
    (hmet : ∀ id directory sub positions, met id → registry.lookup id = some (.dir directory) →
      JsonEntry.block sub positions ∈ directory.json → met sub)
    (n : Nat) : ∀ fuel depth id content, n ≤ fuel → met id →
    registry.contents.within n id = some content →
    ∃ pieces : List Bytes, readBlockLoop env registry fuel true depth id =
      .pure (pieces.map .inl) ∧ pieces.flatten = content := by
  induction n with
  | zero => intro fuel depth id content _ _ hc; simp [Naming.System.within] at hc
  | succ n ih =>
      intro fuel depth id content hfuel hid hc
      obtain ⟨fuel, rfl⟩ : ∃ m, fuel = m + 1 := ⟨fuel - 1, by omega⟩
      simp only [readBlockLoop]
      cases hl : registry.lookup id with
      | none =>
          rw [Registry.within_missing hl] at hc
          cases hc
      | some stored =>
          cases stored with
          | file bytes =>
              rw [Registry.within_file hl] at hc
              obtain rfl := Option.some.inj hc
              refine ⟨_, ?_, readFileByChunks_flatten bytes⟩
              simp only [hfiles id bytes hid hl, ne_eq, not_true_eq_false, if_false]
          | dir directory =>
              rw [Registry.within_dir hl] at hc
              refine readEntries_flat depth _ content ?_ hc
              intro sub positions bytes hmem hsub
              exact ih fuel 1 sub bytes (by omega) (hmet id directory sub positions hid hl hmem) hsub

theorem readBlockLoop_flat {env : Enviroment} {registry : Registry}
    (hfiles : registry.FilesNamed env) (n : Nat) (fuel depth : Nat) (id : BlockId) (content : Bytes)
    (hfuel : n ≤ fuel) (hc : registry.contents.within n id = some content) :
    ∃ pieces : List Bytes, readBlockLoop env registry fuel true depth id =
      .pure (pieces.map .inl) ∧ pieces.flatten = content :=
  readBlockLoop_flat_of (fun _ => True) (fun id content _ => hfiles id content)
    (fun _ _ _ _ _ _ _ => trivial) n fuel depth id content hfuel trivial hc

-- A reader that asks for no markers gives the expansion, in pieces.
theorem readBlock_flat {env : Enviroment} {registry : Registry}
    (hfiles : registry.FilesNamed env) {id : BlockId} {content : Bytes} (depth : Nat)
    (h : registry.expansion id = some content) :
    ∃ pieces : List Bytes, readBlock env registry id true depth = .pure (pieces.map .inl) ∧
      pieces.flatten = content :=
  readBlockLoop_flat hfiles registry.length _ depth id content (Nat.le_succ _) (Registry.within_length h)

theorem readMultiblockDirectory_flat {env : Enviroment} {registry : Registry}
    (hfiles : registry.FilesNamed env) {directory : Directory} {content : Bytes} (depth : Nat)
    (h : directory.expandWith registry.expansion = some content) :
    ∃ pieces : List Bytes, readMultiblockDirectory env registry directory true depth =
      .pure (pieces.map .inl) ∧ pieces.flatten = content :=
  readEntries_flat depth _ content
    (fun _ _ _ _ hs => readBlockLoop_flat hfiles registry.length _ 1 _ _ (Nat.le_succ _)
      (Registry.within_length hs)) h

end BeeRpc
