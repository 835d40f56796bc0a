import BeeRpc.LengthsTree
import BeeRpc.Measure
import BeeRpc.Wire.Slot
import Mathlib.Algebra.BigOperators.Group.List.Basic
import Mathlib.Tactic.Ring

namespace BeeRpc

open Wire Naming

-- What compute_wbp_lengths keeps for a key: the length to state, and what the fields
-- around it lose by it.
abbrev WbpLength := Nat × Int × Int

section

variable (env : Enviroment) (registry : Registry)

def wbpEntry (key positionLength : Nat) (prunedLength : Int) : Except Err WbpLength :=
  if prunedLength > positionLength then .error .prunedLength
  else
    let length := positionLength - prunedLength
    .ok (key, length, prunedLength + (Varint.encode positionLength).length -
      (Varint.encode length.toNat).length)

def wbpLeaf (fileList : List Path) (pointerLengths : Dict Nat Nat) (key : Nat) (id : BlockId) :
    Except Err (List WbpLength) := do
  let positionLength ← getVarintAtPosition registry key fileList
  let pointerLength ← match pointerLengths.lookup key with
    | some length => .ok length
    | none => .error .keyError
  let prunedLength ← getPrunedBlockLength registry id pointerLength
  let entry ← wbpEntry key positionLength prunedLength
  return [entry]

-- The lengths inside count for this field, and no longer for those around it.
def wbpNode (fileList : List Path) (key : Nat) (inner : Except Err (List (List WbpLength))) :
    Except Err (List WbpLength) := do
  let positionLength ← getVarintAtPosition registry key fileList
  let lengths ← inner
  let lengths := Dict.ofList lengths.flatten
  let prunedLength := (lengths.map fun entry => entry.2.2).sum
  let entry ← wbpEntry key positionLength prunedLength
  return lengths.map (fun entry => (entry.1, entry.2.1, 0)) ++ [entry]

def computeWbpLengths (tree : LengthsTree) (fileList : List Path)
    (pointerLengths : Dict Nat Nat) : Except Err (Dict Nat Int) := do
  let lengths ← tree.collect (wbpLeaf registry fileList pointerLengths)
    (wbpNode registry fileList)
  return (Dict.ofList lengths.flatten).map fun entry => (entry.1, entry.2.1)

-- The inner function of set_varint_value: the varint at a position of one part.
def setVarintIn (position : Nat) (buffer : Bytes) (newValue : Nat) : Except Err Bytes :=
  match Varint.span? (buffer.drop position) with
  | none => .error .indexError
  | some span =>
      .ok (buffer.take position ++ Varint.encode newValue ++ buffer.drop (position + span))

def setVarintLoop (position newValue : Nat) :
    Nat → List (Bytes ⊕ BlockId) → Except Err (List (Bytes ⊕ BlockId))
  | _, [] => .error .varintNotFound
  | offset, .inl value :: rest =>
      if offset ≤ position ∧ position < offset + value.length then do
        let changed ← setVarintIn (position - offset) value newValue
        return .inl changed :: rest
      else do
        let more ← setVarintLoop position newValue (offset + value.length) rest
        return .inl value :: more
  | offset, .inr id :: rest => do
      let size ← getsize registry (.block id)
      let more ← setVarintLoop position newValue (offset + size) rest
      return .inr id :: more

def setVarintValue (position : Nat) (buffer : List (Bytes ⊕ BlockId)) (newValue : Nat) :
    Except Err (List (Bytes ⊕ BlockId)) :=
  setVarintLoop registry position newValue 0 buffer

-- compute_wbp_lengths lets no negative length through, so `toNat` changes none.
def regenerateBuffer (lengths : Dict Nat Int) (buffer : List (Bytes ⊕ BlockId))
    (omitTypes : Bool) : Except Err Bytes := do
  let buffer ← (Dict.descending lengths).foldlM
    (fun buffer entry => setVarintValue registry entry.1 buffer entry.2.toNat) buffer
  return buffer.flatMap fun run => run.elim id fun block => blockPointerBytes env block omitTypes

-- What generate_wbp_file gathers from `_.json`.
structure WbpInput where
  blocks : Dict BlockId (List (List Nat)) := []
  pointerLengths : Dict Nat Nat := []
  buffer : List (Bytes ⊕ BlockId) := []

def WbpInput.fileList (input : WbpInput) : List Path := input.buffer.map Path.ofRun

def loadEntry (directory : Directory) (omitTypes : Bool) (input : WbpInput) :
    JsonEntry → Except Err WbpInput
  | .part index =>
      match directory.part index with
      | none => .error .fileNotFound
      | some content => .ok { input with buffer := input.buffer ++ [.inl content] }
  | .block id positions =>
      match positions.getLast? with
      | none => .error .invalidBlockEntry
      | some last =>
          if positions.IsChain (· ≤ ·) then
            .ok
              { blocks := Dict.append id positions input.blocks
                pointerLengths :=
                  Dict.set last (blockPointerLength env id omitTypes) input.pointerLengths
                buffer := input.buffer ++ [.inr id] }
          else .error .invalidBlockEntry

-- One chain of validate_lengths_tree.
def validateChain (input : WbpInput) (block : BlockId) (pointerList : List Nat) :
    Except Err Unit :=
  match pointerList.getLast? with
  | none => .error .indexError
  | some position => do
      let positionLength ← getVarintAtPosition registry position input.fileList
      let pointerLength ← match input.pointerLengths.lookup position with
        | some length => .ok length
        | none => .error .keyError
      let blockLength ← getPrunedBlockLength registry block pointerLength
      if blockLength > positionLength then
        .error (.lengthsValidation block position positionLength blockLength pointerList)
      else return ()

def validateLengthsTree (input : WbpInput) : Except Err Unit :=
  input.blocks.ungroup.forM fun entry => validateChain registry input entry.1 entry.2

-- The whole of generate_wbp_file but for the writing of the file.
def wbpBytes (directory : Directory) (inherited : Option (List Bytes)) : Except Err Bytes := do
  let omitTypes := inherited.isSome
  if directory.json.any (fun entry =>
      match entry with
      | .part index => (directory.part index).isNone
      | .block _ _ => false) then
    .error .fileNotFound
  let input ← directory.json.foldlM (loadEntry env directory omitTypes) {}
  validateLengthsTree registry input
  let tree ← createLengthsTree input.blocks
  let lengths ← computeWbpLengths registry tree input.fileList input.pointerLengths
  regenerateBuffer env registry lengths input.buffer omitTypes

def generateWbpFile (directory : Directory) (inherited : Option (List Bytes) := none) :
    Except Err Directory := do
  let wbp ← wbpBytes env registry directory inherited
  return { directory with wbp := some wbp }

end

-- The contents of `_.json` in order: the bytes of a part, the name of a block.
def Directory.runs (directory : Directory) : List JsonEntry → Option (List (Bytes ⊕ BlockId))
  | [] => some []
  | .part index :: rest => do
      let content ← directory.part index
      let more ← directory.runs rest
      return .inl content :: more
  | .block id _ :: rest => do
      let more ← directory.runs rest
      return .inr id :: more

-- A directory laid out as a document: the parts are what stands between its holes, the
-- blocks are its holes, each with the positions of the lengths around it in the
-- document filled with the blocks' contents.
structure Directory.Describes (directory : Directory) (fill : BlockId → Bytes)
    (doc : Document BlockId) : Prop where
  runs : directory.runs directory.json = some (Piece.alternate [] (doc.pieces fill))
  chains : directory.blocks = doc.chains fill 0

section Runs

variable {directory : Directory}

theorem runs_part_eq_some {index : Nat} {rest : List JsonEntry} {runs : List (Bytes ⊕ BlockId)} :
    directory.runs (.part index :: rest) = some runs ↔
      ∃ content more, directory.part index = some content ∧ directory.runs rest = some more ∧
        runs = .inl content :: more := by
  simp only [Directory.runs, Option.bind_eq_bind, Option.bind_eq_some_iff, Option.pure_def,
    Option.some.injEq]
  constructor
  · rintro ⟨content, hc, more, hm, rfl⟩
    exact ⟨content, more, hc, hm, rfl⟩
  · rintro ⟨content, more, hc, hm, rfl⟩
    exact ⟨content, hc, more, hm, rfl⟩

theorem runs_block_eq_some {id : BlockId} {positions : List Nat} {rest : List JsonEntry}
    {runs : List (Bytes ⊕ BlockId)} :
    directory.runs (.block id positions :: rest) = some runs ↔
      ∃ more, directory.runs rest = some more ∧ runs = .inr id :: more := by
  simp only [Directory.runs, Option.bind_eq_bind, Option.bind_eq_some_iff, Option.pure_def,
    Option.some.injEq]
  constructor
  · rintro ⟨more, hm, rfl⟩
    exact ⟨more, hm, rfl⟩
  · rintro ⟨more, hm, rfl⟩
    exact ⟨more, hm, rfl⟩

theorem expandEntries_of_runs (sub : BlockId → Option Bytes) (fill : BlockId → Bytes)
    (entries : List JsonEntry) (runs : List (Bytes ⊕ BlockId))
    (hruns : directory.runs entries = some runs)
    (hsub : ∀ id, .inr id ∈ runs → sub id = some (fill id)) :
    directory.expandEntries sub entries = some (runs.flatMap fun run => run.elim id fill) := by
  induction entries generalizing runs with
  | nil =>
      obtain rfl := Option.some.inj hruns
      rfl
  | cons entry rest ih =>
      cases entry with
      | part index =>
          obtain ⟨content, more, hc, hm, rfl⟩ := runs_part_eq_some.mp hruns
          have hrest := ih more hm fun id hi => hsub id (List.mem_cons_of_mem _ hi)
          exact Directory.expandEntries_part_eq_some.mpr ⟨content, _, hc, hrest, rfl⟩
      | block id positions =>
          obtain ⟨more, hm, rfl⟩ := runs_block_eq_some.mp hruns
          have hrest := ih more hm fun id hi => hsub id (List.mem_cons_of_mem _ hi)
          exact Directory.expandEntries_block_eq_some.mpr
            ⟨fill id, _, hsub id (List.mem_cons_self ..), hrest, rfl⟩

-- A directory laid out as a document expands to the document.
theorem Directory.expands_of_runs {directory : Directory} {fill : BlockId → Bytes}
    {doc : Document BlockId}
    (hruns : directory.runs directory.json = some (Piece.alternate [] (doc.pieces fill)))
    (sub : BlockId → Option Bytes) (hsub : ∀ id ∈ doc.holes, sub id = some (fill id)) :
    directory.expandWith sub = some (doc.render fill) := by
  rw [expandWith, expandEntries_of_runs sub fill _ _ hruns, Piece.alternate_render,
    Document.pieces_render]
  · rfl
  · intro id hi
    exact hsub id ((Document.mem_pieces fill doc id).mp ((Piece.mem_alternate _ _ _).mp hi))

theorem Directory.Describes.expands {fill : BlockId → Bytes} {doc : Document BlockId}
    (h : directory.Describes fill doc) (sub : BlockId → Option Bytes)
    (hsub : ∀ id ∈ doc.holes, sub id = some (fill id)) :
    directory.expandWith sub = some (doc.render fill) :=
  directory.expands_of_runs h.runs sub hsub

end Runs

section Load

variable (env : Enviroment) {directory : Directory} (omitTypes : Bool)

-- Every part is there and every list of positions is one that generate_wbp_file takes.
theorem foldlM_loadEntry (entries : List JsonEntry) (runs : List (Bytes ⊕ BlockId))
    (leaves : List (BlockId × Nat)) (input : WbpInput)
    (hruns : directory.runs entries = some runs)
    (hleaves : (Directory.blocks { directory with json := entries }).map
        (fun entry => (entry.1, entry.2.getLast?)) = leaves.map fun leaf => (leaf.1, some leaf.2))
    (hsorted : ∀ entry ∈ Directory.blocks { directory with json := entries },
      entry.2.IsChain (· ≤ ·)) :
    entries.foldlM (loadEntry env directory omitTypes) input = .ok
      { blocks := (Directory.blocks { directory with json := entries }).foldl
          (fun d entry => Dict.append entry.1 entry.2 d) input.blocks
        pointerLengths := Dict.update input.pointerLengths
          (leaves.map fun leaf => (leaf.2, blockPointerLength env leaf.1 omitTypes))
        buffer := input.buffer ++ runs } := by
  induction entries generalizing runs leaves input with
  | nil =>
      obtain rfl := Option.some.inj hruns
      have : leaves = [] := by simpa [Directory.blocks] using hleaves.symm
      subst this
      simp [Directory.blocks, Dict.update]
  | cons entry rest ih =>
      cases entry with
      | part index =>
          obtain ⟨content, more, hc, hm, rfl⟩ := runs_part_eq_some.mp hruns
          rw [List.foldlM_cons]
          simp only [loadEntry, hc, ok_bind]
          rw [ih more leaves _ hm hleaves hsorted]
          simp [Directory.blocks]
      | block id positions =>
          obtain ⟨more, hm, rfl⟩ := runs_block_eq_some.mp hruns
          have hblocks : Directory.blocks { directory with json := .block id positions :: rest } =
              (id, positions) :: Directory.blocks { directory with json := rest } := rfl
          rw [hblocks] at hleaves hsorted ⊢
          cases leaves with
          | nil => simp at hleaves
          | cons leaf leaves =>
              simp only [List.map_cons, List.cons.injEq, Prod.mk.injEq] at hleaves
              obtain ⟨⟨rfl, hlast⟩, hleaves⟩ := hleaves
              rw [List.foldlM_cons]
              simp only [loadEntry, hlast, if_pos (hsorted (leaf.1, positions) (by simp)), ok_bind]
              rw [ih more leaves _ hm hleaves
                fun entry he => hsorted entry (List.mem_cons_of_mem _ he)]
              simp [Dict.update]

end Load

section Documents

variable (env : Enviroment) (registry : Registry)

-- What the length computations read about a document of the directory.
structure Readable (fileList : List Path) (pointerLengths : Dict Nat Nat)
    (fill fill' : BlockId → Bytes) (base : Nat) (doc : Document BlockId) : Prop where
  marks : ∀ mark ∈ doc.marks fill fill' base,
    getVarintAtPosition registry mark.position fileList = .ok mark.old
  leaves : ∀ leaf ∈ doc.leaves fill base,
    pointerLengths.lookup leaf.2 = some (fill' leaf.1).length
  holes : ∀ id ∈ doc.holes, registry.expansion id = some (fill id)

-- What a field loses, its length varint included.
def lost (old new : Nat) : Int :=
  old - new + (Varint.encode old).length - (Varint.encode new).length

-- The entries that compute_wbp_lengths makes for a document, those inside a field
-- before its own.
def wbpEntries (fill fill' : BlockId → Bytes) (base : Nat) : Document BlockId → List WbpLength
  | .nil => []
  | .raw bytes rest => wbpEntries fill fill' (base + bytes.length) rest
  | .sub tag body rest =>
      let position := base + tag.length
      let old := body.size fill
      let new := body.size fill'
      let more := wbpEntries fill fill' (position + Document.delimitedSize old) rest
      if body.holes = [] then more
      else
        (wbpEntries fill fill' (position + (Varint.encode old).length) body).map
            (fun entry => (entry.1, entry.2.1, 0)) ++
          (position, (new : Int), lost old new) :: more
  | .hole tag id rest =>
      let position := base + tag.length
      let old := (fill id).length
      let new := (fill' id).length
      (position, (new : Int), lost old new) ::
        wbpEntries fill fill' (position + Document.delimitedSize old) rest

theorem wbpEntries_marks (fill fill' : BlockId → Bytes) (base : Nat) (doc : Document BlockId) :
    ((wbpEntries fill fill' base doc).map fun entry => (entry.1, entry.2.1)).Perm
      ((doc.marks fill fill' base).map fun mark => (mark.position, (mark.new : Int))) := by
  induction doc generalizing base with
  | nil => exact List.Perm.refl _
  | raw bytes rest ih => exact ih _
  | sub tag body rest ihBody ihRest =>
      simp only [wbpEntries, Document.marks]
      split
      · exact ihRest _
      · simp only [List.map_append, List.map_cons, List.map_map]
        exact ((ihBody _).append ((ihRest _).cons _)).trans List.perm_middle
  | hole tag id rest ih =>
      simp only [wbpEntries, Document.marks, List.map_cons]
      exact (ih _).cons _

-- What the fields of a document lose together is what the document loses.
theorem wbpEntries_sum (fill fill' : BlockId → Bytes) (base : Nat) (doc : Document BlockId) :
    ((wbpEntries fill fill' base doc).map fun entry => entry.2.2).sum =
      (doc.size fill : Int) - doc.size fill' := by
  induction doc generalizing base with
  | nil => simp [wbpEntries]
  | raw bytes rest ih =>
      simp only [wbpEntries, ih, Document.size_raw, Nat.cast_add]
      ring
  | sub tag body rest _ ihRest =>
      simp only [wbpEntries]
      split
      · rename_i hb
        have hsame : body.size fill = body.size fill' := by
          rw [Document.size, Document.render_eq_of_holes_nil fill fill' body hb, Document.size]
        simp only [ihRest, Document.size_sub, hsame, Nat.cast_add]
        ring
      · have hzero : ∀ entries : List WbpLength,
            ((entries.map fun entry => (entry.1, entry.2.1, (0 : Int))).map
              fun entry => entry.2.2).sum = 0 := by
          intro entries
          induction entries with
          | nil => rfl
          | cons entry entries ih => simpa using ih
        rw [List.map_append, List.sum_append, hzero]
        simp only [List.map_cons, List.sum_cons, ihRest, Document.size_sub,
          Document.delimitedSize, lost, Nat.cast_add]
        ring
  | hole tag id rest ih =>
      simp only [wbpEntries, List.map_cons, List.sum_cons, ih, Document.size_hole,
        Document.delimitedSize, lost, Nat.cast_add]
      ring

theorem wbpEntries_nodup (fill fill' : BlockId → Bytes) (base : Nat) (doc : Document BlockId) :
    ((wbpEntries fill fill' base doc).map Prod.fst).Nodup := by
  have hm : ((doc.marks fill fill' base).map Mark.position).Nodup := by
    rw [List.nodup_iff_pairwise_ne, List.pairwise_map]
    exact (Document.marks_strictly_ascending fill fill' base doc).imp fun h => Nat.ne_of_lt h
  have hp := (wbpEntries_marks fill fill' base doc).map Prod.fst
  simp only [List.map_map] at hp
  exact hp.nodup_iff.mpr hm

theorem wbpEntry_eq (key old new : Nat) :
    wbpEntry key old ((old : Int) - new) = .ok (key, (new : Int), lost old new) := by
  have hle : ¬((old : Int) - new > old) := by omega
  have hnew : (old : Int) - ((old : Int) - new) = new := by omega
  simp only [wbpEntry, if_neg hle, hnew, lost, Int.toNat_natCast]

theorem follows_wbp (fileList : List Path) (pointerLengths : Dict Nat Nat)
    (fill fill' : BlockId → Bytes) :
    LengthsTree.Follows (wbpLeaf registry fileList pointerLengths) (wbpNode registry fileList)
      (fun block => block) fill (Readable registry fileList pointerLengths fill fill')
      (fun base doc all => all.flatten.Perm (wbpEntries fill fill' base doc)) where
  inRaw base bytes rest h := ⟨h.marks, h.leaves, h.holes⟩
  inRest base tag body rest h := by
    refine ⟨fun mark hm => h.marks mark ?_, fun leaf hl => h.leaves leaf ?_,
      fun id hi => h.holes id ?_⟩
    · simp only [Document.marks]
      split
      · exact hm
      · exact List.mem_cons_of_mem _ (List.mem_append_right _ hm)
    · exact List.mem_append_right _ hl
    · exact List.mem_append_right _ hi
  inBody base tag body rest hb h := by
    refine ⟨fun mark hm => h.marks mark ?_, fun leaf hl => h.leaves leaf ?_,
      fun id hi => h.holes id ?_⟩
    · simp only [Document.marks, if_neg hb]
      exact List.mem_cons_of_mem _ (List.mem_append_left _ hm)
    · exact List.mem_append_left _ hl
    · exact List.mem_append_left _ hi
  inHole base tag id rest h :=
    ⟨fun mark hm => h.marks mark (List.mem_cons_of_mem _ hm),
      fun leaf hl => h.leaves leaf (List.mem_cons_of_mem _ hl),
      fun id hi => h.holes id (List.mem_cons_of_mem _ hi)⟩
  nil base := List.Perm.refl _
  raw base bytes rest more h := h
  plain base tag body rest more hb h := by
    simp only [wbpEntries, if_pos hb]
    exact h
  sub base tag body rest inner hb h hinner := by
    have hread := h.marks ⟨base + tag.length, body.size fill, body.size fill', false⟩ (by
      simp only [Document.marks, if_neg hb]
      exact List.mem_cons_self ..)
    have hnodup : (inner.flatten.map Prod.fst).Nodup :=
      (hinner.map Prod.fst).nodup_iff.mpr (wbpEntries_nodup fill fill' _ body)
    have hsum : (inner.flatten.map fun entry => entry.2.2).sum =
        (body.size fill : Int) - body.size fill' := by
      rw [(hinner.map fun entry => entry.2.2).sum_eq, wbpEntries_sum]
    refine ⟨inner.flatten.map (fun entry => (entry.1, entry.2.1, 0)) ++
      [(base + tag.length, (body.size fill' : Int), lost (body.size fill) (body.size fill'))],
      ?_, ?_⟩
    · simp only [wbpNode, hread, ok_bind, Dict.ofList_of_nodup _ hnodup, hsum, wbpEntry_eq, pure_ok]
    · intro more hmore
      simp only [wbpEntries, if_neg hb, List.flatten_cons, List.append_assoc,
        List.singleton_append]
      exact (hinner.map _).append (hmore.cons _)
  hole base tag id rest h := by
    have hread := h.marks
      ⟨base + tag.length, (fill id).length, (fill' id).length, true⟩ (List.mem_cons_self ..)
    have hlen := h.leaves (id, base + tag.length) (List.mem_cons_self ..)
    have hpruned := getPrunedBlockLength_of_expansion (h.holes id (List.mem_cons_self ..))
      (fill' id).length
    refine ⟨[(base + tag.length, ((fill' id).length : Int),
      lost (fill id).length (fill' id).length)], ?_, ?_⟩
    · simp only at hread hlen
      simp only [wbpLeaf, hread, hlen, ok_bind, hpruned, wbpEntry_eq, pure_ok]
    · intro more hmore
      exact hmore.cons _
  perm base doc more more' hp h := hp.flatten.symm.trans h

-- One length varint is rewritten where it stands.
theorem setVarintLoop_run {fill : BlockId → Bytes} (left right : List (Bytes ⊕ BlockId))
    (front back : Bytes) {raw : Bytes} {old : Nat} (hraw : Varint.States raw old) (new offset : Nat)
    (hleft : ∀ id, .inr id ∈ left → registry.expansion id = some (fill id)) :
    setVarintLoop registry
      (offset + ((left.flatMap fun run => run.elim id fill).length + front.length)) new offset
      (left ++ .inl (front ++ raw ++ back) :: right) =
      .ok (left ++ .inl (front ++ Varint.encode new ++ back) :: right) := by
  induction left generalizing offset with
  | nil =>
      have hpos := hraw.length_pos
      have hspan : Varint.span? ((front ++ raw ++ back).drop front.length) = some raw.length := by
        rw [List.append_assoc, List.drop_left, Varint.span?_append hraw.2]
      simp only [List.flatMap_nil, List.length_nil, Nat.zero_add, List.nil_append, setVarintLoop]
      rw [if_pos ⟨by omega, by simp only [List.length_append]; omega⟩]
      simp only [Nat.add_sub_cancel_left, setVarintIn, hspan, ok_bind, pure_ok]
      rw [← List.drop_drop]
      simp [List.append_assoc]
  | cons run left ih =>
      have hrest := fun offset => ih offset fun id hm => hleft id (List.mem_cons_of_mem _ hm)
      have hadd : ∀ a b c : Nat, offset + (a + b + c) = offset + a + (b + c) := by omega
      cases run with
      | inl value =>
          simp only [List.flatMap_cons, Sum.elim_inl, id_eq, List.length_append, List.cons_append,
            hadd, setVarintLoop]
          rw [if_neg (by omega), hrest, ok_bind, pure_ok]
      | inr id =>
          have hsize := getsize_of_expansion (hleft id (List.mem_cons_self ..))
          simp only [List.flatMap_cons, Sum.elim_inr, List.length_append, List.cons_append,
            hadd, setVarintLoop, hsize, ok_bind, hrest, pure_ok]

-- A length varint is read where it stands.
theorem getVarintAtPosition_piece (fill : BlockId → Bytes) (pre post : List (Piece BlockId))
    {raw : Bytes} {value : Nat} (hraw : Varint.States raw value) (position : Nat)
    (hposition : position = (pre.flatMap (Piece.render fill)).length)
    (hholes : ∀ id, .hole id ∈ pre → registry.expansion id = some (fill id)) :
    getVarintAtPosition registry position
      ((Piece.alternate [] (pre ++ .bytes raw :: post)).map Path.ofRun) = .ok value := by
  obtain ⟨left, front, back, right, h, hlen, hin⟩ := Piece.alternate_split fill [] pre post
  have hread := getVarintAtPosition_run left right front back hraw
    fun id hi => hholes id (hin id hi)
  rw [hlen, List.length_nil, Nat.zero_add, ← hposition] at hread
  rw [h]
  exact hread

theorem setVarintValue_piece (fill : BlockId → Bytes) (pre post : List (Piece BlockId))
    {raw : Bytes} {old : Nat} (hraw : Varint.States raw old) (new position : Nat)
    (hposition : position = (pre.flatMap (Piece.render fill)).length)
    (hholes : ∀ id, .hole id ∈ pre → registry.expansion id = some (fill id)) :
    setVarintValue registry position (Piece.alternate [] (pre ++ .bytes raw :: post)) new =
      .ok (Piece.alternate [] (pre ++ .bytes (Varint.encode new) :: post)) := by
  obtain ⟨left, front, back, right, h, hlen, hin⟩ := Piece.alternate_split fill [] pre post
  have := setVarintLoop_run registry left right front back hraw new 0
    fun id hi => hholes id (hin id hi)
  rw [hlen, List.length_nil, Nat.zero_add, Nat.zero_add, ← hposition] at this
  rw [h, h]
  exact this

-- From the last varint to the first, so that the positions of those still to come are
-- those of the untouched bytes.
theorem foldrM_slots (fill : BlockId → Bytes) (slots : List (Slot BlockId)) (base : Nat)
    (pre : List (Piece BlockId)) (hbase : base = (pre.flatMap (Piece.render fill)).length)
    (hstated : Slot.Stated slots)
    (hpre : ∀ id, .hole id ∈ pre → registry.expansion id = some (fill id))
    (hslots : ∀ id, .hole id ∈ slots.map Slot.before → registry.expansion id = some (fill id)) :
    (Slot.marks fill base slots).foldrM
      (fun mark buffer => setVarintValue registry mark.1 buffer mark.2)
      (Piece.alternate [] (pre ++ slots.map Slot.before)) =
      .ok (Piece.alternate [] (pre ++ slots.map Slot.after)) := by
  induction slots generalizing base pre with
  | nil => rfl
  | cons slot slots ih =>
      have hrest : Slot.Stated slots :=
        fun raw old new hmem => hstated raw old new (List.mem_cons_of_mem _ hmem)
      have hmore : ∀ id, .hole id ∈ slots.map Slot.before → registry.expansion id = some (fill id) :=
        fun id hid => hslots id (List.mem_cons_of_mem _ hid)
      have hfront : ∀ id, .hole id ∈ pre ++ [slot.before] → registry.expansion id = some (fill id) := by
        intro id hid
        rcases List.mem_append.mp hid with hid | hid
        · exact hpre id hid
        · exact hslots id (List.mem_cons.mpr (Or.inl (List.mem_singleton.mp hid)))
      cases slot with
      | piece p =>
          have hfold := ih (base + (p.render fill).length) (pre ++ [p])
            (by simp only [hbase, List.flatMap_append, List.flatMap_singleton, List.length_append])
            hrest hfront hmore
          rwa [List.append_assoc, List.append_assoc] at hfold
      | length raw old new =>
          have hraw := hstated raw old new (List.mem_cons_self ..)
          have hfold := ih (base + raw.length) (pre ++ [.bytes raw])
            (by simp only [hbase, List.flatMap_append, List.flatMap_singleton, List.length_append,
              Piece.render]) hrest hfront hmore
          have hset := setVarintValue_piece registry fill pre (slots.map Slot.after) hraw new base hbase hpre
          rw [List.append_assoc, List.append_assoc] at hfold
          rw [Slot.marks, List.foldrM_cons]
          exact (congrArg (· >>= _) hfold).trans hset

end Documents

section Wbp

variable (env : Enviroment) (registry : Registry) {directory : Directory}
  {fill : BlockId → Bytes} {doc : Document BlockId}

theorem marks_read (fill' : BlockId → Bytes)
    (hfill : ∀ id ∈ doc.holes, registry.expansion id = some (fill id)) :
    ∀ mark ∈ doc.marks fill fill' 0, getVarintAtPosition registry mark.position
      ((Piece.alternate [] (doc.pieces fill)).map Path.ofRun) = .ok mark.old := by
  intro mark hm
  obtain ⟨pre, post, hpieces, hpos⟩ := Document.marks_pieces fill fill' 0 doc mark hm
  rw [Nat.zero_add] at hpos
  rw [hpieces]
  refine getVarintAtPosition_piece registry fill pre post (Varint.states_encode mark.old) _ hpos.symm
    fun id hi => hfill id ((Document.mem_pieces fill doc id).mp ?_)
  rw [hpieces]
  exact List.mem_append_left _ hi

theorem chains_sorted (entry : BlockId × List Nat) (he : entry ∈ doc.chains fill 0) :
    entry.2.IsChain (· ≤ ·) := by
  obtain ⟨inner, hi, rfl⟩ := List.mem_map.mp he
  have hp : (inner.2.map Prod.fst).Pairwise (· ≤ ·) :=
    List.pairwise_map.mpr
      ((Document.chain_strictly_ascending fill 0 doc inner hi).imp fun h => Nat.le_of_lt h)
  exact hp.isChain

-- The order of the chains, grouped by block, does not matter.
theorem computeWbpLengths_chains (fill' : BlockId → Bytes) (fileList : List Path)
    (pointerLengths : Dict Nat Nat)
    (hread : Readable registry fileList pointerLengths fill fill' 0 doc)
    (blocks : Dict BlockId (List (List Nat))) (hblocks : blocks.ungroup.Perm (doc.chains fill 0)) :
    ∃ tree lengths, createLengthsTree blocks = .ok tree ∧
      computeWbpLengths registry tree fileList pointerLengths = .ok lengths ∧
      lengths.Perm ((doc.marks fill fill' 0).map fun mark => (mark.position, (mark.new : Int))) := by
  obtain ⟨tree, htree, all, hall, hperm⟩ := LengthsTree.collect_chains _ _
    (follows_wbp registry fileList pointerLengths fill fill') 0 doc hread blocks.ungroup
    (by rwa [LengthsTree.chainsOf, List.map_id'])
  have hnodup : (all.flatten.map Prod.fst).Nodup :=
    (hperm.map Prod.fst).nodup_iff.mpr (wbpEntries_nodup fill fill' 0 doc)
  refine ⟨tree, all.flatten.map fun entry => (entry.1, entry.2.1), htree, ?_, ?_⟩
  · simp only [computeWbpLengths, hall, ok_bind, Dict.ofList_of_nodup _ hnodup, pure_ok]
  · exact (hperm.map _).trans (wbpEntries_marks fill fill' 0 doc)

theorem regenerateBuffer_marks (omitTypes : Bool) (lengths : Dict Nat Int)
    (hfill : ∀ id ∈ doc.holes, registry.expansion id = some (fill id))
    (hlengths : lengths.Perm ((doc.marks fill (fun id => blockPointerBytes env id omitTypes) 0).map
      fun mark => (mark.position, (mark.new : Int)))) :
    regenerateBuffer env registry lengths (Piece.alternate [] (doc.pieces fill)) omitTypes =
      .ok (doc.render fun id => blockPointerBytes env id omitTypes) := by
  have hsorted : ((doc.marks fill (fun id => blockPointerBytes env id omitTypes) 0).map
      fun mark => (mark.position, (mark.new : Int))).Pairwise fun a b => a.1 < b.1 :=
    List.pairwise_map.mpr (Document.marks_strictly_ascending fill _ 0 doc)
  have hpatch := foldrM_slots registry fill
    (doc.slots fill fun id => blockPointerBytes env id omitTypes) 0 [] rfl
    (doc.slots_stated fill _) (by simp) (by
      intro id hid
      rw [Document.slots_before, Document.mem_pieces] at hid
      exact hfill id hid)
  rw [Document.slots_marks, Document.slots_before, Document.slots_after, List.foldrM_map] at hpatch
  simp only [List.nil_append] at hpatch
  rw [regenerateBuffer, Dict.descending_eq hlengths hsorted, List.foldlM_reverse, List.foldrM_map]
  simp only [Int.toNat_natCast, hpatch, ok_bind, pure_ok, Except.ok.injEq]
  rw [Piece.alternate_render, Document.pieces_render]
  rfl

theorem parts_present (entries : List JsonEntry) (runs : List (Bytes ⊕ BlockId))
    (hruns : directory.runs entries = some runs) :
    (entries.any fun entry =>
      match entry with
      | .part index => (directory.part index).isNone
      | .block _ _ => false) = false := by
  induction entries generalizing runs with
  | nil => rfl
  | cons entry rest ih =>
      cases entry with
      | part index =>
          obtain ⟨content, more, hc, hm, rfl⟩ := runs_part_eq_some.mp hruns
          simp only [List.any_cons, hc, Option.isNone_some, Bool.false_or, ih more hm]
      | block id positions =>
          obtain ⟨more, hm, rfl⟩ := runs_block_eq_some.mp hruns
          simp only [List.any_cons, Bool.false_or, ih more hm]

-- Every chain ends at a varint that states how far its block expands.
theorem validateLengthsTree_ok (input : WbpInput) (fill' : BlockId → Bytes)
    (hread : Readable registry input.fileList input.pointerLengths fill fill' 0 doc)
    (hblocks : input.blocks.ungroup.Perm (doc.chains fill 0)) :
    validateLengthsTree registry input = .ok () := by
  have hall : ∀ entry ∈ input.blocks.ungroup,
      validateChain registry input entry.1 entry.2 = .ok () := by
    intro entry he
    have hc := hblocks.mem_iff.mp he
    have hleaf : (entry.1, entry.2.getLast?) ∈
        (doc.leaves fill 0).map fun leaf => (leaf.1, some leaf.2) := by
      rw [← Document.chains_leaves]
      exact List.mem_map_of_mem hc
    obtain ⟨leaf, hl, heq⟩ := List.mem_map.mp hleaf
    simp only [Prod.mk.injEq] at heq
    obtain ⟨hid, hlast⟩ := heq
    have hmark := hread.marks _
      ((Document.leaves_sublist_marks fill fill' 0 doc).subset (List.mem_map_of_mem hl))
    have hhole : leaf.1 ∈ doc.holes := by
      rw [hid, ← Document.chains_holes fill 0]
      exact List.mem_map_of_mem hc
    have hpruned := getPrunedBlockLength_of_expansion (hread.holes leaf.1 hhole)
      (fill' leaf.1).length
    simp only at hmark
    simp only [validateChain, ← hlast, hmark, hread.leaves leaf hl, ok_bind, ← hid, hpruned]
    rw [if_neg (by omega)]
    rfl
  unfold validateLengthsTree
  generalize input.blocks.ungroup = entries at hall
  induction entries with
  | nil => rfl
  | cons entry rest ih =>
      simp only [List.forM_eq_forM, List.forM_cons, hall entry (List.mem_cons_self ..), ok_bind]
      exact ih fun entry he => hall entry (List.mem_cons_of_mem _ he)

-- The pointer form of a directory laid out as a document is the document with the
-- pointers in its holes.
theorem wbpBytes_describes (hd : directory.Describes fill doc)
    (hfill : ∀ id ∈ doc.holes, registry.expansion id = some (fill id))
    (inherited : Option (List Bytes)) :
    wbpBytes env registry directory inherited =
      .ok (doc.render fun id => blockPointerBytes env id inherited.isSome) := by
  have hload : directory.json.foldlM (loadEntry env directory inherited.isSome) {} =
      .ok ⟨Dict.group directory.blocks, Dict.ofList ((doc.leaves fill 0).map fun leaf =>
        (leaf.2, blockPointerLength env leaf.1 inherited.isSome)),
        Piece.alternate [] (doc.pieces fill)⟩ :=
    foldlM_loadEntry env inherited.isSome directory.json _ (doc.leaves fill 0) {} hd.runs
      (by rw [← Document.chains_leaves, ← hd.chains])
      (fun entry he => chains_sorted entry (hd.chains ▸ he))
  have hkeys : ((((doc.leaves fill 0).map fun leaf =>
      (leaf.2, blockPointerLength env leaf.1 inherited.isSome))).map Prod.fst).Nodup := by
    rw [List.map_map]
    exact Document.leaves_nodup fill 0 doc
  have hread : Readable registry
      ((Piece.alternate [] (doc.pieces fill)).map Path.ofRun)
      ((doc.leaves fill 0).map fun leaf =>
        (leaf.2, blockPointerLength env leaf.1 inherited.isSome))
      fill (fun id => blockPointerBytes env id inherited.isSome) 0 doc :=
    ⟨marks_read registry _ hfill,
      fun leaf hl => Dict.lookup_of_nodup _ hkeys _ _ (List.mem_map_of_mem hl), hfill⟩
  have hgroup : (Dict.ungroup (Dict.group (doc.chains fill 0))).Perm (doc.chains fill 0) :=
    Dict.ungroup_group _
  rw [hd.chains, Dict.ofList_of_nodup _ hkeys] at hload
  obtain ⟨tree, lengths, htree, hlengths, hperm⟩ :=
    computeWbpLengths_chains registry _ _ _ hread _ hgroup
  have hvalid := validateLengthsTree_ok registry
    ⟨Dict.group (doc.chains fill 0), _, Piece.alternate [] (doc.pieces fill)⟩ _ hread hgroup
  simp only [wbpBytes, parts_present _ _ hd.runs, Bool.false_eq_true, if_false, ok_bind,
    hload, hvalid, htree, WbpInput.fileList, hlengths]
  exact regenerateBuffer_marks env registry _ lengths hfill hperm

end Wbp

end BeeRpc
