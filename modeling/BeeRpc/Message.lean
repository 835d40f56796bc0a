import BeeRpc.HashTypes
import BeeRpc.Wire.Document
import BeeRpc.Naming.Dict
import Mathlib.Tactic.Ring

namespace BeeRpc

open Wire Naming

-- A protobuf message as ListFields goes through it: its present fields in the order of
-- their numbers, and the fields it does not know, which are written last. `message` is a
-- message field or one element of a repeated one; `other` is a field whose value is
-- neither a message nor a singular bytes or string (a scalar, a map, anything else
-- repeated), in its whole encoding; `group` is a message between two tags in place of
-- a length.
inductive Message where
  | unknown (fields : Bytes)
  | message (number : Nat) (value rest : Message)
  | group (number : Nat) (value rest : Message)
  | bytes (number : Nat) (value : Bytes) (rest : Message)
  | string (number : Nat) (value : List Char) (rest : Message)
  | other (encoding : Bytes) (rest : Message)
  deriving Repr, DecidableEq

-- A field's tag: its number and its wire type in one varint.
def tag (number wireType : Nat) : Bytes := Varint.encode (number * 8 + wireType)

-- Bytes of a varint.
def width (n : Nat) : Nat := (Varint.encode n).length

def utf8 (value : List Char) : Bytes := value.flatMap String.utf8EncodeChar

namespace Message

def serializeToString : Message → Bytes
  | unknown fields => fields
  | message number value rest =>
      tag number 2 ++ delimited value.serializeToString ++ rest.serializeToString
  | group number value rest =>
      tag number 3 ++ value.serializeToString ++ tag number 4 ++ rest.serializeToString
  | bytes number value rest => tag number 2 ++ delimited value ++ rest.serializeToString
  | string number value rest => tag number 2 ++ delimited (utf8 value) ++ rest.serializeToString
  | other encoding rest => encoding ++ rest.serializeToString

def byteSize (message : Message) : Nat := message.serializeToString.length

-- The unknown fields of the message itself, not of those inside it.
def unknownFields : Message → Bytes
  | unknown fields => fields
  | message _ _ rest => rest.unknownFields
  | group _ _ rest => rest.unknownFields
  | bytes _ _ rest => rest.unknownFields
  | string _ _ rest => rest.unknownFields
  | other _ rest => rest.unknownFields

-- The size of a copy of the message from which every other field has been cleared:
-- ClearField does not reach the unknown fields.
def clearedSize (encoding unknownFields : Bytes) : Nat := encoding.length + unknownFields.length

end Message

-- protobuf's ParseFromString for a Buffer.Block with the ByteSize of what it makes of
-- the bytes, `none` where it raises DecodeError.
abbrev ParseBlock := Bytes → Option (Block × Nat)

section

variable (env : Enviroment) (parse : ParseBlock) (blocks : List BlockId)
  (inherited : Option (List Bytes))

-- block_builder.is_block
def isBlock (value : Bytes) : Bool :=
  match parse value with
  | none => false
  | some (block, _) =>
      match blockIdFromPointer env block inherited with
      | none => false
      | some id => decide (id ∈ blocks)

-- The block that a bytes value points at, where is_block accepts it: get_hash then finds
-- the very id that is_block has looked up.
def pointerOf (value : Bytes) : Option BlockId :=
  if isBlock env parse blocks inherited value then
    (parse value).bind fun parsed => blockIdFromPointer env parsed.1 inherited
  else none

-- What search_on_message fills.
structure Search where
  container : Dict BlockId (List (List Nat)) := []
  pointerLengths : Dict Nat Nat := []
  deriving Repr, DecidableEq

-- A group is a singular message to ListFields, so it is walked like a message field.
def searchLoop (pointer? : Bytes → Option BlockId) :
    Message → List Nat → Bytes → Nat → Search → Search
  | .unknown _, _, _, _, search => search
  | .message _ value rest, pointers, unknown, position, search =>
      let size := value.byteSize
      let search := searchLoop pointer? value (pointers ++ [position + 1]) value.unknownFields
        (position + 1 + width size) search
      searchLoop pointer? rest pointers unknown (position + 1 + width size + size) search
  | .group _ value rest, pointers, unknown, position, search =>
      let size := value.byteSize
      let search := searchLoop pointer? value (pointers ++ [position + 1]) value.unknownFields
        (position + 1 + width size) search
      searchLoop pointer? rest pointers unknown (position + 1 + width size + size) search
  | .bytes _ value rest, pointers, unknown, position, search =>
      let next := position + 1 + width value.length + value.length
      match pointer? value with
      | some id =>
          searchLoop pointer? rest pointers unknown next
            { container := Dict.append id (pointers ++ [position + 1]) search.container
              pointerLengths := Dict.set (position + 1) value.length search.pointerLengths }
      | none => searchLoop pointer? rest pointers unknown next search
  | .string _ value rest, pointers, unknown, position, search =>
      -- `len(value)` of a str: its characters
      searchLoop pointer? rest pointers unknown
        (position + 1 + width value.length + value.length) search
  | .other encoding rest, pointers, unknown, position, search =>
      searchLoop pointer? rest pointers unknown
        (position + Message.clearedSize encoding unknown) search

def searchOnMessage (message : Message) : Search :=
  searchLoop (pointerOf env parse blocks inherited) message [] message.unknownFields 0 {}

end

namespace Message

variable (pointer? : Bytes → Option BlockId)

-- The encoding of a message with a hole for every pointer, which holds the pointer's
-- block and its bytes.
def document : Message → Document (BlockId × Bytes)
  | unknown fields => .raw fields .nil
  | message number value rest => .sub (tag number 2) value.document rest.document
  | group number value rest =>
      .raw (tag number 3) (value.document.append (.raw (tag number 4) rest.document))
  | bytes number value rest =>
      match pointer? value with
      | some id => .hole (tag number 2) (id, value) rest.document
      | none => .raw (tag number 2 ++ delimited value) rest.document
  | string number value rest => .raw (tag number 2 ++ delimited (utf8 value)) rest.document
  | other encoding rest => .raw encoding rest.document

-- The message with the value of every pointer replaced.
def replacePointers (content : BlockId → Bytes) : Message → Message
  | unknown fields => unknown fields
  | message number value rest =>
      message number (value.replacePointers content) (rest.replacePointers content)
  | group number value rest =>
      group number (value.replacePointers content) (rest.replacePointers content)
  | bytes number value rest =>
      match pointer? value with
      | some id => bytes number (content id) (rest.replacePointers content)
      | none => bytes number value (rest.replacePointers content)
  | string number value rest => string number value (rest.replacePointers content)
  | other encoding rest => other encoding (rest.replacePointers content)

theorem document_render (message : Message) :
    (message.document pointer?).render Prod.snd = message.serializeToString := by
  induction message with
  | unknown fields => simp [document, Document.render, serializeToString]
  | message number value rest ihValue ihRest =>
      simp [document, Document.render, serializeToString, ihValue, ihRest]
  | group number value rest ihValue ihRest =>
      simp [document, Document.render, serializeToString, ihValue, ihRest]
  | bytes number value rest ih =>
      simp only [document, serializeToString]
      split <;> simp [Document.render, ih]
  | string number value rest ih => simp [document, Document.render, serializeToString, ih]
  | other encoding rest ih => simp [document, Document.render, serializeToString, ih]

theorem document_render_replace (content : BlockId → Bytes) (message : Message) :
    (message.document pointer?).render (fun pointer => content pointer.1) =
      (message.replacePointers pointer? content).serializeToString := by
  induction message with
  | unknown fields => simp [document, Document.render, serializeToString, replacePointers]
  | message number value rest ihValue ihRest =>
      simp [document, Document.render, serializeToString, replacePointers, ihValue, ihRest]
  | group number value rest ihValue ihRest =>
      simp [document, Document.render, serializeToString, replacePointers, ihValue, ihRest]
  | bytes number value rest ih =>
      simp only [document, replacePointers]
      split <;> simp [Document.render, serializeToString, ih]
  | string number value rest ih =>
      simp [document, Document.render, serializeToString, replacePointers, ih]
  | other encoding rest ih =>
      simp [document, Document.render, serializeToString, replacePointers, ih]

theorem document_size (message : Message) :
    (message.document pointer?).size Prod.snd = message.byteSize := by
  rw [Document.size, document_render, byteSize]

-- Where the walk stands `drift` bytes behind the encoding, it finds the true position of
-- every pointer and of every field around one: at each of them the bytes it has counted
-- too few before it, with those of the field's own tag, and too many make up for each
-- other. No pointer lies inside a group, which has no length to stand at.
def Balanced : Message → Bytes → Int → Prop
  | unknown _, _, _ => True
  | message number value rest, own, drift =>
      let next := drift + (tag number 2).length - 1
      ((value.document pointer?).holes ≠ [] → next = 0 ∧ Balanced value value.unknownFields 0) ∧
        Balanced rest own next
  | group number value rest, own, drift =>
      (value.document pointer?).holes = [] ∧
        Balanced rest own (drift + (tag number 3).length + (tag number 4).length - 1 -
          width value.byteSize)
  | bytes number value rest, own, drift =>
      let next := drift + (tag number 2).length - 1
      ((pointer? value).isSome → next = 0) ∧ Balanced rest own next
  | string number value rest, own, drift =>
      Balanced rest own (drift + (tag number 2).length - 1 +
        ((width (utf8 value).length + (utf8 value).length : Nat) -
          (width value.length + value.length : Nat)))
  | other _ rest, own, drift => Balanced rest own (drift - own.length)

-- A pointer that the walk finds: its block, the positions of the fields around it and its
-- own, the last of them, and its length.
structure Found where
  id : BlockId
  chain : List Nat
  position : Nat
  length : Nat

def Found.under (p : Nat) (entry : Found) : Found := { entry with chain := p :: entry.chain }

def found : Message → Bytes → Nat → List Found
  | unknown _, _, _ => []
  | message _ value rest, own, position =>
      let size := value.byteSize
      (found value value.unknownFields (position + 1 + width size)).map (.under (position + 1)) ++
        found rest own (position + 1 + width size + size)
  | group _ value rest, own, position =>
      let size := value.byteSize
      (found value value.unknownFields (position + 1 + width size)).map (.under (position + 1)) ++
        found rest own (position + 1 + width size + size)
  | bytes _ value rest, own, position =>
      let more := found rest own (position + 1 + width value.length + value.length)
      match pointer? value with
      | some id => ⟨id, [position + 1], position + 1, value.length⟩ :: more
      | none => more
  | string _ value rest, own, position =>
      found rest own (position + 1 + width value.length + value.length)
  | other encoding rest, own, position => found rest own (position + clearedSize encoding own)

def foundChains (message : Message) (own : Bytes) (position : Nat) : List (BlockId × List Nat) :=
  (found pointer? message own position).map fun entry => (entry.id, entry.chain)

-- The positions that the chains of a message's pointers consist of in its encoding.
def trueChains (message : Message) (position : Nat) : List (BlockId × List Nat) :=
  ((message.document pointer?).chains Prod.snd position).map fun entry => (entry.1.1, entry.2)

-- The walk does nothing but note what it finds.
theorem searchLoop_eq (message : Message) (pointers : List Nat) (own : Bytes) (position : Nat)
    (search : Search) :
    searchLoop pointer? message pointers own position search =
      { container := (found pointer? message own position).foldl
          (fun d entry => Dict.append entry.id (pointers ++ entry.chain) d) search.container
        pointerLengths := Dict.update search.pointerLengths
          ((found pointer? message own position).map fun entry =>
            (entry.position, entry.length)) } := by
  induction message generalizing pointers own position search with
  | unknown fields => simp [searchLoop, found, Dict.update]
  | message number value rest ihValue ihRest =>
      simp only [searchLoop, found, ihValue, ihRest, List.foldl_append, List.foldl_map,
        List.map_append, List.map_map, Dict.update, Found.under, List.append_assoc,
        List.singleton_append, Function.comp_apply]
  | group number value rest ihValue ihRest =>
      simp only [searchLoop, found, ihValue, ihRest, List.foldl_append, List.foldl_map,
        List.map_append, List.map_map, Dict.update, Found.under, List.append_assoc,
        List.singleton_append, Function.comp_apply]
  | bytes number value rest ih =>
      simp only [searchLoop, found]
      cases pointer? value with
      | none => simp only [ih]
      | some id => simp only [ih, List.foldl_cons, List.map_cons, Dict.update]
  | string number value rest ih => simp only [searchLoop, found, ih]
  | other encoding rest ih => simp only [searchLoop, found, ih]

theorem trueChains_message (number : Nat) (value rest : Message) (position : Nat) :
    trueChains pointer? (message number value rest) position =
      (trueChains pointer? value (position + (tag number 2).length + width value.byteSize)).map
        (fun entry => (entry.1, (position + (tag number 2).length) :: entry.2)) ++
        trueChains pointer? rest
          (position + (tag number 2).length + width value.byteSize + value.byteSize) := by
  simp only [trueChains, document, Document.chains_sub, document_size, List.map_append,
    List.map_map, Document.delimitedSize, width, Nat.add_assoc]
  rfl

theorem trueChains_group (number : Nat) (value rest : Message) (position : Nat) :
    trueChains pointer? (group number value rest) position =
      trueChains pointer? value (position + (tag number 3).length) ++
        trueChains pointer? rest
          (position + (tag number 3).length + value.byteSize + (tag number 4).length) := by
  simp only [trueChains, document, Document.chains_raw, Document.chains_append, document_size,
    List.map_append]

theorem trueChains_bytes (number : Nat) (value : Bytes) (rest : Message) (position : Nat) :
    trueChains pointer? (bytes number value rest) position =
      match pointer? value with
      | some id => (id, [position + (tag number 2).length]) ::
          trueChains pointer? rest
            (position + (tag number 2).length + width value.length + value.length)
      | none => trueChains pointer? rest
          (position + (tag number 2).length + width value.length + value.length) := by
  simp only [trueChains, document]
  cases pointer? value with
  | none =>
      simp only [Document.chains_raw, List.length_append, delimited_length, width, Nat.add_assoc]
  | some id =>
      simp only [Document.chains_hole, Document.delimitedSize, List.map_cons, width, Nat.add_assoc]

theorem trueChains_string (number : Nat) (value : List Char) (rest : Message) (position : Nat) :
    trueChains pointer? (string number value rest) position =
      trueChains pointer? rest
        (position + (tag number 2).length + width (utf8 value).length + (utf8 value).length) := by
  simp only [trueChains, document, Document.chains_raw, List.length_append, delimited_length,
    width, Nat.add_assoc]

theorem trueChains_other (encoding : Bytes) (rest : Message) (position : Nat) :
    trueChains pointer? (other encoding rest) position =
      trueChains pointer? rest (position + encoding.length) := by
  simp only [trueChains, document, Document.chains_raw]

theorem trueChains_names (message : Message) (position : Nat) :
    (trueChains pointer? message position).map Prod.fst =
      (message.document pointer?).holes.map Prod.fst := by
  rw [← Document.chains_holes Prod.snd position, trueChains, List.map_map, List.map_map]
  rfl

theorem foundChains_message (number : Nat) (value rest : Message) (own : Bytes)
    (position : Nat) :
    foundChains pointer? (message number value rest) own position =
      (foundChains pointer? value value.unknownFields
        (position + 1 + width value.byteSize)).map
        (fun entry => (entry.1, (position + 1) :: entry.2)) ++
        foundChains pointer? rest own (position + 1 + width value.byteSize + value.byteSize) := by
  simp only [foundChains, found, List.map_append, List.map_map]
  rfl

theorem foundChains_group (number : Nat) (value rest : Message) (own : Bytes)
    (position : Nat) :
    foundChains pointer? (group number value rest) own position =
      (foundChains pointer? value value.unknownFields
        (position + 1 + width value.byteSize)).map
        (fun entry => (entry.1, (position + 1) :: entry.2)) ++
        foundChains pointer? rest own (position + 1 + width value.byteSize + value.byteSize) :=
  foundChains_message pointer? number value rest own position

-- The walk finds the very pointers of the encoding, in their order.
theorem foundChains_names (message : Message) (own : Bytes) (position : Nat) :
    (foundChains pointer? message own position).map Prod.fst =
      (message.document pointer?).holes.map Prod.fst := by
  induction message generalizing own position with
  | unknown fields => rfl
  | message number value rest ihValue ihRest =>
      rw [foundChains_message, List.map_append, List.map_map, document, Document.holes,
        List.map_append, ← ihValue value.unknownFields
          (position + 1 + width value.byteSize), ihRest]
      rfl
  | group number value rest ihValue ihRest =>
      rw [foundChains_group, List.map_append, List.map_map, document, Document.holes,
        Document.holes_append, Document.holes, List.map_append, ← ihValue value.unknownFields
          (position + 1 + width value.byteSize), ihRest]
      rfl
  | bytes number value rest ih =>
      have hrest := ih own (position + 1 + width value.length + value.length)
      simp only [foundChains, List.map_map] at hrest ⊢
      simp only [found, document]
      cases pointer? value with
      | none => simpa only [Document.holes] using hrest
      | some id => simp only [List.map_cons, Document.holes, hrest, Function.comp_apply]
  | string number value rest ih => exact ih own _
  | other encoding rest ih => exact ih own _

theorem names_length {l l' : List (BlockId × List Nat)} (h : l.map Prod.fst = l'.map Prod.fst) :
    l.length = l'.length := by
  simpa using congrArg List.length h

theorem found_length (message : Message) (own : Bytes) (position position' : Nat) :
    (foundChains pointer? message own position).length =
      (trueChains pointer? message position').length :=
  names_length (by rw [foundChains_names, trueChains_names])

def positions (chains : List (BlockId × List Nat)) : Nat :=
  (chains.map fun entry => entry.2.length).sum

theorem positions_append (left right : List (BlockId × List Nat)) :
    positions (left ++ right) = positions left + positions right := by
  simp [positions]

theorem positions_cons (p : Nat) (chains : List (BlockId × List Nat)) :
    positions (chains.map fun entry => (entry.1, p :: entry.2)) =
      positions chains + chains.length := by
  induction chains with
  | nil => rfl
  | cons entry chains ih =>
      simp only [positions, List.map_cons, List.sum_cons, List.length_cons] at ih ⊢
      omega

-- The walk counts every field around a pointer, and the groups besides.
theorem positions_le (message : Message) (own : Bytes) (position position' : Nat) :
    positions (trueChains pointer? message position') ≤
      positions (foundChains pointer? message own position) := by
  induction message generalizing own position position' with
  | unknown fields => exact Nat.le_refl _
  | message number value rest ihValue ihRest =>
      rw [foundChains_message, trueChains_message, positions_append, positions_append,
        positions_cons, positions_cons]
      rw [← found_length pointer? value value.unknownFields (position + 1 + width value.byteSize)]
      exact Nat.add_le_add (Nat.add_le_add_right (ihValue _ _ _) _) (ihRest _ _ _)
  | group number value rest ihValue ihRest =>
      rw [foundChains_group, trueChains_group, positions_append, positions_append, positions_cons]
      exact Nat.add_le_add ((ihValue _ _ _).trans (Nat.le_add_right _ _)) (ihRest _ _ _)
  | bytes number value rest ih =>
      rw [trueChains_bytes]
      have hrest := ih own (position + 1 + width value.length + value.length)
        (position' + (tag number 2).length + width value.length + value.length)
      simp only [foundChains, found] at hrest ⊢
      cases pointer? value with
      | none => exact hrest
      | some id =>
          simp only [positions, List.map_cons, List.sum_cons, List.length_cons, List.length_nil]
            at hrest ⊢
          omega
  | string number value rest ih =>
      rw [trueChains_string]
      exact ih own _ _
  | other encoding rest ih =>
      rw [trueChains_other]
      exact ih own _ _

theorem map_cons_eq_iff (p q : Nat) (left right : List (BlockId × List Nat)) :
    (left.map fun entry => (entry.1, p :: entry.2)) =
        (right.map fun entry => (entry.1, q :: entry.2)) ↔
      left = right ∧ (left ≠ [] → p = q) := by
  induction left generalizing right with
  | nil =>
      cases right <;> simp
  | cons entry left ih =>
      cases right with
      | nil => simp
      | cons entry' right =>
          obtain ⟨id, chain⟩ := entry
          obtain ⟨id', chain'⟩ := entry'
          simp only [List.map_cons, List.cons.injEq, Prod.mk.injEq, ih, ne_eq, reduceCtorEq,
            not_false_eq_true, forall_const]
          tauto

theorem append_eq_iff {α : Type} {l l' r r' : List α} (h : l.length = l'.length) :
    l ++ r = l' ++ r' ↔ l = l' ∧ r = r' :=
  ⟨fun he => List.append_inj he h, fun ⟨hl, hr⟩ => by rw [hl, hr]⟩

theorem trueChains_eq_nil (message : Message) (position : Nat) :
    trueChains pointer? message position = [] ↔ (message.document pointer?).holes = [] := by
  rw [← List.map_eq_nil_iff (f := Prod.fst), trueChains_names, List.map_eq_nil_iff]

theorem foundChains_eq_nil (message : Message) (own : Bytes) (position : Nat) :
    foundChains pointer? message own position = [] ↔ (message.document pointer?).holes = [] := by
  rw [← List.map_eq_nil_iff (f := Prod.fst), foundChains_names, List.map_eq_nil_iff]

-- The walk's positions are the true ones just where its miscounts cancel.
theorem foundChains_eq_iff (message : Message) (own : Bytes) (position position' : Nat) :
    foundChains pointer? message own position = trueChains pointer? message position' ↔
      Balanced pointer? message own ((position' : Int) - position) := by
  induction message generalizing own position position' with
  | unknown fields => exact iff_of_true rfl trivial
  | message number value rest ihValue ihRest =>
      have hlen : ((foundChains pointer? value value.unknownFields
          (position + 1 + width value.byteSize)).map
            fun entry => (entry.1, (position + 1) :: entry.2)).length =
          ((trueChains pointer? value
            (position' + (tag number 2).length + width value.byteSize)).map
              fun entry => (entry.1, (position' + (tag number 2).length) :: entry.2)).length := by
        simp only [List.length_map]
        exact found_length ..
      rw [foundChains_message, trueChains_message, append_eq_iff hlen, map_cons_eq_iff,
        ihRest, ne_eq, foundChains_eq_nil, Balanced]
      have hnext : ((position' + (tag number 2).length + width value.byteSize + value.byteSize :
          Nat) : Int) - ((position + 1 + width value.byteSize + value.byteSize : Nat) : Int) =
          (position' : Int) - position + (tag number 2).length - 1 := by
        push_cast
        ring
      rw [hnext]
      refine and_congr_left fun _ => ?_
      by_cases hb : (value.document pointer?).holes = []
      · have h1 := (foundChains_eq_nil pointer? value value.unknownFields
          (position + 1 + width value.byteSize)).mpr hb
        have h2 := (trueChains_eq_nil pointer? value
          (position' + (tag number 2).length + width value.byteSize)).mpr hb
        simp [hb, h1, h2]
      · simp only [hb, not_false_eq_true, forall_const, ne_eq]
        constructor
        · rintro ⟨heq, hp⟩
          refine ⟨by omega, ?_⟩
          rw [← hp] at heq
          have := (ihValue _ _ _).mp heq
          rwa [sub_self] at this
        · rintro ⟨hp, hv⟩
          have hp : position + 1 = position' + (tag number 2).length := by omega
          refine ⟨?_, hp⟩
          rw [← hp]
          refine (ihValue _ _ _).mpr ?_
          rwa [sub_self]
  | group number value rest ihValue ihRest =>
      have hlen : ((foundChains pointer? value value.unknownFields
          (position + 1 + width value.byteSize)).map
            fun entry => (entry.1, (position + 1) :: entry.2)).length =
          (trueChains pointer? value (position' + (tag number 3).length)).length := by
        simp only [List.length_map]
        exact found_length ..
      have hnext : ((position' + (tag number 3).length + value.byteSize +
          (tag number 4).length : Nat) : Int) -
          ((position + 1 + width value.byteSize + value.byteSize : Nat) : Int) =
          (position' : Int) - position + (tag number 3).length + (tag number 4).length - 1 -
            width value.byteSize := by
        push_cast
        ring
      rw [foundChains_group, trueChains_group, append_eq_iff hlen, ihRest, Balanced, hnext]
      refine and_congr_left fun _ => ?_
      constructor
      · -- a chain that runs through the group has a position too many
        intro heq
        have hpos := congrArg positions heq
        rw [positions_cons] at hpos
        have hle := positions_le pointer? value value.unknownFields
          (position + 1 + width value.byteSize) (position' + (tag number 3).length)
        have hzero : (foundChains pointer? value value.unknownFields
            (position + 1 + width value.byteSize)).length = 0 := by omega
        exact (foundChains_eq_nil ..).mp (List.length_eq_zero_iff.mp hzero)
      · intro hb
        rw [(foundChains_eq_nil ..).mpr hb, (trueChains_eq_nil ..).mpr hb]
        rfl
  | bytes number value rest ih =>
      rw [trueChains_bytes, Balanced]
      have hrest := ih own (position + 1 + width value.length + value.length)
        (position' + (tag number 2).length + width value.length + value.length)
      have hnext : ((position' + (tag number 2).length + width value.length + value.length :
          Nat) : Int) - ((position + 1 + width value.length + value.length : Nat) : Int) =
          (position' : Int) - position + (tag number 2).length - 1 := by
        push_cast
        ring
      rw [hnext] at hrest
      simp only [foundChains, found] at hrest ⊢
      cases pointer? value with
      | none => simpa using hrest
      | some id =>
          simp only [List.map_cons, List.cons.injEq, Prod.mk.injEq, and_true, true_and, hrest,
            Option.isSome_some, forall_const]
          refine and_congr_left fun _ => ?_
          omega
  | string number value rest ih =>
      rw [trueChains_string, Balanced]
      refine (ih own _ _).trans (Eq.to_iff (congrArg _ ?_))
      push_cast
      ring
  | other encoding rest ih =>
      rw [trueChains_other, Balanced]
      refine (ih own _ _).trans (Eq.to_iff (congrArg _ ?_))
      simp only [clearedSize]
      push_cast
      ring

end Message

end BeeRpc
