import BeeRpc.Driver
import BeeRpc.Pointers
import BeeRpc.Reader

namespace BeeRpc

open Wire Naming

-- A length of compute_real_lengths: the real one, the one in the buffer, and whether it
-- is that of a pointer.
abbrev RealLength := Nat × Nat × Bool

-- What traverse_tree makes of one key: its entries, and the bytes that its field takes
-- once real and in the buffer, a tag of one byte included.
structure RealKid where
  entries : List (Nat × RealLength)
  treeLength : Nat
  blockLength : Nat
  deriving Repr, DecidableEq

section

variable (env : Enviroment) (registry : Registry)

-- block_builder.get_block_length
def getBlockLength (id : BlockId) : Except Err Nat :=
  if registry.blockExists id then getExpandedBlockLength registry id
  else .error (.blockNotInRegistry id)

def realKid (key realLength length : Nat) (leaf : Bool) (inner : List (Nat × RealLength)) :
    RealKid where
  entries := (key, realLength, length, leaf) :: inner
  treeLength := realLength + width realLength + 1
  blockLength := length + width length + 1

-- What traverse_tree returns for the keys of one dictionary.
def closeTree (initialTotalLength : Nat) (kids : List RealKid) :
    Except Err (Nat × Dict Nat RealLength) :=
  let totalBlockLength := (kids.map RealKid.blockLength).sum
  if initialTotalLength < totalBlockLength then
    .error (.blockLengthGreater initialTotalLength totalBlockLength)
  else
    .ok ((kids.map RealKid.treeLength).sum + (initialTotalLength - totalBlockLength),
      Dict.ofList (kids.flatMap RealKid.entries))

def realNode (buffer : Bytes) (key : Nat) (inner : Except Err (List RealKid)) :
    Except Err RealKid := do
  let initialLength ← getPositionLength key buffer
  let kids ← inner
  let (realLength, internalLengths) ← closeTree initialLength kids
  return realKid key realLength initialLength false internalLengths

def realLeaf (pointerLengths : Dict Nat Nat) (key : Nat) (id : BlockId) : Except Err RealKid :=
  match pointerLengths.lookup key with
  | none => .error (.noPointerLength key)
  | some bLength => do
      let realLength ← getBlockLength registry id
      return realKid key realLength bLength true []

def computeRealLengths (tree : LengthsTree) (buffer : Bytes) (pointerLengths : Dict Nat Nat) :
    Except Err (Dict Nat RealLength) := do
  let kids ← tree.collect (realLeaf registry pointerLengths) (realNode buffer)
  let (_, realLengths) ← closeTree buffer.length kids
  return Dict.ascending realLengths

-- The variables of generate_buffer: the parts that are complete, the one that is being
-- written, and how far the buffer has been read.
structure Generated where
  listOfBytes : List Bytes := []
  newBuff : Bytes := []
  i : Nat := 0
  deriving Repr, DecidableEq

def generateStep (buffer : Bytes) (state : Generated) : Nat × RealLength → Generated
  | (key, realLength, length, leaf) =>
      let newBuff := state.newBuff ++ (buffer.drop state.i).take (key - state.i) ++
        Varint.encode realLength
      let i := key + width length
      if leaf then
        { listOfBytes := state.listOfBytes ++ [newBuff], newBuff := [], i := i + length }
      else { state with newBuff, i }

def generateBuffer (buffer : Bytes) (lengths : Dict Nat RealLength) : List Bytes :=
  let state := lengths.foldl (generateStep buffer) {}
  state.listOfBytes ++ [buffer.drop state.i]

-- search_on_message_real, which appends to `container`. A message field whose position is
-- not among the lengths encloses no pointer and is passed over.
def searchRealLoop (parse : ParseBlock) (pointer? : Bytes → Option BlockId)
    (realLengths : Dict Nat RealLength) : Message → List Nat → Bytes → Nat → Nat →
    List (BlockId × List Nat) → Except Err (List (BlockId × List Nat))
  | .unknown _, _, _, _, _, container => .ok container
  | .message _ value rest, pointers, unknown, position, realPosition, container =>
      let size := value.byteSize
      match realLengths.lookup (position + 1) with
      | none =>
          searchRealLoop parse pointer? realLengths rest pointers unknown
            (position + 1 + width size + size) (realPosition + 1 + width size + size) container
      | some (messageSize, _, _) => do
          let container ← searchRealLoop parse pointer? realLengths value
            (pointers ++ [realPosition + 1]) value.unknownFields (position + 1 + width size)
            (realPosition + 1 + width messageSize) container
          searchRealLoop parse pointer? realLengths rest pointers unknown
            (position + 1 + width size + size)
            (realPosition + 1 + width messageSize + messageSize) container
  | .group _ value rest, pointers, unknown, position, realPosition, container =>
      let size := value.byteSize
      match realLengths.lookup (position + 1) with
      | none =>
          searchRealLoop parse pointer? realLengths rest pointers unknown
            (position + 1 + width size + size) (realPosition + 1 + width size + size) container
      | some (messageSize, _, _) => do
          let container ← searchRealLoop parse pointer? realLengths value
            (pointers ++ [realPosition + 1]) value.unknownFields (position + 1 + width size)
            (realPosition + 1 + width messageSize) container
          searchRealLoop parse pointer? realLengths rest pointers unknown
            (position + 1 + width size + size)
            (realPosition + 1 + width messageSize + messageSize) container
  | .bytes _ value rest, pointers, unknown, position, realPosition, container =>
      match pointer? value with
      | some id => do
          let container := container ++ [(id, pointers ++ [realPosition + 1])]
          let blockLength ← getBlockLength registry id
          -- is_block has parsed the value
          let blockSize := ((parse value).map Prod.snd).getD 0
          match realLengths.lookup (position + 1) with
          | none => .error (.noRealLength (position + 1))
          | some (length, _, _) =>
              if length ≠ blockLength then
                .error (.realLengthMismatch (position + 1) length blockLength)
              else
                searchRealLoop parse pointer? realLengths rest pointers unknown
                  (position + 1 + width blockSize + blockSize)
                  (realPosition + 1 + width blockLength + blockLength) container
      | none =>
          searchRealLoop parse pointer? realLengths rest pointers unknown
            (position + 1 + width value.length + value.length)
            (realPosition + 1 + width value.length + value.length) container
  | .string _ value rest, pointers, unknown, position, realPosition, container =>
      searchRealLoop parse pointer? realLengths rest pointers unknown
        (position + 1 + width value.length + value.length)
        (realPosition + 1 + width value.length + value.length) container
  | .other encoding rest, pointers, unknown, position, realPosition, container =>
      searchRealLoop parse pointer? realLengths rest pointers unknown
        (position + Message.clearedSize encoding unknown)
        (realPosition + Message.clearedSize encoding unknown) container

-- What generate_id feeds the hasher for a block. `if block_id` is false for no block that
-- has got here: one without a name is in no registry.
def idContent (id : BlockId) : Except Err Bytes :=
  match registry.lookup id with
  | none => .error .fileNotFound
  | some (.file content) => .ok content
  | some (.dir directory) =>
      let read := readMultiblockDirectory env registry directory
      match read.raised with
      | some e => .error e
      | none => .ok (contentOf read.items)

-- The zip_longest of generate_id.
def idLoop : List Bytes → List BlockId → Except Err Bytes
  | [], blockIds => do
      let contents ← blockIds.mapM (idContent env registry)
      return contents.flatten
  | buffer :: buffers, [] => do
      let more ← idLoop buffers []
      return buffer ++ more
  | buffer :: buffers, id :: blockIds => do
      let content ← idContent env registry id
      let more ← idLoop buffers blockIds
      return buffer ++ content ++ more

def generateId (buffers : List Bytes) (blockIds : List BlockId) : Except Err Bytes := do
  let content ← idLoop env registry buffers blockIds
  return env.hashFactory content

-- The zip_longest that writes the parts and makes the `_.json`; `index` is the part's
-- number. A block with no part before it would be written as `None`.
def layOut : Nat → List Bytes → List (BlockId × List Nat) →
    Except Err (List (Nat × Bytes) × List JsonEntry)
  | _, [], [] => .ok ([], [])
  | _, [], _ :: _ => .error .noPart
  | index, b1 :: newBuff, [] => do
      let (parts, json) ← layOut (index + 1) newBuff []
      return ((index, b1) :: parts, .part index :: json)
  | index, b1 :: newBuff, b2 :: container => do
      let (parts, json) ← layOut (index + 1) newBuff container
      return ((index, b1) :: parts, .part index :: .block b2.1 b2.2 :: json)

def buildMultiblock (parse : ParseBlock) (message : Message) (blocks : List BlockId)
    (inherited : Option (List Bytes) := none) : Except Err (Bytes × Directory) := do
  let search := searchOnMessage env parse blocks inherited message
  -- assert_container_covers_blocks
  let missing := blocks.filter fun id => id ∉ search.container.map Prod.fst
  if missing ≠ [] then .error (.inconsistentBlockState missing)
  let tree ← createLengthsTree search.container
  let buffer := message.serializeToString
  let realLengths ← computeRealLengths registry tree buffer search.pointerLengths
  let newBuff := generateBuffer buffer realLengths
  let containerRealLengths ← searchRealLoop registry parse (pointerOf env parse blocks inherited)
    realLengths message [] message.unknownFields 0 0 []
  let objectId ← generateId env registry newBuff (containerRealLengths.map Prod.fst)
  let (parts, json) ← layOut 1 newBuff containerRealLengths
  return (objectId, { parts, json, wbp := some buffer })

end

end BeeRpc
