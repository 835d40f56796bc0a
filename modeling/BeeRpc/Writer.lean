import BeeRpc.Driver
import BeeRpc.Effect.Outcome
import BeeRpc.Parser

namespace BeeRpc

open Wire

-- What a receiver changes. Temporary paths go by a number that no other path has: those
-- beside the blocks, which are a directory or the `.file` next to it, and those of the
-- cache directory. `blockDir` says whether the block directory has been made with one of the first.
structure World where
  registry : Registry
  requests : List Buffer
  scratch : List (Nat × Bool) := []
  cache : List Nat := []
  next : Nat := 0
  asked : List BlockId := []
  changes : Nat := 0
  blockDir : Bool := false
  deriving Repr, DecidableEq

-- File operations succeed, so what is raised is raised by the code itself.
abbrev Save := EStateM Err World

-- What the writers read from, and what they share with the one that has called them: the
-- `_.json` of the directory they write and the hashers of the blocks around it, each as
-- what it has been fed.
structure Reading where
  stream : Yielded Event
  json : List JsonEntry := []
  hashers : List Bytes := []
  deriving Repr, DecidableEq

def feed (piece : Bytes) (hashers : List Bytes) : List Bytes := hashers.map (· ++ piece)

-- `control` says whether the call has an enabled StreamControl, which asks once a block.
def World.signalBlockBufferStream (id : BlockId) (w : World) : World :=
  if id ∈ w.asked then w else { w with asked := w.asked ++ [id] }

def fresh : Save Nat := modifyGet fun w => (w.next, { w with next := w.next + 1 })

def addScratch (path : Nat × Bool) : Save Unit :=
  modify fun w => { w with scratch := path :: w.scratch }

-- os.makedirs, which makes the directory around the path too.
def makedirs (tmp : Nat) : Save Unit :=
  modify fun w => { w with scratch := (tmp, false) :: w.scratch, blockDir := true }

-- client._remove
def removeScratch (path : Nat × Bool) : Save Unit :=
  modify fun w => { w with scratch := w.scratch.filter (· ≠ path) }

section

variable (env : Enviroment) (control : Bool)

def World.after (w : World) : Event → World
  | .pull => { w with requests := w.requests.tail }
  | .change => { w with changes := w.changes + 1 }
  | .ask id => if control && w.registry.blockExists id then w.signalBlockBufferStream id else w
  | .buffer _ => w

def Event.perform (event : Event) : Save Unit := modify fun w => w.after control event

-- client.stop_generator: what it gives, and what it leaves to the iterator behind it.
def stopItems (id : BlockId) : List Event → List Event × Option (List Event)
  | [] => ([], none)
  | .buffer b :: rest =>
      if b.blockHash env = some id then ([.buffer b.clearBlock], some rest)
      else (.buffer b :: (stopItems id rest).1, (stopItems id rest).2)
  | event :: rest => (event :: (stopItems id rest).1, (stopItems id rest).2)

def stopGenerator (stream : Yielded Event) (id : BlockId) : Yielded Event × Yielded Event :=
  match stopItems env id stream.items with
  | (items, some after) => (.pure items, ⟨after, stream.raised⟩)
  | (items, none) => (⟨items, stream.raised⟩, .pure [])

-- The loop that throws a block's buffers away, up to its end marker.
def drain (id : BlockId) (raised : Option Err) : List Event → Save (Yielded Event)
  | [] =>
      match raised with
      | some e => throw e
      | none => pure (.pure [])
  | .buffer b :: rest =>
      if b.blockHash env = some id then pure ⟨rest, raised⟩ else drain id raised rest
  | event :: rest => do
      event.perform control
      drain id raised rest

-- What save_chunks_to_file returns, with the file's content.
structure SavedFile where
  ended : Bool
  content : Bytes
  reading : Reading

-- The loop of save_chunks_to_file. `saveBlock` is save_chunks_to_block.
def saveChunks (saveBlock : Buffer → Reading → Save Reading) (json : List JsonEntry)
    (raised : Option Err) : Bytes → List Bytes → List Event → Save SavedFile
  | content, hashers, [] =>
      match raised with
      | some e => throw e
      | none => pure ⟨true, content, ⟨.pure [], json, hashers⟩⟩
  | content, hashers, .buffer b :: rest =>
      if b.block.isSome then do
        let reading ← saveBlock b ⟨⟨rest, raised⟩, json, hashers⟩
        return ⟨false, content, reading⟩
      else saveChunks saveBlock json raised (content ++ b.content) (feed b.content hashers) rest
  | content, hashers, event :: rest => do
      event.perform control
      saveChunks saveBlock json raised content hashers rest

def saveChunksToFile (saveBlock : Buffer → Reading → Save Reading) (prev : Option Bytes)
    (reading : Reading) : Save SavedFile :=
  let prev := prev.getD []
  saveChunks control saveBlock reading.json reading.stream.raised prev (feed prev reading.hashers)
    reading.stream.items

-- The parts of one block. A part that does not end the block takes at least its marker.
def savePartsLoop (saveBlock : Buffer → Reading → Save Reading) :
    Nat → Option Bytes → Nat → List (Nat × Bytes) → Reading → Save (List (Nat × Bytes) × Reading)
  | 0, _, _, _, _ => throw .recursionLimit
  | fuel + 1, prev, index, parts, reading => do
      let file ← saveChunksToFile control saveBlock prev
        { reading with json := reading.json ++ [.part index] }
      let parts := parts ++ [(index, file.content)]
      if file.ended then return (parts, file.reading)
      else savePartsLoop saveBlock fuel none (index + 1) parts file.reading

-- What a block's parts are made into beside its final path: a file where no other block
-- was framed in it.
def makeReady (marker : Buffer) (tmp : Nat) (parts : List (Nat × Bytes)) (json : List JsonEntry) :
    Save ((Nat × Bool) × Stored) := do
  if json.length < 2 then
    addScratch (tmp, true)
    removeScratch (tmp, false)
    return ((tmp, true), .file ((parts.lookup 1).getD []))
  else
    if env.skipWbpGeneration then return ((tmp, false), .dir { parts, json })
    else
      let inherited := marker.block.bind fun block => (resolveHashTypes block).toOption
      let w ← get
      match generateWbpFile env w.registry { parts, json } inherited with
      | .ok directory => return ((tmp, false), .dir directory)
      | .error e => throw e

def publish (id : BlockId) (ready : Nat × Bool) (stored : Stored) : Save Unit := do
  let w ← get
  if w.registry.blockExists id then removeScratch ready
  else
    removeScratch ready
    modify fun w => { w with registry := w.registry.store id stored }

-- What is done with a block that was read: it is checked against its name and renamed.
-- Returns the hashers of the blocks around it.
def finishBlock (marker : Buffer) (id : BlockId) (tmp : Nat) :
    List (Nat × Bytes) × Reading → Save (List Bytes)
  | (parts, reading) => do
      let digest := env.hashFactory (reading.hashers.getLast?.getD [])
      if digest ≠ id then throw (.blockIdMismatch id digest)
      else
        let (ready, stored) ← makeReady env marker tmp parts reading.json
        publish id ready stored
        return reading.hashers.dropLast

-- What save_block_content does beside the final path.
def writeBlock (saveBlock : Buffer → Reading → Save Reading) (marker : Buffer) (id : BlockId)
    (tmp : Nat) (stream : Yielded Event) (hashers : List Bytes) : Save (List Bytes) := do
  let result ← savePartsLoop control saveBlock (stream.items.length + 1) marker.chunk 1 []
    { stream, hashers := hashers ++ [[]] }
  finishBlock env marker id tmp result

def abandon (tmp : Nat) (e : Err) : Save (List Bytes) := do
  removeScratch (tmp, true)
  removeScratch (tmp, false)
  throw e

def saveBlockContent (saveBlock : Buffer → Reading → Save Reading) (marker : Buffer)
    (id : BlockId) (stream : Yielded Event) (hashers : List Bytes) : Save (List Bytes) := do
  let tmp ← fresh
  makedirs tmp
  tryCatch (writeBlock env control saveBlock marker id tmp stream hashers) (abandon tmp)

-- client.save_chunks_to_block. A block in a block takes events of the stream around it,
-- so with as much fuel as there are events the fuel never ends the recursion.
def saveChunksToBlock : Nat → Buffer → Reading → Save Reading
  | 0, _, _ => throw .recursionLimit
  | fuel + 1, marker, reading =>
      match marker.block.bind fun block =>
          (truthy (blockIdFromPointer env block)).map fun id =>
            (id, block.previousLengthsPosition) with
      | none => throw .unresolvableMarker
      | some (id, positions) => do
          let json := if reading.json = [] then [] else reading.json ++ [.block id positions]
          let w ← get
          if w.registry.blockExists id then
            let stream ← drain env control id reading.stream.raised reading.stream.items
            if reading.hashers = [] then return { reading with stream, json }
            else
              let w ← get
              let read := readBlock env w.registry id
              match read.raised with
              | some e => throw e
              | none =>
                  return ⟨stream, json, feed (contentOf read.items) reading.hashers⟩
          else
            let (inside, after) := stopGenerator env reading.stream id
            let hashers ← saveBlockContent env control (saveChunksToBlock fuel) marker id inside
              reading.hashers
            return ⟨after, json, hashers⟩

end

end BeeRpc
