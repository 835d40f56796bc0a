import BeeRpc.Control
import BeeRpc.Message
import BeeRpc.Writer

namespace BeeRpc

open Wire Naming

-- What an index stands for. A class of messages goes by a number.
inductive Field where
  | bytes
  | str
  | message (cls : Nat)
  deriving Repr, DecidableEq

-- buffer_pb2.Empty
def Field.empty : Field := .message 0

inductive Value where
  | bytes (content : Bytes)
  | str (content : String)
  | message (cls : Nat) (message : Message)
  deriving DecidableEq

-- utils.Dir: a path of the cache directory, with what stands there.
structure Dir where
  dir : Nat
  stored : Stored
  type : Field
  deriving Repr, DecidableEq

inductive Result where
  | value (value : Value)
  | dir (dir : Dir)
  deriving DecidableEq

-- protobuf's ParseFromString for the class, `none` where it raises DecodeError.
abbrev ParseMessage := Nat → Bytes → Option Message

-- The arguments of parse_from_buffer.
structure Receiver where
  env : Enviroment
  parse : ParseMessage
  indices : Dict Int Field
  partitionsMessageMode : Bool ⊕ Dict Int Bool
  -- whether there is a StreamControl that is enabled
  control : Bool := false

namespace Receiver

variable (receiver : Receiver)

def allIndices : Dict Int Field := Dict.set 0 .bytes receiver.indices

-- An index that a dictionary of modes leaves out gets the list `[False]`, which is true.
def mode (index : Int) : Bool :=
  match receiver.partitionsMessageMode with
  | .inl mode => mode
  | .inr modes => (modes.lookup index).getD true

-- What parse_from_buffer checks before it reads anything.
def isCorrect : Bool :=
  !receiver.indices.isEmpty &&
    match receiver.partitionsMessageMode with
    | .inl _ => true
    | .inr modes => modes.all fun entry => (receiver.allIndices.lookup entry.1).isSome

-- The loop of parse_message. A block that is here already is read from the registry, and
-- its buffers are thrown away.
def messageLoop (raised : Option Err) : List Event → Option BlockId → Bytes → Save Bytes
  | [], _, allBuffer =>
      match raised with
      | some e => throw e
      | none => pure allBuffer
  | .buffer b :: rest, inBlock, allBuffer =>
      match b.block.map (getHashFromBlock receiver.env) with
      | none =>
          if inBlock.isSome then messageLoop raised rest inBlock allBuffer
          else messageLoop raised rest none (allBuffer ++ b.content)
      | some blockId =>
          if blockId = inBlock then messageLoop raised rest none (allBuffer ++ b.content)
          else if inBlock.isSome then messageLoop raised rest inBlock allBuffer
          else
            let id := blockId.getD []
            -- a block with an empty name is the registry itself, which has no `_.json`
            if id = [] then throw .fileNotFound
            else do
              let w ← get
              if w.registry.blockExists id then
                let read := readBlock receiver.env w.registry id
                match read.raised with
                | some e => throw e
                | none => messageLoop raised rest (some id) (allBuffer ++ contentOf read.items)
              else messageLoop raised rest none (allBuffer ++ b.content)
  | event :: rest, inBlock, allBuffer => do
      event.perform receiver.control
      messageLoop raised rest inBlock allBuffer

def convert (field : Field) (allBuffer : Bytes) : Except Err Value :=
  match field with
  | .str =>
      match String.fromUTF8? ⟨allBuffer.toArray⟩ with
      | some content => .ok (.str content)
      | none => .error .parseMessage
  | .message cls =>
      match receiver.parse cls allBuffer with
      | some message => .ok (.message cls message)
      | none => .error .parseMessage
  | .bytes => .ok (.bytes allBuffer)

-- There is no value where it raises EmptyBufferException, which nobody but the loop over the
-- requests catches.
def parseMessage (field : Field) : Save (Option Value) := do
  let w ← get
  let stream := parserIterator receiver.env [] [] w.requests
  let allBuffer ← receiver.messageLoop stream.raised stream.items none []
  if allBuffer = [] then return none
  else
    match receiver.convert field allBuffer with
    | .ok value => return some value
    | .error e => throw e

-- The loop of save_to_dir, with a parser_iterator for each part. A part that is not the
-- last takes at least a buffer of the requests.
def saveDirParts : Nat → Nat → List (Nat × Bytes) → List JsonEntry →
    Save (List (Nat × Bytes) × List JsonEntry)
  | 0, _, _, _ => throw .recursionLimit
  | fuel + 1, index, parts, json => do
      let w ← get
      let stream := parserIterator receiver.env [] [] w.requests
      let file ← saveChunksToFile receiver.control
        (saveChunksToBlock receiver.env receiver.control (stream.items.length + 1)) none
        { stream, json := json ++ [.part index] }
      let parts := parts ++ [(index, file.content)]
      if file.ended then return (parts, file.reading.json)
      else saveDirParts fuel (index + 1) parts file.reading.json

def addCache (path : Nat) : Save Unit := modify fun w => { w with cache := path :: w.cache }

def removeCache (path : Nat) : Save Unit :=
  modify fun w => { w with cache := w.cache.filter (· ≠ path) }

def saveToDir : Save (Nat × Stored) := do
  let dirname ← fresh
  addCache dirname
  let w ← get
  let (parts, json) ← tryCatch (receiver.saveDirParts (w.requests.length + 1) 1 [] []) fun e => do
    removeCache dirname
    throw e
  if json.length < 2 then
    -- the directory that the file is moved out of stays
    let filename ← fresh
    addCache filename
    return (filename, .file ((parts.lookup 1).getD []))
  else if receiver.env.skipWbpGeneration then return (dirname, .dir { parts, json })
  else
    let w ← get
    match generateWbpFile receiver.env w.registry { parts, json } with
    | .ok directory => return (dirname, .dir directory)
    | .error e => throw e

def iterateMessage (field : Field) (mode : Bool) : Save (Option Result) :=
  if mode then do
    let value ← receiver.parseMessage field
    return value.map .value
  else do
    let (dir, stored) ← receiver.saveToDir
    return some (.dir { dir, stored, type := field })

-- `yield buffer_pb2.Empty()` where the index that decides stands for it.
def emptyResult (field : Field) : Option Result :=
  if field = .empty then some (.value (.message 0 (.unknown []))) else none

-- One turn of the loop over the requests, whose first buffer is `b`.
def receive (b : Buffer) : Save (Option Result) :=
  match b.head with
  | some head =>
      match receiver.allIndices.lookup head.index with
      | none => throw (.headIndex head.index)
      | some field => do
          match ← receiver.iterateMessage field (receiver.mode head.index) with
          | some result => return some result
          | none =>
              match receiver.allIndices.lookup 1 with
              | none => throw .keyError
              | some field => return emptyResult field
  | none => do
      let index : Int := if (receiver.allIndices.lookup 1).isSome then 1 else 0
      let field := (receiver.allIndices.lookup index).getD .bytes
      match ← receiver.iterateMessage field (receiver.mode index) with
      | some result => return some result
      | none => return emptyResult field

-- The loop over the requests: each turn takes at least the buffer it begins with.
def mainLoop : Nat → World → Yielded Result × World
  | 0, w => (.raise .recursionLimit, w)
  | fuel + 1, w =>
      match w.requests with
      | [] => (.pure [], w)
      | b :: _ =>
          match receiver.receive b w with
          | .error e w => (.raise e, w)
          | .ok result w =>
              let (more, w) := mainLoop fuel w
              ((Yielded.pure result.toList).andThen more, w)

end Receiver

def parseFromBuffer (receiver : Receiver) (w : World) : Yielded Result × World :=
  if receiver.isCorrect then
    let requests := if receiver.control then controlReader receiver.env w.requests else w.requests
    receiver.mainLoop (requests.length + 1) { w with requests }
  else (.raise .indicesNotCorrect, w)

end BeeRpc
