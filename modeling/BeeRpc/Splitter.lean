import BeeRpc.Driver
import BeeRpc.Effect.Outcome
import BeeRpc.Reader
import BeeRpc.Wire.Field

namespace BeeRpc

open Wire

-- block_splitter._Reader. The hasher is what it has been fed.
structure SplitReader where
  chunks : Yielded (Bytes ⊕ Block)
  hashed : Bytes := []
  buffer : Bytes := []
  offset : Nat := 0
  position : Nat := 0
  deriving Repr, DecidableEq

-- block_splitter._Writer. The last of the part files is the open one.
structure SplitWriter where
  entries : List JsonEntry := []
  blocks : Nat := 0
  deriving Repr, DecidableEq

-- What split_block changes. Beside the blocks stand the new form of the block ('.tmp-'), a payload
-- that is being copied ('.split-') and the old form of the block ('.old-').
structure Splitting where
  registry : Registry
  tmp : Option Directory := none
  payload : Option Bytes := none
  old : Option Stored := none
  reader : SplitReader := { chunks := .pure [] }
  writer : SplitWriter := {}
  deriving Repr, DecidableEq

-- What may fail beside the code's own checks: the file system and the caller's policy. A step that
-- is taken again and again goes by where the reader is.
inductive SplitStep where
  | measure
  | makedirs
  | openPart (index : Nat)
  | write (position : Nat)
  | shouldSplit (position : Nat)
  | openPayload (position : Nat)
  | writePayload (position : Nat)
  | removePayload (position : Nat)
  | publishPayload (position : Nat)
  | close
  | remaining
  | generateWbp
  -- os.replace(final, old), os.replace(tmp, final) and the removal of the old form
  | retire
  | install
  | discard
  deriving Repr, DecidableEq

abbrev SplitM := EStateM Err Splitting

-- `os.replace` of what stands under a name to somewhere else.
def Registry.remove (registry : Registry) (id : BlockId) : Registry :=
  registry.filter fun entry => entry.1 ≠ id

-- The bytes of a directory that are in its parts.
def directSize (directory : Directory) : List JsonEntry → Except Err Nat
  | [] => .ok 0
  | .part index :: rest =>
      match directory.part index with
      | none => .error .fileNotFound
      | some content => do
          let more ← directSize directory rest
          return content.length + more
  | .block _ _ :: rest => directSize directory rest

def directContentSize (registry : Registry) (id : BlockId) : Except Err Nat :=
  match registry.lookup id with
  | none => .error .fileNotFound
  | some (.file content) => .ok content.length
  | some (.dir directory) => directSize directory directory.json

-- `isinstance(e, int)`
def JsonEntry.isPart : JsonEntry → Bool
  | .part _ => true
  | .block _ _ => false

-- The open part file takes some more bytes.
def appendLast (data : Bytes) : List (Nat × Bytes) → List (Nat × Bytes)
  | [] => []
  | [(index, content)] => [(index, content ++ data)]
  | part :: rest => part :: appendLast data rest

namespace SplitM

variable {α : Type}

def ofExcept (x : Except Err α) : SplitM α :=
  match x with
  | .ok a => pure a
  | .error e => throw e

def setReader (f : SplitReader → SplitReader) : SplitM Unit :=
  modify fun s => { s with reader := f s.reader }

-- _Reader._fill, over what its chunk generator has left.
def fillLoop (raised : Option Err) : List (Bytes ⊕ Block) → SplitM Bool
  | [] => do
      setReader fun r => { r with chunks := .pure [] }
      match raised with
      | some e => throw e
      | none => return false
  | .inr _ :: rest => fillLoop raised rest
  | .inl chunk :: rest =>
      if chunk = [] then fillLoop raised rest
      else do
        setReader fun r =>
          { r with
            chunks := ⟨rest, raised⟩
            hashed := r.hashed ++ chunk
            buffer := r.buffer.drop r.offset ++ chunk
            offset := 0 }
        return true

def fill : SplitM Bool := do
  let s ← get
  fillLoop s.reader.chunks.raised s.reader.chunks.items

def atEnd : SplitM Bool := do
  let s ← get
  if s.reader.offset < s.reader.buffer.length then return false
  else return !(← fill)

-- `self._buffer[self._offset:self._offset + n]`, with the offset moved behind it.
def takeSlice (n : Nat) : SplitM Bytes :=
  modifyGet fun s =>
    let take := (s.reader.buffer.drop s.reader.offset).take n
    (take, { s with reader := { s.reader with offset := s.reader.offset + take.length } })

-- Each round takes at least a byte.
def readLoop (n : Nat) : Nat → Bytes → SplitM Bytes
  | 0, _ => throw .recursionLimit
  | fuel + 1, out =>
      if out.length < n then do
        if ← atEnd then throw .endsInsideField
        let take ← takeSlice (n - out.length)
        readLoop n fuel (out ++ take)
      else return out

def read (n : Nat) : SplitM Bytes := do
  let out ← readLoop n (n + 1) []
  setReader fun r => { r with position := r.position + n }
  return out

def copyLoop (write : Bytes → SplitM Unit) : Nat → Nat → SplitM Unit
  | 0, _ => throw .recursionLimit
  | fuel + 1, n =>
      if n = 0 then return ()
      else do
        if ← atEnd then throw .endsInsideField
        let take ← takeSlice (min n CHUNK_SIZE)
        setReader fun r => { r with position := r.position + take.length }
        write take
        copyLoop write fuel (n - take.length)

def copy (n : Nat) (write : Bytes → SplitM Unit) : SplitM Unit := copyLoop write (n + 1) n

-- Up to ten bytes: `shift` passes 63 behind the tenth.
def varintLoop : Nat → Bytes → Nat → Nat → SplitM (Bytes × Nat)
  | 0, _, _, _ => throw .varintTooLong
  | left + 1, raw, value, shift => do
      let out ← read 1
      let byte := (out.headD 0).toNat
      let raw := raw ++ out
      let value := value ||| (byte &&& 0x7F) <<< shift
      if byte &&& 0x80 = 0 then return (raw, value)
      else varintLoop left raw value (shift + 7)

def varint : SplitM (Bytes × Nat) := varintLoop 10 [] 0 0

end SplitM

section

variable (env : Enviroment) (faults : SplitStep → Option Err)

def attempt (step : SplitStep) : SplitM Unit :=
  match faults step with
  | some e => throw e
  | none => pure ()

namespace SplitWriter

def openPart : SplitM Unit := do
  let s ← get
  let index := s.writer.entries.countP JsonEntry.isPart + 1
  modify fun s =>
    { s with writer := { s.writer with entries := s.writer.entries ++ [.part index] } }
  attempt faults (.openPart index)
  modify fun s =>
    { s with tmp := s.tmp.map fun d => { d with parts := d.parts ++ [(index, [])] } }

def write (data : Bytes) : SplitM Unit := do
  let s ← get
  attempt faults (.write s.reader.position)
  modify fun s => { s with tmp := s.tmp.map fun d => { d with parts := appendLast data d.parts } }

def block (id : BlockId) (positions : List Nat) : SplitM Unit := do
  modify fun s =>
    { s with
      writer :=
        { entries := s.writer.entries ++ [.block id positions], blocks := s.writer.blocks + 1 } }
  openPart faults

def close : SplitM Unit := do
  attempt faults .close
  modify fun s => { s with tmp := s.tmp.map fun d => { d with json := s.writer.entries } }

end SplitWriter

def writePayload (data : Bytes) : SplitM Unit := do
  let s ← get
  attempt faults (.writePayload s.reader.position)
  modify fun s => { s with payload := s.payload.map (· ++ data) }

-- block_splitter._store_payload without its handler.
def copyPayload (length : Nat) : SplitM BlockId := do
  let s ← get
  let position := s.reader.position
  attempt faults (.openPayload position)
  modify fun s => { s with payload := some [] }
  SplitM.copy length (writePayload faults)
  let s ← get
  let content := s.payload.getD []
  let id := env.hashFactory content
  if s.registry.blockExists id then
    attempt faults (.removePayload position)
    modify fun s => { s with payload := none }
  else
    attempt faults (.publishPayload position)
    modify fun s => { s with registry := s.registry.store id (.file content), payload := none }
  return id

def storePayload (length : Nat) : SplitM BlockId :=
  tryCatch (copyPayload env faults length) fun e => do
    modify fun s => { s with payload := none }
    throw e

variable {δ φ : Type} (types : Descriptors δ φ) (shouldSplit : φ → Nat → Bool)

-- The condition of _walk's loop.
def walkGoesOn (stop : Option Nat) : SplitM Bool := do
  match stop with
  | some stop =>
      let s ← get
      return decide (s.reader.position < stop)
  | none => return !(← SplitM.atEnd)

-- What _walk does with a length-delimited field. `inner` is the walk of a message in it, which
-- ends at a position.
def walkDelimited (inner : δ → Nat → List Nat → SplitM Unit) (descriptor : Option δ)
    (number : Nat) (chain : List Nat) : SplitM Unit := do
  let s ← get
  let lengthPosition := s.reader.position
  let (rawLength, length) ← SplitM.varint
  SplitWriter.write faults rawLength
  match descriptor.bind fun d => types.fieldsByNumber d number with
  | none => SplitM.copy length (SplitWriter.write faults)
  | some field =>
      match types.messageType field with
      | some message => do
          let s ← get
          inner message (s.reader.position + length) (chain ++ [lengthPosition])
      | none => do
          let s ← get
          attempt faults (.shouldSplit s.reader.position)
          if shouldSplit field length then do
            let id ← storePayload env faults length
            SplitWriter.block faults id (chain ++ [lengthPosition])
          else SplitM.copy length (SplitWriter.write faults)

def walkField (inner : δ → Nat → List Nat → SplitM Unit) (descriptor : Option δ)
    (chain : List Nat) : SplitM Unit := do
  let (rawTag, tag) ← SplitM.varint
  SplitWriter.write faults rawTag
  let number := tag >>> 3
  let wireType := tag &&& 7
  if wireType = 0 then do
    let (raw, _) ← SplitM.varint
    SplitWriter.write faults raw
  else if wireType = 1 then do
    let raw ← SplitM.read 8
    SplitWriter.write faults raw
  else if wireType = 5 then do
    let raw ← SplitM.read 4
    SplitWriter.write faults raw
  else if wireType = 2 then
    walkDelimited env faults types shouldSplit inner descriptor number chain
  else throw (.unsupportedWireType wireType)

-- block_splitter._walk. A field takes at least the byte of its tag, so with more fuel than there
-- are bytes the fuel ends neither the loop nor the recursion.
def walk : Nat → Option δ → Option Nat → List Nat → SplitM Unit
  | 0, _, _, _ => throw .recursionLimit
  | fuel + 1, descriptor, stop, chain => do
      if ← walkGoesOn stop then do
        walkField env faults types shouldSplit
          (fun message last chain => walk fuel (some message) (some last) chain) descriptor chain
        walk fuel descriptor stop chain
      else
        match stop with
        | none => return ()
        | some stop => do
            let s ← get
            if s.reader.position ≠ stop then throw .pastEnd

-- What split_block writes into the '.tmp-' directory: the parts and the `_.json`. `stream` is what
-- read_block gives.
def walkBlock (stream : Yielded (Bytes ⊕ Block)) (descriptor : δ) : SplitM Unit := do
  modify fun s => { s with reader := { chunks := stream }, writer := {} }
  SplitWriter.openPart faults
  tryCatch
    (walk env faults types shouldSplit ((contentOf stream.items).length + 1) (some descriptor) none [])
    fun e => do
      SplitWriter.close faults
      throw e
  SplitWriter.close faults

-- What it then checks, and the `wbp.bin`.
def finishSplit (id : BlockId) (inherited : Option (List Bytes)) (limit : Int) : SplitM Unit := do
  let s ← get
  let digest := env.hashFactory s.reader.hashed
  if digest ≠ id then throw (.blockIdMismatch id digest)
  else do
    attempt faults .remaining
    let directory := s.tmp.getD { parts := [], json := [] }
    let remaining ← SplitM.ofExcept (directSize directory s.writer.entries)
    if limit < remaining then throw (.overLimit id remaining s.writer.blocks limit)
    else do
      attempt faults .generateWbp
      let directory ← SplitM.ofExcept (generateWbpFile env s.registry directory inherited)
      modify fun s => { s with tmp := some directory }

-- The two renames, and the removal of the old form.
def swapBlock (id : BlockId) : SplitM Unit := do
  attempt faults .retire
  let s ← get
  match s.registry.lookup id with
  | none => throw .fileNotFound
  | some old => do
      modify fun s => { s with registry := s.registry.remove id, old := some old }
      attempt faults .install
      modify fun s =>
        { s with
          registry := s.registry.store id (.dir (s.tmp.getD { parts := [], json := [] }))
          tmp := none }
      attempt faults .discard
      modify fun s => { s with old := none }

def splitBlockFrom (stream : Yielded (Bytes ⊕ Block)) (id : BlockId) (descriptor : δ)
    (inherited : Option (List Bytes)) (limit : Int) : SplitM Bool := do
  attempt faults .measure
  let s ← get
  let size ← SplitM.ofExcept (directContentSize s.registry id)
  if size ≤ limit then return false
  else do
    attempt faults .makedirs
    modify fun s => { s with tmp := some { parts := [], json := [] } }
    tryCatch
      (do
        walkBlock env faults types shouldSplit stream descriptor
        finishSplit env faults id inherited limit
        swapBlock faults id
        return true)
      fun e => do
        modify fun s => { s with tmp := none }
        throw e

-- block_splitter.split_block
def splitBlock (id : BlockId) (descriptor : δ) (inherited : Option (List Bytes)) (limit : Int) :
    SplitM Bool := do
  let s ← get
  splitBlockFrom env faults types shouldSplit (readBlock env s.registry id) id descriptor inherited
    limit

end

end BeeRpc
