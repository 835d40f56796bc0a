import BeeRpc.Wire.Varint

namespace BeeRpc

open Wire

-- The digest of a block's content. The registry's file names and the `_.json` of a
-- directory hold its hexadecimal spelling, which determines it.
abbrev BlockId := Bytes

structure Hash where
  type : Bytes
  value : Bytes
  deriving Repr, DecidableEq

structure Block where
  hashes : List Hash
  previousLengthsPosition : List Nat
  deriving Repr, DecidableEq

structure Head where
  index : Int
  deriving Repr, DecidableEq

-- A field is `none` where `HasField` is false.
structure Buffer where
  chunk : Option Bytes := none
  separator : Option Bool := none
  signal : Option Bool := none
  head : Option Head := none
  block : Option Block := none
  skip : Option Block := none
  deriving Repr, DecidableEq

namespace Buffer

-- `b.chunk` of a Buffer without the field reads as no bytes.
def content (b : Buffer) : Bytes := b.chunk.getD []

def isSeparator (b : Buffer) : Bool := b.separator == some true

def isSignal (b : Buffer) : Bool := b.signal == some true

def clearBlock (b : Buffer) : Buffer := { b with block := none }

end Buffer

-- Proto3 writes no bytes for an empty singular field.
def Hash.serializeToString (hash : Hash) : Bytes :=
  (if hash.type = [] then [] else 0x0A :: delimited hash.type) ++
    (if hash.value = [] then [] else 0x12 :: delimited hash.value)

def Block.serializeToString (block : Block) : Bytes :=
  block.hashes.flatMap (fun hash => 0x0A :: delimited hash.serializeToString) ++
    (if block.previousLengthsPosition = [] then []
      else 0x12 :: delimited (block.previousLengthsPosition.flatMap Varint.encode))

-- Where the library raises. A constructor stands for one raise site and holds what its
-- message reports.
inductive Err where
  -- utils.resolve_hash_types: HashTypeError
  | undeducibleHashType (index inherited : Nat)
  -- block_builder.get_hash
  | pointerNamesNoHash
  -- client.parser_iterator
  | intersection
  | nestedTooDeep
  -- client.save_chunks_to_block: a marker without a resolvable hash type
  | unresolvableMarker
  -- client.save_block_content: BlockIdMismatch
  | blockIdMismatch (block digest : BlockId)
  -- reader._verify_single_file_block
  | corruptBlock (block digest : BlockId) (size : Nat)
  -- reader.read_block
  | readingBlock (block : BlockId)
  -- os.path.getsize and open on a path that is not there
  | fileNotFound
  -- a recursion that has no end: utils.get_expanded_block_length names the block, a
  -- reader that never comes back ends in RecursionError
  | recursiveLoop (block : BlockId)
  | recursionLimit
  -- utils.seek_expanded_position: ValueError
  | outOfBufferRange (position : Nat)
  -- a subscript past the end of a bytes object
  | indexError
  -- TypeError: a position looked up in a block name
  | notADict
  -- block_driver.generate_wbp_file and the checks it makes
  | invalidBlockEntry
  | lengthsValidation (block : BlockId) (position stated : Nat) (beyond : Int) (chain : List Nat)
  | prunedLength
  | varintNotFound
  -- block_builder
  | inconsistentBlockState (missing : List BlockId)
  | blockNotInRegistry (block : BlockId)
  | noPointerLength (position : Nat)
  | blockLengthGreater (total blocks : Nat)
  | realLengthMismatch (position stated expanded : Nat)
  | noRealLength (position : Nat)
  | noPart
  | blockNotFound (block : BlockId)
  -- client.parse_from_buffer
  | indicesNotCorrect
  | headIndex (index : Int)
  | parseMessage
  | keyError
  -- client.serialize_to_buffer: `next` of an iterator that gives nothing
  | stopIteration
  -- block_splitter: SplitError
  | endsInsideField
  | varintTooLong
  | unsupportedWireType (wireType : Nat)
  | pastEnd
  | overLimit (block : BlockId) (remaining blocks : Nat) (limit : Int)
  deriving Repr, DecidableEq

section

variable {ε α β : Type}

@[simp] theorem ok_bind (a : α) (f : α → Except ε β) : (Except.ok a >>= f) = f a := rfl

@[simp] theorem error_bind (e : ε) (f : α → Except ε β) :
    (Except.error e >>= f) = Except.error e := rfl

@[simp] theorem pure_ok (a : α) : (pure a : Except ε α) = Except.ok a := rfl

theorem bind_eq_ok {x : Except ε α} {f : α → Except ε β} {b : β} :
    (x >>= f) = .ok b ↔ ∃ a, x = .ok a ∧ f a = .ok b := by
  cases x with
  | error e => simp
  | ok a => simp

end

end BeeRpc
