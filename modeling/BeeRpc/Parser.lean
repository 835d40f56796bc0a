import BeeRpc.Reader

namespace BeeRpc

def MAX_BLOCK_NESTING : Nat := 32

-- What happens, in its order, while a reader of parser_iterator waits for its next
-- buffer: a buffer taken from the requests, a change of the signal, the start of a block
-- that the peer is asked to skip if it is here already. And the buffer that it then gets.
inductive Event where
  | pull
  | change
  | ask (id : BlockId)
  | buffer (b : Buffer)
  deriving Repr, DecidableEq

-- What a buffer has besides a block: whether it is yielded, and whether the loop goes on.
def passOn (b : Buffer) : List Event × Bool :=
  if b.chunk.isSome then ([.buffer b], !b.isSeparator)
  else if b.head.isNone then ([], false)
  else ([], !b.isSeparator)

-- The frames of parser_iterator's recursion, each at the marker of the block that the
-- frame it has called reads, innermost first. The last is the one outside all blocks.
abbrev Frames := List Buffer

-- The innermost frame breaks its loop, and the one that has called it goes on: inside a
-- block with the next buffer, outside all blocks with what its marker has besides.
def leave : Frames → List Event × Option Frames
  | [] => ([], none)
  | [outermost] =>
      match passOn outermost with
      | (events, true) => (events, some [])
      | (events, false) => (events, none)
  | _ :: around => ([], some around)

section

variable (env : Enviroment)

def Buffer.blockHash (b : Buffer) : Option BlockId := b.block.bind (getHashFromBlock env)

-- client.parser_iterator: what it does and yields over the requests, with `blocks` the
-- open blocks, innermost first.
def parserIterator : Frames → List BlockId → List Buffer → Yielded Event
  | frames, _, [] =>
      -- every frame breaks
      .pure ((frames.getLast?.map fun outermost => (passOn outermost).1).getD [])
  | frames, blocks, b :: rest =>
      let start : List Event := .pull :: if b.isSignal then [.change] else []
      match truthy (b.blockHash env) with
      | some hash =>
          if hash ∈ blocks then
            if blocks.head? = some hash then
              let blocks := blocks.tail
              let mark : List Event := if blocks = [] then [] else [.buffer b]
              match leave frames with
              | (events, some frames) =>
                  (Yielded.pure (start ++ mark ++ events)).andThen
                    (parserIterator frames blocks rest)
              | (events, none) => .pure (start ++ mark ++ events)
            else ⟨start, some .intersection⟩
          else if MAX_BLOCK_NESTING ≤ blocks.length then ⟨start, some .nestedTooDeep⟩
          else
            (Yielded.pure (start ++ [.ask hash, .buffer b])).andThen
              (parserIterator (b :: frames) (hash :: blocks) rest)
      | none =>
          match passOn b with
          | (events, true) =>
              (Yielded.pure (start ++ events)).andThen (parserIterator frames blocks rest)
          | (events, false) =>
              match leave frames with
              | (more, some frames) =>
                  (Yielded.pure (start ++ events ++ more)).andThen
                    (parserIterator frames blocks rest)
              | (more, none) => .pure (start ++ events ++ more)

end

end BeeRpc
