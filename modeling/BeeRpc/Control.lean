import BeeRpc.HashTypes

namespace BeeRpc

open Wire

section

variable (env : Enviroment)

-- control.skip_buffer
def skipBuffer (id : BlockId) : Buffer :=
  { skip := some { hashes := [{ type := env.hashType, value := id }], previousLengthsPosition := [] }
    chunk := some [] }

-- control.skipped_block_id
def skippedBlockId (b : Buffer) : Option BlockId := b.skip.bind (getHashFromBlock env)

-- control._is_inert
def Buffer.isInert (b : Buffer) : Bool :=
  !(b.head.isSome || b.block.isSome || b.isSeparator || b.isSignal || !b.content.isEmpty)

def Buffer.clearSkip (b : Buffer) : Buffer := { b with skip := none }

-- StreamControl.reader: what is left of a stream once the skip requests of the peer are
-- taken out of it.
def controlReader : List Buffer → List Buffer
  | [] => []
  | b :: rest =>
      if (skippedBlockId env b).isSome then
        if b.isInert then controlReader rest else b.clearSkip :: controlReader rest
      else b :: controlReader rest

end

end BeeRpc
