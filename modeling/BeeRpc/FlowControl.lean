import BeeRpc.Course
import BeeRpc.Interleaving.Insertion
import BeeRpc.Refusal
import BeeRpc.Tally

namespace BeeRpc

open Wire Effect Naming Interleaving

-- What parser_iterator makes of a signal, and what is yielded for it.
def Sent.arrival (sent : Sent) : Buffer × List Forest := ({ head := some sent.head }, sent.forest.torn)

namespace Receiver

variable (receiver : Receiver)

def defaultField : Field := (receiver.allIndices.lookup receiver.defaultIndex).getD .bytes

-- The message that a signal is taken for yields nothing: the default index is read in memory,
-- and does not stand for an Empty.
def Overlooks : Prop :=
  receiver.mode receiver.defaultIndex = true ∧ receiver.defaultField ≠ .empty

end Receiver

section

variable {receiver : Receiver}

end

section Results

variable {receiver : Receiver}

end Results

end BeeRpc
