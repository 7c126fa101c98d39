import Mathlib

/-!
# hash.c — the hash of a 32-bit number
-/

namespace TriOS

/-- `hash32` -/
def hash32 (val : UInt32) (bits : UInt32) : UInt32 :=
  (val * 0x9e370001) >>> (32 - bits)

end TriOS
