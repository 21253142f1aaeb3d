import ClosureMachine.Word

/-!
Blocks, the unit of allocation. Storage is handed out in whole blocks of sixteen bytes, so a
request for some bytes costs the number of blocks that cover them.
-/

namespace ClosureMachine

/-- Bytes in a block; also the strictest alignment that storage can give. -/
def blockSize : Nat := 16

/-- Blocks in a region of 128 MiB. -/
def defaultCapacity : Nat := 128 * 1024 * 1024 / blockSize

def blocksFor (bytes : Nat) : Nat := (bytes + (blockSize - 1)) / blockSize

theorem le_blocksFor_mul (bytes : Nat) : bytes ≤ blocksFor bytes * blockSize := by
  simp only [blocksFor, blockSize]; omega

theorem blocksFor_le_iff (bytes n : Nat) : blocksFor bytes ≤ n ↔ bytes ≤ n * blockSize := by
  simp only [blocksFor, blockSize]; omega

end ClosureMachine
