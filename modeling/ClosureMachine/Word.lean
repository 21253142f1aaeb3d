/-!
Widths of numbers. Ids and offsets are kept in words of 32 bits, byte counts in 64 bits, and
integers are signed and of 64 bits.
-/

namespace ClosureMachine

/-- The first natural number that does not fit in 32 bits. -/
def wordLimit : Nat := 4294967296

/-- The first natural number that does not fit in 64 bits. -/
def longLimit : Nat := 18446744073709551616

def int64? (n : Int) : Option Int64 :=
  if Int64.minValue.toInt ≤ n ∧ n ≤ Int64.maxValue.toInt then some (Int64.ofInt n) else none

theorem wordLimit_pos : 0 < wordLimit := by decide

theorem int64?_toInt (n : Int64) : int64? n.toInt = some n := by
  have h : Int64.minValue.toInt ≤ n.toInt ∧ n.toInt ≤ Int64.maxValue.toInt :=
    ⟨n.minValue_le_toInt, n.toInt_le⟩
  rw [int64?, if_pos h, Int64.ofInt_toInt]

end ClosureMachine
