import Hashmonkey.Core.Timestamps
import Hashmonkey.Crypto.Hash

/-!
# Difficulty (`cryptonote_basic/difficulty.cpp`)

`next_difficulty` looks at the first 720 of the up to 735 blocks it is given, cuts off 60 outliers
in time on either side, and divides the work between the ends of the rest by the time between them.
`check_hash` compares a hash with a difficulty.

`difficulty_type` is an unsigned integer of 128 bits that wraps; difficulties are natural numbers
here and the operations that can wrap say `% 2 ^ 128`. `next_difficulty` computes its quotient with
256 bits, which no window can fill, and gives zero when the result needs more than 128. A hash is a
number of 256 bits, lowest byte first (`leNat`). That the words of the source compute these numbers
is shown in `Core/DifficultyWords`.
-/

namespace Hashmonkey.Core

/-- `DIFFICULTY_WINDOW`. -/
def difficultyWindow : Nat := 720

/-- `DIFFICULTY_BLOCKS_COUNT`: the window and the lag of 15 blocks. -/
def difficultyBlocksCount : Nat := 735

/-- The range of the sorted window that is looked at: `DIFFICULTY_CUT` entries go on each side. -/
def difficultyCut (length : Nat) : Nat × Nat :=
  if length ≤ 600 then (0, length)
  else
    let cutBegin := (length - 600 + 1) / 2
    (cutBegin, cutBegin + 600)

/-- `next_difficulty`, from the timestamps and the cumulative difficulties of the last blocks,
oldest first. -/
def nextDifficulty (timestamps : List UInt64) (cumulativeDifficulties : List Nat)
    (targetSeconds : Nat) : Nat :=
  let timestamps := sorted (timestamps.take difficultyWindow)
  let difficulties := cumulativeDifficulties.take difficultyWindow
  let length := timestamps.length
  if length ≤ 1 then 1
  else
    let (cutBegin, cutEnd) := difficultyCut length
    let timeSpan := (timestamps.getD (cutEnd - 1) 0 - timestamps.getD cutBegin 0).toNat
    let timeSpan := if timeSpan = 0 then 1 else timeSpan
    let totalWork :=
      (difficulties.getD (cutEnd - 1) 0 + 2 ^ 128 - difficulties.getD cutBegin 0) % 2 ^ 128
    let res := (totalWork * targetSeconds + timeSpan - 1) / timeSpan
    if res > 2 ^ 128 - 1 then 0 else res

/-- The sum of two `difficulty_type`s. -/
def addDifficulty (a b : Nat) : Nat := (a + b) % 2 ^ 128

/-- The number whose bytes, lowest first, are given. -/
def leNat : Bytes → Nat
  | [] => 0
  | b :: bs => b.toNat + 256 * leNat bs

/-- `check_hash`: the hash times the difficulty does not need more than 256 bits. -/
def checkHash (hash : Hash) (difficulty : Nat) : Bool :=
  leNat hash.1 * difficulty ≤ 2 ^ 256 - 1

end Hashmonkey.Core
