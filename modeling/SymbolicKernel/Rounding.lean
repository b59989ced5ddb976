/-!
Division of whole numbers rounded to the nearest whole number, with the rule for a tie as an argument.
Main statements: the result is never more than half a unit from the quotient.
-/
namespace SymbolicKernel

/-- Where a quotient goes that lies halfway between two whole numbers. -/
inductive Tie where
  | toEven
  | awayFromZero
  deriving DecidableEq

/-- Whether `quotient + remainder / divisor` is nearer to `quotient + 1`, or tied and sent there. -/
def Tie.roundsUp : Tie → (quotient remainder divisor : Nat) → Bool
  | .toEven, q, r, d => d < 2 * r || (2 * r == d && q % 2 == 1)
  | .awayFromZero, _, r, d => d ≤ 2 * r

/-- The whole number nearest to `n / d`. -/
def roundDiv (tie : Tie) (n d : Nat) : Nat :=
  if tie.roundsUp (n / d) (n % d) d then n / d + 1 else n / d

theorem Tie.half_le_of_roundsUp {tie : Tie} {q r d : Nat} (up : tie.roundsUp q r d = true) :
    d ≤ 2 * r := by
  cases tie <;> simp [roundsUp] at up <;> omega

theorem Tie.le_half_of_not_roundsUp {tie : Tie} {q r d : Nat} (down : tie.roundsUp q r d = false) :
    2 * r ≤ d := by
  cases tie <;> simp [roundsUp] at down <;> omega

/-- The rounded quotient exceeds the true one by at most half a unit. -/
theorem roundDiv_le (tie : Tie) (n d : Nat) : 2 * (d * roundDiv tie n d) ≤ 2 * n + d := by
  have whole := Nat.div_add_mod n d
  unfold roundDiv
  split
  · rename_i up
    have half := tie.half_le_of_roundsUp up
    rw [Nat.mul_add]
    omega
  · omega

/-- The rounded quotient falls short of the true one by at most half a unit. -/
theorem le_roundDiv (tie : Tie) {n d : Nat} (pos : 0 < d) :
    2 * n ≤ 2 * (d * roundDiv tie n d) + d := by
  have whole := Nat.div_add_mod n d
  have rest := Nat.mod_lt n pos
  unfold roundDiv
  split
  · rw [Nat.mul_add]
    omega
  · rename_i down
    have half := tie.le_half_of_not_roundsUp (Bool.eq_false_iff.mpr down)
    omega

/-- A division that leaves no remainder is not changed by rounding. -/
theorem roundDiv_mul_left (tie : Tie) (n : Nat) {d : Nat} (pos : 0 < d) :
    roundDiv tie (d * n) d = n := by
  unfold roundDiv
  rw [Nat.mul_div_cancel_left n pos, Nat.mul_mod_right]
  cases tie <;> simp [Tie.roundsUp] <;> omega

end SymbolicKernel
