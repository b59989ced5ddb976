import SymbolicKernel.Proofs.Literal.Precise

/-!
Literals of digits alone. Main statement: `exact_literal_denotes_place_value`, whatever the base, the length and the power.
-/
namespace SymbolicKernel

/-- A quotient is stored without the divisors that its two sides share. -/
theorem Rational.mkRat_mul_gcd (n : ℤ) {d : ℕ} (pos : 0 < d) :
    (mkRat n d).num * (n.natAbs.gcd d : ℕ) = n ∧ (mkRat n d).den * n.natAbs.gcd d = d := by
  have left : ((n.natAbs.gcd d : ℕ) : ℤ) ∣ n := Int.natCast_dvd.mpr (Nat.gcd_dvd_left _ _)
  have right : n.natAbs.gcd d ∣ d := Nat.gcd_dvd_right _ _
  rw [Rat.num_mkRat, Rat.den_mkRat, if_neg pos.ne', if_neg pos.ne', Nat.gcd_comm]
  exact ⟨Int.ediv_mul_cancel left, Nat.div_mul_cancel right⟩

open Interning

namespace Literal

variable {l : Literal}

/-- A literal of digits of its base and nothing else, with a power of the base that can be built. -/
structure IsPlain (l : Literal) : Prop where
  base : 2 ≤ l.base ∧ l.base ≤ 36
  nonempty : l.digits.toList ≠ []
  digits : ∀ c ∈ l.digits.toList, Numeral.isDigitOf l.base c = true
  suffix : l.suffix = none
  power : l.exponent.natAbs < 2 ^ 32

theorem IsPlain.no_point (plain : l.IsPlain) : '.' ∉ l.digits.toList := by
  intro member
  exact (Numeral.ne_mark_of_isDigitOf (plain.digits _ member)).2.2.2 rfl

theorem IsPlain.count_point_le (plain : l.IsPlain) : l.digits.toList.count '.' ≤ 1 := by
  rw [List.count_eq_zero.mpr plain.no_point]
  exact Nat.zero_le 1

theorem IsPlain.filter_point (plain : l.IsPlain) : l.digits.toList.filter (· ≠ '.') = l.digits.toList := by
  rw [List.filter_eq_self]
  intro c member
  exact decide_eq_true (ne_of_mem_of_not_mem member plain.no_point)

theorem IsPlain.isWellFormed (plain : l.IsPlain) : l.isWellFormed = true := by
  rw [Literal.isWellFormed, plain.filter_point]
  simp only [Bool.and_eq_true, decide_eq_true_eq, Bool.not_eq_true', List.isEmpty_eq_false_iff]
  exact ⟨⟨⟨plain.base, plain.count_point_le⟩, plain.nonempty⟩, List.all_eq_true.mpr plain.digits⟩

theorem IsPlain.significand (plain : l.IsPlain) :
    l.significand = Numeral.withSign l.negative (Numeral.placeValue l.base l.digits.toList) := by
  rw [Literal.significand, parts, parts_eq_filter plain.count_point_le, plain.filter_point, Numeral.valueOf_eq_placeValue]

theorem IsPlain.toDraft (plain : l.IsPlain) :
    l.toDraft = .ok (if l.exponent < 0 then .rational l.significand ((l.base : ℤ) ^ l.exponent.natAbs)
      else .integer (l.significand * (l.base : ℤ) ^ l.exponent.natAbs)) := by
  have point : l.hasPoint = false := by
    rw [hasPoint, List.contains_eq_mem]
    exact decide_eq_false plain.no_point
  have power : l.power l.exponent = .ok ((l.base : ℤ) ^ l.exponent.natAbs) := if_pos plain.power
  rw [Literal.toDraft, plain.isWellFormed, point, plain.suffix, exact_eq plain.isWellFormed point, power]
  rfl

/-- A literal of digits alone is lowered to exactly the number that it denotes, in whatever base, however long its digits
and with whatever resolver: to the whole number of its digits times the power of the base, or for a negative power to
their quotient, divided on both sides by all they share. The reader of whole numbers, which lets signs and separators
pass as well, finds just these digits in it. -/
theorem exact_literal_denotes_place_value (plain : l.IsPlain) (resolver : Resolver) (table : SymbolTable) :
    let magnitude := Numeral.placeValue l.base l.digits.toList
    let significand := Numeral.withSign l.negative magnitude
    let power := l.base ^ l.exponent.natAbs
    let lowered := perform ((Tree.number l).lower resolver) table
    Integer.ofText l.digits l.base = .ok (magnitude : ℤ) ∧
      (0 ≤ l.exponent → lowered = (.ok (.number (.integer (significand * power))), table)) ∧
      (l.exponent < 0 → ∃ x : ℚ, lowered = (.ok (.number (.real (.rational x))), table) ∧ x = significand / power ∧
        x.num * (magnitude.gcd power : ℕ) = significand ∧ x.den * magnitude.gcd power = power) := by
  intro magnitude significand power lowered
  have pos : 0 < power := Nat.pow_pos (by have least := plain.base.1; omega)
  have draft : lowered = perform (Draft.toExpr resolver (if l.exponent < 0 then .rational significand power
      else .integer (significand * power))) table := by
    simp only [lowered, Tree.lower_perform, Tree.toDraft, plain.toDraft, plain.significand, significand, magnitude, power,
      Nat.cast_pow]
  refine ⟨?_, ?_, ?_⟩
  · rw [Integer.ofText, Numeral.readIntInBase_digits plain.base plain.nonempty plain.digits]
  · intro nonneg
    rw [draft, if_neg (Int.not_lt.mpr nonneg)]
    rfl
  · intro neg
    have nonzero : (power : ℤ) ≠ 0 := by exact_mod_cast pos.ne'
    have sign : (power : ℤ).sign = 1 := Int.sign_eq_one_of_pos (by exact_mod_cast pos)
    refine ⟨mkRat significand power, ?_, ?_, ?_⟩
    · rw [draft, if_pos neg, Draft.toExpr_perform, Draft.resolve_rational nonzero, sign, mul_one, Int.natAbs_natCast]
      rfl
    · exact Rat.mkRat_eq_div significand power
    · have shared := Rational.mkRat_mul_gcd significand pos
      rwa [Numeral.natAbs_withSign] at shared

/-- A negative literal in base sixteen, 252 over 4096, both divided by four. -/
theorem exact_literal_denotes_place_value_of_hexadecimal :
    let l := (((decimal "00fC").withBase 16).withExponent (-3)).negated
    l.IsPlain ∧ Integer.ofText "00fC" 16 = .ok 252 ∧ ∃ x : ℚ,
      perform ((Tree.number l).lower .default) .fresh = (.ok (.number (.real (.rational x))), .fresh) ∧
        x.num = -63 ∧ x.den = 1024 := by
  intro l
  have digits : l.digits.toList.all (Numeral.isDigitOf l.base) = true := by decide
  have plain : l.IsPlain := ⟨by decide, by decide, List.all_eq_true.mp digits, rfl, by decide⟩
  have magnitude : Numeral.placeValue l.base l.digits.toList = 252 := by decide
  have shared : Nat.gcd 252 (l.base ^ l.exponent.natAbs) = 4 := by decide +kernel
  obtain ⟨read, _, quotient⟩ := exact_literal_denotes_place_value plain .default .fresh
  obtain ⟨x, run, _, num, den⟩ := quotient (by decide)
  rw [magnitude] at read
  rw [magnitude, shared] at num den
  have significand : Numeral.withSign l.negative 252 = -252 := by decide
  have power : l.base ^ l.exponent.natAbs = 4096 := by decide
  rw [significand] at num
  rw [power] at den
  exact ⟨plain, read, x, run, by push_cast at num; omega, by omega⟩

end Literal

end SymbolicKernel
