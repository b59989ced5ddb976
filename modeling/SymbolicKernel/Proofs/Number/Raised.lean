import SymbolicKernel.Proofs.Double.Fewest
import SymbolicKernel.Proofs.Double.Reader
import SymbolicKernel.Proofs.Double.Shown
import SymbolicKernel.Proofs.Number.Reconstruct
import SymbolicKernel.Proofs.Number.Written

/-!
A machine real that is raised to a higher precision passes through its text. The text is that of its shortest decimal,
and no step on the way rounds this decimal. Main statement: `RealSource.toReal_double_shortest`.
-/
namespace SymbolicKernel

namespace MachineReal

/-- The shortest text of a double is read exactly by the reader of decimals, however many zeros the point is away from the
digits, and by the reader of doubles as the double that it is the text of. -/
theorem plainText_reads (x : MachineReal) :
    ∃ w, WrittenDecimal.ofText x.plainText = .ok w ∧ w.exponent ≤ 0 ∧ Double.ofText? x.plainText = some (.finite x) ∧
      (w.significand : ℚ) * 10 ^ w.exponent =
        Numeral.withSign x.negative (shortestDecimal x.code).1 * 10 ^ (shortestDecimal x.code).2 := by
  have closest := (shortestDecimal_spec x.code_lt).1
  obtain ⟨whole, fraction, shows⟩ := Shows.exists_positional (shortestDecimal x.code).1 (shortestDecimal x.code).2
  have decimal := WrittenDecimal.ofText_mantissa x.negative shows.spelled shows.nonempty shows.digits
  have double := Double.ofText?_mantissa x.negative 0 shows.spelled shows.nonempty shows.digits
  have noPower : WrittenDecimal.powerText 0 = [] := rfl
  rw [noPower, List.append_nil, zero_sub] at double
  have nonpos : -(fraction.length : ℤ) ≤ 0 := by omega
  refine ⟨_, decimal, nonpos, double.trans ?_, ?_⟩
  · rw [← shows.value] at closest
    rw [(nearestDecimalCode_eq_iff x.code_lt _ _).mpr closest, Double.ofCode, dif_pos x.code_lt]
  · rw [Numeral.withSign_cast, Numeral.withSign_cast, mul_assoc, mul_assoc, shows.value]

end MachineReal

/-- A double is raised to a precision as its shortest text would be. -/
theorem RealSource.toPrecise_double (x : MachineReal) (bits : ℕ) :
    toPrecise bits (.double (.finite x)) = toPrecise bits (.text x.plainText) := by
  have finite : MachineReal.ofDouble (.finite x) = pure x := rfl
  rw [toPrecise, toPrecise, finite, pure_bind]
  cases WrittenDecimal.ofText x.plainText <;> rfl

/-- Whatever precision above that of machine reals a double is raised to, if it is worth seventeen digits, the result
has just this precision. Its value is that of the text that the double is written as, which reads back as the double,
and is the nearest to it of the decimals with the fewest digits that do. The nearest double to the result is the double
again. -/
theorem RealSource.toReal_double_shortest (x : MachineReal) {bits : ℕ} (above : Precision.machineBits < bits)
    (worth : 17 ≤ Precision.bitsToDigits bits) :
    ∃ (r : PrecisionReal) (w : WrittenDecimal) (y : MachineReal),
      RealSource.toReal (.double (.finite x)) (some bits) = .ok (.precise r) ∧ r.bits = bits ∧
      WrittenDecimal.ofText x.plainText = .ok w ∧ Double.ofText? x.plainText = some (.finite x) ∧
      r.toRat = w.significand * 10 ^ w.exponent ∧ r.value.IsShortest x ∧
      r.toDouble = .finite y ∧ y.sameValue x = true := by
  obtain ⟨w, decimal, nonpos, double, value⟩ := x.plainText_reads
  let r := PrecisionReal.ofDecimal (.ofParts w.significand w.exponent) bits
  have made : RealSource.toReal (.double (.finite x)) (some bits) = .ok (.precise r) := by
    have kept := PrecisionReal.ofWritten_of_fits (WrittenDecimal.fits_of_nonpos nonpos (Precision.bitsToDigits bits))
    rw [toReal, Option.getD_some, if_pos above, toPrecise_double, toPrecise, decimal, Except.map, kept]
    rfl
  have few : (Decimal.ofParts w.significand w.exponent).digits ≤ Precision.bitsToDigits bits := by
    rw [← Decimal.toRat_ofParts] at value
    have short := Decimal.digits_le_of_toRat_eq value
    rw [Numeral.natAbs_withSign] at short
    have seventeen := (Numeral.length_le_iff (by decide)).mpr (shortestDecimal_spec x.code_lt).2.1
    exact short.trans (seventeen.trans worth)
  have exact : r.toRat = w.significand * 10 ^ w.exponent := by
    rw [PrecisionReal.toRat_ofParts, ← Decimal.toRat_ofParts, Decimal.roundDigits_of_digits_le few]
  have shortest : r.value.IsShortest x := Decimal.isShortest_of_toRat_eq (exact.trans value)
  obtain ⟨y, back, same⟩ := shortest.readsBack.exists_finite
  exact ⟨r, w, y, made, rfl, decimal, double, exact, shortest, back, same⟩

/-- The double nearest to minus one tenth becomes exactly minus one tenth. -/
theorem RealSource.toReal_double_shortest_of_tenth :
    let x : MachineReal := ⟨true, 0x3fb999999999999a, by decide⟩
    Precision.machineBits < 200 ∧ 17 ≤ Precision.bitsToDigits 200 ∧ x.plainText = "-0.1" ∧ x.toRat ≠ -1 / 10 ∧
      ∃ r y, RealSource.toReal (.double (.finite x)) (some 200) = .ok (.precise r) ∧ r.bits = 200 ∧ r.toRat = -1 / 10 ∧
        r.value.IsShortest x ∧ r.toDouble = .finite y ∧ y.sameValue x = true := by
  intro x
  have above : Precision.machineBits < 200 := by decide
  have worth : 17 ≤ Precision.bitsToDigits 200 := by decide +kernel
  have text : x.plainText = "-0.1" := by decide +kernel
  have read : WrittenDecimal.ofText "-0.1" = .ok ⟨-1, -1⟩ := by decide +kernel
  obtain ⟨r, w, y, made, bits, decimal, _, exact, shortest, back, same⟩ := toReal_double_shortest x above worth
  rw [text, read] at decimal
  cases decimal
  refine ⟨above, worth, text, by decide +kernel, r, y, made, bits, ?_, shortest, back, same⟩
  rw [exact]
  norm_num

end SymbolicKernel
