import Scriptlet.Number.Shortest
import Scriptlet.Proofs.LexemeShapes
import Scriptlet.Proofs.Rounding

/-!
The text of a number reads back as the number. A decimal is read as the double nearest to its value,
so only the value matters; the shortest decimal for a double reads back as it, and its positional
text has the same value.
-/

namespace Scriptlet

open Float.Model Float.Model.UnpackedFloat

namespace Decimal

def value (d : Decimal) : ℚ := d.digits * 10 ^ d.exponent

theorem ofScientific_zero (negative : Bool) (n : ℕ) :
    Float.ofScientific 0 negative n = .ofModel (.pack (.zero .positive)) := by
  unfold Float.ofScientific
  split
  next h =>
    have hsize : n < Float.exactlyRepresentablePowersOfTen.size :=
      Nat.lt_of_le_of_lt h.2 (by decide)
    obtain ⟨m, e, hm, hpower, -⟩ :=
      Number.full_of_isPowerOfTen (Number.full_powersOfTen ⟨n, by omega⟩)
    rw [← Array.getElem_eq_getD (h := hsize)] at hpower
    have hzero : (Nat.toUInt64 0).toFloat.toModel.unpack = .zero .positive := rfl
    cases negative with
    | true =>
      change Float.ofModel (.pack (UnpackedFloat.div Format.binary64 _ _)) = _
      rw [hzero, hpower]
      rfl
    | false =>
      change Float.ofModel (.pack (UnpackedFloat.mul Format.binary64 _ _)) = _
      rw [hzero, hpower]
      rfl
  next => rfl

theorem toFloat_eq (d : Decimal) : d.toFloat = .ofModel (.pack (Number.nearest d.value)) := by
  obtain ⟨digits, exponent⟩ := d
  rcases Nat.eq_zero_or_pos digits with rfl | hpos
  · cases exponent <;> simp [toFloat, value, ofScientific_zero, Number.nearest_zero]
  · cases exponent with
    | ofNat n => simpa [toFloat, value] using Number.ofScientific_positive hpos false n
    | negSucc n =>
      simpa [toFloat, value, Int.negSucc_eq] using Number.ofScientific_positive hpos true (n + 1)

end Decimal

namespace Number

abbrev bits (x : Float) : BitVec Format.binary64.numBits := x.toModel.toBits.toBitVec

theorem toNat_mantissa (x : Float) : (unpackMantissa (bits x)).toNat = x.toBits.toNat % 2 ^ 52 := by
  rw [unpackMantissa_def, BitVec.extractLsb'_toNat]
  rfl

theorem toNat_exponent (x : Float) :
    (unpackExponent (bits x)).toNat = x.toBits.toNat / 2 ^ 52 % 2 ^ 11 := by
  rw [unpackExponent_def, BitVec.extractLsb'_toNat, Nat.shiftRight_eq_div_pow]
  rfl

theorem toNat_sign (x : Float) : (unpackSign (bits x)).toNat = x.toBits.toNat / 2 ^ 63 % 2 := by
  rw [unpackSign_def, BitVec.extractLsb'_toNat, Nat.shiftRight_eq_div_pow]
  rfl

theorem sign_eq (x : Float) : Sign.ofBitVec (unpackSign (bits x)) =
    if isNegative x then .negative else .positive := by
  have hlt : x.toBits.toNat < 2 ^ 64 := x.toBits.toBitVec.isLt
  have hsign := toNat_sign x
  have hbit : unpackSign (bits x) = 0#1 ↔ ¬ 2 ^ 63 ≤ x.toBits.toNat := by
    rw [← BitVec.toNat_inj, hsign]
    simp
    omega
  have hnegative : isNegative x = decide (2 ^ 63 ≤ x.toBits.toNat) := rfl
  by_cases h : 2 ^ 63 ≤ x.toBits.toNat
  · rw [Sign.ofBitVec, if_neg (by rwa [hbit, not_not]), hnegative, if_pos (decide_eq_true h)]
  · rw [Sign.ofBitVec, if_pos (hbit.2 h), hnegative, if_neg (by simpa using h)]

def Dyadic.value (d : Dyadic) : ℚ := d.mantissa * 2 ^ d.exponent

theorem ofFloat_subnormal {x : Float} (h : x.toBits.toNat / 2 ^ 52 % 2 ^ 11 = 0) :
    Dyadic.ofFloat x = ⟨x.toBits.toNat % 2 ^ 52, -1074⟩ :=
  if_pos h

theorem ofFloat_normal {x : Float} (h : x.toBits.toNat / 2 ^ 52 % 2 ^ 11 ≠ 0) :
    Dyadic.ofFloat x =
      ⟨2 ^ 52 + x.toBits.toNat % 2 ^ 52, (x.toBits.toNat / 2 ^ 52 % 2 ^ 11 : ℕ) - 1075⟩ :=
  if_neg h

theorem unpack_eq {x : Float} (hfinite : x.isFinite = true) (hsign : isNegative x = false) :
    x.toModel.unpack = nearest (Dyadic.ofFloat x).value := by
  have hpositive : Sign.ofBitVec (unpackSign (bits x)) = .positive := by simp [sign_eq, hsign]
  have hmantissa := toNat_mantissa x
  have hexponent := toNat_exponent x
  have hshort : x.toBits.toNat % 2 ^ 52 < 2 ^ 52 := Nat.mod_lt _ (by decide)
  have hones : unpackExponent (bits x) ≠ -1#_ := by
    intro h
    have hmodel : x.toModel.unpack.isFinite = true := hfinite
    unfold Float.Model.unpack UnpackedFloat.unpack at hmodel
    by_cases hnone : unpackMantissa (bits x) = 0#_ <;>
      simp [h, hnone, UnpackedFloat.isFinite] at hmodel
  unfold Float.Model.unpack UnpackedFloat.unpack
  simp only [hones, if_false, hpositive]
  split_ifs with hzero hnone
  · have hscale : x.toBits.toNat / 2 ^ 52 % 2 ^ 11 = 0 := by rw [← hexponent, hzero]; rfl
    have hfraction : x.toBits.toNat % 2 ^ 52 = 0 := by rw [← hmantissa, hnone]; rfl
    rw [ofFloat_subnormal hscale, hfraction]
    simp [Dyadic.value, nearest_zero]
  · have hscale : x.toBits.toNat / 2 ^ 52 % 2 ^ 11 = 0 := by rw [← hexponent, hzero]; rfl
    have hfraction : 0 < x.toBits.toNat % 2 ^ 52 := by
      rw [← hmantissa]
      exact Nat.pos_of_ne_zero fun h => hnone (BitVec.eq_of_toNat_eq h)
    have hrep : Representable (x.toBits.toNat % 2 ^ 52) (-1074) :=
      ⟨hfraction, by omega, le_rfl, .inr rfl⟩
    rw [ofFloat_subnormal hscale, Dyadic.value, nearest_representable hrep, finite.injEq]
    refine ⟨rfl, hmantissa, ?_⟩
    rw [hexponent, hscale]
    rfl
  · have hscale : x.toBits.toNat / 2 ^ 52 % 2 ^ 11 ≠ 0 := by
      rw [← hexponent]
      exact fun h => hzero (BitVec.eq_of_toNat_eq h)
    have hrep : Representable (2 ^ 52 + x.toBits.toNat % 2 ^ 52)
        ((x.toBits.toNat / 2 ^ 52 % 2 ^ 11 : ℕ) - 1075) :=
      ⟨by omega, by omega, by omega, .inl (by omega)⟩
    have hfull : (1#1 ++ unpackMantissa (bits x)).toNat = 2 ^ 52 + x.toBits.toNat % 2 ^ 52 := by
      rw [BitVec.toNat_append, ← Nat.shiftLeft_add_eq_or_of_lt (unpackMantissa (bits x)).isLt,
        hmantissa]
      rfl
    rw [ofFloat_normal hscale, Dyadic.value, nearest_representable hrep, finite.injEq]
    refine ⟨rfl, hfull, ?_⟩
    rw [hexponent]
    rfl

theorem pack_unpack (x : Float) : Float.ofModel (.pack x.toModel.unpack) = x := by
  rw [← Float.toBits_inj, ← UInt64.toBitVec_inj]
  exact pack_unpack_of_valid x.toModel.valid

/-- The decimals that have the value of a double read back as it. -/
theorem toFloat_of_value {x : Float} (hfinite : x.isFinite = true) (hsign : isNegative x = false)
    {d : Decimal} (h : d.value = (Dyadic.ofFloat x).value) : d.toFloat = x := by
  rw [d.toFloat_eq, h, ← unpack_eq hfinite hsign, pack_unpack]

theorem value_toDecimal (d : Dyadic) : d.toDecimal.value = d.value := by
  obtain ⟨m, e⟩ := d
  cases e with
  | ofNat n => simp [Dyadic.toDecimal, Decimal.value, Dyadic.value]
  | negSucc n =>
    have hten : (10 : ℚ) ^ (n + 1) = 5 ^ (n + 1) * 2 ^ (n + 1) := by rw [← mul_pow]; norm_num
    simp only [Dyadic.toDecimal, Decimal.value, Dyadic.value, Int.negSucc_eq, zpow_neg,
      Nat.pow_eq]
    norm_cast
    push_cast
    rw [hten]
    field_simp

theorem toFloat_of_neighbour? {x : Float} {exact d : Decimal} {drop : ℕ}
    (h : neighbour? x exact drop = some d) : d.toFloat = x := by
  unfold neighbour? at h
  dsimp only at h
  split_ifs at h with hlower hupper hupper
  · exact Option.some.inj h ▸ hupper.1
  · exact Option.some.inj h ▸ hlower
  · exact Option.some.inj h ▸ hupper

theorem toFloat_shortestFrom {x : Float} {exact : Decimal} (h : exact.toFloat = x) (drop : ℕ) :
    (shortestFrom x exact drop).toFloat = x := by
  induction drop with
  | zero => exact h
  | succ drop ih =>
    unfold shortestFrom
    split
    next d hd => exact toFloat_of_neighbour? hd
    next => exact ih

theorem toFloat_shortest {x : Float} (hfinite : x.isFinite = true) (hsign : isNegative x = false) :
    (shortest x).toFloat = x := by
  have hexact := value_toDecimal (Dyadic.ofFloat x)
  unfold shortest
  dsimp only
  split
  next h =>
    refine toFloat_of_value hfinite hsign ?_
    rw [← hexact]
    simp [Decimal.value, h]
  next => exact toFloat_shortestFrom (toFloat_of_value hfinite hsign hexact) _

theorem abs_eq {x : Float} (hfinite : x.isFinite = true) (hsign : isNegative x = false) :
    x.abs = x := by
  have habs : x.toModel.unpack.abs = x.toModel.unpack := by
    rw [unpack_eq hfinite hsign]
    rcases carried_cases _ _ with h | ⟨n, f, hn, h⟩ <;> rw [nearest, h] <;> rfl
  change Float.ofModel (.pack x.toModel.unpack.abs) = x
  rw [habs, pack_unpack]

/-- What is nearest to a value has no sign and is a number. -/
theorem pack_nearest (q : ℚ) : ∃ e m, (e = -1#_ → m = 0#_) ∧
    UnpackedFloat.pack Format.binary64 (nearest q) =
      packComponents Format.binary64 .positive e m := by
  rcases carried_cases (extended q (lastPlace q)).roundedMantissa (lastPlace q) with
    h | ⟨n, f, hn, h⟩ <;> rw [nearest, h]
  · exact ⟨_, _, fun _ => rfl, rfl⟩
  · unfold UnpackedFloat.pack
    dsimp only
    split_ifs with hlarge
    · exact ⟨_, _, fun _ => rfl, rfl⟩
    · refine ⟨_, _, fun hones => ?_, rfl⟩
      have hbits : _ % 2 ^ 11 = 2 ^ 11 - 1 := congrArg BitVec.toNat hones
      rw [Nat.mod_eq_of_lt (by omega)] at hbits
      omega
    · refine ⟨_, _, fun hones => ?_, rfl⟩
      cases hones

theorem isNegative_toFloat (d : Decimal) : isNegative d.toFloat = false := by
  obtain ⟨e, m, -, hpack⟩ := pack_nearest d.value
  have hsign : Sign.ofBitVec (unpackSign (bits d.toFloat)) = .positive := by
    rw [d.toFloat_eq]
    change Sign.ofBitVec (unpackSign (UnpackedFloat.pack Format.binary64 (nearest d.value))) = _
    rw [hpack, unpackSign_packComponents, Sign.ofBitVec_toBitVec]
  cases h : isNegative d.toFloat with
  | false => rfl
  | true => simp [sign_eq, h] at hsign

theorem isNaN_toFloat (d : Decimal) : d.toFloat.isNaN = false := by
  obtain ⟨e, m, hnumber, hpack⟩ := pack_nearest d.value
  rw [d.toFloat_eq]
  change (UnpackedFloat.unpack Format.binary64
    (UnpackedFloat.pack Format.binary64 (nearest d.value))).isNaN = false
  rw [hpack]
  unfold UnpackedFloat.unpack
  simp only [unpackExponent_packComponents, unpackMantissa_packComponents]
  split_ifs with hones hnone
  · rfl
  · exact absurd (hnumber hones) hnone
  all_goals rfl

end Number

namespace Decimal

theorem naturalOf_eq (cs : List Char) : naturalOf cs = Nat.ofDigitChars 10 cs 0 := rfl

theorem naturalOf_append (cs ds : List Char) :
    naturalOf (cs ++ ds) = 10 ^ ds.length * naturalOf cs + naturalOf ds := by
  simp only [naturalOf_eq, Nat.ofDigitChars_append]
  exact Nat.ofDigitChars_eq_ofDigitChars_zero

theorem isDigit_toDigits {n : ℕ} : ∀ c ∈ Nat.toDigits 10 n, c.isDigit = true :=
  fun _ => Nat.isDigit_of_mem_toDigits (by decide) (by decide)

theorem ne_point_of_isDigit {c : Char} (h : c.isDigit = true) : c ≠ '.' := by
  rintro rfl
  cases h

theorem ofChars_whole {cs : List Char} (h : ∀ c ∈ cs, c.isDigit = true) :
    ofChars cs = ⟨naturalOf cs, 0⟩ := by
  have hpoint : ∀ c ∈ cs, decide (c ≠ '.') = true := by
    simpa using fun c hc => ne_point_of_isDigit (h c hc)
  unfold ofChars
  rw [List.takeWhile_eq_self_iff.2 hpoint, List.dropWhile_eq_nil_iff.2 hpoint]
  simp

theorem ofChars_point {cs : List Char} (h : ∀ c ∈ cs, c.isDigit = true) (ds : List Char) :
    ofChars (cs ++ '.' :: ds) = ⟨naturalOf (cs ++ ds), -ds.length⟩ := by
  have hpoint : ∀ c ∈ cs, decide (c ≠ '.') = true := by
    simpa using fun c hc => ne_point_of_isDigit (h c hc)
  have hstop : ∀ c ∈ ('.' :: ds).head?, decide (c ≠ '.') = false := by simp
  unfold ofChars
  rw [Lexeme.takeWhile_run hpoint hstop, Lexeme.dropWhile_run hpoint hstop]
  rfl

/-- Positional notation is digits, and a point if more digits follow, and has the same value. -/
theorem text_digits (d : Decimal) : ∃ cs ds : List Char, cs ≠ [] ∧
    (∀ c ∈ cs, c.isDigit = true) ∧ (∀ c ∈ ds, c.isDigit = true) ∧
    d.text.toList = (if ds = [] then cs else cs ++ '.' :: ds) ∧
    (naturalOf (cs ++ ds) : ℚ) * 10 ^ (-ds.length : ℤ) = d.value := by
  obtain ⟨n, e⟩ := d
  have hzeros : ∀ k, naturalOf (List.replicate k '0') = 0 := by simp [naturalOf_eq]
  have hdigits : naturalOf (Nat.toDigits 10 n) = n := by simp [naturalOf_eq]
  cases e with
  | ofNat e =>
    by_cases hn : n = 0
    · subst hn
      exact ⟨['0'], [], by simp, by simp, by simp, by simp [text], by simp [value, naturalOf]⟩
    · refine ⟨Nat.toDigits 10 n ++ List.replicate e '0', [], by simp [Nat.toDigits_ne_nil], ?_,
        by simp, by simp [text, hn], ?_⟩
      · intro c hc
        rcases List.mem_append.1 hc with hc | hc
        · exact isDigit_toDigits c hc
        · rw [List.eq_of_mem_replicate hc]
          rfl
      · simp [naturalOf_append, hzeros, hdigits, value, mul_comm]
  | negSucc e =>
    set padded := List.replicate (e + 2 - (Nat.toDigits 10 n).length) '0' ++ Nat.toDigits 10 n
      with hp
    set whole := padded.length - (e + 1) with hw
    have hlength : e + 2 ≤ padded.length := by
      rw [hp, List.length_append, List.length_replicate]
      omega
    have hdrop : (padded.drop whole).length = e + 1 := by
      rw [List.length_drop]
      omega
    have hall : ∀ c ∈ padded, c.isDigit = true := by
      intro c hc
      rcases List.mem_append.1 hc with hc | hc
      · rw [List.eq_of_mem_replicate hc]
        rfl
      · exact isDigit_toDigits c hc
    have htext : (text ⟨n, .negSucc e⟩).toList = padded.take whole ++ '.' :: padded.drop whole := by
      simp [text, ← hp, ← hw]
    refine ⟨padded.take whole, padded.drop whole, ?_, fun c hc => hall c (List.mem_of_mem_take hc),
      fun c hc => hall c (List.mem_of_mem_drop hc), ?_, ?_⟩
    · rw [← List.length_pos_iff, List.length_take]
      omega
    · rw [htext, if_neg (List.ne_nil_of_length_pos (by omega))]
    · rw [List.take_append_drop, hdrop, hp, naturalOf_append, hzeros, hdigits]
      simp [value, Int.negSucc_eq]

theorem value_ofChars_text (d : Decimal) : (ofChars d.text.toList).value = d.value := by
  obtain ⟨cs, ds, _, hcs, hds, htext, hvalue⟩ := d.text_digits
  rw [htext, ← hvalue]
  split
  next h =>
    subst h
    simp [ofChars_whole hcs, value]
  next => rw [ofChars_point hcs]; rfl

theorem text_proper (d : Decimal) : (⟨.number, d.text.toList⟩ : Lexeme).Proper := by
  obtain ⟨cs, ds, hne, hcs, hds, htext, _⟩ := d.text_digits
  rw [htext]
  obtain ⟨c, cs, rfl⟩ := List.exists_cons_of_ne_nil hne
  rw [List.forall_mem_cons] at hcs
  cases ds with
  | nil => exact .whole hcs.1 hcs.2
  | cons e ds =>
    rw [List.forall_mem_cons] at hds
    exact .point hcs.1 hcs.2 hds.1 hds.2

end Decimal

namespace Number

variable {x : Float}

theorem text_of_finite (hfinite : x.isFinite = true) (hsign : isNegative x = false) :
    text x = (shortest x).text := by
  have hnan : x.isNaN = false := by
    change x.toModel.unpack.isFinite = true at hfinite
    change x.toModel.unpack.isNaN = false
    cases h : x.toModel.unpack with
    | notANumber => rw [h] at hfinite; cases hfinite
    | _ => rfl
  unfold text
  rw [hnan, hfinite, hsign, abs_eq hfinite hsign]
  rfl

/-- The text of a finite double reads back as it. -/
theorem toFloat_text (hfinite : x.isFinite = true) (hsign : isNegative x = false) :
    (Decimal.ofChars (text x).toList).toFloat = x := by
  rw [Decimal.toFloat_eq, text_of_finite hfinite hsign, Decimal.value_ofChars_text,
    ← Decimal.toFloat_eq, toFloat_shortest hfinite hsign]

theorem text_of_infinite (hfinite : x.isFinite = false) (hnan : x.isNaN = false)
    (hsign : isNegative x = false) : text x = "inf" := by
  unfold text
  rw [hnan, hfinite, hsign]
  rfl

end Number

end Scriptlet
