import Mathlib

/-!
Rounding as a function of the exact value. The operations on doubles cut a value down to a mantissa
with two further bits, and what these are depends on the value and on the exponent only. So a
product or quotient is the double nearest to its exact value, however the operands are written.
-/

namespace Scriptlet.Number

open Float.Model Float.Model.UnpackedFloat

/-- The mantissa of a value for an exponent, with the bit after it and whether more follows. -/
def extended (q : ℚ) (e : ℤ) : ExtendedMantissa where
  mantissa := ⌊q / 2 ^ e⌋₊
  roundBit := ⌊q / 2 ^ (e - 1)⌋₊ % 2 != 0
  stickyBit := decide (q / 2 ^ (e - 1) ≠ ⌊q / 2 ^ (e - 1)⌋₊)

theorem div_two_zpow_succ (q : ℚ) (e : ℤ) : q / 2 ^ (e + 1) = q / 2 ^ e / 2 := by
  rw [zpow_add₀ (by norm_num), zpow_one, div_mul_eq_div_div]

theorem half_whole (y : ℚ) :
    (y / 2 ≠ ⌊y / 2⌋₊) ↔ (⌊y⌋₊ % 2 ≠ 0 ∨ y ≠ ⌊y⌋₊) := by
  have hfloor : ⌊y / 2⌋₊ = ⌊y⌋₊ / 2 := Nat.floor_div_ofNat y 2
  rw [hfloor, ← not_iff_not, not_or, not_not, not_not, not_not]
  constructor
  · intro h
    have hy : y = (2 * (⌊y⌋₊ / 2) : ℕ) := by push_cast; linarith
    have heven : ⌊y⌋₊ = 2 * (⌊y⌋₊ / 2) := by
      conv_lhs => rw [hy]
      exact Nat.floor_natCast _
    exact ⟨by omega, by rw [heven]; exact hy⟩
  · rintro ⟨heven, hwhole⟩
    have hhalf : ⌊y⌋₊ = 2 * (⌊y⌋₊ / 2) := by omega
    have hcast : (⌊y⌋₊ : ℚ) = 2 * (⌊y⌋₊ / 2 : ℕ) := by exact_mod_cast hhalf
    linarith

theorem shiftRightOne_extended (q : ℚ) (e : ℤ) :
    (extended q e).shiftRightOne = extended q (e + 1) := by
  have hbelow : q / 2 ^ e = q / 2 ^ (e - 1) / 2 := by
    rw [← div_two_zpow_succ, sub_add_cancel]
  have hsticky := half_whole (q / 2 ^ (e - 1))
  rw [← hbelow] at hsticky
  unfold extended ExtendedMantissa.shiftRightOne
  simp only [add_sub_cancel_right, div_two_zpow_succ, ExtendedMantissa.mk.injEq]
  refine ⟨(Nat.floor_div_ofNat _ 2).symm, trivial, ?_⟩
  rw [Bool.eq_iff_iff]
  simp [hsticky]

theorem shiftRight_extended (q : ℚ) (e : ℤ) (n : ℕ) :
    extended q e >>> n = extended q (e + n) := by
  have step : ∀ n, Nat.repeat ExtendedMantissa.shiftRightOne n (extended q e) =
      extended q (e + n) := by
    intro n
    induction n with
    | zero => simp [Nat.repeat]
    | succ n ih =>
      simp only [Nat.repeat, ih, shiftRightOne_extended]
      congr 1
      push_cast
      ring
  exact step n

/-- The mantissa of a quotient, with how far it is from the exact one. -/
theorem extended_quotient (m : ℕ) {d : ℕ} (hd : 0 < d) (e : ℤ) :
    extended (m / d * 2 ^ e) e =
      .ofMantissaAndAccuracy (m / d) (accuracyOfFraction (m % d) d) := by
  have hpow : (2 : ℚ) ^ e ≠ 0 := by positivity
  have hd' : (d : ℚ) ≠ 0 := by exact_mod_cast hd.ne'
  have hvalue : (m : ℚ) / d * 2 ^ e / 2 ^ e = m / d := by field_simp
  have hdouble : (m : ℚ) / d * 2 ^ e / 2 ^ (e - 1) = (2 * m : ℕ) / d := by
    rw [zpow_sub₀ (by norm_num), zpow_one]
    push_cast
    field_simp
  have hwhole : ((2 * m : ℕ) : ℚ) / d ≠ (2 * m / d : ℕ) ↔ 2 * m % d ≠ 0 := by
    rw [← not_iff_not, not_not, not_not, div_eq_iff hd']
    norm_cast
    constructor
    · intro h
      rw [h]
      simp
    · intro h
      exact (Nat.div_mul_cancel (Nat.dvd_of_mod_eq_zero h)).symm
  have hdiv : 2 * m / d = 2 * (m % d) / d + 2 * (m / d) := by
    rw [← Nat.add_mul_div_left _ _ hd]
    congr 1
    linarith [Nat.div_add_mod m d]
  rw [show 2 * m % d = 2 * (m % d) % d by rw [Nat.mul_mod_mod]] at hwhole
  have hr := Nat.mod_lt m hd
  have hfields : extended (m / d * 2 ^ e) e =
      ⟨m / d, 2 * (m % d) / d % 2 != 0, decide (2 * (m % d) % d ≠ 0)⟩ := by
    unfold extended
    rw [hvalue, hdouble, Nat.floor_div_eq_div, Nat.floor_div_eq_div, decide_eq_decide.2 hwhole,
      hdiv, Nat.add_mul_mod_self_left]
  rw [hfields]
  unfold accuracyOfFraction
  rcases lt_trichotomy (2 * (m % d)) d with hlt | heq | hgt
  · rw [Nat.div_eq_of_lt hlt, Nat.mod_eq_of_lt hlt, Nat.compare_eq_lt.2 hlt]
    by_cases h0 : m % d = 0 <;> simp [h0, ExtendedMantissa.ofMantissaAndAccuracy]
  · have h0 : m % d ≠ 0 := by omega
    rw [Nat.compare_eq_eq.2 heq, heq, Nat.div_self hd, Nat.mod_self, if_neg h0]
    rfl
  · have h0 : m % d ≠ 0 := by omega
    have hone : 2 * (m % d) / d = 1 := Nat.div_eq_of_lt_le (by omega) (by omega)
    have hrest : 2 * (m % d) % d ≠ 0 := by
      rw [Nat.mod_eq_sub_mod hgt.le, Nat.mod_eq_of_lt (by omega)]
      omega
    rw [Nat.compare_eq_gt.2 hgt, hone, if_neg h0, decide_eq_true hrest]
    rfl

theorem extended_multiple (m : ℕ) (e : ℤ) : extended (m * 2 ^ e) e = ⟨m, false, false⟩ := by
  simpa [accuracyOfFraction, ExtendedMantissa.ofMantissaAndAccuracy, Nat.mod_one] using
    extended_quotient m (d := 1) (by decide) e

/-- The exponent of the last place of the doubles next to a value. -/
def lastPlace (q : ℚ) : ℤ := Format.binary64.targetExponent (Int.log 2 q + 1)

theorem targetExponent_eq (n : ℤ) : Format.binary64.targetExponent n = max (n - 53) (-1074) := rfl

/-- A mantissa that has been rounded, brought to the length of a mantissa again. -/
def carried (m : ℕ) (e : ℤ) : UnpackedFloat :=
  let (mantissa, exponent) := shiftToTargetExponent Format.binary64 m e .exact
  if h : mantissa.mantissa = 0 then .zero .positive
  else .finite .positive mantissa.mantissa exponent (Nat.pos_of_ne_zero h)

/-- The double nearest to a value that is not negative, a half going to the even neighbour. -/
def nearest (q : ℚ) : UnpackedFloat :=
  carried (extended q (lastPlace q)).roundedMantissa (lastPlace q)

theorem nearest_zero : nearest 0 = .zero .positive := by
  have hplace : lastPlace 0 = -52 := by simp [lastPlace, targetExponent_eq]
  have hextended : extended 0 (-52) = ⟨0, false, false⟩ := by simp [extended]
  rw [nearest, hplace, hextended]
  rfl

theorem le_log_iff {q : ℚ} (hq : 0 < q) {k : ℤ} : k ≤ Int.log 2 q ↔ (2 : ℚ) ^ k ≤ q := by
  simpa using (Int.zpow_le_iff_le_log (b := 2) (by decide) hq (x := k)).symm

theorem log_lt_iff {q : ℚ} (hq : 0 < q) {k : ℤ} : Int.log 2 q < k ↔ q < (2 : ℚ) ^ k := by
  simpa using (Int.lt_zpow_iff_log_lt (b := 2) (by decide) hq (x := k)).symm

theorem totalExponent_floor {q : ℚ} (hq : 0 < q) {e : ℤ} (h : 0 < ⌊q / 2 ^ e⌋₊) :
    totalExponent ⌊q / 2 ^ e⌋₊ e = Int.log 2 q + 1 := by
  set m := ⌊q / 2 ^ e⌋₊ with hm
  have hpow : (0 : ℚ) < 2 ^ e := by positivity
  have hlow : (m : ℚ) ≤ q / 2 ^ e := Nat.floor_le (by positivity)
  have hhigh : q / 2 ^ e < m + 1 := Nat.lt_floor_add_one _
  have hfirst : (2 : ℚ) ^ m.log2 ≤ m := by exact_mod_cast Nat.log2_self_le h.ne'
  have hnext : (m : ℚ) + 1 ≤ 2 ^ (m.log2 + 1) := by exact_mod_cast Nat.lt_log2_self
  have hle : (m.log2 : ℤ) + e ≤ Int.log 2 q := by
    rw [le_log_iff hq, zpow_add₀ (by norm_num), zpow_natCast, ← le_div_iff₀ hpow]
    exact hfirst.trans hlow
  have hlt : Int.log 2 q < (m.log2 : ℤ) + 1 + e := by
    rw [log_lt_iff hq, zpow_add₀ (by norm_num), ← div_lt_iff₀ hpow]
    exact_mod_cast hhigh.trans_le hnext
  unfold totalExponent
  omega

theorem log_lt_of_floor_eq_zero {q : ℚ} (hq : 0 < q) {e : ℤ} (h : ⌊q / 2 ^ e⌋₊ = 0) :
    Int.log 2 q < e := by
  have hpow : (0 : ℚ) < 2 ^ e := by positivity
  rw [log_lt_iff hq, ← div_lt_one hpow]
  exact Nat.floor_eq_zero.1 h

theorem shiftToTargetExponent_eq {q : ℚ} (hq : 0 < q) {m : ℕ} {e : ℤ} {accuracy : Accuracy}
    (hm : ExtendedMantissa.ofMantissaAndAccuracy m accuracy = extended q e) (he : e ≤ lastPlace q) :
    shiftToTargetExponent Format.binary64 m e accuracy =
      (extended q (lastPlace q), lastPlace q) := by
  have hfloor : m = ⌊q / 2 ^ e⌋₊ := by
    have hmantissa := congrArg ExtendedMantissa.mantissa hm
    cases accuracy with
    | exact => exact hmantissa
    | inexact order => cases order <;> exact hmantissa
  have hplace : e + ((Format.binary64.targetExponent (totalExponent m e) - e).toNat : ℤ) =
      lastPlace q := by
    rcases Nat.eq_zero_or_pos m with h0 | hpos
    · have hlog := log_lt_of_floor_eq_zero hq (hfloor.symm.trans h0)
      subst h0
      simp only [lastPlace, targetExponent_eq, totalExponent, Nat.log2_zero] at he ⊢
      omega
    · subst hfloor
      rw [totalExponent_floor hq hpos, ← lastPlace]
      omega
  unfold shiftToTargetExponent shiftToExponent
  simp only [hm, shiftRight_extended, hplace]

/-- Rounding depends on the value only, if the mantissa given is long enough. -/
theorem roundWithAccuracy_eq {q : ℚ} (hq : 0 < q) {m : ℕ} {e : ℤ} {accuracy : Accuracy}
    (hm : ExtendedMantissa.ofMantissaAndAccuracy m accuracy = extended q e) (he : e ≤ lastPlace q) :
    roundWithAccuracy Format.binary64 .positive m e accuracy = nearest q := by
  unfold roundWithAccuracy
  rw [shiftToTargetExponent_eq hq hm he]
  rfl

theorem mul_eq_nearest {m n : ℕ} {e f : ℤ} (hm : 0 < m) (hn : 0 < n)
    (hlong : 52 ≤ m.log2 + n.log2) :
    UnpackedFloat.mul Format.binary64 (.finite .positive m e hm) (.finite .positive n f hn) =
      nearest (m * 2 ^ e * (n * 2 ^ f)) := by
  have hvalue : (m * 2 ^ e * (n * 2 ^ f) : ℚ) = (m * n : ℕ) * 2 ^ (e + f) := by
    rw [zpow_add₀ (by norm_num)]
    push_cast
    ring
  have hpos : (0 : ℚ) < m * 2 ^ e * (n * 2 ^ f) := by positivity
  have hlog : (m.log2 + n.log2 : ℕ) + (e + f) ≤ Int.log 2 (m * 2 ^ e * (n * 2 ^ f) : ℚ) := by
    rw [le_log_iff hpos, hvalue, zpow_add₀ (by norm_num), zpow_natCast, pow_add]
    norm_cast
    gcongr
    · exact Nat.log2_self_le hm.ne'
    · exact Nat.log2_self_le hn.ne'
  refine roundWithAccuracy_eq hpos ?_ ?_
  · rw [hvalue, extended_multiple]
    rfl
  · simp only [lastPlace, targetExponent_eq]
    omega

theorem div_eq_nearest {m n : ℕ} {e f : ℤ} (hm : 0 < m) (hn : 0 < n) :
    UnpackedFloat.div Format.binary64 (.finite .positive m e hm) (.finite .positive n f hn) =
      nearest (m * 2 ^ e / (n * 2 ^ f)) := by
  have hpos : (0 : ℚ) < m * 2 ^ e / (n * 2 ^ f) := by positivity
  have hlog : (m.log2 : ℤ) + e - (n.log2 + 1 + f) ≤ Int.log 2 (m * 2 ^ e / (n * 2 ^ f) : ℚ) := by
    rw [le_log_iff hpos, zpow_sub₀ (by norm_num), zpow_add₀ (by norm_num), zpow_add₀ (by norm_num)]
    norm_cast
    gcongr
    · exact Nat.log2_self_le hm.ne'
    · exact Nat.lt_log2_self.le
  set t := min (e - f) (Format.binary64.targetExponent (totalExponent m e - totalExponent n f))
    with ht
  set k := (e - f - t).toNat with hk
  have hvalue : (m * 2 ^ e / (n * 2 ^ f) : ℚ) = (m <<< k : ℕ) / n * 2 ^ t := by
    have hexponent : (2 : ℚ) ^ e = 2 ^ (k : ℤ) * 2 ^ t * 2 ^ f := by
      rw [← zpow_add₀ (by norm_num), ← zpow_add₀ (by norm_num)]
      congr 1
      omega
    have hpow : (2 : ℚ) ^ f ≠ 0 := by positivity
    have hn' : (n : ℚ) ≠ 0 := by exact_mod_cast hn.ne'
    rw [hexponent, zpow_natCast, Nat.shiftLeft_eq]
    push_cast
    field_simp
  refine roundWithAccuracy_eq hpos (e := t) ?_ ?_
  · rw [hvalue, extended_quotient _ hn]
  · simp only [ht, lastPlace, targetExponent_eq, totalExponent]
    omega

/-- Mantissas and exponents that doubles have, but for the upper bound of exponents. -/
structure Representable (m : ℕ) (e : ℤ) : Prop where
  pos : 0 < m
  short : m < 2 ^ 53
  least : -1074 ≤ e
  full : 2 ^ 52 ≤ m ∨ e = -1074

theorem log_multiple {m : ℕ} (hm : 0 < m) (e : ℤ) : Int.log 2 (m * 2 ^ e : ℚ) = m.log2 + e := by
  have hfloor : ⌊(m * 2 ^ e : ℚ) / 2 ^ e⌋₊ = m := congrArg ExtendedMantissa.mantissa
    (extended_multiple m e)
  have htotal := totalExponent_floor (q := m * 2 ^ e) (e := e) (by positivity) (by omega)
  rw [hfloor, totalExponent] at htotal
  omega

theorem Representable.lastPlace_eq {m : ℕ} {e : ℤ} (h : Representable m e) :
    lastPlace (m * 2 ^ e) = e := by
  have hlog : m.log2 < 53 := (Nat.log2_lt h.pos.ne').2 h.short
  have hfull : 52 ≤ m.log2 ∨ e = -1074 := h.full.imp_left (Nat.le_log2 h.pos.ne').2
  have hleast := h.least
  rw [lastPlace, log_multiple h.pos, targetExponent_eq]
  omega

theorem nearest_representable {m : ℕ} {e : ℤ} (h : Representable m e) :
    nearest (m * 2 ^ e) = .finite .positive m e h.pos := by
  have hexact : ExtendedMantissa.ofMantissaAndAccuracy m .exact = extended (m * 2 ^ e) e :=
    (extended_multiple m e).symm
  have hpos : (0 : ℚ) < m * 2 ^ e := mul_pos (by exact_mod_cast h.pos) (by positivity)
  have hshift := shiftToTargetExponent_eq hpos hexact h.lastPlace_eq.ge
  rw [h.lastPlace_eq, extended_multiple] at hshift
  rw [nearest, h.lastPlace_eq, extended_multiple]
  simp [carried, ExtendedMantissa.roundedMantissa, ExtendedMantissa.accuracy,
    Accuracy.roundToNearestEven, hshift, h.pos.ne']

theorem unpack_pack_normal {m : ℕ} {e : ℤ} (hm : 2 ^ 52 ≤ m) (hm' : m < 2 ^ 53) (he : -1074 ≤ e)
    (he' : e ≤ 971) (hpos : 0 < m) : (Float.Model.pack (.finite .positive m e hpos)).unpack =
      .finite .positive m e hpos := by
  have hlog : m.log2 = 52 := (Nat.log2_eq_iff hpos.ne').2 ⟨hm, hm'⟩
  set biased := (e + 1023 + 52).toNat with hb
  have hbits : UnpackedFloat.pack Format.binary64 (.finite .positive m e hpos) =
      packComponents Format.binary64 .positive (BitVec.ofNat 11 biased) (BitVec.ofNat 52 m) := by
    have hlong : m.log2 + 1 = Format.binary64.mantissaBits := by rw [hlog]; rfl
    have hrange : ¬ 2 ^ Format.binary64.exponentBits ≤ (e + Format.binary64.exponentBias +
        Format.binary64.mantissaBitsWithoutImplicit).toNat + 1 := by
      change ¬ 2 ^ 11 ≤ (e + 1023 + 52).toNat + 1
      omega
    simp only [UnpackedFloat.pack, if_neg hrange, if_pos hlong]
    rfl
  have hexponent : (BitVec.ofNat 11 biased).toNat = biased := by
    rw [BitVec.toNat_ofNat, Nat.mod_eq_of_lt (by omega)]
  have hmantissa : (1#1 ++ BitVec.ofNat 52 m).toNat = m := by
    rw [BitVec.toNat_append, BitVec.toNat_ofNat, ← Nat.shiftLeft_add_eq_or_of_lt (by omega)]
    simp [Nat.shiftLeft_eq]
    omega
  have hones : BitVec.ofNat 11 biased ≠ -1#11 := by
    intro h
    have := congrArg BitVec.toNat h
    rw [hexponent] at this
    simp at this
    omega
  have hzero : BitVec.ofNat 11 biased ≠ 0#11 := by
    intro h
    have := congrArg BitVec.toNat h
    rw [hexponent] at this
    simp at this
    omega
  unfold Float.Model.unpack Float.Model.pack UnpackedFloat.unpack
  simp only [hbits, unpackExponent_packComponents, unpackMantissa_packComponents,
    unpackSign_packComponents, Sign.ofBitVec_toBitVec, if_neg hones, if_neg hzero, hmantissa,
    hexponent]
  congr 1
  change (biased : ℤ) - (1023 + 52) = e
  omega

theorem carried_cases (m : ℕ) (e : ℤ) : carried m e = .zero .positive ∨
    ∃ (n : ℕ) (f : ℤ) (hn : 0 < n), carried m e = .finite .positive n f hn := by
  unfold carried
  dsimp only
  split
  · exact .inl rfl
  · exact .inr ⟨_, _, Nat.pos_of_ne_zero ‹_›, rfl⟩

theorem floor_pos {q : ℚ} (hq : 0 < q) {e : ℤ} (h : e ≤ Int.log 2 q) : 0 < ⌊q / 2 ^ e⌋₊ := by
  rw [Nat.floor_pos, one_le_div (by positivity)]
  exact (le_log_iff hq).1 h

theorem mantissa_le_rounded (m : ExtendedMantissa) : m.mantissa ≤ m.roundedMantissa := by
  obtain ⟨m, round, sticky⟩ := m
  cases round <;> cases sticky <;> simp [ExtendedMantissa.roundedMantissa,
    ExtendedMantissa.accuracy, Accuracy.roundToNearestEven]

/-- A full mantissa stays full, and its exponent can only grow. -/
theorem carried_full {m : ℕ} (hm : 2 ^ 52 ≤ m) {e : ℤ} (he : -1074 ≤ e) :
    ∃ (n : ℕ) (f : ℤ) (hn : 0 < n), e ≤ f ∧ carried m e = .finite .positive n f hn := by
  have hpos : 0 < m := by omega
  have hq : (0 : ℚ) < m * 2 ^ e := by positivity
  have hlog : 52 ≤ m.log2 := (Nat.le_log2 hpos.ne').2 hm
  have hlast : e ≤ lastPlace (m * 2 ^ e) := by
    rw [lastPlace, log_multiple hpos, targetExponent_eq]
    omega
  have hfloor : 0 < (extended (m * 2 ^ e) (lastPlace (m * 2 ^ e))).mantissa := by
    refine floor_pos hq ?_
    rw [lastPlace, log_multiple hpos, targetExponent_eq]
    omega
  have hexact : ExtendedMantissa.ofMantissaAndAccuracy m .exact = extended (m * 2 ^ e) e :=
    (extended_multiple m e).symm
  refine ⟨_, _, hfloor, hlast, ?_⟩
  unfold carried
  rw [shiftToTargetExponent_eq hq hexact hlast]
  exact dif_neg hfloor.ne'

theorem nearest_large {q : ℚ} (h : 2 ^ (1024 : ℤ) ≤ q) :
    ∃ (n : ℕ) (f : ℤ) (hn : 0 < n), 972 ≤ f ∧ nearest q = .finite .positive n f hn := by
  have hq : 0 < q := lt_of_lt_of_le (by positivity) h
  have hlog : 1024 ≤ Int.log 2 q := (le_log_iff hq).2 h
  have hplace : lastPlace q = Int.log 2 q - 52 := by
    rw [lastPlace, targetExponent_eq]
    omega
  have hfull : 2 ^ 52 ≤ (extended q (lastPlace q)).mantissa := by
    change 2 ^ 52 ≤ ⌊q / 2 ^ lastPlace q⌋₊
    rw [Nat.le_floor_iff (by positivity), le_div_iff₀ (by positivity), hplace]
    have hfirst := (le_log_iff hq).1 le_rfl
    rw [show Int.log 2 q = 52 + (Int.log 2 q - 52) by omega, zpow_add₀ (by norm_num)] at hfirst
    exact_mod_cast hfirst
  obtain ⟨n, f, hn, hf, hcarried⟩ := carried_full (hfull.trans (mantissa_le_rounded _))
    (e := lastPlace q) (by omega)
  exact ⟨n, f, hn, by omega, hcarried⟩

theorem nearest_small {q : ℚ} (hq : 0 < q) (h : q < 2 ^ (-1075 : ℤ)) :
    nearest q = .zero .positive := by
  have hlog : Int.log 2 q < -1075 := (log_lt_iff hq).2 h
  have hplace : lastPlace q = -1074 := by
    rw [lastPlace, targetExponent_eq]
    omega
  have hround : ⌊q / 2 ^ (-1075 : ℤ)⌋₊ = 0 := by
    rw [Nat.floor_eq_zero, div_lt_one (by positivity)]
    exact h
  have hmantissa : ⌊q / 2 ^ (-1074 : ℤ)⌋₊ = 0 := by
    rw [show (-1074 : ℤ) = -1075 + 1 by rfl, div_two_zpow_succ, Nat.floor_div_ofNat, hround]
  have hrounded : (extended q (-1074)).roundedMantissa = 0 := by
    have hextended : extended q (-1074) = ⟨0, false, (extended q (-1074)).stickyBit⟩ := by
      change ExtendedMantissa.mk ⌊q / 2 ^ (-1074 : ℤ)⌋₊ (⌊q / 2 ^ (-1075 : ℤ)⌋₊ % 2 != 0) _ = _
      rw [hmantissa, hround]
      rfl
    rw [hextended]
    cases (extended q (-1074)).stickyBit <;> rfl
  rw [nearest, hplace, hrounded]
  rfl

/-- A positive double with a full mantissa, and its value. -/
def Full (x : Float) (q : ℚ) : Prop :=
  ∃ (m : ℕ) (e : ℤ) (hm : 0 < m), x.toModel.unpack = .finite .positive m e hm ∧
    52 ≤ m.log2 ∧ (m * 2 ^ e : ℚ) = q

theorem Full.mul {x y : Float} {p q : ℚ} (hx : Full x p) (hy : Full y q) :
    x * y = .ofModel (.pack (nearest (p * q))) := by
  obtain ⟨m, e, hm, hxe, hlog, rfl⟩ := hx
  obtain ⟨n, f, hn, hye, _, rfl⟩ := hy
  rw [← mul_eq_nearest hm hn (by omega), ← hxe, ← hye]
  rfl

theorem Full.div {x y : Float} {p q : ℚ} (hx : Full x p) (hy : Full y q) :
    x / y = .ofModel (.pack (nearest (p / q))) := by
  obtain ⟨m, e, hm, hxe, _, rfl⟩ := hx
  obtain ⟨n, f, hn, hye, _, rfl⟩ := hy
  rw [← div_eq_nearest hm hn, ← hxe, ← hye]
  rfl

def isPowerOfTen (n : ℕ) : UnpackedFloat → Bool
  | .finite .positive m e _ => 2 ^ 52 ≤ m && -52 ≤ e && m * 2 ^ (e + 52).toNat = 10 ^ n * 2 ^ 52
  | _ => false

theorem full_of_isPowerOfTen {n : ℕ} {x : Float} (h : isPowerOfTen n x.toModel.unpack = true) :
    Full x (10 ^ n) := by
  unfold isPowerOfTen at h
  split at h
  next m e hm hx =>
    simp only [Bool.and_eq_true, decide_eq_true_eq] at h
    obtain ⟨⟨hfull, he⟩, hvalue⟩ := h
    refine ⟨m, e, hm, hx, (Nat.le_log2 hm.ne').2 hfull, ?_⟩
    have hpow : (2 : ℚ) ^ e * 2 ^ 52 = 2 ^ (e + 52).toNat := by
      rw [← zpow_natCast, ← zpow_natCast, ← zpow_add₀ (by norm_num)]
      congr 1
      push_cast
      omega
    have hcast : (m : ℚ) * 2 ^ (e + 52).toNat = 10 ^ n * 2 ^ 52 := by exact_mod_cast hvalue
    rw [← hpow, ← mul_assoc] at hcast
    exact mul_right_cancel₀ (by norm_num) hcast
  next => cases h

theorem full_powersOfTen : ∀ n : Fin 23,
    isPowerOfTen n (Float.exactlyRepresentablePowersOfTen.getD n 0).toModel.unpack = true := by
  decide +kernel

theorem full_natural {m : ℕ} (hm : 0 < m) (hm' : m < 2 ^ 53) : Full m.toUInt64.toFloat m := by
  have hlog : m.log2 ≤ 52 := by have := (Nat.log2_lt hm.ne').2 hm'; omega
  obtain ⟨k, hk⟩ : ∃ k, m.log2 + k = 52 := ⟨52 - m.log2, by omega⟩
  have hfull : 2 ^ 52 ≤ m * 2 ^ k := by
    rw [← hk, pow_add]
    exact Nat.mul_le_mul_right _ (Nat.log2_self_le hm.ne')
  have hshort : m * 2 ^ k < 2 ^ 53 := by
    rw [show 53 = m.log2 + 1 + k by omega, pow_add 2 (m.log2 + 1)]
    exact Nat.mul_lt_mul_of_pos_right Nat.lt_log2_self (by positivity)
  have hvalue : ((m * 2 ^ k : ℕ) * 2 ^ (-k : ℤ) : ℚ) = m := by
    rw [zpow_neg, zpow_natCast]
    push_cast
    field_simp
  have hrep : Representable (m * 2 ^ k) (-k) := ⟨by omega, hshort, by omega, .inl hfull⟩
  have hround : UnpackedFloat.round Format.binary64 .positive m 0 =
      .finite .positive (m * 2 ^ k) (-k) hrep.pos := by
    have htarget : Format.binary64.targetExponent (totalExponent m 0) = -k := by
      rw [targetExponent_eq, totalExponent]
      omega
    have hexact : ExtendedMantissa.ofMantissaAndAccuracy (m * 2 ^ k) .exact =
        extended ((m * 2 ^ k : ℕ) * 2 ^ (-k : ℤ)) (-k) := (extended_multiple _ _).symm
    unfold UnpackedFloat.round decreaseExponent
    simp only [htarget, zero_sub, neg_neg, Int.toNat_natCast, Nat.shiftLeft_eq]
    rw [roundWithAccuracy_eq (by rw [hvalue]; exact_mod_cast hm) hexact hrep.lastPlace_eq.ge,
      nearest_representable hrep]
  have hmodel : m.toUInt64.toFloat.toModel =
      .pack (.finite .positive (m * 2 ^ k) (-k) hrep.pos) := by
    have hnat : m.toUInt64.toNat = m := UInt64.toNat_ofNat_of_lt' (hm'.trans (by decide))
    have hcompare : compare (m : ℤ) 0 = .gt := Int.compare_eq_gt.2 (by omega)
    change Float.Model.pack (UnpackedFloat.normalize Format.binary64 (m.toUInt64.toNat : ℤ) 0
      .positive) = _
    rw [hnat, UnpackedFloat.normalize, hcompare]
    simp only [Int.toNat_natCast, hround]
  refine ⟨m * 2 ^ k, -k, hrep.pos, ?_, (Nat.le_log2 hrep.pos.ne').2 hfull, hvalue⟩
  rw [hmodel]
  exact unpack_pack_normal hfull hshort (by omega) (by omega) _

theorem pack_large {n : ℕ} {f : ℤ} (hn : 0 < n) (hf : 972 ≤ f) :
    Float.Model.pack (.finite .positive n f hn) = .pack (.infinity .positive) := by
  have hbits : UnpackedFloat.pack Format.binary64 (.finite .positive n f hn) =
      packedInfinity Format.binary64 .positive := by
    refine if_pos ?_
    change 2 ^ 11 ≤ (f + 1023 + 52).toNat + 1
    omega
  simp only [Float.Model.pack, hbits]
  rfl

theorem ten_zpow_of_nonneg {e : ℤ} (he : 0 ≤ e) : (10 : ℚ) ^ e = (10 ^ e.toNat : ℕ) := by
  push_cast
  rw [← zpow_natCast, Int.toNat_of_nonneg he]

theorem ten_zpow_of_neg {e : ℤ} (he : e < 0) : (10 : ℚ) ^ e = ((10 ^ (-e).toNat : ℕ) : ℚ)⁻¹ := by
  push_cast
  rw [← zpow_natCast, Int.toNat_of_nonneg (by omega), zpow_neg, inv_inv]

theorem two_zpow_le_decimal {m : ℕ} (hm : 0 < m) {e : ℤ} (he : 0 ≤ e) :
    (2 : ℚ) ^ e ≤ m * 10 ^ e := by
  have hone : (1 : ℚ) ≤ m := by exact_mod_cast hm
  calc (2 : ℚ) ^ e ≤ 10 ^ e := zpow_le_zpow_left₀ he (by norm_num) (by norm_num)
    _ ≤ m * 10 ^ e := le_mul_of_one_le_left (by positivity) hone

theorem decimal_lt_two_zpow (m : ℕ) {e : ℤ} (he : e ≤ 0) :
    (m : ℚ) * 10 ^ e < 2 ^ (m.log2 + 1 + e) := by
  have hm : (m : ℚ) < 2 ^ (m.log2 + 1) := by exact_mod_cast Nat.lt_log2_self
  have hten : (10 : ℚ) ^ e ≤ 2 ^ e := by
    rw [← inv_le_inv₀ (by positivity) (by positivity), ← zpow_neg, ← zpow_neg]
    exact zpow_le_zpow_left₀ (by omega) (by norm_num) (by norm_num)
  calc (m : ℚ) * 10 ^ e ≤ m * 2 ^ e := by gcongr
    _ < 2 ^ (m.log2 + 1) * 2 ^ e := by gcongr
    _ = 2 ^ (m.log2 + 1 + e) := by
      rw [zpow_add₀ (by norm_num)]
      norm_cast

/-- Decimals are rounded to the nearest double. -/
theorem model_ofScientific {m : ℕ} (hm : 0 < m) (e : ℤ) :
    Float.Model.ofScientific m e = .pack (nearest (m * 10 ^ e)) := by
  have hq : (0 : ℚ) < m * 10 ^ e := by positivity
  unfold Float.Model.ofScientific UnpackedFloat.ofScientific
  rw [dif_neg hm.ne']
  split_ifs with hlarge hsmall hnonneg
  · have hmany : (2 : ℚ) ^ (1024 : ℤ) ≤ 2 ^ e :=
      zpow_le_zpow_right₀ (by norm_num) (by norm_num at hlarge; omega)
    obtain ⟨n, f, hn, hf, hnearest⟩ := nearest_large
      (hmany.trans (two_zpow_le_decimal hm (by norm_num at hlarge; omega)))
    rw [hnearest, pack_large hn hf]
  · have hfew : (2 : ℚ) ^ (m.log2 + 1 + e) ≤ 2 ^ (-1075 : ℤ) :=
      zpow_le_zpow_right₀ (by norm_num) (by norm_num at hsmall; omega)
    rw [nearest_small hq ((decimal_lt_two_zpow m (by norm_num at hsmall; omega)).trans_le hfew)]
  · have hlong : 52 ≤ (m <<< Format.binary64.mantissaBits).log2 := by
      rw [Nat.le_log2 (Nat.shiftLeft_pos_iff.2 hm).ne', Nat.shiftLeft_eq]
      exact le_mul_of_one_le_of_le hm (by decide)
    have hvalue : ((m <<< Format.binary64.mantissaBits : ℕ) : ℚ) *
        2 ^ (-(Format.binary64.mantissaBits : ℤ)) = m := by
      rw [Nat.shiftLeft_eq, zpow_neg, zpow_natCast]
      push_cast
      field_simp
    rw [mul_eq_nearest _ _ (by omega), hvalue, ten_zpow_of_nonneg hnonneg, zpow_zero, mul_one]
  · rw [div_eq_nearest, ten_zpow_of_neg (by omega), zpow_zero, mul_one, mul_one, div_eq_mul_inv]

theorem ofScientific_positive {m : ℕ} (hm : 0 < m) (negative : Bool) (n : ℕ) :
    Float.ofScientific m negative n =
      .ofModel (.pack (nearest (m * 10 ^ (if negative then -n else n : ℤ)))) := by
  unfold Float.ofScientific
  split
  next h =>
    -- the short way divides or multiplies two doubles that are exact
    have hpower := full_of_isPowerOfTen (full_powersOfTen ⟨n, by omega⟩)
    have hnatural := full_natural hm h.1
    have hsize : n < Float.exactlyRepresentablePowersOfTen.size :=
      Nat.lt_of_le_of_lt h.2 (by decide)
    rw [← Array.getElem_eq_getD (h := hsize)] at hpower
    cases negative with
    | true => simpa [div_eq_mul_inv] using hnatural.div hpower
    | false => simpa using hnatural.mul hpower
  next h =>
    cases negative with
    | true => simp [model_ofScientific hm, Int.negOfNat_eq]
    | false => simp [model_ofScientific hm]

end Scriptlet.Number
