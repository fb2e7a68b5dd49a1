import QuadCode.Binary64.Text
import Mathlib.Tactic

/-!
# Doubles from decimals

A decimal is read as the double nearest to it, and as the one with an even
significand if it lies halfway between two.

* `roundHalfEven n d` is `n / d` rounded to a whole number;
* `Binary64.ofDecimal` rounds a decimal to a double: the size of the decimal
  gives the spacing of the doubles around it, and the significand is rounded;
* `Binary64.ofDecimal_of_admits`: the decimals that a double admits are those
  that are read as this double;
* `Binary64.admits_decimal`: the decimal by which a finite double is written is
  one of them, so reading it gives the double back (`ofDecimal_decimal`).
-/

namespace QuadCode

/-- The whole number nearest to `n / d`, the even one of two that are equally near. -/
def roundHalfEven (n d : ℕ) : ℕ :=
  if 2 * (n % d) < d ∨ 2 * (n % d) = d ∧ n / d % 2 = 0 then n / d else n / d + 1

/-- A number rounds to `s` if it is at most a half away from it, and less than that if `s` is
odd. -/
theorem roundHalfEven_eq {n d s : ℕ} (hd : 0 < d) (hlo : 2 * (s * d) ≤ 2 * n + d)
    (hhi : 2 * n ≤ 2 * (s * d) + d)
    (hodd : s % 2 = 1 → 2 * (s * d) < 2 * n + d ∧ 2 * n < 2 * (s * d) + d) :
    roundHalfEven n d = s := by
  have hn : n = n / d * d + n % d := (Nat.div_add_mod' n d).symm
  have hr : n % d < d := Nat.mod_lt n hd
  unfold roundHalfEven
  generalize n / d = q at *
  generalize n % d = r at *
  subst hn
  -- the quotient is `s` or the number before it
  have hqs : q ≤ s := by
    by_contra hlt
    have hmul : (s + 1) * d ≤ q * d := Nat.mul_le_mul_right d (by omega)
    rw [Nat.add_mul] at hmul
    omega
  have hsq : s ≤ q + 1 := by
    by_contra hlt
    have hmul : (q + 2) * d ≤ s * d := Nat.mul_le_mul_right d (by omega)
    rw [Nat.add_mul] at hmul
    omega
  obtain rfl | rfl : s = q ∨ s = q + 1 := by omega
  · split_ifs with hdown <;> omega
  · rw [Nat.add_mul] at hlo hhi hodd
    split_ifs with hdown <;> omega

namespace Binary64

/-- The pattern, without its sign, of the double nearest to `n / scale` units. What is too large
becomes infinite. -/
def nearestBits (n scale : ℕ) : ℕ :=
  let shift := Nat.log2 (n / scale) - 52
  min (shift * Nat.pow 2 52 + roundHalfEven n (scale * Nat.pow 2 shift)) (2047 * Nat.pow 2 52)

/-- The double nearest to a decimal, with the given sign. -/
def ofDecimal (negative : Bool) (d : Decimal) : Binary64 :=
  ⟨UInt64.ofNat ((if negative then Nat.pow 2 63 else 0) +
    nearestBits (d.coefficient * unitsPerOne) (Nat.pow 10 d.places))⟩

/-! ### The fields of a pattern -/

theorem toNat_bits (x : Binary64) :
    x.bits.toNat =
      (if x.negative then Nat.pow 2 63 else 0) + (x.exponent * Nat.pow 2 52 + x.fraction) := by
  have hlt : x.bits.toNat < 2 ^ 64 := x.bits.toNat_lt
  unfold negative exponent fraction
  generalize x.bits.toNat = b at hlt
  simp only [Nat.pow_eq, Nat.reducePow, decide_eq_true_eq] at *
  split_ifs <;> omega

/-- The pattern of a finite double without its sign. The leading one of a normal significand counts
one exponent up. -/
theorem spacing_significand_bits (x : Binary64) :
    (x.exponent - 1) * Nat.pow 2 52 + x.significand = x.exponent * Nat.pow 2 52 + x.fraction := by
  unfold significand
  simp only [Nat.pow_eq, Nat.reducePow]
  split_ifs <;> omega

theorem significand_lt (x : Binary64) : x.significand < Nat.pow 2 53 := by
  have hlt := x.fraction_lt
  unfold significand
  simp only [Nat.pow_eq, Nat.reducePow] at *
  split_ifs <;> omega

/-! ### The spacing of the doubles around a number -/

/-- The number of places by which a number is shifted, from the bounds on its significand. -/
theorem log2_sub_eq {n scale k : ℕ} (hscale : 0 < scale)
    (hlt : n < Nat.pow 2 53 * (scale * Nat.pow 2 k))
    (hge : k = 0 ∨ Nat.pow 2 52 * (scale * Nat.pow 2 k) ≤ n) :
    Nat.log2 (n / scale) - 52 = k := by
  simp only [Nat.pow_eq] at hlt hge
  have hdiv : n / scale < 2 ^ (k + 53) := by
    rw [Nat.div_lt_iff_lt_mul hscale]
    calc n < 2 ^ 53 * (scale * 2 ^ k) := hlt
      _ = 2 ^ (k + 53) * scale := by rw [pow_add]; ring
  rcases hge with rfl | hge
  · by_cases hzero : n / scale = 0
    · simp [hzero]
    · have hlog := (Nat.log2_lt hzero).2 hdiv
      omega
  · have hdiv' : 2 ^ (k + 52) ≤ n / scale := by
      rw [Nat.le_div_iff_mul_le hscale]
      calc 2 ^ (k + 52) * scale = 2 ^ 52 * (scale * 2 ^ k) := by rw [pow_add]; ring
        _ ≤ n := hge
    have hne : n / scale ≠ 0 := (Nat.two_pow_pos _).trans_le hdiv' |>.ne'
    have hlog : (n / scale).log2 = k + 52 := (Nat.log2_eq_iff hne).2 ⟨hdiv', hdiv⟩
    omega

/-! ### Admitted decimals -/

/-- Bounds on an admitted decimal, in halves of the spacing. Below a power of two they are half as
wide. -/
theorem Admits.bounds {x : Binary64} {d : Decimal} (h : x.Admits d) {n unit : ℕ}
    (hn : d.coefficient * unitsPerOne = n) (hunit : Nat.pow 10 d.places * x.spacing = unit) :
    2 * (x.significand * unit) ≤ 2 * n + unit ∧ 2 * n ≤ 2 * (x.significand * unit) + unit ∧
      (x.significand % 2 = 1 →
        2 * (x.significand * unit) < 2 * n + unit ∧ 2 * n < 2 * (x.significand * unit) + unit) ∧
      (x.fraction = 0 → 1 < x.exponent → 4 * (x.significand * unit) ≤ 4 * n + unit) := by
  have hcentre : x.magnitude * Nat.pow 10 d.places = x.significand * unit := by
    rw [← hunit, magnitude]
    ring
  have habove : x.gapAbove * Nat.pow 10 d.places = 2 * unit := by
    rw [← hunit, gapAbove]
    ring
  have hbelow : x.gapBelow * Nat.pow 10 d.places =
      if x.fraction = 0 ∧ 1 < x.exponent then unit else 2 * unit := by
    rw [← hunit, gapBelow]
    split_ifs <;> ring
  unfold Admits at h
  simp only [hn, hcentre, habove, hbelow] at h
  split_ifs at h <;> omega

/-- The pattern of the nearest double, from the bounds on its significand and the rounded
significand. -/
theorem nearestBits_eq {x : Binary64} (hx : x.isFinite = true) {n scale k m : ℕ}
    (hscale : 0 < scale) (hlt : n < Nat.pow 2 53 * (scale * Nat.pow 2 k))
    (hge : k = 0 ∨ Nat.pow 2 52 * (scale * Nat.pow 2 k) ≤ n)
    (hround : roundHalfEven n (scale * Nat.pow 2 k) = m)
    (hbits : k * Nat.pow 2 52 + m = (x.exponent - 1) * Nat.pow 2 52 + x.significand) :
    nearestBits n scale = x.exponent * Nat.pow 2 52 + x.fraction := by
  have hexp : x.exponent < 2047 := by
    have hmod : x.exponent < Nat.pow 2 11 := Nat.mod_lt _ (by decide)
    have hne : x.exponent ≠ 2047 := by simpa [isFinite] using hx
    simp only [Nat.pow_eq, Nat.reducePow] at hmod
    omega
  have hfrac := x.fraction_lt
  have hle : x.exponent * Nat.pow 2 52 + x.fraction ≤ 2047 * Nat.pow 2 52 := by
    simp only [Nat.pow_eq, Nat.reducePow] at hfrac ⊢
    omega
  simp only [nearestBits, log2_sub_eq hscale hlt hge, hround, hbits, spacing_significand_bits]
  exact Nat.min_eq_left hle

theorem significand_of_exponent {x : Binary64} (h : 0 < x.exponent) :
    x.significand = Nat.pow 2 52 + x.fraction := if_neg h.ne'

/-- A double that admits a decimal with a smaller exponent is a power of two. -/
theorem Admits.fraction_eq_zero {x : Binary64} {d : Decimal} (h : x.Admits d) {n unit : ℕ}
    (hn : d.coefficient * unitsPerOne = n) (hunit : Nat.pow 10 d.places * x.spacing = unit)
    (hexp : 0 < x.exponent) (hlt : n < Nat.pow 2 52 * unit) : x.fraction = 0 := by
  obtain ⟨hlo, -⟩ := h.bounds hn hunit
  by_contra hne
  have hsig := significand_of_exponent hexp
  have hmul : (Nat.pow 2 52 + 1) * unit ≤ x.significand * unit :=
    Nat.mul_le_mul_right unit (by omega)
  rw [Nat.add_mul] at hmul
  omega

/-- Where the spacing is that of the double, its significand is the rounded one. -/
theorem Admits.nearestBits_of_ge {x : Binary64} {d : Decimal} (h : x.Admits d)
    (hx : x.isFinite = true) {n unit : ℕ} (hn : d.coefficient * unitsPerOne = n)
    (hunit : Nat.pow 10 d.places * x.spacing = unit)
    (hge : x.exponent - 1 = 0 ∨ Nat.pow 2 52 * unit ≤ n) :
    nearestBits n (Nat.pow 10 d.places) = x.exponent * Nat.pow 2 52 + x.fraction := by
  have hscale : 0 < Nat.pow 10 d.places := Nat.pow_pos (by decide)
  have hpos : 0 < unit := hunit ▸ Nat.mul_pos hscale x.spacing_pos
  obtain ⟨hlo, hhi, hodd, -⟩ := h.bounds hn hunit
  have hsig : (x.significand + 1) * unit ≤ Nat.pow 2 53 * unit :=
    Nat.mul_le_mul_right unit x.significand_lt
  rw [Nat.add_mul] at hsig
  refine nearestBits_eq hx hscale (k := x.exponent - 1) ?_ ?_ ?_ rfl
  · rw [← spacing, hunit]
    omega
  · rw [← spacing, hunit]
    exact hge
  · rw [← spacing, hunit]
    exact roundHalfEven_eq hpos hlo hhi hodd

/-- Below a power of two the spacing is half of that of the double, and the significand is rounded
up to twice its own. -/
theorem Admits.nearestBits_of_lt {x : Binary64} {d : Decimal} (h : x.Admits d)
    (hx : x.isFinite = true) {n unit : ℕ} (hn : d.coefficient * unitsPerOne = n)
    (hunit : Nat.pow 10 d.places * x.spacing = unit) (hexp : x.exponent - 1 ≠ 0)
    (hlt : n < Nat.pow 2 52 * unit) :
    nearestBits n (Nat.pow 10 d.places) = x.exponent * Nat.pow 2 52 + x.fraction := by
  have hscale : 0 < Nat.pow 10 d.places := Nat.pow_pos (by decide)
  have hzero := h.fraction_eq_zero hn hunit (by omega) hlt
  have hsig := significand_of_exponent (x := x) (by omega)
  obtain ⟨-, -, -, hpow⟩ := h.bounds hn hunit
  have hlo := hpow hzero (by omega)
  rw [hsig, hzero] at hlo
  obtain ⟨k, hk⟩ : ∃ k, x.exponent - 1 = k + 1 := Nat.exists_eq_succ_of_ne_zero hexp
  generalize hhalf : Nat.pow 10 d.places * Nat.pow 2 k = half
  have htwice : unit = 2 * half := by
    rw [← hunit, ← hhalf, spacing, hk]
    simp only [Nat.pow_eq, pow_succ]
    ring
  subst htwice
  simp only [Nat.pow_eq, Nat.reducePow] at hlt hlo
  have hround : roundHalfEven n half = Nat.pow 2 53 := by
    apply roundHalfEven_eq
    · omega
    · simp only [Nat.pow_eq, Nat.reducePow]
      omega
    · simp only [Nat.pow_eq, Nat.reducePow]
      omega
    · exact fun hodd => absurd hodd (by decide)
  refine nearestBits_eq hx hscale (k := k) ?_ (Or.inr ?_) (hhalf ▸ hround) ?_
  · rw [hhalf]
    simp only [Nat.pow_eq, Nat.reducePow]
    omega
  · rw [hhalf]
    simp only [Nat.pow_eq, Nat.reducePow]
    omega
  · rw [hk, hsig, hzero]
    simp only [Nat.pow_eq, Nat.reducePow]
    omega

/-- The decimals that a finite double admits are read as this double. -/
theorem ofDecimal_of_admits {x : Binary64} {d : Decimal} (hx : x.isFinite = true)
    (h : x.Admits d) : ofDecimal x.negative d = x := by
  have hbits : nearestBits (d.coefficient * unitsPerOne) (Nat.pow 10 d.places) =
      x.exponent * Nat.pow 2 52 + x.fraction := by
    by_cases hge : x.exponent - 1 = 0 ∨
        Nat.pow 2 52 * (Nat.pow 10 d.places * x.spacing) ≤ d.coefficient * unitsPerOne
    · exact h.nearestBits_of_ge hx rfl rfl hge
    · obtain ⟨hexp, hlt⟩ := not_or.1 hge
      exact h.nearestBits_of_lt hx rfl rfl hexp (not_le.1 hlt)
  unfold ofDecimal
  rw [hbits, ← toNat_bits, UInt64.ofNat_toNat]

/-! ### The decimal of a double is admitted -/

/-- A decimal that is equal to the magnitude of a double is admitted. -/
theorem admits_of_eq {x : Binary64} {d : Decimal}
    (h : d.coefficient * unitsPerOne = x.magnitude * Nat.pow 10 d.places) : x.Admits d := by
  have hscale : 0 < Nat.pow 10 d.places := Nat.pow_pos (by decide)
  have hspacing := x.spacing_pos
  have hbelow : 0 < x.gapBelow := by
    unfold gapBelow
    split_ifs <;> omega
  have habove : 0 < x.gapAbove := by
    unfold gapAbove
    omega
  have hlo := Nat.mul_pos hbelow hscale
  have hhi := Nat.mul_pos habove hscale
  unfold Admits
  simp only [h]
  split_ifs <;> omega

theorem admits_of_decimalAt? {x : Binary64} {places : ℕ} {d : Decimal}
    (h : x.decimalAt? places = some d) : x.Admits d := by
  unfold decimalAt? at h
  simp only at h
  split_ifs at h with hbelow habove habove
  · exact Option.some.inj h ▸ habove.1
  · exact Option.some.inj h ▸ hbelow
  · exact Option.some.inj h ▸ habove

theorem places_of_decimalAt? {x : Binary64} {places : ℕ} {d : Decimal}
    (h : x.decimalAt? places = some d) : d.places = places := by
  unfold decimalAt? at h
  simp only at h
  split_ifs at h <;> exact Option.some.inj h ▸ rfl

theorem unitsPerOne_dvd {places : ℕ} (h : 1074 ≤ places) : unitsPerOne ∣ Nat.pow 10 places := by
  unfold unitsPerOne
  generalize 1074 = k at h ⊢
  exact (pow_dvd_pow 2 h).trans (pow_dvd_pow_of_dvd (by decide : 2 ∣ 10) places)

/-- With 1074 places every double is written exactly. -/
theorem admits_decimalBelow {x : Binary64} {places : ℕ} (h : 1074 ≤ places) :
    x.Admits (x.decimalBelow places) :=
  admits_of_eq (Nat.div_mul_cancel ((unitsPerOne_dvd h).mul_left x.magnitude))

/-- The shortest decimal was found on a grid with at least one place, or it is the last one. -/
theorem shortest_cases (x : Binary64) :
    (∃ places > 0, x.decimalAt? places = some x.shortest) ∨ x.shortest = x.decimalBelow 1074 := by
  unfold shortest
  cases h : (List.range' 1 1074).findSome? x.decimalAt? with
  | none => exact Or.inr rfl
  | some d =>
    obtain ⟨places, hmem, hd⟩ := List.exists_of_findSome?_eq_some h
    exact Or.inl ⟨places, (List.mem_range'_1.1 hmem).1, hd⟩

theorem admits_shortest (x : Binary64) : x.Admits x.shortest := by
  rcases x.shortest_cases with ⟨places, -, h⟩ | h
  · exact admits_of_decimalAt? h
  · rw [h]
    exact admits_decimalBelow le_rfl

/-- The decimal by which a double is written rounds to it. -/
theorem admits_decimal (x : Binary64) : x.Admits x.decimal := by
  unfold decimal
  split_ifs with hwhole
  · have hmod : x.magnitude % unitsPerOne = 0 := by
      simp only [isWhole, Bool.and_eq_true, beq_iff_eq] at hwhole
      exact hwhole.2
    apply admits_of_eq
    change 10 * (x.magnitude / unitsPerOne) * unitsPerOne = x.magnitude * Nat.pow 10 1
    rw [Nat.mul_assoc, Nat.div_mul_cancel (Nat.dvd_of_mod_eq_zero hmod)]
    exact Nat.mul_comm 10 _
  · exact x.admits_shortest

/-- At least one place is written. -/
theorem places_decimal_pos (x : Binary64) : 0 < x.decimal.places := by
  unfold decimal
  split_ifs
  · exact Nat.one_pos
  · rcases x.shortest_cases with ⟨places, hpos, h⟩ | h
    · rwa [places_of_decimalAt? h]
    · rw [h]
      show 0 < 1074
      decide

/-- Reading the decimal of a finite double with its sign gives the double back. -/
theorem ofDecimal_decimal {x : Binary64} (hx : x.isFinite = true) :
    ofDecimal x.negative x.decimal = x :=
  ofDecimal_of_admits hx x.admits_decimal

end Binary64

end QuadCode
