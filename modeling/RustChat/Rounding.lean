import Mathlib.Algebra.Order.Field.Basic
import Mathlib.Algebra.Order.Floor.Ring
import Mathlib.Data.Int.Log
import Mathlib.Tactic.FieldSimp
import Mathlib.Tactic.Linarith
import Mathlib.Tactic.Ring

/-!
# Rounding to a number of binary digits

Round to nearest, ties to even, as floating-point arithmetic does it where the
exponent is in range. The values are those of any ordered field with a floor.
-/

set_option autoImplicit false

namespace RustChat.Rounding

section Nearest
variable {K : Type*} [Field K] [LinearOrder K] [FloorRing K]

/-- The nearest integer, the even one of two equally near. -/
def nearest (x : K) : ℤ :=
  if Int.fract x < 1/2 then ⌊x⌋
  else if 1/2 < Int.fract x then ⌊x⌋+1
  else if Even ⌊x⌋ then ⌊x⌋
  else ⌊x⌋+1

theorem floor_le_nearest (x : K) : ⌊x⌋ ≤ nearest x := by
  unfold nearest
  split_ifs <;> omega

theorem nearest_le_floor (x : K) : nearest x ≤ ⌊x⌋+1 := by
  unfold nearest
  split_ifs <;> omega

end Nearest

variable {K : Type*} [Field K] [LinearOrder K] [IsStrictOrderedRing K] [FloorRing K]

/-- The place of the last of `p` digits of `x`. -/
def place (p : ℕ) (x : K) : K := 2^(Int.log 2 x-p+1)

/-- `x` rounded to `p` digits. -/
def roundTo (p : ℕ) (x : K) : K := nearest (x/place p x)*place p x

/-- A whole number of at most `p` digits times a power of two. -/
def Representable (p : ℕ) (x : K) : Prop := ∃ (m : ℕ) (e : ℤ), m ≤ 2^p ∧ x = m*2^e

/-! ## To an integer -/

theorem nearest_intCast (n : ℤ) : nearest (n : K) = n := by
  have h : Int.fract (n : K) < 1/2 := by simp
  rw [nearest, if_pos h, Int.floor_intCast]

theorem nearest_mono (x y : K) (h : x ≤ y) : nearest x ≤ nearest y := by
  rcases (Int.floor_le_floor h).lt_or_eq with hlt | heq
  · have hx := nearest_le_floor x
    have hy := floor_le_nearest y
    omega
  · have hfract : Int.fract x ≤ Int.fract y := by
      rw [Int.fract, Int.fract, heq]
      linarith
    unfold nearest
    rw [heq]
    split_ifs <;> first | omega | linarith

theorem nearest_error (x : K) : |(nearest x : K)-x| ≤ 1/2 := by
  have hx := Int.floor_add_fract x
  have h0 := Int.fract_nonneg x
  have h1 := Int.fract_lt_one x
  unfold nearest
  rw [abs_le]
  split_ifs <;> push_cast <;> constructor <;> linarith

/-! ## To a number of digits -/

theorem place_pos (p : ℕ) (x : K) : 0 < place p x := zpow_pos two_pos _

theorem place_binade (p : ℕ) (hp : 0 < p) (x : K) :
    ((2^(p-1) : ℤ) : K)*place p x = 2^Int.log 2 x ∧ ((2^p : ℤ) : K)*place p x = 2^(Int.log 2 x+1) := by
  have h2 : (2:K) ≠ 0 := (two_pos : (0:K) < 2).ne'
  refine ⟨?_,?_⟩ <;>
  · push_cast
    rw [place, ← zpow_natCast, ← zpow_add₀ h2]
    congr 1
    omega

theorem binade_le (x : K) (hx : 0 < x) : (2:K)^Int.log 2 x ≤ x := by
  simpa using Int.zpow_log_le_self (b := 2) one_lt_two hx

theorem lt_binade (x : K) : x < (2:K)^(Int.log 2 x+1) := by
  simpa using Int.lt_zpow_succ_log_self (b := 2) one_lt_two x

theorem roundTo_zero (p : ℕ) : roundTo p (0:K) = 0 := by
  have h : nearest (0:K) = 0 := by simpa using nearest_intCast (K := K) 0
  rw [roundTo, zero_div, h, Int.cast_zero, zero_mul]

theorem roundTo_binade (p : ℕ) (hp : 0 < p) (x : K) (hx : 0 < x) :
    2^Int.log 2 x ≤ roundTo p x ∧ roundTo p x ≤ 2^(Int.log 2 x+1) := by
  obtain ⟨hlow,hhigh⟩ := place_binade p hp x
  have hpos := place_pos p x
  have h1 : (2^(p-1) : ℤ) ≤ nearest (x/place p x) := by
    rw [← nearest_intCast (K := K) (2^(p-1))]
    refine nearest_mono _ _ ((le_div_iff₀ hpos).mpr ?_)
    rw [hlow]
    exact binade_le x hx
  have h2 : nearest (x/place p x) ≤ 2^p := by
    rw [← nearest_intCast (K := K) (2^p)]
    refine nearest_mono _ _ ((div_le_iff₀ hpos).mpr ?_)
    rw [hhigh]
    exact (lt_binade x).le
  rw [← hlow, ← hhigh]
  exact ⟨mul_le_mul_of_nonneg_right (Int.cast_le.mpr h1) hpos.le,
    mul_le_mul_of_nonneg_right (Int.cast_le.mpr h2) hpos.le⟩

theorem roundTo_pos (p : ℕ) (hp : 0 < p) (x : K) (hx : 0 < x) : 0 < roundTo p x :=
  lt_of_lt_of_le (zpow_pos two_pos _) (roundTo_binade p hp x hx).1

theorem roundTo_nonneg (p : ℕ) (hp : 0 < p) (x : K) (hx : 0 ≤ x) : 0 ≤ roundTo p x := by
  rcases hx.eq_or_lt with rfl | hx
  · exact (roundTo_zero p).ge
  · exact (roundTo_pos p hp x hx).le

theorem roundTo_mono (p : ℕ) (hp : 0 < p) (x y : K) (hx : 0 ≤ x) (h : x ≤ y) :
    roundTo p x ≤ roundTo p y := by
  rcases hx.eq_or_lt with rfl | hx
  · rw [roundTo_zero]
    exact roundTo_nonneg p hp y h
  have hy : 0 < y := lt_of_lt_of_le hx h
  rcases (Int.log_mono_right (b := 2) hx h).lt_or_eq with hlt | heq
  · calc roundTo p x ≤ 2^(Int.log 2 x+1) := (roundTo_binade p hp x hx).2
      _ ≤ 2^Int.log 2 y := zpow_le_zpow_right₀ one_le_two hlt
      _ ≤ roundTo p y := (roundTo_binade p hp y hy).1
  · have hplace : place p x = place p y := by rw [place, place, heq]
    have hpos := place_pos p y
    rw [roundTo, roundTo, hplace]
    refine mul_le_mul_of_nonneg_right (Int.cast_le.mpr (nearest_mono _ _ ?_)) hpos.le
    exact div_le_div_of_nonneg_right h hpos.le

/-- The relative error is half a unit of the last digit. -/
theorem roundTo_error (p : ℕ) (x : K) (hx : 0 ≤ x) : |roundTo p x-x| ≤ x/2^p := by
  rcases hx.eq_or_lt with rfl | hx
  · simp [roundTo_zero]
  have hpos := place_pos p x
  have hplace : place p x = 2^Int.log 2 x/2^p*2 := by
    rw [place, zpow_add₀ two_ne_zero, zpow_sub₀ two_ne_zero, zpow_natCast, zpow_one]
  have hq : x = x/place p x*place p x := (div_mul_cancel₀ x hpos.ne').symm
  have hdiff : roundTo p x-x = ((nearest (x/place p x) : K)-x/place p x)*place p x := by
    rw [sub_mul, ← hq, roundTo]
  calc |roundTo p x-x| = |(nearest (x/place p x) : K)-x/place p x| * place p x := by
        rw [hdiff, abs_mul, abs_of_pos hpos]
    _ ≤ 1/2*place p x := mul_le_mul_of_nonneg_right (nearest_error _) hpos.le
    _ = 2^Int.log 2 x/2^p := by rw [hplace]; ring
    _ ≤ x/2^p := div_le_div_of_nonneg_right (binade_le x hx) (pow_pos two_pos p).le

/-- Values whose distance exceeds both errors keep their strict order. -/
theorem roundTo_lt (p : ℕ) (x y : K) (hx : 0 ≤ x) (hy : 0 ≤ y) (h : (x+y)/2^p < y-x) :
    roundTo p x < roundTo p y := by
  have hex := (abs_le.mp (roundTo_error p x hx)).2
  have hey := (abs_le.mp (roundTo_error p y hy)).1
  rw [add_div] at h
  linarith

/-! ## Exact values -/

theorem roundTo_of_places (p : ℕ) (x : K) (n : ℤ) (h : x = n*place p x) : roundTo p x = x := by
  have hq : x/place p x = n := (div_eq_iff (place_pos p x).ne').mpr h
  rw [roundTo, hq, nearest_intCast, ← h]

theorem roundTo_representable (p : ℕ) (hp : 0 < p) (x : K) (hx : Representable p x) : roundTo p x = x := by
  obtain ⟨m,e,hm,rfl⟩ := hx
  have h2 : (2:K) ≠ 0 := two_ne_zero
  rcases Nat.eq_zero_or_pos m with rfl | hpos
  · rw [Nat.cast_zero, zero_mul, roundTo_zero]
  have hx : 0 < (m:K)*2^e := mul_pos (Nat.cast_pos.mpr hpos) (zpow_pos two_pos e)
  rcases hm.lt_or_eq with hlt | rfl
  · -- the last digit of `m` stands at `e`, and the last place is no higher
    have hhigh : (m:K)*2^e < 2^((p:ℤ)+e) := by
      rw [zpow_add₀ h2, zpow_natCast]
      exact mul_lt_mul_of_pos_right (by exact_mod_cast hlt) (zpow_pos two_pos e)
    have hlog : Int.log 2 ((m:K)*2^e) < p+e := by
      refine (Int.lt_zpow_iff_log_lt (b := 2) one_lt_two hx).mp ?_
      simpa using hhigh
    obtain ⟨d,hd⟩ : ∃ d : ℕ, e = d+(Int.log 2 ((m:K)*2^e)-p+1) :=
      ⟨(e-(Int.log 2 ((m:K)*2^e)-p+1)).toNat,by omega⟩
    refine roundTo_of_places p _ (m*2^d) ?_
    push_cast
    rw [place, mul_assoc, ← zpow_natCast, ← zpow_add₀ h2, ← hd]
  · have hpow : ((2^p : ℕ) : K)*2^e = 2^((p:ℤ)+e) := by
      rw [zpow_add₀ h2, zpow_natCast, Nat.cast_pow, Nat.cast_ofNat]
    have hlog : Int.log 2 ((2:K)^((p:ℤ)+e)) = p+e := by
      simpa using Int.log_zpow (R := K) (b := 2) one_lt_two ((p:ℤ)+e)
    rw [hpow]
    refine roundTo_of_places p _ (2^(p-1)) ?_
    rw [(place_binade p hp _).1, hlog]

/-- A whole number of at most `p` digits is exact. -/
theorem roundTo_natCast (p : ℕ) (hp : 0 < p) (n : ℕ) (h : n ≤ 2^p) : roundTo p (n:K) = n :=
  roundTo_representable p hp _ ⟨n,0,h,by rw [zpow_zero, mul_one]⟩

theorem roundTo_one (p : ℕ) (hp : 0 < p) : roundTo p (1:K) = 1 := by
  simpa using roundTo_natCast (K := K) p hp 1 Nat.one_le_two_pow

theorem roundTo_le_one (p : ℕ) (hp : 0 < p) (x : K) (hx : 0 ≤ x) (h : x ≤ 1) : roundTo p x ≤ 1 := by
  rw [← roundTo_one (K := K) p hp]
  exact roundTo_mono p hp x 1 hx h

end RustChat.Rounding
