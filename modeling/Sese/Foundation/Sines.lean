import Mathlib.Analysis.Complex.Trigonometric
import Mathlib.Tactic

/-!
# Sines of whole numbers

The cosine and the sine of `n` are found by `n` turns of one radian. The numbers have 128 binary
places; a turn at most doubles the error that is there and adds five units to it, so that the first
binary places of the sine are exact as long as `n` is small.
-/
namespace Foundation
namespace Sines

/-- The first `n` terms of the series of `cos 1`. -/
def cosSeries (n : ℕ) : ℚ := ∑ j ∈ Finset.range n, (-1) ^ j / ((2 * j).factorial : ℚ)

/-- The first `n` terms of the series of `sin 1`. -/
def sinSeries (n : ℕ) : ℚ := ∑ j ∈ Finset.range n, (-1) ^ j / ((2 * j + 1).factorial : ℚ)

open Complex in
theorem exp_series (n : ℕ) :
    ∑ m ∈ Finset.range (2 * n), I ^ m / (m.factorial : ℂ) =
      ((cosSeries n : ℝ) : ℂ) + ((sinSeries n : ℝ) : ℂ) * I := by
  induction n with
  | zero => simp [cosSeries, sinSeries]
  | succ n ih =>
    have heven : I ^ (2 * n) = (-1) ^ n := by rw [pow_mul, I_sq]
    rw [Nat.mul_succ, Finset.sum_range_succ, Finset.sum_range_succ, ih, pow_succ, heven, cosSeries,
      sinSeries, cosSeries, sinSeries, Finset.sum_range_succ, Finset.sum_range_succ]
    push_cast
    ring

theorem series_error {n : ℕ} (hn : 0 < n) :
    |Real.cos 1 - cosSeries n| ≤ (2 * n + 1) / ((2 * n).factorial * (2 * n)) ∧
      |Real.sin 1 - sinSeries n| ≤ (2 * n + 1) / ((2 * n).factorial * (2 * n)) := by
  have hbound := Complex.exp_bound (x := (1 : ℝ) * Complex.I) (n := 2 * n) (by simp) (by omega)
  simp only [Complex.ofReal_one, one_mul, Complex.norm_I, one_pow] at hbound
  rw [exp_series] at hbound
  have herr : ((2 * n).succ : ℝ) * ((2 * n).factorial * (2 * n : ℕ) : ℝ)⁻¹ =
      (2 * n + 1) / ((2 * n).factorial * (2 * n)) := by
    push_cast
    rw [div_eq_mul_inv]
  rw [herr] at hbound
  have hre := (Complex.abs_re_le_norm _).trans hbound
  have him := (Complex.abs_im_le_norm _).trans hbound
  have hexp := Complex.exp_ofReal_mul_I_re 1
  have hexp' := Complex.exp_ofReal_mul_I_im 1
  rw [Complex.ofReal_one, one_mul] at hexp hexp'
  simp only [Complex.sub_re, Complex.sub_im, Complex.add_re, Complex.add_im, Complex.mul_re,
    Complex.mul_im, Complex.ofReal_re, Complex.ofReal_im, Complex.I_re, Complex.I_im, hexp, hexp',
    mul_zero, mul_one, sub_zero, add_zero, zero_add] at hre him
  exact ⟨hre, him⟩

def scale : ℤ := 2 ^ 128

def cosOne : ℤ := 183855347493651442427684920285310598441

def sinOne : ℤ := 286337738405724074564845076175058320434

def turn (p : ℤ × ℤ) : ℤ × ℤ :=
  ((p.1 * cosOne - p.2 * sinOne) / scale, (p.1 * sinOne + p.2 * cosOne) / scale)

def turns (n : ℕ) : ℤ × ℤ := turn^[n] (scale, 0)

/-- The numbers of `p` differ from the cosine and the sine of `x` by at most `e` units. -/
structure Near (e : ℝ) (p : ℤ × ℤ) (x : ℝ) : Prop where
  cos : |p.1 - scale * Real.cos x| ≤ e
  sin : |p.2 - scale * Real.sin x| ≤ e

theorem scale_pos : (0 : ℝ) < scale := by
  rw [scale]
  positivity

theorem near_one : Near 2 (cosOne, sinOne) 1 := by
  have hcos : |(cosOne : ℝ) - scale * (cosSeries 18 : ℚ)| ≤ 1 := by
    norm_num [cosOne, scale, cosSeries, Finset.sum_range_succ, Nat.factorial, abs_le]
  have hsin : |(sinOne : ℝ) - scale * (sinSeries 18 : ℚ)| ≤ 1 := by
    norm_num [sinOne, scale, sinSeries, Finset.sum_range_succ, Nat.factorial, abs_le]
  obtain ⟨herrc, herrs⟩ := series_error (n := 18) (by decide)
  generalize cosSeries 18 = c at hcos herrc
  generalize sinSeries 18 = s at hsin herrs
  have hrest : (scale : ℝ) * ((2 * (18 : ℕ) + 1) / ((2 * 18).factorial * (2 * (18 : ℕ)))) ≤ 1 := by
    norm_num [scale, Nat.factorial]
  have hscale : ∀ {x y : ℝ} {z : ℤ},
      |x - y| ≤ (2 * (18 : ℕ) + 1) / ((2 * 18).factorial * (2 * (18 : ℕ))) →
        |z - scale * y| ≤ 1 → |z - scale * x| ≤ 2 := by
    intro x y z hxy hz
    have hmul : |scale * y - scale * x| ≤ 1 := by
      rw [← mul_sub, abs_mul, abs_of_pos scale_pos, abs_sub_comm]
      exact (mul_le_mul_of_nonneg_left hxy scale_pos.le).trans hrest
    calc
      |z - scale * x| ≤ |z - scale * y| + |scale * y - scale * x| := abs_sub_le _ _ _
      _ ≤ 2 := by linarith
  exact ⟨hscale herrc hcos, hscale herrs hsin⟩

/-- A quotient of integers is at most one below the real one. -/
theorem abs_ediv_sub_le (z : ℤ) : |((z / scale : ℤ) : ℝ) - z / scale| ≤ 1 := by
  have hfloor : ((z / scale : ℤ) : ℝ) = ⌊(z : ℝ) / scale⌋ := by
    rw [Int.floor_div_cast_of_nonneg (by decide), Int.floor_intCast]
  have hle := Int.floor_le ((z : ℝ) / scale)
  have hlt := Int.lt_floor_add_one ((z : ℝ) / scale)
  rw [hfloor, abs_le]
  constructor <;> linarith

theorem abs_products_le {e u v a b : ℝ} {x y c d : ℤ} (hx : |x - scale * u| ≤ e)
    (hy : |y - scale * v| ≤ e) (hc : |c - scale * a| ≤ 2) (hd : |d - scale * b| ≤ 2)
    (hu : |u| ≤ 1) (hv : |v| ≤ 1) (hca : |(c : ℝ)| ≤ scale) (hda : |(d : ℝ)| ≤ scale) :
    |((x * c + y * d) / scale : ℤ) - scale * (u * a + v * b)| ≤ 2 * e + 5 := by
  have hpos := scale_pos
  have he : 0 ≤ e := (abs_nonneg _).trans hx
  have hfloor := abs_ediv_sub_le (x * c + y * d)
  have hsplit : ((x * c + y * d : ℤ) : ℝ) / scale - scale * (u * a + v * b) =
      (x - scale * u) * c / scale + u * (c - scale * a) +
        ((y - scale * v) * d / scale + v * (d - scale * b)) := by
    push_cast
    field_simp
    ring
  have hleft : ∀ {z : ℤ} {r w : ℝ}, |r| ≤ e → |(z : ℝ)| ≤ scale → |r * z / scale| ≤ e := by
    intro z r w hr hz
    rw [abs_div, abs_mul, abs_of_pos hpos, div_le_iff₀ hpos]
    exact mul_le_mul hr hz (abs_nonneg _) he
  have hright : ∀ {r w : ℝ}, |w| ≤ 1 → |r| ≤ 2 → |w * r| ≤ 2 := by
    intro r w hw hr
    rw [abs_mul]
    calc
      |w| * |r| ≤ 1 * 2 := mul_le_mul hw hr (abs_nonneg _) zero_le_one
      _ = 2 := one_mul 2
  have hexact : |((x * c + y * d : ℤ) : ℝ) / scale - scale * (u * a + v * b)| ≤
      (e + 2) + (e + 2) := by
    rw [hsplit]
    refine (abs_add_le _ _).trans (add_le_add ?_ ?_)
    · exact (abs_add_le _ _).trans (add_le_add (hleft (w := u) hx hca) (hright hu hc))
    · exact (abs_add_le _ _).trans (add_le_add (hleft (w := v) hy hda) (hright hv hd))
  calc
    _ ≤ |((x * c + y * d) / scale : ℤ) - ((x * c + y * d : ℤ) : ℝ) / scale| +
        |((x * c + y * d : ℤ) : ℝ) / scale - scale * (u * a + v * b)| := abs_sub_le _ _ _
    _ ≤ 2 * e + 5 := by linarith

/-- A turn at most doubles the error. -/
theorem Near.turn {e x : ℝ} {p : ℤ × ℤ} (h : Near e p x) : Near (2 * e + 5) (turn p) (x + 1) := by
  have hone := near_one
  have hcos : |(cosOne : ℝ)| ≤ scale := by norm_num [cosOne, scale]
  have hsin : |(sinOne : ℝ)| ≤ scale := by norm_num [sinOne, scale]
  constructor
  · have hneg : |((-sinOne : ℤ) : ℝ) - scale * -Real.sin 1| ≤ 2 := by
      rw [Int.cast_neg, mul_neg, ← neg_sub', abs_neg]
      exact hone.sin
    have hneg' : |((-sinOne : ℤ) : ℝ)| ≤ scale := by
      rwa [Int.cast_neg, abs_neg]
    have hsum := abs_products_le h.cos h.sin hone.cos hneg (Real.abs_cos_le_one x)
      (Real.abs_sin_le_one x) hcos hneg'
    rw [mul_neg, mul_neg, ← sub_eq_add_neg, ← sub_eq_add_neg] at hsum
    rw [Real.cos_add]
    exact hsum
  · have hsum := abs_products_le h.cos h.sin hone.sin hone.cos (Real.abs_cos_le_one x)
      (Real.abs_sin_le_one x) hsin hcos
    rw [Real.sin_add, add_comm (Real.sin x * _)]
    exact hsum

/-- The error behind `n` turns. -/
def error (n : ℕ) : ℤ := 5 * 2 ^ n

theorem near_turns (n : ℕ) : Near (error n - 5) (turns n) n := by
  induction n with
  | zero => constructor <;> simp [turns, error]
  | succ n ih =>
    have herror : ((error (n + 1) : ℤ) : ℝ) - 5 = 2 * (error n - 5) + 5 := by
      rw [error, error]
      push_cast
      ring
    rw [turns, Function.iterate_succ_apply', ← turns, herror, Nat.cast_succ]
    exact ih.turn

/-- What the sine of `n` times `2 ^ 32` begins with, if its error does not matter for that. -/
theorem floor_sin {n t : ℕ} (hle : t * scale + 2 ^ 32 * error n ≤ 2 ^ 32 * |(turns n).2|)
    (hlt : 2 ^ 32 * |(turns n).2| + 2 ^ 32 * error n < (t + 1) * scale) :
    ⌊2 ^ 32 * |Real.sin n|⌋₊ = t := by
  have hpos := scale_pos
  have hnear := (near_turns n).sin
  have habs : abs (((|(turns n).2| : ℤ) : ℝ) - scale * |Real.sin n|) ≤ error n - 5 := by
    have hmul : scale * |Real.sin n| = |scale * Real.sin n| := by
      rw [abs_mul, abs_of_pos hpos]
    rw [Int.cast_abs, hmul]
    exact (abs_abs_sub_abs_le _ _).trans hnear
  rw [abs_le] at habs
  have hle' : (t : ℝ) * scale + 2 ^ 32 * error n ≤ 2 ^ 32 * (|(turns n).2| : ℤ) := mod_cast hle
  have hlt' : (2 : ℝ) ^ 32 * (|(turns n).2| : ℤ) + 2 ^ 32 * error n < (t + 1) * scale := mod_cast hlt
  rw [Nat.floor_eq_iff (by positivity)]
  constructor
  · refine le_of_mul_le_mul_right ?_ hpos
    nlinarith
  · refine lt_of_mul_lt_mul_right ?_ hpos.le
    nlinarith

end Sines
end Foundation
