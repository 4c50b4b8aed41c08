import Mathlib.Logic.Function.Iterate
import Mathlib.Data.Nat.ModEq
import Mathlib.Tactic.SplitIfs
import Mathlib.Order.Interval.Set.Basic

/-! A beam that scans a raster of `h` lines of `w` points, line by line, for ever, and
strips of equal cells along a line. -/
namespace Raster
variable {w h : Nat}

def next (w h : Nat) (p : Nat × Nat) : Nat × Nat :=
  if p.1 + 1 = w then (0, if p.2 + 1 = h then 0 else p.2 + 1) else (p.1 + 1, p.2)

/-- Column and line after `n` steps from the first point. -/
def pos (w h n : Nat) : Nat × Nat := (n % w, n / w % h)

theorem succ_div_mod (n : Nat) (hw : 0 < w) :
    ((n + 1) / w = if n % w + 1 = w then n / w + 1 else n / w) ∧
      (n + 1) % w = if n % w + 1 = w then 0 else n % w + 1 := by
  have hlt := Nat.mod_lt n hw
  have hn := Nat.mod_add_div n w
  rw [Nat.div_mod_unique hw]
  split_ifs with hlast
  · rw [Nat.mul_add]
    omega
  · omega

theorem next_pos (hw : 0 < w) (hh : 0 < h) (n : Nat) : next w h (pos w h n) = pos w h (n + 1) := by
  obtain ⟨hdiv, hmod⟩ := succ_div_mod n hw
  unfold pos
  by_cases hlast : n % w + 1 = w
  · rw [if_pos hlast] at hdiv hmod
    rw [hdiv, hmod, (succ_div_mod (n / w) hh).2]
    exact if_pos hlast
  · rw [if_neg hlast] at hdiv hmod
    rw [hdiv, hmod]
    exact if_neg hlast

theorem pos_eq_iff {x : Nat} (hx : x < w) (y n : Nat) :
    pos w h n = (x, y) ↔ n % (w * h) = x + w * y := by
  have hmod : n % (w * h) = n % w + w * (n / w % h) := Nat.mod_mul
  have hw : 0 < w := by omega
  have hlt := Nat.mod_lt n hw
  rw [pos, Prod.mk.injEq, hmod]
  constructor
  · rintro ⟨hx', hy'⟩
    rw [hx', hy']
  · intro heq
    have hcol := congrArg (· % w) heq
    simp only [Nat.add_mul_mod_self_left, Nat.mod_eq_of_lt hx, Nat.mod_mod] at hcol
    rw [hcol] at heq
    exact ⟨hcol, Nat.eq_of_mul_eq_mul_left hw (Nat.add_left_cancel heq)⟩

theorem eq_of_mod_eq {p m a b : Nat} (ha : m ≤ a ∧ a < m + p) (hb : m ≤ b ∧ b < m + p)
    (h : a % p = b % p) : a = b := by
  have hab := Nat.sub_mod_eq_zero_of_mod_eq h
  have hba := Nat.sub_mod_eq_zero_of_mod_eq h.symm
  rw [Nat.mod_eq_of_lt (by omega)] at hab hba
  omega

/-- Each point is passed exactly once in any `w * h` steps in a row. -/
theorem existsUnique_pos {x y : Nat} (hx : x < w) (hy : y < h) (m : Nat) :
    ∃! n, (m ≤ n ∧ n < m + w * h) ∧ pos w h n = (x, y) := by
  have hbound : x + w * y < w * h := by
    calc x + w * y < w + w * y := Nat.add_lt_add_right hx _
      _ = w * (y + 1) := by rw [Nat.mul_add, Nat.mul_one, Nat.add_comm]
      _ ≤ w * h := Nat.mul_le_mul_left w hy
  generalize hp : w * h = p at hbound
  generalize hc : x + w * y = c at hbound
  have hpos : 0 < p := by omega
  have hm := Nat.mod_add_div m p
  have hlt := Nat.mod_lt m hpos
  have hoff := Nat.mod_lt (c + (p - m % p)) hpos
  have hlater : (m + (c + (p - m % p)) % p) % p = c := by
    have hsum : m + (c + (p - m % p)) = c + p * (m / p + 1) := by
      rw [Nat.mul_add, Nat.mul_one]
      omega
    rw [Nat.add_mod_mod, hsum, Nat.add_mul_mod_self_left, Nat.mod_eq_of_lt hbound]
  refine ⟨m + (c + (p - m % p)) % p, ⟨⟨by omega, by omega⟩, ?_⟩, ?_⟩
  · rwa [pos_eq_iff hx, hp, hc]
  · rintro n ⟨hn, hat⟩
    rw [pos_eq_iff hx, hp, hc] at hat
    exact eq_of_mod_eq hn ⟨by omega, by omega⟩ (hat.trans hlater.symm)

/-- The points that belong to cell `k` of the `m` cells from `a` on, when the strip is
taken to begin one point late and to end one point late. -/
def lateCell (a n m k : Nat) : Set Nat := {x | (a < x ∧ x ≤ a + n * m) ∧ (x - a) / n = k}

variable {a n m k : Nat}

theorem mem_lateCell (hn : 0 < n) (hk : k < m) {x : Nat} :
    x ∈ lateCell a n m k ↔ a < x ∧ a + n * k ≤ x ∧ x < a + n * (k + 1) := by
  have hlast : n * (k + 1) ≤ n * m := Nat.mul_le_mul_left n hk
  have hcell : (x - a) / n = k ↔ n * k ≤ x - a ∧ x - a < n * (k + 1) := by
    rw [Nat.div_eq_iff hn, Nat.mul_comm k n, Nat.mul_add, Nat.mul_one]
    omega
  unfold lateCell
  rw [Set.mem_ofPred_eq, hcell]
  omega

theorem late_lt_iff (hn : 0 < n) {x : Nat} (hx : a < x ∧ x ≤ a + n * m) :
    (x - a) / n < m ↔ x ≠ a + n * m := by
  rw [Nat.div_lt_iff_lt_mul hn, Nat.mul_comm m n]
  omega

theorem lateCell_eq (hn : 0 < n) (hk : k < m) (h0 : k ≠ 0) :
    lateCell a n m k = Set.Ico (a + n * k) (a + n * k + n) := by
  have hpos : 0 < n * k := Nat.mul_pos hn (Nat.pos_of_ne_zero h0)
  ext x
  rw [mem_lateCell hn hk, Set.mem_Ico, Nat.mul_add, Nat.mul_one]
  omega

theorem not_ico_subset_lateCell_zero (hn : 0 < n) (hm : 0 < m) (x₀ : Nat) :
    ¬ Set.Ico x₀ (x₀ + n) ⊆ lateCell a n m 0 := by
  intro hsub
  have hfirst := hsub (Set.mem_Ico.2 ⟨Nat.le_refl x₀, by omega⟩)
  have hlast := hsub (Set.mem_Ico.2 ⟨Nat.le_sub_one_of_lt (by omega), by omega⟩ :
    x₀ + n - 1 ∈ Set.Ico x₀ (x₀ + n))
  rw [mem_lateCell hn hm] at hfirst hlast
  omega

end Raster
