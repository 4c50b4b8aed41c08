import Mathlib.Data.Nat.Digits.Defs
import Mathlib.Tactic.Ring

/-! Conversion of a binary number, fed in bit by bit, to an even base `2m`, in digit
registers of `2n` values each: a digit of `m` or more is moved up before it is doubled,
so that its carry falls out at the top of the register. -/
namespace Dabble
variable (m n : Nat)

def adjust (d : Nat) : Nat := if m ≤ d then d + (n - m) else d

/-- All digits shifted, the lowest first, with `c` shifted in. -/
def shiftIn : Nat → List Nat → List Nat
  | _, [] => []
  | c, d :: ds => (2 * adjust m n d + c) % (2 * n) :: shiftIn (adjust m n d / n) ds

def double (v : Nat) (b : Bool) : Nat := 2 * v + b.toNat

variable {m n}

theorem digit_spec (hmn : m ≤ n) {d c : Nat} (hd : d < 2 * m) (hc : c ≤ 1) :
    (2 * adjust m n d + c) % (2 * n) + 2 * m * (adjust m n d / n) = 2 * d + c ∧
      (2 * adjust m n d + c) % (2 * n) < 2 * m ∧ adjust m n d / n ≤ 1 := by
  unfold adjust
  split_ifs with hm
  · have hquot : (d + (n - m)) / n = 1 := by
      rw [Nat.div_eq_iff (by omega)]
      omega
    have hrem : (2 * (d + (n - m)) + c) % (2 * n) = 2 * d + c - 2 * m := by
      have hsum : 2 * (d + (n - m)) + c = 2 * d + c - 2 * m + 2 * n := by omega
      rw [hsum, Nat.add_mod_right, Nat.mod_eq_of_lt (by omega)]
    rw [hquot, hrem]
    omega
  · rw [Nat.div_eq_of_lt (by omega), Nat.mod_eq_of_lt (by omega)]
    omega

/-- Doubling a number, as long as its digits hold the result. -/
theorem shiftIn_spec (hmn : m ≤ n) {ds : List Nat} (hds : ∀ d ∈ ds, d < 2 * m) {c : Nat} (hc : c ≤ 1)
    (hfit : 2 * Nat.ofDigits (2 * m) ds + c < (2 * m) ^ ds.length) :
    Nat.ofDigits (2 * m) (shiftIn m n c ds) = 2 * Nat.ofDigits (2 * m) ds + c ∧
      ∀ d ∈ shiftIn m n c ds, d < 2 * m := by
  induction ds generalizing c with
  | nil =>
    simp only [Nat.ofDigits_nil, List.length_nil, Nat.pow_zero] at hfit
    refine ⟨?_, fun d hd => nomatch hd⟩
    simp only [shiftIn, Nat.ofDigits_nil]
    omega
  | cons d ds ih =>
    obtain ⟨hsum, hlt, hcarry⟩ := digit_spec hmn (hds d List.mem_cons_self) hc
    have hrest : 2 * Nat.ofDigits (2 * m) ds + adjust m n d / n < (2 * m) ^ ds.length := by
      rw [Nat.ofDigits_cons, List.length_cons, Nat.pow_succ'] at hfit
      refine Nat.lt_of_mul_lt_mul_left (a := 2 * m) ?_
      calc 2 * m * (2 * Nat.ofDigits (2 * m) ds + adjust m n d / n)
          ≤ 2 * (d + 2 * m * Nat.ofDigits (2 * m) ds) + c := by
            rw [Nat.mul_add, Nat.mul_left_comm]
            omega
        _ < 2 * m * (2 * m) ^ ds.length := hfit
    obtain ⟨hvalue, hdigits⟩ := ih (fun e he => hds e (List.mem_cons_of_mem d he)) hcarry hrest
    refine ⟨?_, fun e he => ?_⟩
    · rw [shiftIn, Nat.ofDigits_cons, Nat.ofDigits_cons, hvalue]
      calc _ = (2 * adjust m n d + c) % (2 * n) + 2 * m * (adjust m n d / n) +
            2 * (2 * m * Nat.ofDigits (2 * m) ds) := by ring
        _ = 2 * (d + 2 * m * Nat.ofDigits (2 * m) ds) + c := by rw [hsum]; ring
    · cases List.mem_cons.1 he with
      | inl heq => exact heq ▸ hlt
      | inr htail => exact hdigits e htail

theorem length_shiftIn (c : Nat) (ds : List Nat) : (shiftIn m n c ds).length = ds.length := by
  induction ds generalizing c with
  | nil => rfl
  | cons d ds ih => exact congrArg Nat.succ (ih _)

theorem le_foldl_double (v : Nat) (bits : List Bool) : v ≤ bits.foldl double v := by
  induction bits generalizing v with
  | nil => exact Nat.le_refl v
  | cons b bits ih =>
    refine Nat.le_trans ?_ (ih (double v b))
    unfold double
    omega

/-- Registers whose digits are shifted so hold the digits of the whole number, its highest
bit fed in first. -/
theorem foldl_digits {σ : Type*} {shift : σ → Bool → σ} {digits : σ → List Nat} (hmn : m ≤ n)
    (hshift : ∀ s b, (∀ d ∈ digits s, d < 2 * m) →
      digits (shift s b) = shiftIn m n b.toNat (digits s)) (bits : List Bool) {s : σ}
    (hs : ∀ d ∈ digits s, d < 2 * m)
    (hfit : bits.foldl double (Nat.ofDigits (2 * m) (digits s)) < (2 * m) ^ (digits s).length) :
    let t := bits.foldl shift s
    Nat.ofDigits (2 * m) (digits t) = bits.foldl double (Nat.ofDigits (2 * m) (digits s)) ∧
      ∀ d ∈ digits t, d < 2 * m := by
  induction bits generalizing s with
  | nil => exact ⟨rfl, hs⟩
  | cons b bits ih =>
    have hone : 2 * Nat.ofDigits (2 * m) (digits s) + b.toNat < (2 * m) ^ (digits s).length :=
      Nat.lt_of_le_of_lt (le_foldl_double _ bits) hfit
    obtain ⟨hvalue, hdigits⟩ := shiftIn_spec hmn hs (Bool.toNat_le b) hone
    rw [← hshift s b hs] at hvalue hdigits
    have hnext := ih hdigits (by
      rw [hvalue, hshift s b hs, length_shiftIn]
      exact hfit)
    rw [hvalue] at hnext
    exact hnext

theorem foldl_testBit (x w v : Nat) :
    ((List.range w).reverse.map x.testBit).foldl double v = v * 2 ^ w + x % 2 ^ w := by
  induction w generalizing v with
  | zero =>
    rw [Nat.pow_zero, Nat.mul_one, Nat.mod_one]
    rfl
  | succ w ih =>
    rw [List.range_succ, List.reverse_append, List.reverse_singleton, List.singleton_append,
      List.map_cons, List.foldl_cons, ih, Nat.mod_pow_succ, double, Nat.toNat_testBit]
    ring

end Dabble
