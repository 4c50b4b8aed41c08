import Tetris.ColorMapper
import Tetris.Dabble

/-! The score on the screen: from binary to decimal, and from decimal to pixels. -/
namespace Tetris
open Dabble

structure Bcd where
  h : BitVec 4
  t : BitVec 4
  o : BitVec 4

/-- `if (d >= 5) d = d + 3;` -/
def addThree (d : BitVec 4) : BitVec 4 := if d ≥ 5 then d + 3 else d

def Bcd.shift (s : Bcd) (b : Bool) : Bcd :=
  let h := addThree s.h
  let t := addThree s.t
  let o := addThree s.o
  { h := h.shiftConcat (t.getLsbD 3)
    t := t.shiftConcat (o.getLsbD 3)
    o := o.shiftConcat b }

def binaryToBcd (binary : BitVec 8) : Bcd :=
  [7, 6, 5, 4, 3, 2, 1, 0].foldl (fun s i => s.shift (binary.getLsbD i)) ⟨0, 0, 0⟩

def Bcd.digits (s : Bcd) : List Nat := [s.o.toNat, s.t.toNat, s.h.toNat]

theorem addThree_shift : ∀ (d : BitVec 4) (b : Bool), d.toNat < 10 →
    ((addThree d).shiftConcat b).toNat = (2 * adjust 5 8 d.toNat + b.toNat) % 16 ∧
      ((addThree d).getLsbD 3).toNat = adjust 5 8 d.toNat / 8 := by
  decide

theorem digits_shift (s : Bcd) (b : Bool) (hs : ∀ d ∈ s.digits, d < 2 * 5) :
    (s.shift b).digits = shiftIn 5 8 b.toNat s.digits := by
  have ho := addThree_shift s.o b (hs _ (by simp [Bcd.digits]))
  have ht := addThree_shift s.t ((addThree s.o).getLsbD 3) (hs _ (by simp [Bcd.digits]))
  have hh := addThree_shift s.h ((addThree s.t).getLsbD 3) (hs _ (by simp [Bcd.digits]))
  simp only [Bcd.digits, Bcd.shift, shiftIn, ← ho.2, ← ht.2, ho.1, ht.1, hh.1]

/-- The three digits of the number. -/
theorem binaryToBcd_spec (n : BitVec 8) :
    let s := binaryToBcd n
    s.h.toNat = n.toNat / 100 ∧ s.t.toNat = n.toNat / 10 % 10 ∧ s.o.toNat = n.toNat % 10 := by
  intro s
  have hlt := n.isLt
  have hbits : ([7, 6, 5, 4, 3, 2, 1, 0] : List Nat) = (List.range 8).reverse := rfl
  have hs : s = ((List.range 8).reverse.map n.toNat.testBit).foldl Bcd.shift ⟨0, 0, 0⟩ := by
    rw [List.foldl_map, ← hbits]
    rfl
  have hvalue := foldl_testBit n.toNat 8 0
  rw [Nat.zero_mul, Nat.zero_add, Nat.mod_eq_of_lt hlt] at hvalue
  have hzero : Nat.ofDigits (2 * 5) (Bcd.digits ⟨0, 0, 0⟩) = 0 := rfl
  obtain ⟨hsum, hdigits⟩ := foldl_digits (n := 8) (by decide) digits_shift
    ((List.range 8).reverse.map n.toNat.testBit) (s := ⟨0, 0, 0⟩) (by decide)
    (by rw [hzero, hvalue]; exact Nat.lt_trans hlt (by decide))
  rw [← hs, hzero, hvalue] at hsum
  rw [← hs] at hdigits
  have ho := hdigits s.o.toNat (by simp [Bcd.digits])
  have ht := hdigits s.t.toNat (by simp [Bcd.digits])
  have hh := hdigits s.h.toNat (by simp [Bcd.digits])
  simp only [Bcd.digits, Nat.ofDigits_cons, Nat.ofDigits_nil] at hsum
  omega

/-- Ten rows for each digit, and some that are never read. -/
def numRom : List (BitVec 8) :=
  [0x00, 0x3c, 0x7e, 0x66, 0x66, 0x66, 0x66, 0x7e, 0x3c, 0x00,
    0x00, 0x18, 0x38, 0x78, 0x18, 0x18, 0x18, 0x18, 0x7e, 0x00,
    0x00, 0x7e, 0x7e, 0x06, 0x7e, 0x7e, 0x60, 0x7e, 0x7e, 0x00,
    0x00, 0x7e, 0x7e, 0x06, 0x7e, 0x7e, 0x06, 0x7e, 0x7e, 0x00,
    0x00, 0x66, 0x66, 0x66, 0x7e, 0x06, 0x06, 0x06, 0x06, 0x00,
    0x00, 0x7e, 0x7e, 0x60, 0x7e, 0x7e, 0x06, 0x7e, 0x7e, 0x00,
    0x00, 0x7e, 0x7e, 0x60, 0x7e, 0x7e, 0x66, 0x7e, 0x7e, 0x00,
    0x00, 0x7e, 0x7e, 0x06, 0x06, 0x06, 0x06, 0x06, 0x06, 0x00,
    0x00, 0x7e, 0x7e, 0x66, 0x7e, 0x7e, 0x66, 0x7e, 0x7e, 0x00,
    0x00, 0x7e, 0x7e, 0x66, 0x7e, 0x7e, 0x06, 0x7e, 0x7e, 0x00,
    0x00, 0x3c, 0x7e, 0x66, 0x66, 0x66, 0x66, 0x7e, 0x3c, 0x00,
    0x00, 0x18, 0x38, 0x78, 0x18, 0x18, 0x18, 0x18, 0x7e, 0x00,
    0x00, 0x7e, 0x7e, 0x06, 0x7e, 0x7e, 0x60, 0x7e]

def fontRomNum (addr : BitVec 7) : BitVec 8 := numRom.getD addr.toNat 0

/-- `num1` to `num4`; the first is tied to 0. -/
def nums (score : BitVec 8) : Fin 4 → BitVec 4 :=
  let s := binaryToBcd score
  ![0, s.h, s.t, s.o]

def numCount (p : Pixel) : BitVec 2 := ((p.drawX.setWidth 32 - 178) / 16).setWidth 2
def ynum (p : Pixel) : BitVec 32 := (p.drawY.setWidth 32 - 70) % 20

def numAddr (num : Fin 4 → BitVec 4) (p : Pixel) : BitVec 7 :=
  ((num (Fin.ofNat 4 (numCount p).toNat)).setWidth 32 * 10 + ynum p / 2).setWidth 7

def numRow (score : BitVec 8) (p : Pixel) : BitVec 8 := fontRomNum (numAddr (nums score) p)

/-- A pixel of the number is lit. -/
def NumLit (score : BitVec 8) (p : Pixel) : Prop := fontBit (numRow score p) p.drawX 178 16 2 = true

instance (score : BitVec 8) (p : Pixel) : Decidable (NumLit score p) :=
  inferInstanceAs (Decidable (_ = _))

def glyph (d r c : Nat) : Bool := (numRom.getD (d * 10 + r) 0).getLsbD (7 - c)

def decimal (n : Nat) (i : Fin 4) : Nat := n / 10 ^ (3 - i.val) % 10

theorem nums_toNat (score : BitVec 8) (i : Fin 4) : (nums score i).toNat = decimal score.toNat i := by
  obtain ⟨hh, ht, ho⟩ := binaryToBcd_spec score
  have hlt := score.isLt
  match i with
  | 0 =>
    change 0 = score.toNat / 10 ^ 3 % 10
    omega
  | 1 =>
    change (binaryToBcd score).h.toNat = score.toNat / 10 ^ 2 % 10
    omega
  | 2 =>
    change (binaryToBcd score).t.toNat = score.toNat / 10 ^ 1 % 10
    omega
  | 3 =>
    change (binaryToBcd score).o.toNat = score.toNat / 10 ^ 0 % 10
    omega

theorem branch_num_iff (p : Pixel) : branch false p = .num ↔
    (178 < p.drawX.toNat ∧ p.drawX.toNat ≤ 242) ∧ (70 < p.drawY.toNat ∧ p.drawY.toNat ≤ 90) := by
  constructor
  · intro h
    have hregion : numRegion.Contains p := by
      unfold branch at h
      split_ifs at h <;> assumption
    exact (numRegion.contains_iff p).1 hregion
  · intro h
    have hnum : numRegion.Contains p := (numRegion.contains_iff p).2 h
    have hrange : ¬ rangeRegion.Contains p := by
      have hc : rangeRegion.Contains p → 300 < p.drawX.toNat :=
        fun hc => ((rangeRegion.contains_iff p).1 hc).1.1
      exact fun hin => absurd (hc hin) (by omega)
    have hstate : ¬ stateRegion.Contains p := by
      have hc : stateRegion.Contains p → 366 < p.drawY.toNat :=
        fun hc => ((stateRegion.contains_iff p).1 hc).2.1
      exact fun hin => absurd (hc hin) (by omega)
    have hscore : ¬ scoreRegion.Contains p := by
      have hc : scoreRegion.Contains p → p.drawY.toNat ≤ 50 :=
        fun hc => ((scoreRegion.contains_iff p).1 hc).2.2
      exact fun hin => absurd (hc hin) (by omega)
    simp [branch, hrange, hstate, hscore, hnum]

theorem toNat_sub_start {draw : BitVec 10} {start : BitVec 32} (h : start.toNat ≤ draw.toNat) :
    (draw.setWidth 32 - start).toNat = draw.toNat - start.toNat := by
  have hwide : (draw.setWidth 32).toNat = draw.toNat := BitVec.toNat_setWidth_of_le (by decide)
  rw [BitVec.toNat_sub_of_le (by rw [BitVec.le_def, hwide]; exact h), hwide]

theorem numLit_iff {p : Pixel} (hp : branch false p = .num) (score : BitVec 8) :
    NumLit score p ↔ glyph (decimal score.toNat (Fin.ofNat 4 ((p.drawX.toNat - 178) / 16)))
      ((p.drawY.toNat - 70) % 20 / 2) ((p.drawX.toNat - 178) % 16 / 2) = true := by
  obtain ⟨⟨hx, hx'⟩, hy, hy'⟩ := (branch_num_iff p).1 hp
  have hdx : (p.drawX.setWidth 32 - 178).toNat = p.drawX.toNat - 178 :=
    toNat_sub_start (Nat.le_of_lt hx)
  have hdy : (p.drawY.setWidth 32 - 70).toNat = p.drawY.toNat - 70 := toNat_sub_start (Nat.le_of_lt hy)
  have hcount : Fin.ofNat 4 (numCount p).toNat = Fin.ofNat 4 ((p.drawX.toNat - 178) / 16) := by
    have h16 : (16 : BitVec 32).toNat = 16 := rfl
    refine Fin.ext ?_
    simp only [numCount, Fin.ofNat, BitVec.toNat_setWidth, BitVec.toNat_udiv, hdx, h16]
    omega
  have hrow : (ynum p / 2).toNat = (p.drawY.toNat - 70) % 20 / 2 := by
    simp only [ynum, BitVec.toNat_udiv, BitVec.toNat_umod, hdy]
    rfl
  have hdigit := nums_toNat score (Fin.ofNat 4 ((p.drawX.toNat - 178) / 16))
  have hten : decimal score.toNat (Fin.ofNat 4 ((p.drawX.toNat - 178) / 16)) < 10 :=
    Nat.mod_lt _ (by decide)
  have haddr : (numAddr (nums score) p).toNat =
      decimal score.toNat (Fin.ofNat 4 ((p.drawX.toNat - 178) / 16)) * 10 +
        (p.drawY.toNat - 70) % 20 / 2 := by
    rw [numAddr, hcount, BitVec.toNat_setWidth, BitVec.toNat_add, BitVec.toNat_mul, hrow,
      BitVec.toNat_setWidth, hdigit]
    have h10 : (10 : BitVec 32).toNat = 10 := rfl
    rw [h10]
    omega
  have hcol : ((p.drawX.setWidth 32 - 178) % 16 / 2).toNat = (p.drawX.toNat - 178) % 16 / 2 := by
    simp only [BitVec.toNat_udiv, BitVec.toNat_umod, hdx]
    rfl
  unfold NumLit fontBit numRow fontRomNum glyph
  rw [haddr, hcol]

theorem glyph_injective : ∀ d e : Fin 10, d ≠ e →
    ∃ (r : Fin 10) (c : Fin 8), glyph d r c ≠ glyph e r c := by
  decide +kernel

theorem decimal_injective {m n : Nat} (hm : m < 10000) (hn : n < 10000)
    (h : ∀ i, decimal m i = decimal n i) : m = n := by
  have h0 : m / 10 ^ 3 % 10 = n / 10 ^ 3 % 10 := h 0
  have h1 : m / 10 ^ 2 % 10 = n / 10 ^ 2 % 10 := h 1
  have h2 : m / 10 ^ 1 % 10 = n / 10 ^ 1 % 10 := h 2
  have h3 : m / 10 ^ 0 % 10 = n / 10 ^ 0 % 10 := h 3
  omega

/-- The number tells any two scores apart. -/
theorem numLit_injective {s t : BitVec 8} :
    (∀ p, Visible p → branch false p = .num → (NumLit s p ↔ NumLit t p)) ↔ s = t := by
  refine ⟨fun hsame => ?_, fun heq p _ _ => by rw [heq]⟩
  by_contra hne
  have hdiffer : ∃ i, decimal s.toNat i ≠ decimal t.toNat i := by
    by_contra hall
    have hs := s.isLt
    have ht := t.isLt
    exact hne (BitVec.eq_of_toNat_eq (decimal_injective (by omega) (by omega)
      fun i => not_not.1 fun hi => hall ⟨i, hi⟩))
  obtain ⟨i, hi⟩ := hdiffer
  have hlt (n : Nat) : decimal n i < 10 := Nat.mod_lt _ (by decide)
  obtain ⟨r, c, hrc⟩ := glyph_injective ⟨_, hlt s.toNat⟩ ⟨_, hlt t.toNat⟩ fun heq => hi (Fin.mk.inj heq)
  -- a pixel in the middle of that point of the glyph
  have hx : (BitVec.ofNat 10 (178 + 16 * i.val + 2 * c.val + 1)).toNat = 178 + 16 * i.val + 2 * c.val + 1 :=
    Nat.mod_eq_of_lt (by omega)
  have hy : (BitVec.ofNat 10 (70 + 2 * r.val + 1)).toNat = 70 + 2 * r.val + 1 :=
    Nat.mod_eq_of_lt (by omega)
  have hp : branch false ⟨BitVec.ofNat 10 (178 + 16 * i.val + 2 * c.val + 1),
      BitVec.ofNat 10 (70 + 2 * r.val + 1)⟩ = .num := by
    rw [branch_num_iff]
    dsimp only
    rw [hx, hy]
    omega
  have hvisible : Visible ⟨BitVec.ofNat 10 (178 + 16 * i.val + 2 * c.val + 1),
      BitVec.ofNat 10 (70 + 2 * r.val + 1)⟩ := by
    constructor
    · rw [BitVec.lt_def, hx]
      change _ < 640
      omega
    · rw [BitVec.lt_def, hy]
      change _ < 480
      omega
  have hpixel := hsame _ hvisible hp
  have hcount : Fin.ofNat 4 ((178 + 16 * i.val + 2 * c.val + 1 - 178) / 16) = i := by
    refine Fin.ext ?_
    simp only [Fin.ofNat]
    omega
  have hcol : (178 + 16 * i.val + 2 * c.val + 1 - 178) % 16 / 2 = c.val := by omega
  have hrow : (70 + 2 * r.val + 1 - 70) % 20 / 2 = r.val := by omega
  rw [numLit_iff hp, numLit_iff hp, hx, hy, hcount, hcol, hrow] at hpixel
  exact hrc (Bool.eq_iff_iff.2 hpixel)

theorem rgbDisplay_num {s : Screen} {p : Pixel} (hp : branch s.printTitle p = .num) (m : RomData)
    (score : BitVec 8) : rgbDisplay s { m with numRow := numRow score p } p =
      if NumLit score p then ⟨0, 0xff, 0⟩ else black := by
  simp only [rgbDisplay, hp]
  rfl

/-- Where the number stands, each pixel shows the glyph of a decimal digit of the score,
and the picture tells any two scores apart. -/
theorem score_readable {s : Screen} (htitle : s.printTitle = false) (m : RomData) :
    (∀ score p, branch s.printTitle p = .num →
      rgbDisplay s { m with numRow := numRow score p } p =
        if glyph (decimal score.toNat (Fin.ofNat 4 ((p.drawX.toNat - 178) / 16)))
          ((p.drawY.toNat - 70) % 20 / 2) ((p.drawX.toNat - 178) % 16 / 2) then ⟨0, 0xff, 0⟩
        else black) ∧
    ∀ a b : BitVec 8, (∀ p, Visible p → branch s.printTitle p = .num →
      rgbDisplay s { m with numRow := numRow a p } p = rgbDisplay s { m with numRow := numRow b p } p) ↔
        a = b := by
  refine ⟨fun score p hp => ?_, fun a b => ?_⟩
  · rw [rgbDisplay_num hp]
    rw [htitle] at hp
    exact if_congr (numLit_iff hp score) rfl rfl
  · rw [← numLit_injective]
    refine forall_congr' fun p => forall_congr' fun _ => ?_
    rw [htitle]
    refine forall_congr' fun hp => ?_
    rw [rgbDisplay_num (by rwa [htitle]), rgbDisplay_num (by rwa [htitle])]
    have hgreen : (⟨0, 0xff, 0⟩ : Rgb) ≠ black := by decide
    by_cases ha : NumLit a p <;> by_cases hb : NumLit b p
    · rw [if_pos ha, if_pos hb]
      exact iff_of_true rfl (iff_of_true ha hb)
    · rw [if_pos ha, if_neg hb]
      exact iff_of_false hgreen fun h => hb (h.1 ha)
    · rw [if_neg ha, if_pos hb]
      exact iff_of_false hgreen.symm fun h => ha (h.2 hb)
    · rw [if_neg ha, if_neg hb]
      exact iff_of_true rfl (iff_of_false ha hb)

theorem flatI_score_readable :
    (∀ score p, branch flatI.printTitle p = .num →
      rgbDisplay flatI { (⟨0, 0, 0, 0, 0, 0, 0⟩ : RomData) with numRow := numRow score p } p =
        if glyph (decimal score.toNat (Fin.ofNat 4 ((p.drawX.toNat - 178) / 16)))
          ((p.drawY.toNat - 70) % 20 / 2) ((p.drawX.toNat - 178) % 16 / 2) then ⟨0, 0xff, 0⟩
        else black) ∧
    ∀ a b : BitVec 8, (∀ p, Visible p → branch flatI.printTitle p = .num →
      rgbDisplay flatI { (⟨0, 0, 0, 0, 0, 0, 0⟩ : RomData) with numRow := numRow a p } p =
        rgbDisplay flatI { (⟨0, 0, 0, 0, 0, 0, 0⟩ : RomData) with numRow := numRow b p } p) ↔ a = b :=
  score_readable rfl ⟨0, 0, 0, 0, 0, 0, 0⟩

end Tetris
