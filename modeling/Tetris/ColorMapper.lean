import Tetris.Registers
import Tetris.Raster

/-! The colour of a pixel: which part of the screen it lies in, and which cell of the
well or of the preview it shows. -/
namespace Tetris
open Raster

structure Pixel where
  drawX : BitVec 10
  drawY : BitVec 10
  deriving DecidableEq

def Visible (p : Pixel) : Prop := p.drawX < 640 ∧ p.drawY < 480

instance (p : Pixel) : Decidable (Visible p) := inferInstanceAs (Decidable (_ ∧ _))

/-- The game as `color_mapper` sees it. -/
structure Screen where
  piece : Piece
  activeShape : BitVec 3
  outputColor : Color
  nextColor : Fin 3 → Fin 4 → BitVec 3
  printPause : Bool
  printOver : Bool
  printTitle : Bool

structure RomData where
  colorFromMem : BitVec 24
  nextColorFromMem : BitVec 24
  tetrisRow : BitVec 8
  enterRow : BitVec 8
  stateRow : BitVec 16
  scoreRow : BitVec 8
  numRow : BitVec 8

structure Rgb where
  red : BitVec 8
  green : BitVec 8
  blue : BitVec 8
  deriving DecidableEq

structure Region where
  xStart : BitVec 32
  xEnd : BitVec 32
  yStart : BitVec 32
  yEnd : BitVec 32

/-- `DrawX > start && DrawX <= end`, and the same for `DrawY`. -/
def Region.Contains (r : Region) (p : Pixel) : Prop :=
  r.xStart < p.drawX.setWidth 32 ∧ p.drawX.setWidth 32 ≤ r.xEnd ∧
    r.yStart < p.drawY.setWidth 32 ∧ p.drawY.setWidth 32 ≤ r.yEnd

instance (r : Region) (p : Pixel) : Decidable (r.Contains p) := inferInstanceAs (Decidable (_ ∧ _))

def rangeRegion : Region := ⟨300, 500, 30, 430⟩
def titleRegion : Region := ⟨224, 416, 100, 140⟩
def enterRegion : Region := ⟨80, 560, 300, 330⟩
def scoreRegion : Region := ⟨170, 250, 30, 50⟩
def numRegion : Region := ⟨178, 242, 70, 90⟩
def nextRegion : Region := ⟨170, 250, 230, 290⟩
def stateRegion : Region := ⟨178, 242, 366, 430⟩
def frameRegion : Region := ⟨100, 540, 10, 450⟩

inductive Branch where
  | title | enter | range | state | score | num | next | frame | background
  deriving DecidableEq

def branch (printTitle : Bool) (p : Pixel) : Branch :=
  if printTitle then
    if titleRegion.Contains p then .title
    else if enterRegion.Contains p then .enter
    else .background
  else if rangeRegion.Contains p then .range
  else if stateRegion.Contains p then .state
  else if scoreRegion.Contains p then .score
  else if numRegion.Contains p then .num
  else if nextRegion.Contains p then .next
  else if frameRegion.Contains p then .frame
  else .background

/-- `(DrawX - start)/20`, computed on 32 bits without sign. -/
def cellIndex (draw : BitVec 10) (start : BitVec 32) : BitVec 32 := (draw.setWidth 32 - start) / 20

def xreal (p : Pixel) : BitVec 32 := cellIndex p.drawX 300 + 1
def yreal (p : Pixel) : BitVec 32 := cellIndex p.drawY 30 + 1
def nextXreal (p : Pixel) : BitVec 32 := cellIndex p.drawX 170
def nextYreal (p : Pixel) : BitVec 32 := cellIndex p.drawY 230

/-- `color[r][c]`; `none` where `r` or `c` runs off the array. -/
def colorAt {h w : Nat} (color : Fin h → Fin w → BitVec 3) (r c : Nat) : Option (BitVec 3) :=
  if hr : r < h then if hc : c < w then some (color ⟨r, hr⟩ ⟨c, hc⟩) else none else none

def black : Rgb := ⟨0, 0, 0⟩
def white : Rgb := ⟨0xff, 0xff, 0xff⟩

def shade (number : Option (BitVec 3)) (mem : BitVec 24) : Rgb :=
  let hi := mem.extractLsb' 16 8
  let mid := mem.extractLsb' 8 8
  let lo := mem.extractLsb' 0 8
  match number with
  | some 0b001 => ⟨hi, mid, lo⟩
  | some 0b010 => ⟨hi, lo, mid⟩
  | some 0b011 => ⟨mid, hi, lo⟩
  | some 0b100 => ⟨mid, lo, hi⟩
  | some 0b101 => ⟨lo, mid, hi⟩
  | some 0b110 => ⟨lo, hi, mid⟩
  | some 0b111 => ⟨lo, mid, lo⟩
  | _ => black

def OnPiece (s : Screen) (p : Pixel) : Prop :=
  ∃ k, xreal p = (s.piece.x k).setWidth 32 ∧ yreal p = (s.piece.y k).setWidth 32

instance (s : Screen) (p : Pixel) : Decidable (OnPiece s p) := inferInstanceAs (Decidable (∃ _, _))

/-- A pixel of a character: bit `last - x/scale` of the row, where the characters are
`width` pixels wide. -/
def fontBit {n : Nat} (row : BitVec n) (draw : BitVec 10) (start width scale : BitVec 32) : Bool :=
  row.getLsbD (n - 1 - ((draw.setWidth 32 - start) % width / scale).toNat)

def rgbDisplay (s : Screen) (m : RomData) (p : Pixel) : Rgb :=
  match branch s.printTitle p with
  | .title => if fontBit m.tetrisRow p.drawX 224 32 4 then white else black
  | .enter => if fontBit m.enterRow p.drawX 80 24 3 then ⟨0xff, 0xff, 0⟩ else black
  | .range =>
    if OnPiece s p ∧ s.printOver = false then shade (some s.activeShape) m.colorFromMem
    else shade (colorAt s.outputColor (yreal p).toNat (xreal p).toNat) m.colorFromMem
  | .state =>
    if fontBit m.stateRow p.drawX 178 64 4 then
      if s.printOver then ⟨0xff, 0, 0⟩ else if s.printPause then ⟨0xff, 0xff, 0⟩ else ⟨0, 0xff, 0⟩
    else black
  | .score => if fontBit m.scoreRow p.drawX 170 16 2 then ⟨0xff, 0, 0xff⟩ else black
  | .num => if fontBit m.numRow p.drawX 178 16 2 then ⟨0, 0xff, 0⟩ else black
  | .next =>
    shade (colorAt s.nextColor (nextYreal p).toNat (nextXreal p).toNat) m.nextColorFromMem
  | .frame => white
  | .background => black

/-- The pixel is drawn from column `c`, row `r` of the well. -/
def LooksUp (s : Screen) (p : Pixel) (c r : Nat) : Prop :=
  branch s.printTitle p = .range ∧ (xreal p).toNat = c ∧ (yreal p).toNat = r

/-- The pixels that look up a cell are those of one square of 20 by 20. -/
def Tiled (s : Screen) (c r : Nat) : Prop :=
  ∃ x y, x + 20 ≤ 640 ∧ y + 20 ≤ 480 ∧ ∀ p, Visible p →
    (LooksUp s p c r ↔ p.drawX.toNat ∈ Set.Ico x (x + 20) ∧ p.drawY.toNat ∈ Set.Ico y (y + 20))

def InPlayfield (p : Pixel) : Prop :=
  (1 ≤ (xreal p).toNat ∧ (xreal p).toNat ≤ 10) ∧ (1 ≤ (yreal p).toNat ∧ (yreal p).toNat ≤ 20)

def InPreview (p : Pixel) : Prop := (nextXreal p).toNat < 4 ∧ (nextYreal p).toNat < 3

instance (p : Pixel) : Decidable (InPlayfield p) := inferInstanceAs (Decidable (_ ∧ _))
instance (p : Pixel) : Decidable (InPreview p) := inferInstanceAs (Decidable (_ ∧ _))

theorem rgbDisplay_of_looksUp {s : Screen} {p : Pixel} {c r : Nat} (h : LooksUp s p c r) (m : RomData) :
    rgbDisplay s m p =
      if (∃ k, (s.piece.x k).toNat = c ∧ (s.piece.y k).toNat = r) ∧ s.printOver = false then
        shade (some s.activeShape) m.colorFromMem
      else shade (colorAt s.outputColor r c) m.colorFromMem := by
  obtain ⟨hb, rfl, rfl⟩ := h
  have hwide (v : BitVec 32) (u : BitVec 6) : v = u.setWidth 32 ↔ u.toNat = v.toNat := by
    rw [← BitVec.toNat_inj, BitVec.toNat_setWidth, Nat.mod_eq_of_lt (by omega), eq_comm]
  simp only [rgbDisplay, hb, OnPiece, hwide]

theorem Region.contains_iff (g : Region) (p : Pixel) :
    g.Contains p ↔
      (g.xStart.toNat < p.drawX.toNat ∧ p.drawX.toNat ≤ g.xEnd.toNat) ∧
        (g.yStart.toNat < p.drawY.toNat ∧ p.drawY.toNat ≤ g.yEnd.toNat) := by
  have hx : (p.drawX.setWidth 32).toNat = p.drawX.toNat := BitVec.toNat_setWidth_of_le (by decide)
  have hy : (p.drawY.setWidth 32).toNat = p.drawY.toNat := BitVec.toNat_setWidth_of_le (by decide)
  rw [Region.Contains, BitVec.lt_def, BitVec.lt_def, BitVec.le_def, BitVec.le_def, hx, hy, and_assoc]

theorem cellIndex_toNat {draw : BitVec 10} {start : BitVec 32} (h : start.toNat < draw.toNat) :
    (cellIndex draw start).toNat = (draw.toNat - start.toNat) / 20 := by
  have hwide : (draw.setWidth 32).toNat = draw.toNat := BitVec.toNat_setWidth_of_le (by decide)
  have hdiff : (draw.setWidth 32 - start).toNat = draw.toNat - start.toNat := by
    rw [BitVec.toNat_sub_of_le (by rw [BitVec.le_def, hwide]; omega), hwide]
  rw [cellIndex, BitVec.toNat_udiv, hdiff]
  rfl

theorem branch_range_iff (p : Pixel) :
    branch false p = .range ↔
      (300 < p.drawX.toNat ∧ p.drawX.toNat ≤ 500) ∧ (30 < p.drawY.toNat ∧ p.drawY.toNat ≤ 430) := by
  have hregion : branch false p = .range ↔ rangeRegion.Contains p := by
    unfold branch
    split_ifs <;> simp_all
  exact hregion.trans (rangeRegion.contains_iff p)

theorem next_of_branch {p : Pixel} (h : branch false p = .next) :
    (170 < p.drawX.toNat ∧ p.drawX.toNat ≤ 250) ∧ (230 < p.drawY.toNat ∧ p.drawY.toNat ≤ 290) := by
  have hregion : nextRegion.Contains p := by
    unfold branch at h
    split_ifs at h <;> assumption
  exact (nextRegion.contains_iff p).1 hregion

theorem xreal_toNat {p : Pixel} (h : 300 < p.drawX.toNat) :
    (xreal p).toNat = (p.drawX.toNat - 300) / 20 + 1 := by
  have hcell : (cellIndex p.drawX 300).toNat = (p.drawX.toNat - 300) / 20 := cellIndex_toNat h
  have hone : (1 : BitVec 32).toNat = 1 := rfl
  rw [xreal, BitVec.toNat_add, hcell, hone, Nat.mod_eq_of_lt (by omega)]

theorem yreal_toNat {p : Pixel} (h : 30 < p.drawY.toNat) :
    (yreal p).toNat = (p.drawY.toNat - 30) / 20 + 1 := by
  have hcell : (cellIndex p.drawY 30).toNat = (p.drawY.toNat - 30) / 20 := cellIndex_toNat h
  have hone : (1 : BitVec 32).toNat = 1 := rfl
  rw [yreal, BitVec.toNat_add, hcell, hone, Nat.mod_eq_of_lt (by omega)]

section Playing
variable {s : Screen} (htitle : s.printTitle = false)
include htitle

theorem looksUp_iff (p : Pixel) (k j : Nat) :
    LooksUp s p (k + 1) (j + 1) ↔
      p.drawX.toNat ∈ lateCell 300 20 10 k ∧ p.drawY.toNat ∈ lateCell 30 20 20 j := by
  rw [LooksUp, htitle, branch_range_iff]
  constructor
  · intro h
    obtain ⟨⟨hx, hy⟩, hc, hr⟩ := h
    rw [xreal_toNat hx.1] at hc
    rw [yreal_toNat hy.1] at hr
    exact ⟨⟨hx, Nat.succ.inj hc⟩, hy, Nat.succ.inj hr⟩
  · intro h
    obtain ⟨⟨hx, hc⟩, hy, hr⟩ := h
    rw [xreal_toNat hx.1, yreal_toNat hy.1, hc, hr]
    exact ⟨⟨hx, hy⟩, rfl, rfl⟩

theorem tiled_iff {k j : Nat} (hk : k < 10) (hj : j < 20) :
    Tiled s (k + 1) (j + 1) ↔ k ≠ 0 ∧ j ≠ 0 := by
  constructor
  · intro h
    obtain ⟨x, y, hx, hy, hall⟩ := h
    have hmem (a b : Nat) (ha : a ∈ Set.Ico x (x + 20)) (hb : b ∈ Set.Ico y (y + 20)) :
        a ∈ lateCell 300 20 10 k ∧ b ∈ lateCell 30 20 20 j := by
      have haw : a < 640 := by have := ha.2; omega
      have hbw : b < 480 := by have := hb.2; omega
      have hvisible : Visible ⟨BitVec.ofNat 10 a, BitVec.ofNat 10 b⟩ := by
        constructor <;> simp [BitVec.lt_def, BitVec.toNat_ofNat] <;> omega
      have hcell := hall _ hvisible
      rw [looksUp_iff htitle] at hcell
      simp only [BitVec.toNat_ofNat, Nat.mod_eq_of_lt (show a < 2 ^ 10 by omega),
        Nat.mod_eq_of_lt (show b < 2 ^ 10 by omega)] at hcell
      exact hcell.2 ⟨ha, hb⟩
    have hx0 : x ∈ Set.Ico x (x + 20) := ⟨Nat.le_refl x, by omega⟩
    have hy0 : y ∈ Set.Ico y (y + 20) := ⟨Nat.le_refl y, by omega⟩
    constructor
    · intro h0
      subst h0
      exact not_ico_subset_lateCell_zero (by decide) hk x fun a ha => (hmem a y ha hy0).1
    · intro h0
      subst h0
      exact not_ico_subset_lateCell_zero (by decide) hj y fun b hb => (hmem x b hx0 hb).2
  · intro h
    refine ⟨300 + 20 * k, 30 + 20 * j, by omega, by omega, fun p _ => ?_⟩
    rw [looksUp_iff htitle, lateCell_eq (by decide) hk h.1, lateCell_eq (by decide) hj h.2]

end Playing

/-- A cell has the pixels of one full square unless it lies in the first column or row.
A pixel shows a cell of the playfield, or of the preview, unless it lies in the last
column or row of pixels of that region. -/
theorem tiling_faithful_iff {s : Screen} (htitle : s.printTitle = false) :
    (∀ c r, 1 ≤ c ∧ c ≤ 10 → 1 ≤ r ∧ r ≤ 20 → (Tiled s c r ↔ c ≠ 1 ∧ r ≠ 1)) ∧
    (∀ p, Visible p → branch s.printTitle p = .range →
      (InPlayfield p ↔ p.drawX ≠ 500 ∧ p.drawY ≠ 430)) ∧
    (∀ p, Visible p → branch s.printTitle p = .next →
      (InPreview p ↔ p.drawX ≠ 250 ∧ p.drawY ≠ 290)) := by
  have hne (v : BitVec 10) (n : Nat) (hn : n < 1024) : v ≠ BitVec.ofNat 10 n ↔ v.toNat ≠ n := by
    rw [not_iff_not, ← BitVec.toNat_inj, BitVec.toNat_ofNat, Nat.mod_eq_of_lt hn]
  rw [htitle]
  refine ⟨fun c r hc hr => ?_, fun p _ hb => ?_, fun p _ hb => ?_⟩
  · obtain ⟨k, rfl⟩ := Nat.exists_eq_add_of_le' hc.1
    obtain ⟨j, rfl⟩ := Nat.exists_eq_add_of_le' hr.1
    rw [tiled_iff htitle (by omega) (by omega)]
    omega
  · obtain ⟨hx, hy⟩ := (branch_range_iff p).1 hb
    have hcol := late_lt_iff (a := 300) (n := 20) (m := 10) (by decide) hx
    have hrow := late_lt_iff (a := 30) (n := 20) (m := 20) (by decide) hy
    rw [InPlayfield, xreal_toNat hx.1, yreal_toNat hy.1]
    refine Iff.trans ?_ (and_congr (hcol.trans (hne p.drawX 500 (by decide)).symm)
      (hrow.trans (hne p.drawY 430 (by decide)).symm))
    omega
  · obtain ⟨hx, hy⟩ := next_of_branch hb
    have hcol := late_lt_iff (a := 170) (n := 20) (m := 4) (by decide) hx
    have hrow := late_lt_iff (a := 230) (n := 20) (m := 3) (by decide) hy
    have hxreal : (nextXreal p).toNat = (p.drawX.toNat - 170) / 20 := cellIndex_toNat hx.1
    have hyreal : (nextYreal p).toNat = (p.drawY.toNat - 230) / 20 := cellIndex_toNat hy.1
    rw [InPreview, hxreal, hyreal]
    exact and_congr (hcol.trans (hne p.drawX 250 (by decide)).symm)
      (hrow.trans (hne p.drawY 290 (by decide)).symm)

def flatI : Screen where
  piece := ⟨![4, 5, 6, 7], ![1, 1, 1, 1]⟩
  activeShape := 0b001
  outputColor := fun _ _ => 0
  nextColor := fun _ _ => 0
  printPause := false
  printOver := false
  printTitle := false

theorem flatI_tiling_faithful_iff :
    (∀ c r, 1 ≤ c ∧ c ≤ 10 → 1 ≤ r ∧ r ≤ 20 → (Tiled flatI c r ↔ c ≠ 1 ∧ r ≠ 1)) ∧
    (∀ p, Visible p → branch flatI.printTitle p = .range →
      (InPlayfield p ↔ p.drawX ≠ 500 ∧ p.drawY ≠ 430)) ∧
    (∀ p, Visible p → branch flatI.printTitle p = .next →
      (InPreview p ↔ p.drawX ≠ 250 ∧ p.drawY ≠ 290)) :=
  tiling_faithful_iff rfl

theorem flatI_misdrawn : ∃ (s : Screen) (p q : Pixel), s.printTitle = false ∧ ¬ Tiled s 1 1 ∧
    (Visible p ∧ branch s.printTitle p = .range ∧ ¬ InPlayfield p) ∧
    Visible q ∧ branch s.printTitle q = .next ∧ ¬ InPreview q := by
  refine ⟨flatI, ⟨500, 430⟩, ⟨250, 290⟩, rfl, fun htiled => ?_, by decide, by decide⟩
  exact ((tiled_iff rfl (k := 0) (j := 0) (by decide) (by decide)).1 htiled).1 rfl

end Tetris
