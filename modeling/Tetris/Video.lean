import Tetris.Digits
import Tetris.Picture
import Tetris.VideoTiming

/-! The display as a whole: the VGA controller scans, its `VGA_VS` clocks the game, and
two ROMs supply the texture one clock late. -/
namespace Tetris
open Machine Raster

/-- `(DrawX - Xstart) % 20`, kept in six bits. -/
def offset20 (draw : BitVec 10) (start : BitVec 32) : BitVec 6 :=
  ((draw.setWidth 32 - start) % 20).setWidth 6

def texel (xadd yadd : BitVec 6) : BitVec 19 := (xadd.setWidth 32 + 20 * yadd.setWidth 32).setWidth 19

def address (p : Pixel) : BitVec 19 := texel (offset20 p.drawX 300) (offset20 p.drawY 30)
def nextAddress (p : Pixel) : BitVec 19 := texel (offset20 p.drawX 170) (offset20 p.drawY 230)

/-- `mem[read_address]`; the 400 words are the texture of one cell. -/
def frameROM (mem : Fin 400 → BitVec 24) (a : BitVec 19) : BitVec 24 :=
  if h : a.toNat < 400 then mem ⟨a.toNat, h⟩ else 0

/-- The glyph ROMs, which are not clocked, but for that of the digits. -/
structure Fonts where
  tetris : BitVec 6 → BitVec 8
  enter : BitVec 8 → BitVec 8
  state : BitVec 6 → BitVec 16
  score : BitVec 6 → BitVec 8

/-- `count * rows + y`, where `count` is kept in `k` bits and the sum in `w`. -/
def fontAddr (k w : Nat) (rows count y : BitVec 32) : BitVec w :=
  ((count.setWidth k).setWidth 32 * rows + y).setWidth w

def tetrisAddr (p : Pixel) : BitVec 6 :=
  fontAddr 3 6 10 ((p.drawX.setWidth 32 - 224) / 32) ((p.drawY.setWidth 32 - 100) % 40 / 4)

def enterAddr (p : Pixel) : BitVec 8 :=
  fontAddr 5 8 10 ((p.drawX.setWidth 32 - 80) / 24) ((p.drawY.setWidth 32 - 300) % 30 / 3)

def scoreAddr (p : Pixel) : BitVec 6 :=
  fontAddr 4 6 10 ((p.drawX.setWidth 32 - 170) / 16) ((p.drawY.setWidth 32 - 30) % 20 / 2)

def stateCount (s : Screen) : BitVec 32 := if s.printOver then 0 else if s.printPause then 1 else 2

def stateAddr (s : Screen) (p : Pixel) : BitVec 6 :=
  fontAddr 2 6 16 (stateCount s) ((p.drawY.setWidth 32 - 366) % 64 / 4)

/-- The registers of the display, all clocked by `VGA_CLK` but those of the game. -/
structure Video where
  vga : VgaController
  game : Regs
  colorFromMem : BitVec 24
  nextColorFromMem : BitVec 24

def Video.pixel (v : Video) : Pixel := ⟨v.vga.hCounter, v.vga.vCounter⟩

def Video.romData (fonts : Fonts) (v : Video) : RomData where
  colorFromMem := v.colorFromMem
  nextColorFromMem := v.nextColorFromMem
  tetrisRow := fonts.tetris (tetrisAddr v.pixel)
  enterRow := fonts.enter (enterAddr v.pixel)
  stateRow := fonts.state (stateAddr (screenOf v.game) v.pixel)
  scoreRow := fonts.score (scoreAddr v.pixel)
  numRow := numRow v.game.currentScore v.pixel

def Video.rgb (fonts : Fonts) (v : Video) : Rgb :=
  rgbDisplay (screenOf v.game) (v.romData fonts) v.pixel

/-- `Reset_h` and `Reset_Ball`; the output registers of the ROMs have no reset. -/
def videoReset (color nextColor : BitVec 24) : Video := ⟨vgaReset, resetRegs, color, nextColor⟩

/-- One rising edge of `VGA_CLK`. Where `VGA_VS` rises with it, the game makes a step. -/
def Video.clock (mem : Fin 400 → BitVec 24) (v : Video) (i : Input) : Video :=
  let vga := Tetris.clock v.vga
  { vga := vga
    game := if v.vga.vs = false ∧ vga.vs = true then step v.game i else v.game
    colorFromMem := frameROM mem (address v.pixel)
    nextColorFromMem := frameROM mem (nextAddress v.pixel) }

section Run
variable (mem : Fin 400 → BitVec 24) (inputs : Nat → Input) (v₀ : Video)

theorem after_vga (h₀ : v₀.vga = vgaReset) (n : Nat) : (after (Video.clock mem) inputs v₀ n).vga = edges n := by
  induction n with
  | zero => exact h₀
  | succ n ih =>
    rw [edges_succ, ← ih]
    rfl

instance (n : Nat) : Decidable (Rises n) := inferInstanceAs (Decidable (_ ∧ _))

theorem after_game (h₀ : v₀.vga = vgaReset) (n : Nat) : (after (Video.clock mem) inputs v₀ n).game =
    after step (fun j => inputs (Nat.nth Rises j)) v₀.game (Nat.count Rises n) := by
  refine after_gated step (s := fun n => (after (Video.clock mem) inputs v₀ n).game) (fun n => ?_) n
  have hrises : Rises n ↔ (after (Video.clock mem) inputs v₀ n).vga.vs = false ∧
      (Tetris.clock (after (Video.clock mem) inputs v₀ n).vga).vs = true := by
    rw [after_vga mem inputs v₀ h₀, ← edges_succ]
    rfl
  change (if _ then _ else _) = _
  simp only [hrises]

end Run

/-- `VGA_VS` rises first as it leaves its reset value, and then once in a frame. -/
theorem count_rises {n : Nat} (hn : 1 ≤ n) : Nat.count Rises n = (n + 26400) / 420000 + 1 := by
  induction n with
  | zero => omega
  | succ n ih =>
    rw [Nat.count_succ]
    by_cases h0 : n = 0
    · subst h0
      have hfirst : Rises 0 := by decide
      rw [if_pos hfirst, Nat.count_zero]
    · have hrises : Rises n ↔ n % 420000 = 393599 := by
        rw [rises_iff (by omega), pos_eq_iff (by decide)]
      rw [ih (by omega)]
      by_cases hrise : n % 420000 = 393599
      · rw [if_pos (hrises.2 hrise)]
        omega
      · rw [if_neg fun h => hrise (hrises.1 h)]
        omega

theorem offset20_toNat {draw : BitVec 10} {start : BitVec 32} (h : start.toNat ≤ draw.toNat) :
    (offset20 draw start).toNat = (draw.toNat - start.toNat) % 20 := by
  have h20 : (20 : BitVec 32).toNat = 20 := rfl
  rw [offset20, BitVec.toNat_setWidth, BitVec.toNat_umod, toNat_sub_start h, h20]
  omega

theorem offset20_lt (draw : BitVec 10) (start : BitVec 32) : (offset20 draw start).toNat < 20 := by
  have h20 : (20 : BitVec 32).toNat = 20 := rfl
  rw [offset20, BitVec.toNat_setWidth, BitVec.toNat_umod, h20]
  omega

theorem texel_toNat {x y : BitVec 6} (hx : x.toNat < 20) (hy : y.toNat < 20) :
    (texel x y).toNat = x.toNat + 20 * y.toNat := by
  have h20 : (20 : BitVec 32).toNat = 20 := rfl
  simp only [texel, BitVec.toNat_setWidth, BitVec.toNat_add, BitVec.toNat_mul, h20]
  omega

theorem texel_lt (p : Pixel) (xs ys : BitVec 32) :
    (texel (offset20 p.drawX xs) (offset20 p.drawY ys)).toNat < 400 := by
  have hx := offset20_lt p.drawX xs
  have hy := offset20_lt p.drawY ys
  rw [texel_toNat hx hy]
  omega

def textureAt (mem : Fin 400 → BitVec 24) (c r : Nat) : BitVec 24 := mem (Fin.ofNat 400 (c + 20 * r))

theorem frameROM_texel (mem : Fin 400 → BitVec 24) {p : Pixel} {xs ys : BitVec 32}
    (hx : xs.toNat ≤ p.drawX.toNat) (hy : ys.toNat ≤ p.drawY.toNat) :
    frameROM mem (texel (offset20 p.drawX xs) (offset20 p.drawY ys)) =
      textureAt mem ((p.drawX.toNat - xs.toNat) % 20) ((p.drawY.toNat - ys.toNat) % 20) := by
  have hlt := texel_lt p xs ys
  rw [frameROM, dif_pos hlt]
  refine congrArg mem (Fin.ext ?_)
  change (texel _ _).toNat = (_ + 20 * _) % 400
  rw [Nat.mod_eq_of_lt (by omega), texel_toNat (offset20_lt _ _) (offset20_lt _ _), offset20_toNat hx,
    offset20_toNat hy]

def alwaysI : Input := { nextShape := 1, enter := true, fromSwSig := true }

def plainTile : Fin 400 → BitVec 24 := fun _ => 0x2e3a40

section Drawn
variable (mem : Fin 400 → BitVec 24) (inputs : Nat → Input) (color nextColor : BitVec 24)

theorem video_pixel (n : Nat) :
    let p := (after (Video.clock mem) inputs (videoReset color nextColor) n).pixel
    p.drawX.toNat = n % 800 ∧ p.drawY.toNat = n / 800 % 525 := by
  have hvga := after_vga mem inputs (videoReset color nextColor) rfl n
  have hdraw := edges_draw n
  unfold Video.pixel
  rw [hvga]
  exact ⟨congrArg Prod.fst hdraw, congrArg Prod.snd hdraw⟩

theorem texture_late (xs ys : BitVec 32) {n : Nat} (hx : xs.toNat < n % 800)
    (hy : ys.toNat ≤ n / 800 % 525) :
    let v := after (Video.clock mem) inputs (videoReset color nextColor) (n - 1)
    frameROM mem (texel (offset20 v.pixel.drawX xs) (offset20 v.pixel.drawY ys)) =
      textureAt mem ((n % 800 - (xs.toNat + 1)) % 20) ((n / 800 % 525 - ys.toNat) % 20) := by
  intro v
  obtain ⟨hpx, hpy⟩ : v.pixel.drawX.toNat = (n - 1) % 800 ∧ v.pixel.drawY.toNat = (n - 1) / 800 % 525 :=
    video_pixel mem inputs color nextColor (n - 1)
  have hcol : (n - 1) % 800 = n % 800 - 1 := by omega
  have hrow : (n - 1) / 800 = n / 800 := by omega
  rw [hcol] at hpx
  rw [hrow] at hpy
  rw [frameROM_texel mem (by omega) (by omega), hpx, hpy, Nat.sub_sub, Nat.add_comm 1]

theorem blankN_iff {n : Nat} (hn : 1 ≤ n) :
    (after (Video.clock mem) inputs (videoReset color nextColor) n).vga.blankN = true ↔
      n % 800 < 640 ∧ n % 420000 / 800 < 480 := by
  obtain ⟨-, -, -, -, hvisible⟩ := edges_closed hn
  rw [after_vga mem inputs (videoReset color nextColor) rfl, hvisible]
  omega

theorem game_at_line {n : Nat} (hn : 1 ≤ n) (hline : n % 420000 / 800 < 480) :
    (after (Video.clock mem) inputs (videoReset color nextColor) n).game =
      after step (fun j => inputs (Nat.nth Rises j)) resetRegs (n / 420000 + 1) := by
  have hframe : (n + 26400) / 420000 = n / 420000 := by omega
  rw [after_game mem inputs (videoReset color nextColor) rfl n, count_rises hn, hframe]
  rfl

/-- Of each frame, all visible pixels are drawn from one state of the game: in frame `k`
from the one after `k + 1` steps. -/
theorem frame_drawn_from_one_state {n : Nat} (hn : 1 ≤ n)
    (hblank : (after (Video.clock mem) inputs (videoReset color nextColor) n).vga.blankN = true) :
    let v := after (Video.clock mem) inputs (videoReset color nextColor) n
    v.pixel.drawX.toNat = n % 800 ∧ v.pixel.drawY.toNat = n % 420000 / 800 ∧
      v.game = after step (fun j => inputs (Nat.nth Rises j)) resetRegs (n / 420000 + 1) := by
  intro v
  obtain ⟨hx, hy⟩ : v.pixel.drawX.toNat = n % 800 ∧ v.pixel.drawY.toNat = n / 800 % 525 :=
    video_pixel mem inputs color nextColor n
  have hline := ((blankN_iff mem inputs color nextColor hn).1 hblank).2
  exact ⟨hx, by omega, game_at_line mem inputs color nextColor hn hline⟩

theorem row_40_drawn_from_one_state :
    let v := after (Video.clock plainTile) (fun _ => alwaysI) (videoReset 0 0) 2132370
    v.pixel.drawX.toNat = 2132370 % 800 ∧ v.pixel.drawY.toNat = 2132370 % 420000 / 800 ∧
      v.game = after step (fun j => (fun _ => alwaysI) (Nat.nth Rises j)) resetRegs (2132370 / 420000 + 1) :=
  frame_drawn_from_one_state plainTile (fun _ => alwaysI) 0 0 (by decide)
    ((blankN_iff plainTile _ 0 0 (by decide)).2 (by decide))

theorem colors_late {n : Nat} (hn : 1 ≤ n) :
    let v := after (Video.clock mem) inputs (videoReset color nextColor) n
    let u := after (Video.clock mem) inputs (videoReset color nextColor) (n - 1)
    v.colorFromMem = frameROM mem (address u.pixel) ∧ v.nextColorFromMem = frameROM mem (nextAddress u.pixel) := by
  obtain ⟨m, rfl⟩ := Nat.exists_eq_add_of_le' hn
  exact ⟨rfl, rfl⟩

theorem range_texture_late {n : Nat} :
    let v := after (Video.clock mem) inputs (videoReset color nextColor) n
    branch false v.pixel = .range → v.colorFromMem =
      textureAt mem ((v.pixel.drawX.toNat - 301) % 20) ((v.pixel.drawY.toNat - 30) % 20) := by
  intro v hb
  obtain ⟨hx, hy⟩ : v.pixel.drawX.toNat = n % 800 ∧ v.pixel.drawY.toNat = n / 800 % 525 :=
    video_pixel mem inputs color nextColor n
  obtain ⟨hcol, hrow⟩ := (branch_range_iff _).1 hb
  rw [hx, hy, (colors_late mem inputs color nextColor (by omega)).1]
  exact texture_late mem inputs color nextColor 300 30 (by change 300 < _; omega) (by change 30 ≤ _; omega)

theorem next_texture_late {n : Nat} :
    let v := after (Video.clock mem) inputs (videoReset color nextColor) n
    branch false v.pixel = .next → v.nextColorFromMem =
      textureAt mem ((v.pixel.drawX.toNat - 171) % 20) ((v.pixel.drawY.toNat - 230) % 20) := by
  intro v hb
  obtain ⟨hx, hy⟩ : v.pixel.drawX.toNat = n % 800 ∧ v.pixel.drawY.toNat = n / 800 % 525 :=
    video_pixel mem inputs color nextColor n
  obtain ⟨hcol, hrow⟩ := next_of_branch hb
  rw [hx, hy, (colors_late mem inputs color nextColor (by omega)).2]
  exact texture_late mem inputs color nextColor 170 230 (by change 170 < _; omega) (by change 230 ≤ _; omega)

/-- The texture words in use are those of columns that begin at `DrawX` 301 in the well, and
at 171 in the preview. -/
def OnePixelLate (mem : Fin 400 → BitVec 24) (v : Video) : Prop :=
  (branch false v.pixel = .range → v.colorFromMem =
    textureAt mem ((v.pixel.drawX.toNat - 301) % 20) ((v.pixel.drawY.toNat - 30) % 20)) ∧
  (branch false v.pixel = .next → v.nextColorFromMem =
    textureAt mem ((v.pixel.drawX.toNat - 171) % 20) ((v.pixel.drawY.toNat - 230) % 20))

/-- The texture comes one pixel late: the squares drawn begin at 300 and 170. -/
theorem texture_one_pixel_late (n : Nat) :
    OnePixelLate mem (after (Video.clock mem) inputs (videoReset color nextColor) n) :=
  ⟨range_texture_late mem inputs color nextColor, next_texture_late mem inputs color nextColor⟩

/-- The edge after which the scan is at pixel `p` of frame `k`. -/
def edgeAt (k : Nat) (p : Pixel) : Nat := 420000 * k + 800 * p.drawY.toNat + p.drawX.toNat

theorem pixel_edgeAt (k : Nat) {p : Pixel} (hp : Visible p) :
    (after (Video.clock mem) inputs (videoReset color nextColor) (edgeAt k p)).pixel = p := by
  obtain ⟨hx, hy⟩ := video_pixel mem inputs color nextColor (edgeAt k p)
  have hcol : p.drawX.toNat < 640 := BitVec.lt_def.1 hp.1
  have hrow : p.drawY.toNat < 480 := BitVec.lt_def.1 hp.2
  unfold edgeAt at hx hy
  refine congrArg₂ Pixel.mk (BitVec.eq_of_toNat_eq (hx.trans ?_)) (BitVec.eq_of_toNat_eq (hy.trans ?_)) <;>
    omega

/-- What comes out of the colour outputs at a pixel of the well is what the game that is
played has in that cell, painted with the texture. -/
theorem monitor_shows_the_game (fonts : Fonts) {g : Regs} (h : Restarted g) {is : List Input}
    (hok : Throughout step Faultless g is) {k : Nat}
    (hk : after step (fun j => inputs (Nat.nth Rises j)) resetRegs (k + 1) = run step g is)
    (hplay : (run step g is).currentShape ≠ 0 ∨ (run step g is).state = .gameOver)
    {p : Pixel} (hvisible : Visible p) {i : Fin 21} {j : Fin 10}
    (hp : LooksUp (screenOf (run step g is)) p (j.val + 1) i.val) :
    (after (Video.clock mem) inputs (videoReset color nextColor) (edgeAt k p)).rgb fonts =
      shade (kit.scene (run kit.play ⟨Blocks.blank, none, 0⟩ (trace step moveOf g is)) i j)
        (textureAt mem ((p.drawX.toNat - 301) % 20) ((p.drawY.toNat - 30) % 20)) := by
  have hpixel := pixel_edgeAt mem inputs color nextColor k hvisible
  have hcol : p.drawX.toNat < 640 := BitVec.lt_def.1 hvisible.1
  have hrow : p.drawY.toNat < 480 := BitVec.lt_def.1 hvisible.2
  have htitle : (screenOf (run step g is)).printTitle = false :=
    decide_eq_false (simulates.inv h.inGame is hok).well.started
  have hb : branch false p = .range := by
    have hrange := hp.1
    rwa [htitle] at hrange
  have hinside := ((branch_range_iff p).1 hb).1.1
  have hone : 1 ≤ edgeAt k p := by unfold edgeAt; omega
  have hframe : edgeAt k p / 420000 = k := by unfold edgeAt; omega
  have hgame := game_at_line mem inputs color nextColor hone (by unfold edgeAt; omega)
  rw [hframe, hk] at hgame
  have htexture := range_texture_late mem inputs color nextColor (n := edgeAt k p)
  dsimp only at htexture
  rw [hpixel] at htexture
  unfold Video.rgb
  rw [hgame, hpixel, picture_shows_the_game h hok hplay _ p i j hp]
  exact congrArg (shade _) (htexture hb)

end Drawn

def startedGame : Regs := step (step resetRegs alwaysI) alwaysI

def noFonts : Fonts := ⟨fun _ => 0, fun _ => 0, fun _ => 0, fun _ => 0⟩

theorem first_I_on_the_monitor :
    (after (Video.clock plainTile) (fun _ => alwaysI) (videoReset 0 0) (edgeAt 5 ⟨370, 40⟩)).rgb noFonts =
      shade (kit.scene (run kit.play ⟨Blocks.blank, none, 0⟩
          (trace step moveOf startedGame (List.replicate 4 alwaysI))) (1 : Fin 21) (3 : Fin 10))
        (textureAt plainTile (((370 : BitVec 10).toNat - 301) % 20) (((40 : BitVec 10).toNat - 30) % 20)) := by
  refine monitor_shows_the_game plainTile (fun _ => alwaysI) 0 0 noFonts (g := startedGame)
    (k := 5) (p := ⟨370, 40⟩) (i := 1) (j := 3) ⟨_, alwaysI, rfl, rfl⟩
    (by decide) rfl (Or.inl (by decide)) (by decide) ⟨by decide, by decide, by decide⟩

end Tetris
