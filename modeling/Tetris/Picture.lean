import Tetris.ColorMapper
import Tetris.Game

/-! The picture of the well shows the game that is played. -/
namespace Tetris
open Machine
open Blocks (Kit)

/-- The outputs of `blocklogic` that are drawn. -/
def screenOf (g : Regs) : Screen where
  piece := g.toPiece
  activeShape := g.currentShape
  outputColor := g.colorStatic
  nextColor := g.nextColorStatic
  printPause := decide (g.state = .pause)
  printOver := decide (g.state = .gameOver)
  printTitle := decide (g.state = .start)

theorem shade_field {g : Regs} (h : Drawn g) (i : Fin 21) (j : Fin 10) (mem : BitVec 24) :
    shade (colorAt g.colorStatic i.val (j.val + 1)) mem = shade (fieldOf g i j) mem := by
  have hi : i.val < 22 := by omega
  have hj : j.val + 1 < 12 := by omega
  have hcolor : colorAt g.colorStatic i.val (j.val + 1) =
      some (g.colorStatic i.castSucc ⟨j.val + 1, hj⟩) := by
    rw [colorAt, dif_pos hi, dif_pos hj]
    rfl
  have hrow : i.castSucc.val ≤ 20 := by rw [Fin.val_castSucc]; omega
  have hagree := h i.castSucc hrow ⟨j.val + 1, hj⟩ (by dsimp only; omega) (by dsimp only; omega)
  rw [hcolor]
  change _ = shade (if (g.coordStatic i.castSucc).getLsbD (j.val + 1) = true then _ else none) mem
  split_ifs with hbit
  · rfl
  · have hblack : g.colorStatic i.castSucc ⟨j.val + 1, hj⟩ = 0 := by
      by_contra hne
      exact hbit (hagree.1 hne)
    rw [hblack]
    rfl

theorem pixel_shows_scene {g : Regs} (h : InGame g) (hst : g.currentShape ≠ 0 ∨ g.state = .gameOver)
    (m : RomData) {p : Pixel} {i : Fin 21} {j : Fin 10}
    (hp : LooksUp (screenOf g) p (j.val + 1) i.val) :
    rgbDisplay (screenOf g) m p = shade (kit.scene (gameOf g) i j) m.colorFromMem := by
  have hclear (k : Fin 4) (stage : Fin 5) : g.state ≠ .clear k stage := by
    intro hclear
    cases hst with
    | inl hne => exact hne (h.idle (Or.inr ⟨k, stage, hclear⟩))
    | inr hover => simp [hclear] at hover
  have hdrawn : Drawn g := by
    have hend := h.drawn
    rwa [passEnd_of_not_clear hclear] at hend
  have hfield := shade_field hdrawn i j m.colorFromMem
  rw [rgbDisplay_of_looksUp hp]
  by_cases hover : g.state = .gameOver
  · have hprint : ¬ (screenOf g).printOver = false := by simp [screenOf, hover]
    rw [if_neg fun hc => hprint hc.2, gameOf_of_not_clear hclear, blockOf_of_zero (h.ended hover)]
    exact hfield
  · have hne : g.currentShape ≠ 0 := hst.resolve_right hover
    have hnew : g.state ≠ .newBlock := fun hnew => hne (h.idle (Or.inl hnew))
    obtain ⟨s, hcode, hheld⟩ := (h.held hnew).resolve_left hne
    have hcovered := covered_iff hheld i j
    have hprint : (screenOf g).printOver = false := by simp [screenOf, hover]
    rw [gameOf_of_code hclear hcode]
    change _ = shade (Blocks.paint (fieldOf g) (kit.cells (blockAt s g)) (kit.colour s) i j) _
    unfold Blocks.paint
    simp only [hcovered, hprint, and_true]
    by_cases hpiece : ∃ k, (g.y k).toNat = i.val ∧ (g.x k).toNat = j.val + 1
    · obtain ⟨k, hy, hx⟩ := hpiece
      rw [if_pos ⟨k, hx, hy⟩, if_pos ⟨k, hy, hx⟩]
      exact congrArg (fun v => shade (some v) _) hcode
    · rw [if_neg hpiece, if_neg fun hex => hpiece (hex.imp fun k hk => hk.symm)]
      exact hfield

theorem picture_shows_the_game {g : Regs} (h : Restarted g) {is : List Input}
    (hok : Throughout step Faultless g is) :
    let t := run step g is
    let G := run kit.play ⟨Blocks.blank, none, 0⟩ (trace step moveOf g is)
    (t.currentShape ≠ 0 ∨ t.state = .gameOver) →
      ∀ (m : RomData) (p : Pixel) (i : Fin 21) (j : Fin 10),
        LooksUp (screenOf t) p (j.val + 1) i.val →
          rgbDisplay (screenOf t) m p = shade (kit.scene G i j) m.colorFromMem := by
  intro t G hst m p i j hp
  have hgame : gameOf t = G := by
    rw [simulates.run h.inGame is hok, h.gameOf_eq]
  rw [← hgame]
  exact pixel_shows_scene (simulates.inv h.inGame is hok) hst m hp

end Tetris
