import Tetris.Well

/-! The score registers over whole runs: the best score, and a score that overflows. -/
namespace Tetris
open Machine

theorem gameOver_best (g : Regs) :
    (gameOver g).currentBest.toNat = max g.currentScore.toNat g.currentBest.toNat := by
  unfold gameOver
  split_ifs with h
  · exact (max_eq_left (BitVec.lt_def.1 h).le).symm
  · exact (max_eq_right (BitVec.le_def.1 (BitVec.not_lt.1 h))).symm

theorem step_best (g : Regs) (i : Input) :
    (step g i).currentBest.toNat =
      if g.state = .gameOver then max g.currentScore.toNat g.currentBest.toNat
      else g.currentBest.toNat := by
  change (datapath g i).currentBest.toNat = _
  split_ifs with hover
  · simp only [datapath, hover]
    exact gameOver_best g
  · have hkept : (datapath g i).currentBest = g.currentBest :=
      datapath_keeps (r := .best) (fun h => hover (best_writers _ h)) i
    rw [hkept]

/-- Over any number of games, the best score is the largest of 0 and the scores at the
`GAMEOVER` cycles so far, and it never decreases. -/
theorem best_is_greatest (is : List Input) :
    let g := run step resetRegs is
    IsGreatest
        (insert 0 (Earlier step (fun g => g.state = .gameOver) (fun g => g.currentScore.toNat)
          resetRegs is))
        g.currentBest.toNat ∧
      ∀ i, g.currentBest ≤ (step g i).currentBest := by
  intro g
  constructor
  · exact isGreatest_earlier (b := fun g => g.currentBest.toNat) step_best resetRegs is
  · intro i
    rw [BitVec.le_def, step_best]
    split_ifs
    · exact le_max_right _ _
    · exact le_rfl

def gain (g : Regs) : BitVec 8 :=
  match g.state with
  | .clear _ 4 => g.accu
  | _ => 0

/-- The points of a run, counted without bound. -/
def points : Regs → List Input → Nat
  | _, [] => 0
  | g, i :: is => (gain g).toNat + points (step g i) is

/-- Hardware `Reset`, or a `RESET` step. -/
def GameBegins (g : Regs) : Prop := g = resetRegs ∨ ∃ g₀ i, g₀.state = .reset ∧ g = step g₀ i

theorem gain_of_ne {g : Regs} (h : ∀ k, g.state ≠ .clear k 4) : gain g = 0#8 := by
  unfold gain
  split
  · next k hst => exact absurd hst (h k)
  · rfl

theorem step_score {g : Regs} (hreset : g.state ≠ .reset) (i : Input) :
    (step g i).currentScore = g.currentScore + gain g := by
  change (datapath g i).currentScore = _
  by_cases hclear : ∃ k, g.state = .clear k 4
  · obtain ⟨k, hst⟩ := hclear
    simp only [datapath, gain, hst, clear, clearLast]
  · have hno : .score ∉ g.state.writes := fun h => (score_writers _ h).elim hreset hclear
    rw [gain_of_ne (not_exists.1 hclear), BitVec.add_zero]
    exact datapath_keeps hno i

theorem le_add_iff {s v : BitVec 8} : s ≤ s + v ↔ s.toNat + v.toNat ≤ 255 := by
  rw [BitVec.le_def, BitVec.toNat_add]
  omega

theorem GameBegins.score {g : Regs} (h : GameBegins g) : g.currentScore = 0 := by
  cases h with
  | inl hinit =>
    subst hinit
    rfl
  | inr hreset =>
    obtain ⟨g₀, i, hst, rfl⟩ := hreset
    simp only [step, datapath, hst, reset]

theorem score_falls_not_iff {g : Regs} {is : List Input}
    (hno : Throughout step (fun t _ => t.state ≠ .reset) g is) :
    Throughout step (fun t i => t.currentScore ≤ (step t i).currentScore ∧
        ∀ k, t.state = .clear k 4 → t.currentScore.toNat + t.accu.toNat ≤ 255) g is ↔
      g.currentScore.toNat + points g is ≤ 255 := by
  induction is generalizing g with
  | nil => exact iff_of_true trivial (by have := g.currentScore.isLt; simp only [points]; omega)
  | cons i is ih =>
    have hscore := step_score hno.1 i
    have hhead : (g.currentScore ≤ (step g i).currentScore ∧
        ∀ k, g.state = .clear k 4 → g.currentScore.toNat + g.accu.toNat ≤ 255) ↔
          g.currentScore.toNat + (gain g).toNat ≤ 255 := by
      rw [hscore, le_add_iff, and_iff_left_iff_imp]
      intro hle k hst
      simpa only [gain, hst] using hle
    refine (and_congr hhead (ih hno.2)).trans ?_
    rw [hscore, BitVec.toNat_add]
    simp only [points]
    omega

/-- In a game of any length the score never falls, and `current_score + accu` fits into
eight bits at every `CLEARk_5`, exactly if no more than 255 points are made. -/
theorem score_never_falls_iff {g : Regs} (hg : GameBegins g) {is : List Input}
    (hno : Throughout step (fun t _ => t.state ≠ .reset) g is) :
    Throughout step (fun t i => t.currentScore ≤ (step t i).currentScore ∧
        ∀ k, t.state = .clear k 4 → t.currentScore.toNat + t.accu.toNat ≤ 255) g is ↔
      points g is ≤ 255 := by
  have hzero : g.currentScore.toNat = 0 := congrArg BitVec.toNat hg.score
  rw [score_falls_not_iff hno, hzero, Nat.zero_add]

def addScore (v : BitVec 8) (g : Regs) : Regs := { g with currentScore := g.currentScore + v }

theorem addScore_add (v w : BitVec 8) (g : Regs) : addScore v (addScore w g) = addScore (w + v) g := by
  simp only [addScore, BitVec.add_assoc]

theorem addScore_eq (v : BitVec 8) (g : Regs) : addScore v g =
    repaint (g.currentScore + v) g.currentBest g.nextCoordStatic g.nextColorStatic g := rfl

theorem clearLast_addScore (y : BitVec 6) (v : BitVec 8) (g : Regs) :
    clearLast y (addScore v g) = addScore v (clearLast y g) := by
  have hcomm : g.currentScore + v + g.accu = g.currentScore + g.accu + v := by
    rw [BitVec.add_assoc, BitVec.add_comm v, BitVec.add_assoc]
  simp only [clearLast, addScore, hcomm]

theorem step_addScore {g : Regs} (hreset : g.state ≠ .reset) (hover : g.state ≠ .gameOver)
    (v : BitVec 8) (i : Input) : step (addScore v g) i = addScore v (step g i) := by
  have hdata : datapath (addScore v g) i = addScore v (datapath g i) := by
    have hst : (addScore v g).state = g.state := rfl
    by_cases hscore : .score ∈ g.state.writes
    · obtain ⟨k, hclear⟩ := (score_writers _ hscore).resolve_left hreset
      simp only [datapath, hst, hclear]
      exact clearLast_addScore (g.y k) v g
    by_cases hpreview : .preview ∈ g.state.writes
    · have hnew := preview_writers _ hpreview
      simp only [datapath, hst, hnew]
      rfl
    have hbest : .best ∉ g.state.writes := fun h => hover (best_writers _ h)
    have hkept : (datapath g i).currentScore = g.currentScore := datapath_keeps hscore i
    have hkept' : (datapath g i).currentBest = g.currentBest := datapath_keeps hbest i
    obtain ⟨hcoord, hcolor⟩ := datapath_keeps hpreview i
    rw [addScore_eq v g, datapath_repaint _ _ _ _ hscore hbest hpreview, ← hkept, ← hkept',
      ← hcoord, ← hcolor]
    rfl
  exact congrArg (fun t : Regs => { t with state := nextState g i }) hdata

def Blind (g : Regs) (_ : Input) : Prop := g.state ≠ .reset ∧ g.state ≠ .gameOver

instance (g : Regs) (i : Input) : Decidable (Blind g i) := inferInstanceAs (Decidable (_ ∧ _))

theorem run_addScore {g : Regs} {is : List Input} (h : Throughout step Blind g is) (v : BitVec 8) :
    run step (addScore v g) is = addScore v (run step g is) ∧
      Throughout step Blind (addScore v g) is := by
  induction is generalizing g with
  | nil => exact ⟨rfl, trivial⟩
  | cons i is ih =>
    have hstep := step_addScore h.1.1 h.1.2 v i
    have hrest := ih h.2
    rw [← hstep] at hrest
    exact ⟨hrest.1, h.1, hrest.2⟩

instance decidableEqRegs : DecidableEq Regs := fun g h =>
  decidable_of_iff
    ((g.x = h.x ∧ g.y = h.y ∧ g.state = h.state ∧ g.counter = h.counter) ∧
      (g.rotateCounter = h.rotateCounter ∧ g.currentScore = h.currentScore ∧
        g.currentBest = h.currentBest ∧ g.accu = h.accu) ∧
      g.currentShape = h.currentShape ∧ g.coordStatic = h.coordStatic ∧
        g.colorStatic = h.colorStatic ∧ g.nextCoordStatic = h.nextCoordStatic ∧
        g.nextColorStatic = h.nextColorStatic)
    (by
      rcases g with ⟨⟨_, _⟩, _⟩
      rcases h with ⟨⟨_, _⟩, _⟩
      simp only [Regs.mk.injEq, Piece.mk.injEq]
      tauto)

/-- Five O's side by side; the first is held down for `n` cycles. -/
def fiveOs (n : Nat) : List Input :=
  let deal : List Input := List.replicate 4 { nextShape := 4, fromSwSig := true }
  let left : List Input := [{ left := true }, {}, {}]
  let right : List Input := [{ right := true }, {}, {}]
  let drop : Nat → List Input := fun n => List.replicate n { down := true }
  deal ++ left ++ left ++ left ++ left ++ drop n ++ deal ++ left ++ left ++ drop 98 ++
    deal ++ drop 98 ++ deal ++ right ++ right ++ drop 98 ++
    deal ++ right ++ right ++ right ++ right ++ drop 108

def firstGame : Regs := run step resetRegs [{ enter := true }, {}]

theorem firstGame_begins : GameBegins firstGame :=
  Or.inr ⟨run step resetRegs [{ enter := true }], {}, rfl, rfl⟩

def swept : Regs :=
  { reset resetRegs with
    x := ![9, 9, 10, 10]
    y := ![19, 20, 19, 20]
    state := .newBlock
    counter := 30
    accu := 3
    nextCoordStatic := newNextCells 4
    nextColorStatic := fun r c => if (newNextCells 4 r).getLsbD c then 4 else 0 }

theorem firstGame_fiveOs : run step firstGame (fiveOs 99) = addScore 3 swept ∧
    Throughout step Blind firstGame (fiveOs 99) := by
  decide +kernel

theorem swept_fiveOs : run step swept (fiveOs 98) = addScore 3 swept ∧
    Throughout step Blind swept (fiveOs 98) := by
  decide +kernel

theorem swept_again (v : BitVec 8) (n : Nat) :
    let is := (List.replicate n (fiveOs 98)).flatten
    run step (addScore v swept) is = addScore (v + 3 * BitVec.ofNat 8 n) swept ∧
      Throughout step Blind (addScore v swept) is := by
  intro is
  have hround (v : BitVec 8) : run step (addScore v swept) (fiveOs 98) = addScore (v + 3) swept := by
    rw [(run_addScore swept_fiveOs.2 v).1, swept_fiveOs.1, addScore_add, BitVec.add_comm]
  induction n generalizing v with
  | zero => exact ⟨by simp [is], trivial⟩
  | succ n ih =>
    have hsum : v + 3 + 3 * BitVec.ofNat 8 n = v + 3 * BitVec.ofNat 8 (n + 1) := by
      rw [BitVec.ofNat_add, BitVec.mul_add, BitVec.add_assoc, BitVec.add_comm 3]
      rfl
    have hnext := ih (v + 3)
    simp only [hsum] at hnext
    simp only [is, List.replicate_succ, List.flatten_cons, run_append, throughout_append, hround]
    exact ⟨hnext.1, (run_addScore swept_fiveOs.2 v).2, hnext.2⟩

theorem noReset_of_blind {g : Regs} {is : List Input} (h : Throughout step Blind g is) :
    Throughout step (fun t _ => t.state ≠ .reset) g is :=
  h.mono step fun _ _ hb => hb.1

theorem score_wraps : ∃ (g : Regs) (is : List Input), Reachable step resetRegs g ∧ GameBegins g ∧
    Throughout step (fun t _ => t.state ≠ .reset) g is ∧
    ¬ Throughout step (fun t i => t.currentScore ≤ (step t i).currentScore ∧
        ∀ k, t.state = .clear k 4 → t.currentScore.toNat + t.accu.toNat ≤ 255) g is := by
  obtain ⟨hfirst, hblind⟩ := firstGame_fiveOs
  obtain ⟨hrun, hblind84⟩ := swept_again 3 84
  have hbefore : run step firstGame (fiveOs 99 ++ (List.replicate 84 (fiveOs 98)).flatten) =
      addScore 255 swept := by
    rw [run_append, hfirst, hrun]
    rfl
  have hlast : run step (addScore 255 swept) (fiveOs 98) = addScore 2 swept := by
    rw [(run_addScore swept_fiveOs.2 255).1, swept_fiveOs.1, addScore_add]
    rfl
  refine ⟨firstGame, fiveOs 99 ++ (List.replicate 84 (fiveOs 98)).flatten ++ fiveOs 98,
    ⟨_, rfl⟩, firstGame_begins, noReset_of_blind ?_, fun hall => ?_⟩
  · rw [throughout_append, throughout_append, hbefore, hfirst]
    exact ⟨⟨hblind, hblind84⟩, (run_addScore swept_fiveOs.2 255).2⟩
  · have hround := ((throughout_append step _ firstGame _ (fiveOs 98)).1 hall).2
    rw [hbefore] at hround
    have hfalls : (255 : BitVec 8) ≤ (run step (addScore 255 swept) (fiveOs 98)).currentScore :=
      run_induction step (I := fun t => (255 : BitVec 8) ≤ t.currentScore)
        (fun _ _ hle h255 => BitVec.le_trans h255 hle.1) (by decide) _ hround
    rw [hlast] at hfalls
    exact absurd hfalls (by decide)

theorem score_never_falls_iff_fiveOs :
    Throughout step (fun t i => t.currentScore ≤ (step t i).currentScore ∧
        ∀ k, t.state = .clear k 4 → t.currentScore.toNat + t.accu.toNat ≤ 255)
        firstGame (fiveOs 99) ↔
      points firstGame (fiveOs 99) ≤ 255 :=
  score_never_falls_iff firstGame_begins (noReset_of_blind firstGame_fiveOs.2)

end Tetris
