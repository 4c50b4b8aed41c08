import Tetris.RowClearing

/-! The colours on the screen and the bits that collide. -/
namespace Tetris
open Machine

/-- A row whose coloured interior cells are the occupied ones. -/
def LineAgrees (l : Line) : Prop :=
  ∀ j : Fin 12, 1 ≤ j.val → j.val ≤ 10 → (l.2 j ≠ 0 ↔ l.1.getLsbD j.val = true)

instance (l : Line) : Decidable (LineAgrees l) := inferInstanceAs (Decidable (∀ _, _))

def Drawn (g : Regs) : Prop := ∀ i : Fin 22, i.val ≤ 20 → LineAgrees (board g i)

instance (g : Regs) : Decidable (Drawn g) := inferInstanceAs (Decidable (∀ _, _))

/-- A piece in play over a board drawn as it is. -/
structure Playing (s : Shape) (g : Regs) : Prop where
  state : g.state = .inter
  frame : Frame g.coordStatic
  top : g.coordStatic 0 = emptyRow ∧ g.coordStatic 1 = emptyRow
  settled : Settled g
  shape : g.currentShape = s.code
  placed : Placed s g.rotateCounter g.toPiece
  interior : ∀ k, (g.y k).toNat ≤ 20 ∧ 1 ≤ (g.x k).toNat ∧ (g.x k).toNat ≤ 10
  drawn : Drawn g

def Restarted (g : Regs) : Prop := ∃ g₀ i, g₀.state = .reset ∧ g = step g₀ i

/-- The fourth pass finds row `y4` full, too far up to move anything into it. -/
def LastRowStuck (g : Regs) : Prop :=
  g.state = .clear 3 0 ∧ FullAt g.coordStatic (g.y 3).toNat ∧ (g.y 3).toNat ≤ 16

theorem blankLine_agrees : LineAgrees blankLine := by decide

theorem emptied_disagrees {c : Fin 12 → BitVec 3} (h : LineAgrees (fullRow, c)) :
    ¬ LineAgrees (emptyRow, c) := by
  intro hempty
  have hfull := (h 1 (by decide) (by decide)).2 (by decide : fullRow.getLsbD 1 = true)
  have hbit := (hempty 1 (by decide) (by decide)).1 hfull
  exact absurd hbit (by decide : ¬ emptyRow.getLsbD 1 = true)

theorem Drawn.deletedRow {g : Regs} (h : Drawn g) (k : Fin 4) : Drawn (deletedRow k g) := by
  intro i hi
  rw [board_deletedRow]
  induction i using Fin.cases with
  | zero => exact blankLine_agrees
  | succ n =>
    simp only [Fin.val_succ] at hi
    rw [deleteAt_succ]
    split_ifs
    · exact h _ (by simp only [Fin.val_castSucc]; omega)
    · exact h _ hi

/-- After the single step of the fourth pass the colours are right exactly if the
row lay in the part that moved. -/
theorem drawn_fourth_iff {g : Regs} (h : Drawn g) (hs : Sweep 3 g)
    (hfull : FullAt g.coordStatic (g.y 3).toNat) (i : Input) :
    Drawn (step g i) ↔ 17 ≤ (g.y 3).toNat := by
  have hlast := hs.row 3
  obtain ⟨j, hj⟩ : ∃ j : Fin 22, j.val = (g.y 3).toNat := ⟨⟨(g.y 3).toNat, by omega⟩, rfl⟩
  have hstep : board (step g i) =
      partShift (g.y 3).toNat 16 ((board g).write (g.y 3).toNat (emptyRow, g.colorStatic j)) := by
    rw [hs.step_fourth, if_pos hfull]
    exact board_midPass 3 16 0 hj
  unfold Drawn
  rw [hstep]
  constructor
  · intro hdrawn
    by_contra hlow
    have hrow := hdrawn j (by omega)
    rw [partShift_write_top _ _ (by omega), if_pos hj] at hrow
    have hfullj : g.coordStatic j = fullRow := by
      rw [← hj] at hfull
      exact (fullAt_iff j.isLt).1 hfull
    have hagree := h j (by omega)
    rw [board, hfullj] at hagree
    exact emptied_disagrees hagree hrow
  · intro h17 i hi
    by_cases htop : i.val ≤ 16
    · rw [partShift_write_top _ _ htop, if_neg (by omega)]
      exact h i hi
    · induction i using Fin.cases with
      | zero => exact absurd (Nat.zero_le 16) htop
      | succ n =>
        simp only [Fin.val_succ] at hi htop
        rw [partShift_succ]
        by_cases hn : n.val < (g.y 3).toNat
        · have hne : n.castSucc.val ≠ (g.y 3).toNat := by simp only [Fin.val_castSucc]; omega
          rw [if_pos ⟨by omega, hn⟩, Rows.write_apply, if_neg hne]
          exact h _ (by simp only [Fin.val_castSucc]; omega)
        · have hne : n.succ.val ≠ (g.y 3).toNat := by simp only [Fin.val_succ]; omega
          rw [if_neg (fun hm => hn hm.2), Rows.write_apply, if_neg hne]
          exact h _ hi

theorem reset_drawn (g : Regs) : Drawn (reset g) := by
  intro i hi
  have hne : i.val ≠ 21 := by omega
  have hboard : board (reset g) i = blankLine := by
    simp only [board, reset, hne, if_false]
    rfl
  rw [hboard]
  exact blankLine_agrees

theorem Drawn.lock {g : Regs} (h : Drawn g) (hshape : g.currentShape ≠ 0) : Drawn (lock g) := by
  intro i hi j h1 h10
  change lockColor g.toPiece g.currentShape g.colorStatic i j ≠ 0 ↔
    (lockCoord g.toPiece g.coordStatic i).getLsbD j.val = true
  rw [lockColor_apply, getLsbD_lockCoord _ _ _ j.isLt]
  split_ifs with hcell
  · exact iff_of_true hshape (Or.inr hcell)
  · rw [or_iff_left hcell]
    exact h i hi j h1 h10

/-- What a run keeps while no step is taken from a stuck row. -/
structure Sound (g : Regs) : Prop where
  well : InWell g
  tidy : Tidy g
  armed : g.state = .moveDown → g.currentShape ≠ 0
  drawn : Drawn (passEnd g)

theorem passEnd_of_not_clear {g : Regs} (h : ∀ k stage, g.state ≠ .clear k stage) :
    passEnd g = g := by
  unfold passEnd
  split
  · next k stage hst => exact absurd hst (h k stage)
  · rfl

theorem armed_step (g : Regs) (i : Input) (h : (step g i).state = .moveDown) :
    (step g i).currentShape ≠ 0 := by
  obtain ⟨hst, hne⟩ := moveDown_entered h
  have hshape : (step g i).currentShape = g.currentShape := by
    simp only [step, datapath, hst, inter]
  rwa [hshape]

theorem clear_drawn {g : Regs} {k : Fin 4} {stage : Fin 5} (hst : g.state = .clear k stage)
    (h : Sound g) (hstuck : ¬ LastRowStuck g) (i : Input) : Drawn (passEnd (step g i)) := by
  have hdrawn := h.drawn
  obtain ⟨hs, -⟩ := tidy_sweep hst h.tidy
  by_cases h0 : stage = 0
  · subst h0
    rw [passEnd_of_first hst] at hs hdrawn
    by_cases h3 : k = 3
    · subst h3
      have hnext : (step g i).state = .newBlock := by
        rw [hs.step_fourth]
        split_ifs <;> rfl
      rw [passEnd_of_not_clear (by simp [hnext])]
      by_cases hfull : FullAt g.coordStatic (g.y 3).toNat
      · rw [drawn_fourth_iff hdrawn hs hfull]
        by_contra hlow
        exact hstuck ⟨hst, hfull, by omega⟩
      · rw [hs.step_fourth, if_neg hfull]
        exact hdrawn
    · by_cases hfull : FullAt g.coordStatic (g.y k).toNat
      · rw [(passEnd_first hst h3 (hs.row k) hfull i).2]
        exact hdrawn.deletedRow k
      · rw [passEnd_of_first (hs.skip h3 hfull i).pass, step_skip hst h3 hfull]
        exact hdrawn
  · rw [(passEnd_step hst h0 i).2]
    exact hdrawn

theorem sound_step {g : Regs} (h : Sound g) (hstuck : ¬ LastRowStuck g) (i : Input) :
    Sound (step g i) := by
  refine ⟨inWell_step h.well i, tidy_step h.well h.tidy i, armed_step g i, ?_⟩
  by_cases hclear : ∃ k stage, g.state = .clear k stage
  · obtain ⟨k, stage, hst⟩ := hclear
    exact clear_drawn hst h hstuck i
  have hne (k : Fin 4) (stage : Fin 5) : g.state ≠ .clear k stage := fun hst => hclear ⟨k, stage, hst⟩
  have hdrawn := h.drawn
  rw [passEnd_of_not_clear hne] at hdrawn
  have hend : passEnd (step g i) = step g i := by
    by_cases hnext : ∃ k stage, (step g i).state = .clear k stage
    · obtain ⟨k, stage, hnext⟩ := hnext
      cases clear_entered hnext with
      | inl hfirst =>
        obtain ⟨-, -, rfl⟩ := hfirst
        exact passEnd_of_first hnext
      | inr hother => exact absurd hother hclear
    · exact passEnd_of_not_clear fun k stage hst => hnext ⟨k, stage, hst⟩
  rw [hend]
  change Drawn (datapath g i)
  by_cases hreset : g.state = .reset
  · simp only [datapath, hreset]
    exact reset_drawn g
  by_cases hdown : g.state = .moveDown
  · simp only [datapath, hdown, moveDown]
    split_ifs
    · exact hdrawn.lock (h.armed hdown)
    · exact hdrawn
  · obtain ⟨hcoord, hcolor⟩ := board_kept hreset hdown hne i
    unfold Drawn board
    rw [hcoord, hcolor]
    exact hdrawn

theorem Playing.sound {s : Shape} {g : Regs} (h : Playing s g) : Sound g := by
  have hne (k : Fin 4) (stage : Fin 5) : g.state ≠ .clear k stage := by simp [h.state]
  refine ⟨⟨?_, h.frame, ?_, ?_⟩, h.settled.tidy hne, ?_, ?_⟩
  · simp [h.state]
  · exact Or.inr ⟨s, Or.inl h.shape, held_of_interior h.placed h.interior⟩
  · exact fun t ht => by simp [h.state, State.rotates] at ht
  · simp [h.state]
  · rw [passEnd_of_not_clear hne]
    exact h.drawn

theorem Restarted.sound {g : Regs} (h : Restarted g) : Sound g := by
  obtain ⟨g₀, i, hst, rfl⟩ := h
  have hnext : (step g₀ i).state = .newBlock := by simp only [step, nextState, hst]
  refine ⟨reset_step_inWell hst i, reset_step_tidy hst i, ?_, ?_⟩
  · simp [hnext]
  · rw [passEnd_of_not_clear (by simp [hnext])]
    change Drawn (datapath g₀ i)
    simp only [datapath, hst]
    exact reset_drawn g₀

theorem sound_run {g : Regs} (h : Sound g) {is : List Input}
    (hall : Throughout step (fun t _ => ¬ LastRowStuck t) g is) : Sound (run step g is) :=
  run_induction step (P := fun t _ => ¬ LastRowStuck t) (fun _ i hno hs => sound_step hs hno i) h
    is hall

/-- A step from a stuck row spoils the picture. -/
theorem LastRowStuck.spoils {g : Regs} (h : LastRowStuck g) (hs : Sound g) (i : Input) :
    (step g i).state = .newBlock ∧ ¬ Drawn (step g i) := by
  obtain ⟨hst, hfull, hlow⟩ := h
  obtain ⟨hsweep, -⟩ := tidy_sweep hst hs.tidy
  have hdrawn := hs.drawn
  rw [passEnd_of_first hst] at hsweep hdrawn
  refine ⟨?_, fun hnext => ?_⟩
  · rw [hsweep.step_fourth, if_pos hfull]
  · rw [drawn_fourth_iff hdrawn hsweep hfull] at hnext
    omega

/-- From a piece in play or a restart, board and colours agree outside the clearing
states for as long as no step is taken from a stuck row, and no longer. -/
theorem drawn_throughout_iff {g : Regs} (h : (∃ s, Playing s g) ∨ Restarted g) (is : List Input) :
    (∀ js, js <+: is → (∀ k stage, (run step g js).state ≠ .clear k stage) → Drawn (run step g js)) ↔
      Throughout step (fun t _ => ¬ LastRowStuck t) g is := by
  have hsound : Sound g := by
    cases h with
    | inl hplaying =>
      obtain ⟨s, hplaying⟩ := hplaying
      exact hplaying.sound
    | inr hrestarted => exact hrestarted.sound
  constructor
  · intro hall
    induction is using List.reverseRecOn with
    | nil => trivial
    | append_singleton is i ih =>
      have hbefore := ih fun js hjs => hall js (hjs.trans (List.prefix_append is [i]))
      refine (throughout_append step _ g is [i]).2 ⟨hbefore, fun hstuck => ?_, trivial⟩
      obtain ⟨hnext, hspoilt⟩ := hstuck.spoils (sound_run hsound hbefore) i
      have hlast := hall (is ++ [i]) List.prefix_rfl
      rw [run_append] at hlast
      exact hspoilt (hlast (by simp [hnext]))
  · rintro hall js ⟨ks, rfl⟩ hne
    have hjs := ((throughout_append step _ g js ks).1 hall).1
    have hdrawn := (sound_run hsound hjs).drawn
    rwa [passEnd_of_not_clear hne] at hdrawn

theorem jOverGap_playing : Playing .J jOverGap where
  state := rfl
  frame := jOverGap_landing.frame
  top := ⟨rfl, rfl⟩
  settled := by
    have h : ∀ r : Fin 21, ¬ FullAt jOverGap.coordStatic r.val := by decide
    exact fun r hr => h ⟨r, by omega⟩
  shape := rfl
  placed := jOverGap_landing.placed
  interior := jOverGap_landing.interior
  drawn := by decide

theorem jOverGap_stays_drawn : ∃ (s : Shape) (g : Regs) (is : List Input), Playing s g ∧
    (∀ k stage, (run step g is).state ≠ .clear k stage) ∧ ¬ Drawn (run step g is) :=
  ⟨.J, jOverGap, List.replicate 7 {}, jOverGap_playing, by decide, by decide⟩

theorem jOverGap_drawn_throughout_iff :
    (∀ js, js <+: List.replicate 7 ({} : Input) →
        (∀ k stage, (run step jOverGap js).state ≠ .clear k stage) → Drawn (run step jOverGap js)) ↔
      Throughout step (fun t _ => ¬ LastRowStuck t) jOverGap (List.replicate 7 {}) :=
  drawn_throughout_iff (Or.inl ⟨.J, jOverGap_playing⟩) _

end Tetris
