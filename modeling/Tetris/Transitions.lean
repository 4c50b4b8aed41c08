import Tetris.Motion

/-! Which state can follow which, read off the transition logic once. -/
namespace Tetris

def State.all : List State :=
  [.start, .reset, .newBlock, .inter, .moveLeft, .moveRight, .moveDown, .afterLeft, .afterRight,
    .afterRotate, .beforeNew, .newNext, .rotateI, .rotateJ, .rotateL, .rotateS, .rotateT, .rotateZ,
    .rotateChoose, .pause, .resume, .gameOver] ++
  (List.finRange 4).flatMap fun k => (List.finRange 5).map (State.clear k)

theorem State.mem_all (st : State) : st ∈ State.all := by
  cases st <;> simp [State.all]

instance {P : State → Prop} [DecidablePred P] : Decidable (∀ st, P st) :=
  decidable_of_iff (∀ st ∈ State.all, P st) ⟨fun h st => h st st.mem_all, fun h st _ => h st⟩

/-- The states that can follow a state, whatever the registers and the inputs. -/
def State.successors : State → List State
  | .start => [.start, .reset]
  | .reset => [.newBlock]
  | .newBlock => [.beforeNew]
  | .beforeNew => [.beforeNew, .newNext]
  | .newNext => [.inter]
  | .inter =>
    [.gameOver, .pause, .clear 0 0, .moveDown, .moveLeft, .moveRight, .rotateChoose, .inter]
  | .moveLeft => [.afterLeft]
  | .moveRight => [.afterRight]
  | .moveDown => [.inter]
  | .afterLeft => [.afterLeft, .inter]
  | .afterRight => [.afterRight, .inter]
  | .afterRotate => [.afterRotate, .inter]
  | .rotateChoose =>
    [.rotateI, .rotateJ, .rotateL, .inter, .rotateS, .rotateT, .rotateZ, .rotateChoose]
  | .rotateI | .rotateJ | .rotateL | .rotateS | .rotateT | .rotateZ => [.afterRotate]
  | .clear k stage => if stage = 0 then [.clear k 1, afterPass k] else [.clear k (stage + 1)]
  | .pause => [.pause, .inter]
  | .resume => [.resume]
  | .gameOver => [.gameOver, .reset]

theorem rotateChoose_mem : ∀ v : BitVec 3, rotateChoose v ∈ State.rotateChoose.successors := by
  decide

theorem clearNext_mem (g : Regs) (k : Fin 4) (stage : Fin 5) :
    clearNext g k stage ∈ (State.clear k stage).successors := by
  unfold clearNext
  match stage with
  | 0 => split_ifs <;> simp [State.successors]
  | 1 | 2 | 3 | 4 => simp [State.successors]

theorem nextState_mem (g : Regs) (i : Input) : nextState g i ∈ g.state.successors := by
  unfold nextState
  cases hst : g.state <;> dsimp only
  case inter => unfold interNext; split_ifs <;> simp [State.successors]
  case clear k stage => exact clearNext_mem g k stage
  case rotateChoose => exact rotateChoose_mem _
  all_goals try split_ifs
  all_goals simp [State.successors]

theorem entered_from {g : Regs} {i : Input} {t : State} {P : State → Prop}
    (hP : ∀ st : State, t ∈ st.successors → P st) (h : nextState g i = t) : P g.state :=
  hP _ (h ▸ nextState_mem g i)

theorem nextState_ne_start {g : Regs} (h : g.state ≠ .start) (i : Input) : nextState g i ≠ .start :=
  fun hn => h (entered_from (P := fun st => st = .start) (by decide) hn)

theorem clear_entered {g : Regs} {i : Input} {k : Fin 4} {stage : Fin 5}
    (h : nextState g i = .clear k stage) :
    (g.state = .inter ∧ g.currentShape = 0 ∧ stage = 0) ∨ ∃ k' stage', g.state = .clear k' stage' := by
  have hall : ∀ (k : Fin 4) (stage : Fin 5) (st : State), .clear k stage ∈ st.successors →
      (st = .inter ∧ stage = 0) ∨ ∃ k' stage', st = .clear k' stage' := by
    decide
  refine (entered_from (hall k stage) h).imp_left fun ⟨hst, h0⟩ => ⟨hst, ?_, h0⟩
  simp only [nextState, hst, interNext] at h
  split_ifs at h with _ _ hzero
  exact hzero

theorem newNext_entered {g : Regs} {i : Input} (h : nextState g i = .newNext) :
    g.state = .beforeNew ∧ i.fromSwSig = true := by
  have hst : g.state = .beforeNew := entered_from (P := fun st => st = .beforeNew) (by decide) h
  refine ⟨hst, ?_⟩
  simp only [nextState, hst] at h
  split_ifs at h with hready
  exact hready

theorem moveDown_entered {g : Regs} {i : Input} (h : nextState g i = .moveDown) :
    g.state = .inter ∧ g.currentShape ≠ 0 := by
  have hst : g.state = .inter := entered_from (P := fun st => st = .inter) (by decide) h
  refine ⟨hst, fun hzero => ?_⟩
  simp only [nextState, hst, interNext, hzero] at h
  split_ifs at h

theorem rotateChoose_rotates : ∀ (v : BitVec 3) (t : Shape),
    (rotateChoose v).rotates = some t → v = t.code := by
  decide

theorem nextState_rotates {g : Regs} {i : Input} {t : Shape}
    (h : (nextState g i).rotates = some t) :
    g.state = .rotateChoose ∧ g.currentShape = t.code := by
  have hst : g.state = .rotateChoose := by
    have hall : ∀ st' : State, st'.rotates ≠ none → ∀ st : State, st' ∈ st.successors →
        st = .rotateChoose := by
      decide
    exact hall _ (by simp [h]) _ (nextState_mem g i)
  refine ⟨hst, ?_⟩
  simp only [nextState, hst] at h
  exact rotateChoose_rotates _ _ h

end Tetris
