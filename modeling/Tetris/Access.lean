import Tetris.Transitions

/-! Which registers a state writes. The rest keep their values, and the scores and the
preview are read only where one of them is written. -/
namespace Tetris

inductive Register where
  | piece | rotation | shape | board | score | accu | best | counter | preview
  deriving DecidableEq, Repr

/-- The registers the branch of a state assigns. -/
def State.writes : State → List Register
  | .reset => [.board, .score, .shape, .accu, .rotation]
  | .newBlock => [.piece, .shape, .rotation]
  | .newNext => [.preview]
  | .inter => [.accu, .counter]
  | .moveLeft | .moveRight => [.piece]
  | .moveDown => [.piece, .board, .counter, .shape]
  | .clear _ stage => if stage = 4 then [.board, .score, .accu] else [.board]
  | .rotateI | .rotateJ | .rotateL | .rotateS | .rotateT | .rotateZ => [.piece, .rotation]
  | .gameOver => [.best]
  | .start | .afterLeft | .afterRight | .afterRotate | .beforeNew | .rotateChoose
  | .pause | .resume => []

def Register.Same (r : Register) (g h : Regs) : Prop :=
  match r with
  | .piece => h.toPiece = g.toPiece
  | .rotation => h.rotateCounter = g.rotateCounter
  | .shape => h.currentShape = g.currentShape
  | .board => h.coordStatic = g.coordStatic ∧ h.colorStatic = g.colorStatic
  | .score => h.currentScore = g.currentScore
  | .accu => h.accu = g.accu
  | .best => h.currentBest = g.currentBest
  | .counter => h.counter = g.counter
  | .preview => h.nextCoordStatic = g.nextCoordStatic ∧ h.nextColorStatic = g.nextColorStatic

theorem Register.Same.refl (r : Register) (g : Regs) : r.Same g g := by
  cases r with
  | board | preview => exact ⟨rfl, rfl⟩
  | _ => rfl

theorem rotates_writes : ∀ (st : State) (s : Shape), st.rotates = some s →
    st.writes = [.piece, .rotation] := by
  decide

theorem rotate_keeps {r : Register} (h : r ∉ [.piece, .rotation]) (s : Shape) (g : Regs) :
    r.Same g (rotate s g) := by
  by_cases hs : s = .O
  · subst hs
    exact Register.Same.refl r g
  cases rotate_cases hs g with
  | inl hstay =>
    rw [hstay.2]
    exact Register.Same.refl r g
  | inr hturn =>
    rw [hturn.2]
    cases r with
    | piece | rotation => exact absurd (by decide) h
    | board | preview => exact ⟨rfl, rfl⟩
    | _ => rfl

theorem clear_keeps {r : Register} {k : Fin 4} {stage : Fin 5}
    (h : r ∉ (State.clear k stage).writes) (g : Regs) : r.Same g (clear k stage g) := by
  match stage with
  | 0 =>
    simp only [clear, clearFirst]
    split_ifs
    · cases r with
      | board => exact absurd (by simp [State.writes]) h
      | preview => exact ⟨rfl, rfl⟩
      | _ => rfl
    · exact Register.Same.refl r g
  | 1 | 2 | 3 =>
    cases r with
    | board => exact absurd (by simp [State.writes]) h
    | preview => exact ⟨rfl, rfl⟩
    | _ => rfl
  | 4 =>
    cases r with
    | board | score | accu => exact absurd (by simp [State.writes]) h
    | preview => exact ⟨rfl, rfl⟩
    | _ => rfl

/-- A step leaves alone what its state does not write. -/
theorem datapath_keeps {r : Register} {g : Regs} (h : r ∉ g.state.writes) (i : Input) :
    r.Same g (datapath g i) := by
  cases hrot : g.state.rotates with
  | some s =>
    rw [datapath_rotate hrot]
    rw [rotates_writes _ s hrot] at h
    exact rotate_keeps h s g
  | none =>
    unfold datapath
    cases hst : g.state <;> rw [hst] at h hrot <;> dsimp only
    case clear k stage => exact clear_keeps h g
    case moveLeft | moveRight | moveDown | gameOver =>
      simp only [moveLeft, moveRight, moveDown, gameOver]
      split_ifs <;> cases r <;> first
        | rfl
        | exact ⟨rfl, rfl⟩
        | exact absurd (by decide) h
    case rotateI | rotateJ | rotateL | rotateS | rotateT | rotateZ => cases hrot
    all_goals cases r <;> first
      | rfl
      | exact ⟨rfl, rfl⟩
      | exact absurd (by decide) h

theorem piece_writers : ∀ st : State, .piece ∈ st.writes →
    st = .newBlock ∨ st = .moveLeft ∨ st = .moveRight ∨ st = .moveDown ∨ ∃ s, st.rotates = some s := by
  decide

theorem rotation_writers : ∀ st : State, .rotation ∈ st.writes →
    st = .reset ∨ st = .newBlock ∨ ∃ s, st.rotates = some s := by
  decide

theorem shape_writers : ∀ st : State, .shape ∈ st.writes →
    st = .reset ∨ st = .newBlock ∨ st = .moveDown := by
  decide

theorem board_writers : ∀ st : State, .board ∈ st.writes →
    st = .reset ∨ st = .moveDown ∨ ∃ k stage, st = .clear k stage := by
  decide

theorem score_writers : ∀ st : State, .score ∈ st.writes →
    st = .reset ∨ ∃ k, st = .clear k 4 := by
  decide

theorem preview_writers : ∀ st : State, .preview ∈ st.writes → st = .newNext := by
  decide

theorem best_writers : ∀ st : State, .best ∈ st.writes → st = .gameOver := by
  decide

theorem counter_writers : ∀ st : State, .counter ∈ st.writes → st = .inter ∨ st = .moveDown := by
  decide

theorem shape_kept {g : Regs} (hreset : g.state ≠ .reset) (hnew : g.state ≠ .newBlock)
    (hdown : g.state ≠ .moveDown) (i : Input) :
    (datapath g i).currentShape = g.currentShape := by
  refine datapath_keeps (r := .shape) (fun hw => ?_) i
  rcases shape_writers _ hw with hst | hst | hst <;> contradiction

theorem board_kept {g : Regs} (hreset : g.state ≠ .reset) (hdown : g.state ≠ .moveDown)
    (hclear : ∀ k stage, g.state ≠ .clear k stage) (i : Input) :
    (datapath g i).coordStatic = g.coordStatic ∧ (datapath g i).colorStatic = g.colorStatic := by
  refine datapath_keeps (r := .board) (fun hw => ?_) i
  rcases board_writers _ hw with hst | hst | ⟨k, stage, hst⟩
  · exact hreset hst
  · exact hdown hst
  · exact hclear k stage hst

def repaint (score best : BitVec 8) (coord : Fin 3 → BitVec 4) (color : Fin 3 → Fin 4 → BitVec 3)
    (g : Regs) : Regs :=
  { g with
    currentScore := score
    currentBest := best
    nextCoordStatic := coord
    nextColorStatic := color }

section Repaint
variable (score best : BitVec 8) (coord : Fin 3 → BitVec 4) (color : Fin 3 → Fin 4 → BitVec 3)

theorem rotate_repaint (s : Shape) (g : Regs) :
    rotate s (repaint score best coord color g) = repaint score best coord color (rotate s g) := by
  by_cases hs : s = .O
  · subst hs
    rfl
  have hguard : TurnGuard s (repaint score best coord color g) ↔ TurnGuard s g := Iff.rfl
  rcases rotate_cases hs g with ⟨hno, he⟩ | ⟨hyes, he⟩ <;>
    rcases rotate_cases hs (repaint score best coord color g) with ⟨hno', he'⟩ | ⟨hyes', he'⟩ <;>
    rw [he, he']
  · exact absurd (hguard.1 hyes') hno
  · exact absurd (hguard.2 hyes) hno'
  · rfl

theorem datapath_repaint {g : Regs} (hscore : .score ∉ g.state.writes)
    (hbest : .best ∉ g.state.writes) (hpreview : .preview ∉ g.state.writes) (i : Input) :
    datapath (repaint score best coord color g) i =
      repaint score best coord color (datapath g i) := by
  cases hrot : g.state.rotates with
  | some s =>
    have hrot' : (repaint score best coord color g).state.rotates = some s := hrot
    rw [datapath_rotate hrot, datapath_rotate hrot', rotate_repaint]
  | none =>
    have hst' : (repaint score best coord color g).state = g.state := rfl
    unfold datapath
    rw [hst']
    cases hst : g.state <;> rw [hst] at hscore hbest hpreview hrot <;> dsimp only
    case reset => exact absurd (by decide) hscore
    case gameOver => exact absurd (by decide) hbest
    case newNext => exact absurd (by decide) hpreview
    case moveLeft => unfold moveLeft; split_ifs <;> first | rfl | contradiction
    case moveRight => unfold moveRight; split_ifs <;> first | rfl | contradiction
    case moveDown => unfold moveDown; split_ifs <;> first | rfl | contradiction
    case clear k stage =>
      match stage with
      | 0 =>
        simp only [clear, clearFirst]
        split_ifs <;> first | rfl | contradiction
      | 1 | 2 | 3 => rfl
      | 4 => exact absurd (by simp [State.writes]) hscore
    case rotateI | rotateJ | rotateL | rotateS | rotateT | rotateZ => cases hrot
    all_goals rfl

end Repaint

end Tetris
