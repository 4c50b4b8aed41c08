import Tetris.Collision
import Tetris.Machine
import Tetris.Transitions

/-! Held keys: a press of a direction key moves or turns the piece once at most, however
long it lasts. -/
namespace Tetris
open Machine

inductive Key where
  | left | right | up
  deriving DecidableEq

namespace Key

def held : Key → Input → Bool
  | left, i => i.left
  | right, i => i.right
  | up, i => i.up

/-- The states in which the key moves or turns the piece. -/
def acts : Key → State → Bool
  | left, st => st = .moveLeft
  | right, st => st = .moveRight
  | up, st => st.rotates.isSome

def waits : Key → State → Bool
  | left, st => st = .afterLeft
  | right, st => st = .afterRight
  | up, st => st = .afterRotate

def target : Key → State
  | left => .moveLeft
  | right => .moveRight
  | up => .rotateChoose

def due : Key → State → Bool
  | up, st => st = .rotateChoose
  | _, _ => false

end Key

/-- The steps that lead into a state in which the key acts. -/
def Key.moves (k : Key) (g : Regs) (i : Input) : Nat := if k.acts (nextState g i) then 1 else 0

def remember (k : Key) (_ : Bool) (i : Input) : Bool := k.held i

def presses (k : Key) (before : Bool) (i : Input) : Nat := if k.held i && !before then 1 else 0

theorem interNext_key (g : Regs) (i : Input) :
    interNext g i ∈ [.gameOver, .pause, .clear 0 0, .moveDown, .inter] ∨
      ∃ k : Key, k.held i = true ∧ interNext g i = k.target := by
  unfold interNext
  split_ifs with hover hpause hshape hcounter hleft hright hup
  · exact Or.inl (by decide)
  · exact Or.inl (by decide)
  · exact Or.inl (by decide)
  · exact Or.inl (by decide)
  · exact Or.inr ⟨.left, hleft, rfl⟩
  · exact Or.inr ⟨.right, hright, rfl⟩
  · exact Or.inr ⟨.up, hup, rfl⟩
  · exact Or.inl (by decide)

theorem held_of_entered {g : Regs} {i : Input} {k : Key}
    (h : k.acts (nextState g i) = true ∨ k.due (nextState g i) = true) :
    k.due g.state = true ∨ (g.state = .inter ∧ k.held i = true) := by
  have hall : ∀ (k : Key) (st st' : State), st' ∈ st.successors → k.acts st' = true ∨ k.due st' = true →
      k.due st = true ∨ st = .inter := by
    intro k
    cases k <;> decide +kernel
  refine (hall k _ _ (nextState_mem g i) h).imp_right fun hst => ⟨hst, ?_⟩
  simp only [nextState, hst] at h
  obtain hidle | ⟨k', hheld, hn⟩ := interNext_key g i
  · have hnone : ∀ k : Key, ∀ st ∈ [.gameOver, .pause, .clear 0 0, .moveDown, .inter],
        ¬ (k.acts st = true ∨ k.due st = true) := by
      intro k
      cases k <;> decide
    exact absurd h (hnone k _ hidle)
  · have hown : ∀ k k' : Key, k.acts k'.target = true ∨ k.due k'.target = true → k = k' := by
      intro k k'
      cases k <;> cases k' <;> decide
    rw [hn] at h
    rw [hown k k' h]
    exact hheld

theorem waits_while_held {g : Regs} {i : Input} {k : Key} (h : k.acts g.state = true ∨ k.waits g.state = true)
    (hheld : k.held i = true) : k.waits (nextState g i) = true := by
  cases k with
  | left =>
    have hleft : i.left = true := hheld
    rcases h with h | h <;> have hst := of_decide_eq_true h <;> simp only [nextState, hst]
    · rfl
    · rw [if_pos hleft]
      rfl
  | right =>
    have hright : i.right = true := hheld
    rcases h with h | h <;> have hst := of_decide_eq_true h <;> simp only [nextState, hst]
    · rfl
    · rw [if_pos hright]
      rfl
  | up =>
    have hup : i.up = true := hheld
    rcases h with h | h
    · obtain ⟨s, hs⟩ := Option.isSome_iff_exists.1 h
      rw [nextState_of_rotates hs]
      rfl
    · have hst := of_decide_eq_true h
      simp only [nextState, hst]
      rw [if_pos hup]
      rfl

theorem not_due {k : Key} {st : State} (h : k.due st = true) : ¬ (k.acts st = true ∨ k.waits st = true) := by
  have hall : ∀ (k : Key) (st : State), k.due st = true → ¬ (k.acts st = true ∨ k.waits st = true) := by
    intro k
    cases k <;> decide +kernel
  exact hall k st h

theorem inter_unspent (k : Key) : ¬ (k.acts .inter = true ∨ k.waits .inter = true) := by
  cases k <;> simp [Key.acts, Key.waits, State.rotates]

/-- A press that may still have an effect. -/
def pending (k : Key) (g : Regs) (before : Bool) : Nat :=
  if k.acts g.state = true ∨ k.waits g.state = true then 0
  else if k.due g.state = true ∨ before = true then 1
  else 0

theorem pending_le (k : Key) (g : Regs) (before : Bool) : pending k g before ≤ 1 := by
  unfold pending
  split_ifs <;> omega

theorem moves_step (k : Key) (g : Regs) (before : Bool) (i : Input) :
    k.moves g i + pending k (step g i) (remember k before i) ≤ presses k before i + pending k g before := by
  have hpaid (h : k.due g.state = true ∨ (g.state = .inter ∧ k.held i = true)) :
      1 ≤ presses k before i + pending k g before := by
    rcases h with hdue | ⟨hst, hheld⟩
    · rw [pending, if_neg (not_due hdue), if_pos (Or.inl hdue)]
      exact Nat.le_add_left 1 _
    · unfold presses pending
      rw [hst, hheld, if_neg (inter_unspent k)]
      cases before <;> simp
  unfold Key.moves
  by_cases hacts : k.acts (nextState g i) = true
  · have hspent : pending k (step g i) (remember k before i) = 0 := if_pos (Or.inl hacts)
    rw [if_pos hacts, hspent]
    exact hpaid (held_of_entered (Or.inl hacts))
  · rw [if_neg hacts, Nat.zero_add]
    by_cases hspent : k.waits (nextState g i) = true
    · have hzero : pending k (step g i) (remember k before i) = 0 := if_pos (Or.inr hspent)
      rw [hzero]
      exact Nat.zero_le _
    by_cases hdue : k.due (nextState g i) = true
    · exact (pending_le k _ _).trans (hpaid (held_of_entered (Or.inr hdue)))
    by_cases hheld : k.held i = true
    · refine (pending_le k _ _).trans ?_
      have hunspent : ¬ (k.acts g.state = true ∨ k.waits g.state = true) :=
        fun h => hspent (waits_while_held h hheld)
      unfold presses pending
      rw [hheld, if_neg hunspent]
      cases before <;> simp
    · have hzero : pending k (step g i) (remember k before i) = 0 :=
        (if_neg (not_or.2 ⟨hacts, hspent⟩)).trans (if_neg (not_or.2 ⟨hdue, hheld⟩))
      rw [hzero]
      exact Nat.zero_le _

/-- In every run, the piece is moved to a side, or turned, at most as often as the key
for it is pressed. -/
theorem one_move_a_press (k : Key) (is : List Input) :
    total step k.moves resetRegs is ≤ total (remember k) (presses k) false is := by
  have hsaved : pending k resetRegs false = 0 := by cases k <;> rfl
  have hle := total_le_total (moves_step k) resetRegs false is
  rw [hsaved] at hle
  omega

end Tetris
