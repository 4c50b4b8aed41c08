import Mathlib.Data.Fin.VecNotation
import Mathlib.Data.BitVec

/-! Registers and ports of `blocklogic`. An array index is a natural number, and
an index outside the array reads nothing and writes nowhere. -/
namespace Tetris

-- each an atomic proof: Lean would extract any other into a lemma of every module anew
instance neZero4 : NeZero 4 := inferInstance
instance neZero5 : NeZero 5 := inferInstance
instance neZero22 : NeZero 22 := inferInstance

/-- The FSM state. `clear k j` is `CLEAR(k+1)_(j+1)`. -/
inductive State where
  | start | reset | newBlock | inter | moveLeft | moveRight | moveDown
  | afterLeft | afterRight | afterRotate | beforeNew | newNext
  | clear (pass : Fin 4) (stage : Fin 5)
  | rotateI | rotateJ | rotateL | rotateS | rotateT | rotateZ | rotateChoose
  | pause | resume | gameOver
  deriving DecidableEq, Repr

abbrev Rows (α : Type*) := Fin 22 → α
abbrev Coord := Rows (BitVec 12)
abbrev Color := Rows (Fin 12 → BitVec 3)

section Rows
variable {α : Type*}

def Rows.read (a : Rows α) (r : Nat) : Option α :=
  if h : r < 22 then some (a ⟨r, h⟩) else none

def Rows.modify (a : Rows α) (r : Nat) (f : α → α) : Rows α :=
  fun i => if i.val = r then f (a i) else a i

def Rows.write (a : Rows α) (r : Nat) (v : α) : Rows α :=
  a.modify r fun _ => v

@[simp] theorem Rows.read_val (a : Rows α) (i : Fin 22) : a.read i.val = some (a i) := by
  simp [Rows.read]

theorem Rows.read_of_lt (a : Rows α) {r : Nat} (h : r < 22) : a.read r = some (a ⟨r, h⟩) := by
  simp [Rows.read, h]

theorem Rows.write_apply (a : Rows α) (r : Nat) (v : α) (i : Fin 22) :
    a.write r v i = if i.val = r then v else a i := rfl

theorem Rows.modify_apply (a : Rows α) (r : Nat) (f : α → α) (i : Fin 22) :
    a.modify r f i = if i.val = r then f (a i) else a i := rfl

end Rows

/-- `coord_static[r][c]`; `none` where `r` or `c` runs off the array. -/
def bit (a : Coord) (r c : Nat) : Option Bool :=
  (a.read r).bind fun row => if c < 12 then some (row.getLsbD c) else none

/-- `coord_static[r][c] == 1` -/
def Occupied (a : Coord) (r c : Nat) : Prop := bit a r c = some true
def Vacant (a : Coord) (r c : Nat) : Prop := bit a r c = some false

instance (a : Coord) (r c : Nat) : Decidable (Occupied a r c) :=
  inferInstanceAs (Decidable (_ = _))
instance (a : Coord) (r c : Nat) : Decidable (Vacant a r c) :=
  inferInstanceAs (Decidable (_ = _))

theorem bit_eq_some {a : Coord} {r c : Nat} {b : Bool} :
    bit a r c = some b ↔ ∃ h : r < 22, c < 12 ∧ (a ⟨r, h⟩).getLsbD c = b := by
  unfold bit Rows.read
  split <;> simp_all

def fullRow : BitVec 12 := 0b111111111111
def emptyRow : BitVec 12 := 0b100000000001
def blackRow : Fin 12 → BitVec 3 := fun _ => 0

def FullAt (a : Coord) (r : Nat) : Prop := a.read r = some fullRow

instance (a : Coord) (r : Nat) : Decidable (FullAt a r) :=
  inferInstanceAs (Decidable (_ = _))

def setBit (a : Coord) (r c : Nat) : Coord :=
  a.modify r fun row => row ||| BitVec.twoPow 12 c

def setColor (a : Color) (r c : Nat) (v : BitVec 3) : Color :=
  a.modify r fun row j => if j.val = c then v else row j

theorem getLsbD_setBit (a : Coord) (r c : Nat) (i : Fin 22) (j : Nat) :
    (setBit a r c i).getLsbD j =
      ((a i).getLsbD j || decide (i.val = r ∧ j = c ∧ c < 12)) := by
  unfold setBit
  rw [Rows.modify_apply]
  by_cases hr : i.val = r
  · simp only [hr, if_true, BitVec.getLsbD_or, BitVec.getLsbD_twoPow, true_and]
    congr 1
    rw [← Bool.decide_and, decide_eq_decide]
    omega
  · simp [hr]

theorem setColor_apply (a : Color) (r c : Nat) (v : BitVec 3) (i : Fin 22) (j : Fin 12) :
    setColor a r c v i j = if i.val = r ∧ j.val = c then v else a i j := by
  unfold setColor
  rw [Rows.modify_apply]
  by_cases hr : i.val = r <;> simp [hr]

/-- The coordinate registers; cell `k` of the source is index `k-1` here. -/
structure Piece where
  x : Fin 4 → BitVec 6
  y : Fin 4 → BitVec 6

structure Regs extends Piece where
  state : State
  counter : BitVec 8
  rotateCounter : BitVec 2
  currentScore : BitVec 8
  currentBest : BitVec 8
  accu : BitVec 8
  currentShape : BitVec 3
  coordStatic : Coord
  colorStatic : Color
  nextCoordStatic : Fin 3 → BitVec 4
  nextColorStatic : Fin 3 → Fin 4 → BitVec 3

/-- Inputs sampled at a rising edge of `frameClk`. -/
structure Input where
  nextShape : BitVec 3 := 0
  up : Bool := false
  down : Bool := false
  left : Bool := false
  right : Bool := false
  pause : Bool := false
  resume : Bool := false
  enter : Bool := false
  fromSwSig : Bool := false
  deriving DecidableEq, Repr

def resetRegs : Regs where
  x := fun _ => 0
  y := fun _ => 0
  state := .start
  counter := 0
  rotateCounter := 0
  currentScore := 0
  currentBest := 0
  accu := 1
  currentShape := 0
  coordStatic := fun _ => 0
  colorStatic := fun _ => blackRow
  nextCoordStatic := fun _ => 0
  nextColorStatic := fun _ _ => 0

end Tetris
