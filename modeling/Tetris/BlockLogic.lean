import Tetris.Registers
import Mathlib.Data.Fintype.Basic

/-! The two combinational blocks of `blocklogic` and its clocked step. -/
namespace Tetris

/-- A 6-bit index expression such as `x1 - 6'd1`. -/
def at6 (v : BitVec 6) (d : Int) : Nat := (v + BitVec.ofInt 6 d).toNat

/-- The same with an unsized literal (`x1 - 1`), which widens the sum to 32 bits. -/
def at32 (v : BitVec 6) (d : Int) : Nat := (v.setWidth 32 + BitVec.ofInt 32 d).toNat

abbrev Offsets := Fin 4 → Int × Int

def Piece.shift (p : Piece) (d : Offsets) : Piece where
  x := fun k => p.x k + BitVec.ofInt 6 (d k).1
  y := fun k => p.y k + BitVec.ofInt 6 (d k).2

/-- Coordinates and shape that `NEW_BLOCK` assigns; the default is an I. -/
def newBlockCells (nextShape : BitVec 3) : Piece × BitVec 3 :=
  match nextShape with
  | 0b001 => (⟨![4, 5, 6, 7], ![1, 1, 1, 1]⟩, 0b001)
  | 0b010 => (⟨![4, 5, 6, 6], ![1, 1, 1, 2]⟩, 0b010)
  | 0b011 => (⟨![4, 5, 6, 4], ![1, 1, 1, 2]⟩, 0b011)
  | 0b100 => (⟨![5, 5, 6, 6], ![1, 2, 1, 2]⟩, 0b100)
  | 0b101 => (⟨![4, 5, 5, 6], ![2, 2, 1, 1]⟩, 0b101)
  | 0b110 => (⟨![4, 5, 6, 5], ![1, 1, 1, 2]⟩, 0b110)
  | 0b111 => (⟨![4, 5, 5, 6], ![1, 1, 2, 2]⟩, 0b111)
  | _ => (⟨![4, 5, 6, 7], ![1, 1, 1, 1]⟩, 0b001)

def newBlock (g : Regs) (i : Input) : Regs :=
  { g with
    toPiece := (newBlockCells i.nextShape).1
    currentShape := (newBlockCells i.nextShape).2
    rotateCounter := 0 }

/-- The preview cells `NEWNEXT` sets, row by row; bit `j` is column `j`. -/
def newNextCells (nextShape : BitVec 3) : Fin 3 → BitVec 4 :=
  match nextShape with
  | 0b001 => ![0b0000, 0b1111, 0b0000]
  | 0b010 => ![0b0000, 0b0111, 0b0100]
  | 0b011 => ![0b0100, 0b0111, 0b0000]
  | 0b100 => ![0b0000, 0b0110, 0b0110]
  | 0b101 => ![0b0000, 0b1100, 0b0110]
  | 0b110 => ![0b0000, 0b0111, 0b0010]
  | 0b111 => ![0b0000, 0b0011, 0b0110]
  | _ => ![0b0000, 0b1111, 0b0000]

/-- In every branch the cells set are exactly the cells coloured `next_shape`. -/
def newNext (g : Regs) (i : Input) : Regs :=
  { g with
    nextCoordStatic := newNextCells i.nextShape
    nextColorStatic := fun r c =>
      if (newNextCells i.nextShape r).getLsbD c then i.nextShape else 0 }

def reset (g : Regs) : Regs :=
  { g with
    coordStatic := fun i => if i.val = 21 then fullRow else emptyRow
    colorStatic := fun _ => blackRow
    currentScore := 0
    currentShape := 0
    accu := 1
    rotateCounter := 0 }

def inter (g : Regs) (i : Input) : Regs :=
  { g with
    accu := 1
    counter := if i.down then g.counter + 30 else g.counter + 1 }

def moveLeft (g : Regs) : Regs :=
  if ∃ k, Occupied g.coordStatic (g.y k).toNat (at32 (g.x k) (-1)) then g
  else { g with x := fun k => g.x k - 1 }

def moveRight (g : Regs) : Regs :=
  if ∃ k, Occupied g.coordStatic (g.y k).toNat (at32 (g.x k) 1) then g
  else { g with x := fun k => g.x k + 1 }

/-- The condition on which `MOVEDOWN` locks the piece. -/
def Landed (g : Regs) : Prop :=
  ∃ k, Occupied g.coordStatic (at32 (g.y k) 1) (g.x k).toNat

instance (g : Regs) : Decidable (Landed g) := inferInstanceAs (Decidable (∃ _, _))

def lockCoord (p : Piece) (a : Coord) : Coord :=
  (List.finRange 4).foldl (fun a k => setBit a (p.y k).toNat (p.x k).toNat) a

def lockColor (p : Piece) (v : BitVec 3) (a : Color) : Color :=
  (List.finRange 4).foldl (fun a k => setColor a (p.y k).toNat (p.x k).toNat v) a

def lock (g : Regs) : Regs :=
  { g with
    coordStatic := lockCoord g.toPiece g.coordStatic
    colorStatic := lockColor g.toPiece g.currentShape g.colorStatic
    counter := 0
    currentShape := 0 }

def fall (g : Regs) : Regs :=
  { g with
    y := fun k => g.y k + 1
    counter := 0 }

def moveDown (g : Regs) : Regs := if Landed g then lock g else fall g

section Copy
variable {α : Type*}

/-- `if (y > n) in[n+1] = old[n];` -/
def copyRow (y : BitVec 6) (old : Rows α) (new : Rows α) (n : Fin 21) : Rows α :=
  if y.toNat > n.val then new.write (n.val + 1) (old n.castSucc) else new

def copyRows (y : BitVec 6) (old new : Rows α) (ns : List (Fin 21)) : Rows α :=
  ns.foldl (copyRow y old) new

end Copy

/-- `CLEARk_1`; nothing happens unless row `y` is full. -/
def clearFirst (y : BitVec 6) (g : Regs) : Regs :=
  if FullAt g.coordStatic y.toNat then
    { g with
      coordStatic := copyRows y g.coordStatic (g.coordStatic.write y.toNat emptyRow) [19, 18, 17, 16]
      colorStatic := copyRows y g.colorStatic g.colorStatic [19, 18, 17, 16] }
  else g

/-- `CLEARk_2`, `CLEARk_3` and `CLEARk_4`, which copy the rows `ns`. -/
def clearMiddle (y : BitVec 6) (ns : List (Fin 21)) (g : Regs) : Regs :=
  { g with
    coordStatic := copyRows y g.coordStatic g.coordStatic ns
    colorStatic := copyRows y g.colorStatic g.colorStatic ns }

def clearLast (y : BitVec 6) (g : Regs) : Regs :=
  { g with
    coordStatic := (copyRows y g.coordStatic g.coordStatic [3, 2, 1, 0]).write 0 emptyRow
    colorStatic := (copyRows y g.colorStatic g.colorStatic [3, 2, 1, 0]).write 0 blackRow
    currentScore := g.currentScore + g.accu
    accu := g.accu + 1 }

/-- The five states of a pass; pass `k` is keyed by `y(k+1)`. -/
def clear (k : Fin 4) (stage : Fin 5) (g : Regs) : Regs :=
  match stage with
  | 0 => clearFirst (g.y k) g
  | 1 => clearMiddle (g.y k) [15, 14, 13, 12] g
  | 2 => clearMiddle (g.y k) [11, 10, 9, 8] g
  | 3 => clearMiddle (g.y k) [7, 6, 5, 4] g
  | 4 => clearLast (g.y k) g

def turnIf (free : Prop) [Decidable free] (d : Offsets) (g : Regs) : Regs :=
  if free then
    { g with
      toPiece := g.toPiece.shift d
      rotateCounter := g.rotateCounter + 1 }
  else g

def FreeAt (ix : BitVec 6 → Int → Nat) (d : Offsets) (g : Regs) : Prop :=
  ∀ k, Vacant g.coordStatic (ix (g.y k) (d k).2) (ix (g.x k) (d k).1)

instance (ix : BitVec 6 → Int → Nat) (d : Offsets) (g : Regs) : Decidable (FreeAt ix d g) :=
  inferInstanceAs (Decidable (∀ _, _))

def turn (ix : BitVec 6 → Int → Nat) (d : Offsets) (g : Regs) : Regs :=
  turnIf (FreeAt ix d g) d g

def rotateI (g : Regs) : Regs :=
  match g.rotateCounter with
  | 0b00 | 0b10 => turn at6 ![(1, -1), (0, 0), (-1, 1), (-2, 2)] g
  | _ => turn at6 ![(-1, 1), (0, 0), (1, -1), (2, -2)] g

def rotateJ (g : Regs) : Regs :=
  match g.rotateCounter with
  | 0b00 => turn at6 ![(1, -1), (0, 0), (-1, 1), (-2, 0)] g
  | 0b01 => turn at6 ![(1, 1), (0, 0), (-1, -1), (0, -2)] g
  | 0b10 => turn at6 ![(-1, 1), (0, 0), (1, -1), (2, 0)] g
  | _ => turn at6 ![(-1, -1), (0, 0), (1, 1), (0, 2)] g

/-- The guard of `ROTATE_L` at `2'b10`; its fourth cell is read two rows up. -/
def FreeL10 (g : Regs) : Prop :=
  FreeAt at6 ![(-1, 1), (0, 0), (1, -1), (0, -2)] g

/-- The guard of `ROTATE_L` at `2'b11`, which reads `coord_static[x][y]`. -/
def FreeL11 (g : Regs) : Prop :=
  ∀ k, Vacant g.coordStatic
    (at6 (g.x k) ((![-1, 0, 1, -2] : Fin 4 → Int) k)) (at6 (g.y k) ((![-1, 0, 1, 0] : Fin 4 → Int) k))

instance (g : Regs) : Decidable (FreeL10 g) := inferInstanceAs (Decidable (FreeAt _ _ _))
instance (g : Regs) : Decidable (FreeL11 g) := inferInstanceAs (Decidable (∀ _, _))

def rotateL (g : Regs) : Regs :=
  match g.rotateCounter with
  | 0b00 => turn at6 ![(1, -1), (0, 0), (-1, 1), (0, -2)] g
  | 0b01 => turn at6 ![(1, 1), (0, 0), (-1, -1), (2, 0)] g
  -- the update goes two rows down where the guard looked two rows up
  | 0b10 => turnIf (FreeL10 g) ![(-1, 1), (0, 0), (1, -1), (0, 2)] g
  | _ => turnIf (FreeL11 g) ![(-1, -1), (0, 0), (1, 1), (-2, 0)] g

def rotateS (g : Regs) : Regs :=
  match g.rotateCounter with
  | 0b00 | 0b10 => turn at6 ![(1, -1), (0, 0), (1, 1), (0, 2)] g
  | _ => turn at6 ![(-1, 1), (0, 0), (-1, -1), (0, -2)] g

def rotateT (g : Regs) : Regs :=
  match g.rotateCounter with
  | 0b00 => turn at6 ![(1, -1), (0, 0), (-1, 1), (-1, -1)] g
  | 0b01 => turn at6 ![(1, 1), (0, 0), (-1, -1), (1, -1)] g
  | 0b10 => turn at32 ![(-1, 1), (0, 0), (1, -1), (1, 1)] g
  | _ => turn at32 ![(-1, -1), (0, 0), (1, 1), (-1, 1)] g

def rotateZ (g : Regs) : Regs :=
  match g.rotateCounter with
  | 0b00 | 0b10 => turn at32 ![(1, -1), (0, 0), (-1, -1), (-2, 0)] g
  | _ => turn at32 ![(-1, 1), (0, 0), (1, 1), (2, 0)] g

def gameOver (g : Regs) : Regs :=
  if g.currentBest < g.currentScore then { g with currentBest := g.currentScore } else g

/-- State output control: every register except `state`. -/
def datapath (g : Regs) (i : Input) : Regs :=
  match g.state with
  | .reset => reset g
  | .newBlock => newBlock g i
  | .newNext => newNext g i
  | .inter => inter g i
  | .moveLeft => moveLeft g
  | .moveRight => moveRight g
  | .moveDown => moveDown g
  | .clear k stage => clear k stage g
  | .rotateI => rotateI g
  | .rotateJ => rotateJ g
  | .rotateL => rotateL g
  | .rotateS => rotateS g
  | .rotateT => rotateT g
  | .rotateZ => rotateZ g
  | .gameOver => gameOver g
  | .start | .afterLeft | .afterRight | .afterRotate | .beforeNew | .rotateChoose
  | .pause | .resume => g

/-- `to_sw_sig`, high while a shape number is requested. -/
def toSwSig (g : Regs) : Bool :=
  match g.state with
  | .start | .beforeNew => true
  | _ => false

def rotateChoose (shape : BitVec 3) : State :=
  match shape with
  | 0b001 => .rotateI
  | 0b010 => .rotateJ
  | 0b011 => .rotateL
  | 0b100 => .inter
  | 0b101 => .rotateS
  | 0b110 => .rotateT
  | 0b111 => .rotateZ
  | _ => .rotateChoose

def interNext (g : Regs) (i : Input) : State :=
  if g.coordStatic 0 ≠ emptyRow ∨ g.coordStatic 1 ≠ emptyRow then .gameOver
  else if i.pause then .pause
  else if g.currentShape = 0 then .clear 0 0
  else if g.counter > 60 then .moveDown
  else if i.left then .moveLeft
  else if i.right then .moveRight
  else if i.up then .rotateChoose
  else .inter

/-- The row whose fullness decides whether pass `k` loops. -/
def testRow (g : Regs) (k : Fin 4) : BitVec 6 :=
  match k with
  | 0 => g.y 0
  | 1 => g.y 1
  | 2 => g.y 2
  -- the fourth pass tests row `y1`, not `y4`
  | 3 => g.y 0

def afterPass (k : Fin 4) : State :=
  match k with
  | 0 => .clear 1 0
  | 1 => .clear 2 0
  | 2 => .clear 3 0
  | 3 => .newBlock

def clearNext (g : Regs) (k : Fin 4) (stage : Fin 5) : State :=
  match stage with
  | 0 => if FullAt g.coordStatic (testRow g k).toNat then .clear k 1 else afterPass k
  | 1 => .clear k 2
  | 2 => .clear k 3
  | 3 => .clear k 4
  | 4 => .clear k 0

def nextState (g : Regs) (i : Input) : State :=
  match g.state with
  | .reset => .newBlock
  | .start => if i.enter then .reset else .start
  | .newNext => .inter
  | .rotateChoose => rotateChoose g.currentShape
  | .newBlock => .beforeNew
  | .rotateI | .rotateJ | .rotateL | .rotateS | .rotateT | .rotateZ => .afterRotate
  | .afterRotate => if i.up then .afterRotate else .inter
  | .afterLeft => if i.left then .afterLeft else .inter
  | .afterRight => if i.right then .afterRight else .inter
  | .beforeNew => if i.fromSwSig then .newNext else .beforeNew
  | .inter => interNext g i
  | .pause => if i.resume then .inter else .pause
  | .moveLeft => .afterLeft
  | .moveRight => .afterRight
  | .moveDown => .inter
  | .clear k stage => clearNext g k stage
  | .gameOver => if i.enter then .reset else .gameOver
  | .resume => .resume

/-- One rising edge of `frameClk` with `Reset` low. -/
def step (g : Regs) (i : Input) : Regs := { datapath g i with state := nextState g i }

end Tetris
