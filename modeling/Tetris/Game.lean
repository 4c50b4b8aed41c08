import Tetris.Blocks
import Tetris.Collision
import Tetris.Drawing
import Tetris.LineScore

/-! The registers as a game of falling blocks. Each step of the machine is a move of
that game, or none, as long as no rotation guard lies and the fourth clearing pass has
nothing to do. -/
namespace Tetris
open Machine Slide
open Blocks (Kit Block Game Move Field Row)

def kit : Kit (BitVec 3) Shape (BitVec 2) (Fin 4) (BitVec 8) where
  offset := Shape.offset
  upright := 0
  turn := fun rc => rc + 1
  spawn := fun s => (4, match s with | .O | .S => 2 | _ => 1)
  colour := Shape.code
  reward := fun n => BitVec.ofNat 8 (triangle n)

def content (l : Line) : Row (BitVec 3) 10 := fun j =>
  if l.1.getLsbD (j.val + 1) then some (l.2 ⟨j.val + 1, by omega⟩) else none

def fieldOf (g : Regs) : Field (BitVec 3) 10 21 := fun i => content (board g i.castSucc)

def shapeOf (v : BitVec 3) : Option Shape :=
  match v with
  | 0b001 => some .I
  | 0b010 => some .J
  | 0b011 => some .L
  | 0b100 => some .O
  | 0b101 => some .S
  | 0b110 => some .T
  | 0b111 => some .Z
  | _ => none

def blockAt (s : Shape) (g : Regs) : Block Shape (BitVec 2) :=
  ⟨s, g.rotateCounter, (((g.x 1).toNat : Int) - 1, (g.y 1).toNat)⟩

def blockOf (g : Regs) : Option (Block Shape (BitVec 2)) :=
  (shapeOf g.currentShape).map fun s => blockAt s g

def payout (a : BitVec 8) : Nat → BitVec 8
  | 0 => 0
  | n + 1 => a + payout (a + 1) n

/-- While rows are being deleted the game is already where the deletions lead. -/
def gameOf (g : Regs) : Game (BitVec 3) Shape (BitVec 2) (BitVec 8) 10 21 :=
  match g.state with
  | .clear _ _ =>
    let t := passEnd g
    { field := Blocks.collapse (fieldOf t)
      block := blockOf g
      score := t.currentScore + payout t.accu (fullRows t) }
  | _ =>
    { field := fieldOf g
      block := blockOf g
      score := g.currentScore }

def dealtShape (nextShape : BitVec 3) : Shape := (shapeOf nextShape).getD .I

/-- The move that a step makes. -/
def moveOf (g : Regs) (i : Input) : Option (Move Shape) :=
  match g.state with
  | .reset => some .restart
  | .newBlock => some (.deal (dealtShape i.nextShape))
  | .inter => if interNext g i = .clear 0 0 then some .clear else none
  | .moveLeft => some .left
  | .moveRight => some .right
  | .moveDown => some .drop
  | st => if st.rotates.isSome then some .turn else none

/-- The guard of a rotation state does not tell whether there is room for the turn. -/
def GuardLies (g : Regs) : Prop :=
  ∃ s, g.state.rotates = some s ∧ ¬ (TurnGuard s g ↔ CellsFree (turned s g))

def LateRow (g : Regs) : Prop := g.state = .clear 3 0 ∧ FullAt g.coordStatic (g.y 3).toNat

def Faultless (g : Regs) (_ : Input) : Prop := ¬ GuardLies g ∧ ¬ LateRow g

instance (s : Shape) (g : Regs) : Decidable (TurnGuard s g) :=
  match s with
  | .I | .J | .S => inferInstanceAs (Decidable (FreeAt _ _ _))
  | .Z => inferInstanceAs (Decidable (FreeAt _ _ _))
  | .T => inferInstanceAs (Decidable (if g.rotateCounter = 0b10 ∨ g.rotateCounter = 0b11 then
      FreeAt at32 _ g else FreeAt at6 _ g))
  | .L => inferInstanceAs (Decidable (if g.rotateCounter = 0b10 then FreeL10 g else
      if g.rotateCounter = 0b11 then FreeL11 g else FreeAt at6 _ g))
  | .O => inferInstanceAs (Decidable False)

instance (g : Regs) : Decidable (LateRow g) := inferInstanceAs (Decidable (_ ∧ _))
instance (g : Regs) : Decidable (GuardLies g) := inferInstanceAs (Decidable (∃ _, _))
instance (g : Regs) (i : Input) : Decidable (Faultless g i) := inferInstanceAs (Decidable (_ ∧ _))

def Counted (g : Regs) : Prop :=
  ∀ k stage, g.state = .clear k stage →
    1 ≤ (passEnd g).accu.toNat ∧ (passEnd g).accu.toNat + fullRows (passEnd g) ≤ 22

structure InGame (g : Regs) : Prop extends Sound g where
  idle : g.state = .newBlock ∨ (∃ k stage, g.state = .clear k stage) → g.currentShape = 0
  ended : g.state = .gameOver → g.currentShape = 0
  topped : Topped g
  counted : Counted g

theorem gameOf_of_not_clear {g : Regs} (h : ∀ k stage, g.state ≠ .clear k stage) :
    gameOf g = ⟨fieldOf g, blockOf g, g.currentScore⟩ := by
  unfold gameOf
  split
  · next k stage hst => exact absurd hst (h k stage)
  · rfl

theorem gameOf_of_clear {g : Regs} {k : Fin 4} {stage : Fin 5} (h : g.state = .clear k stage) :
    gameOf g = ⟨Blocks.collapse (fieldOf (passEnd g)), blockOf g,
      (passEnd g).currentScore + payout (passEnd g).accu (fullRows (passEnd g))⟩ := by
  simp only [gameOf, h]

theorem content_blank : content blankLine = Blocks.blankRow := by
  have hbit : ∀ j : Fin 10, emptyRow.getLsbD (j.val + 1) = false := by decide
  funext j
  simp only [content, blankLine, hbit, Bool.false_eq_true, if_false]
  rfl

theorem isSome_content (l : Line) (j : Fin 10) :
    (content l j).isSome = true ↔ l.1.getLsbD (j.val + 1) = true := by
  unfold content
  split_ifs with hbit
  · exact iff_of_true rfl hbit
  · exact iff_of_false Bool.false_ne_true hbit

theorem fullRow_content {l : Line} (h0 : l.1.getLsbD 0 = true) (h11 : l.1.getLsbD 11 = true) :
    Blocks.fullRow (content l) = fullLine l := by
  rw [Bool.eq_iff_iff, fullLine, beq_iff_eq, Blocks.fullRow, decide_eq_true_iff]
  simp only [isSome_content]
  constructor
  · intro hall
    refine BitVec.eq_of_getLsbD_eq fun c hc => ?_
    rw [fullRow_getLsbD hc]
    by_cases hleft : c = 0
    · rwa [hleft]
    by_cases hright : c = 11
    · rwa [hright]
    · have hc' : c - 1 + 1 = c := by omega
      have hcell := hall ⟨c - 1, by omega⟩
      simp only [hc'] at hcell
      exact hcell
  · intro hfull j
    rw [hfull]
    exact fullRow_getLsbD (by omega)

theorem ofFn_fieldOf (g : Regs) : List.ofFn (fieldOf g) = (lines g).map content := by
  rw [lines, List.map_ofFn]
  rfl

theorem fullRow_of_mem {g : Regs} (hf : Frame g.coordStatic) {l : Line} (hl : l ∈ lines g) :
    Blocks.fullRow (content l) = fullLine l := by
  obtain ⟨i, rfl⟩ := List.mem_ofFn.1 hl
  exact fullRow_content (hf.left _) (hf.right _)

theorem fullRows_fieldOf {g : Regs} (hf : Frame g.coordStatic) :
    Blocks.fullRows (fieldOf g) = fullRows g := by
  rw [Blocks.fullRows, ofFn_fieldOf, List.countP_map]
  exact List.countP_congr fun l hl => by simp [fullRow_of_mem hf hl]

theorem ofFn_collapse {g : Regs} (hf : Frame g.coordStatic) :
    List.ofFn (Blocks.collapse (fieldOf g)) = (slide fullLine blankLine (lines g)).map content := by
  rw [Blocks.collapse, ofFn_slideRows, ofFn_fieldOf, ← content_blank]
  exact slide_map fun l hl => fullRow_of_mem hf hl

theorem collapse_eq {g t : Regs} (hg : Frame g.coordStatic) (ht : Frame t.coordStatic)
    (h : slide fullLine blankLine (lines g) = slide fullLine blankLine (lines t)) :
    Blocks.collapse (fieldOf g) = Blocks.collapse (fieldOf t) := by
  apply List.ofFn_injective
  rw [ofFn_collapse hg, ofFn_collapse ht, h]

theorem collapse_settled {g : Regs} (hf : Frame g.coordStatic) (h : Settled g) :
    Blocks.collapse (fieldOf g) = fieldOf g := by
  apply List.ofFn_injective
  rw [ofFn_collapse hf, slide_of_settled h, ofFn_fieldOf]

theorem fieldOf_blank {g : Regs} (h : ∀ i : Fin 22, i.val ≤ 20 → board g i = blankLine) :
    fieldOf g = Blocks.blank := by
  funext i
  rw [fieldOf, h _ (by simp only [Fin.val_castSucc]; omega), content_blank]
  rfl

theorem open_iff (g : Regs) (c : Blocks.Cell) :
    Blocks.Open (fieldOf g) c ↔
      ∃ x y : Nat, c = ((x : Int) - 1, (y : Int)) ∧ FreeCell g.coordStatic y x := by
  constructor
  · rintro ⟨i, j, hj, hi, hnone⟩
    refine ⟨j.val + 1, i.val, Prod.ext (by dsimp only; omega) hi.symm, by omega, by omega, by omega, ?_⟩
    refine bit_eq_some.2 ⟨by omega, by omega, ?_⟩
    have hcell := isSome_content (board g i.castSucc) j
    change (fieldOf g i j).isSome = true ↔ _ at hcell
    rw [hnone] at hcell
    exact Bool.eq_false_iff.2 fun hbit => Bool.false_ne_true (hcell.2 hbit)
  · rintro ⟨x, y, rfl, hy, h1, h10, hv⟩
    obtain ⟨hy22, hx12, hbit⟩ := bit_eq_some.1 hv
    have hx : x - 1 + 1 = x := by omega
    refine ⟨⟨y, by omega⟩, ⟨x - 1, by omega⟩, by dsimp only; omega, rfl, ?_⟩
    have hcell : ¬ (g.coordStatic ⟨y, hy22⟩).getLsbD (x - 1 + 1) = true := by
      rw [hx, hbit]
      exact Bool.false_ne_true
    exact if_neg hcell

theorem open_cell_iff (g : Regs) {x y : Nat} :
    Blocks.Open (fieldOf g) ((x : Int) - 1, (y : Int)) ↔ FreeCell g.coordStatic y x := by
  rw [open_iff]
  constructor
  · rintro ⟨x', y', heq, hfree⟩
    obtain ⟨hx, hy⟩ := Prod.mk.inj heq
    obtain rfl : x = x' := by omega
    obtain rfl : y = y' := by omega
    exact hfree
  · exact fun hfree => ⟨x, y, rfl, hfree⟩

@[simp] theorem shapeOf_code (s : Shape) : shapeOf s.code = some s := by
  cases s <;> rfl

@[simp] theorem shapeOf_zero : shapeOf 0 = none := rfl

theorem blockOf_of_code {g : Regs} {s : Shape} (h : g.currentShape = s.code) :
    blockOf g = some (blockAt s g) := by
  rw [blockOf, h, shapeOf_code]
  rfl

theorem blockOf_of_zero {g : Regs} (h : g.currentShape = 0) : blockOf g = none := by
  rw [blockOf, h]
  rfl

theorem kit_cells {s : Shape} {g : Regs} (h : Placed s g.rotateCounter g.toPiece) (k : Fin 4) :
    kit.cells (blockAt s g) k = (((g.x k).toNat : Int) - 1, ((g.y k).toNat : Int)) := by
  obtain ⟨hx, hy⟩ := h k
  refine Prod.ext ?_ ?_
  · change ((g.x 1).toNat : Int) - 1 + (s.offset g.rotateCounter k).1 = _
    dsimp only
    omega
  · exact hy.symm

theorem not_open {g : Regs} {c : Blocks.Cell} {row col : Nat} (ho : Occupied g.coordStatic row col)
    (hrow : (row : Int) = c.2 % 4294967296) (hcol : (col : Int) = (c.1 + 1) % 4294967296) :
    ¬ Blocks.Open (fieldOf g) c := by
  rw [open_iff]
  rintro ⟨x, y, rfl, hfree⟩
  obtain ⟨h20, h1, h10, hv⟩ := hfree
  dsimp only at hrow hcol
  obtain rfl : row = y := by omega
  obtain rfl : col = x := by omega
  exact not_occupied_of_vacant hv ho

theorem fits_of_cells {g : Regs} {b : Block Shape (BitVec 2)} {q : Piece}
    (hcells : ∀ k, kit.cells b k = (((q.x k).toNat : Int) - 1, ((q.y k).toNat : Int))) :
    kit.Fits (fieldOf g) b ↔ ∀ k, FreeCell g.coordStatic (q.y k).toNat (q.x k).toNat := by
  refine forall_congr' fun k => ?_
  rw [hcells, open_cell_iff]

theorem cells_moved (b : Block Shape (BitVec 2)) (d : Blocks.Cell) (k : Fin 4) :
    kit.cells (b.moved d) k = kit.cells b k + d := add_right_comm _ _ _

section Held
variable {s : Shape} {g : Regs} (hf : Frame g.coordStatic) (h : Held s g)
include hf h

theorem fits_left_iff : kit.Fits (fieldOf g) ((blockAt s g).moved (-1, 0)) ↔
    ¬ ∃ k, Occupied g.coordStatic (g.y k).toNat (at32 (g.x k) (-1)) := by
  constructor
  · rintro hfits ⟨k, ho⟩
    have hx := at32_eq (g.x k) (-1)
    have hy := (g.y k).isLt
    refine not_open ho ?_ ?_ (hfits k) <;> rw [cells_moved, kit_cells h.1] <;>
      dsimp only [Prod.mk_add_mk] <;> omega
  · intro hfree k
    obtain ⟨h1, hv⟩ := room_left hf h hfree k
    have hcell : kit.cells ((blockAt s g).moved (-1, 0)) k =
        (((((g.x k).toNat - 1 : Nat) : Int) - 1), ((g.y k).toNat : Int)) := by
      rw [cells_moved, kit_cells h.1]
      exact Prod.ext (by dsimp only [Prod.mk_add_mk]; omega) (Int.add_zero _)
    rw [hcell, open_cell_iff]
    exact hf.freeCell hv

theorem fits_right_iff : kit.Fits (fieldOf g) ((blockAt s g).moved (1, 0)) ↔
    ¬ ∃ k, Occupied g.coordStatic (g.y k).toNat (at32 (g.x k) 1) := by
  constructor
  · rintro hfits ⟨k, ho⟩
    have hx := at32_eq (g.x k) 1
    have hy := (g.y k).isLt
    refine not_open ho ?_ ?_ (hfits k) <;> rw [cells_moved, kit_cells h.1] <;>
      dsimp only [Prod.mk_add_mk] <;> omega
  · intro hfree k
    have hcell : kit.cells ((blockAt s g).moved (1, 0)) k =
        (((((g.x k).toNat + 1 : Nat) : Int) - 1), ((g.y k).toNat : Int)) := by
      rw [cells_moved, kit_cells h.1]
      exact Prod.ext (by dsimp only [Prod.mk_add_mk]; omega) (Int.add_zero _)
    rw [hcell, open_cell_iff]
    exact hf.freeCell (room_right hf h hfree k).2

theorem fits_below_iff : kit.Fits (fieldOf g) ((blockAt s g).moved (0, 1)) ↔ ¬ Landed g := by
  constructor
  · rintro hfits ⟨k, ho⟩
    have hy := at32_eq (g.y k) 1
    have hx := (g.x k).isLt
    refine not_open ho ?_ ?_ (hfits k) <;> rw [cells_moved, kit_cells h.1] <;>
      dsimp only [Prod.mk_add_mk] <;> omega
  · intro hfree k
    have hcell : kit.cells ((blockAt s g).moved (0, 1)) k =
        (((g.x k).toNat : Int) - 1, (((g.y k).toNat + 1 : Nat) : Int)) := by
      rw [cells_moved, kit_cells h.1]
      exact Prod.ext (Int.add_zero _) rfl
    rw [hcell, open_cell_iff]
    exact hf.freeCell (room_below hf h hfree k).2

omit hf in
theorem fits_turned_iff : kit.Fits (fieldOf g) (kit.turned (blockAt s g)) ↔ CellsFree (turned s g) := by
  rw [turned_free_iff]
  refine forall_congr' fun k => ?_
  have hp := h.1 k
  have hcol := h.2.col k
  have hrow := h.2.row k
  have hd := turnBy_bounds s g.rotateCounter k
  have hx := at6_eq (g.x k) (s.turnBy g.rotateCounter k).1
  have hy := at6_eq (g.y k) (s.turnBy g.rotateCounter k).2
  have hcell : kit.cells (kit.turned (blockAt s g)) k =
      (((g.x k).toNat : Int) + (s.turnBy g.rotateCounter k).1 - 1,
        ((g.y k).toNat : Int) + (s.turnBy g.rotateCounter k).2) := by
    refine Prod.ext ?_ ?_
    · change ((g.x 1).toNat : Int) - 1 + (s.offset (g.rotateCounter + 1) k).1 = _
      simp only [Shape.turnBy]
      omega
    · change ((g.y 1).toNat : Int) + (s.offset (g.rotateCounter + 1) k).2 = _
      simp only [Shape.turnBy]
      omega
  rw [hcell]
  constructor
  · rw [open_iff]
    rintro ⟨x, y, heq, hfree⟩
    obtain ⟨hex, hey⟩ := Prod.mk.inj heq
    have hfree' := hfree
    obtain ⟨h20, h1, h10, -⟩ := hfree'
    have hxa : at6 (g.x k) (s.turnBy g.rotateCounter k).1 = x := by omega
    have hya : at6 (g.y k) (s.turnBy g.rotateCounter k).2 = y := by omega
    rwa [hxa, hya]
  · intro hfree
    have hfree' := hfree
    obtain ⟨h20, h1, h10, -⟩ := hfree'
    have hxa : ((g.x k).toNat : Int) + (s.turnBy g.rotateCounter k).1 =
        at6 (g.x k) (s.turnBy g.rotateCounter k).1 := by omega
    have hya : ((g.y k).toNat : Int) + (s.turnBy g.rotateCounter k).2 =
        at6 (g.y k) (s.turnBy g.rotateCounter k).2 := by omega
    rw [hxa, hya, open_cell_iff]
    exact hfree

end Held

def Plays (g : Regs) (i : Input) : Prop :=
  gameOf (step g i) = (moveOf g i).elim (gameOf g) (kit.play (gameOf g))

theorem gameOf_step {g : Regs} {i : Input} (h : ∀ k stage, nextState g i ≠ .clear k stage) :
    gameOf (step g i) =
      ⟨fieldOf (datapath g i), blockOf (datapath g i), (datapath g i).currentScore⟩ :=
  gameOf_of_not_clear h

theorem fieldOf_congr {g t : Regs} (hcoord : t.coordStatic = g.coordStatic)
    (hcolor : t.colorStatic = g.colorStatic) : fieldOf t = fieldOf g := by
  unfold fieldOf board
  rw [hcoord, hcolor]

theorem plays_still {g : Regs} {i : Input}
    (hw : ∀ r ∈ [Register.piece, .rotation, .shape, .board, .score], r ∉ g.state.writes)
    (hmove : moveOf g i = none) (hclear : ∀ k stage, g.state ≠ .clear k stage)
    (hnext : ∀ k stage, nextState g i ≠ .clear k stage) : Plays g i := by
  have hpiece : (datapath g i).toPiece = g.toPiece := datapath_keeps (hw .piece (by simp)) i
  have hrotation : (datapath g i).rotateCounter = g.rotateCounter :=
    datapath_keeps (hw .rotation (by simp)) i
  have hshape : (datapath g i).currentShape = g.currentShape := datapath_keeps (hw .shape (by simp)) i
  have hscore : (datapath g i).currentScore = g.currentScore := datapath_keeps (hw .score (by simp)) i
  obtain ⟨hcoord, hcolor⟩ : (datapath g i).coordStatic = g.coordStatic ∧
      (datapath g i).colorStatic = g.colorStatic := datapath_keeps (hw .board (by simp)) i
  unfold Plays
  rw [gameOf_step hnext, gameOf_of_not_clear hclear, hmove, fieldOf_congr hcoord hcolor, hscore]
  unfold blockOf blockAt
  rw [hpiece, hrotation, hshape]
  rfl

theorem plays_reset {g : Regs} (hst : g.state = .reset) (i : Input) : Plays g i := by
  have hmove : moveOf g i = some .restart := by simp only [moveOf, hst]
  have hdata : datapath g i = reset g := by simp only [datapath, hst]
  have hfield : fieldOf (reset g) = Blocks.blank := by
    refine fieldOf_blank fun r hr => ?_
    have hne : r.val ≠ 21 := by omega
    simp only [board, reset, hne, if_false]
    rfl
  unfold Plays
  rw [gameOf_step (by simp [nextState, hst]), hmove, hdata, hfield]
  rfl

theorem newBlockCells_dealt : ∀ v : BitVec 3, shapeOf (newBlockCells v).2 = some (dealtShape v) ∧
    ((((newBlockCells v).1.x 1).toNat : Int) - 1, (((newBlockCells v).1.y 1).toNat : Int)) =
      kit.spawn (dealtShape v) := by
  decide

theorem plays_deal {g : Regs} (hst : g.state = .newBlock) (hidle : g.currentShape = 0) (i : Input) :
    Plays g i := by
  have hmove : moveOf g i = some (.deal (dealtShape i.nextShape)) := by simp only [moveOf, hst]
  have hdata : datapath g i = newBlock g i := by simp only [datapath, hst]
  have hblock : blockOf (newBlock g i) = some (kit.dealt (dealtShape i.nextShape)) := by
    obtain ⟨hshape, hpivot⟩ := newBlockCells_dealt i.nextShape
    unfold blockOf newBlock
    dsimp only
    rw [hshape, Kit.dealt, ← hpivot]
    rfl
  unfold Plays
  rw [gameOf_step (by simp [nextState, hst]), hmove, hdata, hblock,
    gameOf_of_not_clear (by simp [hst]), blockOf_of_zero hidle]
  rfl

section Moves
variable {s : Shape} {g : Regs} {i : Input}

theorem plays_attempt {m : Move Shape} {b : Block Shape (BitVec 2)}
    (hclear : ∀ k stage, g.state ≠ .clear k stage) (hnext : ∀ k stage, nextState g i ≠ .clear k stage)
    (hmove : moveOf g i = some m) (hplay : kit.play (gameOf g) m = kit.attempt (gameOf g) b)
    (hmade : kit.Fits (fieldOf g) b → fieldOf (datapath g i) = fieldOf g ∧
      blockOf (datapath g i) = some b ∧ (datapath g i).currentScore = g.currentScore)
    (hstay : ¬ kit.Fits (fieldOf g) b → datapath g i = g) : Plays g i := by
  have hgame := gameOf_of_not_clear hclear
  unfold Plays
  rw [gameOf_step hnext, hmove]
  refine Eq.trans ?_ hplay.symm
  rw [hgame]
  by_cases hfits : kit.Fits (fieldOf g) b
  · obtain ⟨hfield, hblock, hscore⟩ := hmade hfits
    rw [Kit.attempt_of_fits hfits, hfield, hblock, hscore]
  · rw [Kit.attempt_of_not_fits hfits, hstay hfits]

theorem gameOf_of_code (hclear : ∀ k stage, g.state ≠ .clear k stage)
    (hcode : g.currentShape = s.code) :
    gameOf g = ⟨fieldOf g, some (blockAt s g), g.currentScore⟩ := by
  rw [gameOf_of_not_clear hclear, blockOf_of_code hcode]

variable (hf : Frame g.coordStatic) (h : Held s g) (hcode : g.currentShape = s.code)
include hf h hcode

theorem plays_left (hst : g.state = .moveLeft) : Plays g i := by
  have hclear (k : Fin 4) (stage : Fin 5) : g.state ≠ .clear k stage := by simp [hst]
  have hdata : datapath g i = moveLeft g := by simp only [datapath, hst]
  refine plays_attempt (m := .left) (b := (blockAt s g).moved (-1, 0)) hclear (by simp [nextState, hst])
    (by simp only [moveOf, hst]) (by rw [gameOf_of_code hclear hcode]; rfl) ?_ ?_
  · rw [fits_left_iff hf h, hdata, moveLeft]
    intro hfree
    rw [if_neg hfree]
    refine ⟨rfl, (blockOf_of_code (g := { g with x := fun k => g.x k - 1 }) hcode).trans ?_, rfl⟩
    have h1 := (room_left hf h hfree 1).1
    have hpivot := toNat_sub_one h1
    refine congrArg (fun c => some (Block.mk s g.rotateCounter c)) (Prod.ext ?_ (Int.add_zero _).symm)
    change ((g.x 1 - 1).toNat : Int) - 1 = ((g.x 1).toNat : Int) - 1 + -1
    omega
  · rw [fits_left_iff hf h, not_not, hdata, moveLeft]
    exact fun hblocked => if_pos hblocked

theorem plays_right (hst : g.state = .moveRight) : Plays g i := by
  have hclear (k : Fin 4) (stage : Fin 5) : g.state ≠ .clear k stage := by simp [hst]
  have hdata : datapath g i = moveRight g := by simp only [datapath, hst]
  refine plays_attempt (m := .right) (b := (blockAt s g).moved (1, 0)) hclear (by simp [nextState, hst])
    (by simp only [moveOf, hst]) (by rw [gameOf_of_code hclear hcode]; rfl) ?_ ?_
  · rw [fits_right_iff hf h, hdata, moveRight]
    intro hfree
    rw [if_neg hfree]
    refine ⟨rfl, (blockOf_of_code (g := { g with x := fun k => g.x k + 1 }) hcode).trans ?_, rfl⟩
    have h9 := (room_right hf h hfree 1).1
    have hpivot := toNat_add_one (v := g.x 1) (by omega)
    refine congrArg (fun c => some (Block.mk s g.rotateCounter c)) (Prod.ext ?_ (Int.add_zero _).symm)
    change ((g.x 1 + 1).toNat : Int) - 1 = ((g.x 1).toNat : Int) - 1 + 1
    omega
  · rw [fits_right_iff hf h, not_not, hdata, moveRight]
    exact fun hblocked => if_pos hblocked

omit hf in
theorem plays_turn (hst : g.state.rotates = some s) (hhonest : ¬ GuardLies g) : Plays g i := by
  have hguard : kit.Fits (fieldOf g) (kit.turned (blockAt s g)) ↔ TurnGuard s g := by
    rw [fits_turned_iff h]
    by_contra hlies
    exact hhonest ⟨s, hst, fun hiff => hlies hiff.symm⟩
  have hclear (k : Fin 4) (stage : Fin 5) : g.state ≠ .clear k stage := by
    intro hstate
    rw [hstate] at hst
    cases hst
  have hmove : moveOf g i = some .turn := by
    unfold moveOf
    cases hstate : g.state <;> rw [hstate] at hst <;> first | rfl | cases hst
  refine plays_attempt (m := .turn) (b := kit.turned (blockAt s g)) hclear
    (by simp [nextState_of_rotates hst]) hmove (by rw [gameOf_of_code hclear hcode]; rfl) ?_ ?_
  · rw [hguard, datapath_rotate hst]
    intro hyes
    have he := ((rotate_cases (rotates_ne_O hst) g).resolve_left fun hstay => hstay.1 hyes).2
    rw [he]
    refine ⟨rfl, (blockOf_of_code (g := turned s g) hcode).trans ?_, rfl⟩
    have hzero : s.turnBy g.rotateCounter 1 = (0, 0) := by simp [Shape.turnBy, offset_one]
    have hx : (g.toPiece.shift (s.turnBy g.rotateCounter)).x 1 = g.x 1 := by
      simp [Piece.shift, hzero]
    have hy : (g.toPiece.shift (s.turnBy g.rotateCounter)).y 1 = g.y 1 := by
      simp [Piece.shift, hzero]
    unfold blockAt turned Kit.turned
    dsimp only
    rw [hx, hy]
    rfl
  · rw [hguard, datapath_rotate hst]
    intro hno
    exact ((rotate_cases (rotates_ne_O hst) g).resolve_right fun hturn => hno hturn.1).2

omit hf hcode in
theorem covered_iff (i : Fin 21) (j : Fin 10) :
    (∃ k, kit.cells (blockAt s g) k = ((j.val : Int), (i.val : Int))) ↔
      ∃ k, (g.y k).toNat = i.val ∧ (g.x k).toNat = j.val + 1 := by
  refine exists_congr fun k => ?_
  rw [kit_cells h.1, Prod.mk.injEq]
  omega

omit hf in
theorem fieldOf_lock : fieldOf (lock g) =
    Blocks.paint (fieldOf g) (kit.cells (blockAt s g)) (kit.colour s) := by
  funext i j
  have hcell := covered_iff h i j
  have hbit := getLsbD_lockCoord g.toPiece g.coordStatic i.castSucc (by omega : j.val + 1 < 12)
  have hcolor := lockColor_apply g.toPiece g.currentShape g.colorStatic i.castSucc ⟨j.val + 1, by omega⟩
  simp only [Fin.val_castSucc] at hbit hcolor
  change (if (lockCoord g.toPiece g.coordStatic i.castSucc).getLsbD (j.val + 1) = true then
    some (lockColor g.toPiece g.currentShape g.colorStatic i.castSucc ⟨j.val + 1, by omega⟩)
      else none) = _
  simp only [Blocks.paint, hcell, hcolor]
  by_cases hcovered : ∃ k, (g.y k).toNat = i.val ∧ (g.x k).toNat = j.val + 1
  · rw [if_pos (hbit.2 (Or.inr hcovered)), if_pos hcovered, if_pos hcovered, hcode]
    rfl
  · rw [if_neg hcovered, if_neg hcovered]
    simp only [hbit, hcovered, or_false]
    rfl

theorem plays_drop (hst : g.state = .moveDown) : Plays g i := by
  have hclear (k : Fin 4) (stage : Fin 5) : g.state ≠ .clear k stage := by simp [hst]
  have hgame := gameOf_of_code hclear hcode
  have hmove : moveOf g i = some .drop := by simp only [moveOf, hst]
  have hdata : datapath g i = moveDown g := by simp only [datapath, hst]
  have hblock : (gameOf g).block = some (blockAt s g) := by rw [hgame]
  unfold Plays
  rw [gameOf_step (by simp [nextState, hst]), hmove, hdata]
  change _ = kit.play (gameOf g) .drop
  by_cases hl : Landed g
  · have hfits : ¬ kit.Fits (gameOf g).field ((blockAt s g).moved (0, 1)) := by
      rw [hgame, fits_below_iff hf h, not_not]
      exact hl
    rw [Kit.drop_of_not_fits hblock hfits, hgame, moveDown, if_pos hl, fieldOf_lock h hcode]
    rfl
  · have hfits : kit.Fits (gameOf g).field ((blockAt s g).moved (0, 1)) := by
      rw [hgame, fits_below_iff hf h]
      exact hl
    rw [Kit.drop_of_fits hblock hfits, hgame, moveDown, if_neg hl, blockOf_of_code (g := fall g) hcode]
    have h19 := (room_below hf h hl 1).1
    have hpivot := toNat_add_one (v := g.y 1) (by omega)
    refine congrArg (fun c => Game.mk _ (some (Block.mk s g.rotateCounter c)) _)
      (Prod.ext (Int.add_zero _).symm ?_)
    change ((g.y 1 + 1).toNat : Int) = ((g.y 1).toNat : Int) + 1
    omega

end Moves

theorem payout_eq (d n : Nat) : BitVec.ofNat 8 (triangle d) + payout (BitVec.ofNat 8 (d + 1)) n =
    BitVec.ofNat 8 (triangle (d + n)) := by
  induction n generalizing d with
  | zero => exact BitVec.add_zero _
  | succ n ih =>
    have hnext : BitVec.ofNat 8 (d + 1) + 1 = BitVec.ofNat 8 (d + 1 + 1) := by
      rw [BitVec.ofNat_add (d + 1) 1]
      rfl
    have hsum : d + (n + 1) = d + 1 + n := by omega
    rw [payout, hnext, ← BitVec.add_assoc, ← BitVec.ofNat_add, hsum]
    exact ih (d + 1)

theorem payout_one (n : Nat) : payout 1 n = BitVec.ofNat 8 (triangle n) := by
  calc payout 1 n = BitVec.ofNat 8 (triangle 0) + payout 1 n := (BitVec.zero_add _).symm
    _ = BitVec.ofNat 8 (triangle (0 + n)) := payout_eq 0 n
    _ = BitVec.ofNat 8 (triangle n) := by rw [Nat.zero_add]

theorem plays_clear {g : Regs} (hf : Frame g.coordStatic) (hst : g.state = .inter) {i : Input}
    (hnext : interNext g i = .clear 0 0) : Plays g i := by
  have hzero : g.currentShape = 0 := by
    have hshape := hnext
    unfold interNext at hshape
    split_ifs at hshape with _ _ hzero
    exact hzero
  have hmove : moveOf g i = some .clear := by simp only [moveOf, hst, hnext, if_true]
  have hstep : step g i = { inter g i with state := .clear 0 0 } := by
    simp only [step, datapath, nextState, hst, hnext]
  have hclear : (step g i).state = .clear 0 0 := by rw [hstep]
  unfold Plays
  rw [gameOf_of_clear hclear, passEnd_of_first hclear, hmove, gameOf_of_not_clear (by simp [hst]),
    blockOf_of_zero hzero, hstep]
  change Game.mk (Blocks.collapse (fieldOf g)) (blockOf _) (g.currentScore + payout 1 (fullRows g)) = _
  rw [payout_one, ← fullRows_fieldOf hf, blockOf_of_zero (by exact hzero)]
  rfl

/-- The rest of the clearing leads the registers where the game already is. -/
theorem plays_clearing {g : Regs} {k : Fin 4} {stage : Fin 5} (hst : g.state = .clear k stage)
    (htidy : Tidy g) (hidle : g.currentShape = 0) (hlate : ¬ LateRow g) (i : Input) : Plays g i := by
  have hmove : moveOf g i = none := by simp only [moveOf, hst]; rfl
  have hzero : (step g i).currentShape = 0 :=
    (shape_kept (by simp [hst]) (by simp [hst]) (by simp [hst]) i).trans hidle
  obtain ⟨hs, -⟩ := tidy_sweep hst htidy
  unfold Plays
  rw [hmove]
  change _ = gameOf g
  rw [gameOf_of_clear hst, blockOf_of_zero hidle]
  by_cases h0 : stage = 0
  · subst h0
    rw [passEnd_of_first hst] at hs ⊢
    by_cases h3 : k = 3
    · subst h3
      have hfull : ¬ FullAt g.coordStatic (g.y 3).toNat := fun hfull => hlate ⟨hst, hfull⟩
      have hstep : step g i = { g with state := .newBlock } := by rw [hs.step_fourth, if_neg hfull]
      have hsettled : Settled g := by
        have hnext := hs.settled i
        rwa [hstep] at hnext
      rw [hstep, gameOf_of_not_clear (by simp), blockOf_of_zero (by exact hidle),
        collapse_settled hs.well.frame hsettled, fullRows_of_settled hsettled]
      exact congrArg (Game.mk _ _) (BitVec.add_zero _).symm
    · by_cases hfull : FullAt g.coordStatic (g.y k).toNat
      · obtain ⟨hnext, hend⟩ := passEnd_first hst h3 (hs.row k) hfull i
        have hrows := fullRows_deletedRow (hs.row k) hfull
        rw [gameOf_of_clear hnext, hend, blockOf_of_zero hzero, ← hrows]
        rw [collapse_eq (hs.delete h3 hfull).well.frame hs.well.frame (slide_deletedRow (hs.row k) hfull)]
        exact congrArg (Game.mk _ _) (BitVec.add_assoc _ _ _)
      · have hnext := (hs.skip h3 hfull i).pass
        rw [gameOf_of_clear hnext, passEnd_of_first hnext, blockOf_of_zero hzero,
          step_skip hst h3 hfull]
        rfl
  · obtain ⟨hnext, hend⟩ := passEnd_step hst h0 i
    rw [gameOf_of_clear hnext, hend, blockOf_of_zero hzero]

theorem counted_step {g : Regs} (htidy : Tidy g) (h : Counted g) (i : Input) : Counted (step g i) := by
  intro k stage hnext
  cases clear_entered hnext with
  | inl hinter =>
    obtain ⟨hst, -, rfl⟩ := hinter
    have haccu : (step g i).accu = 1 := by simp only [step, datapath, hst, inter]
    rw [passEnd_of_first hnext, haccu]
    have hrows := fullRows_le (step g i)
    exact ⟨Nat.le_refl 1, by change 1 + _ ≤ 22; omega⟩
  | inr hother =>
    obtain ⟨k', stage', hst⟩ := hother
    obtain ⟨hs, -⟩ := tidy_sweep hst htidy
    obtain ⟨hone, hsum⟩ := h k' stage' hst
    by_cases h0 : stage' = 0
    · subst h0
      rw [passEnd_of_first hst] at hs hone hsum
      by_cases h3 : k' = 3
      · subst h3
        rw [hs.step_fourth] at hnext
        split_ifs at hnext
      · by_cases hfull : FullAt g.coordStatic (g.y k').toNat
        · rw [(passEnd_first hst h3 (hs.row k') hfull i).2]
          have hrows := fullRows_deletedRow (hs.row k') hfull
          change 1 ≤ (g.accu + 1).toNat ∧ (g.accu + 1).toNat + _ ≤ 22
          have haccu : (g.accu + 1).toNat = g.accu.toNat + 1 := by bv_omega
          omega
        · rw [passEnd_of_first (hs.skip h3 hfull i).pass, step_skip hst h3 hfull]
          exact ⟨hone, hsum⟩
    · rw [(passEnd_step hst h0 i).2]
      exact ⟨hone, hsum⟩

theorem not_stuck {g : Regs} (h : ¬ LateRow g) : ¬ LastRowStuck g := fun hs => h ⟨hs.1, hs.2.1⟩

theorem idle_step {g : Regs} (h : InGame g) (i : Input)
    (hnext : (step g i).state = .newBlock ∨ ∃ k stage, (step g i).state = .clear k stage) :
    (step g i).currentShape = 0 := by
  have hkept (hidle : g.currentShape = 0) (hst : g.state = .inter ∨ ∃ k stage, g.state = .clear k stage) :
      (step g i).currentShape = 0 := by
    refine (shape_kept ?_ ?_ ?_ i).trans hidle <;> rcases hst with hst | ⟨k, stage, hst⟩ <;> simp [hst]
  have hclear (hst : ∃ k stage, g.state = .clear k stage) : (step g i).currentShape = 0 :=
    hkept (h.idle (Or.inr hst)) (Or.inr hst)
  rcases hnext with hnew | ⟨k, stage, hnext⟩
  · have hfrom : g.state = .reset ∨ ∃ k stage, g.state = .clear k stage :=
      entered_from (P := fun st => st = .reset ∨ ∃ k stage, st = .clear k stage) (by decide) hnew
    cases hfrom with
    | inl hreset =>
      change (datapath g i).currentShape = 0
      simp only [datapath, hreset, reset]
    | inr hst => exact hclear hst
  · cases clear_entered hnext with
    | inl hinter => exact hkept hinter.2.1 (Or.inl hinter.1)
    | inr hst => exact hclear hst

theorem over_step {g : Regs} (h : InGame g) (i : Input) (hnext : (step g i).state = .gameOver) :
    (step g i).currentShape = 0 := by
  have hkept (hzero : g.currentShape = 0) (hst : g.state = .inter ∨ g.state = .gameOver) :
      (step g i).currentShape = 0 := by
    refine (shape_kept ?_ ?_ ?_ i).trans hzero <;> rcases hst with hst | hst <;> simp [hst]
  by_cases hst : g.state = .gameOver
  · exact hkept (h.ended hst) (Or.inr hst)
  · obtain ⟨hinter, htop⟩ := gameOver_entered hst hnext
    refine hkept ?_ (Or.inl hinter)
    by_contra hne
    exact htop (h.topped.clear (Or.inl hne))

theorem inGame_step {g : Regs} (h : InGame g) (hlate : ¬ LateRow g) (i : Input) : InGame (step g i) :=
  ⟨sound_step h.toSound (not_stuck hlate) i, idle_step h i, over_step h i, topped_step h.topped i,
    counted_step h.tidy h.counted i⟩

theorem InGame.held {g : Regs} (h : InGame g) (hst : g.state ≠ .newBlock) :
    (g.currentShape = 0) ∨ ∃ s, g.currentShape = s.code ∧ Held s g := by
  obtain ⟨s, hcode | hzero, hheld⟩ := h.well.holdsPiece hst
  · exact Or.inr ⟨s, hcode, hheld⟩
  · exact Or.inl hzero

theorem plays_idle {g : Regs} {i : Input} {m : Move Shape} (hzero : g.currentShape = 0)
    (hw : ∀ r ∈ [Register.shape, .board, .score], r ∉ g.state.writes)
    (hmove : moveOf g i = some m) (hm : ∀ G, G.block = none → kit.play (w := 10) (h := 21) G m = G)
    (hclear : ∀ k stage, g.state ≠ .clear k stage)
    (hnext : ∀ k stage, nextState g i ≠ .clear k stage) : Plays g i := by
  have hshape : (datapath g i).currentShape = g.currentShape := datapath_keeps (hw .shape (by simp)) i
  have hscore : (datapath g i).currentScore = g.currentScore := datapath_keeps (hw .score (by simp)) i
  obtain ⟨hcoord, hcolor⟩ : (datapath g i).coordStatic = g.coordStatic ∧
      (datapath g i).colorStatic = g.colorStatic := datapath_keeps (hw .board (by simp)) i
  have hgame := gameOf_of_not_clear hclear
  rw [blockOf_of_zero hzero] at hgame
  unfold Plays
  rw [gameOf_step hnext, hmove, blockOf_of_zero (hshape.trans hzero), fieldOf_congr hcoord hcolor, hscore]
  refine Eq.trans ?_ (hm _ (by rw [hgame])).symm
  rw [hgame]

theorem plays {g : Regs} {i : Input} (hok : Faultless g i) (h : InGame g) : Plays g i := by
  obtain ⟨hhonest, hlate⟩ := hok
  have hf := h.well.frame
  cases hrot : g.state.rotates with
  | some s =>
    have hcode := h.well.ownRotation s hrot
    have hne : g.state ≠ .newBlock := fun hst => by simp [hst, State.rotates] at hrot
    rcases h.held hne with hzero | ⟨t, ht, hheld⟩
    · exact absurd (hcode.symm.trans hzero) (code_ne_zero s)
    · obtain rfl : s = t := code_injective (hcode.symm.trans ht)
      exact plays_turn hheld hcode hrot hhonest
  | none =>
    cases hst : g.state with
    | reset => exact plays_reset hst i
    | newBlock => exact plays_deal hst (h.idle (Or.inl hst)) i
    | clear k stage => exact plays_clearing hst h.tidy (h.idle (Or.inr ⟨k, stage, hst⟩)) hlate i
    | inter =>
      by_cases hclear : interNext g i = .clear 0 0
      · exact plays_clear hf hst hclear
      · refine plays_still (by simp [hst, State.writes]) ?_ (by simp [hst]) fun k stage hnext => ?_
        · simp only [moveOf, hst, hclear, if_false]
        · have hmem := nextState_mem g i
          rw [hnext, hst] at hmem
          simp only [State.successors, List.mem_cons, State.clear.injEq, reduceCtorEq, false_or, or_false,
            List.not_mem_nil] at hmem
          obtain ⟨rfl, rfl⟩ := hmem
          exact hclear (by simpa only [nextState, hst] using hnext)
    | moveLeft =>
      rcases h.held (by simp [hst]) with hzero | ⟨s, hcode, hheld⟩
      · exact plays_idle (m := .left) hzero (by simp [hst, State.writes]) (by simp only [moveOf, hst])
          (fun G hG => by simp only [Kit.play, hG]) (by simp [hst]) (by simp [nextState, hst])
      · exact plays_left hf hheld hcode hst
    | moveRight =>
      rcases h.held (by simp [hst]) with hzero | ⟨s, hcode, hheld⟩
      · exact plays_idle (m := .right) hzero (by simp [hst, State.writes]) (by simp only [moveOf, hst])
          (fun G hG => by simp only [Kit.play, hG]) (by simp [hst]) (by simp [nextState, hst])
      · exact plays_right hf hheld hcode hst
    | moveDown =>
      rcases h.held (by simp [hst]) with hzero | ⟨s, hcode, hheld⟩
      · exact absurd hzero (h.armed hst)
      · exact plays_drop hf hheld hcode hst
    | rotateI | rotateJ | rotateL | rotateS | rotateT | rotateZ => simp [hst, State.rotates] at hrot
    | _ =>
      refine plays_still (by simp [hst, State.writes]) (by simp only [moveOf, hst]; rfl) (by simp [hst])
        fun k stage hnext => ?_
      cases clear_entered hnext with
      | inl hinter => simp [hst] at hinter
      | inr hclear => simp [hst] at hclear

/-- The machine refines the game. -/
theorem simulates : Simulates step kit.play moveOf gameOf Faultless InGame :=
  fun _ i hok h => ⟨inGame_step h hok.2 i, plays hok h⟩

theorem Restarted.inGame {g : Regs} (h : Restarted g) : InGame g := by
  refine ⟨h.sound, fun _ => ?_, fun _ => ?_, ?_, fun k stage hclear => ?_⟩ <;>
    obtain ⟨g₀, i, hst, rfl⟩ := h
  · change (datapath g₀ i).currentShape = 0
    simp only [datapath, hst, reset]
  · change (datapath g₀ i).currentShape = 0
    simp only [datapath, hst, reset]
  · refine Or.inl ?_
    change TopClear (datapath g₀ i).coordStatic
    simp only [datapath, hst]
    exact ⟨rfl, rfl⟩
  · simp [step, nextState, hst] at hclear

theorem Restarted.gameOf_eq {g : Regs} (h : Restarted g) : gameOf g = ⟨Blocks.blank, none, 0⟩ := by
  obtain ⟨g₀, i, hst, rfl⟩ := h
  have hplays := plays_reset hst i
  unfold Plays at hplays
  rw [hplays]
  simp only [moveOf, hst]
  rfl

theorem GuardLies.spoils {g : Regs} (h : InGame g) (hlies : GuardLies g) (i : Input) : ¬ Plays g i := by
  obtain ⟨s, hst, hwrong⟩ := hlies
  have hcode := h.well.ownRotation s hst
  have hclear (k : Fin 4) (stage : Fin 5) : g.state ≠ .clear k stage := by
    intro hstate
    rw [hstate] at hst
    cases hst
  have hheld : Held s g := by
    rcases h.held (fun hnew => by simp [hnew, State.rotates] at hst) with hzero | ⟨t, ht, hheld⟩
    · exact absurd (hcode.symm.trans hzero) (code_ne_zero s)
    · obtain rfl : s = t := code_injective (hcode.symm.trans ht)
      exact hheld
  have hmove : moveOf g i = some .turn := by
    unfold moveOf
    cases hstate : g.state <;> rw [hstate] at hst <;> first | rfl | cases hst
  have hplay : kit.play (gameOf g) .turn = kit.attempt (gameOf g) (kit.turned (blockAt s g)) := by
    rw [gameOf_of_code hclear hcode]
    rfl
  have horient : g.rotateCounter + 1 ≠ g.rotateCounter := by
    generalize g.rotateCounter = rc
    revert rc
    decide
  have hgame := gameOf_of_code hclear hcode
  rw [← fits_turned_iff hheld] at hwrong
  intro hplays
  unfold Plays at hplays
  rw [gameOf_step (by simp [nextState_of_rotates hst]), hmove, Option.elim_some, hplay, hgame,
    datapath_rotate hst] at hplays
  by_cases hfits : kit.Fits (fieldOf g) (kit.turned (blockAt s g))
  · have hno : ¬ TurnGuard s g := fun hyes => hwrong (iff_of_true hyes hfits)
    have he := ((rotate_cases (rotates_ne_O hst) g).resolve_right fun hturn => hno hturn.1).2
    rw [Kit.attempt_of_fits hfits, he, blockOf_of_code hcode] at hplays
    have hblock := Option.some.inj (congrArg Game.block hplays)
    exact horient (congrArg Block.orientation hblock).symm
  · have hyes : TurnGuard s g := by
      by_contra hno
      exact hwrong (iff_of_false hno hfits)
    have he := ((rotate_cases (rotates_ne_O hst) g).resolve_left fun hstay => hstay.1 hyes).2
    rw [Kit.attempt_of_not_fits hfits, he, blockOf_of_code (g := turned s g) hcode] at hplays
    have hblock := Option.some.inj (congrArg Game.block hplays)
    exact horient (congrArg Block.orientation hblock)

theorem LateRow.spoils {g : Regs} (h : InGame g) (hlate : LateRow g) (i : Input) : ¬ Plays g i := by
  obtain ⟨hst, hfull⟩ := hlate
  have hmove : moveOf g i = none := by simp only [moveOf, hst]; rfl
  obtain ⟨hs, -⟩ := tidy_sweep hst h.tidy
  obtain ⟨hone, hsum⟩ := h.counted 3 0 hst
  rw [passEnd_of_first hst] at hs hone hsum
  have hrows : fullRows g = 1 := by rw [hs.fullRows_eq, if_pos hfull]
  have hnext : nextState g i = .newBlock := by
    have hstep : (step g i).state = .newBlock := by rw [hs.step_fourth, if_pos hfull]
    exact hstep
  have hscore : (datapath g i).currentScore = g.currentScore :=
    datapath_keeps (r := .score) (by simp [hst, State.writes]) i
  intro hplays
  unfold Plays at hplays
  rw [gameOf_step (by simp [hnext]), hmove, Option.elim_none, gameOf_of_clear hst,
    passEnd_of_first hst, hrows, hscore] at hplays
  have hpaid : g.currentScore = g.currentScore + (g.accu + 0) := congrArg Game.score hplays
  bv_omega

/-- From a restart on, the registers are at every moment those of the game that the moves
so far lead to, as long as no step is taken where a rotation guard lies or a row is found
late, and no longer. -/
theorem run_is_a_game_iff {g : Regs} (h : Restarted g) (is : List Input) :
    (∀ js, js <+: is →
        gameOf (run step g js) = run kit.play ⟨Blocks.blank, none, 0⟩ (trace step moveOf g js)) ↔
      Throughout step Faultless g is := by
  rw [← h.gameOf_eq]
  refine simulates.run_iff (fun t i ht hplays => ⟨fun hlies => ?_, fun hlate => ?_⟩) h.inGame is
  · exact hlies.spoils ht i hplays
  · exact hlate.spoils ht i hplays

def newGame : Regs := step { resetRegs with state := .reset } {}

theorem newGame_restarted : Restarted newGame := ⟨_, {}, rfl, rfl⟩

/-- A new game, in which two flat I's and an O fill row 20 before a T is dealt. -/
def firstRow : List Input :=
  let deal : BitVec 3 → List Input := fun v => List.replicate 3 { nextShape := v, fromSwSig := true }
  let left : List Input := [{ left := true }, {}, {}]
  let right : List Input := [{ right := true }, {}, {}]
  let drop : Nat → List Input := fun n => List.replicate n { down := true }
  deal 1 ++ left ++ left ++ left ++ drop 104 ++ deal 1 ++ right ++ drop 103 ++
    deal 4 ++ right ++ right ++ right ++ right ++ drop 103 ++ deal 6

theorem firstRow_is_a_game_iff :
    (∀ js, js <+: firstRow → gameOf (run step newGame js) =
        run kit.play ⟨Blocks.blank, none, 0⟩ (trace step moveOf newGame js)) ↔
      Throughout step Faultless newGame firstRow :=
  run_is_a_game_iff newGame_restarted firstRow

end Tetris
