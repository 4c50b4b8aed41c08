import Tetris.Motion

/-! When a move of the falling piece ends on empty cells. -/
namespace Tetris

/-- A falling piece: shape `s` on four empty interior cells of an intact frame, in
any state but `NEW_BLOCK`, `CLEAR*` and the rotation states of other shapes. -/
structure Falling (s : Shape) (g : Regs) : Prop where
  shape : g.currentShape = s.code
  notNewBlock : g.state ≠ .newBlock
  notClear : ∀ k j, g.state ≠ .clear k j
  ownRotation : ∀ t, g.state.rotates = some t → t = s
  frame : Frame g.coordStatic
  placed : Placed s g.rotateCounter g.toPiece
  free : CellsFree g

/-- `ROTATE_L` at `2'b10` or `2'b11` turns the piece onto a cell that is not an
empty interior cell. -/
def BlindTurn (g : Regs) : Prop :=
  g.state = .rotateL ∧ BlindBranch .L g.rotateCounter ∧ TurnGuard .L g ∧
    ∃ k, ¬ FreeCell g.coordStatic (at6 (g.y k) (Shape.L.turnBy g.rotateCounter k).2)
      (at6 (g.x k) (Shape.L.turnBy g.rotateCounter k).1)

theorem Falling.held {s : Shape} {g : Regs} (h : Falling s g) : Held s g :=
  held_of_interior h.placed fun k => ⟨(h.free k).1, (h.free k).2.1, (h.free k).2.2.1⟩

theorem reset_free {g : Regs} (h : CellsFree g) : CellsFree (reset g) := by
  intro k
  obtain ⟨hr, h1, h10, -⟩ := h k
  have hrow : (g.y k).toNat < 22 := by omega
  have hcol : (g.x k).toNat < 12 := by omega
  refine ⟨hr, h1, h10, bit_eq_some.2 ⟨hrow, hcol, ?_⟩⟩
  have h21 : (g.y k).toNat ≠ 21 := by omega
  simp only [reset, h21, if_false]
  exact emptyRow_getLsbD h1 h10

theorem moveLeft_free {s : Shape} {g : Regs} (hf : Frame g.coordStatic) (hh : Held s g)
    (h : CellsFree g) : CellsFree (moveLeft g) := by
  unfold moveLeft
  split_ifs with hblocked
  · exact h
  · intro k
    obtain ⟨h1, hv⟩ := room_left hf hh hblocked k
    have hx := toNat_sub_one h1
    rw [← hx] at hv
    exact hf.freeCell hv

theorem moveRight_free {s : Shape} {g : Regs} (hf : Frame g.coordStatic) (hh : Held s g)
    (h : CellsFree g) : CellsFree (moveRight g) := by
  unfold moveRight
  split_ifs with hblocked
  · exact h
  · intro k
    obtain ⟨h9, hv⟩ := room_right hf hh hblocked k
    have hx := toNat_add_one (v := g.x k) (by omega)
    rw [← hx] at hv
    exact hf.freeCell hv

theorem fall_free {s : Shape} {g : Regs} (hf : Frame g.coordStatic) (hh : Held s g)
    (hl : ¬ Landed g) : CellsFree (fall g) := by
  intro k
  obtain ⟨h19, hv⟩ := room_below hf hh hl k
  have hy := toNat_add_one (v := g.y k) (by omega)
  rw [← hy] at hv
  exact hf.freeCell hv

theorem step_free {s : Shape} {g : Regs} (h : Falling s g) (hrot : g.state.rotates = none)
    (hlock : ¬ (g.state = .moveDown ∧ Landed g)) (i : Input) : CellsFree (step g i) := by
  change CellsFree (datapath g i)
  unfold datapath
  cases hst : g.state <;> rw [hst] at hrot <;> try simp [State.rotates] at hrot
  case newBlock => exact absurd hst h.notNewBlock
  case clear k j => exact absurd hst (h.notClear k j)
  case reset => exact reset_free h.free
  case moveLeft => exact moveLeft_free h.frame h.held h.free
  case moveRight => exact moveRight_free h.frame h.held h.free
  case moveDown =>
    have hl : ¬ Landed g := fun hl => hlock ⟨hst, hl⟩
    simp only [moveDown, hl, if_false]
    exact fall_free h.frame h.held hl
  case gameOver =>
    simp only [gameOver]
    split_ifs <;> exact h.free
  all_goals exact h.free

theorem turned_free_iff (s : Shape) (g : Regs) :
    CellsFree (turned s g) ↔
      ∀ k, FreeCell g.coordStatic (at6 (g.y k) (s.turnBy g.rotateCounter k).2)
        (at6 (g.x k) (s.turnBy g.rotateCounter k).1) := Iff.rfl

/-- A step other than a lock leaves the piece on empty interior cells unless it is
a blind turn of an L. -/
theorem falling_step_free_iff {s : Shape} {g : Regs} (h : Falling s g)
    (hlock : ¬ (g.state = .moveDown ∧ Landed g)) (i : Input) :
    CellsFree (step g i) ↔ ¬ BlindTurn g := by
  cases hrot : g.state.rotates with
  | none =>
    have hno : ¬ BlindTurn g := fun hb => by simp [hb.1, State.rotates] at hrot
    exact iff_of_true (step_free h hrot hlock i) hno
  | some t =>
    obtain rfl := h.ownRotation t hrot
    change CellsFree (datapath g i) ↔ _
    rw [datapath_rotate hrot]
    rcases rotate_cases (rotates_ne_O hrot) g with ⟨hguard, he⟩ | ⟨hguard, he⟩ <;> rw [he]
    · refine iff_of_true h.free fun hb => ?_
      obtain ⟨hst, -, hL, -⟩ := hb
      obtain rfl : Shape.L = t := by simpa [hst, State.rotates] using hrot
      exact hguard hL
    · rw [turned_free_iff]
      constructor
      · rintro hfree ⟨hst, -, -, k, hk⟩
        obtain rfl : Shape.L = t := by simpa [hst, State.rotates] using hrot
        exact hk (hfree k)
      · intro hno
        by_cases hb : BlindBranch t g.rotateCounter
        · obtain ⟨rfl, hrc⟩ := hb
          have hst : g.state = .rotateL := by
            cases hst : g.state <;> simp [hst, State.rotates] at hrot ⊢
          by_contra hk
          exact hno ⟨hst, ⟨rfl, hrc⟩, hguard, not_forall.1 hk⟩
        · exact fun k => h.frame.freeCell (hguard.free hb k)

/-- An L after three turns, beside the left wall of an empty well, about to be
turned once more. -/
def lAtWall : Regs :=
  { reset resetRegs with
    x := ![1, 1, 1, 2]
    y := ![6, 5, 4, 6]
    state := .rotateL
    rotateCounter := 3
    currentShape := 0b011 }

theorem lAtWall_falling : Falling .L lAtWall where
  shape := rfl
  notNewBlock := by decide
  notClear := by intro k j; simp [lAtWall]
  ownRotation := by decide
  frame := ⟨by decide, by decide, by decide⟩
  placed := by decide
  free := by decide

theorem turn_into_wall : ∃ (s : Shape) (g : Regs) (i : Input), Falling s g ∧
    ¬ (g.state = .moveDown ∧ Landed g) ∧ ¬ CellsFree (step g i) :=
  ⟨.L, lAtWall, {}, lAtWall_falling, by decide, by decide⟩

theorem lAtWall_step_free_iff : CellsFree (step lAtWall {}) ↔ ¬ BlindTurn lAtWall :=
  falling_step_free_iff lAtWall_falling (by decide) {}

/-- `ROTATE_s` holds a piece on empty interior cells, and `q`, its next orientation
about cell 2, lies on empty interior cells too. -/
structure Turnable (s : Shape) (q : Piece) (g : Regs) : Prop where
  state : g.state.rotates = some s
  shape : g.currentShape = s.code
  frame : Frame g.coordStatic
  placed : Placed s g.rotateCounter g.toPiece
  free : CellsFree g
  pivot : q.x 1 = g.x 1 ∧ q.y 1 = g.y 1
  next : Placed s (g.rotateCounter + 1) q
  room : ∀ k, FreeCell g.coordStatic (q.y k).toNat (q.x k).toNat

/-- `ROTATE_L` reads a cell that is not empty where the turn does not go: two rows
above cell 4 at `2'b10`, the target cells with row and column exchanged at `2'b11`. -/
def Misread (q : Piece) (g : Regs) : Prop :=
  g.state = .rotateL ∧
    ((g.rotateCounter = 2 ∧ ¬ Vacant g.coordStatic (at6 (g.y 3) (-2)) (g.x 3).toNat) ∨
      (g.rotateCounter = 3 ∧ ∃ k, ¬ Vacant g.coordStatic (q.x k).toNat (q.y k).toNat))

instance (q : Piece) (g : Regs) : Decidable (Misread q g) := inferInstanceAs (Decidable (_ ∧ _))

theorem index_eq {v w : BitVec 6} {d : Int} (h : (w.toNat : Int) = v.toNat + d) :
    at6 v d = w.toNat ∧ at32 v d = w.toNat := by
  have hw := w.isLt
  have h6 := at6_eq v d
  have h32 := at32_eq v d
  constructor <;> omega

section Turnable
variable {s : Shape} {q : Piece} {g : Regs} (h : Turnable s q g)
include h

theorem Turnable.target (k : Fin 4) :
    ((q.x k).toNat : Int) = (g.x k).toNat + (s.turnBy g.rotateCounter k).1 ∧
      ((q.y k).toNat : Int) = (g.y k).toNat + (s.turnBy g.rotateCounter k).2 := by
  have hp := h.placed k
  have hq := h.next k
  rw [h.pivot.1, h.pivot.2] at hq
  simp only [Shape.turnBy]
  omega

theorem Turnable.shift_eq : g.toPiece.shift (s.turnBy g.rotateCounter) = q := by
  have hx (k : Fin 4) : (g.toPiece.shift (s.turnBy g.rotateCounter)).x k = q.x k :=
    BitVec.eq_of_toNat_eq (index_eq (h.target k).1).1
  have hy (k : Fin 4) : (g.toPiece.shift (s.turnBy g.rotateCounter)).y k = q.y k :=
    BitVec.eq_of_toNat_eq (index_eq (h.target k).2).1
  exact congrArg₂ Piece.mk (funext hx) (funext hy)

theorem Turnable.free6 : FreeAt at6 (s.turnBy g.rotateCounter) g := by
  intro k
  rw [(index_eq (h.target k).1).1, (index_eq (h.target k).2).1]
  exact (h.room k).2.2.2

theorem Turnable.free32 : FreeAt at32 (s.turnBy g.rotateCounter) g := by
  intro k
  rw [(index_eq (h.target k).1).2, (index_eq (h.target k).2).2]
  exact (h.room k).2.2.2

theorem Turnable.guard (hb : ¬ BlindBranch s g.rotateCounter) : TurnGuard s g := by
  cases s with
  | I => exact h.free6
  | J => exact h.free6
  | S => exact h.free6
  | O => exact absurd rfl (rotates_ne_O h.state)
  | Z => exact h.free32
  | T =>
    simp only [TurnGuard]
    split_ifs
    · exact h.free32
    · exact h.free6
  | L =>
    simp only [TurnGuard]
    split_ifs with h2 h3
    · exact absurd ⟨rfl, Or.inl h2⟩ hb
    · exact absurd ⟨rfl, Or.inr h3⟩ hb
    · exact h.free6

end Turnable

theorem freeL10_iff {q : Piece} {g : Regs} (h : Turnable .L q g) (hrc : g.rotateCounter = 2) :
    FreeL10 g ↔ Vacant g.coordStatic (at6 (g.y 3) (-2)) (g.x 3).toNat := by
  have hturn : Shape.L.turnBy 2 = ![(-1, 1), (0, 0), (1, -1), (0, 2)] := by decide
  have hfree := h.free6
  rw [hrc, hturn, FreeAt, forall_cells] at hfree
  obtain ⟨h0, h1, h2, -⟩ := hfree
  have hx : at6 (g.x 3) 0 = (g.x 3).toNat := (index_eq (by omega)).1
  rw [FreeL10, FreeAt, forall_cells]
  simp only [Matrix.cons_val, Matrix.cons_val_zero, Matrix.cons_val_one] at h0 h1 h2 ⊢
  rw [hx]
  exact ⟨fun hall => hall.2.2.2, fun h3 => ⟨h0, h1, h2, h3⟩⟩

theorem freeL11_iff {q : Piece} {g : Regs} (h : Turnable .L q g) (hrc : g.rotateCounter = 3) :
    FreeL11 g ↔ ∀ k, Vacant g.coordStatic (q.x k).toNat (q.y k).toNat := by
  have hx : ∀ k, (![-1, 0, 1, -2] : Fin 4 → Int) k = (Shape.L.turnBy 3 k).1 := by decide
  have hy : ∀ k, (![-1, 0, 1, 0] : Fin 4 → Int) k = (Shape.L.turnBy 3 k).2 := by decide
  refine forall_congr' fun k => ?_
  have hk := h.target k
  rw [hrc] at hk
  rw [hx, hy, (index_eq hk.1).1, (index_eq hk.2).1]

theorem turnable_guard_iff {s : Shape} {q : Piece} {g : Regs} (h : Turnable s q g) :
    TurnGuard s g ↔ ¬ Misread q g := by
  by_cases hb : BlindBranch s g.rotateCounter
  · obtain ⟨rfl, hrc⟩ := hb
    have hst : g.state = .rotateL := by
      have hrot := h.state
      cases hst : g.state <;> simp [hst, State.rotates] at hrot ⊢
    cases hrc with
    | inl hrc =>
      have hguard : TurnGuard .L g ↔ FreeL10 g := by simp [TurnGuard, hrc]
      rw [hguard, freeL10_iff h hrc]
      simp [Misread, hst, hrc]
    | inr hrc =>
      have hguard : TurnGuard .L g ↔ FreeL11 g := by simp [TurnGuard, hrc]
      rw [hguard, freeL11_iff h hrc]
      simp [Misread, hst, hrc]
  · refine iff_of_true (h.guard hb) fun hmis => hb ?_
    obtain ⟨hst, hrc⟩ := hmis
    obtain rfl : Shape.L = s := by simpa [hst, State.rotates] using h.state
    exact ⟨rfl, hrc.imp And.left And.left⟩

theorem nextState_of_rotates {g : Regs} {s : Shape} (h : g.state.rotates = some s) (i : Input) :
    nextState g i = .afterRotate := by
  unfold nextState
  cases hst : g.state <;> simp [hst, State.rotates] at h ⊢

/-- A turn onto empty interior cells is made, and nothing else, unless an L is misread. -/
theorem free_turn_made_iff {s : Shape} {q : Piece} {g : Regs} (h : Turnable s q g) (i : Input) :
    step g i = { g with
        toPiece := q
        rotateCounter := g.rotateCounter + 1
        state := .afterRotate } ↔
      ¬ Misread q g := by
  have hstep : step g i = { rotate s g with state := .afterRotate } := by
    rw [step, datapath_rotate h.state, nextState_of_rotates h.state]
  rw [← turnable_guard_iff h, hstep]
  cases rotate_cases (rotates_ne_O h.state) g with
  | inl hstay =>
    rw [hstay.2]
    refine iff_of_false (fun heq => ?_) hstay.1
    have hrc : g.rotateCounter = g.rotateCounter + 1 := (congrArg Regs.rotateCounter heq :)
    revert hrc
    generalize g.rotateCounter = rc
    revert rc
    decide
  | inr hturn =>
    rw [hturn.2]
    refine iff_of_true ?_ hturn.1
    rw [turned, h.shift_eq]

def deepL : Regs :=
  { reset resetRegs with
    x := ![5, 5, 5, 6]
    y := ![16, 15, 14, 16]
    state := .rotateL
    rotateCounter := 3
    currentShape := 0b011 }

def deepLTurned : Piece := ⟨![4, 5, 6, 4], ![15, 15, 15, 16]⟩

theorem deepL_turnable : Turnable .L deepLTurned deepL where
  state := rfl
  shape := rfl
  frame := ⟨by decide, by decide, by decide⟩
  placed := by decide
  free := by decide
  pivot := ⟨rfl, rfl⟩
  next := by decide
  room := by decide

theorem deepL_refused : ∃ (s : Shape) (q : Piece) (g : Regs) (i : Input), Turnable s q g ∧
    step g i ≠ { g with
      toPiece := q
      rotateCounter := g.rotateCounter + 1
      state := .afterRotate } :=
  ⟨.L, deepLTurned, deepL, {}, deepL_turnable, fun h =>
    absurd (congrArg Regs.rotateCounter h) (by decide)⟩

theorem deepL_turn_made_iff :
    step deepL {} = { deepL with
        toPiece := deepLTurned
        rotateCounter := deepL.rotateCounter + 1
        state := .afterRotate } ↔
      ¬ Misread deepLTurned deepL :=
  free_turn_made_iff deepL_turnable {}

end Tetris
