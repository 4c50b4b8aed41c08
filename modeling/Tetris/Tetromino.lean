import Tetris.BlockLogic
import Mathlib.Data.Fintype.Basic

/-! The seven tetrominoes as sets of integer offsets from their second cell, and
what it means that the coordinate registers hold one of them. -/
namespace Tetris

inductive Shape where
  | I | J | L | O | S | T | Z
  deriving DecidableEq, Repr

instance : Fintype Shape where
  elems := {.I, .J, .L, .O, .S, .T, .Z}
  complete := fun s => by cases s <;> decide

def Shape.code : Shape → BitVec 3
  | .I => 0b001
  | .J => 0b010
  | .L => 0b011
  | .O => 0b100
  | .S => 0b101
  | .T => 0b110
  | .Z => 0b111

/-- Offsets from cell 2 of a fresh block; `y` grows downwards. -/
def Shape.spawn : Shape → Offsets
  | .I => ![(-1, 0), (0, 0), (1, 0), (2, 0)]
  | .J => ![(-1, 0), (0, 0), (1, 0), (1, 1)]
  | .L => ![(-1, 0), (0, 0), (1, 0), (-1, 1)]
  | .O => ![(0, -1), (0, 0), (1, -1), (1, 0)]
  | .S => ![(-1, 0), (0, 0), (0, -1), (1, -1)]
  | .T => ![(-1, 0), (0, 0), (1, 0), (0, 1)]
  | .Z => ![(-1, 0), (0, 0), (0, 1), (1, 1)]

def clockwise (d : Int × Int) : Int × Int := (-d.2, d.1)

/-- Quarter turns that a value of `rotate_counter` stands for. -/
def Shape.turns (s : Shape) (rc : BitVec 2) : Nat :=
  match s with
  | .J | .L | .T => rc.toNat
  | .I | .S | .Z => rc.toNat % 2
  | .O => 0

def Shape.offset (s : Shape) (rc : BitVec 2) : Offsets :=
  fun k => clockwise^[s.turns rc] (s.spawn k)

def Shape.turnBy (s : Shape) (rc : BitVec 2) : Offsets :=
  fun k => ((s.offset (rc + 1) k).1 - (s.offset rc k).1, (s.offset (rc + 1) k).2 - (s.offset rc k).2)

/-- The registers hold shape `s` at orientation `rc`. -/
def Placed (s : Shape) (rc : BitVec 2) (p : Piece) : Prop :=
  ∀ k, ((p.x k).toNat : Int) = (p.x 1).toNat + (s.offset rc k).1 ∧
    ((p.y k).toNat : Int) = (p.y 1).toNat + (s.offset rc k).2

instance (s : Shape) (rc : BitVec 2) (p : Piece) : Decidable (Placed s rc p) :=
  inferInstanceAs (Decidable (∀ _, _))

theorem forall_cells {P : Fin 4 → Prop} : (∀ k, P k) ↔ P 0 ∧ P 1 ∧ P 2 ∧ P 3 := by
  constructor
  · exact fun h => ⟨h 0, h 1, h 2, h 3⟩
  · rintro ⟨h0, h1, h2, h3⟩ k
    match k with
    | 0 => exact h0
    | 1 => exact h1
    | 2 => exact h2
    | 3 => exact h3

theorem code_injective : Function.Injective Shape.code := by
  intro s t h
  revert h
  revert s t
  decide

theorem code_ne_zero (s : Shape) : s.code ≠ 0 := by
  cases s <;> decide

theorem offset_one (s : Shape) (rc : BitVec 2) : s.offset rc 1 = (0, 0) := by
  revert s rc
  decide

theorem offset_bounds (s : Shape) (rc : BitVec 2) (k : Fin 4) :
    -1 ≤ (s.offset rc k).1 ∧ (s.offset rc k).1 ≤ 2 ∧
      -1 ≤ (s.offset rc k).2 ∧ (s.offset rc k).2 ≤ 2 := by
  revert s rc k
  decide

theorem turnBy_bounds (s : Shape) (rc : BitVec 2) (k : Fin 4) :
    -2 ≤ (s.turnBy rc k).1 ∧ (s.turnBy rc k).1 ≤ 2 ∧
      -2 ≤ (s.turnBy rc k).2 ∧ (s.turnBy rc k).2 ≤ 2 := by
  revert s rc k
  decide

theorem at6_eq (v : BitVec 6) (d : Int) : (at6 v d : Int) = (v.toNat + d) % 64 := by
  simp only [at6, BitVec.toNat_add, BitVec.toNat_ofInt]
  omega

theorem at32_eq (v : BitVec 6) (d : Int) : (at32 v d : Int) = (v.toNat + d) % 4294967296 := by
  have hv := v.isLt
  simp only [at32, BitVec.toNat_add, BitVec.toNat_ofInt, BitVec.toNat_setWidth]
  omega

theorem shift_x (p : Piece) (d : Offsets) (k : Fin 4) :
    ((p.shift d).x k).toNat = at6 (p.x k) (d k).1 := rfl

theorem shift_y (p : Piece) (d : Offsets) (k : Fin 4) :
    ((p.shift d).y k).toNat = at6 (p.y k) (d k).2 := rfl

theorem at32_eq_at6 {v : BitVec 6} {d : Int} (h : at32 v d < 22) : at32 v d = at6 v d := by
  have h6 := at6_eq v d
  have h32 := at32_eq v d
  omega

theorem Placed.shift {s : Shape} {rc rc' : BitVec 2} {p : Piece} {d : Offsets}
    (h : Placed s rc p) (hd : ∀ k, d k = ((s.offset rc' k).1 - (s.offset rc k).1 + (d 1).1,
      (s.offset rc' k).2 - (s.offset rc k).2 + (d 1).2))
    (hx : ∀ k, (((p.shift d).x k).toNat : Int) = (p.x k).toNat + (d k).1)
    (hy : ∀ k, (((p.shift d).y k).toNat : Int) = (p.y k).toNat + (d k).2) :
    Placed s rc' (p.shift d) := by
  intro k
  have hk := h k
  have hdx := congrArg Prod.fst (hd k)
  have hdy := congrArg Prod.snd (hd k)
  dsimp only at hdx hdy
  rw [hx k, hx 1, hy k, hy 1]
  omega

theorem placed_turn {s : Shape} {rc : BitVec 2} {p : Piece} (h : Placed s rc p)
    (hx : ∀ k, (((p.shift (s.turnBy rc)).x k).toNat : Int) = (p.x k).toNat + (s.turnBy rc k).1)
    (hy : ∀ k, (((p.shift (s.turnBy rc)).y k).toNat : Int) = (p.y k).toNat + (s.turnBy rc k).2) :
    Placed s (rc + 1) (p.shift (s.turnBy rc)) := by
  refine h.shift (fun k => ?_) hx hy
  simp [Shape.turnBy, offset_one]

theorem newBlockCells_placed (v : BitVec 3) :
    ∃ s : Shape, (newBlockCells v).2 = s.code ∧ Placed s 0 (newBlockCells v).1 := by
  revert v
  decide

end Tetris
