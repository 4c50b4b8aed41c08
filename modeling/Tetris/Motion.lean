import Tetris.Tetromino

/-! Moves and rotations of the falling piece inside an intact frame. -/
namespace Tetris

structure Frame (a : Coord) : Prop where
  left : ∀ r : Fin 22, (a r).getLsbD 0 = true
  right : ∀ r : Fin 22, (a r).getLsbD 11 = true
  floor : a 21 = fullRow

/-- The coordinates stay in the well; cell 2 is never in a wall. -/
structure InBounds (p : Piece) : Prop where
  col : ∀ k, (p.x k).toNat ≤ 10
  row : ∀ k, (p.y k).toNat ≤ 20
  pivot : 1 ≤ (p.x 1).toNat

def FreeCell (a : Coord) (r c : Nat) : Prop := r ≤ 20 ∧ 1 ≤ c ∧ c ≤ 10 ∧ Vacant a r c

instance (a : Coord) (r c : Nat) : Decidable (FreeCell a r c) :=
  inferInstanceAs (Decidable (_ ∧ _))

def CellsFree (g : Regs) : Prop := ∀ k, FreeCell g.coordStatic (g.y k).toNat (g.x k).toNat

instance (g : Regs) : Decidable (CellsFree g) := inferInstanceAs (Decidable (∀ _, _))

/-- The registers hold shape `s`, turned as `rotate_counter` says, within bounds. -/
def Held (s : Shape) (g : Regs) : Prop := Placed s g.rotateCounter g.toPiece ∧ InBounds g.toPiece

theorem held_of_interior {s : Shape} {g : Regs} (hp : Placed s g.rotateCounter g.toPiece)
    (hi : ∀ k, (g.y k).toNat ≤ 20 ∧ 1 ≤ (g.x k).toNat ∧ (g.x k).toNat ≤ 10) : Held s g :=
  ⟨hp, fun k => (hi k).2.2, fun k => (hi k).1, (hi 1).2.1⟩

theorem vacant_of_not_occupied {a : Coord} {r c : Nat} (hr : r < 22) (hc : c < 12)
    (h : ¬ Occupied a r c) : Vacant a r c := by
  rw [Vacant, bit_eq_some]
  refine ⟨hr, hc, ?_⟩
  have hb : ¬ (a ⟨r, hr⟩).getLsbD c = true := fun hb => h (bit_eq_some.2 ⟨hr, hc, hb⟩)
  simpa using hb

theorem Frame.occupied_left {a : Coord} (h : Frame a) {r : Nat} (hr : r < 22) : Occupied a r 0 :=
  bit_eq_some.2 ⟨hr, by omega, h.left _⟩

theorem Frame.occupied_right {a : Coord} (h : Frame a) {r : Nat} (hr : r < 22) :
    Occupied a r 11 :=
  bit_eq_some.2 ⟨hr, by omega, h.right _⟩

theorem fullRow_getLsbD {c : Nat} (hc : c < 12) : fullRow.getLsbD c = true := by
  revert c
  decide

theorem emptyRow_getLsbD {c : Nat} (h1 : 1 ≤ c) (h10 : c ≤ 10) : emptyRow.getLsbD c = false := by
  have hc : c < 11 := by omega
  revert h1 h10
  revert c
  decide

theorem Frame.occupied_floor {a : Coord} (h : Frame a) {c : Nat} (hc : c < 12) :
    Occupied a 21 c := by
  refine bit_eq_some.2 ⟨by omega, hc, ?_⟩
  have hfloor : a ⟨21, by omega⟩ = fullRow := h.floor
  rw [hfloor]
  exact fullRow_getLsbD hc

theorem not_occupied_of_vacant {a : Coord} {r c : Nat} (h : Vacant a r c) : ¬ Occupied a r c := by
  intro ho
  have he : some false = some true := h.symm.trans ho
  simp at he

theorem Frame.freeCell {a : Coord} (h : Frame a) {r c : Nat} (hv : Vacant a r c) :
    FreeCell a r c := by
  obtain ⟨hr, hc, -⟩ := bit_eq_some.1 hv
  have hno := not_occupied_of_vacant hv
  have h0 : c ≠ 0 := fun he => hno (he ▸ h.occupied_left hr)
  have h11 : c ≠ 11 := fun he => hno (he ▸ h.occupied_right hr)
  have h21 : r ≠ 21 := fun he => hno (he ▸ h.occupied_floor hc)
  exact ⟨by omega, by omega, by omega, hv⟩

theorem toNat_sub_one {v : BitVec 6} (h : 1 ≤ v.toNat) : (v - 1).toNat = v.toNat - 1 := by
  bv_omega

theorem toNat_add_one {v : BitVec 6} (h : v.toNat ≤ 62) : (v + 1).toNat = v.toNat + 1 := by
  bv_omega

theorem pivot_off_wall {g : Regs} (hf : Frame g.coordStatic) (hb : InBounds g.toPiece)
    (hfree : ¬ ∃ k, Occupied g.coordStatic (g.y k).toNat (at32 (g.x k) (-1))) :
    2 ≤ (g.x 1).toNat := by
  have hpos := hb.pivot
  have hrow := hb.row 1
  have hne : (g.x 1).toNat ≠ 1 := by
    intro he
    have hi : at32 (g.x 1) (-1) = 0 := by have := at32_eq (g.x 1) (-1); omega
    refine hfree ⟨1, ?_⟩
    rw [hi]
    exact hf.occupied_left (by omega)
  omega

theorem room_left {g : Regs} {s : Shape} (hf : Frame g.coordStatic) (h : Held s g)
    (hfree : ¬ ∃ k, Occupied g.coordStatic (g.y k).toNat (at32 (g.x k) (-1))) (k : Fin 4) :
    1 ≤ (g.x k).toNat ∧ Vacant g.coordStatic (g.y k).toNat ((g.x k).toNat - 1) := by
  obtain ⟨hp, hb⟩ := h
  have hpivot := pivot_off_wall hf hb hfree
  have hk := (hp k).1
  have hd := offset_bounds s g.rotateCounter k
  have h1 : 1 ≤ (g.x k).toNat := by omega
  have hi : at32 (g.x k) (-1) = (g.x k).toNat - 1 := by have := at32_eq (g.x k) (-1); omega
  have hrow := hb.row k
  have hcol := hb.col k
  refine ⟨h1, vacant_of_not_occupied (by omega) (by omega) fun ho => hfree ⟨k, ?_⟩⟩
  rw [hi]
  exact ho

theorem room_right {g : Regs} {s : Shape} (hf : Frame g.coordStatic) (h : Held s g)
    (hfree : ¬ ∃ k, Occupied g.coordStatic (g.y k).toNat (at32 (g.x k) 1)) (k : Fin 4) :
    (g.x k).toNat ≤ 9 ∧ Vacant g.coordStatic (g.y k).toNat ((g.x k).toNat + 1) := by
  have hrow := h.2.row k
  have hcol := h.2.col k
  have hi : at32 (g.x k) 1 = (g.x k).toNat + 1 := by have := at32_eq (g.x k) 1; omega
  have hno : ¬ Occupied g.coordStatic (g.y k).toNat ((g.x k).toNat + 1) :=
    fun ho => hfree ⟨k, hi ▸ ho⟩
  have h10 : (g.x k).toNat ≠ 10 := by
    intro he
    rw [he] at hno
    exact hno (hf.occupied_right (by omega))
  exact ⟨by omega, vacant_of_not_occupied (by omega) (by omega) hno⟩

theorem room_below {g : Regs} {s : Shape} (hf : Frame g.coordStatic) (h : Held s g)
    (hfree : ¬ Landed g) (k : Fin 4) :
    (g.y k).toNat ≤ 19 ∧ Vacant g.coordStatic ((g.y k).toNat + 1) (g.x k).toNat := by
  have hrow := h.2.row k
  have hcol := h.2.col k
  have hi : at32 (g.y k) 1 = (g.y k).toNat + 1 := by have := at32_eq (g.y k) 1; omega
  have hno : ¬ Occupied g.coordStatic ((g.y k).toNat + 1) (g.x k).toNat :=
    fun ho => hfree ⟨k, hi ▸ ho⟩
  have h20 : (g.y k).toNat ≠ 20 := by
    intro he
    rw [he] at hno
    exact hno (hf.occupied_floor (by omega))
  exact ⟨by omega, vacant_of_not_occupied (by omega) (by omega) hno⟩

theorem moveLeft_held {g : Regs} {s : Shape} (hf : Frame g.coordStatic) (h : Held s g) :
    Held s (moveLeft g) := by
  unfold moveLeft
  split_ifs with hblocked
  · exact h
  · have hroom := room_left hf h hblocked
    have hx (k : Fin 4) : (g.x k - 1).toNat = (g.x k).toNat - 1 := toNat_sub_one (hroom k).1
    obtain ⟨hp, hb⟩ := h
    refine ⟨fun k => ⟨?_, (hp k).2⟩, fun k => ?_, hb.row, ?_⟩
    · have h1 := (hroom 1).1
      have hk := (hroom k).1
      have := (hp k).1
      simp only [hx]
      omega
    · have := hb.col k
      simp only [hx]
      omega
    · have := pivot_off_wall hf hb hblocked
      simp only [hx]
      omega

theorem moveRight_held {g : Regs} {s : Shape} (hf : Frame g.coordStatic) (h : Held s g) :
    Held s (moveRight g) := by
  unfold moveRight
  split_ifs with hblocked
  · exact h
  · have hroom := room_right hf h hblocked
    have hx (k : Fin 4) : (g.x k + 1).toNat = (g.x k).toNat + 1 :=
      toNat_add_one (by have := (hroom k).1; omega)
    obtain ⟨hp, hb⟩ := h
    refine ⟨fun k => ⟨?_, (hp k).2⟩, fun k => ?_, hb.row, ?_⟩
    · have := (hp k).1
      simp only [hx]
      omega
    · have := (hroom k).1
      simp only [hx]
      omega
    · simp only [hx]
      omega

theorem fall_held {g : Regs} {s : Shape} (hf : Frame g.coordStatic) (h : Held s g)
    (hl : ¬ Landed g) : Held s (fall g) := by
  have hroom := room_below hf h hl
  have hy (k : Fin 4) : (g.y k + 1).toNat = (g.y k).toNat + 1 :=
    toNat_add_one (by have := (hroom k).1; omega)
  obtain ⟨hp, hb⟩ := h
  refine ⟨fun k => ⟨(hp k).1, ?_⟩, hb.col, fun k => ?_, hb.pivot⟩
  · have := (hp k).2
    simp only [fall, hy]
    omega
  · have := (hroom k).1
    simp only [fall, hy]
    omega

def State.rotates : State → Option Shape
  | .rotateI => some .I
  | .rotateJ => some .J
  | .rotateL => some .L
  | .rotateS => some .S
  | .rotateT => some .T
  | .rotateZ => some .Z
  | _ => none

theorem rotates_ne_O {st : State} {t : Shape} (h : st.rotates = some t) : t ≠ .O := by
  rintro rfl
  cases st <;> simp [State.rotates] at h

def rotate (s : Shape) (g : Regs) : Regs :=
  match s with
  | .I => rotateI g
  | .J => rotateJ g
  | .L => rotateL g
  | .O => g
  | .S => rotateS g
  | .T => rotateT g
  | .Z => rotateZ g

theorem datapath_rotate {g : Regs} {s : Shape} (h : g.state.rotates = some s) (i : Input) :
    datapath g i = rotate s g := by
  unfold datapath
  cases hst : g.state <;> rw [hst] at h <;> simp [State.rotates] at h <;> subst h <;> rfl

def TurnGuard (s : Shape) (g : Regs) : Prop :=
  match s with
  | .I | .J | .S => FreeAt at6 (s.turnBy g.rotateCounter) g
  | .Z => FreeAt at32 (s.turnBy g.rotateCounter) g
  | .T =>
    if g.rotateCounter = 0b10 ∨ g.rotateCounter = 0b11 then
      FreeAt at32 (s.turnBy g.rotateCounter) g
    else FreeAt at6 (s.turnBy g.rotateCounter) g
  | .L =>
    if g.rotateCounter = 0b10 then FreeL10 g
    else if g.rotateCounter = 0b11 then FreeL11 g
    else FreeAt at6 (s.turnBy g.rotateCounter) g
  | .O => False

def turned (s : Shape) (g : Regs) : Regs :=
  { g with
    toPiece := g.toPiece.shift (s.turnBy g.rotateCounter)
    rotateCounter := g.rotateCounter + 1 }

theorem eq_three : ∀ {v : BitVec 2}, v ≠ 0#2 → v ≠ 1#2 → v ≠ 2#2 → v = 3#2 := by
  decide

theorem eq_one_or_three : ∀ {v : BitVec 2}, v ≠ 0#2 → v ≠ 2#2 → v = 1#2 ∨ v = 3#2 := by
  decide

theorem turnIf_cases {P G : Prop} [Decidable P] {d : Offsets} {s : Shape} {g : Regs}
    (hG : G ↔ P) (hd : d = s.turnBy g.rotateCounter) :
    (¬ G ∧ turnIf P d g = g) ∨ (G ∧ turnIf P d g = turned s g) := by
  rw [hG]
  unfold turnIf
  split_ifs with hP
  · exact Or.inr ⟨hP, by rw [hd]; rfl⟩
  · exact Or.inl ⟨hP, rfl⟩

theorem turn_cases {ix : BitVec 6 → Int → Nat} {G : Prop} {d : Offsets} {s : Shape} {g : Regs}
    (hG : G ↔ FreeAt ix (s.turnBy g.rotateCounter) g) (hd : d = s.turnBy g.rotateCounter) :
    (¬ G ∧ turn ix d g = g) ∨ (G ∧ turn ix d g = turned s g) := by
  subst hd
  exact turnIf_cases hG rfl

/-- A rotation state either leaves the registers alone or makes the geometric turn. -/
theorem rotate_cases {s : Shape} (hs : s ≠ .O) (g : Regs) :
    (¬ TurnGuard s g ∧ rotate s g = g) ∨ (TurnGuard s g ∧ rotate s g = turned s g) := by
  cases s with
  | O => exact absurd rfl hs
  | I =>
    simp only [rotate, rotateI]
    split
    · next h => exact turn_cases Iff.rfl (by rw [h]; decide)
    · next h => exact turn_cases Iff.rfl (by rw [h]; decide)
    · next h0 h2 =>
      rcases eq_one_or_three h0 h2 with h | h <;> exact turn_cases Iff.rfl (by rw [h]; decide)
  | J =>
    simp only [rotate, rotateJ]
    split
    · next h => exact turn_cases Iff.rfl (by rw [h]; decide)
    · next h => exact turn_cases Iff.rfl (by rw [h]; decide)
    · next h => exact turn_cases Iff.rfl (by rw [h]; decide)
    · next h0 h1 h2 =>
      have h := eq_three h0 h1 h2
      exact turn_cases Iff.rfl (by rw [h]; decide)
  | L =>
    simp only [rotate, rotateL]
    split
    · next h => exact turn_cases (by simp [TurnGuard, h]) (by rw [h]; decide)
    · next h => exact turn_cases (by simp [TurnGuard, h]) (by rw [h]; decide)
    · next h => exact turnIf_cases (by simp [TurnGuard, h]) (by rw [h]; decide)
    · next h0 h1 h2 =>
      have h := eq_three h0 h1 h2
      exact turnIf_cases (by simp [TurnGuard, h]) (by rw [h]; decide)
  | S =>
    simp only [rotate, rotateS]
    split
    · next h => exact turn_cases Iff.rfl (by rw [h]; decide)
    · next h => exact turn_cases Iff.rfl (by rw [h]; decide)
    · next h0 h2 =>
      rcases eq_one_or_three h0 h2 with h | h <;> exact turn_cases Iff.rfl (by rw [h]; decide)
  | T =>
    simp only [rotate, rotateT]
    split
    · next h => exact turn_cases (by simp [TurnGuard, h]) (by rw [h]; decide)
    · next h => exact turn_cases (by simp [TurnGuard, h]) (by rw [h]; decide)
    · next h => exact turn_cases (by simp [TurnGuard, h]) (by rw [h]; decide)
    · next h0 h1 h2 =>
      have h := eq_three h0 h1 h2
      exact turn_cases (by simp [TurnGuard, h]) (by rw [h]; decide)
  | Z =>
    simp only [rotate, rotateZ]
    split
    · next h => exact turn_cases Iff.rfl (by rw [h]; decide)
    · next h => exact turn_cases Iff.rfl (by rw [h]; decide)
    · next h0 h2 =>
      rcases eq_one_or_three h0 h2 with h | h <;> exact turn_cases Iff.rfl (by rw [h]; decide)

/-- The two branches of `ROTATE_L` whose guard does not read the cells they move to. -/
def BlindBranch (s : Shape) (rc : BitVec 2) : Prop := s = .L ∧ (rc = 2 ∨ rc = 3)

instance (s : Shape) (rc : BitVec 2) : Decidable (BlindBranch s rc) :=
  inferInstanceAs (Decidable (_ ∧ _))

theorem FreeAt.narrow {d : Offsets} {g : Regs} (h : FreeAt at32 d g) : FreeAt at6 d g := by
  intro k
  have hk := h k
  obtain ⟨hr, hc, -⟩ := bit_eq_some.1 hk
  rwa [at32_eq_at6 hr, at32_eq_at6 (v := g.x k) (by omega)] at hk

theorem TurnGuard.free {s : Shape} {g : Regs} (h : TurnGuard s g)
    (hb : ¬ BlindBranch s g.rotateCounter) : FreeAt at6 (s.turnBy g.rotateCounter) g := by
  cases s with
  | I => exact h
  | J => exact h
  | S => exact h
  | O => exact h.elim
  | Z => exact FreeAt.narrow h
  | T =>
    simp only [TurnGuard] at h
    split_ifs at h with hrc
    · exact FreeAt.narrow h
    · exact h
  | L =>
    simp only [TurnGuard] at h
    split_ifs at h with h2 h3
    · exact absurd ⟨rfl, Or.inl h2⟩ hb
    · exact absurd ⟨rfl, Or.inr h3⟩ hb
    · exact h

theorem turned_held {s : Shape} {g : Regs} (h : Held s g)
    (hx : ∀ k, at6 (g.x k) (s.turnBy g.rotateCounter k).1 ≤ 10)
    (hy : ∀ k, at6 (g.y k) (s.turnBy g.rotateCounter k).2 ≤ 20) : Held s (turned s g) := by
  obtain ⟨hp, hb⟩ := h
  refine ⟨placed_turn hp (fun k => ?_) (fun k => ?_), hx, hy, ?_⟩
  · have hd := turnBy_bounds s g.rotateCounter k
    have hcol := hb.col k
    have hk := hx k
    have he := at6_eq (g.x k) (s.turnBy g.rotateCounter k).1
    rw [shift_x]
    omega
  · have hd := turnBy_bounds s g.rotateCounter k
    have hrow := hb.row k
    have hk := hy k
    have he := at6_eq (g.y k) (s.turnBy g.rotateCounter k).2
    rw [shift_y]
    omega
  · have he := at6_eq (g.x 1) (s.turnBy g.rotateCounter 1).1
    have hd : (s.turnBy g.rotateCounter 1).1 = 0 := by simp [Shape.turnBy, offset_one]
    have hcol := hb.col 1
    have hpos := hb.pivot
    rw [hd] at he
    simp only [turned, shift_x, hd]
    omega

/-- At `2'b10` the guard misses the cell it moves to, but that cell lies in a row
that the guard reads elsewhere. -/
theorem blind10_held {g : Regs} (hf : Frame g.coordStatic) (h : Held .L g)
    (hrc : g.rotateCounter = 2) (hfree : FreeL10 g) : Held .L (turned .L g) := by
  have hoff : Shape.L.offset 2 = ![(1, 0), (0, 0), (-1, 0), (1, -1)] := by decide
  have hturn : Shape.L.turnBy 2 = ![(-1, 1), (0, 0), (1, -1), (0, 2)] := by decide
  have hp := h.1
  rw [hrc] at hp
  have hcell (k : Fin 4) := hf.freeCell (hfree k)
  have h0 := hcell 0
  have h1 := hcell 1
  have h2 := hcell 2
  have hp0 := hp 0
  have hp3 := hp 3
  have hcol := h.2.col 3
  have hx3 := at6_eq (g.x 3) 0
  have hy3 := at6_eq (g.y 3) 2
  have hy0 := at6_eq (g.y 0) 1
  rw [hoff] at hp0 hp3
  simp only [Matrix.cons_val, Matrix.cons_val_zero, Matrix.cons_val_one, FreeCell] at hp0 hp3 h0 h1 h2
  refine turned_held h (forall_cells.2 ?_) (forall_cells.2 ?_) <;> rw [hrc, hturn] <;>
    simp only [Matrix.cons_val, Matrix.cons_val_zero, Matrix.cons_val_one]
  · exact ⟨h0.2.2.1, h1.2.2.1, h2.2.2.1, by omega⟩
  · exact ⟨h0.1, h1.1, h2.1, by omega⟩

/-- At `2'b11` the guard reads rows for columns; that the piece stays in the well
follows from where it is before the turn. -/
theorem blind11_held {g : Regs} (h : Held .L g) (hrc : g.rotateCounter = 3) :
    Held .L (turned .L g) := by
  have hoff : Shape.L.offset 3 = ![(0, 1), (0, 0), (0, -1), (1, 1)] := by decide
  have hturn : Shape.L.turnBy 3 = ![(-1, -1), (0, 0), (1, 1), (-2, 0)] := by decide
  have hp := h.1
  rw [hrc] at hp
  have hp0 := hp 0
  have hp2 := hp 2
  have hp3 := hp 3
  rw [hoff] at hp0 hp2 hp3
  simp only [Matrix.cons_val, Matrix.cons_val_zero] at hp0 hp2 hp3
  have hcol1 := h.2.col 1
  have hcol3 := h.2.col 3
  have hrow0 := h.2.row 0
  have hpos := h.2.pivot
  refine turned_held h (forall_cells.2 ?_) (forall_cells.2 ?_) <;> rw [hrc, hturn] <;>
    simp only [Matrix.cons_val, Matrix.cons_val_zero, Matrix.cons_val_one]
  · have e0 := at6_eq (g.x 0) (-1)
    have e1 := at6_eq (g.x 1) 0
    have e2 := at6_eq (g.x 2) 1
    have e3 := at6_eq (g.x 3) (-2)
    omega
  · have e0 := at6_eq (g.y 0) (-1)
    have e1 := at6_eq (g.y 1) 0
    have e2 := at6_eq (g.y 2) 1
    have e3 := at6_eq (g.y 3) 0
    omega

/-- Whatever its guard reads, a rotation keeps the shape and stays in the well. -/
theorem rotate_held {s : Shape} {g : Regs} (hf : Frame g.coordStatic) (h : Held s g) :
    Held s (rotate s g) := by
  by_cases hs : s = .O
  · subst hs
    exact h
  cases rotate_cases hs g with
  | inl hstay =>
    rw [hstay.2]
    exact h
  | inr hturn =>
    obtain ⟨hguard, he⟩ := hturn
    rw [he]
    by_cases hb : BlindBranch s g.rotateCounter
    · obtain ⟨rfl, hrc | hrc⟩ := hb
      · exact blind10_held hf h hrc (by simpa [TurnGuard, hrc] using hguard)
      · exact blind11_held h hrc
    · have hcell (k : Fin 4) := hf.freeCell (hguard.free hb k)
      exact turned_held h (fun k => (hcell k).2.2.1) fun k => (hcell k).1

end Tetris
