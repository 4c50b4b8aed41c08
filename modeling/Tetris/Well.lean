import Tetris.Access
import Tetris.Machine

/-! The frame and the piece inside it: one invariant of the whole state machine. -/
namespace Tetris
open Machine

/-- The coordinate registers hold the active piece, or the one just locked. -/
def HoldsPiece (g : Regs) : Prop :=
  ∃ s : Shape, (g.currentShape = s.code ∨ g.currentShape = 0) ∧ Held s g

structure InWell (g : Regs) : Prop where
  started : g.state ≠ .start
  frame : Frame g.coordStatic
  piece : (g.state = .newBlock ∧ g.currentShape = 0) ∨ HoldsPiece g
  ownRotation : ∀ t, g.state.rotates = some t → g.currentShape = t.code

theorem emptyRow_left : emptyRow.getLsbD 0 = true := by decide
theorem emptyRow_right : emptyRow.getLsbD 11 = true := by decide

theorem Frame.write {a : Coord} (h : Frame a) {r : Nat} (hr : r ≠ 21) {v : BitVec 12}
    (h0 : v.getLsbD 0 = true) (h11 : v.getLsbD 11 = true) : Frame (a.write r v) where
  left := fun i => by rw [Rows.write_apply]; split_ifs; exacts [h0, h.left i]
  right := fun i => by rw [Rows.write_apply]; split_ifs; exacts [h11, h.right i]
  floor := by
    have hne : (21 : Fin 22).val ≠ r := hr.symm
    rw [Rows.write_apply, if_neg hne]
    exact h.floor

theorem Frame.writeEmpty {a : Coord} (h : Frame a) {r : Nat} (hr : r ≠ 21) :
    Frame (a.write r emptyRow) := h.write hr emptyRow_left emptyRow_right

theorem Frame.copyRow {old new : Coord} (ho : Frame old) (hn : Frame new) (y : BitVec 6)
    {n : Fin 21} (h : n.val < 20) : Frame (copyRow y old new n) := by
  unfold Tetris.copyRow
  split_ifs
  · exact hn.write (by omega) (ho.left _) (ho.right _)
  · exact hn

theorem Frame.copyRows {old : Coord} (ho : Frame old) (y : BitVec 6) {ns : List (Fin 21)}
    (h : ∀ n ∈ ns, n.val < 20) {new : Coord} (hn : Frame new) :
    Frame (copyRows y old new ns) := by
  induction ns generalizing new with
  | nil => exact hn
  | cons n ns ih =>
    have hn' := ho.copyRow hn y (h n List.mem_cons_self)
    exact ih (fun m hm => h m (List.mem_cons_of_mem n hm)) hn'

theorem Frame.setBit {a : Coord} (h : Frame a) (r c : Nat) : Frame (setBit a r c) where
  left := fun i => by rw [getLsbD_setBit, h.left i, Bool.true_or]
  right := fun i => by rw [getLsbD_setBit, h.right i, Bool.true_or]
  floor := by
    have hfull (c : Nat) : fullRow ||| BitVec.twoPow 12 c = fullRow := by
      have hones : fullRow = BitVec.allOnes 12 := by decide
      rw [hones, BitVec.allOnes_or]
    unfold Tetris.setBit
    rw [Rows.modify_apply, h.floor]
    split_ifs
    · exact hfull c
    · rfl

theorem lockCoord_induction {P : Coord → Prop} (p : Piece)
    (hset : ∀ a k, P a → P (setBit a (p.y k).toNat (p.x k).toNat)) {a : Coord} (h : P a) :
    P (lockCoord p a) := by
  unfold lockCoord
  generalize List.finRange 4 = ks
  induction ks generalizing a with
  | nil => exact h
  | cons k ks ih => exact ih (hset a k h)

theorem getLsbD_lockCoord (p : Piece) (a : Coord) (i : Fin 22) {j : Nat} (hj : j < 12) :
    (lockCoord p a i).getLsbD j = true ↔
      (a i).getLsbD j = true ∨ ∃ k, (p.y k).toNat = i.val ∧ (p.x k).toNat = j := by
  have hfold (ks : List (Fin 4)) (a : Coord) :
      (ks.foldl (fun a k => setBit a (p.y k).toNat (p.x k).toNat) a i).getLsbD j = true ↔
        (a i).getLsbD j = true ∨ ∃ k ∈ ks, (p.y k).toNat = i.val ∧ (p.x k).toNat = j := by
    induction ks generalizing a with
    | nil => simp
    | cons k ks ih =>
      rw [List.foldl_cons, ih, getLsbD_setBit, Bool.or_eq_true, decide_eq_true_eq,
        List.exists_mem_cons_iff, or_assoc]
      refine or_congr_right (or_congr_left ⟨fun h => ⟨h.1.symm, h.2.1.symm⟩, fun h => ?_⟩)
      exact ⟨h.1.symm, h.2.symm, h.2 ▸ hj⟩
  rw [lockCoord, hfold]
  simp

theorem Frame.lockCoord {a : Coord} (h : Frame a) (p : Piece) : Frame (lockCoord p a) :=
  lockCoord_induction p (fun _ _ hb => hb.setBit _ _) h

theorem reset_frame (g : Regs) : Frame (reset g).coordStatic where
  left := fun i => by simp only [reset]; split_ifs; exacts [fullRow_getLsbD (by omega), emptyRow_left]
  right := fun i => by
    simp only [reset]; split_ifs; exacts [fullRow_getLsbD (by omega), emptyRow_right]
  floor := rfl

theorem clear_frame {g : Regs} (hf : Frame g.coordStatic) {k : Fin 4} (hy : (g.y k).toNat ≤ 20)
    (stage : Fin 5) : Frame (clear k stage g).coordStatic := by
  match stage with
  | 0 =>
    simp only [clear, clearFirst]
    split_ifs
    · exact hf.copyRows _ (by decide) (hf.writeEmpty (by omega))
    · exact hf
  | 1 => exact hf.copyRows _ (by decide) hf
  | 2 => exact hf.copyRows _ (by decide) hf
  | 3 => exact hf.copyRows _ (by decide) hf
  | 4 => exact (hf.copyRows _ (by decide) hf).writeEmpty (by omega)

theorem newBlockCells_inBounds (v : BitVec 3) : InBounds (newBlockCells v).1 := by
  have hcol : ∀ v k, ((newBlockCells v).1.x k).toNat ≤ 10 := by decide
  have hrow : ∀ v k, ((newBlockCells v).1.y k).toNat ≤ 20 := by decide
  have hpivot : ∀ v, 1 ≤ ((newBlockCells v).1.x 1).toNat := by decide
  exact ⟨hcol v, hrow v, hpivot v⟩

theorem newBlock_holdsPiece (g : Regs) (i : Input) : HoldsPiece (newBlock g i) := by
  obtain ⟨s, hs, hp⟩ := newBlockCells_placed i.nextShape
  exact ⟨s, Or.inl hs, hp, newBlockCells_inBounds i.nextShape⟩

theorem InWell.holdsPiece {g : Regs} (h : InWell g) (hst : g.state ≠ .newBlock) : HoldsPiece g :=
  h.piece.resolve_left fun hn => hst hn.1

theorem moveDown_holdsPiece {g : Regs} (hf : Frame g.coordStatic) (h : HoldsPiece g) :
    HoldsPiece (moveDown g) := by
  obtain ⟨s, hcode, hheld⟩ := h
  unfold moveDown
  split_ifs with hl
  · exact ⟨s, Or.inr rfl, hheld⟩
  · exact ⟨s, hcode, fall_held hf hheld hl⟩

theorem datapath_held {s : Shape} {g : Regs} (hf : Frame g.coordStatic) (h : Held s g)
    (hown : ∀ t, g.state.rotates = some t → s = t) (hreset : g.state ≠ .reset)
    (hnew : g.state ≠ .newBlock) (hdown : g.state ≠ .moveDown) (i : Input) :
    Held s (datapath g i) := by
  cases hrot : g.state.rotates with
  | some t =>
    rw [datapath_rotate hrot, ← hown t hrot]
    exact rotate_held hf h
  | none =>
    have hno : ¬ ∃ t, g.state.rotates = some t := by simp [hrot]
    by_cases hleft : g.state = .moveLeft
    · simp only [datapath, hleft]
      exact moveLeft_held hf h
    by_cases hright : g.state = .moveRight
    · simp only [datapath, hright]
      exact moveRight_held hf h
    have hrotation : (datapath g i).rotateCounter = g.rotateCounter := by
      refine datapath_keeps (r := .rotation) (fun hw => ?_) i
      rcases rotation_writers _ hw with hst | hst | hst <;> contradiction
    have hpiece : (datapath g i).toPiece = g.toPiece := by
      refine datapath_keeps (r := .piece) (fun hw => ?_) i
      rcases piece_writers _ hw with hst | hst | hst | hst | hst <;> contradiction
    unfold Held
    rwa [hpiece, hrotation]

theorem datapath_piece {g : Regs} (h : InWell g) (i : Input) :
    (g.state = .reset ∧ (datapath g i).currentShape = 0) ∨ HoldsPiece (datapath g i) := by
  by_cases hreset : g.state = .reset
  · left
    simp only [datapath, hreset]
    exact ⟨trivial, rfl⟩
  right
  by_cases hnew : g.state = .newBlock
  · simp only [datapath, hnew]
    exact newBlock_holdsPiece g i
  by_cases hdown : g.state = .moveDown
  · simp only [datapath, hdown]
    exact moveDown_holdsPiece h.frame (h.holdsPiece hnew)
  obtain ⟨s, hcode, hheld⟩ := h.holdsPiece hnew
  have hown (t : Shape) (hrot : g.state.rotates = some t) : s = t := by
    have hshape := h.ownRotation t hrot
    cases hcode with
    | inl hcode => exact code_injective (hcode.symm.trans hshape)
    | inr hcode => exact absurd (hshape.symm.trans hcode) (code_ne_zero t)
  refine ⟨s, ?_, datapath_held h.frame hheld hown hreset hnew hdown i⟩
  rw [shape_kept hreset hnew hdown]
  exact hcode

theorem datapath_frame {g : Regs} (h : InWell g) (i : Input) : Frame (datapath g i).coordStatic := by
  by_cases hreset : g.state = .reset
  · simp only [datapath, hreset]
    exact reset_frame g
  by_cases hdown : g.state = .moveDown
  · simp only [datapath, hdown, moveDown]
    split_ifs
    · exact h.frame.lockCoord _
    · exact h.frame
  by_cases hclear : ∃ k stage, g.state = .clear k stage
  · obtain ⟨k, stage, hst⟩ := hclear
    obtain ⟨s, -, hheld⟩ := h.holdsPiece (by simp [hst])
    simp only [datapath, hst]
    exact clear_frame h.frame (hheld.2.row k) stage
  · rw [(board_kept hreset hdown (fun k stage hst => hclear ⟨k, stage, hst⟩) i).1]
    exact h.frame

/-- The invariant survives every step: the frame keeps the piece in bounds, and the
bounds keep the frame from being written. -/
theorem inWell_step {g : Regs} (h : InWell g) (i : Input) : InWell (step g i) where
  started := nextState_ne_start h.started i
  frame := datapath_frame h i
  piece := by
    cases datapath_piece h i with
    | inl hreset => exact Or.inl ⟨by simp [step, nextState, hreset.1], hreset.2⟩
    | inr hpiece => exact Or.inr hpiece
  ownRotation := by
    intro t ht
    obtain ⟨hst, hshape⟩ := nextState_rotates ht
    change (datapath g i).currentShape = t.code
    rw [← hshape]
    simp only [datapath, hst]

theorem reset_step_inWell {g : Regs} (h : g.state = .reset) (i : Input) : InWell (step g i) := by
  have hd : datapath g i = reset g := by simp only [datapath, h]
  have hn : nextState g i = .newBlock := by simp only [nextState, h]
  refine ⟨?_, ?_, Or.inl ⟨hn, ?_⟩, fun t ht => ?_⟩
  · simp [step, hn]
  · change Frame (datapath g i).coordStatic
    rw [hd]
    exact reset_frame g
  · change (datapath g i).currentShape = 0
    rw [hd]
    rfl
  · simp [step, hn, State.rotates] at ht

theorem reachable_inWell {g : Regs} (h : Reachable step resetRegs g) :
    ((g.state = .start ∨ g.state = .reset) ∧ g.currentShape = 0) ∨ InWell g := by
  refine Reachable.induction (I := fun g =>
    ((g.state = .start ∨ g.state = .reset) ∧ g.currentShape = 0) ∨ InWell g) h
    (Or.inl ⟨Or.inl rfl, rfl⟩) fun g i hg => ?_
  rcases hg with ⟨hst | hst, hzero⟩ | hg
  · left
    have hd : datapath g i = g := by simp only [datapath, hst]
    refine ⟨?_, by simpa [step, hd] using hzero⟩
    simp only [step, nextState, hst]
    cases i.enter <;> simp
  · exact Or.inr (reset_step_inWell hst i)
  · exact Or.inr (inWell_step hg i)

/-- Induction over the reachable states: what `START`, `RESET` and every state in the
well hand on. -/
theorem reachable_induction {P : Regs → Prop} (h₀ : P resetRegs)
    (hstart : ∀ g i, g.state = .start → P g → P (step g i))
    (hreset : ∀ g i, g.state = .reset → P g → P (step g i))
    (hwell : ∀ g i, InWell g → P g → P (step g i)) {g : Regs}
    (h : Reachable step resetRegs g) : P g := by
  obtain ⟨is, rfl⟩ := h
  induction is using List.reverseRecOn with
  | nil => exact h₀
  | append_singleton is i ih =>
    rw [run_append]
    cases reachable_inWell ⟨is, rfl⟩ with
    | inl hbefore =>
      cases hbefore.1 with
      | inl hst => exact hstart _ i hst ih
      | inr hst => exact hreset _ i hst ih
    | inr hw => exact hwell _ i hw ih

theorem inWell_after_reset (is js : List Input) (i : Input)
    (h : (run step resetRegs is).state = .reset) :
    InWell (run step resetRegs (is ++ i :: js)) := by
  rw [run_append, run_cons]
  exact invariant step (I := InWell) (fun _ i hg => inWell_step hg i) (reset_step_inWell h i) js

def Flat (g : Regs) : Prop := g.currentShape = Shape.O.code → g.rotateCounter = 0

theorem flat_step {g : Regs} (hown : ∀ t, g.state.rotates = some t → g.currentShape = t.code)
    (h : Flat g) (i : Input) : Flat (step g i) := by
  intro hO
  change (datapath g i).currentShape = _ at hO
  change (datapath g i).rotateCounter = 0
  by_cases hshape : .shape ∈ g.state.writes
  · rcases shape_writers _ hshape with hst | hst | hst
    · simp only [datapath, hst, reset]
    · simp only [datapath, hst, newBlock]
    · simp only [datapath, hst, moveDown] at hO ⊢
      split_ifs at hO ⊢
      · exact absurd hO (by simp [lock, Shape.code])
      · exact h hO
  have hkept : (datapath g i).currentShape = g.currentShape := datapath_keeps hshape i
  rw [hkept] at hO
  have hrotation : (datapath g i).rotateCounter = g.rotateCounter := by
    refine datapath_keeps (r := .rotation) (fun hw => ?_) i
    rcases rotation_writers _ hw with hst | hst | ⟨t, ht⟩
    · simp [hst, State.writes] at hshape
    · simp [hst, State.writes] at hshape
    · exact rotates_ne_O ht (code_injective ((hown t ht).symm.trans hO))
  rw [hrotation]
  exact h hO

theorem reachable_flat {g : Regs} (h : Reachable step resetRegs g) : Flat g := by
  refine reachable_induction (P := Flat) ?_ (fun g i hst hflat => ?_) (fun g i hst hflat => ?_)
    (fun g i hw hflat => flat_step hw.ownRotation hflat i) h
  · intro hO
    simp [resetRegs, Shape.code] at hO
  · exact flat_step (fun t ht => by simp [hst, State.rotates] at ht) hflat i
  · exact flat_step (fun t ht => by simp [hst, State.rotates] at ht) hflat i

/-- The frame is indestructible, and no write through the coordinate registers
reaches the floor or leaves the array. -/
theorem frame_indestructible (is js : List Input) (i : Input)
    (h : (run step resetRegs is).state = .reset) :
    let g := run step resetRegs (is ++ i :: js)
    (∀ r : Fin 22, r.val ≤ 20 →
        (g.coordStatic r).getLsbD 0 = true ∧ (g.coordStatic r).getLsbD 11 = true) ∧
      g.coordStatic 21 = fullRow ∧
      (g.state = .moveDown → Landed g → ∀ k, (g.y k).toNat ≤ 20 ∧ (g.x k).toNat ≤ 10) ∧
      ∀ k stage, g.state = .clear k stage → (g.y k).toNat ≤ 20 := by
  intro g
  have hw : InWell g := inWell_after_reset is js i h
  refine ⟨fun r _ => ⟨hw.frame.left r, hw.frame.right r⟩, hw.frame.floor, fun hst _ k => ?_,
    fun k stage hst => ?_⟩
  · obtain ⟨s, -, -, hb⟩ := hw.holdsPiece (by simp [hst])
    exact ⟨hb.row k, hb.col k⟩
  · obtain ⟨s, -, -, hb⟩ := hw.holdsPiece (by simp [hst])
    exact hb.row k

/-- A first O let down to the floor: it is locked, and the clearing begins. -/
def firstDrop : List Input :=
  [{ enter := true }, ({} : Input), { nextShape := 4 }, { fromSwSig := true }, { nextShape := 1 }] ++
    List.replicate 96 { down := true }

theorem frame_indestructible_firstDrop :
    let g := run step resetRegs firstDrop
    (g.state = .clear 0 0 ∧ (g.coordStatic 20).getLsbD 5 = true) ∧
      (∀ r : Fin 22, r.val ≤ 20 →
        (g.coordStatic r).getLsbD 0 = true ∧ (g.coordStatic r).getLsbD 11 = true) ∧
      g.coordStatic 21 = fullRow ∧
      (g.state = .moveDown → Landed g → ∀ k, (g.y k).toNat ≤ 20 ∧ (g.x k).toNat ≤ 10) ∧
      ∀ k stage, g.state = .clear k stage → (g.y k).toNat ≤ 20 :=
  ⟨by decide +kernel, frame_indestructible [{ enter := true }] (firstDrop.drop 2) {} rfl⟩

/-- The active piece is its shape as `NEW_BLOCK` spawns it, turned about cell 2 as
`rotate_counter` says, and lies inside the array. -/
theorem falling_piece_genuine (is : List Input) (s : Shape)
    (h : (run step resetRegs is).currentShape = s.code) :
    let g := run step resetRegs is
    (∀ k, ((g.x k).toNat : Int) - (g.x 1).toNat = (s.offset g.rotateCounter k).1 ∧
        ((g.y k).toNat : Int) - (g.y 1).toNat = (s.offset g.rotateCounter k).2) ∧
      (s = .O → g.rotateCounter = 0) ∧ ∀ k, (g.x k).toNat ≤ 10 ∧ (g.y k).toNat ≤ 20 := by
  intro g
  have hreach : Reachable step resetRegs g := ⟨is, rfl⟩
  have hshape : g.currentShape = s.code := h
  have hne : g.currentShape ≠ 0 := by
    rw [hshape]
    exact code_ne_zero s
  have hpiece : HoldsPiece g := by
    cases reachable_inWell hreach with
    | inl hbefore => exact absurd hbefore.2 hne
    | inr hw => exact hw.piece.resolve_left fun hn => hne hn.2
  obtain ⟨t, hcode | hcode, hp, hb⟩ := hpiece
  · obtain rfl : t = s := code_injective (hcode.symm.trans h)
    refine ⟨fun k => ?_, fun hO => ?_, fun k => ⟨hb.col k, hb.row k⟩⟩
    · have := hp k
      omega
    · subst hO
      exact reachable_flat hreach h
  · exact absurd hcode hne

/-- A first L, let down by one row and turned once. -/
def turnedL : List Input :=
  [{ enter := true }, ({} : Input), { nextShape := 3 }, { fromSwSig := true }] ++
    List.replicate 6 { down := true } ++ List.replicate 3 { up := true }

theorem falling_piece_genuine_turnedL :
    let g := run step resetRegs turnedL
    (g.currentShape = Shape.L.code ∧ g.rotateCounter = 1) ∧
      (∀ k, ((g.x k).toNat : Int) - (g.x 1).toNat = (Shape.L.offset g.rotateCounter k).1 ∧
        ((g.y k).toNat : Int) - (g.y 1).toNat = (Shape.L.offset g.rotateCounter k).2) ∧
      (Shape.L = .O → g.rotateCounter = 0) ∧ ∀ k, (g.x k).toNat ≤ 10 ∧ (g.y k).toNat ≤ 20 :=
  ⟨by decide +kernel, falling_piece_genuine turnedL .L (by decide +kernel)⟩

end Tetris
