import Tetris.Well
import Tetris.RowShift

/-! The two top rows: when a game ends, and where a new block appears. -/
namespace Tetris
open Machine

/-- Nothing is locked in the rows whose test ends the game. -/
def TopClear (a : Coord) : Prop := a 0 = emptyRow ∧ a 1 = emptyRow

instance (a : Coord) : Decidable (TopClear a) := inferInstanceAs (Decidable (_ ∧ _))

def Locks (g : Regs) : Prop := g.state = .moveDown ∧ Landed g

instance (g : Regs) : Decidable (Locks g) := inferInstanceAs (Decidable (_ ∧ _))

theorem TopClear.not_occupied {a : Coord} (h : TopClear a) {r c : Nat} (hr : r ≤ 1) (h1 : 1 ≤ c)
    (h10 : c ≤ 10) : ¬ Occupied a r c := by
  intro ho
  obtain ⟨hr22, -, hbit⟩ := bit_eq_some.1 ho
  have hrow : a ⟨r, hr22⟩ = emptyRow := by
    match r, hr with
    | 0, _ => exact h.1
    | 1, _ => exact h.2
  rw [hrow, emptyRow_getLsbD h1 h10] at hbit
  cases hbit

theorem TopClear.copyRows {old new : Coord} (ho : TopClear old) (hn : TopClear new) (y : BitVec 6)
    (ns : List (Fin 21)) : TopClear (copyRows y old new ns) := by
  have h1 : Tetris.copyRows y old new ns 1 = emptyRow := by
    have hrow := copyRows_succ y old ns new 0
    split_ifs at hrow
    · exact hrow.trans ho.1
    · exact hrow.trans hn.2
  exact ⟨(copyRows_zero y old ns new).trans hn.1, h1⟩

theorem TopClear.writeEmpty {a : Coord} (h : TopClear a) (r : Nat) : TopClear (a.write r emptyRow) := by
  constructor <;> rw [Rows.write_apply] <;> split_ifs
  · rfl
  · exact h.1
  · rfl
  · exact h.2

theorem clear_topClear {g : Regs} (h : TopClear g.coordStatic) (k : Fin 4) (stage : Fin 5) :
    TopClear (clear k stage g).coordStatic := by
  match stage with
  | 0 =>
    simp only [clear, clearFirst]
    split_ifs
    · exact h.copyRows (h.writeEmpty _) _ _
    · exact h
  | 1 | 2 | 3 => exact h.copyRows h _ _
  | 4 => exact (h.copyRows h _ _).writeEmpty 0

theorem topClear_step {g : Regs} (h : TopClear g.coordStatic) (hlock : ¬ Locks g) (i : Input) :
    TopClear (step g i).coordStatic := by
  change TopClear (datapath g i).coordStatic
  by_cases hreset : g.state = .reset
  · simp only [datapath, hreset]
    exact ⟨rfl, rfl⟩
  by_cases hdown : g.state = .moveDown
  · have hfall : ¬ Landed g := fun hl => hlock ⟨hdown, hl⟩
    simp only [datapath, hdown, moveDown, hfall, if_false]
    exact h
  by_cases hclear : ∃ k stage, g.state = .clear k stage
  · obtain ⟨k, stage, hst⟩ := hclear
    simp only [datapath, hst]
    exact clear_topClear h k stage
  · rw [(board_kept hreset hdown (fun k stage hst => hclear ⟨k, stage, hst⟩) i).1]
    exact h

theorem lockCoord_row_iff {p : Piece} {a : Coord} {i : Fin 22} (hrow : a i = emptyRow)
    (hcol : ∀ k, (p.x k).toNat ≤ 10) :
    lockCoord p a i = emptyRow ↔
      ¬ ∃ k, (p.y k).toNat = i.val ∧ 1 ≤ (p.x k).toNat ∧ (p.x k).toNat ≤ 10 := by
  constructor
  · rintro hempty ⟨k, hk, h1, h10⟩
    have hset := (getLsbD_lockCoord p a i (by omega : (p.x k).toNat < 12)).2 (Or.inr ⟨k, hk, rfl⟩)
    rw [hempty, emptyRow_getLsbD h1 h10] at hset
    cases hset
  · intro hno
    refine BitVec.eq_of_getLsbD_eq fun j hj => ?_
    rw [Bool.eq_iff_iff, getLsbD_lockCoord p a i hj, hrow, or_iff_left_iff_imp]
    rintro ⟨k, hk, rfl⟩
    have h0 : (p.x k).toNat = 0 := by
      by_contra h0
      exact hno ⟨k, hk, by omega, hcol k⟩
    rw [h0]
    exact emptyRow_left

theorem lock_topClear_iff {g : Regs} (h : TopClear g.coordStatic) (hcol : ∀ k, (g.x k).toNat ≤ 10) :
    TopClear (lock g).coordStatic ↔
      ¬ ∃ k, (g.y k).toNat ≤ 1 ∧ 1 ≤ (g.x k).toNat ∧ (g.x k).toNat ≤ 10 := by
  have h0 := lockCoord_row_iff (p := g.toPiece) h.1 hcol
  have h1 := lockCoord_row_iff (p := g.toPiece) h.2 hcol
  change lockCoord g.toPiece g.coordStatic 0 = _ ∧ lockCoord g.toPiece g.coordStatic 1 = _ ↔ _
  rw [h0, h1, ← not_or, ← exists_or]
  refine not_congr (exists_congr fun k => ?_)
  have hk : (g.y k).toNat ≤ 1 ↔ (g.y k).toNat = (0 : Fin 22).val ∨ (g.y k).toNat = (1 : Fin 22).val := by
    have hv0 : (0 : Fin 22).val = 0 := rfl
    have hv1 : (1 : Fin 22).val = 1 := rfl
    omega
  rw [hk, or_and_right]

theorem interNext_gameOver_iff (g : Regs) (i : Input) :
    interNext g i = .gameOver ↔ ¬ TopClear g.coordStatic := by
  unfold interNext TopClear
  rw [not_and_or]
  split_ifs with h
  · simp [h]
  all_goals simp [h]

theorem interNext_locked {g : Regs} (hzero : g.currentShape = 0) (htop : TopClear g.coordStatic)
    {i : Input} (hpause : i.pause = false) : interNext g i = .clear 0 0 := by
  simp [interNext, hzero, htop.1, htop.2, hpause]

theorem gameOver_entered {g : Regs} {i : Input} (hst : g.state ≠ .gameOver)
    (h : (step g i).state = .gameOver) : g.state = .inter ∧ ¬ TopClear g.coordStatic := by
  have hinter : g.state = .inter := by
    have hfrom : g.state = .inter ∨ g.state = .gameOver :=
      entered_from (P := fun st => st = .inter ∨ st = .gameOver) (by decide) h
    exact hfrom.resolve_right hst
  refine ⟨hinter, ?_⟩
  rw [← interNext_gameOver_iff g i]
  simpa only [step, nextState, hinter] using h

/-- Where the top rows need not be clear: before the first game, and from a lock that
ends a game to the next `RESET`. -/
def Topped (g : Regs) : Prop :=
  TopClear g.coordStatic ∨ (g.currentShape = 0 ∧
    (g.state = .start ∨ g.state = .reset ∨ g.state = .gameOver ∨ g.state = .inter))

theorem topped_step {g : Regs} (h : Topped g) (i : Input) : Topped (step g i) := by
  by_cases hlock : Locks g
  · obtain ⟨hst, hl⟩ := hlock
    right
    simp only [step, datapath, nextState, hst, moveDown, hl, if_true]
    simp [lock]
  rcases h with h | ⟨hzero, hst | hst | hst | hst⟩
  · exact Or.inl (topClear_step h hlock i)
  · right
    simp only [step, datapath, nextState, hst]
    cases i.enter <;> simp [hzero]
  · left
    simp only [step, datapath, hst]
    exact ⟨rfl, rfl⟩
  · right
    have hkept : (step g i).currentShape = g.currentShape :=
      datapath_keeps (r := .shape) (by simp [hst, State.writes]) i
    rw [hkept]
    simp only [step, nextState, hst]
    cases i.enter <;> simp [hzero]
  · by_cases htop : TopClear g.coordStatic
    · exact Or.inl (topClear_step htop hlock i)
    · right
      have hover := (interNext_gameOver_iff g i).2 htop
      simp only [step, datapath, nextState, hst, hover, inter]
      simp [hzero]

theorem reachable_topped {g : Regs} (h : Reachable step resetRegs g) : Topped g :=
  Reachable.induction h (Or.inr ⟨rfl, Or.inl rfl⟩) fun _ i hg => topped_step hg i

theorem Topped.clear {g : Regs} (h : Topped g)
    (hst : g.currentShape ≠ 0 ∨ (g.state ≠ .start ∧ g.state ≠ .reset ∧ g.state ≠ .gameOver ∧
      g.state ≠ .inter)) : TopClear g.coordStatic := by
  refine h.resolve_right fun hno => ?_
  cases hst with
  | inl hne => exact hne hno.1
  | inr hst =>
    obtain ⟨h0, h1, h2, h3⟩ := hst
    rcases hno.2 with h | h | h | h <;> contradiction

theorem lock_before {g : Regs} {i : Input} (h : Topped g) (hst : (step g i).state = .inter)
    (htop : ¬ TopClear (step g i).coordStatic) : Locks g := by
  by_contra hlock
  have hno : ¬ TopClear g.coordStatic := fun hc => htop (topClear_step hc hlock i)
  rcases (h.resolve_left hno).2 with hs | hs | hs | hs
  · simp only [step, nextState, hs] at hst
    split_ifs at hst
  · simp [step, nextState, hs] at hst
  · simp only [step, nextState, hs] at hst
    split_ifs at hst
  · have hover := (interNext_gameOver_iff g i).2 hno
    simp [step, nextState, hs, hover] at hst

/-- A game ends exactly on a lock that reaches into the two top rows, in the `INTER`
cycle after it. -/
theorem game_ends_on_top_out (is : List Input) :
    let g := run step resetRegs is
    (g.currentShape ≠ 0 → ∀ r ≤ 1, ∀ c, 1 ≤ c → c ≤ 10 → ¬ Occupied g.coordStatic r c) ∧
      (∀ i, g.state ≠ .gameOver → (step g i).state = .gameOver →
        g.state = .inter ∧ ∃ js j, is = js ++ [j] ∧ Locks (run step resetRegs js)) ∧
      (Locks g → ∀ i j, (step g i).state = .inter ∧
        ((step (step g i) j).state = .gameOver ↔
          ∃ k, (g.y k).toNat ≤ 1 ∧ 1 ≤ (g.x k).toNat ∧ (g.x k).toNat ≤ 10)) := by
  intro g
  have hreach : Reachable step resetRegs g := ⟨is, rfl⟩
  refine ⟨fun hne r hr c h1 h10 => ?_, fun i hst hover => ?_, fun hlock i j => ?_⟩
  · exact ((reachable_topped hreach).clear (Or.inl hne)).not_occupied hr h1 h10
  · obtain ⟨hinter, htop⟩ := gameOver_entered hst hover
    refine ⟨hinter, ?_⟩
    cases is using List.reverseRecOn with
    | nil => simp [g, resetRegs] at hinter
    | append_singleton js j =>
      have hg : g = step (run step resetRegs js) j := by simp [g, run_append]
      rw [hg] at hinter htop
      exact ⟨js, j, rfl, lock_before (reachable_topped ⟨js, rfl⟩) hinter htop⟩
  · obtain ⟨hst, hl⟩ := hlock
    have htop : TopClear g.coordStatic := (reachable_topped hreach).clear (Or.inr (by simp [hst]))
    have hwell : InWell g := by
      refine (reachable_inWell hreach).resolve_left fun hbefore => ?_
      simp [hst] at hbefore
    obtain ⟨s, -, -, hb⟩ := hwell.holdsPiece (by simp [hst])
    have hstep : step g i = { lock g with state := .inter } := by
      simp only [step, datapath, nextState, hst, moveDown, hl, if_true]
    rw [hstep]
    refine ⟨rfl, ?_⟩
    have hover := interNext_gameOver_iff { lock g with state := .inter } j
    exact hover.trans (not_iff_comm.1 (lock_topClear_iff htop hb.col).symm)

/-- The columns of the cells that a block of the given number has in row 2. -/
def secondRow (nextShape : BitVec 3) : List Nat :=
  match nextShape with
  | 0b010 => [6]
  | 0b011 => [4]
  | 0b100 => [5, 6]
  | 0b101 => [4, 5]
  | 0b110 => [5]
  | 0b111 => [5, 6]
  | _ => []

def CellsOpen (g : Regs) : Prop := ∀ k, ¬ Occupied g.coordStatic (g.y k).toNat (g.x k).toNat

/-- Row 2 has room for the lower cells of the block. -/
def RoomBelow (nextShape : BitVec 3) (a : Coord) : Prop := ∀ c ∈ secondRow nextShape, ¬ Occupied a 2 c

instance (g : Regs) : Decidable (CellsOpen g) := inferInstanceAs (Decidable (∀ _, _))
instance (v : BitVec 3) (a : Coord) : Decidable (RoomBelow v a) :=
  inferInstanceAs (Decidable (∀ _ ∈ _, _))

theorem newBlockCells_row : ∀ (v : BitVec 3) (k : Fin 4),
    let p := (newBlockCells v).1
    1 ≤ (p.x k).toNat ∧ (p.x k).toNat ≤ 10 ∧
      ((p.y k).toNat = 1 ∨ ((p.y k).toNat = 2 ∧ (p.x k).toNat ∈ secondRow v)) := by
  decide

theorem secondRow_cell : ∀ (v : BitVec 3), ∀ c ∈ secondRow v,
    let p := (newBlockCells v).1
    ∃ k, (p.y k).toNat = 2 ∧ (p.x k).toNat = c := by
  decide

theorem newBlock_open_iff {g : Regs} (htop : TopClear g.coordStatic) (hst : g.state = .newBlock)
    (i : Input) : CellsOpen (step g i) ↔ RoomBelow i.nextShape g.coordStatic := by
  have hstep : step g i = { newBlock g i with state := .beforeNew } := by
    simp only [step, datapath, nextState, hst]
  rw [hstep]
  constructor
  · intro hopen c hc ho
    obtain ⟨k, hy, rfl⟩ := secondRow_cell i.nextShape c hc
    apply hopen k
    change Occupied g.coordStatic ((newBlockCells i.nextShape).1.y k).toNat _
    rw [hy]
    exact ho
  · intro hroom k
    obtain ⟨h1, h10, hrow⟩ := newBlockCells_row i.nextShape k
    change ¬ Occupied g.coordStatic ((newBlockCells i.nextShape).1.y k).toNat
      ((newBlockCells i.nextShape).1.x k).toNat
    cases hrow with
    | inl hy =>
      rw [hy]
      exact htop.not_occupied le_rfl h1 h10
    | inr hy =>
      rw [hy.1]
      exact hroom _ hy.2

/-- A run puts no block onto locked cells exactly if row 2 always has room for it. -/
theorem spawns_open_iff (is : List Input) :
    Throughout step (fun g i => g.state = .newBlock → CellsOpen (step g i)) resetRegs is ↔
      Throughout step (fun g i => g.state = .newBlock → RoomBelow i.nextShape g.coordStatic)
        resetRegs is := by
  refine throughout_congr step (I := Topped) (fun _ i h => topped_step h i) (fun g i h => ?_)
    (Or.inr ⟨rfl, Or.inl rfl⟩) is
  refine imp_congr_right fun hst => ?_
  exact newBlock_open_iff (h.clear (Or.inr (by simp [hst]))) hst i

/-- Four I's on end, an O and a flat I, one on top of the other. -/
def stacked : List Input :=
  let hold : BitVec 3 → Input := fun v => { nextShape := v, down := true, fromSwSig := true }
  let tower : Nat → List Input := fun n =>
    List.replicate 3 (hold 1) ++ [{ up := true }] ++ List.replicate n (hold 1)
  [({ enter := true } : Input), {}] ++ tower 97 ++ tower 76 ++ tower 56 ++ tower 36 ++
    List.replicate 22 (hold 4) ++ List.replicate 17 (hold 1)

theorem stacked_spawn_blocked : ∃ is : List Input,
    ¬ Throughout step (fun g i => g.state = .newBlock → CellsOpen (step g i)) resetRegs is := by
  refine ⟨stacked ++ [{ nextShape := 4 }], fun hall => ?_⟩
  have hlast := ((throughout_append step _ resetRegs stacked [{ nextShape := 4 }]).1 hall).2.1
  revert hlast
  decide +kernel

end Tetris
