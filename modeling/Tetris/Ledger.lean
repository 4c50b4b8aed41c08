import Tetris.Game

/-! What the laws of the game say about the registers: where the locked cells and the
points come from. -/
namespace Tetris
open Machine
open Blocks (Kit Move)

def lockedCells (g : Regs) : Nat :=
  (Finset.univ.filter fun c : Fin 21 × Fin 10 =>
    (g.coordStatic c.1.castSucc).getLsbD (c.2.val + 1) = true).card

def Clears (g : Regs) (i : Input) : Prop := g.state = .inter ∧ interNext g i = .clear 0 0

instance (g : Regs) (i : Input) : Decidable (Clears g i) := inferInstanceAs (Decidable (_ ∧ _))

def locks (g : Regs) (_ : Input) : Nat := if Locks g then 1 else 0

/-- The rows that a clearing finds full, counted when it starts. -/
def deleted (g : Regs) (i : Input) : Nat := if Clears g i then fullRows g else 0

def award (g : Regs) (i : Input) : BitVec 8 :=
  if Clears g i then BitVec.ofNat 8 (triangle (fullRows g)) else 0

/-- Within one game, where every block is dealt on open cells. -/
def WellDealt (g : Regs) (i : Input) : Prop :=
  Faultless g i ∧ g.state ≠ .reset ∧ (g.state = .newBlock → RoomBelow i.nextShape g.coordStatic)

instance (g : Regs) (i : Input) : Decidable (WellDealt g i) := inferInstanceAs (Decidable (_ ∧ _ ∧ _))

theorem filled_fieldOf (g : Regs) : Blocks.filled (fieldOf g) = lockedCells g := by
  rw [Blocks.filled_eq_card]
  refine congrArg Finset.card (Finset.filter_congr fun c _ => ?_)
  exact isSome_content (board g c.1.castSucc) c.2

theorem moveOf_restart {g : Regs} {i : Input} : moveOf g i = some .restart ↔ g.state = .reset := by
  unfold moveOf
  cases hst : g.state <;> simp [State.rotates]

theorem moveOf_drop {g : Regs} {i : Input} : moveOf g i = some .drop ↔ g.state = .moveDown := by
  unfold moveOf
  cases hst : g.state <;> simp [State.rotates]

theorem moveOf_clear {g : Regs} {i : Input} : moveOf g i = some .clear ↔ Clears g i := by
  unfold moveOf Clears
  cases hst : g.state <;> simp [State.rotates]

theorem moveOf_deal {g : Regs} {i : Input} {s : Shape} (h : moveOf g i = some (.deal s)) :
    g.state = .newBlock ∧ s = dealtShape i.nextShape := by
  unfold moveOf at h
  cases hst : g.state <;> rw [hst] at h <;> simp [State.rotates] at h
  exact ⟨rfl, h.symm⟩

theorem Clears.idle {g : Regs} {i : Input} (h : Clears g i) : g.currentShape = 0 := by
  obtain ⟨-, hnext⟩ := h
  unfold interNext at hnext
  split_ifs at hnext with _ _ hzero
  exact hzero

theorem gameOf_of_clears {g : Regs} {i : Input} (h : Clears g i) :
    gameOf g = ⟨fieldOf g, none, g.currentScore⟩ := by
  rw [gameOf_of_not_clear (by simp [h.1]), blockOf_of_zero h.idle]

section Step
variable {g : Regs} {i : Input} (h : InGame g)
include h

theorem locks_eq : locks g i = (moveOf g i).elim 0 (kit.locks (gameOf g)) := by
  cases hmove : moveOf g i with
  | none =>
    have hst : g.state ≠ .moveDown := fun hst => by simp [moveOf_drop.2 hst] at hmove
    exact if_neg fun hlock => hst hlock.1
  | some m =>
    by_cases hdrop : m = .drop
    · subst hdrop
      have hst := moveOf_drop.1 hmove
      rcases h.held (by simp [hst]) with hzero | ⟨s, hcode, hheld⟩
      · exact absurd hzero (h.armed hst)
      · have hfits := fits_below_iff h.well.frame hheld
        rw [gameOf_of_code (by simp [hst]) hcode]
        change _ = if kit.Fits (fieldOf g) ((blockAt s g).moved (0, 1)) then 0 else 1
        by_cases hl : Landed g
        · rw [if_neg fun hf => hfits.1 hf hl]
          exact if_pos ⟨hst, hl⟩
        · rw [if_pos (hfits.2 hl)]
          exact if_neg fun hlock => hl hlock.2
    · have hst : g.state ≠ .moveDown := fun hst => by
        rw [moveOf_drop.2 hst] at hmove
        exact hdrop (Option.some.inj hmove).symm
      rw [Option.elim_some, Blocks.locks_eq_zero hdrop]
      exact if_neg fun hlock => hst hlock.1

omit h in
/-- A clearing is counted with the move that makes it. -/
theorem clears_elim {α : Type*} [Zero α] {n : α} {f : Move Shape → α}
    (hf : ∀ m, m ≠ .clear → f m = 0) (hn : Clears g i → f .clear = n) :
    (if Clears g i then n else 0) = (moveOf g i).elim 0 f := by
  by_cases hc : Clears g i
  · rw [if_pos hc, moveOf_clear.2 hc, Option.elim_some, hn hc]
  · rw [if_neg hc]
    cases hmove : moveOf g i with
    | none => rfl
    | some m =>
      refine (hf m fun hm => hc ?_).symm
      subst hm
      exact moveOf_clear.1 hmove

theorem deleted_eq : deleted g i = (moveOf g i).elim 0 (Blocks.deletes (gameOf g)) := by
  refine clears_elim (fun m hm => Blocks.deletes_eq_zero hm) fun hc => ?_
  rw [gameOf_of_clears hc]
  exact fullRows_fieldOf h.well.frame

theorem award_eq : award g i = (moveOf g i).elim 0 (kit.gain (gameOf g)) := by
  refine clears_elim (fun m hm => Blocks.gain_eq_zero hm) fun hc => ?_
  rw [gameOf_of_clears hc]
  exact congrArg (fun n => BitVec.ofNat 8 (triangle n)) (fullRows_fieldOf h.well.frame)

theorem room_to_deal (hst : g.state = .newBlock) (hroom : RoomBelow i.nextShape g.coordStatic) :
    kit.Fits (fieldOf g) (kit.dealt (dealtShape i.nextShape)) := by
  have hcells : ∀ (v : BitVec 3) (k : Fin 4), kit.cells (kit.dealt (dealtShape v)) k =
      ((((newBlockCells v).1.x k).toNat : Int) - 1, (((newBlockCells v).1.y k).toNat : Int)) := by
    decide
  have htop : TopClear g.coordStatic := h.topped.clear (Or.inr (by simp [hst]))
  have hopen : CellsOpen (step g i) := (newBlock_open_iff htop hst i).2 hroom
  have hstep : step g i = { newBlock g i with state := .beforeNew } := by
    simp only [step, datapath, nextState, hst]
  rw [hstep] at hopen
  refine (fits_of_cells (hcells i.nextShape)).2 fun k => ?_
  have hb := newBlockCells_inBounds i.nextShape
  have hrow := hb.row k
  have hcol := hb.col k
  exact h.well.frame.freeCell (vacant_of_not_occupied (by omega) (by omega) (hopen k))

theorem wellDealt_move (hok : WellDealt g i) {m : Move Shape} (hmove : moveOf g i = some m) :
    m ≠ .restart ∧ kit.RoomToDeal (gameOf g) m := by
  obtain ⟨-, hreset, hroom⟩ := hok
  refine ⟨fun hm => hreset (moveOf_restart.1 (hm ▸ hmove)), fun s hm => ?_⟩
  obtain ⟨hst, rfl⟩ := moveOf_deal (hm ▸ hmove)
  rw [gameOf_of_not_clear (by simp [hst])]
  exact room_to_deal h hst (hroom hst)

end Step

theorem offset_injective : ∀ (s : Shape) (rc : BitVec 2), Function.Injective (s.offset rc) := by
  decide

/-- In every well-dealt run from a restart, outside the clearing: four cells are locked for
each lock and ten gone for each full row; the score is the sum of the awards; and the
piece in play lies on open cells. -/
theorem ledger {g : Regs} (h : Restarted g) {is : List Input} (hok : Throughout step WellDealt g is)
    (hst : ∀ k stage, (run step g is).state ≠ .clear k stage) :
    let t := run step g is
    lockedCells t + 10 * total step deleted g is = 4 * total step locks g is ∧
      t.currentScore = total step award g is ∧ ∀ s : Shape, t.currentShape = s.code → CellsFree t := by
  intro t
  have hsim : Simulates step kit.play moveOf gameOf WellDealt InGame :=
    fun g i ho hg => simulates g i ho.1 hg
  have hmoves := hsim.throughout (Q := fun G m => m ≠ .restart ∧ kit.RoomToDeal G m)
    (fun g i m ho hg hmove => wellDealt_move hg ho hmove) h.inGame is hok
  have hsound : kit.Sound (gameOf g) := by
    rw [h.gameOf_eq]
    exact fun b hb => nomatch hb
  have hgame : gameOf t = run kit.play (gameOf g) (trace step moveOf g is) := hsim.run h.inGame is hok
  have hfield : (gameOf t).field = fieldOf t := by rw [gameOf_of_not_clear hst]
  refine ⟨?_, ?_, fun s hs => ?_⟩
  · have hcells := Blocks.filled_run hsound offset_injective hmoves
    rw [← hgame, hfield, filled_fieldOf, h.gameOf_eq, Blocks.filled_blank, ← h.gameOf_eq,
      hsim.total (fun _ _ _ hg => deleted_eq hg) h.inGame is hok,
      hsim.total (fun _ _ _ hg => locks_eq hg) h.inGame is hok, Nat.zero_add] at hcells
    exact hcells
  · have hscore := Blocks.score_run (hmoves.mono kit.play fun _ _ hm => hm.1)
    rw [← hgame, hsim.total (fun _ _ _ hg => award_eq hg) h.inGame is hok, h.gameOf_eq,
      gameOf_of_not_clear hst] at hscore
    exact hscore.trans (BitVec.zero_add _)
  · have hfits := hsound.run (hmoves.mono kit.play fun _ _ hm => hm.2)
    rw [← hgame, gameOf_of_code hst hs] at hfits
    have ht : InGame t := hsim.inv h.inGame is hok
    have hne : t.state ≠ .newBlock := fun hnew =>
      code_ne_zero s (hs.symm.trans (ht.idle (Or.inl hnew)))
    rcases ht.held hne with hzero | ⟨s', hcode, hheld⟩
    · exact absurd (hs.symm.trans hzero) (code_ne_zero s)
    · obtain rfl : s = s' := code_injective (hs.symm.trans hcode)
      exact (fits_of_cells (kit_cells hheld.1)).1 (hfits _ rfl)

theorem firstRow_wellDealt : Throughout step WellDealt newGame firstRow := by
  decide +kernel

theorem firstRow_ledger :
    let t := run step newGame firstRow
    lockedCells t + 10 * total step deleted newGame firstRow = 4 * total step locks newGame firstRow ∧
      t.currentScore = total step award newGame firstRow ∧
      ∀ s : Shape, t.currentShape = s.code → CellsFree t := by
  have hst : (run step newGame firstRow).state = .inter := by decide +kernel
  exact ledger newGame_restarted firstRow_wellDealt fun k stage hclear => by simp [hst] at hclear

end Tetris
