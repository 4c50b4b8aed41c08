import Tetris.Ledger
import Tetris.Progress

/-! A game in which nothing but the down key is pressed: the blocks pile up where they
appear, no row is ever full, and the game ends without a point. -/
namespace Tetris
open Machine

/-- No key that moves a piece sideways, turns it or pauses the game. -/
def Untouched (i : Input) : Prop :=
  i.left = false ∧ i.right = false ∧ i.up = false ∧ i.pause = false

instance (i : Input) : Decidable (Untouched i) := inferInstanceAs (Decidable (_ ∧ _))

def State.direct : State → Prop
  | .newBlock | .beforeNew | .newNext | .inter | .moveDown | .gameOver => True
  | .clear _ stage => stage = 0
  | _ => False

theorem afterPass_direct (k : Fin 4) : (afterPass k).direct := by
  unfold afterPass
  split <;> trivial

/-- Everything lies in the four columns in which blocks appear. -/
structure Piled (g : Regs) : Prop extends Live g where
  path : g.state.direct
  score : g.currentScore = 0
  piece : g.state ≠ .newBlock → ∀ k, 4 ≤ (g.x k).toNat ∧ (g.x k).toNat ≤ 7
  board : ∀ i : Fin 22, i.val ≤ 20 → ∀ c, 1 ≤ c → c ≤ 10 → (g.coordStatic i).getLsbD c = true →
    4 ≤ c ∧ c ≤ 7
  fresh : g.currentShape ≠ 0 → ∃ k, ¬ Occupied g.coordStatic (g.y k).toNat (g.x k).toNat

theorem Piled.not_full {g : Regs} (h : Piled g) {r : Nat} (hr : r ≤ 20) : ¬ FullAt g.coordStatic r := by
  intro hfull
  rw [fullAt_iff (by omega : r < 22)] at hfull
  have hone := h.board ⟨r, by omega⟩ hr 1 le_rfl (by omega) (by rw [hfull]; decide)
  omega

theorem Piled.step_clear {g : Regs} (h : Piled g) {k : Fin 4} (hst : g.state = .clear k 0) (i : Input) :
    step g i = { g with state := afterPass k } := by
  obtain ⟨s, -, hheld⟩ := h.well.holdsPiece (by simp [hst])
  have hrow (j : Fin 4) : ¬ FullAt g.coordStatic (g.y j).toNat := h.not_full (hheld.2.row j)
  have htest : ¬ FullAt g.coordStatic (testRow g k).toNat := by
    unfold testRow
    split <;> exact hrow _
  simp only [step, datapath, nextState, hst, clear, clearFirst, clearNext, if_neg (hrow k), if_neg htest]

theorem interNext_untouched {g : Regs} {i : Input} (h : Untouched i) :
    interNext g i ∈ [State.gameOver, .clear 0 0, .moveDown, .inter] := by
  obtain ⟨hleft, hright, hup, hpause⟩ := h
  unfold interNext
  rw [hleft, hright, hup, hpause]
  simp only [Bool.false_eq_true, if_false]
  split_ifs <;> simp

theorem lockedCells_le (g : Regs) : lockedCells g ≤ 210 := by
  refine (Finset.card_filter_le _ _).trans ?_
  rw [Finset.card_univ]
  rfl

theorem lockedCells_lock {g : Regs} (hrow : ∀ k, (g.y k).toNat ≤ 20)
    (hcol : ∀ k, 1 ≤ (g.x k).toNat ∧ (g.x k).toNat ≤ 10)
    (hfresh : ∃ k, ¬ Occupied g.coordStatic (g.y k).toNat (g.x k).toNat) :
    lockedCells g < lockedCells (lock g) := by
  obtain ⟨k, hk⟩ := hfresh
  have hy := hrow k
  have hx := hcol k
  have hx1 : (g.x k).toNat - 1 + 1 = (g.x k).toNat := by omega
  refine Finset.card_lt_card ((Finset.ssubset_iff_of_subset fun c hc => ?_).2
    ⟨(⟨(g.y k).toNat, by omega⟩, ⟨(g.x k).toNat - 1, by omega⟩), ?_, ?_⟩)
  · rw [Finset.mem_filter] at hc ⊢
    exact ⟨hc.1, (getLsbD_lockCoord _ _ _ (by omega)).2 (Or.inl hc.2)⟩
  · rw [Finset.mem_filter]
    refine ⟨Finset.mem_univ _, (getLsbD_lockCoord _ _ _ (by dsimp only; omega)).2 (Or.inr ⟨k, rfl, ?_⟩)⟩
    exact hx1.symm
  · rw [Finset.mem_filter]
    rintro ⟨-, hbit⟩
    dsimp only at hbit
    rw [hx1] at hbit
    exact hk (bit_eq_some.2 ⟨by omega, by omega, hbit⟩)

theorem lockedCells_congr {g h : Regs} (hc : g.coordStatic = h.coordStatic) : lockedCells g = lockedCells h := by
  unfold lockedCells
  rw [hc]

theorem newBlockCells_columns : ∀ (v : BitVec 3) (k : Fin 4),
    4 ≤ ((newBlockCells v).1.x k).toNat ∧ ((newBlockCells v).1.x k).toNat ≤ 7 := by
  decide

theorem newBlockCells_first : ∀ v : BitVec 3, ∃ k, ((newBlockCells v).1.y k).toNat = 1 := by
  decide

/-- What a step before the end comes to: everything is still in its columns, and the step
has locked a piece or left the board as it was. -/
structure Piles (g t : Regs) : Prop where
  piled : Piled t
  board : (Locks g ∧ lockedCells g < lockedCells t) ∨ (¬ Locks g ∧ t.coordStatic = g.coordStatic)

section Steps
variable {g : Regs} (h : Piled g) (i : Input)
include h

theorem Piled.stay {t : Regs} (hnew : g.state ≠ .newBlock) (hdown : g.state ≠ .moveDown) (hlive : Live t)
    (hpath : t.state.direct) (hpiece : t.toPiece = g.toPiece) (hshape : t.currentShape = g.currentShape)
    (hboard : t.coordStatic = g.coordStatic) (hscore : t.currentScore = g.currentScore) : Piles g t := by
  refine ⟨⟨hlive, hpath, hscore.trans h.score, fun _ => ?_, ?_, ?_⟩, Or.inr ⟨fun hlock => hdown hlock.1, hboard⟩⟩
  · rw [hpiece]
    exact h.piece hnew
  · rw [hboard]
    exact h.board
  · rw [hshape, hboard, hpiece]
    exact h.fresh

theorem piled_newBlock (hst : g.state = .newBlock) : Piles g (step g i) := by
  have hlive := live_step h.toLive i
  have hstep : step g i = { newBlock g i with state := .beforeNew } := by
    simp only [step, datapath, nextState, hst]
  rw [hstep] at hlive ⊢
  refine ⟨⟨hlive, trivial, h.score, fun _ => newBlockCells_columns _, h.board, fun _ => ?_⟩,
    Or.inr ⟨fun hlock => by simp [Locks, hst] at hlock, rfl⟩⟩
  obtain ⟨k, hk⟩ := newBlockCells_first i.nextShape
  have hcol := newBlockCells_columns i.nextShape k
  have htop : TopClear g.coordStatic := h.topped.clear (Or.inr (by simp [hst]))
  refine ⟨k, ?_⟩
  change ¬ Occupied g.coordStatic ((newBlockCells i.nextShape).1.y k).toNat
    ((newBlockCells i.nextShape).1.x k).toNat
  rw [hk]
  exact htop.not_occupied le_rfl (by omega) (by omega)

theorem piled_beforeNew (hst : g.state = .beforeNew) : Piles g (step g i) := by
  have hlive := live_step h.toLive i
  have hstep : step g i = { g with state := if i.fromSwSig then .newNext else .beforeNew } := by
    simp only [step, datapath, nextState, hst]
  rw [hstep] at hlive ⊢
  refine h.stay (by simp [hst]) (by simp [hst]) hlive ?_ rfl rfl rfl rfl
  cases i.fromSwSig <;> trivial

theorem piled_newNext (hst : g.state = .newNext) : Piles g (step g i) := by
  have hlive := live_step h.toLive i
  have hstep : step g i = { newNext g i with state := .inter } := by
    simp only [step, datapath, nextState, hst]
  rw [hstep] at hlive ⊢
  exact h.stay (by simp [hst]) (by simp [hst]) hlive trivial rfl rfl rfl rfl

theorem piled_inter (hst : g.state = .inter) (hi : Untouched i) : Piles g (step g i) := by
  have hlive := live_step h.toLive i
  have hstep : step g i = { inter g i with state := interNext g i } := by
    simp only [step, datapath, nextState, hst]
  have hpath : (interNext g i).direct := by
    have hmem := interNext_untouched (g := g) hi
    simp only [List.mem_cons, List.not_mem_nil, or_false] at hmem
    rcases hmem with hn | hn | hn | hn <;> rw [hn] <;> trivial
  rw [hstep] at hlive ⊢
  exact h.stay (by simp [hst]) (by simp [hst]) hlive hpath rfl rfl rfl rfl

theorem piled_lock (hst : g.state = .moveDown) (hl : Landed g) : Piles g (step g i) := by
  have hlive := live_step h.toLive i
  obtain ⟨s, -, hheld⟩ := h.well.holdsPiece (by simp [hst])
  have hcol := h.piece (by simp [hst])
  have hne : g.currentShape ≠ 0 := (h.manned true (by rw [hst]; rfl)).2 rfl
  have hstep : step g i = { lock g with state := .inter } := by
    simp only [step, datapath, nextState, hst, moveDown, if_pos hl]
  rw [hstep] at hlive ⊢
  refine ⟨⟨hlive, trivial, h.score, fun _ => hcol, fun r hr c h1 h10 hbit => ?_, fun hno => absurd rfl hno⟩,
    Or.inl ⟨⟨hst, hl⟩, ?_⟩⟩
  · rcases (getLsbD_lockCoord g.toPiece g.coordStatic r (by omega)).1 hbit with hold | ⟨k, -, hk⟩
    · exact h.board r hr c h1 h10 hold
    · rw [← hk]
      exact hcol k
  · exact lockedCells_lock hheld.2.row (fun k => ⟨by have := hcol k; omega, by have := hcol k; omega⟩)
      (h.fresh hne)

theorem piled_fall (hst : g.state = .moveDown) (hl : ¬ Landed g) : Piles g (step g i) := by
  have hlive := live_step h.toLive i
  obtain ⟨s, -, hheld⟩ := h.well.holdsPiece (by simp [hst])
  have hstep : step g i = { fall g with state := .inter } := by
    simp only [step, datapath, nextState, hst, moveDown, if_neg hl]
  rw [hstep] at hlive ⊢
  refine ⟨⟨hlive, trivial, h.score, fun _ => h.piece (by simp [hst]), h.board, fun _ => ⟨0, ?_⟩⟩,
    Or.inr ⟨fun hlock => hl hlock.2, rfl⟩⟩
  obtain ⟨hlow, hv⟩ := room_below h.well.frame hheld hl 0
  have hrow : (g.y 0 + 1).toNat = (g.y 0).toNat + 1 := toNat_add_one (by omega)
  change ¬ Occupied g.coordStatic (g.y 0 + 1).toNat _
  rw [hrow]
  exact not_occupied_of_vacant hv

theorem piled_clear {k : Fin 4} {stage : Fin 5} (hst : g.state = .clear k stage) : Piles g (step g i) := by
  have hlive := live_step h.toLive i
  have hpath := h.path
  rw [hst] at hpath
  obtain rfl : stage = 0 := hpath
  rw [h.step_clear hst i] at hlive ⊢
  exact h.stay (by simp [hst]) (by simp [hst]) hlive (afterPass_direct k) rfl rfl rfl rfl

theorem piled_step (hover : g.state ≠ .gameOver) (hi : Untouched i) : Piles g (step g i) := by
  cases hst : g.state with
  | newBlock => exact piled_newBlock h i hst
  | beforeNew => exact piled_beforeNew h i hst
  | newNext => exact piled_newNext h i hst
  | inter => exact piled_inter h i hst hi
  | moveDown =>
    by_cases hl : Landed g
    · exact piled_lock h i hst hl
    · exact piled_fall h i hst hl
  | clear k stage => exact piled_clear h i hst
  | gameOver => exact absurd hst hover
  | _ =>
    have hpath := h.path
    rw [hst] at hpath
    exact hpath.elim

end Steps

theorem restarted_piled {g : Regs} (h : Restarted g) : Piled g := by
  obtain ⟨g₀, i, hst, rfl⟩ := h
  have hlive := reset_live hst i
  have hstep : step g₀ i = { reset g₀ with state := .newBlock } := by
    simp only [step, datapath, nextState, hst]
  rw [hstep] at hlive ⊢
  refine ⟨hlive, trivial, rfl, fun hno => absurd rfl hno, fun r hr c h1 h10 hbit => ?_, fun hno => absurd rfl hno⟩
  have hne : r.val ≠ 21 := by omega
  simp only [reset, hne, if_false] at hbit
  rw [emptyRow_getLsbD h1 h10] at hbit
  cases hbit

section Stream
variable {g : Regs} {f : Nat → Input} (h : Restarted g) (huntouched : ∀ n, Untouched (f n))
include h huntouched

theorem piled_until {n : Nat} (hbefore : ∀ m < n, (after step f g m).state ≠ .gameOver) :
    Piled (after step f g n) := by
  induction n with
  | zero => exact restarted_piled h
  | succ n ih =>
    have hp := ih fun m hm => hbefore m (Nat.lt_succ_of_lt hm)
    exact (piled_step hp _ (hbefore n (Nat.lt_succ_self n)) (huntouched n)).piled

theorem lockedCells_mono (hnever : ∀ m, (after step f g m).state ≠ .gameOver) (n d : Nat) :
    lockedCells (after step f g n) ≤ lockedCells (after step f g (n + d)) := by
  induction d with
  | zero => exact le_rfl
  | succ d ih =>
    refine ih.trans ?_
    have hp := piled_until h huntouched (n := n + d) fun m _ => hnever m
    rcases (piled_step hp _ (hnever _) (huntouched (n + d))).board with ⟨-, hlt⟩ | ⟨-, hsame⟩
    · exact hlt.le
    · exact (lockedCells_congr hsame).ge

theorem untouched_is_over (hatt : Attended g f) : ∃ n, (after step f g n).state = .gameOver := by
  by_contra hno
  have hnever : ∀ m, (after step f g m).state ≠ .gameOver := not_exists.1 hno
  have hover : LeadsTo step f g (fun _ => True) (fun t => t.state = .gameOver) := by
    refine LeadsTo.of_descent (fun t => 210 - lockedCells t) fun r n hn => ?_
    obtain ⟨m, hm, hlock | hend⟩ := comes_to_lock hatt (fun k => (huntouched k).2.2.2)
      (restarted_piled h).toLive n trivial
    · have hp := piled_until h huntouched (n := m) fun k _ => hnever k
      have hmono := lockedCells_mono h huntouched hnever n (m - n)
      rw [Nat.add_sub_cancel' hm] at hmono
      rcases (piled_step hp _ (hnever m) (huntouched m)).board with ⟨-, hlt⟩ | ⟨hno, -⟩
      · have hle := lockedCells_le (after step f g (m + 1))
        have hlt' : lockedCells (after step f g m) < lockedCells (after step f g (m + 1)) := hlt
        have hrank : 210 - lockedCells (after step f g n) = r := hn.2
        refine ⟨m + 1, by omega, Or.inr ⟨trivial, ?_⟩⟩
        change 210 - lockedCells (after step f g (m + 1)) < r
        omega
      · exact absurd hlock hno
    · exact ⟨m, hm, Or.inl hend⟩
  obtain ⟨n, -, hn⟩ := hover 0 trivial
  exact hnever n hn

/-- Whatever blocks come, and however the down key is pressed, a game in which no other
key is pressed ends, with a score of zero. -/
theorem untouched_game_ends (hatt : Attended g f) :
    ∃ n, StopsAt step (fun t => t.state = .gameOver) f g n ∧ (after step f g n).currentScore = 0 := by
  have hends := untouched_is_over h huntouched hatt
  have hfirst : StopsAt step (fun t => t.state = .gameOver) f g (Nat.find hends) :=
    ⟨Nat.find_spec hends, fun m hm => Nat.find_min hends hm⟩
  exact ⟨Nat.find hends, hfirst, (piled_until h huntouched fun m hm => Nat.find_min hends hm).score⟩

end Stream

theorem handsOff_game_ends :
    ∃ n, StopsAt step (fun t => t.state = .gameOver) (fun _ => handsOff) newGame n ∧
      (after step (fun _ => handsOff) newGame n).currentScore = 0 :=
  untouched_game_ends newGame_restarted (fun _ => by decide) fun n => ⟨n, le_rfl, goesOn_handsOff _⟩

end Tetris
