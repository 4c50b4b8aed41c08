import Tetris.Access
import Tetris.Machine

/-! What a new game takes over from the one before it. -/
namespace Tetris
open Machine

def played (g : Regs) : Regs :=
  { g with
    currentBest := 0
    nextCoordStatic := fun _ => 0
    nextColorStatic := fun _ _ => 0 }

/-- All registers agree, the best score aside. -/
structure SameGame (g h : Regs) : Prop where
  state : g.state = h.state
  piece : g.toPiece = h.toPiece
  shape : g.currentShape = h.currentShape
  rotation : g.rotateCounter = h.rotateCounter
  counter : g.counter = h.counter
  accu : g.accu = h.accu
  coord : g.coordStatic = h.coordStatic
  color : g.colorStatic = h.colorStatic
  score : g.currentScore = h.currentScore
  nextCoord : g.nextCoordStatic = h.nextCoordStatic
  nextColor : g.nextColorStatic = h.nextColorStatic

/-- The preview that is drawn beside the well. -/
def SamePreview (g h : Regs) : Prop :=
  g.nextCoordStatic = h.nextCoordStatic ∧ g.nextColorStatic = h.nextColorStatic

theorem played_eq (g : Regs) :
    played g = repaint g.currentScore 0 (fun _ => 0) (fun _ _ => 0) g := rfl

theorem played_gameOver (g : Regs) : played (gameOver g) = played (gameOver (played g)) := by
  unfold gameOver
  split_ifs <;> rfl

theorem played_datapath (g : Regs) (i : Input) :
    played (datapath g i) = played (datapath (played g) i) := by
  have hst : (played g).state = g.state := rfl
  by_cases hscore : .score ∈ g.state.writes
  · cases score_writers _ hscore with
    | inl hreset =>
      simp only [datapath, hst, hreset]
      rfl
    | inr hclear =>
      obtain ⟨k, hclear⟩ := hclear
      simp only [datapath, hst, hclear]
      rfl
  by_cases hbest : .best ∈ g.state.writes
  · have hover := best_writers _ hbest
    simp only [datapath, hst, hover]
    exact played_gameOver g
  by_cases hpreview : .preview ∈ g.state.writes
  · have hnew := preview_writers _ hpreview
    simp only [datapath, hst, hnew]
    rfl
  have hkept : (datapath g i).currentScore = g.currentScore := datapath_keeps hscore i
  rw [played_eq g, datapath_repaint _ _ _ _ hscore hbest hpreview, ← hkept]
  rfl

theorem played_step (g : Regs) (i : Input) : played (step g i) = played (step (played g) i) :=
  congrArg (fun t : Regs => { t with state := nextState g i }) (played_datapath g i)

/-- Games that agree but for best score and preview go on so. -/
theorem played_run {g h : Regs} (hgh : played g = played h) (is : List Input) :
    played (run step g is) = played (run step h is) := by
  refine run_related step (f := step) (R := fun g h => played g = played h) (fun s t i hst => ?_)
    hgh is
  rw [played_step s, played_step t, hst]

theorem sameGame_of_played {g h : Regs} (hgh : played g = played h) (hnext : SamePreview g h) :
    SameGame g h where
  state := (congrArg Regs.state hgh :)
  piece := (congrArg Regs.toPiece hgh :)
  shape := (congrArg Regs.currentShape hgh :)
  rotation := (congrArg Regs.rotateCounter hgh :)
  counter := (congrArg Regs.counter hgh :)
  accu := (congrArg Regs.accu hgh :)
  coord := (congrArg Regs.coordStatic hgh :)
  color := (congrArg Regs.colorStatic hgh :)
  score := (congrArg Regs.currentScore hgh :)
  nextCoord := hnext.1
  nextColor := hnext.2

theorem preview_kept {g : Regs} (h : g.state ≠ .newNext) (i : Input) : SamePreview (step g i) g :=
  datapath_keeps (r := .preview) (fun hw => h (preview_writers _ hw)) i

theorem preview_step {g h : Regs} (hst : g.state = h.state) (hnext : SamePreview g h) (i : Input) :
    SamePreview (step g i) (step h i) := by
  by_cases hnew : g.state = .newNext
  · have hnew' : h.state = .newNext := hst.symm.trans hnew
    simp only [SamePreview, step, datapath, hnew, hnew', newNext, and_self]
  · obtain ⟨hcoord, hcolor⟩ := preview_kept hnew i
    obtain ⟨hcoord', hcolor'⟩ := preview_kept (hst ▸ hnew) i
    exact ⟨hcoord.trans (hnext.1.trans hcoord'.symm), hcolor.trans (hnext.2.trans hcolor'.symm)⟩

theorem preview_run {g h : Regs} (hgh : played g = played h) (hnext : SamePreview g h) (is : List Input) :
    SamePreview (run step g is) (run step h is) := by
  induction is generalizing g h with
  | nil => exact hnext
  | cons i is ih =>
    have hst : g.state = h.state := (congrArg Regs.state hgh :)
    refine ih ?_ (preview_step hst hnext i)
    rw [played_step g, played_step h, hgh]

theorem preview_restart {g : Regs} (hg : g.state = .reset) (i j : Input) : SamePreview (run step g [i, j]) g := by
  have hreset : (step g i).state = .newBlock := by simp only [step, nextState, hg]
  obtain ⟨hcoord, hcolor⟩ := preview_kept (g := g) (by simp [hg]) i
  obtain ⟨hcoord', hcolor'⟩ := preview_kept (g := step g i) (by simp [hreset]) j
  exact ⟨hcoord'.trans hcoord, hcolor'.trans hcolor⟩

theorem played_restart {g h : Regs} (hg : g.state = .reset) (hh : h.state = .reset)
    (hc : g.counter = h.counter) (i j : Input) :
    played (run step g [i, j]) = played (run step h [i, j]) := by
  have hstep (g : Regs) (hst : g.state = .reset) :
      run step g [i, j] = { newBlock (reset g) j with state := .beforeNew } := by
    have hreset : step g i = { reset g with state := .newBlock } := by
      simp only [step, datapath, nextState, hst]
    simp only [run_cons, run_nil, hreset]
    simp only [step, datapath, nextState]
    rfl
  rw [hstep g hg, hstep h hh]
  simp only [played, newBlock, reset, hc]

structure Idle (c : BitVec 8) (g : Regs) : Prop where
  state : g.state = .inter
  top : g.coordStatic 0 = emptyRow ∧ g.coordStatic 1 = emptyRow
  shape : g.currentShape ≠ 0
  counter : g.counter = c

def pauseResume : List Input := [{ pause := true }, { resume := true }]

theorem Idle.inter_step {c : BitVec 8} {g : Regs} (h : Idle c g) {i : Input}
    (hdown : i.down = false) :
    step g i = { g with accu := 1, counter := c + 1, state := interNext g i } := by
  simp only [step, datapath, nextState, h.state, inter, hdown, h.counter]
  rfl

/-- A pause costs the timer one cycle, even where it has run out. -/
theorem Idle.pause {c : BitVec 8} {g : Regs} (h : Idle c g) :
    Idle (c + 1) (run step g pauseResume) := by
  have hpause : interNext g { pause := true } = .pause := by
    simp [interNext, h.top]
  have hrun : run step g pauseResume = { g with accu := 1, counter := c + 1, state := .inter } := by
    simp only [pauseResume, run_cons, run_nil, h.inter_step (i := { pause := true }) rfl, hpause]
    simp only [step, datapath, nextState, if_true]
  rw [hrun]
  exact ⟨rfl, h.top, h.shape, rfl⟩

theorem Idle.pauses {c : BitVec 8} {g : Regs} (h : Idle c g) (n : Nat) :
    Idle (c + BitVec.ofNat 8 n) (run step g (List.replicate n pauseResume).flatten) := by
  induction n generalizing c g with
  | zero => simpa using h
  | succ n ih =>
    rw [List.replicate_succ, List.flatten_cons, run_append]
    have hnext := ih h.pause
    have hsum : c + 1 + BitVec.ofNat 8 n = c + BitVec.ofNat 8 (n + 1) := by
      rw [BitVec.ofNat_add, BitVec.add_assoc, BitVec.add_comm 1]
      rfl
    rwa [hsum] at hnext

theorem Idle.tick {c : BitVec 8} {g : Regs} (h : Idle c g) :
    (step g {}).state = if c > 60 then .moveDown else .inter := by
  have hne : g.currentShape ≠ 0#3 := h.shape
  rw [h.inter_step rfl]
  simp [interNext, h.top, hne, h.counter]

theorem exists_one_expired {c d : BitVec 8} (h : c ≠ d) :
    ∃ n : Nat, ¬ (c + BitVec.ofNat 8 n > 60 ↔ d + BitVec.ofNat 8 n > 60) := by
  by_contra hall
  have hcd (n : Nat) : c + BitVec.ofNat 8 n > 60 ↔ d + BitVec.ofNat 8 n > 60 :=
    not_not.1 (not_exists.1 hall n)
  -- once `c`, once `d` is brought to 0
  have h0 := hcd (256 - c.toNat)
  have h1 := hcd (256 - d.toNat)
  apply h
  bv_omega

/-- `RESET`, `NEW_BLOCK`, `BEFORENEW` with an answer, `NEWNEXT`. -/
def opening : List Input := [{}, {}, { fromSwSig := true }, {}]

theorem opening_idle {g : Regs} (h : g.state = .reset) : Idle g.counter (run step g opening) := by
  have hreset : step g {} = { reset g with state := .newBlock } := by
    simp only [step, datapath, nextState, h]
  have hrun : run step g opening = { newNext (newBlock (reset g) {}) {} with state := .inter } := by
    simp only [opening, run_cons, run_nil, hreset]
    simp only [step, datapath, nextState, if_true]
    rfl
  rw [hrun]
  exact ⟨rfl, ⟨rfl, rfl⟩, by simp [newNext, newBlock, newBlockCells], rfl⟩

theorem restart_state_iff {g h : Regs} (hg : g.state = .reset) (hh : h.state = .reset) :
    (∀ is : List Input, 2 ≤ is.length → (run step g is).state = (run step h is).state) ↔
      g.counter = h.counter := by
  constructor
  · intro hall
    by_contra hc
    obtain ⟨n, hn⟩ := exists_one_expired hc
    have hsame := hall (opening ++ (List.replicate n pauseResume).flatten ++ [({} : Input)]) (by simp [opening])
    simp only [run_append, run_cons, run_nil] at hsame
    rw [((opening_idle hg).pauses n).tick, ((opening_idle hh).pauses n).tick] at hsame
    split_ifs at hsame with hgt hgt' hgt'
    · exact hn (iff_of_true hgt hgt')
    · exact hn (iff_of_false hgt hgt')
  · intro hc is his
    match is, his with
    | i :: j :: is, _ =>
      exact (congrArg Regs.state (played_run (played_restart hg hh hc i j) is) :)

/-- Two new games agree in all but the best score, whatever the inputs, exactly if the old
ones left the same counter and the same preview; already their states tell the counters apart. -/
theorem restart_same_iff {g h : Regs} (hg : g.state = .reset) (hh : h.state = .reset) :
    ((∀ is : List Input, 2 ≤ is.length → SameGame (run step g is) (run step h is)) ↔
        g.counter = h.counter ∧ SamePreview g h) ∧
      ((∀ is : List Input, 2 ≤ is.length → (run step g is).state = (run step h is).state) ↔
        g.counter = h.counter) := by
  refine ⟨⟨fun hall => ?_, fun hleft is his => ?_⟩, restart_state_iff hg hh⟩
  · refine ⟨(restart_state_iff hg hh).1 fun is his => (hall is his).state, ?_⟩
    have hsame := hall [{}, {}] le_rfl
    obtain ⟨hcoord, hcolor⟩ := preview_restart hg {} {}
    obtain ⟨hcoord', hcolor'⟩ := preview_restart hh {} {}
    exact ⟨hcoord.symm.trans (hsame.nextCoord.trans hcoord'), hcolor.symm.trans (hsame.nextColor.trans hcolor')⟩
  · obtain ⟨hc, hcoord, hcolor⟩ := hleft
    match is, his with
    | i :: j :: is, _ =>
      have hstart := played_restart hg hh hc i j
      obtain ⟨hkept, hkept'⟩ := preview_restart hg i j
      obtain ⟨hkeeps, hkeeps'⟩ := preview_restart hh i j
      refine sameGame_of_played (played_run hstart is) (preview_run hstart ?_ is)
      exact ⟨hkept.trans (hcoord.trans hkeeps.symm), hkept'.trans (hcolor.trans hkeeps'.symm)⟩

/-- A short game: an L is caught by the wall near the top, and an O ends up on it. -/
def shortGame : List Input :=
  let drop : List Input := [{ down := true }, { down := true }, { down := true }, { down := true }, {}]
  let turn : List Input := [{ up := true }, {}, {}, {}]
  let left : List Input := [{ left := true }, {}, {}]
  [({ enter := true } : Input), {}, { nextShape := 3 }, { fromSwSig := true }, { nextShape := 4 }] ++
    drop ++ drop ++ turn ++ turn ++ turn ++ left ++ left ++ left ++ left ++ turn ++ drop ++
    [({} : Input), {}, {}, {}, { nextShape := 4 }, { fromSwSig := true }, { nextShape := 1 }] ++
    left ++ left ++ left ++ left ++ drop ++ [({ enter := true } : Input)]

theorem shortGame_restart :
    (run step resetRegs shortGame).state = .reset ∧ (run step resetRegs shortGame).counter = 1 := by
  decide +kernel

theorem restart_differs : ∃ g h : Regs, Reachable step resetRegs g ∧ Reachable step resetRegs h ∧
    g.state = .reset ∧ h.state = .reset ∧
    ∃ is : List Input, 2 ≤ is.length ∧ ¬ SameGame (run step g is) (run step h is) := by
  refine ⟨run step resetRegs [{ enter := true }], run step resetRegs shortGame, ⟨_, rfl⟩, ⟨_, rfl⟩,
    rfl, shortGame_restart.1, opening ++ List.replicate 3 { down := true }, by decide, fun hsame => ?_⟩
  have hstate := hsame.state
  revert hstate
  decide +kernel

theorem restart_same_iff_shortGame :
    let g := run step resetRegs [{ enter := true }]
    let h := run step resetRegs shortGame
    ((∀ is : List Input, 2 ≤ is.length → SameGame (run step g is) (run step h is)) ↔
        g.counter = h.counter ∧ SamePreview g h) ∧
      ((∀ is : List Input, 2 ≤ is.length → (run step g is).state = (run step h is).state) ↔
        g.counter = h.counter) :=
  restart_same_iff rfl shortGame_restart.1

end Tetris
