import Tetris.Clearing
import Tetris.TopRows

/-! The keyboard and the gravity timer: one key signal at a time, and an eight-bit
counter that only `MOVEDOWN` clears. -/
namespace Tetris
open Machine

/-- The key signals, decoded from the low byte of the keycode. -/
def keycodeReader (keycode : BitVec 16) : Input :=
  match keycode.extractLsb' 0 8 with
  | 0x1A => { up := true }
  | 0x16 => { down := true }
  | 0x04 => { left := true }
  | 0x07 => { right := true }
  | 0x13 => { pause := true }
  | 0x15 => { resume := true }
  | 0x28 => { enter := true }
  | _ => {}

/-- What a frame samples: the keycode and the two inputs from the software. -/
structure Sample where
  keycode : BitVec 16 := 0
  nextShape : BitVec 3 := 0
  fromSwSig : Bool := false

def Sample.input (s : Sample) : Input :=
  { keycodeReader s.keycode with nextShape := s.nextShape, fromSwSig := s.fromSwSig }

def frame (g : Regs) (s : Sample) : Regs := step g s.input

def increment (i : Input) : Nat := if i.down then 30 else 1

/-- The addition done in `INTER`, if this is one, does not overflow. -/
def NoWrap (g : Regs) (s : Sample) : Prop :=
  g.state = .inter → g.counter.toNat + increment s.input ≤ 255

/-- The game is paused with the timer too far on: nearly run out, or, before the
clearing after a lock, without room for the two additions to come. -/
def LatePause (g : Regs) (s : Sample) : Prop :=
  g.state = .inter ∧ TopClear g.coordStatic ∧ s.input.pause = true ∧
    (225 ≤ g.counter.toNat ∨ (g.currentShape = 0 ∧ 195 ≤ g.counter.toNat))

instance (g : Regs) (s : Sample) : Decidable (NoWrap g s) := inferInstanceAs (Decidable (_ → _))
instance (g : Regs) (s : Sample) : Decidable (LatePause g s) := inferInstanceAs (Decidable (_ ∧ _))

theorem not_down_of_pause {s : Sample} (h : s.input.pause = true) : s.input.down = false := by
  change (keycodeReader s.keycode).pause = true at h
  change (keycodeReader s.keycode).down = false
  unfold keycodeReader at h ⊢
  split at h <;> first | rfl | cases h

theorem increment_le (i : Input) : increment i ≤ 30 := by
  unfold increment
  split_ifs <;> omega

theorem increment_of_pause {s : Sample} (h : s.input.pause = true) : increment s.input = 1 := by
  unfold increment
  rw [not_down_of_pause h]
  rfl

theorem inter_counter {g : Regs} {i : Input} (h : g.counter.toNat + increment i ≤ 255) :
    (inter g i).counter.toNat = g.counter.toNat + increment i := by
  unfold increment at h ⊢
  simp only [inter]
  split_ifs at h ⊢ <;> bv_omega

theorem run_frame (g : Regs) (is : List Sample) : run frame g is = run step g (is.map Sample.input) := by
  induction is generalizing g with
  | nil => rfl
  | cons s is ih => exact ih (frame g s)

theorem frame_reachable {g : Regs} (h : Reachable frame resetRegs g) : Reachable step resetRegs g := by
  obtain ⟨is, rfl⟩ := h
  exact ⟨is.map Sample.input, (run_frame resetRegs is).symm⟩

/-- The largest counter in each state, without late pauses; `idle` is that there is no
active shape. -/
def State.timerLimit (st : State) (idle : Bool) : Nat :=
  match st with
  | .moveDown => 255
  | .inter | .pause => if idle then 195 else 225
  | .clear _ _ | .newBlock | .beforeNew | .newNext | .gameOver | .reset | .start => 225
  | _ => 90

def Idles (g : Regs) : Bool := decide (g.currentShape = 0)

structure Paced (g : Regs) : Prop where
  counter : g.counter.toNat ≤ g.state.timerLimit (Idles g)
  dealt : g.state = .beforeNew ∨ g.state = .newNext → g.currentShape ≠ 0
  topped : Topped g

theorem timerLimit_mono : ∀ (st st' : State) (idle : Bool), st' ∈ st.successors → st ≠ .inter →
    st ≠ .moveDown → (st = .newNext → idle = false) → st.timerLimit idle ≤ st'.timerLimit idle := by
  decide +kernel

theorem newBlockCells_ne_zero (v : BitVec 3) : (newBlockCells v).2 ≠ 0 := by
  obtain ⟨s, hs, -⟩ := newBlockCells_placed v
  rw [hs]
  exact code_ne_zero s

theorem interNext_cases (g : Regs) (i : Input) :
    (interNext g i = .gameOver ∧ ¬ TopClear g.coordStatic) ∨
      (interNext g i = .pause ∧ TopClear g.coordStatic ∧ i.pause = true) ∨
      (interNext g i = .clear 0 0 ∧ g.currentShape = 0) ∨
      (interNext g i = .moveDown ∧ g.currentShape ≠ 0) ∨
      (interNext g i ∈ [.moveLeft, .moveRight, .rotateChoose, .inter] ∧ g.currentShape ≠ 0 ∧
        g.counter.toNat ≤ 60) := by
  by_cases htop : TopClear g.coordStatic
  · have hrows : ¬ (g.coordStatic 0 ≠ emptyRow ∨ g.coordStatic 1 ≠ emptyRow) := by
      rw [not_or, not_not, not_not]
      exact htop
    unfold interNext
    rw [if_neg hrows]
    by_cases hpause : i.pause = true
    · rw [if_pos hpause]
      exact Or.inr (Or.inl ⟨rfl, htop, hpause⟩)
    rw [if_neg hpause]
    by_cases hzero : g.currentShape = 0
    · rw [if_pos hzero]
      exact Or.inr (Or.inr (Or.inl ⟨rfl, hzero⟩))
    rw [if_neg hzero]
    by_cases hdue : g.counter > 60
    · rw [if_pos hdue]
      exact Or.inr (Or.inr (Or.inr (Or.inl ⟨rfl, hzero⟩)))
    · rw [if_neg hdue]
      have hle : g.counter.toNat ≤ 60 := BitVec.le_def.1 (BitVec.not_lt.1 hdue)
      refine Or.inr (Or.inr (Or.inr (Or.inr ⟨?_, hzero, hle⟩)))
      split_ifs <;> simp
  · exact Or.inl ⟨(interNext_gameOver_iff g i).2 htop, htop⟩

theorem paced_inter {g : Regs} (h : Paced g) (hst : g.state = .inter) {s : Sample}
    (hlate : ¬ LatePause g s) :
    g.counter.toNat + increment s.input ≤ 255 ∧
      g.counter.toNat + increment s.input ≤ (interNext g s.input).timerLimit (Idles g) := by
  have hcount := h.counter
  rw [hst] at hcount
  simp only [State.timerLimit, Idles, decide_eq_true_eq] at hcount ⊢
  have hinc := increment_le s.input
  refine ⟨by split_ifs at hcount <;> omega, ?_⟩
  rcases interNext_cases g s.input with
    ⟨hn, htop⟩ | ⟨hn, htop, hpause⟩ | ⟨hn, hzero⟩ | ⟨hn, hne⟩ | ⟨hn, hne, hle⟩
  · have hzero : g.currentShape = 0 := by
      by_contra hne
      exact htop (h.topped.clear (Or.inl hne))
    rw [if_pos hzero] at hcount
    rw [hn]
    dsimp only
    omega
  · have hearly : ¬ (225 ≤ g.counter.toNat ∨ (g.currentShape = 0 ∧ 195 ≤ g.counter.toNat)) :=
      fun hbig => hlate ⟨hst, htop, hpause, hbig⟩
    rw [hn, increment_of_pause hpause]
    dsimp only
    split_ifs with hzero
    · have hbound : ¬ 195 ≤ g.counter.toNat := fun hbig => hearly (Or.inr ⟨hzero, hbig⟩)
      omega
    · have hbound : ¬ 225 ≤ g.counter.toNat := fun hbig => hearly (Or.inl hbig)
      omega
  · rw [if_pos hzero] at hcount
    rw [hn]
    dsimp only
    omega
  · rw [hn]
    dsimp only
    split_ifs at hcount <;> omega
  · simp only [List.mem_cons, List.not_mem_nil, or_false] at hn
    rcases hn with hn | hn | hn | hn <;> rw [hn] <;> dsimp only
    · omega
    · omega
    · omega
    · rw [if_neg hne]
      omega

theorem dealt_step {g : Regs} (h : g.state = .beforeNew → g.currentShape ≠ 0) {i : Input}
    (hnext : (step g i).state = .beforeNew ∨ (step g i).state = .newNext) :
    (step g i).currentShape ≠ 0 := by
  have hfrom : g.state = .newBlock ∨ g.state = .beforeNew := by
    cases hnext with
    | inl hnext =>
      exact entered_from (P := fun st => st = .newBlock ∨ st = .beforeNew) (by decide) hnext
    | inr hnext =>
      exact entered_from (P := fun st => st = .newBlock ∨ st = .beforeNew) (by decide) hnext
  change (datapath g i).currentShape ≠ 0
  cases hfrom with
  | inl hst =>
    simp only [datapath, hst]
    exact newBlockCells_ne_zero _
  | inr hst =>
    simp only [datapath, hst]
    exact h hst

theorem paced_still {g : Regs} (h : Paced g) (hinter : g.state ≠ .inter)
    (hdown : g.state ≠ .moveDown) (s : Sample) :
    g.counter.toNat ≤ (frame g s).state.timerLimit (Idles (frame g s)) := by
  have hcount := h.counter
  by_cases hreset : g.state = .reset
  · have hnext : (frame g s).state = .newBlock := by simp only [frame, step, nextState, hreset]
    rw [hreset] at hcount
    rw [hnext]
    exact hcount
  by_cases hnew : g.state = .newBlock
  · have hnext : (frame g s).state = .beforeNew := by simp only [frame, step, nextState, hnew]
    rw [hnew] at hcount
    rw [hnext]
    exact hcount
  have hidle : Idles (frame g s) = Idles g := by
    have hshape : (frame g s).currentShape = g.currentShape := shape_kept hreset hnew hdown s.input
    unfold Idles
    rw [hshape]
  have hmono := timerLimit_mono g.state (frame g s).state (Idles g) (nextState_mem g s.input)
    hinter hdown
  rw [hidle]
  refine hcount.trans (hmono fun hst => ?_)
  simpa [Idles] using h.dealt (Or.inr hst)

/-- A step that is no late pause keeps the timer within its limits. -/
theorem paced_step {g : Regs} (h : Paced g) {s : Sample} (hlate : ¬ LatePause g s) :
    Paced (frame g s) := by
  refine ⟨?_, dealt_step fun hst => h.dealt (Or.inl hst), topped_step h.topped s.input⟩
  by_cases hinter : g.state = .inter
  · obtain ⟨hfits, hlimit⟩ := paced_inter h hinter hlate
    have hstep : frame g s = { inter g s.input with state := interNext g s.input } := by
      simp only [frame, step, datapath, nextState, hinter]
    have hcount : (frame g s).counter.toNat = g.counter.toNat + increment s.input := by
      rw [hstep]
      exact inter_counter hfits
    rw [hcount, hstep]
    exact hlimit
  by_cases hdown : g.state = .moveDown
  · have hzero : (frame g s).counter = 0 := by
      simp only [frame, step, datapath, hdown, moveDown]
      split_ifs <;> rfl
    rw [hzero]
    exact Nat.zero_le _
  · have hkept : (frame g s).counter = g.counter :=
      datapath_keeps (r := .counter) (fun hw => (counter_writers _ hw).elim hinter hdown) s.input
    rw [hkept]
    exact paced_still h hinter hdown s

theorem paced_reset : Paced resetRegs where
  counter := by decide
  dealt := by decide
  topped := Or.inr ⟨rfl, Or.inl rfl⟩

theorem noWrap_of_paced {g : Regs} (h : Paced g) {s : Sample} (hlate : ¬ LatePause g s) : NoWrap g s :=
  fun hst => (paced_inter h hst hlate).1

def resumeKey : Sample := { keycode := 0x15 }

def downKey : Sample := { keycode := 0x16, fromSwSig := true }

theorem pause_resumed {g : Regs} {s : Sample} (hst : g.state = .inter) (htop : TopClear g.coordStatic)
    (hpause : s.input.pause = true) :
    run frame g [s, resumeKey] = { g with accu := 1, counter := g.counter + 1, state := .inter } := by
  have hn : interNext g s.input = .pause := by
    simp [interNext, htop.1, htop.2, hpause]
  have hfirst : frame g s = { g with accu := 1, counter := g.counter + 1, state := .pause } := by
    simp only [frame, step, datapath, nextState, hst, hn, inter, not_down_of_pause hpause]
    rfl
  rw [run_cons, run_cons, run_nil, hfirst]
  rfl

theorem Sweep.until_counter {g : Regs} (h : Sweep 0 g) :
    Until step (fun t => t.state = .newBlock) (fun t => t.counter = g.counter) g := by
  refine Sweep.until (I := fun k t => Sweep k t ∧ t.counter = g.counter) (fun _ _ ht => ht.1)
    (fun _ _ hk ht hfull => ⟨ht.1.delete hk hfull, ht.2⟩) (fun k t i hk ht hfull => ?_)
    (fun t i ht => ?_) ⟨h, rfl⟩
  · have hskip := ht.1.skip hk hfull i
    rw [step_skip ht.1.pass hk hfull] at hskip ⊢
    exact ⟨hskip, ht.2⟩
  · rw [ht.1.step_fourth]
    split_ifs <;> exact ht.2

theorem carried_over {g : Regs} (hreach : Reachable step resetRegs g) (hst : g.state = .inter)
    (hzero : g.currentShape = 0) (htop : TopClear g.coordStatic) :
    ∃ n, (run frame g (List.replicate n downKey)).state = .inter ∧
      (run frame g (List.replicate n downKey)).counter = g.counter + 30 := by
  have hn : interNext g downKey.input = .clear 0 0 := interNext_locked hzero htop rfl
  have hfirst : step g downKey.input =
      { g with accu := 1, counter := g.counter + 30, state := .clear 0 0 } := by
    simp only [step, datapath, nextState, hst, hn, inter]
    rfl
  obtain ⟨is, rfl⟩ := hreach
  have hclear : (step (run step resetRegs is) downKey.input).state = .clear 0 0 := by rw [hfirst]
  have htidy : Tidy (step (run step resetRegs is) downKey.input) :=
    reachable_tidy ⟨is ++ [downKey.input], run_append step resetRegs is _⟩
  have hsweep := (tidy_sweep hclear htidy).1
  rw [passEnd_of_first hclear] at hsweep
  obtain ⟨n, ⟨hstop, -⟩, hcount⟩ := hsweep.until_counter.stopsAt fun _ => downKey.input
  rw [after_const] at hstop hcount
  refine ⟨n + 1 + 3, ?_⟩
  have hlast (t : Regs) (ht : t.state = .newBlock) :
      (run step t (List.replicate 3 downKey.input)).state = .inter ∧
        (run step t (List.replicate 3 downKey.input)).counter = t.counter := by
    simp only [List.replicate, run_cons, run_nil, step, datapath, nextState, ht]
    exact ⟨rfl, rfl⟩
  rw [run_frame, List.map_replicate, List.replicate_add, run_append, List.replicate_succ, run_cons]
  refine ⟨(hlast _ hstop).1, (hlast _ hstop).2.trans (hcount.trans ?_)⟩
  rw [hfirst]

theorem wraps_at {g : Regs} (is : List Sample) {s : Sample} (h : ¬ NoWrap (run frame g is) s) :
    ¬ Throughout frame NoWrap g (is ++ [s]) :=
  fun hall => h ((throughout_append frame NoWrap g is [s]).1 hall).2.1

/-- After a late pause the timer can be made to wrap, with no pause after it. -/
theorem late_pause_wraps {g : Regs} (hreach : Reachable step resetRegs g) {s : Sample}
    (h : LatePause g s) :
    ∃ js : List Sample, (∀ i ∈ js, i.input.pause = false) ∧ ¬ Throughout frame NoWrap g (s :: js) := by
  obtain ⟨hst, htop, hpause, hlate⟩ := h
  have hresumed := pause_resumed hst htop hpause
  by_cases hfull : g.counter.toNat = 255
  · refine ⟨[], by simp, fun hall => ?_⟩
    have hfits := hall.1 hst
    unfold increment at hfits
    split_ifs at hfits <;> omega
  have hlt := g.counter.isLt
  by_cases hbig : 225 ≤ g.counter.toNat
  · refine ⟨[resumeKey, downKey], by decide, wraps_at [s, resumeKey] fun hfits => ?_⟩
    rw [hresumed] at hfits
    have hsum : (g.counter + 1).toNat + 30 ≤ 255 := hfits rfl
    bv_omega
  · obtain ⟨hzero, hlow⟩ := hlate.resolve_left hbig
    have hreach' : Reachable step resetRegs (run frame g [s, resumeKey]) := by
      obtain ⟨is, rfl⟩ := hreach
      exact ⟨is ++ [s.input, resumeKey.input], run_append step resetRegs is _⟩
    rw [hresumed] at hreach'
    obtain ⟨n, hinter, hcount⟩ := carried_over hreach' rfl hzero htop
    refine ⟨resumeKey :: List.replicate n downKey ++ [downKey], fun i hi => ?_,
      wraps_at ([s, resumeKey] ++ List.replicate n downKey) fun hfits => ?_⟩
    · simp only [List.cons_append, List.mem_cons, List.mem_append, List.mem_replicate] at hi
      obtain rfl | ⟨-, rfl⟩ | rfl | hi := hi
      · rfl
      · rfl
      · rfl
      · cases hi
    rw [run_append, hresumed] at hfits
    have hsum := hfits hinter
    rw [hcount] at hsum
    change (g.counter + 1 + 30).toNat + 30 ≤ 255 at hsum
    bv_omega

/-- In a run without late pauses the additions of `INTER` never overflow, whatever is
typed and whatever the software answers; after a late pause they can be made to, without
any pause that follows. -/
theorem timer_never_wraps (is : List Sample) :
    (Throughout frame (fun g s => ¬ LatePause g s) resetRegs is →
        Throughout frame NoWrap resetRegs is) ∧
      ∀ s : Sample, LatePause (run frame resetRegs is) s →
        ∃ js : List Sample, (∀ i ∈ js, i.input.pause = false) ∧
          ¬ Throughout frame NoWrap resetRegs (is ++ s :: js) := by
  constructor
  · intro hall
    exact hall.of_invariant frame (I := Paced) (fun _ _ hlate hp => paced_step hp hlate)
      (fun _ _ hlate hp => noWrap_of_paced hp hlate) paced_reset
  · intro s hlate
    obtain ⟨js, hno, hjs⟩ := late_pause_wraps (frame_reachable ⟨is, rfl⟩) hlate
    exact ⟨js, hno, fun hall => hjs ((throughout_append frame NoWrap resetRegs is (s :: js)).1 hall).2⟩

/-- A game started, its first block paused 226 times, and then the down key. -/
def pausedTooOften : List Sample :=
  let start : List Sample :=
    [{ keycode := 0x28 }, { nextShape := 1 }, { nextShape := 1 }, { fromSwSig := true }, { nextShape := 2 }]
  start ++ (List.replicate 226 [{ keycode := 0x13 }, resumeKey]).flatten ++ [downKey]

theorem pausedTooOften_wraps : ∃ is : List Sample, ¬ Throughout frame NoWrap resetRegs is :=
  ⟨pausedTooOften, by decide +kernel⟩

end Tetris
