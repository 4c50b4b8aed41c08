import Tetris.Gravity

/-! What the game does sooner or later: a piece in play is locked, and the machine comes
to a lock or to the end of the game again and again. -/
namespace Tetris
open Machine

def goesOn (st : State) (i : Input) : Bool :=
  match st with
  | .beforeNew => i.fromSwSig
  | .afterLeft => !i.left
  | .afterRight => !i.right
  | .afterRotate => !i.up
  | .pause => i.resume
  | _ => true

/-- No wait lasts for ever: keys are released, pauses resumed and requests answered. -/
def Attended (g : Regs) (f : Nat → Input) : Prop :=
  ∀ n, ∃ m, n ≤ m ∧ goesOn (after step f g n).state (f m) = true

/-- Whether there is a piece in play, where the state tells. -/
def State.manned : State → Option Bool
  | .inter | .pause => none
  | .start | .reset | .newBlock | .clear _ _ | .gameOver => some false
  | _ => some true

structure Live (g : Regs) : Prop where
  well : InWell g
  tidy : Tidy g
  topped : Topped g
  manned : ∀ b, g.state.manned = some b → (g.currentShape ≠ 0 ↔ b = true)
  awake : g.state ≠ .resume

theorem manned_kept : ∀ st st' : State, st' ∈ st.successors → st ≠ .inter → st ≠ .newBlock →
    st'.manned = none ∨ st'.manned = st.manned := by
  decide +kernel

theorem inter_manned {g : Regs} (h : Topped g) (i : Input) (b : Bool)
    (hb : (interNext g i).manned = some b) : g.currentShape ≠ 0 ↔ b = true := by
  rcases interNext_cases g i with ⟨hn, htop⟩ | ⟨hn, -, -⟩ | ⟨hn, hzero⟩ | ⟨hn, hne⟩ | ⟨hn, hne, -⟩
  · rw [hn] at hb
    obtain rfl : false = b := Option.some.inj hb
    refine iff_of_false (fun hne => htop (h.clear (Or.inl hne))) Bool.false_ne_true
  · rw [hn] at hb
    cases hb
  · rw [hn] at hb
    obtain rfl : false = b := Option.some.inj hb
    exact iff_of_false (fun hne => hne hzero) Bool.false_ne_true
  · rw [hn] at hb
    obtain rfl : true = b := Option.some.inj hb
    exact iff_of_true hne rfl
  · simp only [List.mem_cons, List.not_mem_nil, or_false] at hn
    rcases hn with hn | hn | hn | hn <;> rw [hn] at hb <;> simp only [State.manned] at hb
    · exact iff_of_true hne (Option.some.inj hb).symm
    · exact iff_of_true hne (Option.some.inj hb).symm
    · exact iff_of_true hne (Option.some.inj hb).symm
    · cases hb

theorem Live.manned_step {g : Regs} (h : Live g) (i : Input) (b : Bool)
    (hb : (step g i).state.manned = some b) : (step g i).currentShape ≠ 0 ↔ b = true := by
  change (datapath g i).currentShape ≠ 0 ↔ _
  by_cases hinter : g.state = .inter
  · have hnext : (step g i).state = interNext g i := by simp only [step, nextState, hinter]
    rw [hnext] at hb
    simp only [datapath, hinter]
    exact inter_manned h.topped i b hb
  by_cases hnew : g.state = .newBlock
  · have hnext : (step g i).state = .beforeNew := by simp only [step, nextState, hnew]
    rw [hnext] at hb
    simp only [datapath, hnew]
    exact iff_of_true (newBlockCells_ne_zero _) (Option.some.inj hb).symm
  have hkept := (manned_kept g.state (step g i).state (nextState_mem g i) hinter hnew).resolve_left
    (by simp [hb])
  rw [hb] at hkept
  by_cases hreset : g.state = .reset
  · have hold := h.manned false (by simp [hreset, State.manned])
    rw [hreset] at hkept
    obtain rfl : b = false := Option.some.inj hkept
    simp only [datapath, hreset]
    exact iff_of_false (fun hne => hne rfl) Bool.false_ne_true
  by_cases hdown : g.state = .moveDown
  · have hnext : (step g i).state = .inter := by simp only [step, nextState, hdown]
    rw [hnext] at hb
    cases hb
  rw [shape_kept hreset hnew hdown]
  exact h.manned b hkept.symm

theorem live_step {g : Regs} (h : Live g) (i : Input) : Live (step g i) where
  well := inWell_step h.well i
  tidy := tidy_step h.well h.tidy i
  topped := topped_step h.topped i
  manned := h.manned_step i
  awake := fun hnext => h.awake (entered_from (P := fun st => st = .resume) (by decide) hnext)

theorem reset_live {g : Regs} (hst : g.state = .reset) (i : Input) : Live (step g i) := by
  have hnext : (step g i).state = .newBlock := by simp only [step, nextState, hst]
  refine ⟨reset_step_inWell hst i, reset_step_tidy hst i, ?_, fun b hb => ?_, by simp [hnext]⟩
  · refine Or.inl ?_
    change TopClear (datapath g i).coordStatic
    simp only [datapath, hst]
    exact ⟨rfl, rfl⟩
  · rw [hnext] at hb
    obtain rfl : false = b := Option.some.inj hb
    change (datapath g i).currentShape ≠ 0 ↔ _
    simp only [datapath, hst]
    exact iff_of_false (fun hne => hne rfl) Bool.false_ne_true

theorem reachable_live {g : Regs} (h : Reachable step resetRegs g) :
    ((g.state = .start ∨ g.state = .reset) ∧ g.currentShape = 0) ∨ Live g := by
  refine reachable_induction
    (P := fun g => ((g.state = .start ∨ g.state = .reset) ∧ g.currentShape = 0) ∨ Live g)
    (Or.inl ⟨Or.inl rfl, rfl⟩) (fun g i hst hg => ?_) (fun g i hst _ => Or.inr (reset_live hst i))
    (fun g i hw hg => ?_) h
  · left
    have hzero : g.currentShape = 0 := hg.elim And.right fun hlive => absurd hst hlive.well.started
    have hstep : step g i = { g with state := if i.enter then .reset else .start } := by
      simp only [step, datapath, nextState, hst]
    rw [hstep]
    refine ⟨?_, hzero⟩
    cases i.enter <;> simp
  · rcases hg with ⟨hst | hst, -⟩ | hlive
    · exact absurd hst hw.started
    · exact Or.inr (reset_live hst i)
    · exact Or.inr (live_step hlive i)

/-- The steps from a state to `INTER`, where the counter stands still. -/
def State.phase : State → Nat
  | .inter => 1
  | .moveLeft | .moveRight | .rotateI | .rotateJ | .rotateL | .rotateS | .rotateT | .rotateZ
  | .beforeNew => 3
  | .rotateChoose => 4
  | _ => 2

/-- How far the piece is from its lock, at least. -/
def toGo (g : Regs) : Nat :=
  400 * (20 - (g.y 1).toNat) +
    if g.state = .moveDown then 0 else 5 * (61 - g.counter.toNat) + g.state.phase

theorem phase_inter : ∀ st ∈ [State.moveLeft, .moveRight, .rotateChoose, .inter],
    st ≠ .moveDown ∧ st.phase ≤ 4 := by
  decide

theorem moveDown_entered_inter : ∀ st : State, .moveDown ∈ st.successors → st = .inter := by
  decide

theorem waits_or_goes {g : Regs} (h : Live g) (hne : g.currentShape ≠ 0) (hinter : g.state ≠ .inter)
    (hdown : g.state ≠ .moveDown) (i : Input) :
    (step g i = g ∧ goesOn g.state i = false) ∨ (nextState g i).phase < g.state.phase := by
  have hmanned : g.state.manned ≠ some false := fun hb => Bool.false_ne_true ((h.manned _ hb).1 hne)
  have hstay (hd : datapath g i = g) (hn : nextState g i = g.state) : step g i = g := by
    rw [step, hd, hn]
  cases hst : g.state <;> rw [hst] at hmanned <;> simp only [State.manned, ne_eq, not_true_eq_false] at hmanned
  case resume => exact absurd hst h.awake
  case inter => exact absurd hst hinter
  case moveDown => exact absurd hst hdown
  case beforeNew =>
    cases hi : i.fromSwSig
    · exact Or.inl ⟨hstay (by simp only [datapath, hst]) (by simp [nextState, hst, hi]), hi⟩
    · exact Or.inr (by simp [nextState, hst, hi, State.phase])
  case afterLeft =>
    cases hi : i.left
    · exact Or.inr (by simp [nextState, hst, hi, State.phase])
    · exact Or.inl ⟨hstay (by simp only [datapath, hst]) (by simp [nextState, hst, hi]), by simp [goesOn, hi]⟩
  case afterRight =>
    cases hi : i.right
    · exact Or.inr (by simp [nextState, hst, hi, State.phase])
    · exact Or.inl ⟨hstay (by simp only [datapath, hst]) (by simp [nextState, hst, hi]), by simp [goesOn, hi]⟩
  case afterRotate =>
    cases hi : i.up
    · exact Or.inr (by simp [nextState, hst, hi, State.phase])
    · exact Or.inl ⟨hstay (by simp only [datapath, hst]) (by simp [nextState, hst, hi]), by simp [goesOn, hi]⟩
  case pause =>
    cases hi : i.resume
    · exact Or.inl ⟨hstay (by simp only [datapath, hst]) (by simp [nextState, hst, hi]), hi⟩
    · exact Or.inr (by simp [nextState, hst, hi, State.phase])
  case rotateChoose =>
    have hall : ∀ v : BitVec 3, v ≠ 0 → (rotateChoose v).phase < State.rotateChoose.phase := by decide
    right
    simp only [nextState, hst]
    exact hall _ hne
  all_goals
    right
    simp only [nextState, hst]
    decide

theorem pivot_row_kept {g : Regs} (hnew : g.state ≠ .newBlock) (hdown : g.state ≠ .moveDown) (i : Input) :
    (datapath g i).y 1 = g.y 1 := by
  by_cases hw : .piece ∈ g.state.writes
  · rcases piece_writers _ hw with hst | hst | hst | hst | ⟨s, hs⟩
    · exact absurd hst hnew
    · simp only [datapath, hst, moveLeft]
      split_ifs <;> rfl
    · simp only [datapath, hst, moveRight]
      split_ifs <;> rfl
    · exact absurd hst hdown
    · rw [datapath_rotate hs]
      cases rotate_cases (rotates_ne_O hs) g with
      | inl hstay => rw [hstay.2]
      | inr hturn =>
        have h0 : (s.turnBy g.rotateCounter 1).2 = 0 := by simp [Shape.turnBy, offset_one]
        rw [hturn.2]
        change g.y 1 + BitVec.ofInt 6 (s.turnBy g.rotateCounter 1).2 = _
        rw [h0]
        exact BitVec.add_zero _
  · have hpiece : (datapath g i).toPiece = g.toPiece := datapath_keeps hw i
    rw [hpiece]

theorem toGo_inter {g : Regs} (h : Live g) (hne : g.currentShape ≠ 0) (hst : g.state = .inter)
    {i : Input} (hpause : i.pause = false) : toGo (step g i) < toGo g := by
  have hstep : step g i = { inter g i with state := interNext g i } := by
    simp only [step, datapath, nextState, hst]
  have hinc : 1 ≤ increment i := by
    unfold increment
    split_ifs <;> omega
  have hle := increment_le i
  have hphase : State.inter.phase = 1 := rfl
  have hrow : (inter g i).y = g.y := rfl
  rw [hstep]
  simp only [toGo, hst, hphase, reduceCtorEq, if_false, hrow]
  rcases interNext_cases g i with ⟨-, htop⟩ | ⟨-, -, hp⟩ | ⟨-, hzero⟩ | ⟨hn, -⟩ | ⟨hn, -, hcount⟩
  · exact absurd (h.topped.clear (Or.inl hne)) htop
  · exact absurd (hpause.symm.trans hp) Bool.false_ne_true
  · exact absurd hzero hne
  · rw [if_pos hn]
    omega
  · obtain ⟨hno, hfew⟩ := phase_inter _ hn
    rw [if_neg hno, inter_counter (by omega)]
    omega

theorem toGo_fall {g : Regs} (h : Live g) (hst : g.state = .moveDown)
    (hl : ¬ Landed g) (i : Input) : toGo (step g i) < toGo g := by
  obtain ⟨s, -, hheld⟩ := h.well.holdsPiece (by simp [hst])
  have hstep : step g i = { fall g with state := .inter } := by
    simp only [step, datapath, nextState, hst, moveDown, if_neg hl]
  have hroom := (room_below h.well.frame hheld hl 1).1
  have hrow : (g.y 1 + 1).toNat = (g.y 1).toNat + 1 := toNat_add_one (by omega)
  rw [hstep]
  simp only [toGo, hst, fall, hrow, reduceCtorEq, if_false, if_true, State.phase]
  have hzero : (0 : BitVec 8).toNat = 0 := rfl
  rw [hzero]
  omega

/-- A step of a piece in play locks it, brings it closer to its lock or waits. -/
theorem landing_step {g : Regs} (h : Live g) (hne : g.currentShape ≠ 0) {i : Input}
    (hpause : i.pause = false) (hlock : ¬ Locks g) :
    toGo (step g i) < toGo g ∨ (step g i = g ∧ ¬ goesOn g.state i = true) := by
  by_cases hinter : g.state = .inter
  · exact Or.inl (toGo_inter h hne hinter hpause)
  by_cases hdown : g.state = .moveDown
  · exact Or.inl (toGo_fall h hdown (fun hl => hlock ⟨hdown, hl⟩) i)
  rcases waits_or_goes h hne hinter hdown i with ⟨hstay, hno⟩ | hphase
  · exact Or.inr ⟨hstay, by simp [hno]⟩
  left
  have hnew : g.state ≠ .newBlock := fun hst =>
    Bool.false_ne_true ((h.manned false (by simp [hst, State.manned])).1 hne)
  have hrow : (step g i).y 1 = g.y 1 := pivot_row_kept hnew hdown i
  have hcount : (step g i).counter = g.counter :=
    datapath_keeps (r := .counter) (fun hw => (counter_writers _ hw).elim hinter hdown) i
  have hnext : (step g i).state ≠ .moveDown := fun hst => hinter
    (entered_from (P := fun st => st = .inter) moveDown_entered_inter hst)
  unfold toGo
  rw [hrow, hcount, if_neg hdown, if_neg hnext]
  exact Nat.add_lt_add_left (Nat.add_lt_add_left hphase _) _

theorem stays_in_play {g : Regs} (h : Live g) (hne : g.currentShape ≠ 0) (hlock : ¬ Locks g) (i : Input) :
    (step g i).currentShape ≠ 0 := by
  have hidle (st : State) (hst : g.state = st) (hb : st.manned = some false) : False :=
    Bool.false_ne_true ((h.manned false (by rw [hst, hb])).1 hne)
  by_cases hdown : g.state = .moveDown
  · have hl : ¬ Landed g := fun hl => hlock ⟨hdown, hl⟩
    change (datapath g i).currentShape ≠ 0
    simp only [datapath, hdown, moveDown, if_neg hl]
    exact hne
  · have hkept : (step g i).currentShape = g.currentShape :=
      shape_kept (fun hst => hidle _ hst rfl) (fun hst => hidle _ hst rfl) hdown i
    rw [hkept]
    exact hne

section Quiet
variable {g : Regs} {f : Nat → Input}

theorem live_after (h : Live g) (n : Nat) : Live (after step f g n) :=
  after_invariant step f (I := Live) (fun _ n ht => live_step ht (f n)) h n

variable (hf : Attended g f) (hquiet : ∀ n, (f n).pause = false)
include hf hquiet

theorem piece_lands : LeadsTo step f g (fun t => Live t ∧ t.currentShape ≠ 0) Locks := by
  refine LeadsTo.of_rank toGo (fun t i => goesOn t.state i = true) hf fun t n ht hlock => Or.inr ?_
  exact ⟨⟨live_step ht.1 _, stays_in_play ht.1 ht.2 hlock _⟩, landing_step ht.1 ht.2 (hquiet n) hlock⟩

theorem lock_followed : LeadsTo step f g
    (fun t => t.currentShape = 0 ∧ (t.state = .inter ∨ t.state = .pause))
    (fun t => t.state = .gameOver ∨ ∃ k stage, t.state = .clear k stage) := by
  refine LeadsTo.of_rank (fun t => t.state.phase) (fun t i => goesOn t.state i = true) hf ?_
  rintro t n ⟨hzero, hst | hst⟩ - <;> generalize hi : f n = i <;> have hpause := hquiet n <;>
    rw [hi] at hpause
  · left
    have hnext : (step t i).state = interNext t i := by simp only [step, nextState, hst]
    rw [hnext]
    rcases interNext_cases t i with ⟨hn, -⟩ | ⟨-, -, hp⟩ | ⟨hn, -⟩ | ⟨-, hne⟩ | ⟨-, hne, -⟩
    · exact Or.inl hn
    · exact absurd (hpause.symm.trans hp) Bool.false_ne_true
    · exact Or.inr ⟨0, 0, hn⟩
    · exact absurd hzero hne
    · exact absurd hzero hne
  · right
    have hstep : step t i = { t with state := if i.resume then .inter else .pause } := by
      simp only [step, datapath, nextState, hst]
    cases hr : i.resume
    · have hstay : step t i = t := by
        rw [hstep, hr]
        exact congrArg (fun st => { t with state := st }) hst.symm
      rw [hstay]
      exact ⟨⟨hzero, Or.inr hst⟩, Or.inr ⟨rfl, by simp [goesOn, hst, hr]⟩⟩
    · rw [hstep, hr]
      refine ⟨⟨hzero, Or.inl rfl⟩, Or.inl ?_⟩
      rw [hst]
      exact Nat.lt_succ_self 1

omit hf hquiet in
theorem clearing_followed : LeadsTo step f g (fun t => Live t ∧ ∃ k stage, t.state = .clear k stage)
    (fun t => t.state = .newBlock) := by
  refine LeadsTo.of_until Settled fun t ht => ?_
  obtain ⟨hlive, k, stage, hst⟩ := ht
  exact until_of_passEnd hst (tidy_sweep hst hlive.tidy).1.until_settled

theorem comes_to_lock (h : Live g) :
    LeadsTo step f g (fun _ => True) (fun t => Locks t ∨ t.state = .gameOver) := by
  have hland : LeadsTo step f g (fun t => t.currentShape ≠ 0) (fun t => Locks t ∨ t.state = .gameOver) :=
    fun n hn => (piece_lands hf hquiet n ⟨live_after h n, hn⟩).imp fun m hm => ⟨hm.1, Or.inl hm.2⟩
  have hnew : LeadsTo step f g (fun t => t.state = .newBlock) (fun t => Locks t ∨ t.state = .gameOver) := by
    refine LeadsTo.trans (LeadsTo.of_step fun t i hst => ?_) hland
    change (datapath t i).currentShape ≠ 0
    simp only [datapath, hst]
    exact newBlockCells_ne_zero _
  have hclear : LeadsTo step f g (fun t => ∃ k stage, t.state = .clear k stage)
      (fun t => Locks t ∨ t.state = .gameOver) :=
    LeadsTo.trans (fun n hn => clearing_followed n ⟨live_after h n, hn⟩) hnew
  have hover : LeadsTo step f g (fun t => t.state = .gameOver) (fun t => Locks t ∨ t.state = .gameOver) :=
    LeadsTo.of_imp fun t ht => Or.inr ht
  have hidle : LeadsTo step f g (fun t => t.currentShape = 0 ∧ (t.state = .inter ∨ t.state = .pause))
      (fun t => Locks t ∨ t.state = .gameOver) :=
    (lock_followed hf hquiet).trans (hover.or hclear)
  have hreset : LeadsTo step f g (fun t => t.state = .reset) (fun t => Locks t ∨ t.state = .gameOver) := by
    refine LeadsTo.trans (LeadsTo.of_step fun t i hst => ?_) hnew
    simp only [step, nextState, hst]
  intro n _
  have hlive : Live (after step f g n) := live_after h n
  by_cases hne : (after step f g n).currentShape = 0
  · have hno (b : Bool) (hb : (after step f g n).state.manned = some b) : b = false := by
      by_contra hb'
      exact (hlive.manned b hb).2 (by simpa using hb') hne
    cases hst : (after step f g n).state with
    | start => exact absurd hst hlive.well.started
    | resume => exact absurd hst hlive.awake
    | reset => exact hreset n hst
    | newBlock => exact hnew n hst
    | gameOver => exact hover n hst
    | inter => exact hidle n ⟨hne, Or.inl hst⟩
    | pause => exact hidle n ⟨hne, Or.inr hst⟩
    | clear k stage => exact hclear n ⟨k, stage, hst⟩
    | _ => exact absurd (hno true (by rw [hst]; rfl)) (by decide)
  · exact hland n hne

end Quiet

section Stream
variable {g : Regs} {f : Nat → Input}

theorem attended_later (hf : Attended g f) (N : Nat) :
    Attended (after step f g N) (fun k => f (N + k)) := by
  intro n
  obtain ⟨m, hm, hgo⟩ := hf (N + n)
  rw [after_add] at hgo
  refine ⟨m - N, by omega, ?_⟩
  have hsub : N + (m - N) = m := by omega
  change goesOn _ (f (N + (m - N))) = true
  rwa [hsub]

theorem after_reachable (h : Reachable step resetRegs g) (n : Nat) :
    Reachable step resetRegs (after step f g n) := by
  induction n with
  | zero => exact h
  | succ n ih =>
    obtain ⟨is, his⟩ := ih
    refine ⟨is ++ [f n], ?_⟩
    rw [run_append, his]
    rfl

theorem live_soon (h : Reachable step resetRegs g) (hst : g.state ≠ .start) {n : Nat} (hn : 1 ≤ n) :
    Live (after step f g n) := by
  have hone : Live (after step f g 1) := by
    rcases reachable_live h with ⟨hstart | hreset, -⟩ | hlive
    · exact absurd hstart hst
    · exact reset_live hreset (f 0)
    · exact live_step hlive (f 0)
  have hsum : n = 1 + (n - 1) := by omega
  rw [hsum, after_add]
  exact live_after hone _

theorem locked_or_in_play {n : Nat} (hlive : ∀ m, n ≤ m → Live (after step f g m))
    (hne : (after step f g n).currentShape ≠ 0) (d : Nat) :
    (∃ m, n ≤ m ∧ Locks (after step f g m)) ∨ (after step f g (n + d)).currentShape ≠ 0 := by
  induction d with
  | zero => exact Or.inr hne
  | succ d ih =>
    refine ih.elim Or.inl fun hplay => ?_
    by_cases hlock : Locks (after step f g (n + d))
    · exact Or.inl ⟨n + d, Nat.le_add_right n d, hlock⟩
    · exact Or.inr (stays_in_play (hlive _ (Nat.le_add_right n d)) hplay hlock (f (n + d)))

/-- What comes of every wait's ending: from some moment on, the run is live and not paused. -/
theorem live_and_quiet (h : Reachable step resetRegs g) (hst : g.state ≠ .start) (hf : Attended g f)
    (hquiet : ∃ N, ∀ n, N ≤ n → (f n).pause = false) (n : Nat) :
    ∃ M, n < M ∧ Live (after step f g M) ∧ Attended (after step f g M) (fun k => f (M + k)) ∧
      ∀ k, (f (M + k)).pause = false := by
  obtain ⟨N, hN⟩ := hquiet
  have hlt : n < max (n + 1) N := Nat.lt_of_succ_le (le_max_left _ _)
  exact ⟨max (n + 1) N, hlt, live_soon h hst (by omega), attended_later hf _,
    fun k => hN _ ((le_max_right _ _).trans (Nat.le_add_right _ k))⟩

section Attended
variable (h : Reachable step resetRegs g) (hst : g.state ≠ .start) (hf : Attended g f)
  (hquiet : ∃ N, ∀ n, N ≤ n → (f n).pause = false) (n : Nat)
include h hst hf hquiet

theorem piece_is_locked (hne : (after step f g n).currentShape ≠ 0) : ∃ m, n ≤ m ∧ Locks (after step f g m) := by
  obtain ⟨M, hnM, hM, hatt, hlater⟩ := live_and_quiet h hst hf hquiet n
  have hlive (m : Nat) (hm : n ≤ m) : Live (after step f g m) := by
    rcases Nat.eq_or_lt_of_le hm with rfl | hlt
    · exact (reachable_live (after_reachable h n)).resolve_left fun hbefore => hne hbefore.2
    · exact live_soon h hst (by omega)
  have hbetween := locked_or_in_play hlive hne (M - n)
  rw [Nat.add_sub_cancel' hnM.le] at hbetween
  refine hbetween.elim id fun hplay => ?_
  obtain ⟨m, -, hlock⟩ := piece_lands hatt hlater 0 ⟨hM, hplay⟩
  rw [← after_add] at hlock
  exact ⟨M + m, by omega, hlock⟩

theorem lock_or_end_to_come :
    ∃ m, n ≤ m ∧ (Locks (after step f g m) ∨ (after step f g m).state = .gameOver) := by
  obtain ⟨M, hnM, hM, hatt, hlater⟩ := live_and_quiet h hst hf hquiet n
  obtain ⟨m, -, hm⟩ := comes_to_lock hatt hlater hM 0 trivial
  rw [← after_add] at hm
  exact ⟨M + m, by omega, hm⟩

/-- Where no wait lasts for ever and the game is not paused again and again, each piece
is locked sooner or later, and from every moment on there is another lock or the end of
the game to come. -/
theorem never_hangs :
    ((after step f g n).currentShape ≠ 0 → ∃ m, n ≤ m ∧ Locks (after step f g m)) ∧
      ∃ m, n ≤ m ∧ (Locks (after step f g m) ∨ (after step f g m).state = .gameOver) :=
  ⟨piece_is_locked h hst hf hquiet n, lock_or_end_to_come h hst hf hquiet n⟩

end Attended

end Stream

def handsOff : Input := { nextShape := 1, resume := true, fromSwSig := true }

theorem goesOn_handsOff (st : State) : goesOn st handsOff = true := by
  cases st <;> rfl

theorem handsOff_never_hangs :
    let g := step resetRegs { enter := true }
    ((after step (fun _ => handsOff) g 3).currentShape ≠ 0 →
        ∃ m, 3 ≤ m ∧ Locks (after step (fun _ => handsOff) g m)) ∧
      ∃ m, 3 ≤ m ∧ (Locks (after step (fun _ => handsOff) g m) ∨
        (after step (fun _ => handsOff) g m).state = .gameOver) :=
  never_hangs ⟨[{ enter := true }], rfl⟩ (by decide) (fun n => ⟨n, le_rfl, goesOn_handsOff _⟩)
    ⟨0, fun _ _ => rfl⟩ 3

end Tetris
