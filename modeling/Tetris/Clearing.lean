import Tetris.Window

/-! The clearing passes end, and they leave no full row behind. -/
namespace Tetris
open Machine

def Settled (g : Regs) : Prop := ∀ r ≤ 20, ¬ FullAt g.coordStatic r

def OwnRowsFull (g : Regs) : Prop :=
  ∀ r ≤ 20, FullAt g.coordStatic r → ∃ k, (g.y k).toNat = r

/-- The machine is about to enter pass `k`, and the passes from there on will leave
at most the row of cell 4 full, which is not that of cell 1. -/
structure Sweep (k : Fin 4) (g : Regs) : Prop where
  pass : g.state = .clear k 0
  well : InWell g
  near : Near g
  onlyLast : ∀ i, outlook k g i = true → i = level g 3
  firstClear : outlook k g (level g 0) = false

theorem InWell.holds {k : Fin 4} {stage : Fin 5} {g : Regs} (h : InWell g)
    (hst : g.state = .clear k stage) : HoldsPiece g :=
  h.holdsPiece (by simp [hst])

theorem OwnRowsFull.near {g : Regs} (h : HoldsPiece g) (hown : OwnRowsFull g) : Near g := by
  intro r hr hfull
  obtain ⟨k, rfl⟩ := hown r hr hfull
  exact ⟨level g k, (level_row h k).1⟩

theorem OwnRowsFull.window {g : Regs} (h : HoldsPiece g) (hown : OwnRowsFull g) {i : Fin 4}
    (hi : window g i = true) : ∃ k, level g k = i := by
  obtain ⟨h1, h21, hfull⟩ := of_decide_eq_true hi
  obtain ⟨k, hk⟩ := hown _ (by omega) hfull
  have hrow := (level_row h k).1
  exact ⟨k, Fin.ext (by omega)⟩

theorem Sweep.start {g : Regs} (hst : g.state = .clear 0 0) (hw : InWell g)
    (hown : OwnRowsFull g) : Sweep 0 g := by
  have hpiece := hw.holds hst
  have hwindow := fun i => hown.window hpiece (i := i)
  obtain ⟨s, -, hheld⟩ := id hpiece
  have hfinal := finish_of_level s g.rotateCounter (window g)
  rw [← hheld.level_eq] at hfinal
  obtain ⟨hlast, hfirst⟩ := hfinal hwindow
  exact ⟨hst, hw, hown.near hpiece, hlast, hfirst⟩

theorem Sweep.holds {k : Fin 4} {g : Regs} (h : Sweep k g) : HoldsPiece g := h.well.holds h.pass

theorem Sweep.row {k : Fin 4} {g : Regs} (h : Sweep k g) (c : Fin 4) : (g.y c).toNat ≤ 20 :=
  (level_row h.holds c).2

theorem Sweep.delete {k : Fin 4} {g : Regs} (h : Sweep k g) (hk : k ≠ 3)
    (hfull : FullAt g.coordStatic (g.y k).toNat) : Sweep k (deletedRow k g) := by
  have hw : InWell (deletedRow k g) := by
    rw [← run_pass h.pass hk (h.row k) hfull (l := List.replicate 5 {}) rfl]
    exact invariant step (I := InWell) (fun _ i hg => inWell_step hg i) h.well _
  have hsame := outlook_deletedRow h.holds h.near hk hfull
  refine ⟨h.pass, hw, near_deletedRow h.holds h.near k, ?_, ?_⟩
  · rw [hsame]
    exact h.onlyLast
  · rw [hsame]
    exact h.firstClear

theorem step_skip {k : Fin 4} {g : Regs} (hst : g.state = .clear k 0) (hk : k ≠ 3)
    (hfull : ¬ FullAt g.coordStatic (g.y k).toNat) (i : Input) :
    step g i = { g with state := .clear (k + 1) 0 } := by
  have hafter : afterPass k = .clear (k + 1) 0 := by
    match k with
    | 0 | 1 | 2 => rfl
    | 3 => exact absurd rfl hk
  simp only [step, datapath, nextState, hst, clear, clearFirst, clearNext, testRow_eq hk, hfull,
    if_false, hafter]

theorem Sweep.skip_outlook {k : Fin 4} {g : Regs} (h : Sweep k g) (hk : k ≠ 3)
    (hfull : ¬ FullAt g.coordStatic (g.y k).toNat) : outlook (k + 1) g = outlook k g := by
  refine finish_skip hk ?_
  rw [Bool.eq_false_iff]
  exact fun hlevel => hfull ((window_level h.holds k).1 hlevel)

theorem Sweep.skip {k : Fin 4} {g : Regs} (h : Sweep k g) (hk : k ≠ 3)
    (hfull : ¬ FullAt g.coordStatic (g.y k).toNat) (i : Input) : Sweep (k + 1) (step g i) := by
  have hw := inWell_step h.well i
  have hskip := h.skip_outlook hk hfull
  rw [step_skip h.pass hk hfull] at hw ⊢
  refine ⟨rfl, hw, h.near, ?_, ?_⟩
  · change ∀ i, outlook (k + 1) g i = true → _
    rw [hskip]
    exact h.onlyLast
  · change outlook (k + 1) g (level g 0) = false
    rw [hskip]
    exact h.firstClear

theorem Sweep.first_not_full {g : Regs} (h : Sweep 3 g) : ¬ FullAt g.coordStatic (g.y 0).toNat := by
  intro hfull
  have hlevel : window g (level g 0) = true := (window_level h.holds 0).2 hfull
  have hfirst : window g (level g 0) = false := h.firstClear
  rw [hfirst] at hlevel
  cases hlevel

theorem Sweep.eq_last {g : Regs} (h : Sweep 3 g) {r : Nat} (hr : r ≤ 20)
    (hfull : FullAt g.coordStatic r) : r = (g.y 3).toNat := by
  obtain ⟨i, hi⟩ := h.near r hr hfull
  have hsub : (g.y 1).toNat + i.val - 1 = r := by omega
  have hlevel : outlook 3 g i = true := by
    refine decide_eq_true ⟨by omega, by omega, ?_⟩
    rwa [hsub]
  have hrow := (level_row h.holds 3).1
  rw [h.onlyLast i hlevel] at hi
  omega

/-- The fourth pass makes a single step. At a full row `y4` it stops after the first
of the five states. -/
theorem Sweep.step_fourth {g : Regs} (h : Sweep 3 g) (i : Input) :
    step g i = if FullAt g.coordStatic (g.y 3).toNat then { midPass 3 16 0 g with state := .newBlock }
      else { g with state := .newBlock } := by
  have htest : ¬ FullAt g.coordStatic (testRow g 3).toNat := h.first_not_full
  have hnext : nextState g i = .newBlock := by
    simp only [nextState, h.pass, clearNext, htest, if_false]
    rfl
  unfold step
  rw [hnext]
  simp only [datapath, h.pass, clear]
  split_ifs with hfull
  · rw [clearFirst_eq (h.row 3) hfull]
    rfl
  · rw [clearFirst, if_neg hfull]

theorem partShift_mem {α : Type*} (y m : Nat) (a : Rows α) {i : Fin 22} (hi : i.val ≤ 20) :
    ∃ j : Fin 22, j.val ≤ 20 ∧ partShift y m a i = a j := by
  induction i using Fin.cases with
  | zero => exact ⟨0, by decide, rfl⟩
  | succ n =>
    rw [partShift_succ]
    simp only [Fin.val_succ] at hi
    split_ifs
    · exact ⟨n.castSucc, by simp only [Fin.val_castSucc]; omega, rfl⟩
    · exact ⟨n.succ, hi, rfl⟩

theorem Sweep.settled {g : Regs} (h : Sweep 3 g) (i : Input) : Settled (step g i) := by
  intro r hr hfull
  rw [h.step_fourth] at hfull
  split_ifs at hfull with hlast
  · rw [fullAt_iff (by omega : r < 22)] at hfull
    obtain ⟨j, hj, hmoved⟩ := partShift_mem (g.y 3).toNat 16
      (g.coordStatic.write (g.y 3).toNat emptyRow) (i := ⟨r, by omega⟩) hr
    have hrow := hmoved.symm.trans hfull
    rw [Rows.write_apply] at hrow
    split_ifs at hrow with hj3
    · exact absurd hrow (by decide)
    · exact hj3 (h.eq_last hj ((fullAt_iff j.isLt).2 hrow))
  · exact hlast (h.eq_last hr hfull ▸ hfull)

/-- The rule for whole clearings: a property of the passes that deleting and
skipping preserve, and that the last step turns into `post`. Each deletion leaves one
full row less in the window. -/
theorem Sweep.until {I : Fin 4 → Regs → Prop} {post : Regs → Prop}
    (hsweep : ∀ k g, I k g → Sweep k g)
    (hdelete : ∀ k g, k ≠ 3 → I k g → FullAt g.coordStatic (g.y k).toNat →
      I k (deletedRow k g))
    (hskip : ∀ k g i, k ≠ 3 → I k g → ¬ FullAt g.coordStatic (g.y k).toNat →
      I (k + 1) (step g i))
    (hlast : ∀ g i, I 3 g → post (step g i)) {k : Fin 4} {g : Regs} (h : I k g) :
    Until step (fun g => g.state = .newBlock) post g := by
  generalize hn : (window g).count + (3 - k.val) = n
  induction n using Nat.strong_induction_on generalizing k g with
  | h n ih =>
    have hs := hsweep k g h
    by_cases hk : k = 3
    · subst hk
      refine .next (by simp [hs.pass]) fun i => .here ?_ (hlast g i h)
      rw [hs.step_fourth]
      split_ifs <;> rfl
    · have hlt : k.val < 3 := by omega
      by_cases hfull : FullAt g.coordStatic (g.y k).toNat
      · refine Until.of_run (n := 5) (fun is his => ?_) fun is his => ?_
        · have hrun := run_passAt hs.pass hk (hs.row k) hfull (by omega : 0 + is.length ≤ 5)
          obtain ⟨stage, hstage⟩ := passAt_state hs.pass (by omega : 0 + is.length < 5)
          rw [← hrun] at hstage
          change ¬ (run step g is).state = .newBlock
          change (run step g is).state = _ at hstage
          simp [hstage]
        · rw [run_pass hs.pass hk (hs.row k) hfull his]
          have hcount := count_delete _ _ ((window_level hs.holds k).2 hfull)
          rw [← window_deletedRow hs.holds hs.near] at hcount
          exact ih _ (by omega) (hdelete k g hk h hfull) rfl
      · refine .next (by simp [hs.pass]) fun i => ih _ ?_ (hskip k g i hk h hfull) rfl
        rw [step_skip hs.pass hk hfull]
        change (window g).count + _ < _
        have hval : (k + 1).val = k.val + 1 := Fin.val_add_one_of_lt hlt
        omega

theorem Sweep.until_settled {k : Fin 4} {g : Regs} (h : Sweep k g) :
    Until step (fun g => g.state = .newBlock) Settled g :=
  Sweep.until (I := Sweep) (fun _ _ hs => hs) (fun _ _ hk hs hfull => hs.delete hk hfull)
    (fun _ _ i hk hs hfull => hs.skip hk hfull i) (fun _ i hs => hs.settled i) h

def passEnd (g : Regs) : Regs :=
  match g.state with
  | .clear _ stage => if stage = 0 then g else run step g (List.replicate (5 - stage.val) {})
  | _ => g

theorem passEnd_of_first {g : Regs} {k : Fin 4} (hst : g.state = .clear k 0) : passEnd g = g := by
  simp [passEnd, hst]

theorem step_clear_input {g : Regs} {k : Fin 4} {stage : Fin 5} (hst : g.state = .clear k stage)
    (i j : Input) : step g i = step g j := by
  simp only [step, datapath, nextState, hst]

theorem clearNext_inside (g : Regs) (k : Fin 4) {stage : Fin 5} (h0 : stage ≠ 0) :
    clearNext g k stage = .clear k (stage + 1) := by
  match stage with
  | 0 => exact absurd rfl h0
  | 1 | 2 | 3 | 4 => rfl

theorem passEnd_step {g : Regs} {k : Fin 4} {stage : Fin 5} (hst : g.state = .clear k stage)
    (h0 : stage ≠ 0) (i : Input) :
    (step g i).state = .clear k (stage + 1) ∧ passEnd (step g i) = passEnd g := by
  have hnext : (step g i).state = .clear k (stage + 1) := by
    simp only [step, nextState, hst]
    exact clearNext_inside g k h0
  have hend : passEnd g = run step (step g i) (List.replicate (4 - stage.val) {}) := by
    have hlen : 5 - stage.val = 4 - stage.val + 1 := by omega
    simp only [passEnd, hst, h0, if_false]
    rw [hlen, List.replicate_succ, run_cons, step_clear_input hst {} i]
  refine ⟨hnext, ?_⟩
  rw [hend]
  by_cases h4 : stage = 4
  · subst h4
    exact passEnd_of_first hnext
  · have hval : (stage + 1).val = stage.val + 1 :=
      Fin.val_add_one_of_lt (Fin.lt_last_iff_ne_last.2 h4)
    have hne : stage + 1 ≠ 0 := by
      rw [ne_eq, Fin.ext_iff, hval]
      exact Nat.succ_ne_zero _
    have hlen : 5 - (stage.val + 1) = 4 - stage.val := by omega
    simp only [passEnd, hnext, hne, if_false, hval, hlen]

theorem passEnd_first {g : Regs} {k : Fin 4} (hst : g.state = .clear k 0) (hk : k ≠ 3)
    (hy : (g.y k).toNat ≤ 20) (hfull : FullAt g.coordStatic (g.y k).toNat) (i : Input) :
    (step g i).state = .clear k 1 ∧ passEnd (step g i) = deletedRow k g := by
  have hnext : (step g i).state = .clear k 1 := by rw [step_first hst hk hy hfull]; rfl
  refine ⟨hnext, ?_⟩
  simp only [passEnd, hnext]
  exact run_pass hst hk hy hfull (l := i :: List.replicate 4 {}) rfl

/-- Where the full rows are, state by state. -/
def Tidy (g : Regs) : Prop :=
  match g.state with
  | .start | .reset | .gameOver => True
  | .clear k stage => Sweep k (passEnd g) ∧ (stage ≠ 0 → k ≠ 3)
  | .inter | .pause => OwnRowsFull g ∧ (g.currentShape ≠ 0 → Settled g)
  | _ => Settled g

theorem Settled.ownRowsFull {g : Regs} (h : Settled g) : OwnRowsFull g :=
  fun r hr hfull => absurd hfull (h r hr)

theorem Settled.tidy {g : Regs} (h : Settled g) (hst : ∀ k stage, g.state ≠ .clear k stage) :
    Tidy g := by
  unfold Tidy
  split
  · trivial
  · trivial
  · trivial
  · next k stage hclear => exact absurd hclear (hst k stage)
  · exact ⟨h.ownRowsFull, fun _ => h⟩
  · exact ⟨h.ownRowsFull, fun _ => h⟩
  · exact h

theorem lockCoord_apply (p : Piece) (a : Coord) {i : Fin 22} (h : ∀ k, (p.y k).toNat ≠ i.val) :
    lockCoord p a i = a i := by
  refine lockCoord_induction p (P := fun b => b i = a i) (fun b k hb => ?_) rfl
  rw [setBit, Rows.modify_apply, if_neg (h k).symm]
  exact hb

theorem Settled.lock {g : Regs} (h : Settled g) : OwnRowsFull (lock g) := by
  intro r hr hfull
  by_contra hno
  have hno' : ∀ k, (g.y k).toNat ≠ r := not_exists.1 hno
  change FullAt (lockCoord g.toPiece g.coordStatic) r at hfull
  rw [fullAt_iff (by omega : r < 22), lockCoord_apply _ _ hno'] at hfull
  exact h r hr ((fullAt_iff _).2 hfull)

theorem reset_settled (g : Regs) : Settled (reset g) := by
  intro r hr hfull
  have hne : r ≠ 21 := by omega
  rw [fullAt_iff (by omega : r < 22)] at hfull
  simp only [reset, hne, if_false] at hfull
  exact absurd hfull (by decide)

theorem tidy_sweep {g : Regs} {k : Fin 4} {stage : Fin 5} (hst : g.state = .clear k stage)
    (h : Tidy g) : Sweep k (passEnd g) ∧ (stage ≠ 0 → k ≠ 3) := by
  simpa only [Tidy, hst] using h

theorem tidy_of_sweep {g : Regs} {k : Fin 4} {stage : Fin 5} (hst : g.state = .clear k stage)
    (h : Sweep k (passEnd g)) (hk : stage ≠ 0 → k ≠ 3) : Tidy g := by
  simpa only [Tidy, hst] using And.intro h hk

theorem clear_tidy {g : Regs} {k : Fin 4} {stage : Fin 5} (hst : g.state = .clear k stage)
    (h : Tidy g) (i : Input) : Tidy (step g i) := by
  obtain ⟨hs, hk⟩ := tidy_sweep hst h
  by_cases h0 : stage = 0
  · subst h0
    rw [passEnd_of_first hst] at hs
    by_cases h3 : k = 3
    · subst h3
      refine (hs.settled i).tidy fun k stage hclear => ?_
      rw [hs.step_fourth] at hclear
      split_ifs at hclear
    · by_cases hfull : FullAt g.coordStatic (g.y k).toNat
      · obtain ⟨hnext, hend⟩ := passEnd_first hst h3 (hs.row k) hfull i
        refine tidy_of_sweep hnext ?_ fun _ => h3
        rw [hend]
        exact hs.delete h3 hfull
      · have hskip := hs.skip h3 hfull i
        refine tidy_of_sweep hskip.pass ?_ fun h => absurd rfl h
        rwa [passEnd_of_first hskip.pass]
  · obtain ⟨hnext, hend⟩ := passEnd_step hst h0 i
    refine tidy_of_sweep hnext ?_ fun _ => hk h0
    rwa [hend]

theorem interNext_zero {g : Regs} (h : g.currentShape = 0) (i : Input) :
    interNext g i = .gameOver ∨ interNext g i = .pause ∨ interNext g i = .clear 0 0 := by
  unfold interNext
  split_ifs <;> simp

theorem locked_tidy {g : Regs} (hw : InWell g) (hst : g.state = .inter ∨ g.state = .pause)
    (hown : OwnRowsFull g) (hzero : g.currentShape = 0) (i : Input) : Tidy (step g i) := by
  cases hst with
  | inl hst =>
    have hown' : OwnRowsFull (step g i) := by
      unfold step
      simp only [datapath, hst]
      exact hown
    have hzero' : (step g i).currentShape = 0 := by
      simpa only [step, datapath, hst, inter] using hzero
    have hnext : (step g i).state = interNext g i := by simp only [step, nextState, hst]
    rcases interNext_zero hzero i with h | h | h <;> rw [h] at hnext
    · simp only [Tidy, hnext]
    · simp only [Tidy, hnext]
      exact ⟨hown', fun hne => absurd hzero' hne⟩
    · refine tidy_of_sweep hnext ?_ fun h => absurd rfl h
      rw [passEnd_of_first hnext]
      exact Sweep.start hnext (inWell_step hw i) hown'
  | inr hst =>
    have hstep : step g i = { g with state := if i.resume then .inter else .pause } := by
      simp only [step, datapath, nextState, hst]
    have htidy : OwnRowsFull (step g i) ∧ ((step g i).currentShape ≠ 0 → Settled (step g i)) := by
      rw [hstep]
      exact ⟨hown, fun hne => absurd hzero hne⟩
    cases hr : i.resume <;> simp only [hr] at hstep <;> simp only [Tidy, hstep] <;>
      rwa [hstep] at htidy

theorem moveDown_tidy {g : Regs} (hst : g.state = .moveDown) (h : Settled g) (i : Input) :
    Tidy (step g i) := by
  have hstep : step g i = { moveDown g with state := .inter } := by
    simp only [step, datapath, nextState, hst]
  rw [hstep]
  unfold moveDown
  split_ifs
  · exact ⟨h.lock, fun hne => absurd rfl hne⟩
  · exact ⟨Settled.ownRowsFull (g := { fall g with state := .inter }) h, fun _ => h⟩

theorem reset_step_tidy {g : Regs} (hst : g.state = .reset) (i : Input) : Tidy (step g i) := by
  refine Settled.tidy ?_ fun k stage => ?_
  · unfold step
    simp only [datapath, hst]
    exact reset_settled g
  · simp [step, nextState, hst]

theorem tidy_step {g : Regs} (hw : InWell g) (h : Tidy g) (i : Input) : Tidy (step g i) := by
  by_cases hclear : ∃ k stage, g.state = .clear k stage
  · obtain ⟨k, stage, hst⟩ := hclear
    exact clear_tidy hst h i
  by_cases hreset : g.state = .reset
  · exact reset_step_tidy hreset i
  by_cases hover : g.state = .gameOver
  · have hnext : (step g i).state = if i.enter then .reset else .gameOver := by
      simp only [step, nextState, hover]
    cases he : i.enter <;> simp only [he] at hnext <;> simp [Tidy, hnext]
  by_cases hlocked : (g.state = .inter ∨ g.state = .pause) ∧ g.currentShape = 0
  · have hown : OwnRowsFull g := by
      cases hlocked.1 with
      | inl hst =>
        simp only [Tidy, hst] at h
        exact h.1
      | inr hst =>
        simp only [Tidy, hst] at h
        exact h.1
    exact locked_tidy hw hlocked.1 hown hlocked.2 i
  have hsettled : Settled g := by
    unfold Tidy at h
    split at h
    · next hst => exact absurd hst hw.started
    · next hst => exact absurd hst hreset
    · next hst => exact absurd hst hover
    · next k stage hst => exact absurd ⟨k, stage, hst⟩ hclear
    · next hst => exact h.2 fun hzero => hlocked ⟨Or.inl hst, hzero⟩
    · next hst => exact h.2 fun hzero => hlocked ⟨Or.inr hst, hzero⟩
    · exact h
  by_cases hdown : g.state = .moveDown
  · exact moveDown_tidy hdown hsettled i
  -- from here on the board is as it was
  refine Settled.tidy ?_ fun k stage hst => ?_
  · have hkept := (board_kept hreset hdown (fun k stage hst => hclear ⟨k, stage, hst⟩) i).1
    unfold Settled step
    dsimp only
    rw [hkept]
    exact hsettled
  · cases clear_entered hst with
    | inl hinter => exact hlocked ⟨Or.inl hinter.1, hinter.2.1⟩
    | inr hother => exact hclear hother

theorem reachable_tidy {g : Regs} (h : Reachable step resetRegs g) : Tidy g := by
  refine reachable_induction (P := Tidy) trivial (fun g i hst _ => ?_)
    (fun g i hst _ => reset_step_tidy hst i) (fun g i hw htidy => tidy_step hw htidy i) h
  have hnext : (step g i).state = if i.enter then .reset else .start := by
    simp only [step, nextState, hst]
  cases he : i.enter <;> simp only [he] at hnext <;> simp [Tidy, hnext]

theorem until_of_passEnd {post : Regs → Prop} {g : Regs} {k : Fin 4} {stage : Fin 5}
    (hst : g.state = .clear k stage)
    (h : Until step (fun g => g.state = .newBlock) post (passEnd g)) :
    Until step (fun g => g.state = .newBlock) post g := by
  generalize hn : 5 - stage.val = n
  induction n generalizing g stage with
  | zero => omega
  | succ n ih =>
    by_cases h0 : stage = 0
    · subst h0
      rwa [passEnd_of_first hst] at h
    · refine .next (by simp [hst]) fun i => ?_
      obtain ⟨hnext, hend⟩ := passEnd_step hst h0 i
      by_cases h4 : stage = 4
      · subst h4
        rw [← hend, passEnd_of_first hnext] at h
        exact h
      · have hval : (stage + 1).val = stage.val + 1 := 
          Fin.val_add_one_of_lt (Fin.lt_last_iff_ne_last.2 h4)
        refine ih hnext ?_ (by omega)
        rwa [hend]

/-- From every clearing state that a run can reach, `NEW_BLOCK` is reached whatever
the inputs, with no full row on the board; and the fourth pass never loops. -/
theorem clearing_ends (is : List Input) (k : Fin 4) (stage : Fin 5)
    (h : (run step resetRegs is).state = .clear k stage) :
    let g := run step resetRegs is
    (∀ f : Nat → Input, ∃ n, StopsAt step (fun g => g.state = .newBlock) f g n ∧
        ∀ r ≤ 20, ¬ FullAt (after step f g n).coordStatic r) ∧
      (k = 3 → stage = 0 ∧ ¬ FullAt g.coordStatic (g.y 0).toNat) := by
  intro g
  obtain ⟨hs, hk⟩ := tidy_sweep h (reachable_tidy ⟨is, rfl⟩)
  refine ⟨fun f => (until_of_passEnd h hs.until_settled).stopsAt f, fun h3 => ?_⟩
  subst h3
  have h0 : stage = 0 := by
    by_contra h0
    exact hk h0 rfl
  subst h0
  rw [passEnd_of_first h] at hs
  exact ⟨rfl, hs.first_not_full⟩

theorem clearing_ends_first_drop :
    let g := run step resetRegs firstDrop
    (∀ f : Nat → Input, ∃ n, StopsAt step (fun g => g.state = .newBlock) f g n ∧
        ∀ r ≤ 20, ¬ FullAt (after step f g n).coordStatic r) ∧
      ((0 : Fin 4) = 3 → (0 : Fin 5) = 0 ∧ ¬ FullAt g.coordStatic (g.y 0).toNat) :=
  clearing_ends firstDrop 0 0 (by decide +kernel)

end Tetris
