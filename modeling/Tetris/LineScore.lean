import Tetris.RowClearing
import Tetris.TopRows

/-! What a lock is worth: the points of its full rows, up to the next `NEW_BLOCK`. -/
namespace Tetris
open Machine Slide

def triangle : Nat → Nat
  | 0 => 0
  | n + 1 => triangle n + (n + 1)

def fullRows (g : Regs) : Nat := (lines g).countP fullLine

def Earned (g t : Regs) (d : Nat) : Prop :=
  t.currentScore = g.currentScore + BitVec.ofNat 8 (triangle d)

theorem fullRows_of_settled {g : Regs} (h : Settled g) : fullRows g = 0 := by
  refine List.countP_eq_zero.2 fun l hl hfull => ?_
  obtain ⟨n, hn, rfl⟩ := List.getElem_of_mem hl
  exact h n (by simp [lines] at hn; omega) ((fullLine_iff g hn).1 hfull)

theorem fullRows_deletedRow {k : Fin 4} {g : Regs} (hy : (g.y k).toNat ≤ 20)
    (hfull : FullAt g.coordStatic (g.y k).toNat) : fullRows (deletedRow k g) + 1 = fullRows g := by
  have hlt : (g.y k).toNat < (lines g).length := by simp only [lines, List.length_ofFn]; omega
  unfold fullRows
  rw [lines_deletedRow hy]
  exact countP_deleteRow (by decide) hlt ((fullLine_iff g hlt).2 hfull)

theorem fullRows_le (g : Regs) : fullRows g ≤ 21 := by
  have hle : (lines g).countP fullLine ≤ (lines g).length := List.countP_le_length
  rwa [lines, List.length_ofFn] at hle

theorem Sweep.fullRows_eq {g : Regs} (h : Sweep 3 g) :
    fullRows g = if FullAt g.coordStatic (g.y 3).toNat then 1 else 0 := by
  split_ifs with hfull
  · rw [← fullRows_deletedRow (h.row 3) hfull, fullRows_of_settled h.deleted_settled]
  · refine fullRows_of_settled fun r hr hrow => hfull ?_
    rwa [← h.eq_last hr hrow]

/-- Progress with `d` rows deleted and paid for. -/
structure Scored (g : Regs) (k : Fin 4) (t : Regs) : Prop extends Progress g k t where
  tally : ∃ d, fullRows t + d = fullRows g ∧ t.accu = BitVec.ofNat 8 (d + 1) ∧ Earned g t d

theorem Scored.start {g : Regs} (h : Sweep 0 g) (haccu : g.accu = 1) : Scored g 0 g :=
  ⟨Progress.start h, 0, rfl, haccu, by simp [Earned, triangle]⟩

theorem Scored.delete {g t : Regs} {k : Fin 4} (h : Scored g k t) (hk : k ≠ 3)
    (hfull : FullAt t.coordStatic (t.y k).toNat) : Scored g k (deletedRow k t) := by
  obtain ⟨d, hrows, haccu, hscore⟩ := h.tally
  refine ⟨h.toProgress.delete hk hfull, d + 1, ?_, ?_, ?_⟩
  · have hone := fullRows_deletedRow (h.sweep.row k) hfull
    omega
  · change t.accu + 1 = _
    rw [haccu, BitVec.ofNat_add (d + 1) 1]
    rfl
  · change t.currentScore + t.accu = _
    rw [hscore, haccu, triangle, BitVec.ofNat_add (triangle d), BitVec.add_assoc]

theorem Scored.skip {g t : Regs} {k : Fin 4} (h : Scored g k t) (hk : k ≠ 3)
    (hfull : ¬ FullAt t.coordStatic (t.y k).toNat) (i : Input) : Scored g (k + 1) (step t i) := by
  have hprogress := h.toProgress.skip hk hfull i
  have htally := h.tally
  rw [step_skip h.sweep.pass hk hfull] at hprogress ⊢
  exact ⟨hprogress, htally⟩

/-- What a whole clearing earns: all full rows but a missed one. -/
def Paid (g t : Regs) : Prop :=
  (LastRowMissed g ∧ ∃ d, d + 1 = fullRows g ∧ Earned g t d) ∨
    (¬ LastRowMissed g ∧ Earned g t (fullRows g))

theorem Scored.last {g t : Regs} (h : Scored g 3 t)
    (hmiss : FullAt t.coordStatic (t.y 3).toNat ↔ LastRowMissed g) (i : Input) :
    Paid g (step t i) := by
  obtain ⟨d, hrows, -, hscore⟩ := h.tally
  have hkept : (step t i).currentScore = t.currentScore := by
    rw [h.sweep.step_fourth]
    split_ifs <;> rfl
  rw [h.sweep.fullRows_eq] at hrows
  unfold Paid Earned
  rw [hkept, ← hmiss]
  split_ifs at hrows with hfull
  · exact Or.inl ⟨hfull, d, by omega, hscore⟩
  · have hall : d = fullRows g := by omega
    exact Or.inr ⟨hfull, hall ▸ hscore⟩

theorem Sweep.until_paid {g : Regs} (h : Sweep 0 g) (hown : OwnRowsFull g) (haccu : g.accu = 1) :
    Until step (fun t => t.state = .newBlock) (Paid g) g := by
  refine Sweep.until (I := Scored g) (fun _ _ ht => ht.sweep)
    (fun _ _ hk ht hfull => ht.delete hk hfull) (fun _ _ i hk ht hfull => ht.skip hk hfull i)
    (fun t i ht => ht.last ?_ i) (Scored.start h haccu)
  exact ht.full_last.trans (h.outlook_last hown)

/-- The registers of a locked piece while they wait to be cleared. -/
def waiting (g : Regs) (st : State) (c a : BitVec 8) : Regs :=
  { lock g with
    state := st
    counter := c
    accu := a }

def LockPaid (g t : Regs) : Prop := Paid (waiting g (.clear 0 0) 0 1) t

section Lock
variable {g : Regs} (hw : InWell g) (hst : g.state = .moveDown)
include hw hst

theorem waiting_inWell (st : State) (hstart : st ≠ .start) (hrot : st.rotates = none)
    (c a : BitVec 8) : InWell (waiting g st c a) where
  started := hstart
  frame := hw.frame.lockCoord _
  piece := by
    obtain ⟨s, -, hheld⟩ := hw.holdsPiece (by simp [hst])
    exact Or.inr ⟨s, Or.inr rfl, hheld⟩
  ownRotation := fun t ht => by simp [waiting, hrot] at ht

theorem waiting_paid (hsettled : Settled g) (c : BitVec 8) :
    Until step (fun t => t.state = .newBlock) (LockPaid g) (waiting g (.clear 0 0) c 1) := by
  have hwell := waiting_inWell hw hst (.clear 0 0) (by simp) rfl c 1
  have hown : OwnRowsFull (waiting g (.clear 0 0) c 1) := hsettled.lock
  exact ((Sweep.start rfl hwell hown).until_paid hown rfl).mono fun _ hpaid => hpaid

end Lock

theorem lock_step {g : Regs} (h : Locks g) (i : Input) : step g i = waiting g .inter 0 g.accu := by
  obtain ⟨hst, hl⟩ := h
  simp only [step, datapath, nextState, hst, moveDown, hl, if_true]
  rfl

theorem waiting_inter (g : Regs) (c a : BitVec 8) (i : Input) :
    step (waiting g .inter c a) i =
      waiting g (interNext (waiting g .inter c a) i) (if i.down then c + 30 else c + 1) 1 := rfl

theorem waiting_pause (g : Regs) (c a : BitVec 8) (i : Input) :
    step (waiting g .pause c a) i = waiting g (if i.resume then .inter else .pause) c a := rfl

def Waits (g t : Regs) : Prop :=
  ∃ st c a, t = waiting g st c a ∧ (st = .inter ∨ (st = .pause ∧ a = 1))

theorem waits_step {g : Regs} (hw : InWell g) (hst : g.state = .moveDown) (hsettled : Settled g)
    (htop : TopClear (lock g).coordStatic) {t : Regs} (h : Waits g t) (i : Input) :
    Waits g (step t i) ∨ Until step (fun t => t.state = .newBlock) (LockPaid g) (step t i) := by
  obtain ⟨st, c, a, rfl, rfl | ⟨rfl, rfl⟩⟩ := h
  · rw [waiting_inter]
    rcases interNext_zero (g := waiting g .inter c a) rfl i with hn | hn | hn <;> rw [hn]
    · exact absurd htop ((interNext_gameOver_iff (waiting g .inter c a) i).1 hn)
    · exact Or.inl ⟨.pause, _, 1, rfl, Or.inr ⟨rfl, rfl⟩⟩
    · exact Or.inr (waiting_paid hw hst hsettled _)
  · rw [waiting_pause]
    left
    cases i.resume
    · exact ⟨.pause, c, 1, rfl, Or.inr ⟨rfl, rfl⟩⟩
    · exact ⟨.inter, c, 1, rfl, Or.inl rfl⟩

theorem lock_reaches_newBlock {g : Regs} (h : Locks g) (hw : InWell g) (hsettled : Settled g)
    (htop : TopClear (lock g).coordStatic) :
    ∃ n, StopsAt step (fun t => t.state = .newBlock) (fun _ => {}) g n := by
  have hnext := interNext_locked (g := waiting g .inter 0 g.accu) rfl htop (i := {}) rfl
  have hclear : step (step g {}) {} = waiting g (.clear 0 0) 1 1 := by
    rw [lock_step h, waiting_inter, hnext]
    rfl
  obtain ⟨n, hn, -⟩ := (waiting_paid hw h.1 hsettled 1).stopsAt fun _ => {}
  rw [← hclear] at hn
  refine ⟨n + 2, StopsAt.next ?_ (StopsAt.next ?_ hn)⟩
  · simp [h.1]
  · rw [lock_step h]
    simp [waiting]

theorem triangle_pred_ne {s : BitVec 8} {d n : Nat} (h : d + 1 = n) (hn : n ≤ 21) :
    s + BitVec.ofNat 8 (triangle d) ≠ s + BitVec.ofNat 8 (triangle n) := by
  subst h
  intro he
  rw [triangle, BitVec.ofNat_add, ← BitVec.add_assoc] at he
  have hzero : BitVec.ofNat 8 (d + 1) = 0 := by bv_omega
  have hnat := congrArg BitVec.toNat hzero
  rw [BitVec.toNat_ofNat] at hnat
  simp at hnat
  omega

/-- A lock of a game that goes on earns `1 + 2 + ... + n` for its `n` full rows by the next
`NEW_BLOCK`, for all inputs, exactly if the row of cell 4 is not missed. -/
theorem lock_earns_triangle_iff (is : List Input) (h : Locks (run step resetRegs is))
    (htop : TopClear (lock (run step resetRegs is)).coordStatic) :
    let g := run step resetRegs is
    (∀ f n, StopsAt step (fun t => t.state = .newBlock) f g n →
        Earned g (after step f g n) (fullRows (lock g))) ↔ ¬ LastRowMissed (locked g) := by
  intro g
  have hreach : Reachable step resetRegs g := ⟨is, rfl⟩
  have hst : g.state = .moveDown := h.1
  have hw : InWell g := (reachable_inWell hreach).resolve_left fun hbefore => by simp [hst] at hbefore
  have hsettled : Settled g := by
    have htidy := reachable_tidy hreach
    simpa only [Tidy, hst] using htidy
  have hpaid {f : Nat → Input} {n : Nat}
      (hn : StopsAt step (fun t => t.state = .newBlock) f g n) : LockPaid g (after step f g n) := by
    cases n with
    | zero =>
      have hstop : g.state = .newBlock := hn.1
      simp [hst] at hstop
    | succ n =>
      rw [after_succ]
      refine StopsAt.post_of_waiting (W := Waits g) ?_
        (fun t i ht => waits_step hw hst hsettled htop ht i) ?_ hn.tail
      · rintro t ⟨st, c, a, rfl, rfl | ⟨rfl, -⟩⟩ <;> simp [waiting]
      · exact ⟨.inter, 0, g.accu, lock_step h (f 0), Or.inl rfl⟩
  constructor
  · intro hall hmiss
    obtain ⟨n, hn⟩ := lock_reaches_newBlock h hw hsettled htop
    have hearned : Earned g _ _ := hall _ n hn
    cases hpaid hn with
    | inl hshort =>
      obtain ⟨-, d, hd, hscore⟩ := hshort
      exact triangle_pred_ne hd (fullRows_le _) (hscore.symm.trans hearned)
    | inr hfull => exact hfull.1 hmiss
  · intro hmiss f n hn
    cases hpaid hn with
    | inl hshort => exact absurd hshort.1 hmiss
    | inr hfull => exact hfull.2

/-- Row 20 filled by two flat I's, an I on end in column 10, and cell 4 of an L alone in
column 1. -/
def loneCell : List Input :=
  let deal : BitVec 3 → List Input := fun v => List.replicate 3 { nextShape := v, fromSwSig := true }
  let left : List Input := [{ left := true }, {}, {}]
  let right : List Input := [{ right := true }, {}, {}]
  let turn : List Input := [{ up := true }, {}, {}, {}]
  let drop : Nat → List Input := fun n => List.replicate n { down := true }
  [({ enter := true } : Input), {}] ++ deal 1 ++ left ++ left ++ drop 104 ++
    deal 1 ++ right ++ right ++ drop 103 ++
    deal 1 ++ turn ++ right ++ right ++ right ++ right ++ right ++ drop 93 ++
    deal 3 ++ left ++ left ++ left ++ drop 92

theorem loneCell_locks : Locks (run step resetRegs loneCell) ∧
    TopClear (lock (run step resetRegs loneCell)).coordStatic := by
  decide +kernel

theorem loneCell_unpaid : ∃ (is : List Input) (f : Nat → Input) (n : Nat),
    let g := run step resetRegs is
    Locks g ∧ TopClear (lock g).coordStatic ∧
      StopsAt step (fun t => t.state = .newBlock) f g n ∧
      ¬ Earned g (after step f g n) (fullRows (lock g)) := by
  refine ⟨loneCell, fun _ => {}, 6, loneCell_locks.1, loneCell_locks.2, ?_⟩
  unfold StopsAt Earned
  decide +kernel

theorem loneCell_earns_triangle_iff :
    let g := run step resetRegs loneCell
    (∀ f n, StopsAt step (fun t => t.state = .newBlock) f g n →
        Earned g (after step f g n) (fullRows (lock g))) ↔ ¬ LastRowMissed (locked g) :=
  lock_earns_triangle_iff loneCell loneCell_locks.1 loneCell_locks.2

end Tetris
