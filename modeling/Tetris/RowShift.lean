import Tetris.BlockLogic
import Tetris.Machine
import Tetris.Slide

/-! The five states of a clearing pass, taken together, delete one row. -/
namespace Tetris
open Machine

section Rows
variable {α : Type*}

/-- Row `y` deleted: the rows above it moved down, `blank` on top. -/
def deleteAt (y : Nat) (blank : α) (a : Rows α) : Rows α :=
  Fin.cases blank fun n => if n.val < y then a n.castSucc else a n.succ

/-- The part of that move that reaches down from row `y` to row `m + 1`. -/
def partShift (y m : Nat) (a : Rows α) : Rows α :=
  Fin.cases (a 0) fun n => if m ≤ n.val ∧ n.val < y then a n.castSucc else a n.succ

@[simp] theorem deleteAt_succ (y : Nat) (blank : α) (a : Rows α) (n : Fin 21) :
    deleteAt y blank a n.succ = if n.val < y then a n.castSucc else a n.succ := rfl

@[simp] theorem partShift_zero (y m : Nat) (a : Rows α) : partShift y m a 0 = a 0 := rfl

@[simp] theorem partShift_succ (y m : Nat) (a : Rows α) (n : Fin 21) :
    partShift y m a n.succ =
      if m ≤ n.val ∧ n.val < y then a n.castSucc else a n.succ := rfl

theorem partShift_low (y : Nat) {m : Nat} (a : Rows α) {i : Fin 22} (h : i.val ≤ m) :
    partShift y m a i = a i := by
  induction i using Fin.cases with
  | zero => rfl
  | succ n =>
    rw [partShift_succ, if_neg]
    simp only [Fin.val_succ] at h
    omega

theorem copyRow_succ (y : BitVec 6) (old new : Rows α) (m n : Fin 21) :
    copyRow y old new m n.succ =
      if n = m ∧ n.val < y.toNat then old n.castSucc else new n.succ := by
  unfold copyRow
  by_cases hnm : n = m
  · subst hnm
    split_ifs with h <;> simp_all [Rows.write_apply]
  · have hval : n.val ≠ m.val := fun h => hnm (Fin.ext h)
    split_ifs with h <;> simp_all [Rows.write_apply]

theorem copyRow_zero (y : BitVec 6) (old new : Rows α) (m : Fin 21) :
    copyRow y old new m 0 = new 0 := by
  unfold copyRow
  split_ifs <;> simp [Rows.write_apply]

theorem copyRows_succ (y : BitVec 6) (old : Rows α) (ns : List (Fin 21)) (new : Rows α) (n : Fin 21) :
    copyRows y old new ns n.succ =
      if n ∈ ns ∧ n.val < y.toNat then old n.castSucc else new n.succ := by
  induction ns generalizing new with
  | nil => simp [copyRows]
  | cons m ns ih =>
    change copyRows y old (copyRow y old new m) ns n.succ = _
    rw [ih, copyRow_succ]
    by_cases hm : n = m
    · subst hm
      by_cases hy : n.val < y.toNat <;> simp [hy]
    · simp [hm]

theorem copyRows_zero (y : BitVec 6) (old : Rows α) (ns : List (Fin 21)) (new : Rows α) :
    copyRows y old new ns 0 = new 0 := by
  induction ns generalizing new with
  | nil => rfl
  | cons m ns ih =>
    change copyRows y old (copyRow y old new m) ns 0 = _
    rw [ih, copyRow_zero]

/-- One state of the pass carries the move four rows further up. -/
theorem copyRows_partShift (y : BitVec 6) {m : Nat} {l : List (Fin 21)}
    (hl : ∀ n : Fin 21, n ∈ l ↔ m ≤ n.val ∧ n.val < m + 4) (a : Rows α) :
    copyRows y (partShift y.toNat (m + 4) a) (partShift y.toNat (m + 4) a) l =
      partShift y.toNat m a := by
  funext i
  induction i using Fin.cases with
  | zero => rw [copyRows_zero]; rfl
  | succ n =>
    simp only [copyRows_succ, hl, partShift_succ]
    by_cases hn : n.val < m + 4
    · rw [partShift_low _ _ (by simpa using hn.le)]
      have hno : ¬ m + 4 ≤ n.val := by omega
      simp only [hn, hno, false_and, and_true, if_false]
    · have hm : m ≤ n.val := by omega
      have hge : m + 4 ≤ n.val := by omega
      simp only [hn, hm, hge, and_false, false_and, true_and, if_false]

/-- The first state of the pass; it reads rows above `y` only, so that what was
written into row `y` before does not matter. -/
theorem copyRows_first (y : BitVec 6) {l : List (Fin 21)}
    (hl : ∀ n : Fin 21, n ∈ l ↔ 16 ≤ n.val ∧ n.val < 20) (hy : y.toNat ≤ 20) (a : Rows α) (v : α) :
    copyRows y a (a.write y.toNat v) l = partShift y.toNat 16 (a.write y.toNat v) := by
  funext i
  induction i using Fin.cases with
  | zero => rw [copyRows_zero]; rfl
  | succ n =>
    have hbelow : (a.write y.toNat v) n.castSucc = if n.val = y.toNat then v else a n.castSucc := rfl
    simp only [copyRows_succ, hl, partShift_succ, hbelow]
    by_cases hny : n.val < y.toNat
    · have hne : n.val ≠ y.toNat := by omega
      have h20 : n.val < 20 := by omega
      simp only [hny, hne, h20, and_true, if_false]
    · simp only [hny, and_false, if_false]

theorem write_partShift_zero (y : Nat) (blank : α) (a : Rows α) :
    (partShift y 0 a).write 0 blank = deleteAt y blank a := by
  funext i
  induction i using Fin.cases with
  | zero => rfl
  | succ n => simp [Rows.write_apply]

theorem deleteAt_write (y : Nat) (blank v : α) (a : Rows α) :
    deleteAt y blank (a.write y v) = deleteAt y blank a := by
  funext i
  induction i using Fin.cases with
  | zero => rfl
  | succ n =>
    simp only [deleteAt_succ, Rows.write_apply, Fin.val_castSucc, Fin.val_succ]
    split_ifs <;> first | rfl | omega

theorem deleteAt_below {y : Nat} (blank : α) (a : Rows α) {i : Fin 22} (h : y < i.val) :
    deleteAt y blank a i = a i := by
  induction i using Fin.cases with
  | zero => exact absurd h (Nat.not_lt_zero y)
  | succ n =>
    simp only [Fin.val_succ] at h
    rw [deleteAt_succ, if_neg (by omega)]

theorem deleteAt_floor {y : Nat} (hy : y ≤ 20) (blank : α) (a : Rows α) :
    deleteAt y blank a 21 = a 21 := by
  change (if (20 : Nat) < y then _ else _) = _
  rw [if_neg (by omega)]
  rfl

theorem ofFn_deleteAt {y : Nat} (hy : y ≤ 20) (blank : α) (a : Rows α) :
    List.ofFn (fun i : Fin 21 => deleteAt y blank a i.castSucc) =
      Slide.deleteRow blank y (List.ofFn fun i : Fin 21 => a i.castSucc) := by
  refine List.ext_getElem ?_ fun n hn hn' => ?_
  · simp only [Slide.deleteRow, List.length_cons, List.length_ofFn]
    rw [List.length_eraseIdx_of_lt (by simp; omega)]
    simp
  · rw [List.length_ofFn] at hn
    cases n with
    | zero => rw [List.getElem_ofFn]; rfl
    | succ n =>
      have hrow : (⟨n + 1, hn⟩ : Fin 21).castSucc = (⟨n, by omega⟩ : Fin 21).succ := rfl
      simp only [Slide.deleteRow, List.getElem_cons_succ, List.getElem_eraseIdx, List.getElem_ofFn,
        hrow, deleteAt_succ]
      split_ifs <;> rfl

theorem partShift_floor {y : Nat} (hy : y ≤ 20) (m : Nat) (a : Rows α) :
    partShift y m a 21 = a 21 := by
  change (if m ≤ 20 ∧ 20 < y then _ else _) = _
  rw [if_neg (by omega)]
  rfl

theorem partShift_twenty {y : Nat} (hy : y ≤ 20) (a : Rows α) : partShift y 20 a = a := by
  funext i
  induction i using Fin.cases with
  | zero => rfl
  | succ n => rw [partShift_succ, if_neg (by omega)]

end Rows

/-- The registers of pass `k` when rows down to `m` are still in place; row `y` has
been emptied in `coord_static` but not in `color_static`. -/
def midPass (k : Fin 4) (m : Nat) (stage : Fin 5) (g : Regs) : Regs :=
  { g with
    state := .clear k stage
    coordStatic := partShift (g.y k).toNat m (g.coordStatic.write (g.y k).toNat emptyRow)
    colorStatic := partShift (g.y k).toNat m g.colorStatic }

def deletedRow (k : Fin 4) (g : Regs) : Regs :=
  { g with
    coordStatic := deleteAt (g.y k).toNat emptyRow g.coordStatic
    colorStatic := deleteAt (g.y k).toNat blackRow g.colorStatic
    currentScore := g.currentScore + g.accu
    accu := g.accu + 1 }

theorem testRow_eq {k : Fin 4} (hk : k ≠ 3) (g : Regs) : testRow g k = g.y k := by
  match k with
  | 0 | 1 | 2 => rfl
  | 3 => exact absurd rfl hk

theorem clearFirst_eq {y : BitVec 6} {g : Regs} (hy : y.toNat ≤ 20)
    (hfull : FullAt g.coordStatic y.toNat) :
    clearFirst y g =
      { g with
        coordStatic := partShift y.toNat 16 (g.coordStatic.write y.toNat emptyRow)
        colorStatic := partShift y.toNat 16 g.colorStatic } := by
  have hcolor := copyRows_partShift y (m := 16) (l := [19, 18, 17, 16]) (by decide) g.colorStatic
  have hcoord := copyRows_first y (l := [19, 18, 17, 16]) (by decide) hy g.coordStatic emptyRow
  rw [partShift_twenty hy] at hcolor
  rw [clearFirst, if_pos hfull, hcolor, hcoord]

theorem step_first {g : Regs} {k : Fin 4} (hst : g.state = .clear k 0) (hk : k ≠ 3)
    (hy : (g.y k).toNat ≤ 20) (hfull : FullAt g.coordStatic (g.y k).toNat) (i : Input) :
    step g i = midPass k 16 1 g := by
  simp only [step, datapath, nextState, hst, clear, clearNext, testRow_eq hk, hfull, if_true,
    clearFirst_eq hy hfull]
  rfl

theorem step_middle {g : Regs} {k : Fin 4} {m : Nat} {stage : Fin 5} {l : List (Fin 21)}
    (hclear : ∀ g : Regs, clear k stage g = clearMiddle (g.y k) l g)
    (hnext : ∀ g : Regs, clearNext g k stage = .clear k (stage + 1))
    (hl : ∀ n : Fin 21, n ∈ l ↔ m ≤ n.val ∧ n.val < m + 4) (i : Input) :
    step (midPass k (m + 4) stage g) i = midPass k m (stage + 1) g := by
  have hcolor := copyRows_partShift (g.y k) hl g.colorStatic
  have hcoord := copyRows_partShift (g.y k) hl (g.coordStatic.write (g.y k).toNat emptyRow)
  simp only [step, datapath, nextState, midPass, hclear, hnext, clearMiddle]
  simp only [hcolor, hcoord]

theorem step_last {g : Regs} {k : Fin 4} (hst : g.state = .clear k 0) (i : Input) :
    step (midPass k 4 4 g) i = deletedRow k g := by
  have hl : ∀ n : Fin 21, n ∈ ([3, 2, 1, 0] : List (Fin 21)) ↔ 0 ≤ n.val ∧ n.val < 0 + 4 := by decide
  have hcolor := copyRows_partShift (g.y k) hl g.colorStatic
  have hcoord := copyRows_partShift (g.y k) hl (g.coordStatic.write (g.y k).toNat emptyRow)
  simp only [Nat.zero_add] at hcolor hcoord
  simp only [step, datapath, nextState, midPass, clear, clearLast, clearNext]
  simp only [hcolor, hcoord, write_partShift_zero, deleteAt_write, deletedRow, ← hst]

def passAt (k : Fin 4) (g : Regs) (n : Nat) : Regs :=
  match n with
  | 0 => g
  | 1 => midPass k 16 1 g
  | 2 => midPass k 12 2 g
  | 3 => midPass k 8 3 g
  | 4 => midPass k 4 4 g
  | _ => deletedRow k g

section Pass
variable {g : Regs} {k : Fin 4} (hst : g.state = .clear k 0) (hk : k ≠ 3)
  (hy : (g.y k).toNat ≤ 20) (hfull : FullAt g.coordStatic (g.y k).toNat)
include hst

theorem passAt_state {n : Nat} (hn : n < 5) : ∃ stage, (passAt k g n).state = .clear k stage := by
  match n, hn with
  | 0, _ => exact ⟨0, hst⟩
  | 1, _ => exact ⟨1, rfl⟩
  | 2, _ => exact ⟨2, rfl⟩
  | 3, _ => exact ⟨3, rfl⟩
  | 4, _ => exact ⟨4, rfl⟩

include hk hy hfull

theorem step_passAt {n : Nat} (hn : n < 5) (i : Input) :
    step (passAt k g n) i = passAt k g (n + 1) := by
  match n, hn with
  | 0, _ => exact step_first hst hk hy hfull i
  | 1, _ =>
    have hl : ∀ n : Fin 21, n ∈ ([15, 14, 13, 12] : List (Fin 21)) ↔ 12 ≤ n.val ∧ n.val < 16 := by
      decide
    exact step_middle (m := 12) (fun _ => rfl) (fun _ => rfl) hl i
  | 2, _ =>
    have hl : ∀ n : Fin 21, n ∈ ([11, 10, 9, 8] : List (Fin 21)) ↔ 8 ≤ n.val ∧ n.val < 12 := by
      decide
    exact step_middle (m := 8) (fun _ => rfl) (fun _ => rfl) hl i
  | 3, _ =>
    have hl : ∀ n : Fin 21, n ∈ ([7, 6, 5, 4] : List (Fin 21)) ↔ 4 ≤ n.val ∧ n.val < 8 := by
      decide
    exact step_middle (m := 4) (fun _ => rfl) (fun _ => rfl) hl i
  | 4, _ => exact step_last hst i

theorem run_passAt {n : Nat} {is : List Input} (hn : n + is.length ≤ 5) :
    run step (passAt k g n) is = passAt k g (n + is.length) := by
  induction is generalizing n with
  | nil => rfl
  | cons i is ih =>
    simp only [List.length_cons] at hn ⊢
    rw [run_cons, step_passAt hst hk hy hfull (by omega), ih (by omega)]
    congr 1
    omega

theorem run_pass {l : List Input} (hl : l.length = 5) : run step g l = deletedRow k g := by
  have h := run_passAt hst hk hy hfull (n := 0) (by omega : 0 + l.length ≤ 5)
  rwa [hl] at h

end Pass

/-- Five cycles at a full row take it out of both arrays, add `accu` to the score and
leave every other register as it was. -/
theorem pass_atomic {g : Regs} {k : Fin 4} (hst : g.state = .clear k 0) (hk : k ≠ 3)
    (hy : (g.y k).toNat ≤ 20) (hfull : FullAt g.coordStatic (g.y k).toNat) {l : List Input}
    (hl : l.length = 5) :
    let t := run step g l
    t.state = .clear k 0 ∧
      (∀ n : Fin 21, n.val < (g.y k).toNat →
        t.coordStatic n.succ = g.coordStatic n.castSucc ∧
          t.colorStatic n.succ = g.colorStatic n.castSucc) ∧
      t.coordStatic 0 = emptyRow ∧ t.colorStatic 0 = blackRow ∧
      (∀ i : Fin 22, (g.y k).toNat < i.val →
        t.coordStatic i = g.coordStatic i ∧ t.colorStatic i = g.colorStatic i) ∧
      t = { g with
        coordStatic := t.coordStatic
        colorStatic := t.colorStatic
        currentScore := g.currentScore + g.accu
        accu := g.accu + 1 } := by
  intro t
  have ht : t = deletedRow k g := run_pass hst hk hy hfull hl
  rw [ht]
  refine ⟨hst, fun n hn => ?_, rfl, rfl, fun i hi => ?_, rfl⟩
  · exact ⟨if_pos hn, if_pos hn⟩
  · exact ⟨deleteAt_below _ _ hi, deleteAt_below _ _ hi⟩

def lowestRowFull : Regs :=
  { resetRegs with
    y := fun _ => 20
    state := .clear 0 0
    coordStatic := fun i => if 20 ≤ i.val then fullRow else emptyRow }

theorem pass_atomic_lowest_row :
    let g := lowestRowFull
    let t := run step g [{}, {}, {}, {}, {}]
    t.state = .clear 0 0 ∧
      (∀ n : Fin 21, n.val < (g.y 0).toNat →
        t.coordStatic n.succ = g.coordStatic n.castSucc ∧
          t.colorStatic n.succ = g.colorStatic n.castSucc) ∧
      t.coordStatic 0 = emptyRow ∧ t.colorStatic 0 = blackRow ∧
      (∀ i : Fin 22, (g.y 0).toNat < i.val →
        t.coordStatic i = g.coordStatic i ∧ t.colorStatic i = g.colorStatic i) ∧
      t = { g with
        coordStatic := t.coordStatic
        colorStatic := t.colorStatic
        currentScore := g.currentScore + g.accu
        accu := g.accu + 1 } :=
  pass_atomic rfl (by decide) (by decide) (by decide) rfl

end Tetris
