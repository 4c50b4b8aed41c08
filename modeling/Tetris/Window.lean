import Tetris.RowShift
import Tetris.Well

/-! The rows around the piece that may be full, and what the clearing passes make
of them: a four-bit abstraction of the board on which the passes can be computed. -/
namespace Tetris

/-- Which of the rows from one above cell 2 to two below it are full. -/
abbrev Window := Fin 4 → Bool

def Window.delete (d : Fin 4) (w : Window) : Window :=
  fun i => if d < i then w i else Fin.cases false (fun j => w j.castSucc) i

def Window.settle (d : Fin 4) (w : Window) : Window :=
  (fun w => if w d then w.delete d else w)^[4] w

/-- The passes from pass `k` on, up to the last one that deletes anything. -/
def Window.finish (d : Fin 4 → Fin 4) (k : Fin 4) (w : Window) : Window :=
  match k with
  | 0 => ((w.settle (d 0)).settle (d 1)).settle (d 2)
  | 1 => (w.settle (d 1)).settle (d 2)
  | 2 => w.settle (d 2)
  | 3 => w

def Window.count (w : Window) : Nat := (List.finRange 4).countP w

theorem forall_window {P : Window → Prop} (h : ∀ b0 b1 b2 b3, P ![b0, b1, b2, b3]) (w : Window) :
    P w := by
  have hw : w = ![w 0, w 1, w 2, w 3] := by
    funext i
    match i with
    | 0 | 1 | 2 | 3 => rfl
  rw [hw]
  exact h _ _ _ _

theorem settle_delete (d : Fin 4) (w : Window) :
    w d = true → (w.delete d).settle d = w.settle d := by
  revert w
  refine forall_window ?_
  revert d
  decide

theorem settle_of_not (d : Fin 4) (w : Window) : w d = false → w.settle d = w := by
  revert w
  refine forall_window ?_
  revert d
  decide

theorem count_delete (d : Fin 4) (w : Window) : w d = true → (w.delete d).count + 1 = w.count := by
  revert w
  refine forall_window ?_
  revert d
  decide

theorem finish_delete {d : Fin 4 → Fin 4} {k : Fin 4} (hk : k ≠ 3) {w : Window}
    (h : w (d k) = true) : (w.delete (d k)).finish d k = w.finish d k := by
  match k with
  | 0 => simp only [Window.finish, settle_delete _ w h]
  | 1 => simp only [Window.finish, settle_delete _ w h]
  | 2 => simp only [Window.finish, settle_delete _ w h]
  | 3 => exact absurd rfl hk

theorem finish_skip {d : Fin 4 → Fin 4} {k : Fin 4} (hk : k ≠ 3) {w : Window}
    (h : w (d k) = false) : w.finish d (k + 1) = w.finish d k := by
  match k with
  | 0 => simp only [Window.finish, settle_of_not _ w h]; rfl
  | 1 => simp only [Window.finish, settle_of_not _ w h]; rfl
  | 2 => simp only [Window.finish, settle_of_not _ w h]; rfl
  | 3 => exact absurd rfl hk

/-- Where in the window a cell of the piece lies. -/
def Shape.level (s : Shape) (rc : BitVec 2) (k : Fin 4) : Fin 4 :=
  Fin.ofNat 4 ((s.offset rc k).2 + 1).toNat

/-- If only rows of the piece are full, then after three passes no row but that of
cell 4 is, and that row is not the one of cell 1. -/
theorem finish_of_level (s : Shape) (rc : BitVec 2) (w : Window) :
    (∀ i, w i = true → ∃ k, s.level rc k = i) →
      (∀ i, w.finish (s.level rc) 0 i = true → i = s.level rc 3) ∧
        w.finish (s.level rc) 0 (s.level rc 0) = false := by
  revert w
  refine forall_window ?_
  revert s rc
  decide +kernel

theorem finish_last_iff (s : Shape) (rc : BitVec 2) (w : Window) :
    (∀ i, w i = true → ∃ k, s.level rc k = i) →
      (w.finish (s.level rc) 0 (s.level rc 3) = true ↔
        w (s.level rc 3) = true ∧ (∀ k, k ≠ 3 → s.level rc k ≠ s.level rc 3) ∧
          ¬ ((s.level rc 0).val = (s.level rc 3).val + 1 ∧ w (s.level rc 0) = true)) := by
  revert w
  refine forall_window ?_
  revert s rc
  decide +kernel

theorem level_lone (s : Shape) (rc : BitVec 2) (w : Window) :
    (∀ k, k ≠ 3 → s.level rc k ≠ s.level rc 3) →
      ¬ ((s.level rc 0).val = (s.level rc 3).val + 1 ∧ w (s.level rc 0) = true) →
        (∀ k, k ≠ 3 → s.level rc k < s.level rc 3) ∨ ∀ k, k ≠ 3 → w (s.level rc k) = false := by
  revert w
  refine forall_window ?_
  revert s rc
  decide +kernel

def window (g : Regs) : Window := fun i =>
  decide (1 ≤ (g.y 1).toNat + i.val ∧ (g.y 1).toNat + i.val ≤ 21 ∧
    FullAt g.coordStatic ((g.y 1).toNat + i.val - 1))

def level (g : Regs) (k : Fin 4) : Fin 4 := Fin.ofNat 4 ((g.y k).toNat + 1 - (g.y 1).toNat)

/-- What the passes from `k` on will leave full. -/
def outlook (k : Fin 4) (g : Regs) : Window := (window g).finish (level g) k

def Near (g : Regs) : Prop :=
  ∀ r ≤ 20, FullAt g.coordStatic r → ∃ i : Fin 4, r + 1 = (g.y 1).toNat + i.val

theorem Held.level_eq {s : Shape} {g : Regs} (h : Held s g) : level g = s.level g.rotateCounter := by
  funext k
  have hk := (h.1 k).2
  have hd := offset_bounds s g.rotateCounter k
  unfold level Shape.level
  congr 1
  omega

theorem level_row {g : Regs} (h : HoldsPiece g) (k : Fin 4) :
    (g.y k).toNat + 1 = (g.y 1).toNat + (level g k).val ∧ (g.y k).toNat ≤ 20 := by
  obtain ⟨s, -, hheld⟩ := h
  have hk := (hheld.1 k).2
  have hd := offset_bounds s g.rotateCounter k
  refine ⟨?_, hheld.2.row k⟩
  simp only [level, Fin.ofNat, Fin.val_mk]
  omega

theorem window_level {g : Regs} (h : HoldsPiece g) (k : Fin 4) :
    window g (level g k) = true ↔ FullAt g.coordStatic (g.y k).toNat := by
  obtain ⟨hrow, h20⟩ := level_row h k
  have hsub : (g.y 1).toNat + (level g k).val - 1 = (g.y k).toNat := by omega
  simp only [window, decide_eq_true_eq, hsub]
  constructor
  · exact fun hw => hw.2.2
  · exact fun hf => ⟨by omega, by omega, hf⟩

theorem fullAt_iff {a : Coord} {r : Nat} (hr : r < 22) : FullAt a r ↔ a ⟨r, hr⟩ = fullRow := by
  rw [FullAt, Rows.read_of_lt a hr, Option.some.injEq]

theorem fullAt_deleteAt {y r : Nat} (hr : r ≤ 20) (a : Coord) :
    FullAt (deleteAt y emptyRow a) r ↔
      if r ≤ y then 1 ≤ r ∧ FullAt a (r - 1) else FullAt a r := by
  rw [fullAt_iff (by omega : r < 22)]
  cases r with
  | zero =>
    have hne : ¬ emptyRow = fullRow := by decide
    rw [if_pos (Nat.zero_le y)]
    exact iff_of_false hne fun h => absurd h.1 (by omega)
  | succ r =>
    change (if r < y then a ⟨r, by omega⟩ else a ⟨r + 1, by omega⟩) = fullRow ↔ _
    by_cases hy : r < y
    · rw [if_pos hy, if_pos (by omega : r + 1 ≤ y), fullAt_iff (by omega : r + 1 - 1 < 22)]
      exact ⟨fun h => ⟨by omega, h⟩, fun h => h.2⟩
    · rw [if_neg hy, if_neg (by omega : ¬ r + 1 ≤ y), fullAt_iff]

theorem near_deletedRow {g : Regs} (h : HoldsPiece g) (hn : Near g) (k : Fin 4) :
    Near (deletedRow k g) := by
  obtain ⟨hrow, h20⟩ := level_row h k
  intro r hr hfull
  change FullAt (deleteAt _ emptyRow g.coordStatic) r at hfull
  change ∃ i : Fin 4, r + 1 = (g.y 1).toNat + i.val
  rw [fullAt_deleteAt hr] at hfull
  split_ifs at hfull with hy
  · obtain ⟨i, hi⟩ := hn (r - 1) (by omega) hfull.2
    have hlevel := (level g k).isLt
    exact ⟨⟨i.val + 1, by omega⟩, by simp only; omega⟩
  · exact hn r hr hfull

theorem window_deletedRow {g : Regs} (h : HoldsPiece g) (hn : Near g) (k : Fin 4) :
    window (deletedRow k g) = (window g).delete (level g k) := by
  obtain ⟨hrow, h20⟩ := level_row h k
  funext i
  have hnew : window (deletedRow k g) i = true ↔ 1 ≤ (g.y 1).toNat + i.val ∧
      (g.y 1).toNat + i.val ≤ 21 ∧
        FullAt (deleteAt (g.y k).toNat emptyRow g.coordStatic) ((g.y 1).toNat + i.val - 1) :=
    decide_eq_true_iff
  rw [Bool.eq_iff_iff, hnew]
  by_cases hi : level g k < i
  · have hlt : (level g k).val < i.val := hi
    simp only [Window.delete, hi, if_true, window, decide_eq_true_eq]
    refine and_congr_right fun _ => and_congr_right fun h21 => ?_
    rw [fullAt_deleteAt (by omega), if_neg (by omega)]
  · have hle : i.val ≤ (level g k).val := Fin.not_lt.1 hi
    simp only [Window.delete, hi, if_false]
    induction i using Fin.cases with
    | zero =>
      simp only [Fin.cases_zero, Bool.false_eq_true, iff_false]
      rintro ⟨h1, h21, hfull⟩
      rw [fullAt_deleteAt (by omega), if_pos (by omega)] at hfull
      obtain ⟨j, hj⟩ := hn _ (by omega) hfull.2
      omega
    | succ j =>
      simp only [Fin.cases_succ, window, decide_eq_true_eq, Fin.val_succ, Fin.val_castSucc] at hle ⊢
      have hsub : (g.y 1).toNat + (j.val + 1) - 1 - 1 = (g.y 1).toNat + j.val - 1 := by omega
      constructor
      · rintro ⟨h1, h21, hfull⟩
        rw [fullAt_deleteAt (by omega), if_pos (by omega), hsub] at hfull
        exact ⟨by omega, by omega, hfull.2⟩
      · rintro ⟨h1, h21, hfull⟩
        rw [fullAt_deleteAt (by omega), if_pos (by omega), hsub]
        exact ⟨by omega, by omega, by omega, hfull⟩

/-- A pass that deletes a row leaves the outlook as it was. -/
theorem outlook_deletedRow {g : Regs} (h : HoldsPiece g) (hn : Near g) {k : Fin 4} (hk : k ≠ 3)
    (hfull : FullAt g.coordStatic (g.y k).toNat) :
    outlook k (deletedRow k g) = outlook k g := by
  change Window.finish (level g) k (window (deletedRow k g)) = _
  rw [window_deletedRow h hn, finish_delete hk ((window_level h k).2 hfull)]
  rfl

end Tetris
