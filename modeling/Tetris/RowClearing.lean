import Tetris.Clearing

/-! What a whole clearing does to the rows of the board, bits and colours together. -/
namespace Tetris
open Machine Slide

abbrev Line := BitVec 12 × (Fin 12 → BitVec 3)

def fullLine (l : Line) : Bool := l.1 == fullRow

def blankLine : Line := (emptyRow, blackRow)

def board (g : Regs) : Rows Line := fun i => (g.coordStatic i, g.colorStatic i)

def lines (g : Regs) : List Line := List.ofFn fun i : Fin 21 => board g i.castSucc

/-- The piece locked where it is, `CLEAR1_1` just entered. -/
def locked (g : Regs) : Regs := { lock g with state := .clear 0 0 }

/-- Shape `s` on interior cells of an intact frame, where its lock fills no rows but
its own and leaves the two top rows empty. -/
structure Landing (s : Shape) (g : Regs) : Prop where
  frame : Frame g.coordStatic
  shape : g.currentShape = s.code
  placed : Placed s g.rotateCounter g.toPiece
  interior : ∀ k, (g.y k).toNat ≤ 20 ∧ 1 ≤ (g.x k).toNat ∧ (g.x k).toNat ≤ 10
  ownRows : OwnRowsFull (locked g)
  top : (locked g).coordStatic 0 = emptyRow ∧ (locked g).coordStatic 1 = emptyRow

/-- All full rows of `g` deleted, the others slid down under blank ones, and the floor
as it was. -/
def Slid (g t : Regs) : Prop :=
  lines t = slide fullLine blankLine (lines g) ∧ board t 21 = board g 21

/-- Whatever the inputs, the clearing comes to `NEW_BLOCK` with the full rows slid away. -/
def ClearsExactly (g : Regs) : Prop :=
  ∀ f : Nat → Input, ∃ n, StopsAt step (fun g => g.state = .newBlock) f g n ∧
    Slid g (after step f g n)

/-- The row of cell 4 is full, the first three passes do not look at it, and none of
their deletions moves it to where they look. -/
def LastRowMissed (g : Regs) : Prop :=
  FullAt g.coordStatic (g.y 3).toNat ∧ (∀ k, k ≠ 3 → (g.y k).toNat ≠ (g.y 3).toNat) ∧
    ¬ ((g.y 0).toNat = (g.y 3).toNat + 1 ∧ FullAt g.coordStatic (g.y 0).toNat)

theorem lockColor_apply (p : Piece) (v : BitVec 3) (a : Color) (i : Fin 22) (j : Fin 12) :
    lockColor p v a i j =
      if ∃ k, (p.y k).toNat = i.val ∧ (p.x k).toNat = j.val then v else a i j := by
  have hfold (ks : List (Fin 4)) (a : Color) :
      ks.foldl (fun a k => setColor a (p.y k).toNat (p.x k).toNat v) a i j =
        if ∃ k ∈ ks, (p.y k).toNat = i.val ∧ (p.x k).toNat = j.val then v else a i j := by
    induction ks generalizing a with
    | nil => simp
    | cons k ks ih =>
      rw [List.foldl_cons, ih, setColor_apply]
      by_cases hk : (p.y k).toNat = i.val ∧ (p.x k).toNat = j.val
      · simp [hk.1, hk.2]
      · have hk' : ¬ (i.val = (p.y k).toNat ∧ j.val = (p.x k).toNat) :=
          fun h => hk ⟨h.1.symm, h.2.symm⟩
        simp only [hk', if_false, List.exists_mem_cons_iff, hk, false_or]
  rw [lockColor, hfold]
  simp

theorem locked_inWell {s : Shape} {g : Regs} (h : Landing s g) : InWell (locked g) where
  started := by simp [locked]
  frame := h.frame.lockCoord _
  piece := Or.inr ⟨s, Or.inr rfl, held_of_interior (g := locked g) h.placed h.interior⟩
  ownRotation := fun t ht => by simp [locked, State.rotates] at ht

theorem locked_colour {s : Shape} {g : Regs} (h : Landing s g) (k : Fin 4) {i : Fin 22}
    (hi : (g.y k).toNat = i.val) : (locked g).colorStatic i ≠ blackRow := by
  intro hblack
  have hcol := (h.interior k).2.2
  have hcell := congrFun hblack ⟨(g.x k).toNat, by omega⟩
  change lockColor g.toPiece g.currentShape g.colorStatic i _ = 0 at hcell
  rw [lockColor_apply, if_pos ⟨k, hi, rfl⟩, h.shape] at hcell
  exact code_ne_zero s hcell

section Rows
variable {α : Type*}

theorem partShift_write_top {y : Nat} (a : Rows α) (v : α) {i : Fin 22} (h : i.val ≤ 16) :
    partShift y 16 (a.write y v) i = if i.val = y then v else a i := by
  rw [partShift_low y _ h, Rows.write_apply]

/-- The first state of a pass, taken for the whole pass: it is one exactly if the
row lies under 17 blank ones. -/
theorem partShift_eq_deleteAt_iff {y : Nat} (hy : y ≤ 20) (a : Rows α) {v blank : α}
    (hv : v ≠ blank) :
    (∀ i : Fin 21, partShift y 16 (a.write y v) i.castSucc = deleteAt y blank a i.castSucc) ↔
      17 ≤ y ∧ ∀ i : Fin 22, i.val < 17 → a i = blank := by
  constructor
  · intro h
    have hblank (n : Nat) (hn : n < 21) : n ≤ 16 → n ≤ y →
        (if n = y then v else a ⟨n, by omega⟩) = blank := by
      induction n with
      | zero =>
        intro h16 _
        rw [← partShift_write_top (y := y) a v (i := ⟨0, by omega⟩) h16]
        exact h ⟨0, hn⟩
      | succ n ih =>
        intro h16 hle
        have hrow := h ⟨n + 1, hn⟩
        have hlow : n ≠ y := by omega
        rw [partShift_write_top a v (by simpa using h16)] at hrow
        refine hrow.trans ?_
        change (if n < y then a ⟨n, by omega⟩ else _) = blank
        rw [if_pos (by omega)]
        simpa only [hlow, if_false] using ih (by omega) (by omega) (by omega)
    have hlow : 17 ≤ y := by
      by_contra hlt
      have hrow := hblank y (by omega) (by omega) le_rfl
      rw [if_pos rfl] at hrow
      exact hv hrow
    refine ⟨hlow, fun i hi => ?_⟩
    have hrow := hblank i.val (by omega) (by omega) (by omega)
    rwa [if_neg (by omega)] at hrow
  · rintro ⟨hlow, hblank⟩ i
    induction i using Fin.cases with
    | zero =>
      change (a.write y v) 0 = blank
      rw [Rows.write_apply, if_neg (by simp; omega)]
      exact hblank 0 (by simp)
    | succ n =>
      rw [← Fin.succ_castSucc, partShift_succ, deleteAt_succ]
      simp only [Rows.write_apply, Fin.val_castSucc, Fin.val_succ]
      by_cases h16 : 16 ≤ n.val
      · by_cases hny : n.val < y
        · rw [if_pos ⟨h16, hny⟩, if_pos hny, if_neg (by omega)]
        · rw [if_neg (fun h => hny h.2), if_neg hny, if_neg (by omega)]
      · have hny : n.val < y := by omega
        have hne : n.val + 1 ≠ y := by omega
        simp only [h16, hny, hne, false_and, if_false, if_true]
        rw [hblank _ (by simp; omega), hblank _ (by simp; omega)]

end Rows

theorem board_deletedRow (k : Fin 4) (g : Regs) :
    board (deletedRow k g) = deleteAt (g.y k).toNat blankLine (board g) := by
  funext i
  induction i using Fin.cases with
  | zero => rfl
  | succ n =>
    simp only [board, deletedRow, deleteAt_succ]
    split_ifs <;> rfl

theorem lines_deletedRow {k : Fin 4} {g : Regs} (hy : (g.y k).toNat ≤ 20) :
    lines (deletedRow k g) = deleteRow blankLine (g.y k).toNat (lines g) := by
  unfold lines
  rw [board_deletedRow, ofFn_deleteAt hy]

theorem lines_getElem (g : Regs) {n : Nat} (hn : n < (lines g).length) :
    (lines g)[n] = board g ⟨n, by simp [lines] at hn; omega⟩ := by
  simp only [lines, List.getElem_ofFn]
  rfl

theorem fullLine_iff (g : Regs) {n : Nat} (hn : n < (lines g).length) :
    fullLine (lines g)[n] = true ↔ FullAt g.coordStatic n := by
  have hn' : n < 22 := by simp [lines] at hn; omega
  rw [lines_getElem g hn, fullAt_iff hn', fullLine, beq_iff_eq]
  rfl

theorem slide_deletedRow {k : Fin 4} {g : Regs} (hy : (g.y k).toNat ≤ 20)
    (hfull : FullAt g.coordStatic (g.y k).toNat) :
    slide fullLine blankLine (lines (deletedRow k g)) = slide fullLine blankLine (lines g) := by
  have hlt : (g.y k).toNat < (lines g).length := by simp only [lines, List.length_ofFn]; omega
  rw [lines_deletedRow hy]
  exact slide_deleteRow (by decide) hlt ((fullLine_iff g hlt).2 hfull)

theorem slide_of_settled {g : Regs} (h : Settled g) :
    slide fullLine blankLine (lines g) = lines g := by
  refine slide_of_none _ _ fun l hl => ?_
  obtain ⟨n, hn, rfl⟩ := List.getElem_of_mem hl
  rw [Bool.eq_false_iff]
  intro hfull
  exact h n (by simp [lines] at hn; omega) ((fullLine_iff g hn).1 hfull)

/-- Registers `t` of a clearing that began with `g`, before pass `k`. -/
structure Progress (g : Regs) (k : Fin 4) (t : Regs) : Prop where
  sweep : Sweep k t
  piece : t.toPiece = g.toPiece
  foreseen : outlook k t = outlook 0 g
  slides : slide fullLine blankLine (lines t) = slide fullLine blankLine (lines g)
  floor : board t 21 = board g 21

theorem Progress.start {g : Regs} (h : Sweep 0 g) : Progress g 0 g := ⟨h, rfl, rfl, rfl, rfl⟩

theorem Progress.delete {g t : Regs} {k : Fin 4} (h : Progress g k t) (hk : k ≠ 3)
    (hfull : FullAt t.coordStatic (t.y k).toNat) : Progress g k (deletedRow k t) where
  sweep := h.sweep.delete hk hfull
  piece := h.piece
  foreseen := (outlook_deletedRow h.sweep.holds h.sweep.near hk hfull).trans h.foreseen
  slides := (slide_deletedRow (h.sweep.row k) hfull).trans h.slides
  floor := by
    rw [board_deletedRow, deleteAt_floor (h.sweep.row k)]
    exact h.floor

theorem Progress.skip {g t : Regs} {k : Fin 4} (h : Progress g k t) (hk : k ≠ 3)
    (hfull : ¬ FullAt t.coordStatic (t.y k).toNat) (i : Input) : Progress g (k + 1) (step t i) := by
  have hsweep := h.sweep.skip hk hfull i
  have hforeseen := h.sweep.skip_outlook hk hfull
  rw [step_skip h.sweep.pass hk hfull] at hsweep ⊢
  exact ⟨hsweep, h.piece, hforeseen.trans h.foreseen, h.slides, h.floor⟩

structure Missing (g : Regs) (k : Fin 4) (t : Regs) : Prop extends Progress g k t where
  lone : (∀ j, j ≠ 3 → (g.y j).toNat < (g.y 3).toNat) ∨
    ∀ j, j ≠ 3 → ¬ FullAt t.coordStatic (t.y j).toNat
  lastRow : (board t).read (g.y 3).toNat = (board g).read (g.y 3).toNat
  above : slide fullLine blankLine ((lines t).take (g.y 3).toNat) =
    slide fullLine blankLine ((lines g).take (g.y 3).toNat)

theorem Missing.delete {g t : Regs} {k : Fin 4} (h : Missing g k t) (hk : k ≠ 3)
    (hfull : FullAt t.coordStatic (t.y k).toNat) : Missing g k (deletedRow k t) := by
  have hrow := h.sweep.row k
  have hlast : (g.y 3).toNat ≤ 20 := by
    rw [← h.piece]
    exact h.sweep.row 3
  have hlt : (t.y k).toNat < (g.y 3).toNat := by
    cases h.lone with
    | inl hlt =>
      rw [h.piece]
      exact hlt k hk
    | inr hno => exact absurd hfull (hno k hk)
  have hlone : ∀ j, j ≠ 3 → (g.y j).toNat < (g.y 3).toNat :=
    h.lone.resolve_right fun hno => hno k hk hfull
  refine ⟨h.toProgress.delete hk hfull, Or.inl hlone, ?_, ?_⟩
  · rw [← h.lastRow, board_deletedRow, Rows.read_of_lt _ (by omega : (g.y 3).toNat < 22),
      Rows.read_of_lt _ (by omega : (g.y 3).toNat < 22), deleteAt_below]
    exact hlt
  · have hlen : (t.y k).toNat < (lines t).length := by simp only [lines, List.length_ofFn]; omega
    have htake : (t.y k).toNat < ((lines t).take (g.y 3).toNat).length := by
      rw [List.length_take]
      omega
    rw [← h.above, lines_deletedRow hrow, take_deleteRow blankLine _ hlt]
    refine slide_deleteRow (by decide) htake ?_
    rw [List.getElem_take]
    exact (fullLine_iff t hlen).2 hfull

theorem Missing.skip {g t : Regs} {k : Fin 4} (h : Missing g k t) (hk : k ≠ 3)
    (hfull : ¬ FullAt t.coordStatic (t.y k).toNat) (i : Input) : Missing g (k + 1) (step t i) := by
  have hprogress := h.toProgress.skip hk hfull i
  rw [step_skip h.sweep.pass hk hfull] at hprogress ⊢
  exact ⟨hprogress, h.lone, h.lastRow, h.above⟩

theorem board_midPass (k : Fin 4) (m : Nat) (stage : Fin 5) {t : Regs} {j : Fin 22}
    (hj : j.val = (t.y k).toNat) :
    board (midPass k m stage t) =
      partShift (t.y k).toNat m ((board t).write (t.y k).toNat (emptyRow, t.colorStatic j)) := by
  have hwrite (i : Fin 22) : ((board t).write (t.y k).toNat (emptyRow, t.colorStatic j)) i =
      ((t.coordStatic.write (t.y k).toNat emptyRow) i, t.colorStatic i) := by
    simp only [Rows.write_apply]
    split_ifs with hi
    · obtain rfl : i = j := Fin.ext (hi.trans hj.symm)
      rfl
    · rfl
  funext i
  induction i using Fin.cases with
  | zero =>
    rw [partShift_zero, hwrite]
    rfl
  | succ n =>
    simp only [board, midPass, partShift_succ, hwrite]
    split_ifs <;> rfl

theorem Sweep.deleted_settled {t : Regs} (h : Sweep 3 t) : Settled (deletedRow 3 t) := by
  intro r hr hfull
  change FullAt (deleteAt _ emptyRow t.coordStatic) r at hfull
  rw [fullAt_deleteAt hr] at hfull
  split_ifs at hfull with hle
  · have hrow := h.eq_last (by omega : r - 1 ≤ 20) hfull.2
    omega
  · have hrow := h.eq_last hr hfull
    omega

theorem lines_inj {g t : Regs} :
    lines g = lines t ↔ ∀ i : Fin 21, board g i.castSucc = board t i.castSucc := by
  unfold lines
  rw [List.ofFn_inj]
  exact funext_iff

def BlankAbove (g : Regs) : Prop :=
  17 ≤ (g.y 3).toNat ∧
    ∀ n < 17, (slide fullLine blankLine ((lines g).take (g.y 3).toNat))[n]? = some blankLine

theorem Missing.blankAbove_iff {g t : Regs} (h : Missing g 3 t) :
    BlankAbove g ↔ 17 ≤ (g.y 3).toNat ∧ ∀ i : Fin 22, i.val < 17 → board t i = blankLine := by
  refine and_congr_right fun h17 => ?_
  have hlast : (g.y 3).toNat ≤ 20 := by
    rw [← h.piece]
    exact h.sweep.row 3
  have hlen : (lines t).length = 21 := List.length_ofFn
  have habove : slide fullLine blankLine ((lines g).take (g.y 3).toNat) =
      (lines t).take (g.y 3).toNat := by
    rw [← h.above]
    refine slide_of_none _ _ fun l hl => ?_
    obtain ⟨n, hn, rfl⟩ := List.getElem_of_mem hl
    rw [List.length_take] at hn
    rw [Bool.eq_false_iff, List.getElem_take]
    intro hfull
    have hrow := h.sweep.eq_last (by omega) ((fullLine_iff t (by omega)).1 hfull)
    rw [h.piece] at hrow
    omega
  have hrow (n : Nat) (hn : n < 17) :
      ((lines t).take (g.y 3).toNat)[n]? = some (board t ⟨n, by omega⟩) := by
    rw [List.getElem?_take_of_lt (by omega), List.getElem?_eq_getElem (by omega), lines_getElem]
  rw [habove]
  constructor
  · intro hall i hi
    have hi' := hall i.val hi
    rwa [hrow i.val hi, Option.some.injEq] at hi'
  · intro hall n hn
    rw [hrow n hn, hall _ hn]

/-- The single step the fourth pass makes at a full row is right only under blank rows. -/
theorem Missing.last {g t : Regs} (h : Missing g 3 t) (hfull : FullAt t.coordStatic (t.y 3).toNat)
    (hcolour : ∀ j : Fin 22, (g.y 3).toNat = j.val → g.colorStatic j ≠ blackRow) (i : Input) :
    Slid g (step t i) ↔ BlankAbove g := by
  have hy : (t.y 3).toNat = (g.y 3).toNat := by rw [h.piece]
  have hlast := h.sweep.row 3
  obtain ⟨j, hj⟩ : ∃ j : Fin 22, j.val = (t.y 3).toNat := ⟨⟨(t.y 3).toNat, by omega⟩, rfl⟩
  have hblack : (emptyRow, t.colorStatic j) ≠ blankLine := by
    intro he
    have hread := h.lastRow
    rw [← hy, ← hj, Rows.read_val, Rows.read_val, Option.some.injEq] at hread
    exact hcolour j (by omega) ((congrArg Prod.snd hread).symm.trans (congrArg Prod.snd he))
  have hstep : board (step t i) = board (midPass 3 16 0 t) := by
    rw [h.sweep.step_fourth, if_pos hfull]
    rfl
  have hfloor : board (step t i) 21 = board g 21 := by
    have hne : 21 ≠ (t.y 3).toNat := by omega
    rw [hstep, board_midPass 3 16 0 hj, partShift_floor hlast, Rows.write_apply]
    exact (if_neg hne).trans h.floor
  have hslides : slide fullLine blankLine (lines g) = lines (deletedRow 3 t) := by
    rw [← h.slides, ← slide_deletedRow hlast hfull, slide_of_settled h.sweep.deleted_settled]
  rw [Slid, h.blankAbove_iff, hslides, and_iff_left hfloor, lines_inj, hstep, board_midPass 3 16 0 hj,
    board_deletedRow, partShift_eq_deleteAt_iff hlast _ hblack, hy]

theorem Progress.last {g t : Regs} (h : Progress g 3 t)
    (hfull : ¬ FullAt t.coordStatic (t.y 3).toNat) (i : Input) :
    Slid g (step t i) := by
  have hsettled := h.sweep.settled i
  rw [h.sweep.step_fourth, if_neg hfull] at hsettled ⊢
  exact ⟨(slide_of_settled hsettled).symm.trans h.slides, h.floor⟩

theorem Landing.held {s : Shape} {g : Regs} (h : Landing s g) : Held s (locked g) :=
  held_of_interior (g := locked g) h.placed h.interior

theorem Landing.sweep {s : Shape} {g : Regs} (h : Landing s g) : Sweep 0 (locked g) :=
  Sweep.start rfl (locked_inWell h) h.ownRows

theorem Sweep.outlook_last {g : Regs} (h : Sweep 0 g) (hown : OwnRowsFull g) :
    outlook 0 g (level g 3) = true ↔ LastRowMissed g := by
  have hpiece := h.holds
  obtain ⟨s, -, hheld⟩ := id hpiece
  have hiff := finish_last_iff s g.rotateCounter (window g)
  rw [← hheld.level_eq] at hiff
  have hrow (k : Fin 4) := (level_row hpiece k).1
  have hlevel (k : Fin 4) : level g k ≠ level g 3 ↔ (g.y k).toNat ≠ (g.y 3).toNat := by
    have hk := hrow k
    have h3 := hrow 3
    rw [ne_eq, ne_eq, Fin.ext_iff]
    omega
  have hbelow : (level g 0).val = (level g 3).val + 1 ↔ (g.y 0).toNat = (g.y 3).toNat + 1 := by
    have h0 := hrow 0
    have h3 := hrow 3
    omega
  refine (hiff fun i hi => hown.window hpiece hi).trans ?_
  rw [window_level hpiece, window_level hpiece, hbelow]
  simp only [hlevel]
  rfl

theorem Landing.outlook_last {s : Shape} {g : Regs} (h : Landing s g) :
    outlook 0 (locked g) (level (locked g) 3) = true ↔ LastRowMissed (locked g) :=
  h.sweep.outlook_last h.ownRows

theorem Progress.full_last {g t : Regs} (h : Progress g 3 t) :
    FullAt t.coordStatic (t.y 3).toNat ↔ outlook 0 g (level g 3) = true := by
  have hlevel : level t = level g := by
    unfold level
    rw [h.piece]
  rw [← window_level h.sweep.holds, ← h.foreseen, hlevel]
  rfl

theorem Landing.missing {s : Shape} {g : Regs} (h : Landing s g) (hm : LastRowMissed (locked g)) :
    Missing (locked g) 0 (locked g) := by
  have hsweep := h.sweep
  have hheld := h.held
  obtain ⟨-, hne, hnot⟩ := hm
  have hlone := level_lone s (locked g).rotateCounter (window (locked g))
  rw [← hheld.level_eq] at hlone
  have hrow (k : Fin 4) := (level_row hsweep.holds k).1
  refine ⟨Progress.start hsweep, ?_, rfl, rfl⟩
  have h0 := hrow 0
  have h3 := hrow 3
  refine (hlone (fun k hk he => hne k hk ?_) fun hb => hnot ⟨?_, ?_⟩).imp ?_ ?_
  · have hk := hrow k
    rw [he] at hk
    omega
  · omega
  · exact (window_level hsweep.holds 0).1 hb.2
  · intro hlt j hj
    have hj' := hrow j
    have hval : (level (locked g) j).val < (level (locked g) 3).val := hlt j hj
    omega
  · intro hclear j hj hfull
    have hlevel := (window_level hsweep.holds j).2 hfull
    rw [hclear j hj] at hlevel
    cases hlevel

/-- Clearing is exact unless the row of cell 4 is missed and something but blank
rows lies above it. -/
theorem clearsExactly_iff {s : Shape} {g : Regs} (h : Landing s g) :
    ClearsExactly (locked g) ↔ (LastRowMissed (locked g) → BlankAbove (locked g)) := by
  by_cases hm : LastRowMissed (locked g)
  · have huntil : Until step (fun t => t.state = .newBlock)
        (fun t => Slid (locked g) t ↔ BlankAbove (locked g)) (locked g) := by
      refine Sweep.until (I := Missing (locked g)) (fun _ _ ht => ht.sweep)
        (fun _ _ hk ht hfull => ht.delete hk hfull) (fun _ _ i hk ht hfull => ht.skip hk hfull i)
        (fun t i ht => ht.last ?_ ?_ i) (h.missing hm)
      · exact ht.full_last.2 (h.outlook_last.2 hm)
      · exact fun j hj => locked_colour h 3 hj
    by_cases hblank : BlankAbove (locked g)
    · refine iff_of_true (fun f => ?_) fun _ => hblank
      obtain ⟨n, hn, hpost⟩ := huntil.stopsAt f
      exact ⟨n, hn, hpost.2 hblank⟩
    · refine iff_of_false (fun hex => ?_) fun hall => hblank (hall hm)
      have hnot : Until step (fun t => t.state = .newBlock) (fun t => ¬ Slid (locked g) t)
          (locked g) :=
        huntil.mono fun t ht (hpost : Slid (locked g) t) => hblank (ht.1 hpost)
      exact hnot.not_of_not (fun _ => {}) (hex fun _ => {})
  · have huntil : Until step (fun t => t.state = .newBlock) (Slid (locked g)) (locked g) := by
      refine Sweep.until (I := Progress (locked g)) (fun _ _ ht => ht.sweep)
        (fun _ _ hk ht hfull => ht.delete hk hfull) (fun _ _ i hk ht hfull => ht.skip hk hfull i)
        (fun t i ht => ht.last (fun hfull => ?_) i) (Progress.start h.sweep)
      exact hm (h.outlook_last.1 (ht.full_last.1 hfull))
    exact iff_of_true (fun f => huntil.stopsAt f) fun hm' => absurd hm' hm

/-- Row 16 full but for column 6, where a block of row 17 lies below the gap. -/
def gapBoard : Coord := fun i =>
  if i.val = 21 then fullRow
  else if i.val = 16 then 0b111110111111
  else if i.val = 17 then 0b100001000001
  else emptyRow

def painted (a : Coord) : Color := fun i j =>
  if i.val ≤ 20 ∧ 1 ≤ j.val ∧ j.val ≤ 10 ∧ (a i).getLsbD j.val then 1 else 0

/-- A J whose cell 4 fills the gap. -/
def jOverGap : Regs :=
  { resetRegs with
    x := ![4, 5, 6, 6]
    y := ![15, 15, 15, 16]
    state := .inter
    counter := 61
    currentShape := 0b010
    coordStatic := gapBoard
    colorStatic := painted gapBoard }

theorem jOverGap_landing : Landing .J jOverGap where
  frame := ⟨by decide, by decide, by decide⟩
  shape := rfl
  placed := by decide
  interior := by decide
  ownRows := by
    have h : ∀ r : Fin 21, FullAt (locked jOverGap).coordStatic r.val → r.val = 16 := by decide
    exact fun r hr hfull => ⟨3, (h ⟨r, by omega⟩ hfull).symm⟩
  top := by decide

theorem jOverGap_row_missed : ∃ (s : Shape) (g : Regs), Landing s g ∧ ¬ ClearsExactly (locked g) := by
  refine ⟨.J, jOverGap, jOverGap_landing, fun hex => ?_⟩
  obtain ⟨n, hn, hlines, -⟩ := hex fun _ => {}
  have hstop : StopsAt step (fun g => g.state = .newBlock) (fun _ => {}) (locked jOverGap) 4 :=
    ⟨by decide, by decide⟩
  obtain rfl := hn.unique step hstop
  revert hlines
  decide

theorem jOverGap_clearsExactly_iff : ClearsExactly (locked jOverGap) ↔
    (LastRowMissed (locked jOverGap) → BlankAbove (locked jOverGap)) :=
  clearsExactly_iff jOverGap_landing

end Tetris
