import Mathlib.Algebra.GroupWithZero.Nat
import Mathlib.Data.List.OfFn

/-! Deleting the full rows of a stack and letting the others slide down. Row 0 is
the top; `blank` is the row that enters there. -/
namespace Slide
variable {α : Type*} (full : α → Bool) (blank : α)

/-- Delete every full row at once. -/
def slide (rows : List α) : List α :=
  List.replicate (rows.countP full) blank ++ rows.filter fun r => !full r

def deleteRow (k : Nat) (rows : List α) : List α := blank :: rows.eraseIdx k

theorem slide_of_none {rows : List α} (h : ∀ r ∈ rows, full r = false) :
    slide full blank rows = rows := by
  have hcount : rows.countP full = 0 := by simpa [List.countP_eq_zero] using h
  have hfilter : rows.filter (fun r => !full r) = rows := by simpa using h
  rw [slide, hcount, hfilter]
  rfl

theorem eraseIdx_split {rows : List α} {k : Nat} (hk : k < rows.length) :
    ∃ above below, rows = above ++ rows[k] :: below ∧ rows.eraseIdx k = above ++ below ∧
      above.length = k := by
  refine ⟨rows.take k, rows.drop (k + 1), ?_, List.eraseIdx_eq_take_drop_succ rows k, ?_⟩
  · simp
  · simp [hk.le]

theorem take_eraseIdx (rows : List α) {k n : Nat} (h : k ≤ n) :
    (rows.eraseIdx k).take n = (rows.take (n + 1)).eraseIdx k := by
  induction rows generalizing k n with
  | nil => simp
  | cons r rows ih =>
    cases k with
    | zero => simp
    | succ k =>
      obtain ⟨m, rfl⟩ : ∃ m, n = m + 1 := ⟨n - 1, by omega⟩
      have hm := ih (by omega : k ≤ m)
      simpa using hm

theorem take_deleteRow (rows : List α) {k n : Nat} (h : k < n) :
    (deleteRow blank k rows).take n = deleteRow blank k (rows.take n) := by
  obtain ⟨m, rfl⟩ : ∃ m, n = m + 1 := ⟨n - 1, by omega⟩
  rw [deleteRow, List.take_succ_cons, take_eraseIdx rows (by omega : k ≤ m), deleteRow]

variable {full blank}

theorem countP_deleteRow (hblank : full blank = false) {rows : List α} {k : Nat}
    (hk : k < rows.length) (hfull : full rows[k] = true) :
    (deleteRow blank k rows).countP full + 1 = rows.countP full := by
  obtain ⟨above, below, hrows, herase, -⟩ := eraseIdx_split hk
  rw [deleteRow, herase]
  conv_rhs => rw [hrows]
  simp only [List.countP_cons, List.countP_append, hblank, hfull, if_true]
  simp [Nat.add_assoc]

/-- Deleting one full row does not change what deleting all of them yields. -/
theorem slide_deleteRow (hblank : full blank = false) {rows : List α} {k : Nat}
    (hk : k < rows.length) (hfull : full rows[k] = true) :
    slide full blank (deleteRow blank k rows) = slide full blank rows := by
  obtain ⟨above, below, hrows, herase, -⟩ := eraseIdx_split hk
  rw [deleteRow, herase]
  conv_rhs => rw [hrows]
  have hcount : (above ++ rows[k] :: below).countP full = (above ++ below).countP full + 1 := by
    simp only [List.countP_append, List.countP_cons, hfull, if_true]
    omega
  have hfilter : (above ++ rows[k] :: below).filter (fun r => !full r) =
      (above ++ below).filter fun r => !full r := by
    simp [List.filter_append, hfull]
  simp only [slide, hcount, hfilter, List.replicate_succ', List.countP_cons, List.filter_cons,
    hblank, List.append_assoc]
  rfl

theorem length_slide (rows : List α) : (slide full blank rows).length = rows.length := by
  have hsum := List.length_eq_countP_add_countP (fun r => full r) (l := rows)
  have hnot : rows.countP (fun r => decide ¬ full r = true) = rows.countP fun r => !full r := by
    simp
  rw [slide, List.length_append, List.length_replicate, ← List.countP_eq_length_filter, ← hnot]
  exact hsum.symm

theorem slide_map {β : Type*} {full' : β → Bool} {f : α → β} {rows : List α}
    (h : ∀ r ∈ rows, full' (f r) = full r) :
    slide full' (f blank) (rows.map f) = (slide full blank rows).map f := by
  have hcount : (rows.map f).countP full' = rows.countP full := by
    rw [List.countP_map]
    exact List.countP_congr fun r hr => by simp [h r hr]
  have hfilter : (rows.map f).filter (fun r => !full' r) = (rows.filter fun r => !full r).map f := by
    rw [List.filter_map]
    exact congrArg (List.map f) (List.filter_congr fun r hr => by simp [h r hr])
  rw [slide, hcount, hfilter, slide, List.map_append, List.map_replicate]

theorem sum_slide {weight : α → Nat} {w : Nat} (hblank : weight blank = 0)
    (hfull : ∀ r, full r = true → weight r = w) (rows : List α) :
    ((slide full blank rows).map weight).sum + w * rows.countP full = (rows.map weight).sum := by
  have hkept : ((rows.filter fun r => !full r).map weight).sum + w * rows.countP full =
      (rows.map weight).sum := by
    induction rows with
    | nil => simp
    | cons r rows ih =>
      cases hr : full r with
      | true =>
        simp only [List.filter_cons, hr, Bool.not_true, Bool.false_eq_true, if_false,
          List.countP_cons_of_pos hr, Nat.mul_add, Nat.mul_one, List.map_cons, List.sum_cons, hfull r hr]
        omega
      | false =>
        simp only [List.filter_cons, hr, Bool.not_false, if_true, List.map_cons, List.sum_cons,
          List.countP_cons_of_neg (by simp [hr] : ¬ full r = true)]
        omega
  rw [slide, List.map_append, List.map_replicate, hblank, List.sum_append,
    List.sum_replicate_nat, Nat.mul_zero, Nat.zero_add]
  exact hkept

section Numbered
variable {n : Nat}

def slideRows (full : α → Bool) (blank : α) (rows : Fin n → α) : Fin n → α := fun i =>
  (slide full blank (List.ofFn rows)).get (i.cast (by rw [length_slide, List.length_ofFn]))

theorem ofFn_slideRows (rows : Fin n → α) :
    List.ofFn (slideRows full blank rows) = slide full blank (List.ofFn rows) := by
  refine List.ext_getElem ?_ fun i hi hi' => ?_
  · rw [List.length_ofFn, length_slide, List.length_ofFn]
  · rw [List.getElem_ofFn]
    rfl

end Numbered

end Slide
