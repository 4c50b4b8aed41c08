import Tetris.Machine
import Tetris.Slide
import Mathlib.Algebra.BigOperators.Fin
import Mathlib.Algebra.BigOperators.Ring.Finset

/-! A game of falling blocks, for any shapes on a field of any size: the rules, and what
every game keeps. -/
namespace Blocks
open Machine Slide

abbrev Cell := Int × Int

abbrev Row (κ : Type*) (w : Nat) := Fin w → Option κ
abbrev Field (κ : Type*) (w h : Nat) := Fin h → Row κ w

variable {κ σ ω ι π : Type*} {w h : Nat}

def Open (f : Field κ w h) (c : Cell) : Prop :=
  ∃ (i : Fin h) (j : Fin w), (j.val : Int) = c.1 ∧ (i.val : Int) = c.2 ∧ f i j = none

def blankRow : Row κ w := fun _ => none

def blank : Field κ w h := fun _ => blankRow

def fullRow (r : Row κ w) : Bool := decide (∀ j, (r j).isSome = true)

def fullRows (f : Field κ w h) : Nat := (List.ofFn f).countP fullRow

section Paint
variable [Fintype ι]

instance (f : Field κ w h) (c : Cell) : Decidable (Open f c) :=
  inferInstanceAs (Decidable (∃ _, _))

def paint (f : Field κ w h) (cells : ι → Cell) (v : κ) : Field κ w h := fun i j =>
  if ∃ k, cells k = ((j.val : Int), (i.val : Int)) then some v else f i j

end Paint

/-- The full rows deleted, the others slid down. -/
def collapse (f : Field κ w h) : Field κ w h := slideRows fullRow blankRow f

structure Block (σ ω : Type*) where
  shape : σ
  orientation : ω
  pivot : Cell

/-- The shapes, made of cells `ι`, with their orientations and colours, and what it is
worth to delete `n` rows. -/
structure Kit (κ σ ω ι π : Type*) where
  offset : σ → ω → ι → Cell
  upright : ω
  turn : ω → ω
  spawn : σ → Cell
  colour : σ → κ
  reward : Nat → π

structure Game (κ σ ω π : Type*) (w h : Nat) where
  field : Field κ w h
  block : Option (Block σ ω)
  score : π

inductive Move (σ : Type*) where
  | left | right | turn
  | drop
  | clear
  | deal (s : σ)
  | restart
  deriving DecidableEq

section Rules
variable (K : Kit κ σ ω ι π)

def Kit.cells (b : Block σ ω) (k : ι) : Cell := b.pivot + K.offset b.shape b.orientation k

def Kit.Fits (f : Field κ w h) (b : Block σ ω) : Prop := ∀ k, Open f (K.cells b k)

def Block.moved (b : Block σ ω) (d : Cell) : Block σ ω := { b with pivot := b.pivot + d }

def Kit.turned (b : Block σ ω) : Block σ ω := { b with orientation := K.turn b.orientation }

def Kit.dealt (s : σ) : Block σ ω := ⟨s, K.upright, K.spawn s⟩

variable [Fintype ι]

instance (f : Field κ w h) (b : Block σ ω) : Decidable (K.Fits f b) :=
  inferInstanceAs (Decidable (∀ _, _))

def Kit.attempt (G : Game κ σ ω π w h) (b : Block σ ω) : Game κ σ ω π w h :=
  if K.Fits G.field b then { G with block := some b } else G

def Kit.lock (G : Game κ σ ω π w h) (b : Block σ ω) : Game κ σ ω π w h :=
  { G with
    field := paint G.field (K.cells b) (K.colour b.shape)
    block := none }

def Kit.play [AddMonoid π] (G : Game κ σ ω π w h) (m : Move σ) : Game κ σ ω π w h :=
  match m, G.block with
  | .left, some b => K.attempt G (b.moved (-1, 0))
  | .right, some b => K.attempt G (b.moved (1, 0))
  | .turn, some b => K.attempt G (K.turned b)
  | .drop, some b =>
    if K.Fits G.field (b.moved (0, 1)) then { G with block := some (b.moved (0, 1)) }
    else K.lock G b
  | .clear, none =>
    { G with
      field := collapse G.field
      score := G.score + K.reward (fullRows G.field) }
  | .deal s, none => { G with block := some (K.dealt s) }
  | .restart, _ => ⟨blank, none, 0⟩
  | _, _ => G

/-- What there is to see: the field, and the block in front of it. -/
def Kit.scene (G : Game κ σ ω π w h) : Field κ w h :=
  match G.block with
  | some b => paint G.field (K.cells b) (K.colour b.shape)
  | none => G.field

variable {K} {G : Game κ σ ω π w h} {b : Block σ ω}

theorem Kit.attempt_of_fits (hfits : K.Fits G.field b) :
    K.attempt G b = { G with block := some b } := if_pos hfits

theorem Kit.attempt_of_not_fits (hfits : ¬ K.Fits G.field b) : K.attempt G b = G := if_neg hfits

theorem Kit.drop_of_fits [AddMonoid π] (hb : G.block = some b)
    (hfits : K.Fits G.field (b.moved (0, 1))) :
    K.play G .drop = { G with block := some (b.moved (0, 1)) } := by
  simp only [Kit.play, hb, hfits, if_true]

theorem Kit.drop_of_not_fits [AddMonoid π] (hb : G.block = some b)
    (hfits : ¬ K.Fits G.field (b.moved (0, 1))) : K.play G .drop = K.lock G b := by
  simp only [Kit.play, hb, hfits, if_false]

end Rules

section Sound
variable (K : Kit κ σ ω ι π) [Fintype ι]

def Kit.Sound (G : Game κ σ ω π w h) : Prop := ∀ b, G.block = some b → K.Fits G.field b

def Kit.RoomToDeal (G : Game κ σ ω π w h) (m : Move σ) : Prop :=
  ∀ s, m = .deal s → K.Fits G.field (K.dealt s)

variable {K} {G : Game κ σ ω π w h}

theorem Kit.Sound.attempt (hs : K.Sound G) (b : Block σ ω) : K.Sound (K.attempt G b) := by
  unfold Kit.attempt
  split_ifs with hfits
  · intro b' hb'
    obtain rfl : b = b' := Option.some.inj hb'
    exact hfits
  · exact hs

theorem Kit.Sound.play [AddMonoid π] (hs : K.Sound G) {m : Move σ} (hroom : K.RoomToDeal G m) :
    K.Sound (K.play G m) := by
  unfold Kit.play
  split
  · exact hs.attempt _
  · exact hs.attempt _
  · exact hs.attempt _
  · split_ifs with hfits
    · intro b' hb'
      obtain rfl := Option.some.inj hb'
      exact hfits
    · exact fun b' hb' => nomatch hb'
  · next hnone => exact fun b' hb' => nomatch hnone.symm.trans hb'
  · next s hnone =>
    intro b' hb'
    obtain rfl := Option.some.inj hb'
    exact hroom s rfl
  · exact fun b' hb' => nomatch hb'
  · exact hs

theorem Kit.Sound.run [AddMonoid π] (hs : K.Sound G) {ms : List (Move σ)}
    (hms : Throughout K.play (K.RoomToDeal) G ms) : K.Sound (Machine.run K.play G ms) :=
  run_induction K.play (I := K.Sound) (fun _ _ hroom hG => hG.play hroom) hs ms hms

end Sound

def weight (r : Row κ w) : Nat := (Finset.univ.filter fun j => (r j).isSome = true).card

def filled (f : Field κ w h) : Nat := ∑ i, weight (f i)

theorem filled_eq_card (f : Field κ w h) :
    filled f = (Finset.univ.filter fun c : Fin h × Fin w => (f c.1 c.2).isSome = true).card := by
  rw [filled, Finset.card_filter, Fintype.sum_prod_type]
  exact Finset.sum_congr rfl fun i _ => Finset.card_filter _ _

theorem filled_blank : filled (blank : Field κ w h) = 0 := by
  rw [filled_eq_card, Finset.card_eq_zero, Finset.filter_eq_empty_iff]
  exact fun c _ => Bool.false_ne_true

theorem weight_full {r : Row κ w} (hr : fullRow r = true) : weight r = w := by
  have hall : ∀ j, (r j).isSome = true := of_decide_eq_true hr
  rw [weight, Finset.filter_true_of_mem fun j _ => hall j, Finset.card_fin]

theorem filled_collapse (f : Field κ w h) : filled (collapse f) + w * fullRows f = filled f := by
  have hsum (f : Field κ w h) : filled f = ((List.ofFn f).map weight).sum := by
    rw [List.map_ofFn, List.sum_ofFn]
    rfl
  have hblank : weight (blankRow : Row κ w) = 0 := by
    rw [weight, Finset.card_eq_zero, Finset.filter_eq_empty_iff]
    exact fun j _ => Bool.false_ne_true
  rw [hsum, hsum, collapse, ofFn_slideRows]
  exact sum_slide hblank (fun r hr => weight_full hr) (List.ofFn f)

theorem filled_paint [Fintype ι] {f : Field κ w h} {cells : ι → Cell} (hopen : ∀ k, Open f (cells k))
    (hinj : Function.Injective cells) (v : κ) :
    filled (paint f cells v) = filled f + Fintype.card ι := by
  choose row col hcol hrow hnone using hopen
  have hcell (k : ι) : cells k = (((col k).val : Int), ((row k).val : Int)) :=
    Prod.ext (hcol k).symm (hrow k).symm
  have hidx : Function.Injective fun k => (row k, col k) := by
    intro k l hkl
    obtain ⟨hr, hc⟩ := Prod.mk.inj hkl
    exact hinj (by rw [hcell, hcell, hr, hc])
  have hmem (c : Fin h × Fin w) :
      (paint f cells v c.1 c.2).isSome = true ↔ (f c.1 c.2).isSome = true ∨ ∃ k, (row k, col k) = c := by
    have hiff : (∃ k, cells k = ((c.2.val : Int), (c.1.val : Int))) ↔ ∃ k, (row k, col k) = c := by
      refine exists_congr fun k => ?_
      rw [hcell, Prod.mk.injEq, Prod.ext_iff, Nat.cast_inj, Nat.cast_inj, ← Fin.ext_iff, ← Fin.ext_iff]
      exact And.comm
    unfold paint
    rw [← hiff]
    split_ifs with hk
    · exact iff_of_true rfl (Or.inr hk)
    · exact (or_iff_left hk).symm
  have hunion : (Finset.univ.filter fun c : Fin h × Fin w => (paint f cells v c.1 c.2).isSome = true) =
      (Finset.univ.filter fun c : Fin h × Fin w => (f c.1 c.2).isSome = true) ∪
        Finset.univ.image fun k => (row k, col k) := by
    ext c
    simp [hmem]
  have hdisjoint : Disjoint (Finset.univ.filter fun c : Fin h × Fin w => (f c.1 c.2).isSome = true)
      (Finset.univ.image fun k => (row k, col k)) := by
    rw [Finset.disjoint_right]
    intro c hc hsome
    obtain ⟨k, -, rfl⟩ := Finset.mem_image.1 hc
    have hfilled := (Finset.mem_filter.1 hsome).2
    dsimp only at hfilled
    rw [hnone k] at hfilled
    cases hfilled
  rw [filled_eq_card, filled_eq_card, hunion, Finset.card_union_of_disjoint hdisjoint,
    Finset.card_image_of_injective _ hidx, Finset.card_univ]

section Balance
variable (K : Kit κ σ ω ι π) [Fintype ι]

def Kit.locks (G : Game κ σ ω π w h) (m : Move σ) : Nat :=
  match m, G.block with
  | .drop, some b => if K.Fits G.field (b.moved (0, 1)) then 0 else 1
  | _, _ => 0

def deletes (G : Game κ σ ω π w h) (m : Move σ) : Nat :=
  match m, G.block with
  | .clear, none => fullRows G.field
  | _, _ => 0

variable {K} {G : Game κ σ ω π w h}

theorem locks_eq_zero {m : Move σ} (hm : m ≠ .drop) : K.locks G m = 0 := by
  unfold Kit.locks
  cases m with
  | drop => exact absurd rfl hm
  | _ => rfl

theorem deletes_eq_zero {m : Move σ} (hm : m ≠ .clear) : deletes G m = 0 := by
  unfold deletes
  cases m with
  | clear => exact absurd rfl hm
  | _ => rfl

theorem attempt_field (b : Block σ ω) : (K.attempt G b).field = G.field := by
  unfold Kit.attempt
  split_ifs <;> rfl

theorem filled_play [AddMonoid π] (hs : K.Sound G) (hinj : ∀ s o, Function.Injective (K.offset s o))
    {m : Move σ} (hm : m ≠ .restart) :
    filled (K.play G m).field + w * deletes G m = filled G.field + Fintype.card ι * K.locks G m := by
  unfold Kit.play deletes Kit.locks
  cases hb : G.block with
  | none =>
    cases m with
    | restart => exact absurd rfl hm
    | clear => exact filled_collapse G.field
    | _ => rfl
  | some b =>
    cases m with
    | restart => exact absurd rfl hm
    | left | right | turn => simp [attempt_field]
    | drop =>
      dsimp only
      split_ifs with hfits
      · rfl
      · have hcells : Function.Injective (K.cells b) := fun k l hkl =>
          hinj b.shape b.orientation (add_left_cancel hkl)
        change filled (paint G.field (K.cells b) _) + w * 0 = _
        rw [filled_paint (hs b hb) hcells, Nat.mul_zero, Nat.mul_one, Nat.add_zero]
    | _ => rfl

/-- The law of a whole game: what is locked is what came in with the blocks, less what
went out with the rows. -/
theorem filled_run [AddMonoid π] (hs : K.Sound G) (hinj : ∀ s o, Function.Injective (K.offset s o))
    {ms : List (Move σ)} (hms : Throughout K.play (fun G m => m ≠ .restart ∧ K.RoomToDeal G m) G ms) :
    filled (run K.play G ms).field + w * total K.play deletes G ms =
      filled G.field + Fintype.card ι * total K.play K.locks G ms := by
  induction ms generalizing G with
  | nil => rfl
  | cons m ms ih =>
    have hone := filled_play hs hinj hms.1.1
    have hrest := ih (hs.play hms.1.2) hms.2
    simp only [run_cons, total, Nat.mul_add]
    omega

def Kit.gain [AddMonoid π] (K : Kit κ σ ω ι π) (G : Game κ σ ω π w h) (m : Move σ) : π :=
  match m, G.block with
  | .clear, none => K.reward (fullRows G.field)
  | _, _ => 0

omit [Fintype ι] in
theorem gain_eq_zero [AddMonoid π] {m : Move σ} (hm : m ≠ .clear) : K.gain G m = 0 := by
  unfold Kit.gain
  cases m with
  | clear => exact absurd rfl hm
  | _ => rfl

theorem score_play [AddMonoid π] {m : Move σ} (hm : m ≠ .restart) :
    (K.play G m).score = G.score + K.gain G m := by
  have hattempt (b : Block σ ω) : (K.attempt G b).score = G.score + 0 := by
    unfold Kit.attempt
    split_ifs <;> exact (add_zero G.score).symm
  unfold Kit.play Kit.gain
  cases hb : G.block with
  | none =>
    cases m with
    | restart => exact absurd rfl hm
    | clear => rfl
    | _ => exact (add_zero G.score).symm
  | some b =>
    cases m with
    | restart => exact absurd rfl hm
    | left | right | turn => exact hattempt _
    | drop =>
      dsimp only
      split_ifs <;> exact (add_zero G.score).symm
    | _ => exact (add_zero G.score).symm

theorem score_run [AddMonoid π] {ms : List (Move σ)}
    (hms : Throughout K.play (fun _ m => m ≠ .restart) G ms) :
    (run K.play G ms).score = G.score + total K.play K.gain G ms := by
  induction ms generalizing G with
  | nil => exact (add_zero G.score).symm
  | cons m ms ih => rw [run_cons, ih hms.2, score_play hms.1, total, add_assoc]

end Balance

end Blocks
