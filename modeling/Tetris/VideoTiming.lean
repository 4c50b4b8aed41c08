import Tetris.Raster
import Mathlib.Data.BitVec

/-! The VGA controller: two counters that scan the screen, and the sync signals, one
of which clocks the game. -/
namespace Tetris
open Raster

/-- The registers clocked by `VGA_CLK`. `DrawX` and `DrawY` are the counters. -/
structure VgaController where
  hs : Bool
  vs : Bool
  blankN : Bool
  hCounter : BitVec 10
  vCounter : BitVec 10
  deriving DecidableEq

def vgaReset : VgaController where
  hs := false
  vs := false
  blankN := false
  hCounter := 0
  vCounter := 0

def hTotal : BitVec 10 := 800
def vTotal : BitVec 10 := 525

def hCounterIn (r : VgaController) : BitVec 10 :=
  if r.hCounter + 1 = hTotal then 0 else r.hCounter + 1

def vCounterIn (r : VgaController) : BitVec 10 :=
  if r.hCounter + 1 = hTotal then
    if r.vCounter + 1 = vTotal then 0 else r.vCounter + 1
  else r.vCounter

def hsIn (h : BitVec 10) : Bool := if h ≥ 656 ∧ h < 752 then false else true
def vsIn (v : BitVec 10) : Bool := if v ≥ 490 ∧ v < 492 then false else true
def blankNIn (h v : BitVec 10) : Bool := if h < 640 ∧ v < 480 then true else false

/-- One rising edge of `VGA_CLK` with `Reset` low; the outputs are computed from the
counters to come. -/
def clock (r : VgaController) : VgaController where
  hs := hsIn (hCounterIn r)
  vs := vsIn (vCounterIn r)
  blankN := blankNIn (hCounterIn r) (vCounterIn r)
  hCounter := hCounterIn r
  vCounter := vCounterIn r

def edges (n : Nat) : VgaController := clock^[n] vgaReset

theorem edges_succ (n : Nat) : edges (n + 1) = clock (edges n) :=
  Function.iterate_succ_apply' clock n vgaReset

def VgaController.draw (r : VgaController) : Nat × Nat := (r.hCounter.toNat, r.vCounter.toNat)

theorem counter_succ {c : BitVec 10} (total : BitVec 10) (h : c.toNat < total.toNat) :
    (if c + 1 = total then 0 else c + 1).toNat =
      if c.toNat + 1 = total.toNat then 0 else c.toNat + 1 := by
  have htotal := total.isLt
  have hsucc : (c + 1).toNat = c.toNat + 1 := by bv_omega
  have hlast : c + 1 = total ↔ c.toNat + 1 = total.toNat := by
    rw [← BitVec.toNat_inj, hsucc]
  by_cases hend : c.toNat + 1 = total.toNat
  · rw [if_pos hend, if_pos (hlast.2 hend)]
    rfl
  · rw [if_neg hend, if_neg fun he => hend (hlast.1 he), hsucc]

theorem clock_draw {r : VgaController} (hx : r.hCounter.toNat < 800) (hy : r.vCounter.toNat < 525) :
    (clock r).draw = next 800 525 r.draw := by
  have hcol : (hCounterIn r).toNat = _ := counter_succ hTotal hx
  have hline := counter_succ vTotal hy
  have hend : r.hCounter + 1 = hTotal ↔ r.hCounter.toNat + 1 = 800 := by
    unfold hTotal
    bv_omega
  change ((hCounterIn r).toNat, (vCounterIn r).toNat) = next 800 525 (r.hCounter.toNat, r.vCounter.toNat)
  unfold next vCounterIn
  by_cases hlast : r.hCounter.toNat + 1 = 800
  · rw [if_pos hlast, if_pos (hend.2 hlast), hline, hcol]
    exact congrArg (·, _) (if_pos hlast)
  · rw [if_neg hlast, if_neg fun he => hlast (hend.1 he), hcol]
    exact congrArg (·, _) (if_neg hlast)

theorem edges_draw (n : Nat) : (edges n).draw = pos 800 525 n := by
  induction n with
  | zero => rfl
  | succ n ih =>
    have hx : (edges n).hCounter.toNat = n % 800 := congrArg Prod.fst ih
    have hy : (edges n).vCounter.toNat = n / 800 % 525 := congrArg Prod.snd ih
    rw [edges_succ, clock_draw (by omega) (by omega), ih, next_pos (by decide) (by decide)]

theorem hsIn_iff (h : BitVec 10) : hsIn h = false ↔ 656 ≤ h.toNat ∧ h.toNat < 752 := by
  unfold hsIn
  split_ifs with hc
  · exact iff_of_true rfl ⟨BitVec.le_def.1 hc.1, BitVec.lt_def.1 hc.2⟩
  · exact iff_of_false (by simp) fun hn => hc ⟨BitVec.le_def.2 hn.1, BitVec.lt_def.2 hn.2⟩

theorem vsIn_iff (v : BitVec 10) : vsIn v = false ↔ v.toNat = 490 ∨ v.toNat = 491 := by
  have hrange : v ≥ 490 ∧ v < 492 ↔ v.toNat = 490 ∨ v.toNat = 491 := by
    rw [ge_iff_le, BitVec.le_def, BitVec.lt_def]
    change 490 ≤ v.toNat ∧ v.toNat < 492 ↔ _
    omega
  unfold vsIn
  rw [← hrange]
  split_ifs with hc
  · exact iff_of_true rfl hc
  · exact iff_of_false (by simp) hc

theorem blankNIn_iff (h v : BitVec 10) : blankNIn h v = true ↔ h.toNat < 640 ∧ v.toNat < 480 := by
  unfold blankNIn
  split_ifs with hc
  · exact iff_of_true rfl ⟨BitVec.lt_def.1 hc.1, BitVec.lt_def.1 hc.2⟩
  · exact iff_of_false (by simp) fun hn => hc ⟨BitVec.lt_def.2 hn.1, BitVec.lt_def.2 hn.2⟩

theorem edges_closed {n : Nat} (hn : 1 ≤ n) :
    let r := edges n
    let x := n % 800
    let y := n / 800 % 525
    r.hCounter.toNat = x ∧ r.vCounter.toNat = y ∧ (r.hs = false ↔ 656 ≤ x ∧ x < 752) ∧
      (r.vs = false ↔ y = 490 ∨ y = 491) ∧ (r.blankN = true ↔ x < 640 ∧ y < 480) := by
  intro r x y
  have hx : r.hCounter.toNat = x := congrArg Prod.fst (edges_draw n)
  have hy : r.vCounter.toNat = y := congrArg Prod.snd (edges_draw n)
  obtain ⟨m, rfl⟩ : ∃ m, n = m + 1 := ⟨n - 1, by omega⟩
  have hr : r = clock (edges m) := edges_succ m
  have hhs : r.hs = hsIn r.hCounter := by rw [hr]; rfl
  have hvs : r.vs = vsIn r.vCounter := by rw [hr]; rfl
  have hblank : r.blankN = blankNIn r.hCounter r.vCounter := by rw [hr]; rfl
  rw [hhs, hvs, hblank, hsIn_iff, vsIn_iff, blankNIn_iff, hx, hy]
  exact ⟨rfl, rfl, Iff.rfl, Iff.rfl, Iff.rfl⟩

/-- `VGA_VS` rises at edge `n + 1`. -/
def Rises (n : Nat) : Prop := (edges n).vs = false ∧ (edges (n + 1)).vs = true

theorem rises_iff {n : Nat} (hn : 1 ≤ n) : Rises n ↔ pos 800 525 n = (799, 491) := by
  obtain ⟨-, -, -, hvs, -⟩ := edges_closed hn
  obtain ⟨-, -, -, hvs', -⟩ := edges_closed (by omega : 1 ≤ n + 1)
  unfold Rises
  rw [hvs, ← Bool.not_eq_false, hvs', pos, Prod.mk.injEq]
  omega

/-- Counters and sync signals have a closed form; once in a frame, and in vertical
blanking, `VGA_VS` rises. -/
theorem video_timing :
    (∀ n : Nat, 1 ≤ n →
      let r := edges n
      let x := n % 800
      let y := n / 800 % 525
      r.hCounter.toNat = x ∧ r.vCounter.toNat = y ∧ (r.hs = false ↔ 656 ≤ x ∧ x < 752) ∧
        (r.vs = false ↔ y = 490 ∨ y = 491) ∧ (r.blankN = true ↔ x < 640 ∧ y < 480)) ∧
      (∀ m : Nat, 1 ≤ m → ∃! n, (m ≤ n ∧ n < m + 420000) ∧ Rises n) ∧
      ∀ n : Nat, 1 ≤ n → Rises n →
        let r := edges (n + 1)
        r.hCounter.toNat = 0 ∧ r.vCounter.toNat = 492 ∧ r.blankN = false := by
  refine ⟨fun n hn => edges_closed hn, fun m hm => ?_, fun n hn hrise => ?_⟩
  · obtain ⟨n, ⟨hwindow, hat⟩, huniq⟩ := existsUnique_pos (by decide : 799 < 800)
      (by decide : 491 < 525) m
    refine ⟨n, ⟨hwindow, (rises_iff (by omega)).2 hat⟩, fun n' hn' => ?_⟩
    have hge := hn'.1.1
    exact huniq n' ⟨hn'.1, (rises_iff (by omega)).1 hn'.2⟩
  · intro r
    have hat := (rises_iff hn).1 hrise
    have hnext : (edges (n + 1)).draw = (0, 492) := by
      rw [edges_draw, ← next_pos (by decide) (by decide), hat]
      rfl
    have hx : r.hCounter.toNat = 0 := congrArg Prod.fst hnext
    have hy : r.vCounter.toNat = 492 := congrArg Prod.snd hnext
    obtain ⟨hx', hy', -, -, hblank⟩ := edges_closed (by omega : 1 ≤ n + 1)
    refine ⟨hx, hy, ?_⟩
    rw [← Bool.not_eq_true, hblank, ← hy', hy]
    omega

end Tetris
