import Tetris.Handshake
import Tetris.Unattended

/-! The game and the software that feeds it, for ever: what the two owe each other so
that the game goes on. -/
namespace Tetris
open Machine

instance : Nonempty Input := ⟨{}⟩

/-- Frames and polls never end, in whatever order they come, and the game is not reset. -/
structure Served (ev : Nat → Event) : Prop where
  reset : ∀ n, ev n ≠ .gameReset
  ticks : ∀ n, ∃ m, n ≤ m ∧ ∃ keys, ev m = .tick keys
  polls : ∀ n, ∃ m, n ≤ m ∧ ∃ rand, ev m = .poll rand

/-- What the player does at the keyboard ends each wait but for that for a shape. -/
def Released (s : Sys) (ev : Nat → Event) : Prop :=
  ∀ n, ∃ m keys, n ≤ m ∧ ev m = .tick keys ∧
    ((after sysStep ev s n).game.state = .beforeNew ∨ goesOn (after sysStep ev s n).game.state keys = true)

def sample (s : Sys) : Event → Option Input
  | .tick keys => some (s.input keys)
  | _ => none

noncomputable def frames (s : Sys) (ev : Nat → Event) : Nat → Input := moves sysStep sample ev s

theorem frames_simulate :
    Simulates sysStep step sample Sys.game (fun _ e => e ≠ .gameReset) (fun _ => True) := by
  intro s e hno _
  refine ⟨trivial, ?_⟩
  cases e with
  | tick keys => rfl
  | poll rand =>
    unfold sysStep poll
    dsimp only
    split_ifs <;> rfl
  | gameReset => exact absurd rfl hno

theorem sample_eq_some {s : Sys} {e : Event} {i : Input} (h : sample s e = some i) :
    ∃ keys, e = .tick keys ∧ i = s.input keys := by
  cases e with
  | tick keys => exact ⟨keys, rfl, (Option.some.inj h).symm⟩
  | poll rand => cases h
  | gameReset => cases h

section Run
variable {s : Sys} {ev : Nat → Event} (hserved : Served ev)
include hserved

theorem frames_infinite : (Set.ofPred (Acts sysStep sample ev s)).Infinite := by
  refine Set.infinite_of_forall_exists_gt fun n => ?_
  obtain ⟨m, hm, keys, htick⟩ := hserved.ticks (n + 1)
  exact ⟨m, by rw [Set.mem_ofPred_eq, Acts, htick]; rfl, hm⟩

theorem game_at (n : Nat) : (after sysStep ev s n).game =
    after step (frames s ev) s.game (Nat.count (Acts sysStep sample ev s) n) :=
  frames_simulate.after_count trivial hserved.reset n

theorem game_at_frame (j : Nat) :
    (after sysStep ev s (Nat.nth (Acts sysStep sample ev s) j)).game = after step (frames s ev) s.game j :=
  frames_simulate.after_nth trivial hserved.reset (frames_infinite hserved) j

theorem frame_of_tick {j m : Nat} (hm : Nat.nth (Acts sysStep sample ev s) j ≤ m) {keys : Input}
    (htick : ev m = .tick keys) : ∃ k, j ≤ k ∧ frames s ev k = (after sysStep ev s m).input keys :=
  exists_moves (frames_infinite hserved) hm (by rw [htick]; rfl)

theorem tick_of_frame (j : Nat) : ∃ keys, ev (Nat.nth (Acts sysStep sample ev s) j) = .tick keys ∧
    frames s ev j = (after sysStep ev s (Nat.nth (Acts sysStep sample ev s) j)).input keys :=
  sample_eq_some (moves_spec (frames_infinite hserved) j)

theorem waits_until_seen {n : Nat} (hst : (after sysStep ev s n).game.state = .beforeNew) (d : Nat) :
    (∃ m keys, n ≤ m ∧ ev m = .tick keys ∧ (after sysStep ev s m).ready = true) ∨
      ((after sysStep ev s (n + d)).game.state = .beforeNew ∧
        ((after sysStep ev s n).ready = true → (after sysStep ev s (n + d)).ready = true)) := by
  induction d with
  | zero => exact Or.inr ⟨hst, id⟩
  | succ d ih =>
    refine ih.elim Or.inl fun ⟨hwait, hready⟩ => ?_
    generalize ht : after sysStep ev s (n + d) = t at hwait hready
    have hnext : after sysStep ev s (n + (d + 1)) = sysStep t (ev (n + d)) := by
      rw [← ht]
      rfl
    rw [hnext]
    cases he : ev (n + d) with
    | tick keys =>
      cases hr : t.ready with
      | true => exact Or.inl ⟨n + d, keys, Nat.le_add_right n d, he, by rw [ht, hr]⟩
      | false =>
        have hstay := beforeNew_tick hwait keys
        rw [hr] at hstay
        refine Or.inr ⟨hstay, fun hold => ?_⟩
        exact absurd (hr.symm.trans (hready hold)) Bool.false_ne_true
    | poll rand =>
      have hsig : toSwSig t.game = true := toSwSig_eq_true.2 (Or.inr hwait)
      right
      simp only [sysStep, poll, hsig, if_true]
      exact ⟨hwait, fun _ => trivial⟩
    | gameReset => exact absurd he (hserved.reset _)

omit hserved in
theorem poll_answers {n : Nat} (hst : (after sysStep ev s n).game.state = .beforeNew) {rand : Nat}
    (he : ev n = .poll rand) :
    (after sysStep ev s (n + 1)).game.state = .beforeNew ∧ (after sysStep ev s (n + 1)).ready = true := by
  have hsig : toSwSig (after sysStep ev s n).game = true := toSwSig_eq_true.2 (Or.inr hst)
  change (sysStep (after sysStep ev s n) (ev n)).game.state = _ ∧ (sysStep _ (ev n)).ready = true
  rw [he]
  simp only [sysStep, poll, hsig, if_true]
  exact ⟨hst, trivial⟩

/-- A request is polled, and the answer stays until a frame sees it. -/
theorem answer_seen {n : Nat} (hst : (after sysStep ev s n).game.state = .beforeNew) :
    ∃ m keys, n ≤ m ∧ ev m = .tick keys ∧ (after sysStep ev s m).ready = true := by
  obtain ⟨p, hp, rand, hpoll⟩ := hserved.polls n
  have hwait := waits_until_seen hserved hst (p - n)
  rw [Nat.add_sub_cancel' hp] at hwait
  refine hwait.elim id fun hstays => ?_
  obtain ⟨hst', hready⟩ := poll_answers hstays.1 hpoll
  obtain ⟨t, ht, keys, htick⟩ := hserved.ticks (p + 1)
  have hlast := waits_until_seen hserved hst' (t - (p + 1))
  rw [Nat.add_sub_cancel' ht] at hlast
  rcases hlast with ⟨m, keys', hm, hseen⟩ | ⟨-, hkept⟩
  · exact ⟨m, keys', by omega, hseen⟩
  · exact ⟨t, keys, by omega, htick, hkept hready⟩

theorem served_attended (hreleased : Released s ev) : Attended s.game (frames s ev) := by
  intro j
  rw [← game_at_frame hserved]
  by_cases hst : (after sysStep ev s (Nat.nth (Acts sysStep sample ev s) j)).game.state = .beforeNew
  · obtain ⟨m, keys, hm, htick, hready⟩ := answer_seen hserved hst
    obtain ⟨k, hk, hframe⟩ := frame_of_tick (s := s) hserved hm htick
    refine ⟨k, hk, ?_⟩
    rw [hst, hframe]
    exact hready
  · obtain ⟨m, keys, hm, htick, hgo⟩ := hreleased (Nat.nth (Acts sysStep sample ev s) j)
    obtain ⟨k, hk, hframe⟩ := frame_of_tick (s := s) hserved hm htick
    refine ⟨k, hk, ?_⟩
    have hgo' := hgo.resolve_left hst
    rw [hframe]
    generalize (after sysStep ev s (Nat.nth (Acts sysStep sample ev s) j)).game.state = st at hst hgo'
    cases st <;> first | exact absurd rfl hst | exact hgo'

end Run

section Main
variable {s : Sys} {ev : Nat → Event} (hserved : Served ev) (hreleased : Released s ev)
include hserved hreleased

/-- The game with its software never hangs: if frames and polls never end, keys are released,
pauses resumed and the game is not paused again and again, each piece is locked sooner or
later, and there is always another lock or the end of the game to come. -/
theorem system_never_hangs (h : Reachable step resetRegs s.game) (hst : s.game.state ≠ .start)
    (hquiet : ∃ N, ∀ n, N ≤ n → ∀ keys, ev n = .tick keys → keys.pause = false) (n : Nat) :
    ((after sysStep ev s n).game.currentShape ≠ 0 → ∃ m, n ≤ m ∧ Locks (after sysStep ev s m).game) ∧
      ∃ m, n ≤ m ∧ (Locks (after sysStep ev s m).game ∨ (after sysStep ev s m).game.state = .gameOver) := by
  have hinf := frames_infinite (s := s) hserved
  have hframes : ∃ N, ∀ j, N ≤ j → (frames s ev j).pause = false := by
    obtain ⟨N, hN⟩ := hquiet
    refine ⟨N, fun j hj => ?_⟩
    obtain ⟨keys, hkeys, hframe⟩ := tick_of_frame (s := s) hserved j
    rw [hframe]
    exact hN _ (hj.trans (Nat.nth_strictMono hinf).le_apply) keys hkeys
  have hattended := served_attended hserved hreleased
  have hback (m : Nat) (hm : Nat.count (Acts sysStep sample ev s) n ≤ m) :
      n ≤ Nat.nth (Acts sysStep sample ev s) m :=
    (Nat.le_nth_count hinf n).trans (Nat.nth_monotone hinf hm)
  refine ⟨fun hne => ?_, ?_⟩
  · rw [game_at hserved] at hne
    obtain ⟨m, hm, hlock⟩ := piece_is_locked h hst hattended hframes _ hne
    rw [← game_at_frame hserved] at hlock
    exact ⟨_, hback m hm, hlock⟩
  · obtain ⟨m, hm, hend⟩ := lock_or_end_to_come h hst hattended hframes (Nat.count (Acts sysStep sample ev s) n)
    rw [← game_at_frame hserved] at hend
    exact ⟨_, hback m hm, hend⟩

end Main

/-- Frames and polls in turn, with the same keys held all along. -/
def inTurn (keys : Input) (n : Nat) : Event := if n % 2 = 0 then .tick keys else .poll n

theorem inTurn_tick {keys keys' : Input} {n : Nat} (h : inTurn keys n = .tick keys') : keys = keys' := by
  unfold inTurn at h
  split_ifs at h
  exact Event.tick.inj h

theorem inTurn_served (keys : Input) : Served (inTurn keys) where
  reset n := by
    unfold inTurn
    split_ifs <;> simp
  ticks n := ⟨2 * n, by omega, keys, if_pos (by omega)⟩
  polls n := ⟨2 * n + 1, by omega, 2 * n + 1, if_neg (by omega)⟩

theorem inTurn_released (s : Sys) : Released s (inTurn handsOff) := fun n =>
  ⟨2 * n, handsOff, by omega, if_pos (by omega), Or.inr (goesOn_handsOff _)⟩

theorem inTurn_never_hangs :
    let s := { powerOn with game := step resetRegs { enter := true } }
    ((after sysStep (inTurn handsOff) s 3).game.currentShape ≠ 0 →
        ∃ m, 3 ≤ m ∧ Locks (after sysStep (inTurn handsOff) s m).game) ∧
      ∃ m, 3 ≤ m ∧ (Locks (after sysStep (inTurn handsOff) s m).game ∨
        (after sysStep (inTurn handsOff) s m).game.state = .gameOver) :=
  system_never_hangs (inTurn_served _) (inTurn_released _) ⟨[{ enter := true }], rfl⟩ (by decide)
    ⟨0, fun _ _ _ h => by rw [← inTurn_tick h]; rfl⟩ 3

theorem goesOn_of_direct {st : State} (h : st.direct) (hst : st ≠ .beforeNew) (keys : Input) :
    goesOn st keys = true := by
  cases st <;> first | rfl | exact absurd rfl hst | exact h.elim

theorem untouched_system_ends {s : Sys} {ev : Nat → Event} (hserved : Served ev) (h : Restarted s.game)
    (hkeys : ∀ n keys, ev n = .tick keys → Untouched keys) :
    ∃ n, (after sysStep ev s n).game.state = .gameOver ∧ (after sysStep ev s n).game.currentScore = 0 := by
  have hframes (j : Nat) : Untouched (frames s ev j) := by
    obtain ⟨keys, htick, hframe⟩ := tick_of_frame (s := s) hserved j
    rw [hframe]
    exact hkeys _ keys htick
  have hends : ∃ j, (after step (frames s ev) s.game j).state = .gameOver := by
    by_contra hno
    have hnever := not_exists.1 hno
    have hreleased : Released s ev := by
      intro n
      obtain ⟨m, hm, keys, htick⟩ := hserved.ticks n
      refine ⟨m, keys, hm, htick, or_iff_not_imp_left.2 fun hst => goesOn_of_direct ?_ hst keys⟩
      rw [game_at hserved]
      exact (piled_until h hframes fun k _ => hnever k).path
    obtain ⟨j, hj⟩ := untouched_is_over h hframes (served_attended hserved hreleased)
    exact hnever j hj
  refine ⟨Nat.nth (Acts sysStep sample ev s) (Nat.find hends), ?_⟩
  rw [game_at_frame hserved]
  exact ⟨Nat.find_spec hends, (piled_until h hframes fun m hm => Nat.find_min hends hm).score⟩

end Tetris
