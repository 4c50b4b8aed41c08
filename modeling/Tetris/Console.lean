import Tetris.Stages
import Tetris.Service

/-! Everything together: the USB controller, `main`, and the game, which samples the keycode
that `main` has shown last. -/
namespace Tetris
open Machine

structure Console where
  usb : Stage
  sys : Sys

inductive ConsoleEvent where
  | usb (e : StageEvent)
  | tick
  | gameReset
  deriving DecidableEq

def Stage.polls : Stage → StageEvent → Option Event
  | .loop s _, .loop (.answer rand) => if s.label = .random then some (.poll rand) else none
  | _, _ => none

/-- What the game and its handshake with the software see of an event. -/
def Console.sees (c : Console) : ConsoleEvent → Option Event
  | .usb e => c.usb.polls e
  | .tick => some (.tick (keycodeReader c.usb.keycode))
  | .gameReset => some .gameReset

def Console.step (c : Console) (e : ConsoleEvent) : Console where
  usb :=
    match e with
    | .usb e => c.usb.step e
    | _ => c.usb
  sys := (c.sees e).elim c.sys (sysStep c.sys)

def Console.Careful (c : Console) : ConsoleEvent → Prop
  | .usb e => c.usb.Careful e
  | _ => True

instance (c : Console) (e : ConsoleEvent) : Decidable (c.Careful e) :=
  match e with
  | .usb e => inferInstanceAs (Decidable (c.usb.Careful e))
  | .tick | .gameReset => .isTrue trivial

def switchedOn (hpi : Hpi) (sie1Msg : Bool) (lists : Nat) (usbCtlVal : BitVec 16) (dataSize : BitVec 8)
    (sys : Sys) : Console :=
  ⟨mainStart hpi sie1Msg lists usbCtlVal dataSize, sys⟩

theorem console_simulates :
    Simulates Console.step sysStep Console.sees Console.sys (fun _ _ => True) (fun _ => True) :=
  fun _ _ _ _ => ⟨trivial, rfl⟩

theorem Polling.arrived_access (s : Polling) : s.access.arrived = s.arrived := by
  cases htodo : s.todo with
  | cons io rest =>
    rw [access_cons htodo]
    cases io <;> rfl
  | nil =>
    unfold Polling.access
    rw [htodo]
    dsimp only
    repeat' split
    all_goals rfl

theorem Polling.arrived_step (s : Polling) (e : PollEvent) :
    (s.step e).arrived = s.arrived ∨ ∃ v, e = .report v ∧ (s.step e).arrived = s.arrived ++ [v] := by
  cases e with
  | access => exact Or.inl (arrived_access s)
  | answer rand =>
    simp only [Polling.step]
    split_ifs <;> exact Or.inl rfl
  | report v =>
    simp only [Polling.step]
    split_ifs
    · exact Or.inl rfl
    · exact Or.inr ⟨v, rfl, rfl⟩
  | finish n =>
    simp only [Polling.step]
    split_ifs <;> exact Or.inl rfl
  | message m => exact Or.inl rfl
  | store a v => exact Or.inl rfl
  | lowerFlag => exact Or.inl rfl

theorem Stage.arrived_next (st : Stage) : st.next.arrived = st.arrived := by
  cases st with
  | setup s v =>
    simp only [next]
    split_ifs <;> rfl
  | enumeration s v =>
    simp only [next]
    split_ifs
    · rfl
    · exact List.append_nil _
    · rfl
  | loop s earlier =>
    simp only [next]
    split_ifs <;> rfl

theorem Stage.arrived_step {st : Stage} {e : StageEvent} {v : BitVec 16} (hv : v ∈ (st.step e).arrived) :
    v ∈ st.arrived ∨ e = .loop (.report v) := by
  cases e with
  | next => cases st <;> exact Or.inl (arrived_next _ ▸ hv)
  | setup e => cases st <;> exact Or.inl hv
  | enumeration e =>
    cases st with
    | enumeration s w =>
      refine Or.inl ?_
      unfold step Vars.after at hv
      dsimp only [arrived] at hv
      split_ifs at hv <;> exact hv
    | setup s w | loop s earlier => exact Or.inl hv
  | loop e =>
    cases st with
    | loop s earlier =>
      change v ∈ earlier ++ (s.step e).arrived at hv
      obtain hsame | ⟨u, rfl, happend⟩ := s.arrived_step e
      · rw [hsame] at hv
        exact Or.inl hv
      · rw [happend, ← List.append_assoc, List.mem_append, List.mem_singleton] at hv
        exact hv.imp_right fun huv => by rw [huv]
    | setup s w | enumeration s w => exact Or.inl hv

theorem console_arrived {c : Console} {e : ConsoleEvent} {v : BitVec 16} (hv : v ∈ (c.step e).usb.arrived) :
    v ∈ c.usb.arrived ∨ e = .usb (.loop (.report v)) := by
  cases e with
  | usb e => exact (Stage.arrived_step hv).imp_right fun he => congrArg ConsoleEvent.usb he
  | tick | gameReset => exact Or.inl hv

theorem run_arrived {c : Console} {es : List ConsoleEvent} {v : BitVec 16}
    (hv : v ∈ (run Console.step c es).usb.arrived) : v ∈ c.usb.arrived ∨ .usb (.loop (.report v)) ∈ es := by
  induction es generalizing c with
  | nil => exact Or.inl hv
  | cons e es ih =>
    obtain hmem | hmem := ih hv
    · refine (console_arrived hmem).imp_right fun he => ?_
      rw [he]
      exact List.mem_cons_self ..
    · exact Or.inr (List.mem_cons_of_mem _ hmem)

theorem console_sound {c : Console} {e : ConsoleEvent} (hc : c.Careful e) (h : c.usb.Sound) :
    (c.step e).usb.Sound := by
  cases e with
  | usb e => exact Stage.sound_step hc h
  | tick | gameReset => exact h

theorem careful_sound {c d : Console} {es : List ConsoleEvent} (h : c.usb.Sound)
    (hall : Throughout Console.step Console.Careful c es) (hd : run Console.step c es = d) : d.usb.Sound := by
  subst hd
  exact run_induction Console.step (I := fun c => c.usb.Sound) (fun _ _ => console_sound) h es hall

theorem Stage.polls_cases (st : Stage) (e : StageEvent) : st.polls e = none ∨ ∃ rand, st.polls e = some (.poll rand) := by
  unfold polls
  split
  · split_ifs
    · exact Or.inr ⟨_, rfl⟩
    · exact Or.inl rfl
  · exact Or.inl rfl

theorem sees_tick {c : Console} {e : ConsoleEvent} {keys : Input} (h : c.sees e = some (.tick keys)) :
    e = .tick ∧ keys = keycodeReader c.usb.keycode := by
  cases e with
  | tick => exact ⟨rfl, (Event.tick.inj (Option.some.inj h)).symm⟩
  | gameReset => cases h
  | usb e =>
    change c.usb.polls e = _ at h
    obtain hnone | ⟨rand, hpoll⟩ := c.usb.polls_cases e
    · rw [hnone] at h
      cases h
    · rw [hpoll] at h
      cases h

theorem tick_known {c : Console} {e : ConsoleEvent} {keys : Input} (hc : c.usb.Sound)
    (h : c.sees e = some (.tick keys)) : keys = {} ∨ ∃ v ∈ c.usb.arrived, keys = keycodeReader v := by
  obtain ⟨-, rfl⟩ := sees_tick h
  exact hc.known

instance : Nonempty Event := ⟨.gameReset⟩

/-- Frames and the loop's looks at the game's requests never end, and the game is not reset. -/
structure Running (c : Console) (f : Nat → ConsoleEvent) : Prop where
  reset : ∀ n, f n ≠ .gameReset
  ticks : ∀ n, ∃ m, n ≤ m ∧ f m = .tick
  rounds : ∀ n, ∃ m, n ≤ m ∧ ∃ rand, (after Console.step f c m).sees (f m) = some (.poll rand)

section Stream
variable {c : Console} {f : Nat → ConsoleEvent}

theorem arrived_reported {n : Nat} {v : BitVec 16} (hv : v ∈ (after Console.step f c n).usb.arrived) :
    v ∈ c.usb.arrived ∨ ∃ m, f m = .usb (.loop (.report v)) := by
  induction n with
  | zero => exact Or.inl hv
  | succ n ih => exact (console_arrived hv).elim ih fun hreport => Or.inr ⟨n, hreport⟩

variable (h : Running c f)
include h

theorem running_infinite : (Set.ofPred (Acts Console.step Console.sees f c)).Infinite := by
  refine Set.infinite_of_forall_exists_gt fun n => ?_
  obtain ⟨m, hm, htick⟩ := h.ticks (n + 1)
  exact ⟨m, by rw [Set.mem_ofPred_eq, Acts, htick]; rfl, hm⟩

theorem running_served : Served (moves Console.step Console.sees f c) := by
  have hinf := running_infinite h
  refine ⟨fun j hj => ?_, fun j => ?_, fun j => ?_⟩
  · have hspec := moves_spec hinf j
    rw [hj] at hspec
    cases he : f (Nat.nth (Acts Console.step Console.sees f c) j) with
    | gameReset => exact h.reset _ he
    | tick =>
      rw [he] at hspec
      cases hspec
    | usb e =>
      rw [he, Console.sees] at hspec
      obtain hnone | ⟨rand, hpoll⟩ := Stage.polls_cases _ e
      · rw [hnone] at hspec
        cases hspec
      · rw [hpoll] at hspec
        cases hspec
  · obtain ⟨m, hm, htick⟩ := h.ticks (Nat.nth (Acts Console.step Console.sees f c) j)
    obtain ⟨k, hk, hmove⟩ := exists_moves hinf hm (m := .tick _) (by rw [htick]; rfl)
    exact ⟨k, hk, _, hmove⟩
  · obtain ⟨m, hm, rand, hpoll⟩ := h.rounds (Nat.nth (Acts Console.step Console.sees f c) j)
    obtain ⟨k, hk, hmove⟩ := exists_moves hinf hm hpoll
    exact ⟨k, hk, rand, hmove⟩

end Stream

def steadyRound : List ConsoleEvent := (Polling.promptRound 0x0016).map (fun e => .usb (.loop e)) ++ [.tick]

def steady : Nat → ConsoleEvent := cycle steadyRound .tick

theorem run_usb (c : Console) (es : List StageEvent) :
    (run Console.step c (es.map .usb)).usb = run Stage.step c.usb es := by
  induction es generalizing c with
  | nil => rfl
  | cons e es ih => exact ih (c.step (.usb e))

theorem run_loop {c : Console} {s : Polling} {earlier : List (BitVec 16)} (h : c.usb = .loop s earlier)
    (es : List PollEvent) :
    (run Console.step c (es.map fun e => .usb (.loop e))).usb = .loop (run Polling.step s es) earlier := by
  induction es generalizing c s with
  | nil => exact h
  | cons e es ih =>
    refine ih (c := c.step (.usb (.loop e))) ?_
    change c.usb.step (.loop e) = _
    rw [h]
    rfl

theorem round_ready {c : Console} (h : c.usb.Ready) (w : BitVec 16) :
    (run Console.step c ((Polling.promptRound w).map fun e => .usb (.loop e))).usb.Ready := by
  obtain ⟨s, earlier, hc, hready⟩ := h
  exact ⟨run Polling.step s (Polling.promptRound w), earlier, run_loop hc _, Polling.prompt_ready hready w⟩

section Steady
variable {c : Console} (h : c.usb.Ready)
include h

theorem steady_ready (k : Nat) : (after Console.step steady c (steadyRound.length * k)).usb.Ready := by
  refine cycle_start Console.step (I := fun d => d.usb.Ready) (fun d hd => ?_) h .tick k
  rw [steadyRound, run_append]
  exact round_ready hd 0x0016

theorem steady_polls (k : Nat) :
    (after Console.step steady c (22 * k + 18)).sees (.usb (.loop (.answer 0))) = some (.poll 0) := by
  have hready := steady_ready h k
  have hsplit : after Console.step steady c (22 * k + 18) =
      run Console.step (after Console.step steady c (steadyRound.length * k)) (steadyRound.take 18) :=
    after_cycle Console.step c steadyRound .tick k (by decide)
  have htake : steadyRound.take 18 = ((Polling.promptRound 0x0016).take 18).map fun e => .usb (.loop e) := rfl
  rw [hsplit, htake]
  generalize after Console.step steady c (steadyRound.length * k) = d at hready
  obtain ⟨s, earlier, hd, hround⟩ := hready
  obtain ⟨mem, -, hrun⟩ := Polling.prompt_shows hround 0x0016
  rw [Console.sees, run_loop hd, hrun]
  rfl

theorem steady_running : Running c steady := by
  have hat (k : Nat) {j : Nat} (hj : j < steadyRound.length) : steady (22 * k + j) = steadyRound[j] :=
    cycle_at hj .tick k
  refine ⟨fun n hn => ?_, fun n => ⟨22 * n + 21, by omega, hat n (by decide)⟩, fun n => ?_⟩
  · have hne : steadyRound ≠ [] := by decide
    have hmem := mem_cycle hne .tick n
    rw [show cycle steadyRound .tick n = .gameReset from hn] at hmem
    exact absurd hmem (by decide)
  · have hanswer : steady (22 * n + 18) = .usb (.loop (.answer 0)) := hat n (by decide)
    refine ⟨22 * n + 18, by omega, 0, ?_⟩
    rw [hanswer]
    exact steady_polls h n

omit h in
theorem steady_careful (n : Nat) : (after Console.step steady c n).Careful (steady n) := by
  have hne : steadyRound ≠ [] := by decide
  have hmem : steady n ∈ steadyRound := mem_cycle hne .tick n
  generalize after Console.step steady c n = d
  unfold steadyRound at hmem
  rw [List.mem_append, List.mem_map, List.mem_singleton] at hmem
  obtain ⟨e, -, he⟩ | he := hmem
  · rw [← he]
    cases hd : d.usb <;> simp [Console.Careful, Stage.Careful, hd]
  · rw [he]
    trivial

end Steady

section SwitchedOn
variable (hpi : Hpi) (sie1Msg : Bool) (lists : Nat) (usbCtlVal : BitVec 16) (dataSize : BitVec 8) (sys : Sys)

/-- In every run of controller, `main` and game, in whatever order they step and through any
number of hot plugs, but with the enumeration in order: the game is played by the ticks and
polls of the run, and a key that a frame sees has been reported before it. -/
theorem keys_were_reported {es : List ConsoleEvent}
    (hall : Throughout Console.step Console.Careful (switchedOn hpi sie1Msg lists usbCtlVal dataSize sys) es) :
    let c := switchedOn hpi sie1Msg lists usbCtlVal dataSize sys
    (run Console.step c es).sys = run sysStep sys (trace Console.step Console.sees c es) ∧
      ∀ keys, .tick keys ∈ trace Console.step Console.sees c es →
        keys = {} ∨ ∃ v, .usb (.loop (.report v)) ∈ es ∧ keys = keycodeReader v := by
  intro c
  refine ⟨console_simulates.run trivial es (throughout_of_forall _ (fun _ _ => trivial) _ _), ?_⟩
  induction es using List.reverseRecOn with
  | nil => exact fun keys hmem => absurd hmem List.not_mem_nil
  | append_singleton es e ih =>
    intro keys hmem
    have hbefore := ((throughout_append Console.step _ c es [e]).1 hall).1
    rw [trace_append, List.mem_append] at hmem
    cases hmem with
    | inl hold =>
      refine (ih hbefore keys hold).imp_right fun hreport => ?_
      obtain ⟨v, hv, hkeys⟩ := hreport
      exact ⟨v, List.mem_append_left [e] hv, hkeys⟩
    | inr hnew =>
      rw [trace, trace, List.append_nil, Option.mem_toList] at hnew
      have hsound := careful_sound (c := c) (mainStart_sound hpi sie1Msg lists usbCtlVal dataSize) hbefore rfl
      refine (tick_known hsound hnew).imp_right fun hreport => ?_
      obtain ⟨v, hv, hkeys⟩ := hreport
      have hreported := (run_arrived hv).resolve_left List.not_mem_nil
      exact ⟨v, List.mem_append_left [e] hreported, hkeys⟩

end SwitchedOn

theorem steadyRound_reported :
    let c := switchedOn ⟨0, fun _ => 0⟩ false 0 0 8 powerOn
    let es := promptStart.map .usb ++ steadyRound
    (run Console.step c es).sys = run sysStep powerOn (trace Console.step Console.sees c es) ∧
      ∀ keys, .tick keys ∈ trace Console.step Console.sees c es →
        keys = {} ∨ ∃ v, .usb (.loop (.report v)) ∈ es ∧ keys = keycodeReader v :=
  keys_were_reported _ _ _ _ _ _ (by decide +kernel)

/-- If the enumeration is in order, nothing but `S` and Enter is ever reported, frames and
rounds never end, and the game has begun, it ends with a score of zero. -/
theorem quiet_keyboard_ends {c : Console} {f : Nat → ConsoleEvent} (hrun : Running c f) (hsound : c.usb.Sound)
    (hcareful : ∀ n, (after Console.step f c n).Careful (f n)) (hgame : Restarted c.sys.game)
    (hshown : ∀ v ∈ c.usb.arrived, Untouched (keycodeReader v))
    (hkeys : ∀ n v, f n = .usb (.loop (.report v)) → Untouched (keycodeReader v)) :
    ∃ n, (after Console.step f c n).sys.game.state = .gameOver ∧
      (after Console.step f c n).sys.game.currentScore = 0 := by
  have hinf := running_infinite hrun
  have hsound' (n : Nat) : (after Console.step f c n).usb.Sound := by
    induction n with
    | zero => exact hsound
    | succ n ih => exact console_sound (hcareful n) ih
  have huntouched (j : Nat) (keys : Input) (hmove : moves Console.step Console.sees f c j = .tick keys) :
      Untouched keys := by
    have hspec := moves_spec hinf j
    rw [hmove] at hspec
    obtain hnone | ⟨v, hv, hkey⟩ := tick_known (hsound' _) hspec
    · rw [hnone]
      decide
    · rw [hkey]
      obtain hearlier | ⟨m, hm⟩ := arrived_reported hv
      · exact hshown v hearlier
      · exact hkeys m v hm
  obtain ⟨j, hover, hscore⟩ := untouched_system_ends (running_served hrun) hgame huntouched
  have hsys := console_simulates.after_nth (f := f) (s := c) trivial (fun _ => trivial) hinf j
  refine ⟨Nat.nth (Acts Console.step Console.sees f c) j, ?_⟩
  rw [hsys]
  exact ⟨hover, hscore⟩

theorem steady_reports {n : Nat} {v : BitVec 16} (h : steady n = .usb (.loop (.report v))) : v = 0x0016 := by
  have hne : steadyRound ≠ [] := by decide
  have hmem : steady n ∈ steadyRound := mem_cycle hne .tick n
  rw [h] at hmem
  simpa [steadyRound, Polling.promptRound] using hmem

/-- Setup, enumeration, a round in which Enter is reported, and two frames. -/
def enterReported : List ConsoleEvent :=
  promptStart.map .usb ++ (Polling.promptRound 0x0028).map (fun e => .usb (.loop e)) ++ [.tick, .tick]

def blankConsole : Console := switchedOn ⟨0, fun _ => 0⟩ false 0 0 8 powerOn

theorem blankConsole_sound : blankConsole.usb.Sound := mainStart_sound _ _ _ _ _

@[irreducible] def begun : Console := run Console.step blankConsole enterReported

theorem tick_tick_usb (c : Console) : (run Console.step c [.tick, .tick]).usb = c.usb := rfl

theorem tick_tick_restarted {c : Console} (h : (c.step .tick).sys.game.state = .reset) :
    Restarted (run Console.step c [.tick, .tick]).sys.game :=
  ⟨_, _, h, rfl⟩

theorem enter_round {c : Console} (h : c.usb.Ready) (w : BitVec 16) :
    (run Console.step c ((Polling.promptRound w).map (fun e => .usb (.loop e)) ++ [.tick, .tick])).usb.Ready := by
  rw [run_append, tick_tick_usb]
  exact round_ready h w

theorem enterReported_careful : Throughout Console.step Console.Careful blankConsole enterReported := by
  decide +kernel

theorem begun_eq : run Console.step blankConsole enterReported = begun := by
  unfold begun
  rfl

theorem begun_sound : begun.usb.Sound := careful_sound blankConsole_sound enterReported_careful begun_eq

theorem begun_ready : begun.usb.Ready := by
  unfold begun enterReported
  rw [List.append_assoc, run_append]
  refine enter_round ?_ 0x0028
  rw [run_usb]
  exact promptStart_ready

theorem begun_restarted : Restarted begun.sys.game := by
  unfold begun enterReported
  rw [run_append]
  refine tick_tick_restarted ?_
  decide +kernel

theorem begun_arrived : begun.usb.arrived = [0x0028] := by decide +kernel

theorem steady_ends :
    ∃ n, (after Console.step steady begun n).sys.game.state = .gameOver ∧
      (after Console.step steady begun n).sys.game.currentScore = 0 := by
  have hrun : Running begun steady := steady_running begun_ready
  refine quiet_keyboard_ends hrun begun_sound steady_careful begun_restarted (fun v hv => ?_) fun n v hn => ?_
  · rw [begun_arrived, List.mem_singleton] at hv
    rw [hv]
    decide
  · rw [steady_reports hn]
    decide

end Tetris
