import Tetris.Restart
import Tetris.Well

/-! The game and the polling software that feeds it shapes: two parties that share
the request line, `random_number` and `random_ready`. -/
namespace Tetris
open Machine

/-- Both parties; `prev` is the software's last pick. -/
structure Sys where
  game : Regs
  number : BitVec 3
  ready : Bool
  prev : Nat

def powerOn : Sys where
  game := resetRegs
  number := 0
  ready := false
  prev := 7

/-- A frame tick with the keys held, a poll with the value `rand()` returns, or the
game's `Reset`. -/
inductive Event where
  | tick (keys : Input)
  | poll (rand : Nat)
  | gameReset
  deriving DecidableEq

/-- `rand()%7`, moved on by one if it repeats `prev`. -/
def pick (prev rand : Nat) : Nat :=
  let temp := rand % 7
  if temp = prev then (temp + 1) % 7 else temp

/-- The switch that writes `random_number`. -/
def writeNumber (temp : Nat) (old : BitVec 3) : BitVec 3 :=
  match temp with
  | 0 => 0b001
  | 1 => 0b010
  | 2 => 0b011
  | 3 => 0b100
  | 4 => 0b101
  | 5 => 0b110
  | 6 => 0b111
  | _ => old

def poll (s : Sys) (rand : Nat) : Sys :=
  if toSwSig s.game then
    { s with
      number := writeNumber (pick s.prev rand) s.number
      ready := true
      prev := pick s.prev rand }
  else { s with ready := false }

def Sys.input (s : Sys) (keys : Input) : Input :=
  { keys with nextShape := s.number, fromSwSig := s.ready }

def sysStep (s : Sys) (e : Event) : Sys :=
  match e with
  | .tick keys => { s with game := step s.game (s.input keys) }
  | .poll rand => poll s rand
  | .gameReset => { s with game := resetRegs }

def Deals (s : Sys) (e : Event) : Prop := s.game.state = .newBlock ∧ ∃ keys, e = .tick keys

def Previews (s : Sys) (e : Event) : Prop := s.game.state = .newNext ∧ ∃ keys, e = .tick keys

theorem exists_tick_iff (e : Event) :
    (∃ keys, e = .tick keys) ↔ (match e with | .tick _ => true | _ => false) = true := by
  cases e <;> simp

instance (s : Sys) (e : Event) : Decidable (Deals s e) :=
  have := decidable_of_iff' _ (exists_tick_iff e)
  inferInstanceAs (Decidable (_ ∧ _))

instance (s : Sys) (e : Event) : Decidable (Previews s e) :=
  have := decidable_of_iff' _ (exists_tick_iff e)
  inferInstanceAs (Decidable (_ ∧ _))

theorem pick_lt (prev rand : Nat) : pick prev rand < 7 := by
  unfold pick
  dsimp only
  split_ifs <;> omega

theorem pick_ne (prev rand : Nat) : pick prev rand ≠ prev := by
  unfold pick
  dsimp only
  split_ifs <;> omega

theorem writeNumber_toNat {temp : Nat} (h : temp < 7) (old : BitVec 3) :
    (writeNumber temp old).toNat = temp + 1 := by
  match temp, h with
  | 0, _ | 1, _ | 2, _ | 3, _ | 4, _ | 5, _ | 6, _ => rfl

theorem writeNumber_ne_zero {temp : Nat} (h : temp < 7) (old : BitVec 3) :
    writeNumber temp old ≠ 0 := by
  intro hzero
  have hval := writeNumber_toNat h old
  rw [hzero] at hval
  simp at hval

def Answered (s : Sys) : Prop := s.ready = true ∨ s.game.state = .newNext → s.number ≠ 0

theorem toSwSig_eq_true {g : Regs} : toSwSig g = true ↔ g.state = .start ∨ g.state = .beforeNew := by
  unfold toSwSig
  split <;> simp_all

theorem answered_step {s : Sys} (h : Answered s) (e : Event) : Answered (sysStep s e) := by
  cases e with
  | tick keys =>
    intro hasked
    cases hasked with
    | inl hready => exact h (Or.inl hready)
    | inr hst => exact h (Or.inl (newNext_entered hst).2)
  | poll rand =>
    unfold sysStep poll
    dsimp only
    split_ifs
    · exact fun _ => writeNumber_ne_zero (pick_lt _ _) _
    · intro hasked
      cases hasked with
      | inl hready => cases hready
      | inr hst => exact h (Or.inr hst)
  | gameReset =>
    intro hasked
    cases hasked with
    | inl hready => exact h (Or.inl hready)
    | inr hst => cases hst

theorem answered_run (es : List Event) : Answered (run sysStep powerOn es) := by
  refine invariant sysStep (I := Answered) (fun _ e h => answered_step h e) ?_ es
  intro hasked
  cases hasked with
  | inl hready => cases hready
  | inr hst => cases hst

/-- The preview shows shape `v`: every coloured cell has that number, and there are some. -/
def Shows (g : Regs) (v : BitVec 3) : Prop :=
  (∀ r c, g.nextColorStatic r c ≠ 0 → g.nextColorStatic r c = v) ∧
    ∃ r c, g.nextColorStatic r c ≠ 0

theorem newNext_shows (g : Regs) {i : Input} (h : i.nextShape ≠ 0) :
    Shows (newNext g i) i.nextShape := by
  have hcell : ∀ v : BitVec 3, ∃ r : Fin 3, ∃ c : Fin 4, (newNextCells v r).getLsbD c.val = true := by
    decide
  refine ⟨fun r c hne => ?_, ?_⟩
  · simp only [newNext] at hne ⊢
    split_ifs at hne ⊢
    · rfl
    · exact absurd rfl hne
  · obtain ⟨r, c, hrc⟩ := hcell i.nextShape
    refine ⟨r, c, ?_⟩
    simp only [newNext, hrc, if_true]
    exact h

theorem newBlockCells_shape : ∀ v : BitVec 3, v ≠ 0 → (newBlockCells v).2 = v := by
  decide

theorem deal_shape {s : Sys} (h : s.game.state = .newBlock) (keys : Input) :
    (sysStep s (.tick keys)).game.currentShape = (newBlockCells s.number).2 := by
  simp only [sysStep, step, datapath, h]
  rfl

/-- Between a preview and the block that follows it the number `v` stays; after that
block the next preview is due before another one. -/
def Promised (v : BitVec 3) (s : Sys) : Prop :=
  s.game.state = .beforeNew ∨ s.game.state = .newNext ∨ (s.game.state ≠ .start ∧ s.number = v)

theorem promised_step {v : BitVec 3} {s : Sys} {e : Event} (h : Promised v s)
    (hpreview : ¬ Previews s e) (hreset : e ≠ .gameReset) : Promised v (sysStep s e) := by
  cases e with
  | tick keys =>
    rcases h with hst | hst | ⟨hst, hnumber⟩
    · have hnext : nextState s.game (s.input keys) ∈ State.beforeNew.successors :=
        hst ▸ nextState_mem s.game (s.input keys)
      simp only [State.successors, List.mem_cons, List.not_mem_nil, or_false] at hnext
      exact hnext.imp_right Or.inl
    · exact absurd ⟨hst, keys, rfl⟩ hpreview
    · exact Or.inr (Or.inr ⟨nextState_ne_start hst _, hnumber⟩)
  | poll rand =>
    unfold sysStep poll
    dsimp only
    split_ifs with hsig
    · cases toSwSig_eq_true.1 hsig with
      | inl hstart => exact h.imp_right (Or.imp_right fun hlast => absurd hstart hlast.1)
      | inr hbefore => exact Or.inl hbefore
    · exact h
  | gameReset => exact absurd rfl hreset

/-- The block dealt next is the one on show, however ticks and polls interleave. -/
theorem preview_truthful (es mid : List Event) (keys keys' : Input)
    (hpreview : (run sysStep powerOn es).game.state = .newNext)
    (hmid : Throughout sysStep (fun s e => ¬ Previews s e ∧ e ≠ .gameReset)
      (run sysStep powerOn (es ++ [.tick keys])) mid)
    (hdeal : (run sysStep powerOn (es ++ .tick keys :: mid)).game.state = .newBlock) :
    Shows (run sysStep powerOn (es ++ [.tick keys])).game
      (run sysStep powerOn (es ++ .tick keys :: mid ++ [.tick keys'])).game.currentShape := by
  have hanswered := answered_run es
  simp only [List.append_assoc, List.cons_append, run_append, run_cons, run_nil] at hmid hdeal ⊢
  generalize run sysStep powerOn es = s at *
  have hne : s.number ≠ 0 := hanswered (Or.inr hpreview)
  have hstep : sysStep s (.tick keys) =
      { s with game := { newNext s.game (s.input keys) with state := .inter } } := by
    simp only [sysStep, step, datapath, nextState, hpreview]
  have hfirst : Promised s.number (sysStep s (.tick keys)) := by
    rw [hstep]
    exact Or.inr (Or.inr ⟨by simp, rfl⟩)
  have hpromised := run_induction sysStep (P := fun s e => ¬ Previews s e ∧ e ≠ .gameReset)
    (fun _ _ hP h => promised_step h hP.1 hP.2) hfirst mid hmid
  have hnumber : (run sysStep (sysStep s (.tick keys)) mid).number = s.number := by
    rcases hpromised with hst | hst | ⟨-, hnumber⟩
    · cases hst.symm.trans hdeal
    · cases hst.symm.trans hdeal
    · exact hnumber
  have hshape : (sysStep (run sysStep (sysStep s (.tick keys)) mid) (.tick keys')).game.currentShape =
      s.number := by
    rw [deal_shape hdeal, hnumber, newBlockCells_shape s.number hne]
  rw [hshape, hstep]
  exact newNext_shows s.game hne

/-- Power-on, one answer, and the game started; then ticks until the second block. -/
def firstPreview : List Event := [.poll 3, .tick { enter := true }, .tick {}, .tick {}, .tick {}]

def firstFall : List Event := List.replicate 100 (.tick { down := true })

theorem preview_truthful_first_O :
    Shows (run sysStep powerOn (firstPreview ++ [.tick {}])).game
      (run sysStep powerOn (firstPreview ++ .tick {} :: firstFall ++ [.tick {}])).game.currentShape :=
  preview_truthful firstPreview firstFall {} {} (by decide +kernel) (by decide +kernel)
    (by decide +kernel)

/-- Every visit to `BEFORENEW` that ends in `NEWNEXT` saw a poll. -/
def AnswersFresh (es : List Event) : Prop :=
  ∀ before keys mid keys', before ++ .tick keys :: mid ++ [.tick keys'] <+: es →
    (run sysStep powerOn before).game.state = .newBlock →
    Throughout sysStep (fun s _ => s.game.state = .beforeNew)
      (run sysStep powerOn (before ++ [.tick keys])) mid →
    (run sysStep powerOn (before ++ .tick keys :: mid)).game.state = .beforeNew →
    (run sysStep powerOn (before ++ .tick keys :: mid ++ [.tick keys'])).game.state = .newNext →
    ∃ rand, .poll rand ∈ mid

/-- No `NEW_BLOCK` step taken while `random_ready` is up is followed at once by
another tick. -/
def AnswersWithdrawn (es : List Event) : Prop :=
  ∀ before keys keys', before ++ [.tick keys, .tick keys'] <+: es →
    (run sysStep powerOn before).game.state = .newBlock →
    (run sysStep powerOn before).ready = false

theorem run_ready {mid : List Event} (h : ∀ rand, .poll rand ∉ mid) (s : Sys) :
    (run sysStep s mid).ready = s.ready := by
  induction mid generalizing s with
  | nil => rfl
  | cons e mid ih =>
    have hrest := ih fun rand hmem => h rand (List.mem_cons_of_mem e hmem)
    rw [run_cons, hrest]
    cases e with
    | tick keys => rfl
    | poll rand => exact absurd List.mem_cons_self (h rand)
    | gameReset => rfl

theorem beforeNew_tick {s : Sys} (h : s.game.state = .beforeNew) (keys : Input) :
    (sysStep s (.tick keys)).game.state = if s.ready then .newNext else .beforeNew := by
  simp only [sysStep, step, nextState, h]
  rfl

theorem newBlock_tick {s : Sys} (h : s.game.state = .newBlock) (keys : Input) :
    (sysStep s (.tick keys)).game.state = .beforeNew := by
  simp only [sysStep, step, nextState, h]

/-- The handshake accepts no stale answer exactly if an answer still up when a block
is dealt is withdrawn or renewed before the next tick. -/
theorem answers_fresh_iff (es : List Event) : AnswersFresh es ↔ AnswersWithdrawn es := by
  constructor
  · intro hfresh before keys keys' hprefix hdeal
    rw [Bool.eq_false_iff]
    intro hready
    have hwait := newBlock_tick hdeal keys
    have hleave := beforeNew_tick hwait keys'
    obtain ⟨rand, hmem⟩ := hfresh before keys [] keys' (by simpa using hprefix) hdeal trivial
      (by simpa only [run_append, run_cons, run_nil] using hwait)
      (by simpa [run_append, sysStep, hready] using hleave)
    cases hmem
  · intro hdrawn before keys mid keys' hprefix hdeal hvisit hlast hleave
    by_contra hno
    have hquiet := run_ready (not_exists.1 hno) (sysStep (run sysStep powerOn before) (.tick keys))
    simp only [run_append, run_cons, run_nil] at hvisit hlast hleave
    have hready : (run sysStep powerOn before).ready = false := by
      cases mid with
      | nil => exact hdrawn before keys keys' (by simpa using hprefix) hdeal
      | cons e mid =>
        cases e with
        | tick k =>
          refine hdrawn before keys k (List.IsPrefix.trans ?_ hprefix) hdeal
          exact ⟨mid ++ [.tick keys'], by simp⟩
        | poll rand => exact absurd ⟨rand, List.mem_cons_self⟩ hno
        | gameReset =>
          -- `Reset` leads to `START`, and the visit would be over
          cases mid with
          | nil => cases hlast
          | cons e mid => cases hvisit.2.1
    rw [beforeNew_tick hlast, hquiet] at hleave
    have hstale : (sysStep (run sysStep powerOn before) (.tick keys)).ready = false := hready
    rw [hstale] at hleave
    cases hleave

theorem start_answer_taken_twice : ∃ es, ¬ AnswersFresh es := by
  refine ⟨firstPreview, fun hfresh => ?_⟩
  obtain ⟨rand, hmem⟩ := hfresh [.poll 3, .tick { enter := true }, .tick {}] {} [] {} List.prefix_rfl
    (by decide) trivial (by decide) (by decide)
  cases hmem

/-- The values `rand()` gives to the polls that find the request raised. -/
def answers (s : Sys) : List Event → List Nat
  | [] => []
  | .poll rand :: es =>
    if toSwSig s.game then rand :: answers (sysStep s (.poll rand)) es
    else answers (sysStep s (.poll rand)) es
  | e :: es => answers (sysStep s e) es

theorem run_prev (s : Sys) (es : List Event) :
    (run sysStep s es).prev = (answers s es).foldl pick s.prev := by
  induction es generalizing s with
  | nil => rfl
  | cons e es ih =>
    rw [run_cons, ih]
    cases e with
    | tick keys => rfl
    | gameReset => rfl
    | poll rand =>
      cases hsig : toSwSig s.game <;> simp [answers, sysStep, poll, hsig]

def Numbered (s : Sys) : Prop := s.number.toNat = s.prev + 1

theorem poll_numbered {s : Sys} (h : toSwSig s.game = true) (rand : Nat) :
    Numbered (sysStep s (.poll rand)) := by
  simp only [Numbered, sysStep, poll, h, if_true]
  exact writeNumber_toNat (pick_lt _ _) _

theorem numbered_step {s : Sys} (h : Numbered s) (e : Event) : Numbered (sysStep s e) := by
  cases e with
  | tick keys => exact h
  | gameReset => exact h
  | poll rand =>
    cases hsig : toSwSig s.game with
    | true => exact poll_numbered hsig rand
    | false =>
      simp only [Numbered, sysStep, poll, hsig]
      exact h

theorem Numbered.deal {s : Sys} (h : Numbered s) (hst : s.game.state = .newBlock) (keys : Input) :
    (sysStep s (.tick keys)).game.currentShape.toNat = s.prev + 1 := by
  have hne : s.number ≠ 0 := by
    intro hzero
    rw [Numbered, hzero] at h
    simp at h
  rw [deal_shape hst, newBlockCells_shape _ hne]
  exact h

/-- After `es`, where a poll served `START`, a block is dealt; `mid` leads to the next
one, with no `Reset` between. -/
structure NextDeal (es : List Event) (keys : Input) (mid : List Event) : Prop where
  served : ∃ pre rand post, es = pre ++ .poll rand :: post ∧
    (run sysStep powerOn pre).game.state = .start
  deal : (run sysStep powerOn es).game.state = .newBlock
  between : Throughout sysStep (fun s e => ¬ Deals s e ∧ e ≠ .gameReset)
    (run sysStep powerOn (es ++ [.tick keys])) mid
  next : (run sysStep powerOn (es ++ .tick keys :: mid)).game.state = .newBlock

theorem NextDeal.numbered {es mid : List Event} {keys : Input} (h : NextDeal es keys mid) :
    Numbered (run sysStep powerOn es) := by
  obtain ⟨pre, rand, post, rfl, hstart⟩ := h.served
  rw [run_append, run_cons]
  refine invariant sysStep (I := Numbered) (fun _ e hn => numbered_step hn e) ?_ post
  exact poll_numbered (toSwSig_eq_true.2 (Or.inl hstart)) rand

/-- Both blocks are the software's number, the second one after the answers in between. -/
theorem NextDeal.shapes {es mid : List Event} {keys : Input} (h : NextDeal es keys mid)
    (keys' : Input) :
    (run sysStep powerOn (es ++ [.tick keys])).game.currentShape.toNat =
        (run sysStep powerOn es).prev + 1 ∧
      (run sysStep powerOn (es ++ .tick keys :: mid ++ [.tick keys'])).game.currentShape.toNat =
        (answers (run sysStep powerOn (es ++ [.tick keys])) mid).foldl pick
          (run sysStep powerOn es).prev + 1 := by
  have hnumbered := h.numbered
  have hdeal := h.deal
  have hnext := h.next
  simp only [List.append_assoc, List.cons_append, run_append, run_cons, run_nil] at hnext ⊢
  generalize run sysStep powerOn es = s at *
  have hlater := invariant sysStep (I := Numbered) (fun _ e hn => numbered_step hn e)
    (numbered_step hnumbered (.tick keys)) mid
  have hprev := run_prev (sysStep s (.tick keys)) mid
  refine ⟨hnumbered.deal hdeal keys, ?_⟩
  rw [hlater.deal hnext keys', hprev]
  rfl

theorem Numbered.prev_lt {s : Sys} (h : Numbered s) : s.prev < 7 := by
  have hlt := s.number.isLt
  rw [h] at hlt
  omega

/-- The same events, with other values of `rand()`. -/
def Reseeded : List Event → List Event → Prop :=
  List.Forall₂ fun e e' => e' = e ∨ ∃ rand rand', e = .poll rand ∧ e' = .poll rand'

/-- Of the values of `rand()` a game takes nothing but the numbers to be dealt and shown. -/
structure Alike (s t : Sys) : Prop where
  ready : s.ready = t.ready
  game : played s.game = played t.game

theorem Alike.state {s t : Sys} (h : Alike s t) : s.game.state = t.game.state :=
  (congrArg Regs.state h.game :)

theorem Alike.asks {s t : Sys} (h : Alike s t) : toSwSig s.game = toSwSig t.game := by
  unfold toSwSig
  rw [h.state]

theorem played_number {g : Regs} (h : g.state ≠ .newBlock) (i : Input) (v : BitVec 3) :
    played (step g { i with nextShape := v }) = played (step g i) := by
  cases hst : g.state with
  | newBlock => exact absurd hst h
  | newNext | inter =>
    simp only [step, datapath, nextState, hst]
    rfl
  | _ => simp only [step, datapath, nextState, hst]

theorem Alike.tick {s t : Sys} (h : Alike s t) (hst : s.game.state ≠ .newBlock) (keys : Input) :
    Alike (sysStep s (.tick keys)) (sysStep t (.tick keys)) := by
  refine ⟨h.ready, ?_⟩
  have hinput : t.input keys = { s.input keys with nextShape := t.number } := by
    simp only [Sys.input, h.ready]
  calc
    played (step s.game (s.input keys))
        = played (step s.game (t.input keys)) := by
          rw [hinput]
          exact (played_number hst _ _).symm
    _ = played (step (played t.game) (t.input keys)) := by rw [played_step, h.game]
    _ = played (step t.game (t.input keys)) := (played_step _ _).symm

theorem Alike.poll {s t : Sys} (h : Alike s t) (rand rand' : Nat) :
    Alike (sysStep s (.poll rand)) (sysStep t (.poll rand')) := by
  unfold sysStep Tetris.poll
  dsimp only
  rw [← h.asks]
  split_ifs
  · exact ⟨rfl, h.game⟩
  · exact ⟨rfl, h.game⟩

theorem exists_reseeded {s t : Sys} (h : Alike s t) {mid : List Event}
    (hmid : Throughout sysStep (fun s e => ¬ Deals s e ∧ e ≠ .gameReset) s mid) {rands : List Nat}
    (hlen : rands.length = (answers s mid).length) :
    ∃ mid', Reseeded mid mid' ∧ answers t mid' = rands ∧ Alike (run sysStep s mid) (run sysStep t mid') ∧
      Throughout sysStep (fun s e => ¬ Deals s e ∧ e ≠ .gameReset) t mid' := by
  induction mid generalizing s t rands with
  | nil => exact ⟨[], List.Forall₂.nil, (List.eq_nil_of_length_eq_zero hlen).symm, h, trivial⟩
  | cons e mid ih =>
    obtain ⟨⟨hdeal, hreset⟩, hrest⟩ := hmid
    cases e with
    | gameReset => exact absurd rfl hreset
    | tick keys =>
      have hst : s.game.state ≠ .newBlock := fun hst => hdeal ⟨hst, keys, rfl⟩
      obtain ⟨mid', hseeded, hanswers, halike, hbetween⟩ := ih (h.tick hst keys) hrest hlen
      refine ⟨.tick keys :: mid', .cons (Or.inl rfl) hseeded, hanswers, halike, ⟨?_, by simp⟩, hbetween⟩
      exact fun hdeals => hst (h.state.trans hdeals.1)
    | poll rand =>
      have hno (rand' : Nat) : ¬ Deals t (.poll rand') := fun hdeals => nomatch hdeals.2
      cases hsig : toSwSig s.game with
      | false =>
        simp only [answers, hsig, Bool.false_eq_true, if_false] at hlen
        obtain ⟨mid', hseeded, hanswers, halike, hbetween⟩ := ih (h.poll rand rand) hrest hlen
        refine ⟨.poll rand :: mid', .cons (Or.inl rfl) hseeded, ?_, halike, ⟨hno rand, by simp⟩, hbetween⟩
        simpa only [answers, ← h.asks, hsig, Bool.false_eq_true, if_false] using hanswers
      | true =>
        simp only [answers, hsig, if_true, List.length_cons] at hlen
        obtain ⟨rand', rands, rfl⟩ := List.exists_cons_of_length_eq_add_one hlen
        obtain ⟨mid', hseeded, hanswers, halike, hbetween⟩ := ih (h.poll rand rand') hrest (Nat.succ.inj hlen)
        refine ⟨.poll rand' :: mid', .cons (Or.inr ⟨rand, rand', rfl, rfl⟩) hseeded, ?_, halike,
          ⟨hno rand', by simp⟩, hbetween⟩
        simp only [answers, ← h.asks, hsig, if_true, hanswers]

theorem NextDeal.reseed {es mid : List Event} {keys : Input} (h : NextDeal es keys mid) {rands : List Nat}
    (hlen : rands.length = (answers (run sysStep powerOn (es ++ [.tick keys])) mid).length) :
    ∃ mid', Reseeded mid mid' ∧ NextDeal es keys mid' ∧
      answers (run sysStep powerOn (es ++ [.tick keys])) mid' = rands := by
  obtain ⟨mid', hseeded, hanswers, halike, hbetween⟩ := exists_reseeded ⟨rfl, rfl⟩ h.between hlen
  refine ⟨mid', hseeded, ⟨h.served, h.deal, hbetween, ?_⟩, hanswers⟩
  have hnext := h.next
  have hsplit (mid : List Event) : run sysStep powerOn (es ++ .tick keys :: mid) =
      run sysStep (run sysStep powerOn (es ++ [.tick keys])) mid := by
    rw [← run_append, List.append_assoc, List.singleton_append]
  rw [hsplit] at hnext ⊢
  exact halike.state.symm.trans hnext

theorem exists_picks {p q k : Nat} (hp : p < 7) (hq : q ≠ p) :
    ∃ rands : List Nat, rands.length = k + 1 ∧ rands.foldl pick q = p := by
  induction k generalizing q with
  | zero =>
    refine ⟨[p], rfl, ?_⟩
    have hmod : p % 7 = p := Nat.mod_eq_of_lt hp
    simp only [List.foldl_cons, List.foldl_nil, pick, hmod, if_neg hq.symm]
  | succ k ih =>
    have hne : pick q (p + 1) ≠ p := by
      unfold pick
      dsimp only
      split_ifs <;> omega
    obtain ⟨rands, hlen, hpicks⟩ := ih hne
    exact ⟨(p + 1) :: rands, congrArg Nat.succ hlen, hpicks⟩

/-- The picks can come back to where they began, unless there is just one. -/
theorem exists_repeating {p k : Nat} (hp : p < 7) (hk : k ≠ 1) :
    ∃ rands : List Nat, rands.length = k ∧ rands.foldl pick p = p := by
  match k, hk with
  | 0, _ => exact ⟨[], rfl, rfl⟩
  | k + 2, _ =>
    obtain ⟨rands, hlen, hpicks⟩ := exists_picks (k := k) hp (pick_ne p 0)
    exact ⟨0 :: rands, congrArg Nat.succ hlen, hpicks⟩

/-- Two blocks in a row are of different shapes. -/
def DealsDiffer (es : List Event) : Prop :=
  ∀ before keys mid keys', before ++ .tick keys :: mid ++ [.tick keys'] <+: es → NextDeal before keys mid →
    (run sysStep powerOn (before ++ .tick keys :: mid ++ [.tick keys'])).game.currentShape ≠
      (run sysStep powerOn (before ++ [.tick keys])).game.currentShape

/-- From each block to the next, just one poll finds the request raised. -/
def AnsweredOnce (es : List Event) : Prop :=
  ∀ before keys mid keys', before ++ .tick keys :: mid ++ [.tick keys'] <+: es → NextDeal before keys mid →
    (answers (run sysStep powerOn (before ++ [.tick keys])) mid).length = 1

theorem deals_differ_of_one_answer {es : List Event} (h : AnsweredOnce es) : DealsDiffer es := by
  intro before keys mid keys' hprefix hnext
  obtain ⟨rand, hone⟩ := List.length_eq_one_iff.1 (h before keys mid keys' hprefix hnext)
  obtain ⟨hfirst, hsecond⟩ := hnext.shapes keys'
  have hne := pick_ne (run sysStep powerOn before).prev rand
  rw [hone, List.foldl_cons, List.foldl_nil] at hsecond
  intro heq
  rw [heq, hfirst] at hsecond
  omega

theorem reseeded_refl (es : List Event) : Reseeded es es := List.forall₂_same.2 fun _ _ => Or.inl rfl

theorem Reseeded.trans {es es' es'' : List Event} (h : Reseeded es es') (h' : Reseeded es' es'') :
    Reseeded es es'' := by
  induction h generalizing es'' with
  | nil => exact h'
  | cons he _ ih =>
    cases h' with
    | cons he' hrest =>
      refine .cons ?_ (ih hrest)
      obtain rfl | ⟨rand, rand', rfl, rfl⟩ := he
      · exact he'
      · obtain rfl | ⟨_, rand'', -, rfl⟩ := he'
        · exact Or.inr ⟨rand, rand', rfl, rfl⟩
        · exact Or.inr ⟨rand, rand'', rfl, rfl⟩

theorem Reseeded.append {es es' fs fs' : List Event} (h : Reseeded es es') (h' : Reseeded fs fs') :
    Reseeded (es ++ fs) (es' ++ fs') := List.rel_append h h'

/-- With none or several, some values of `rand()` deal one shape twice. -/
theorem exists_same_shape {before mid : List Event} {keys : Input} (h : NextDeal before keys mid)
    (hk : (answers (run sysStep powerOn (before ++ [.tick keys])) mid).length ≠ 1) (keys' : Input) :
    ∃ mid', Reseeded mid mid' ∧ NextDeal before keys mid' ∧
      (run sysStep powerOn (before ++ .tick keys :: mid' ++ [.tick keys'])).game.currentShape =
        (run sysStep powerOn (before ++ [.tick keys])).game.currentShape := by
  obtain ⟨rands, hlen, hpicks⟩ := exists_repeating h.numbered.prev_lt hk
  obtain ⟨mid', hseeded, hnext, hanswers⟩ := h.reseed hlen
  refine ⟨mid', hseeded, hnext, ?_⟩
  obtain ⟨hfirst, hsecond⟩ := hnext.shapes keys'
  rw [hanswers, hpicks, ← hfirst] at hsecond
  exact BitVec.toNat_inj.1 hsecond

/-- With one answer between any two blocks no shape is dealt twice in a row. For an order of
ticks and polls, whatever `rand()` gives, nothing else will do. -/
theorem deals_differ_iff (es : List Event) :
    (AnsweredOnce es → DealsDiffer es) ∧
      ((∀ es', Reseeded es es' → DealsDiffer es') ↔ ∀ es', Reseeded es es' → AnsweredOnce es') := by
  refine ⟨deals_differ_of_one_answer, fun hdiffer es' hes => ?_, fun honce es' hes =>
    deals_differ_of_one_answer (honce es' hes)⟩
  intro before keys mid keys' hprefix hnext
  by_contra hk
  obtain ⟨rest, rfl⟩ := hprefix
  obtain ⟨mid', hmid, hnext', hsame⟩ := exists_same_shape hnext hk keys'
  have hmore : Reseeded (before ++ .tick keys :: mid ++ [.tick keys'] ++ rest)
      (before ++ .tick keys :: mid' ++ [.tick keys'] ++ rest) :=
    (((reseeded_refl before).append (.cons (Or.inl rfl) hmid)).append (reseeded_refl _)).append (reseeded_refl rest)
  exact hdiffer _ (hes.trans hmore) before keys mid' keys' (List.prefix_append _ _) hnext' hsame

/-- With one answer in between the O is followed by an S. -/
example :
    let es : List Event := [.poll 3, .tick { enter := true }, .tick {}]
    let mid : List Event := [.poll 3, .tick {}, .tick {}] ++ firstFall
    NextDeal es {} mid ∧ (answers (run sysStep powerOn (es ++ [.tick {}])) mid).length = 1 ∧
      (run sysStep powerOn (es ++ [.tick {}])).game.currentShape = Shape.O.code ∧
      (run sysStep powerOn (es ++ .tick {} :: mid ++ [.tick {}])).game.currentShape = Shape.S.code :=
  ⟨⟨⟨[], 3, _, rfl, rfl⟩, rfl, by decide +kernel, by decide +kernel⟩, by decide +kernel, by decide +kernel,
    by decide +kernel⟩

theorem firstDeals : NextDeal [.poll 3, .tick { enter := true }, .tick {}] {}
    ([.tick {}, .tick {}] ++ firstFall) where
  served := ⟨[], 3, _, rfl, rfl⟩
  deal := rfl
  between := by decide +kernel
  next := by decide +kernel

theorem same_shape_twice : ∃ es keys mid keys', NextDeal es keys mid ∧
    (run sysStep powerOn (es ++ .tick keys :: mid ++ [.tick keys'])).game.currentShape =
      (run sysStep powerOn (es ++ [.tick keys])).game.currentShape :=
  ⟨_, _, _, {}, firstDeals, by decide +kernel⟩

end Tetris
