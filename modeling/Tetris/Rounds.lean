import Tetris.Polling

/-! Rounds without end: a report is shown again and again, unless the software waits for a
completion that no list will bring, or has found no keyboard in eight reads. -/
namespace Tetris
open Machine

/-- Accesses until the message is read, or cleared without having been read. -/
def PollLabel.toRead : PollLabel → Nat
  | .wait .readAddr => 1
  | .wait .writeData => 2
  | .wait .writeAddr => 3
  | _ => 0

namespace Polling
variable {s t : Polling} {e : PollEvent}

def Unread (s : Polling) : Prop :=
  ∃ pc, s.label = .wait pc ∧ (pc = .writeAddr ∨ pc = .writeData → s.usbCtlVal ≠ husbTDListDone)

def HasRead (s : Polling) : Prop :=
  ∃ pc, s.label = .wait pc ∧ (pc = .writeAddr ∨ pc = .writeData) ∧ s.usbCtlVal = husbTDListDone

/-- What is waited for does not come, or the keyboard has been taken for removed. -/
def Ended (s : Polling) : Prop :=
  (s.Unread ∧ s.lists = [] ∧ s.msg ≠ husbTDListDone) ∨ s.label = .hotPlug ∨ ∃ n, s.label = .removed n

def Awaited (s : Polling) : Prop := s.sie1Msg = true ∨ s.Loading ∨ s.lists ≠ []

theorem access_straight {io : Io} {rest : List Io} (htodo : s.todo = io :: rest) :
    s.access.label = s.label ∧ s.access.todo = rest ∧ s.access.usbCtlVal = s.usbCtlVal ∧
      s.access.sie1Msg = s.sie1Msg ∧ s.lists <+: s.access.lists := by
  rw [access_cons htodo]
  cases io with
  | write v => exact ⟨rfl, rfl, rfl, rfl, List.prefix_append _ _⟩
  | addr v => exact ⟨rfl, rfl, rfl, rfl, List.prefix_rfl⟩
  | read => exact ⟨rfl, rfl, rfl, rfl, List.prefix_rfl⟩
  | status => exact ⟨rfl, rfl, rfl, rfl, List.prefix_rfl⟩

theorem other_step (he : e ≠ .access) (hl : s.label ≠ .random) :
    (s.step e).label = s.label ∧ (s.step e).todo = s.todo ∧ (s.step e).usbCtlVal = s.usbCtlVal ∧
      (s.step e).hpi.addr = s.hpi.addr := by
  cases e with
  | access => exact absurd rfl he
  | answer rand => simp only [step, if_neg hl, and_self]
  | report w =>
    simp only [step]
    split_ifs <;> exact ⟨rfl, rfl, rfl, rfl⟩
  | finish n =>
    simp only [step]
    split_ifs <;> exact ⟨rfl, rfl, rfl, rfl⟩
  | message m => exact ⟨rfl, rfl, rfl, rfl⟩
  | store a v => exact ⟨rfl, rfl, rfl, rfl⟩
  | lowerFlag => exact ⟨rfl, rfl, rfl, rfl⟩

theorem Awaited.other (h : s.Awaited) (he : e ≠ .access) (hl : s.label ≠ .random) (hflag : e ≠ .lowerFlag) :
    (s.step e).Awaited := by
  obtain ⟨-, htodo, -, haddr⟩ := other_step he hl
  have hload : (s.step e).Loading ↔ s.Loading := by rw [Loading, Loading, htodo, haddr]
  unfold Awaited at h ⊢
  rw [hload]
  cases e with
  | access => exact absurd rfl he
  | lowerFlag => exact absurd rfl hflag
  | message m => exact Or.inl rfl
  | answer rand => simpa only [step, if_neg hl] using h
  | report w =>
    simp only [step]
    split_ifs <;> exact h
  | finish n =>
    simp only [step]
    split_ifs
    · exact Or.inl rfl
    · exact h
  | store a v => exact h

theorem Awaited.straight (h : s.Awaited) (ha : s.Aimed) {io : Io} {rest : List Io} (htodo : s.todo = io :: rest) :
    s.access.Awaited := by
  obtain ⟨-, -, -, hflag, hlists⟩ := access_straight htodo
  obtain ⟨-, hpi, -, -, ⟨hs, hiff⟩ | ⟨hs, -⟩⟩ := io_cases ha htodo
  · unfold Awaited
    rw [hflag, hiff]
    refine h.imp_right (Or.imp_right fun hne hnil => hne ?_)
    exact List.prefix_nil.1 (hnil ▸ hlists)
  · refine Or.inr (Or.inr ?_)
    rw [hs]
    exact List.append_ne_nil_of_right_ne_nil _ (List.cons_ne_nil _ _)

theorem random_step (hl : s.label = .random) :
    (s.step e).label = .random ∨ ((∃ rand, e = .answer rand) ∧ (s.step e).label = .device 0) := by
  cases e with
  | access =>
    left
    cases htodo : s.todo with
    | cons io rest => exact (access_straight htodo).1.trans hl
    | nil => simp only [step, access, htodo, hl]
  | answer rand =>
    right
    refine ⟨⟨rand, rfl⟩, ?_⟩
    simp only [step, if_pos hl]
  | report w =>
    left
    simp only [step]
    split_ifs <;> exact hl
  | finish n =>
    left
    simp only [step]
    split_ifs <;> exact hl
  | message m => exact Or.inl hl
  | store a v => exact Or.inl hl
  | lowerFlag => exact Or.inl hl

/-- While the message is waited for, an access reads the completion, gets closer to it, or
clears the message. -/
theorem unread_access (h : s.Unread) (ha : s.Aimed) : s.access.lists = s.lists ∧
    (s.msg = husbTDListDone ∧ s.access.HasRead ∨
      s.access.Unread ∧ s.access.msg = s.msg ∧
        (s.msg = husbTDListDone → s.access.label.toRead < s.label.toRead) ∨
      s.access.Unread ∧ s.access.msg ≠ husbTDListDone) := by
  obtain ⟨pc, hl, hread⟩ := h
  simp only [Aimed, hl] at ha
  obtain ⟨htodo, haddr, hrun⟩ := ha
  cases pc with
  | returned => exact absurd rfl hrun
  | readAddr =>
    rw [access_readAddr htodo hl]
    refine ⟨rfl, Or.inr (Or.inl ⟨⟨.readData, rfl, by simp⟩, rfl, fun _ => ?_⟩)⟩
    rw [hl]
    exact Nat.zero_lt_one
  | readData =>
    rw [access_readData htodo hl (haddr (Or.inl rfl))]
    by_cases hdone : s.msg = husbTDListDone
    · exact ⟨rfl, Or.inl ⟨hdone, .writeAddr, rfl, Or.inl rfl, hdone⟩⟩
    · exact ⟨rfl, Or.inr (Or.inl ⟨⟨.writeAddr, rfl, fun _ => hdone⟩, rfl, fun hyes => absurd hyes hdone⟩)⟩
  | writeAddr =>
    rw [access_writeAddr htodo hl]
    refine ⟨rfl, Or.inr (Or.inl ⟨⟨.writeData, rfl, fun _ => hread (Or.inl rfl)⟩, rfl, fun _ => ?_⟩)⟩
    rw [hl]
    exact Nat.lt_succ_self 2
  | writeData =>
    rw [access_writeData htodo hl, if_neg (hread (Or.inr rfl))]
    refine ⟨rfl, Or.inr (Or.inr ⟨⟨.readAddr, rfl, by simp⟩, ?_⟩)⟩
    rw [msg, (cleared (haddr (Or.inr rfl))).1]
    decide

theorem unread_other (h : s.Unread) (he : e ≠ .access) :
    (s.step e).Unread ∧ (s.step e).label = s.label ∧
      ((s.step e).lists = s.lists ∧ (s.step e).msg = s.msg ∧ (e = .finish 0 → s.lists = []) ∨
        (s.step e).lists.length < s.lists.length ∨
        (s.step e).lists = s.lists ∧ (s.step e).msg ≠ husbTDListDone ∧ e ≠ .finish 0) := by
  obtain ⟨pc, hl, hread⟩ := h
  have hrandom : s.label ≠ .random := by simp [hl]
  obtain ⟨hlabel, -, hval, -⟩ := other_step he hrandom
  refine ⟨⟨pc, hlabel.trans hl, by rwa [hval]⟩, hlabel, ?_⟩
  cases e with
  | access => exact absurd rfl he
  | answer rand =>
    have hs : s.step (.answer rand) = s := by simp only [step, if_neg hrandom]
    rw [hs]
    exact Or.inl ⟨rfl, rfl, by simp⟩
  | report w =>
    left
    by_cases hlists : s.lists = []
    · have hs : s.step (.report w) = s := by simp only [step, if_pos hlists]
      rw [hs]
      exact ⟨rfl, rfl, by simp⟩
    · have hs : s.step (.report w) = { s.setMem reportWord w with arrived := s.arrived ++ [w] } := by
        simp only [step, if_neg hlists]
      rw [hs]
      refine ⟨rfl, ?_, by simp⟩
      simp only [msg, setMem, Function.update_of_ne (by decide : hpiSie1MsgAdr ≠ reportWord)]
  | finish n =>
    simp only [step]
    split_ifs with hn
    · right
      left
      simp only [List.length_eraseIdx_of_lt hn]
      omega
    · refine Or.inl ⟨rfl, rfl, fun hzero => ?_⟩
      obtain rfl := PollEvent.finish.inj hzero
      exact List.eq_nil_of_length_eq_zero (by omega)
  | message m =>
    refine Or.inr (Or.inr ⟨rfl, ?_, by simp⟩)
    simpa [step, setMem, msg] using m.2
  | store a v =>
    refine Or.inl ⟨rfl, ?_, by simp⟩
    simp only [step, setMem, msg, Function.update_of_ne a.2.1.symm]
  | lowerFlag => exact Or.inl ⟨rfl, rfl, by simp⟩

theorem Ended.step (h : s.Ended) (ha : s.Aimed) (e : PollEvent) : (s.step e).Ended := by
  obtain ⟨hunread, hlists, hmsg⟩ | hgone := h
  · left
    by_cases he : e = .access
    · rw [he]
      obtain ⟨hkept, ⟨hdone, -⟩ | ⟨hagain, hsame, -⟩ | ⟨hagain, hclear⟩⟩ := unread_access hunread ha
      · exact absurd hdone hmsg
      · exact ⟨hagain, hkept.trans hlists, fun hdone => hmsg (hsame.symm.trans hdone)⟩
      · exact ⟨hagain, hkept.trans hlists, hclear⟩
    · obtain ⟨hagain, -, ⟨hkept, hsame, -⟩ | hfewer | ⟨hkept, hclear, -⟩⟩ := unread_other hunread he
      · exact ⟨hagain, hkept.trans hlists, fun hdone => hmsg (hsame.symm.trans hdone)⟩
      · rw [hlists] at hfewer
        exact absurd hfewer (Nat.not_lt_zero _)
      · exact ⟨hagain, hkept.trans hlists, hclear⟩
  · right
    by_cases he : e = .access
    · rw [he]
      change s.access.label = _ ∨ ∃ n, s.access.label = _
      cases htodo : s.todo with
      | cons io rest =>
        rw [(access_straight htodo).1]
        exact hgone
      | nil =>
        obtain hl | ⟨n, hl⟩ := hgone
        · left
          simp only [access, htodo, hl]
        · by_cases hback : n = 2 ∧ s.hpi.readData.1 &&& noDevice ≠ 0
          · left
            simp only [access, htodo, hl, if_pos hback]
          · refine Or.inr ⟨n + 1, ?_⟩
            simp only [access, htodo, hl, if_neg hback]
    · have hrandom : s.label ≠ .random := by
        obtain hl | ⟨n, hl⟩ := hgone <;> simp [hl]
      rw [(other_step he hrandom).1]
      exact hgone

theorem awaited_step (h : s.label = .testFlag → s.Awaited) (ha : s.Aimed)
    (hflag : e = .lowerFlag → s.label ≠ .testFlag) (hl : (s.step e).label = .testFlag) : (s.step e).Awaited := by
  by_cases hrandom : s.label = .random
  · obtain hl' | ⟨-, hl'⟩ := random_step (e := e) hrandom <;> rw [hl'] at hl <;> cases hl
  by_cases he : e = .access
  · rw [he] at hl ⊢
    change s.access.label = _ at hl
    change s.access.Awaited
    cases htodo : s.todo with
    | cons io rest =>
      exact (h ((access_straight htodo).1.symm.trans hl)).straight ha htodo
    | nil =>
      cases hlabel : s.label with
      | testFlag =>
        rw [access_testFlag htodo hlabel] at hl ⊢
        split_ifs at hl ⊢
        exact Or.inr (Or.inl (loading_of_loads (reportIn_loads _ _ _)))
      | wait pc =>
        simp only [access, htodo, hlabel] at hl
        split_ifs at hl
      | keycode =>
        simp only [Aimed, hlabel, htodo] at ha
        rw [access_keycode htodo hlabel (ha.resolve_left (by simp)).2] at hl
        cases hl
      | random | device _ | removed _ | hotPlug =>
        obtain ⟨hpi, ios, label, hs, -, hrest, -⟩ | hs := access_resting htodo (by rw [hlabel]; rfl)
        · rw [hs] at hl
          rw [show label = .testFlag from hl] at hrest
          cases hrest
        · rw [hs]
          exact Or.inr (Or.inl (round_loading _))
  · have hlabel := (other_step he hrandom).1.symm.trans hl
    exact (h hlabel).other he hrandom fun hlower => hflag hlower hlabel

theorem access_flagUp (htodo : s.todo = []) (hl : s.label = .testFlag) (hup : s.sie1Msg = true) : s.access.Unread := by
  rw [access_testFlag htodo hl, if_pos hup]
  exact ⟨.readAddr, rfl, by simp⟩

theorem flag_stays (hup : s.sie1Msg = true) (he : e ≠ .access) (hflag : e ≠ .lowerFlag) :
    (s.step e).sie1Msg = true := by
  cases e with
  | access => exact absurd rfl he
  | lowerFlag => exact absurd rfl hflag
  | message m => rfl
  | store a v => exact hup
  | answer rand =>
    simp only [step]
    split_ifs <;> exact hup
  | report w =>
    simp only [step]
    split_ifs <;> exact hup
  | finish n =>
    simp only [step]
    split_ifs
    · rfl
    · exact hup

theorem listed_step (hl : s.label = .testFlag) (hne : s.lists ≠ []) (e : PollEvent) :
    ((s.step e).Unread ∨ ((s.step e).label = .testFlag ∧ (s.step e).sie1Msg = true)) ∨
      (((s.step e).label = .testFlag ∧ (s.step e).lists ≠ []) ∧ e ≠ .finish 0) := by
  cases e with
  | access =>
    change (s.access.Unread ∨ _) ∨ ((s.access.label = _ ∧ s.access.lists ≠ _) ∧ _)
    cases htodo : s.todo with
    | cons io rest =>
      obtain ⟨hlabel, -, -, -, hlists⟩ := access_straight htodo
      exact Or.inr ⟨⟨hlabel.trans hl, fun hnil => hne (List.prefix_nil.1 (hnil ▸ hlists))⟩, by simp⟩
    | nil =>
      by_cases hup : s.sie1Msg = true
      · exact Or.inl (Or.inl (access_flagUp htodo hl hup))
      · right
        rw [access_testFlag htodo hl, if_neg hup]
        exact ⟨⟨hl, hne⟩, by simp⟩
  | answer rand =>
    have hs : s.step (.answer rand) = s := by simp [step, hl]
    rw [hs]
    exact Or.inr ⟨⟨hl, hne⟩, by simp⟩
  | report w =>
    have hs : s.step (.report w) = { s.setMem reportWord w with arrived := s.arrived ++ [w] } := by
      simp only [step, if_neg hne]
    rw [hs]
    exact Or.inr ⟨⟨hl, hne⟩, by simp⟩
  | finish n =>
    by_cases hn : n < s.lists.length
    · left
      right
      simp only [step, if_pos hn]
      exact ⟨hl, trivial⟩
    · have hs : s.step (.finish n) = s := by simp only [step, if_neg hn]
      rw [hs]
      refine Or.inr ⟨⟨hl, hne⟩, fun hzero => hn ?_⟩
      obtain rfl := PollEvent.finish.inj hzero
      exact List.length_pos_of_ne_nil hne
  | message m => exact Or.inl (Or.inr ⟨hl, rfl⟩)
  | store a v => exact Or.inr ⟨⟨hl, hne⟩, by simp⟩
  | lowerFlag => exact Or.inr ⟨⟨hl, hne⟩, by simp⟩

/-- Completions that are still to come or to be read, the unread ones counted once, and the
accesses up to the next read. -/
def delay (s : Polling) : Nat :=
  4 * (2 * s.lists.length + count s.msg) + if s.msg = husbTDListDone then s.label.toRead else 0

def Helps (s : Polling) (e : PollEvent) : Prop :=
  if s.msg = husbTDListDone then e = .access else e = .finish 0

theorem toRead_le (l : PollLabel) : l.toRead ≤ 3 := by
  unfold PollLabel.toRead
  split <;> decide

theorem delay_lt (hlists : t.lists.length < s.lists.length) : t.delay < s.delay := by
  have hcount := count_le t.msg
  have hread := toRead_le t.label
  unfold delay
  split_ifs <;> omega

theorem helps_congr (h : t.msg = husbTDListDone ↔ s.msg = husbTDListDone) (e : PollEvent) : t.Helps e ↔ s.Helps e := by
  unfold Helps
  simp only [h]

theorem delay_overwritten (hlists : t.lists = s.lists) (hmsg : t.msg ≠ husbTDListDone) (he : e ≠ .finish 0) :
    t.delay < s.delay ∨ (t.delay ≤ s.delay ∧ ¬ s.Helps e ∧ ∀ i, s.Helps i → t.Helps i) := by
  by_cases hdone : s.msg = husbTDListDone
  · left
    rw [delay, delay, hlists, if_neg hmsg, count_other hmsg, count, if_pos hdone]
    omega
  · refine Or.inr ⟨le_of_eq ?_, ?_, fun i => (helps_congr (iff_of_false hmsg hdone) i).2⟩
    · rw [delay, delay, hlists, if_neg hmsg, if_neg hdone, count_other hmsg, count_other hdone]
    · rwa [Helps, if_neg hdone]

/-- While the software waits, each step brings the completion closer, or leaves to come
what brings it. -/
theorem unread_step (h : s.Unread) (ha : s.Aimed) (hlive : ¬ s.Ended) (e : PollEvent) :
    (s.step e).HasRead ∨ ((s.step e).Unread ∧ ((s.step e).delay < s.delay ∨
      ((s.step e).delay ≤ s.delay ∧ ¬ s.Helps e ∧ ∀ i, s.Helps i → (s.step e).Helps i))) := by
  by_cases he : e = .access
  · subst he
    change s.access.HasRead ∨ (s.access.Unread ∧ (s.access.delay < _ ∨ (s.access.delay ≤ _ ∧ _)))
    obtain ⟨hlists, ⟨-, hread⟩ | ⟨hagain, hsame, hcloser⟩ | ⟨hagain, hclear⟩⟩ := unread_access h ha
    · exact Or.inl hread
    · refine Or.inr ⟨hagain, ?_⟩
      by_cases hdone : s.msg = husbTDListDone
      · left
        have hless := hcloser hdone
        simp only [delay, hlists, hsame, if_pos hdone]
        omega
      · exact delay_overwritten hlists (hsame ▸ hdone) (by simp)
    · exact Or.inr ⟨hagain, delay_overwritten hlists hclear (by simp)⟩
  · obtain ⟨hagain, hlabel, ⟨hlists, hsame, hfinish⟩ | hfewer | ⟨hlists, hclear, hfinish⟩⟩ := unread_other h he
    · refine Or.inr ⟨hagain, Or.inr ⟨le_of_eq ?_, fun hhelps => ?_, fun i => (helps_congr (by rw [hsame]) i).2⟩⟩
      · simp only [delay, hlists, hsame, hlabel]
      · unfold Helps at hhelps
        split_ifs at hhelps with hdone
        · exact he hhelps
        · -- with no list to finish, the loop would have ended
          exact hlive (Or.inl ⟨h, hfinish hhelps, hdone⟩)
    · exact Or.inr ⟨hagain, Or.inl (delay_lt hfewer)⟩
    · exact Or.inr ⟨hagain, delay_overwritten hlists hclear hfinish⟩

theorem shows_of_leaving (hl : s.label = .keycode) (hne : (s.step e).label ≠ .keycode) : s.Shows e := by
  by_cases he : e = .access
  · refine ⟨he, ?_, hl⟩
    by_contra hmore
    obtain ⟨io, rest, htodo⟩ := List.exists_cons_of_ne_nil hmore
    rw [he] at hne
    exact hne ((access_straight htodo).1.trans hl)
  · exact absurd ((other_step he (by simp [hl])).1.trans hl) hne

/-- The software goes on and looks at the game's request when it comes to it, the list that
is first in line is finished in the end, and the flag stays up while it is polled. -/
structure Fair (f : Nat → PollEvent) (s : Polling) : Prop where
  accesses : ∀ n, ∃ m, n ≤ m ∧ f m = .access
  answers : ∀ n, (after step f s n).label = .random → ∃ m, n ≤ m ∧ ∃ rand, f m = .answer rand
  finishes : ∀ n, (after step f s n).lists ≠ [] → ∃ m, n ≤ m ∧ f m = .finish 0
  flag : ∀ n, f n = .lowerFlag → (after step f s n).label ≠ .testFlag

section Stream
variable {f : Nat → PollEvent}

theorem Fair.looks (hf : Fair f s) {l : PollLabel} (hl : l ≠ .random) {R Q : Polling → Prop}
    (hkeep : ∀ n, let t := after step f s n
      t.label = l → R t → (f n = .access → t.todo ≠ []) → R (t.step (f n)))
    (hlook : ∀ n, let t := after step f s n; f n = .access → t.label = l → R t → t.todo = [] → Q t.access) :
    LeadsTo step f s (fun t => t.label = l ∧ R t) Q := by
  refine LeadsTo.of_fair (fun t => t.todo.length) (fun _ e => e = .access) (fun n _ => hf.accesses n) ?_
  rintro n t ⟨hlabel, hR⟩ -
  by_cases he : f n = .access
  · cases htodo : t.todo with
    | nil =>
      left
      rw [he]
      exact hlook n he hlabel hR htodo
    | cons io rest =>
      have hkept : R (t.step (f n)) := hkeep n hlabel hR fun _ => htodo ▸ List.cons_ne_nil io rest
      obtain ⟨hlabel', htodo', -⟩ := access_straight htodo
      rw [he] at hkept ⊢
      refine Or.inr ⟨⟨hlabel'.trans hlabel, hkept⟩, Or.inl ?_⟩
      change t.access.todo.length < _
      rw [htodo', List.length_cons]
      exact Nat.lt_succ_self _
  · obtain ⟨hlabel', htodo', -⟩ := other_step he (hlabel ▸ hl)
    refine Or.inr ⟨⟨hlabel'.trans hlabel, hkeep n hlabel hR fun h => absurd h he⟩, Or.inr ⟨?_, he, fun _ => id⟩⟩
    exact (congrArg List.length htodo').le

theorem Fair.answered (hf : Fair f s) :
    LeadsTo step f s (fun t => t.label = .random) fun t => t.label = .device 0 := by
  refine LeadsTo.of_fair (fun _ => 0) (fun _ e => ∃ rand, e = .answer rand) hf.answers ?_
  rintro n t hl -
  by_cases he : ∃ rand, f n = .answer rand
  · obtain ⟨rand, he⟩ := he
    left
    rw [he]
    simp only [step, if_pos hl]
  · obtain hl' | ⟨hyes, -⟩ := random_step (e := f n) hl
    · exact Or.inr ⟨hl', Or.inr ⟨le_rfl, he, fun _ => id⟩⟩
    · exact absurd hyes he

theorem device_looks {tries : Nat} (htodo : s.todo = []) (hl : s.label = .device tries) :
    s.access.label = .testFlag ∨ (tries < 7 ∧ s.access.label = .device (tries + 1)) ∨
      s.access.label = .removed 0 := by
  by_cases hpresent : s.hpi.readData.1 &&& noDevice ≠ 0
  · left
    simp only [access, htodo, hl, if_pos hpresent, round]
  · by_cases htries : tries < 7
    · refine Or.inr (Or.inl ⟨htries, ?_⟩)
      simp only [access, htodo, hl, if_neg hpresent, if_pos htries]
    · refine Or.inr (Or.inr ?_)
      simp only [access, htodo, hl, if_neg hpresent, if_neg htries]

def triesLeft (s : Polling) : Nat :=
  match s.label with
  | .device tries => 8 - tries
  | _ => 0

theorem Fair.next_round (hf : Fair f s) (hlive : ∀ n, ¬ (after step f s n).Ended) :
    LeadsTo step f s (fun t => ∃ tries, t.label = .device tries) fun t => t.label = .testFlag := by
  refine LeadsTo.of_descent triesLeft fun r n hn => ?_
  obtain ⟨⟨tries, hl⟩, hr⟩ := hn
  refine hf.looks (l := .device tries) (R := fun _ => True)
    (Q := fun t => t.label = .testFlag ∨ (∃ tries, t.label = .device tries) ∧ t.triesLeft < r)
    (by simp) (fun _ _ _ _ => trivial) ?_ n ⟨hl, trivial⟩
  intro m t he hl' _ htodo
  obtain hnext | ⟨htries, hagain⟩ | hgone := device_looks htodo hl'
  · exact Or.inl hnext
  · refine Or.inr ⟨⟨tries + 1, hagain⟩, ?_⟩
    rw [← hr]
    simp only [triesLeft, hagain, hl]
    omega
  · refine absurd (Or.inr (Or.inr ⟨0, ?_⟩)) (hlive (m + 1))
    change (t.step (f m)).label = _
    rw [he]
    exact hgone

section Waits
variable (hf : Fair f s) (ha : ∀ n, (after step f s n).Aimed)
include hf ha

theorem keycode_passes : LeadsTo step f s (fun t => t.label = .keycode) fun t => t.label ≠ .keycode := by
  intro n hn
  refine hf.looks (l := .keycode) (R := fun _ => True) (Q := fun t => t.label ≠ .keycode)
    (by simp) (fun _ _ _ _ => trivial) ?_ n ⟨hn, trivial⟩
  intro m t _ hl _ htodo
  have haimed : t.Aimed := ha m
  simp only [Aimed, hl, htodo] at haimed
  rw [access_keycode htodo hl (haimed.resolve_left (by simp)).2]
  simp

theorem read_followed : LeadsTo step f s HasRead fun t => t.label = .keycode := by
  refine LeadsTo.of_fair (fun t => t.label.toRead) (fun _ e => e = .access) (fun n _ => hf.accesses n) ?_
  rintro n t ⟨pc, hl, hpc, hdone⟩ -
  have haimed : t.Aimed := ha n
  simp only [Aimed, hl] at haimed
  obtain ⟨htodo, -⟩ := haimed
  by_cases he : f n = .access
  · rw [he]
    obtain rfl | rfl := hpc
    · right
      change t.access.HasRead ∧ (t.access.label.toRead < _ ∨ _)
      rw [access_writeAddr htodo hl]
      refine ⟨⟨.writeData, rfl, Or.inr rfl, hdone⟩, Or.inl ?_⟩
      rw [hl]
      exact Nat.lt_succ_self 2
    · left
      change t.access.label = _
      rw [access_writeData htodo hl, if_pos hdone]
  · obtain ⟨hlabel, -, hval, -⟩ := other_step he (s := t) (by simp [hl])
    refine Or.inr ⟨⟨pc, hlabel.trans hl, hpc, hval.trans hdone⟩, Or.inr ⟨?_, he, fun _ => id⟩⟩
    exact (congrArg PollLabel.toRead hlabel).le

theorem completion_read (hlive : ∀ n, ¬ (after step f s n).Ended) : LeadsTo step f s Unread HasRead := by
  refine LeadsTo.of_fair delay Helps (fun n hunread => ?_) fun n hunread _ =>
    unread_step hunread (ha n) (hlive n) (f n)
  unfold Helps
  split_ifs with hdone
  · exact hf.accesses n
  · exact hf.finishes n fun hnone => hlive n (Or.inl ⟨hunread, hnone, hdone⟩)

theorem flag_seen (hw : ∀ n, (after step f s n).label = .testFlag → (after step f s n).Awaited) :
    LeadsTo step f s (fun t => t.label = .testFlag) Unread := by
  have hup : LeadsTo step f s (fun t => t.label = .testFlag ∧ t.sie1Msg = true) Unread := by
    refine hf.looks (by simp) ?_ fun n _ hl hflag htodo => access_flagUp htodo hl hflag
    intro n t hl hflag hmore
    by_cases he : f n = .access
    · obtain ⟨io, rest, htodo⟩ := List.exists_cons_of_ne_nil (hmore he)
      rw [he]
      exact (access_straight htodo).2.2.2.1.trans hflag
    · exact flag_stays hflag he fun hlower => hf.flag n hlower hl
  have hlisted : LeadsTo step f s (fun t => t.label = .testFlag ∧ t.lists ≠ [])
      fun t => t.Unread ∨ (t.label = .testFlag ∧ t.sie1Msg = true) := by
    refine LeadsTo.of_fair (fun _ => 0) (fun _ e => e = .finish 0) (fun n hn => hf.finishes n hn.2) ?_
    rintro n t ⟨hl, hne⟩ -
    refine (listed_step hl hne (f n)).imp_right fun ⟨hagain, hno⟩ => ?_
    exact ⟨hagain, Or.inr ⟨le_rfl, hno, fun _ => id⟩⟩
  have hsubmitted : LeadsTo step f s (fun t => t.label = .testFlag ∧ t.Awaited)
      fun t => t.Unread ∨ (t.label = .testFlag ∧ t.lists ≠ []) := by
    refine hf.looks (by simp) ?_ ?_
    · intro n t hl hawaited hmore
      by_cases he : f n = .access
      · obtain ⟨io, rest, htodo⟩ := List.exists_cons_of_ne_nil (hmore he)
        rw [he]
        exact hawaited.straight (ha n) htodo
      · exact hawaited.other he (by simp [hl]) fun hlower => hf.flag n hlower hl
    · intro n t _ hl hawaited htodo
      by_cases hflag : t.sie1Msg = true
      · exact Or.inl (access_flagUp htodo hl hflag)
      · -- the list is loaded once more, with the one submitted before it still in progress
        have hne : t.lists ≠ [] := (hawaited.resolve_left hflag).resolve_left (not_loading htodo)
        right
        rw [access_testFlag htodo hl, if_neg hflag]
        exact ⟨hl, hne⟩
  have hread : LeadsTo step f s Unread Unread := LeadsTo.of_imp fun _ => id
  intro n hl
  exact (hsubmitted.trans (hread.or (hlisted.trans (hread.or hup)))) n ⟨hl, hw n hl⟩

theorem comes_to_keycode (hw : ∀ n, (after step f s n).label = .testFlag → (after step f s n).Awaited)
    (hlive : ∀ n, ¬ (after step f s n).Ended) : LeadsTo step f s (fun _ => True) fun t => t.label = .keycode := by
  have hread := read_followed hf ha
  have hwait := (completion_read hf ha hlive).trans hread
  have hflag := (flag_seen hf ha hw).trans hwait
  have hdevice := (hf.next_round hlive).trans hflag
  intro n _
  cases hl : (after step f s n).label with
  | testFlag => exact hflag n hl
  | wait pc =>
    by_cases hdone : (pc = .writeAddr ∨ pc = .writeData) ∧ (after step f s n).usbCtlVal = husbTDListDone
    · exact hread n ⟨pc, hl, hdone⟩
    · exact hwait n ⟨pc, hl, not_and.1 hdone⟩
  | keycode => exact ⟨n, le_rfl, hl⟩
  | random => exact ((hf.answered.trans (LeadsTo.of_imp fun t ht => ⟨0, ht⟩)).trans hdevice) n hl
  | device tries => exact hdevice n ⟨tries, hl⟩
  | removed k => exact absurd (Or.inr (Or.inr ⟨k, hl⟩)) (hlive n)
  | hotPlug => exact absurd (Or.inr (Or.inl hl)) (hlive n)

theorem shows_again (hw : ∀ n, (after step f s n).label = .testFlag → (after step f s n).Awaited)
    (hlive : ∀ n, ¬ (after step f s n).Ended) (n : Nat) :
    ∃ m, n ≤ m ∧ (after step f s m).Shows (f m) := by
  obtain ⟨k, hk, hl⟩ := comes_to_keycode hf ha hw hlive n trivial
  obtain ⟨m, hm, hpast⟩ := keycode_passes hf ha k hl
  obtain ⟨j, hj, hat, hleft⟩ := exists_ending (P := fun t : Polling => t.label = .keycode) hm hl hpast
  exact ⟨j, hk.trans hj, shows_of_leaving hat hleft⟩

end Waits

theorem ended_ever (ha : ∀ n, (after step f s n).Aimed) {n m : Nat} (hle : n ≤ m) (h : (after step f s n).Ended) :
    (after step f s m).Ended := by
  induction m, hle using Nat.le_induction with
  | base => exact h
  | succ m _ ih => exact ih.step (ha m) (f m)

theorem ended_silent (h : s.Ended) : ¬ s.Shows e := by
  rintro ⟨-, -, hl⟩
  obtain ⟨⟨pc, hl', -⟩, -⟩ | hl' | ⟨n, hl'⟩ := h <;> rw [hl'] at hl <;> cases hl

end Stream

theorem access_grows (s : Polling) : s.shown <+: s.access.shown ∧ s.access.completed = s.completed := by
  cases htodo : s.todo with
  | cons io rest =>
    rw [access_cons htodo]
    cases io <;> exact ⟨List.prefix_rfl, rfl⟩
  | nil =>
    unfold Polling.access
    rw [htodo]
    dsimp only
    repeat' split
    all_goals first | exact ⟨List.prefix_rfl, rfl⟩ | exact ⟨List.prefix_append _ _, rfl⟩

theorem step_grows (s : Polling) (e : PollEvent) :
    s.shown <+: (s.step e).shown ∧ s.completed <+: (s.step e).completed := by
  cases e with
  | access => exact ⟨(access_grows s).1, (access_grows s).2 ▸ List.prefix_rfl⟩
  | answer rand =>
    simp only [step]
    split_ifs <;> exact ⟨List.prefix_rfl, List.prefix_rfl⟩
  | report w =>
    simp only [step]
    split_ifs <;> exact ⟨List.prefix_rfl, List.prefix_rfl⟩
  | finish n =>
    simp only [step]
    split_ifs
    · exact ⟨List.prefix_rfl, List.prefix_append _ _⟩
    · exact ⟨List.prefix_rfl, List.prefix_rfl⟩
  | message m => exact ⟨List.prefix_rfl, List.prefix_rfl⟩
  | store a v => exact ⟨List.prefix_rfl, List.prefix_rfl⟩
  | lowerFlag => exact ⟨List.prefix_rfl, List.prefix_rfl⟩

theorem after_grows {f : Nat → PollEvent} {n m : Nat} (hle : n ≤ m) :
    (after step f s n).shown <+: (after step f s m).shown ∧
      (after step f s n).completed <+: (after step f s m).completed := by
  induction m, hle using Nat.le_induction with
  | base => exact ⟨List.prefix_rfl, List.prefix_rfl⟩
  | succ m _ ih =>
    obtain ⟨hshown, hcompleted⟩ := step_grows (after step f s m) (f m)
    exact ⟨ih.1.trans hshown, ih.2.trans hcompleted⟩

theorem shows_adds (ha : s.Aimed) (h : s.Shows e) : (s.step e).shown.length = s.shown.length + 1 := by
  obtain ⟨rfl, htodo, hl⟩ := h
  simp only [Aimed, hl, htodo] at ha
  change s.access.shown.length = _
  rw [access_keycode htodo hl (ha.resolve_left (by simp)).2, List.length_append, List.length_singleton]

theorem shown_unbounded {f : Nat → PollEvent} (ha : ∀ n, (after step f s n).Aimed)
    (hshows : ∀ n, ∃ m, n ≤ m ∧ (after step f s m).Shows (f m)) (n len : Nat) :
    ∃ m, n ≤ m ∧ len ≤ (after step f s m).shown.length := by
  induction len with
  | zero => exact ⟨n, le_rfl, Nat.zero_le _⟩
  | succ len ih =>
    obtain ⟨m, hm, hlen⟩ := ih
    obtain ⟨k, hk, hshow⟩ := hshows m
    refine ⟨k + 1, by omega, ?_⟩
    have hlonger : (after step f s (k + 1)).shown.length = (after step f s k).shown.length + 1 :=
      shows_adds (ha k) hshow
    have hkept := (after_grows hk (f := f) (s := s)).1.length_le
    omega

section First
variable (hpi : Hpi) (m : OtherMsg) (sie1Msg : Bool) (toggle dataSize : BitVec 8) (key : BitVec 16)
  {f : Nat → PollEvent}

theorem honest_after (n : Nat) :
    (after step f (first hpi m sie1Msg toggle dataSize key) n).Honest (hpi.mem reportWord) key :=
  after_invariant step f (I := Honest (hpi.mem reportWord) key) (fun _ n h => honest_step h (f n))
    (first_honest hpi m sie1Msg toggle dataSize key) n

theorem awaited_after (hf : Fair f (first hpi m sie1Msg toggle dataSize key)) (n : Nat) :
    (after step f (first hpi m sie1Msg toggle dataSize key) n).label = .testFlag →
      (after step f (first hpi m sie1Msg toggle dataSize key) n).Awaited := by
  induction n with
  | zero => exact fun _ => Or.inr (Or.inl (round_loading _))
  | succ n ih => exact awaited_step ih (honest_after hpi m sie1Msg toggle dataSize key n).aimed (hf.flag n)

/-- However often lists are submitted and messages overwritten, a report is shown again and
again exactly if the software is never left waiting with all lists finished and no completion
to be read, and the keyboard is never taken for removed. -/
theorem shows_for_ever_iff (hf : Fair f (first hpi m sie1Msg toggle dataSize key)) :
    let s := first hpi m sie1Msg toggle dataSize key
    (∀ n, ∃ k, n ≤ k ∧ (after step f s k).Shows (f k)) ↔ ∀ n, ¬ (after step f s n).Ended := by
  intro s
  have ha (n : Nat) : (after step f s n).Aimed := (honest_after hpi m sie1Msg toggle dataSize key n).aimed
  constructor
  · intro hshows n hended
    obtain ⟨k, hk, hshow⟩ := hshows n
    exact ended_silent (ended_ever ha hk hended) hshow
  · exact shows_again hf ha (awaited_after hpi m sie1Msg toggle dataSize key hf)

/-- Where no list is submitted again and the loop does not end, every completed report is
shown in the end, and the reports are shown in the order of their completion. -/
theorem all_reports_shown (hf : Fair f (first hpi m sie1Msg toggle dataSize key))
    (honce : ∀ n, (after step f (first hpi m sie1Msg toggle dataSize key) n).Once (f n))
    (hlive : ∀ n, ¬ (after step f (first hpi m sie1Msg toggle dataSize key) n).Ended) (n : Nat) :
    let s := first hpi m sie1Msg toggle dataSize key
    (after step f s n).shown <+: (after step f s n).completed ∧
      ∃ k, n ≤ k ∧ (after step f s n).completed <+: (after step f s k).shown := by
  intro s
  have ha (n : Nat) : (after step f s n).Aimed := (honest_after hpi m sie1Msg toggle dataSize key n).aimed
  have htracked (n : Nat) : (after step f s n).Tracked := by
    induction n with
    | zero => exact first_tracked hpi m sie1Msg toggle dataSize key
    | succ n ih => exact tracked_step ih (ha n) (honce n)
  have hshows := shows_again hf ha (awaited_after hpi m sie1Msg toggle dataSize key hf) hlive
  refine ⟨(htracked n).in_order.1, ?_⟩
  obtain ⟨k, hk, hlong⟩ := shown_unbounded ha hshows n (after step f s n).completed.length
  exact ⟨k, hk, List.prefix_of_prefix_length_le (after_grows hk).2 (htracked k).in_order.1 hlong⟩

end First

theorem prompt_once (h : s.Ready) (w : BitVec 16) : Throughout step Once s (promptRound w) := by
  obtain ⟨hpi, flag, lists, todo, label, v, toggle, dataSize, key, submitted, arrived, completed, shown⟩ := s
  obtain ⟨htodo, hlabel, hlists, hdevice⟩ := h
  dsimp only at htodo hlabel hlists hdevice
  subst htodo hlabel hlists
  simp [promptRound, List.replicate, Throughout, Once, Resubmits, step, access, reportIn, submit, usbWrite,
    Polling.io, Hpi.writeAddr, Hpi.writeData, Hpi.readData, Wait.access, husbSie1PCurrentTDPtr, hpiSie1MsgAdr,
    reportWord, ctlReg, setMem, husbTDListDone]

def heldKey : Nat → PollEvent := cycle (promptRound 0x0016) .access

theorem zero_not_done : (0 : BitVec 16) ≠ husbTDListDone := by decide

def heldStart : Polling := first ⟨0, fun _ => 0x1000⟩ ⟨0, zero_not_done⟩ false 0 8 0

theorem heldStart_ready : heldStart.Ready := by decide

theorem heldKey_once (n : Nat) : (after step heldKey heldStart n).Once (heldKey n) :=
  cycle_forall step (I := Ready) (by decide) (fun _ h => prompt_ready h 0x0016)
    (fun _ h => prompt_once h 0x0016) heldStart_ready .access n

theorem heldKey_at (k : Nat) {j : Nat} (hj : j < (promptRound 0x0016).length) :
    heldKey (21 * k + j) = (promptRound 0x0016)[j] :=
  cycle_at hj .access k

theorem heldKey_fair : Fair heldKey heldStart := by
  refine ⟨fun n => ?_, fun n _ => ?_, fun n _ => ?_, fun n hn => ?_⟩
  · exact ⟨21 * n + 0, by omega, heldKey_at n (by decide)⟩
  · exact ⟨21 * n + 18, by omega, 0, heldKey_at n (by decide)⟩
  · exact ⟨21 * n + 10, by omega, heldKey_at n (by decide)⟩
  · have hne : promptRound 0x0016 ≠ [] := by decide
    have hmem : heldKey n ∈ promptRound 0x0016 := mem_cycle hne .access n
    rw [hn] at hmem
    exact absurd hmem (by decide)

theorem heldKey_goes_on (n : Nat) : ¬ (after step heldKey heldStart n).Ended := by
  intro hended
  have ha (n : Nat) := (honest_after _ _ _ _ _ _ n : (after step heldKey heldStart n).Honest _ _).aimed
  have hlater : (after step heldKey heldStart (21 * n)).Ended := ended_ever ha (by omega) hended
  have hready : (after step heldKey heldStart (21 * n)).Ready :=
    cycle_start step (I := Ready) (fun _ h => prompt_ready h 0x0016) heldStart_ready .access n
  obtain ⟨⟨pc, hl, -⟩, -⟩ | hl | ⟨k, hl⟩ := hlater <;> rw [hready.label] at hl <;> cases hl

theorem heldKey_shown_for_ever :
    (∀ n, ∃ k, n ≤ k ∧ (after step heldKey heldStart k).Shows (heldKey k)) ∧
      ∀ n, ¬ (after step heldKey heldStart n).Ended :=
  ⟨(shows_for_ever_iff _ _ _ _ _ _ heldKey_fair).2 heldKey_goes_on, heldKey_goes_on⟩

theorem heldKey_first_report :
    (after step heldKey heldStart 11).shown <+: (after step heldKey heldStart 11).completed ∧
      ∃ k, 11 ≤ k ∧ (after step heldKey heldStart 11).completed <+: (after step heldKey heldStart k).shown :=
  all_reports_shown _ _ _ _ _ _ heldKey_fair heldKey_once heldKey_goes_on 11

end Polling

end Tetris
