import Tetris.Enumeration

/-! The loop of `main` after the enumeration: each round asks the keyboard for a report,
waits for the completion, shows the report's third byte to the game, answers the game's
request for a shape, and looks whether the keyboard is still there. -/
namespace Tetris
open Machine

/-- Where the third byte of a report is found. -/
def reportWord : BitVec 16 := 0x051e

def ctlReg : BitVec 16 := 0xC08A

/-- `A_DP_STAT | A_DM_STAT`; either bit tells of a device. -/
def noDevice : BitVec 16 := 0x2000 ||| 0x1000

/-- The list of a round: one transfer from endpoint 1, with the data toggle of the round. -/
def reportIn (toggle dataSize : BitVec 8) : List Io := submit [
  0x051c, dataSize.setWidth 16 &&& 0x000f, 0x0291, if toggle.toNat % 2 = 1 then 0x0001 else 0x0041,
  0x0013, 0x0000]

inductive PollLabel where
  | testFlag
  | wait (pc : WaitPc)
  /-- `keycode = IO_read(HPI_DATA)`, and the store that shows it -/
  | keycode
  /-- `if (*random_needed)` and what follows it -/
  | random
  /-- `UsbRead(ctl_reg)`, after a number of reads that found no device -/
  | device (tries : Nat)
  /-- the three reads of the loop for a keyboard that has been removed -/
  | removed (n : Fin 3)
  | hotPlug
  deriving DecidableEq

def PollLabel.resting : PollLabel → Bool
  | .random | .device _ | .removed _ | .hotPlug => true
  | .testFlag | .wait _ | .keycode => false

/-- Software and controller. `lists` has the toggles of the submitted lists that are not
finished. The last four are no variables but what has happened: the lists submitted, by
their toggles; the reports that came in, by the word that is read; that word at each
completion; and as it was shown. -/
structure Polling where
  hpi : Hpi
  sie1Msg : Bool
  lists : List (BitVec 8)
  todo : List Io
  label : PollLabel
  usbCtlVal : BitVec 16
  toggle : BitVec 8
  dataSize : BitVec 8
  keycode : BitVec 16
  submitted : List (BitVec 8)
  arrived : List (BitVec 16)
  completed : List (BitVec 16)
  shown : List (BitVec 16)

inductive PollEvent where
  | access
  /-- the game's request is looked at -/
  | answer (rand : Nat)
  /-- a report comes in, if a list asks for one -/
  | report (w : BitVec 16)
  | finish (n : Nat)
  | message (m : OtherMsg)
  | store (a : {a : BitVec 16 // a ≠ hpiSie1MsgAdr ∧ a ≠ reportWord}) (v : BitVec 16)
  | lowerFlag
  deriving DecidableEq

namespace Polling

def msg (s : Polling) : BitVec 16 := s.hpi.mem hpiSie1MsgAdr

def io (s : Polling) (io : Io) : Polling :=
  match io with
  | .addr v => { s with hpi := s.hpi.writeAddr v }
  | .write v =>
    let new := if s.hpi.addr = husbSie1PCurrentTDPtr then [s.toggle] else []
    { s with
      hpi := s.hpi.writeData v
      lists := s.lists ++ new
      submitted := s.submitted ++ new }
  | .read => { s with hpi := s.hpi.readData.2 }
  | .status => s

/-- `toggle++`, and the list is submitted. -/
def round (s : Polling) : Polling :=
  { s with toggle := s.toggle + 1, todo := reportIn (s.toggle + 1) s.dataSize, label := .testFlag }

def access (s : Polling) : Polling :=
  match s.todo with
  | io :: rest => { s.io io with todo := rest }
  | [] =>
    match s.label with
    | .testFlag =>
      if s.sie1Msg then { s with label := .wait .readAddr }
      else { s with todo := reportIn s.toggle s.dataSize }
    | .wait pc =>
      let w := (⟨s.hpi, pc, s.usbCtlVal⟩ : Wait).access
      let t := { s with hpi := w.hpi, usbCtlVal := w.usbCtlVal }
      if w.pc = .returned then { t with todo := [.addr reportWord], label := .keycode }
      else { t with label := .wait w.pc }
    | .keycode =>
      { s with
        hpi := s.hpi.readData.2
        label := .random
        keycode := s.hpi.readData.1 &&& 0xff
        shown := s.shown ++ [s.hpi.readData.1] }
    | .device tries =>
      let t := { s with hpi := s.hpi.readData.2 }
      if s.hpi.readData.1 &&& noDevice ≠ 0 then t.round
      -- seven more reads before the keyboard counts as removed
      else if tries < 7 then { t with todo := [.addr ctlReg], label := .device (tries + 1) }
      else { t with todo := [.addr ctlReg], label := .removed 0 }
    | .removed n =>
      let t := { s with hpi := s.hpi.readData.2 }
      -- only the last of three reads is looked at
      if n = 2 ∧ s.hpi.readData.1 &&& noDevice ≠ 0 then { t with label := .hotPlug }
      else { t with todo := [.addr ctlReg], label := .removed (n + 1) }
    | .random | .hotPlug => s

def setMem (s : Polling) (a v : BitVec 16) : Polling :=
  { s with hpi := { s.hpi with mem := Function.update s.hpi.mem a v } }

def step (s : Polling) (e : PollEvent) : Polling :=
  match e with
  | .access => s.access
  | .answer _ => if s.label = .random then { s with todo := [.addr ctlReg], label := .device 0 } else s
  | .report w => if s.lists = [] then s else { s.setMem reportWord w with arrived := s.arrived ++ [w] }
  | .finish n =>
    if n < s.lists.length then
      { s.setMem hpiSie1MsgAdr husbTDListDone with
        sie1Msg := true
        lists := s.lists.eraseIdx n
        completed := s.completed ++ [s.hpi.mem reportWord] }
    else s
  | .message m => { s.setMem hpiSie1MsgAdr m with sie1Msg := true }
  | .store a v => s.setMem a v
  | .lowerFlag => { s with sie1Msg := false }

/-- The first round. Nothing has been submitted in the loop, and no completion is unread. -/
def first (hpi : Hpi) (m : OtherMsg) (sie1Msg : Bool) (toggle dataSize : BitVec 8) (keycode : BitVec 16) :
    Polling :=
  round {
    hpi := { hpi with mem := Function.update hpi.mem hpiSie1MsgAdr m }
    sie1Msg := sie1Msg
    lists := []
    todo := []
    label := .testFlag
    usbCtlVal := husbTDListDone
    toggle := toggle
    dataSize := dataSize
    keycode := keycode
    submitted := []
    arrived := []
    completed := []
    shown := [] }

/-- What is left of a round's list, or nothing that is written. The accesses that are looked
at go where they should. -/
def Aimed (s : Polling) : Prop :=
  match s.label with
  | .testFlag => Loads 0x050c 0x0500 s.hpi.addr s.todo ∨ dataWrites s.hpi.addr s.todo = []
  | .wait pc => s.todo = [] ∧ Addressed ⟨s.hpi, pc, s.usbCtlVal⟩ ∧ pc ≠ .returned
  | .keycode => s.todo = [.addr reportWord] ∨ (s.todo = [] ∧ s.hpi.addr = reportWord)
  | _ => dataWrites s.hpi.addr s.todo = []

theorem reportIn_loads (toggle dataSize : BitVec 8) (a : BitVec 16) :
    Loads 0x050c 0x0500 a (reportIn toggle dataSize) :=
  Loads.of_all rfl rfl

variable {s t : Polling}

theorem access_cons {io : Io} {rest : List Io} (h : s.todo = io :: rest) :
    s.access = { s.io io with todo := rest } := by
  simp only [access, h]

def Loading (s : Polling) : Prop := dataWrites s.hpi.addr s.todo ≠ []

theorem Aimed.still (h : s.Aimed) {io : Io} {rest : List Io} (htodo : s.todo = io :: rest)
    (hlabel : t.label = s.label) (hrest : t.todo = rest) (hread : io = .addr reportWord → t.hpi.addr = reportWord)
    (hw : dataWrites t.hpi.addr t.todo = dataWrites s.hpi.addr s.todo) : t.Aimed := by
  unfold Aimed at h ⊢
  rw [hlabel]
  cases hl : s.label with
  | testFlag =>
    simp only [hl] at h ⊢
    unfold Loads
    rw [hw]
    exact h
  | wait pc =>
    simp only [hl, htodo] at h
    cases h.1
  | keycode =>
    simp only [hl, htodo] at h
    have hlast := h.resolve_right fun hnone => nomatch hnone.1
    obtain ⟨rfl, rfl⟩ := List.cons.inj hlast
    exact Or.inr ⟨hrest, hread rfl⟩
  | random | device _ | removed _ | hotPlug =>
    simp only [hl] at h
    exact hw.trans h

theorem Aimed.writing (h : s.Aimed) {v : BitVec 16} {rest : List Io} (htodo : s.todo = .write v :: rest) :
    s.label = .testFlag ∧ s.Loading ∧ Loads 0x050c 0x0500 s.hpi.addr (.write v :: rest) := by
  have hload : s.Loading := by
    unfold Loading
    rw [htodo]
    exact List.cons_ne_nil _ _
  unfold Aimed at h
  cases hl : s.label with
  | testFlag =>
    simp only [hl, htodo] at h
    exact ⟨rfl, hload, h.resolve_right (by rwa [← htodo])⟩
  | wait pc =>
    simp only [hl, htodo] at h
    cases h.1
  | keycode => simp [hl, htodo] at h
  | random | device _ | removed _ | hotPlug =>
    simp only [hl] at h
    exact absurd h hload

def Straight (s : Polling) (rest : List Io) : Prop :=
  s.access.Aimed ∧ ∃ hpi : Hpi, hpi.mem hpiSie1MsgAdr = s.msg ∧ hpi.mem reportWord = s.hpi.mem reportWord ∧
    ((s.access = { s with hpi := hpi, todo := rest } ∧ (s.access.Loading ↔ s.Loading)) ∨
      (s.access = { s with
          hpi := hpi
          todo := rest
          lists := s.lists ++ [s.toggle]
          submitted := s.submitted ++ [s.toggle] } ∧
        s.label = .testFlag ∧ s.Loading ∧ ¬ s.access.Loading))

theorem write_cases (h : s.Aimed) {v : BitVec 16} {rest : List Io} (htodo : s.todo = .write v :: rest) :
    s.Straight rest := by
  have hs := access_cons htodo
  obtain ⟨hl, hload, words, hwrites, hrange⟩ := h.writing htodo
  have hkeeps (a : BitVec 16) (hne : s.hpi.addr ≠ a) : (s.hpi.writeData v).mem a = s.hpi.mem a := by
    simp only [Hpi.writeData, Function.update_of_ne hne.symm]
  have haimed (htail : Loads 0x050c 0x0500 (s.hpi.addr + 2) rest ∨ dataWrites (s.hpi.addr + 2) rest = []) :
      s.access.Aimed := by
    have hlabel : s.access.label = .testFlag := by
      rw [hs]
      exact hl
    unfold Aimed
    rw [hlabel, hs]
    exact htail
  cases words with
  | nil =>
    obtain ⟨hfirst, hend⟩ := List.cons.inj hwrites
    have haddr : s.hpi.addr = husbSie1PCurrentTDPtr := congrArg Prod.fst hfirst
    refine ⟨haimed (Or.inr hend), s.hpi.writeData v, hkeeps _ (by rw [haddr]; decide),
      hkeeps _ (by rw [haddr]; decide), Or.inr ⟨?_, hl, hload, ?_⟩⟩
    · simp only [hs, Polling.io, if_pos haddr]
    · rw [hs]
      exact not_not.2 hend
  | cons w words =>
    obtain ⟨rfl, hend⟩ := List.cons.inj hwrites
    have hlow : 0x0500 ≤ s.hpi.addr := (hrange _ (List.mem_cons_self ..)).1
    have hhigh : s.hpi.addr < 0x050c := (hrange _ (List.mem_cons_self ..)).2
    have haddr : s.hpi.addr ≠ husbSie1PCurrentTDPtr := by
      intro heq
      rw [heq] at hlow
      exact absurd hlow (by decide)
    have htail : Loads 0x050c 0x0500 (s.hpi.addr + 2) rest :=
      ⟨words, hend, fun w hw => hrange w (List.mem_cons_of_mem _ hw)⟩
    refine ⟨haimed (Or.inl htail), s.hpi.writeData v, hkeeps _ ?_, hkeeps _ ?_, Or.inl ⟨?_, ?_⟩⟩
    · intro heq
      rw [heq] at hlow
      exact absurd hlow (by decide)
    · intro heq
      rw [heq] at hhigh
      exact absurd hhigh (by decide)
    · simp only [hs, Polling.io, if_neg haddr, List.append_nil]
    · refine iff_of_true ?_ hload
      rw [hs]
      unfold Loading
      change dataWrites (s.hpi.addr + 2) rest ≠ []
      rw [hend]
      exact List.append_ne_nil_of_right_ne_nil words (List.cons_ne_nil _ _)

theorem io_cases (h : s.Aimed) {io : Io} {rest : List Io} (htodo : s.todo = io :: rest) : s.Straight rest := by
  have hs := access_cons htodo
  have hstill (hlabel : s.access.label = s.label) (hread : io = .addr reportWord → s.access.hpi.addr = reportWord)
      (hw : dataWrites s.access.hpi.addr s.access.todo = dataWrites s.hpi.addr s.todo) :
      s.access.Aimed ∧ (s.access.Loading ↔ s.Loading) := by
    refine ⟨h.still htodo hlabel (by rw [hs]) hread hw, ?_⟩
    unfold Loading
    rw [hw]
  cases io with
  | write v => exact write_cases h htodo
  | addr v =>
    obtain ⟨haimed, hiff⟩ := hstill (by rw [hs]; rfl) (fun hv => by rw [hs]; exact Io.addr.inj hv)
      (by rw [hs, htodo]; rfl)
    exact ⟨haimed, (s.io (.addr v)).hpi, rfl, rfl, Or.inl ⟨hs, hiff⟩⟩
  | read =>
    obtain ⟨haimed, hiff⟩ := hstill (by rw [hs]; rfl) (fun hv => nomatch hv) (by rw [hs, htodo]; rfl)
    exact ⟨haimed, (s.io .read).hpi, rfl, rfl, Or.inl ⟨hs, hiff⟩⟩
  | status =>
    obtain ⟨haimed, hiff⟩ := hstill (by rw [hs]; rfl) (fun hv => nomatch hv) (by rw [hs, htodo]; rfl)
    exact ⟨haimed, s.hpi, rfl, rfl, Or.inl ⟨hs, hiff⟩⟩

theorem access_testFlag (htodo : s.todo = []) (hl : s.label = .testFlag) :
    s.access = if s.sie1Msg then { s with label := .wait .readAddr }
      else { s with todo := reportIn s.toggle s.dataSize } := by
  simp only [access, htodo, hl]

theorem access_readAddr (htodo : s.todo = []) (hl : s.label = .wait .readAddr) :
    s.access = { s with hpi := s.hpi.writeAddr hpiSie1MsgAdr, label := .wait .readData } := by
  simp [access, htodo, hl, Wait.access]

theorem access_readData (htodo : s.todo = []) (hl : s.label = .wait .readData)
    (haddr : s.hpi.addr = hpiSie1MsgAdr) :
    s.access = { s with hpi := s.hpi.readData.2, label := .wait .writeAddr, usbCtlVal := s.msg } := by
  have hread : s.hpi.readData.1 = s.msg := congrArg s.hpi.mem haddr
  simp [access, htodo, hl, Wait.access, hread]

theorem access_writeAddr (htodo : s.todo = []) (hl : s.label = .wait .writeAddr) :
    s.access = { s with hpi := s.hpi.writeAddr hpiSie1MsgAdr, label := .wait .writeData } := by
  simp [access, htodo, hl, Wait.access]

theorem access_writeData (htodo : s.todo = []) (hl : s.label = .wait .writeData) :
    s.access = if s.usbCtlVal = husbTDListDone then
        { s with hpi := s.hpi.writeData 0, todo := [.addr reportWord], label := .keycode }
      else { s with hpi := s.hpi.writeData 0, label := .wait .readAddr } := by
  by_cases hdone : s.usbCtlVal = husbTDListDone <;> simp [access, htodo, hl, Wait.access, hdone]

theorem access_keycode (htodo : s.todo = []) (hl : s.label = .keycode) (haddr : s.hpi.addr = reportWord) :
    s.access = { s with
      hpi := s.hpi.readData.2
      label := .random
      keycode := s.hpi.mem reportWord &&& 0xff
      shown := s.shown ++ [s.hpi.mem reportWord] } := by
  have hread : s.hpi.readData.1 = s.hpi.mem reportWord := congrArg s.hpi.mem haddr
  simp [access, htodo, hl, hread]

theorem access_resting (htodo : s.todo = []) (hl : s.label.resting = true) :
    (∃ (hpi : Hpi) (ios : List Io) (label : PollLabel),
      s.access = { s with hpi := hpi, todo := ios, label := label } ∧ hpi.mem = s.hpi.mem ∧
        label.resting = true ∧ dataWrites hpi.addr ios = []) ∨
      s.access = round { s with hpi := s.hpi.readData.2 } := by
  cases hlabel : s.label with
  | testFlag | wait _ | keycode => simp [hlabel, PollLabel.resting] at hl
  | random | hotPlug =>
    have hs : s.access = s := by simp only [access, htodo, hlabel]
    exact Or.inl ⟨s.hpi, s.todo, s.label, hs, rfl, hl, by rw [htodo]; rfl⟩
  | device tries =>
    by_cases hpresent : s.hpi.readData.1 &&& noDevice ≠ 0
    · right
      simp only [access, htodo, hlabel, if_pos hpresent]
    · left
      by_cases htries : tries < 7
      · refine ⟨s.hpi.readData.2, [.addr ctlReg], .device (tries + 1), ?_, rfl, rfl, rfl⟩
        simp only [access, htodo, hlabel, if_neg hpresent, if_pos htries]
      · refine ⟨s.hpi.readData.2, [.addr ctlReg], .removed 0, ?_, rfl, rfl, rfl⟩
        simp only [access, htodo, hlabel, if_neg hpresent, if_neg htries]
  | removed n =>
    left
    by_cases hback : n = 2 ∧ s.hpi.readData.1 &&& noDevice ≠ 0
    · refine ⟨s.hpi.readData.2, [], .hotPlug, ?_, rfl, rfl, rfl⟩
      simp only [access, htodo, hlabel, if_pos hback]
    · refine ⟨s.hpi.readData.2, [.addr ctlReg], .removed (n + 1), ?_, rfl, rfl, rfl⟩
      simp only [access, htodo, hlabel, if_neg hback]

theorem cleared (haddr : s.hpi.addr = hpiSie1MsgAdr) :
    (s.hpi.writeData 0).mem hpiSie1MsgAdr = 0 ∧ (s.hpi.writeData 0).mem reportWord = s.hpi.mem reportWord := by
  have hne : reportWord ≠ hpiSie1MsgAdr := by decide
  simp only [Hpi.writeData, haddr, Function.update_self, Function.update_of_ne hne, and_self]

def newest (w : BitVec 16) (s : Polling) : BitVec 16 := s.arrived.getLast?.getD w

def count (m : BitVec 16) : Nat := if m = husbTDListDone then 1 else 0

theorem count_other {m : BitVec 16} (h : m ≠ husbTDListDone) : count m = 0 := if_neg h

theorem count_le (m : BitVec 16) : count m ≤ 1 := by
  unfold count
  split_ifs <;> decide

/-- Completions that have been posted and not yet led to a report's being shown. -/
def owed (s : Polling) : Nat :=
  match s.label with
  | .wait .writeAddr | .wait .writeData => count s.usbCtlVal
  | .keycode => 1 + count s.msg
  | _ => count s.msg

/-- What is shown is what came in, and each completion is good for one showing. -/
structure Honest (w key : BitVec 16) (s : Polling) : Prop where
  aimed : s.Aimed
  report : s.hpi.mem reportWord = s.newest w
  known : ∀ v ∈ s.shown, v = w ∨ v ∈ s.arrived
  keycode : s.keycode = (s.shown.getLast?.map fun v => v &&& 0xff).getD key
  owed : s.shown.length + s.owed ≤ s.completed.length

theorem owed_congr (hl : t.label = s.label) (hm : t.msg = s.msg) (hv : t.usbCtlVal = s.usbCtlVal) :
    t.owed = s.owed := by
  unfold Polling.owed
  rw [hl, hm, hv]

theorem owed_of_resting (hl : s.label.resting = true) : s.owed = count s.msg := by
  unfold Polling.owed
  cases hlabel : s.label with
  | testFlag | wait _ | keycode => simp [hlabel, PollLabel.resting] at hl
  | random | device _ | removed _ | hotPlug => rfl

theorem Aimed.of_resting (hl : s.label.resting = true) (hw : dataWrites s.hpi.addr s.todo = []) : s.Aimed := by
  unfold Aimed
  cases hlabel : s.label with
  | testFlag | wait _ | keycode => simp [hlabel, PollLabel.resting] at hl
  | random | device _ | removed _ | hotPlug => exact hw

theorem Aimed.of_same (h : s.Aimed) (hl : t.label = s.label) (htodo : t.todo = s.todo)
    (haddr : t.hpi.addr = s.hpi.addr) : t.Aimed := by
  unfold Aimed Addressed at h ⊢
  rw [hl]
  cases hlabel : s.label with
  | testFlag | random | device _ | removed _ | hotPlug | wait _ | keycode =>
    simp only [hlabel] at h ⊢
    rw [htodo, haddr]
    exact h

variable {w key : BitVec 16}

theorem Honest.of_same (h : s.Honest w key) (haimed : t.Aimed) (hreport : t.hpi.mem reportWord = s.hpi.mem reportWord)
    (harrived : t.arrived = s.arrived) (hshown : t.shown = s.shown) (hkey : t.keycode = s.keycode)
    (hcompleted : t.completed = s.completed) (howed : t.owed ≤ s.owed) : t.Honest w key := by
  refine ⟨haimed, ?_, ?_, ?_, ?_⟩
  · rw [hreport, h.report, newest, newest, harrived]
  · rw [hshown, harrived]
    exact h.known
  · rw [hkey, hshown]
    exact h.keycode
  · have := h.owed
    rw [hshown, hcompleted]
    omega

theorem honest_io (h : s.Honest w key) {io : Io} {rest : List Io} (htodo : s.todo = io :: rest) :
    s.access.Honest w key := by
  obtain ⟨haimed, hpi, hmsg, hreport, ⟨hs, -⟩ | ⟨hs, -⟩⟩ := io_cases h.aimed htodo
  · rw [hs] at haimed ⊢
    exact h.of_same haimed hreport rfl rfl rfl rfl (le_of_eq (owed_congr rfl hmsg rfl))
  · rw [hs] at haimed ⊢
    exact h.of_same haimed hreport rfl rfl rfl rfl (le_of_eq (owed_congr rfl hmsg rfl))

theorem honest_testFlag (h : s.Honest w key) (htodo : s.todo = []) (hl : s.label = .testFlag) :
    s.access.Honest w key := by
  rw [access_testFlag htodo hl]
  split_ifs with hflag
  · refine h.of_same ⟨htodo, by simp [Addressed], by simp⟩ rfl rfl rfl rfl rfl ?_
    simp only [Polling.owed, hl]
    exact le_rfl
  · refine h.of_same ?_ rfl rfl rfl rfl rfl (le_of_eq (owed_congr rfl rfl rfl))
    simp only [Aimed, hl]
    exact Or.inl (reportIn_loads _ _ _)

theorem honest_wait (h : s.Honest w key) (htodo : s.todo = []) {pc : WaitPc} (hl : s.label = .wait pc) :
    s.access.Honest w key := by
  have haimed := h.aimed
  simp only [Aimed, hl] at haimed
  obtain ⟨-, haddr, hrun⟩ := haimed
  cases pc with
  | returned => exact absurd rfl hrun
  | readAddr =>
    rw [access_readAddr htodo hl]
    refine h.of_same ⟨htodo, fun _ => rfl, by simp⟩ rfl rfl rfl rfl rfl ?_
    simp only [Polling.owed, hl]
    exact le_rfl
  | readData =>
    rw [access_readData htodo hl (haddr (Or.inl rfl))]
    refine h.of_same ⟨htodo, by simp [Addressed], by simp⟩ rfl rfl rfl rfl rfl ?_
    simp only [Polling.owed, hl]
    exact le_rfl
  | writeAddr =>
    rw [access_writeAddr htodo hl]
    refine h.of_same ⟨htodo, fun _ => rfl, by simp⟩ rfl rfl rfl rfl rfl ?_
    simp only [Polling.owed, hl]
    exact le_rfl
  | writeData =>
    obtain ⟨hmsg, hreport⟩ := cleared (haddr (Or.inr rfl))
    have hcleared : count ((s.hpi.writeData 0).mem hpiSie1MsgAdr) = 0 := by
      rw [hmsg]
      decide
    rw [access_writeData htodo hl]
    split_ifs with hdone
    · refine h.of_same (Or.inl rfl) hreport rfl rfl rfl rfl ?_
      simp only [Polling.owed, hl, msg, hcleared, hdone]
      decide
    · refine h.of_same ⟨htodo, by simp [Addressed], by simp⟩ hreport rfl rfl rfl rfl ?_
      simp only [Polling.owed, msg, hcleared]
      exact Nat.zero_le _

theorem honest_keycode (h : s.Honest w key) (htodo : s.todo = []) (hl : s.label = .keycode) :
    s.access.Honest w key := by
  have haimed := h.aimed
  simp only [Aimed, hl, htodo] at haimed
  have haddr : s.hpi.addr = reportWord := (haimed.resolve_left (by simp)).2
  rw [access_keycode htodo hl haddr]
  refine ⟨?_, h.report, ?_, by simp, ?_⟩
  · simp [Aimed, htodo, dataWrites]
  · intro v hv
    rw [List.mem_append, List.mem_singleton] at hv
    refine hv.elim (h.known v) fun hv => ?_
    rw [hv, h.report, newest]
    cases hlast : s.arrived.getLast? with
    | none => exact Or.inl rfl
    | some u => exact Or.inr (List.mem_of_getLast? hlast)
  · have howed := h.owed
    simp only [Polling.owed, hl, msg] at howed
    simp only [Polling.owed, msg, Hpi.readData, List.length_append, List.length_singleton]
    omega

theorem honest_resting (h : s.Honest w key) (htodo : s.todo = []) (hl : s.label.resting = true) :
    s.access.Honest w key := by
  obtain ⟨hpi, ios, label, hs, hmem, hlabel, hw⟩ | hs := access_resting htodo hl
  · rw [hs]
    refine h.of_same (.of_resting hlabel hw) (by rw [hmem]) rfl rfl rfl rfl ?_
    rw [owed_of_resting hl, owed_of_resting hlabel, msg, msg, hmem]
  · rw [hs]
    refine h.of_same ?_ rfl rfl rfl rfl rfl ?_
    · exact Or.inl (reportIn_loads _ _ _)
    · rw [owed_of_resting hl]
      exact le_rfl

theorem honest_access (h : s.Honest w key) : s.access.Honest w key := by
  cases htodo : s.todo with
  | cons io rest => exact honest_io h htodo
  | nil =>
    cases hl : s.label with
    | testFlag => exact honest_testFlag h htodo hl
    | wait pc => exact honest_wait h htodo hl
    | keycode => exact honest_keycode h htodo hl
    | random | device _ | removed _ | hotPlug => exact honest_resting h htodo (by rw [hl]; rfl)

theorem owed_finish (s : Polling) (n : Nat) : (s.step (.finish n)).owed ≤ s.owed + 1 := by
  simp only [step]
  split_ifs with hn
  · unfold Polling.owed
    have hone := count_le husbTDListDone
    cases hl : s.label with
    | wait pc => cases pc <;> simp [setMem, msg, hl] <;> omega
    | _ =>
      simp [setMem, msg, hl]
      omega
  · omega

theorem owed_message (s : Polling) (m : OtherMsg) : (s.step (.message m)).owed ≤ s.owed := by
  unfold Polling.owed
  have hnone := count_other m.2
  cases hl : s.label with
  | wait pc => cases pc <;> simp [step, setMem, msg, hl, hnone]
  | _ => simp [step, setMem, msg, hl, hnone]

theorem honest_step (h : s.Honest w key) (e : PollEvent) : (s.step e).Honest w key := by
  cases e with
  | access => exact honest_access h
  | answer rand =>
    simp only [step]
    split_ifs with hl
    · refine h.of_same (.of_resting rfl rfl) rfl rfl rfl rfl rfl ?_
      rw [owed_of_resting (s := s) (by rw [hl]; rfl)]
      exact le_rfl
    · exact h
  | report v =>
    simp only [step]
    split_ifs with hlists
    · exact h
    · refine ⟨h.aimed.of_same rfl rfl rfl, ?_, ?_, h.keycode, ?_⟩
      · simp [setMem, newest]
      · exact fun u hu => (h.known u hu).imp_right fun hmem => List.mem_append_left [v] hmem
      · have howed : Polling.owed { s.setMem reportWord v with arrived := s.arrived ++ [v] } = s.owed := by
          refine owed_congr rfl ?_ rfl
          simp only [msg, setMem, Function.update_of_ne (by decide : hpiSie1MsgAdr ≠ reportWord)]
        rw [howed]
        exact h.owed
  | finish n =>
    have howed := owed_finish s n
    simp only [step] at howed ⊢
    split_ifs at howed ⊢ with hn
    · refine ⟨h.aimed.of_same rfl rfl rfl, ?_, h.known, h.keycode, ?_⟩
      · simp only [setMem, Function.update_of_ne (by decide : reportWord ≠ hpiSie1MsgAdr)]
        exact h.report
      · have hbefore := h.owed
        simp only [List.length_append, List.length_singleton]
        change s.shown.length + _ ≤ _
        omega
    · exact h
  | message m =>
    refine h.of_same (h.aimed.of_same rfl rfl rfl) ?_ rfl rfl rfl rfl (owed_message s m)
    simp only [step, setMem, Function.update_of_ne (by decide : reportWord ≠ hpiSie1MsgAdr)]
  | store a v =>
    refine h.of_same (h.aimed.of_same rfl rfl rfl) ?_ rfl rfl rfl rfl (le_of_eq (owed_congr rfl ?_ rfl))
    · simp only [step, setMem, Function.update_of_ne a.2.2.symm]
    · simp only [step, setMem, msg, Function.update_of_ne a.2.1.symm]
  | lowerFlag => exact h.of_same (h.aimed.of_same rfl rfl rfl) rfl rfl rfl rfl rfl (le_of_eq (owed_congr rfl rfl rfl))

section First
variable (hpi : Hpi) (m : OtherMsg) (sie1Msg : Bool) (toggle dataSize : BitVec 8) (key : BitVec 16)

theorem first_honest : (first hpi m sie1Msg toggle dataSize key).Honest (hpi.mem reportWord) key := by
  refine ⟨Or.inl (reportIn_loads _ _ _), ?_, fun _ hv => (nomatch hv), rfl, ?_⟩
  · simp only [first, round, newest, Function.update_of_ne (by decide : reportWord ≠ hpiSie1MsgAdr)]
    rfl
  · have hmsg : (first hpi m sie1Msg toggle dataSize key).msg = m := by
      simp [first, round, msg]
    change 0 + count (first hpi m sie1Msg toggle dataSize key).msg ≤ 0
    rw [hmsg, count_other m.2]

end First

def Resubmits (s : Polling) : Prop := s.todo = [] ∧ s.label = .testFlag ∧ s.sie1Msg = false

/-- An event by which no list is submitted again. -/
def Once (s : Polling) (e : PollEvent) : Prop := e = .access → ¬ s.Resubmits

instance (s : Polling) : Decidable s.Resubmits := inferInstanceAs (Decidable (_ ∧ _))
instance (s : Polling) (e : PollEvent) : Decidable (s.Once e) := inferInstanceAs (Decidable (_ → _))

structure Settled (s : Polling) : Prop where
  lists : s.lists = []
  unread : s.msg ≠ husbTDListDone
  shown : s.completed = s.shown

structure Landed (s : Polling) : Prop where
  lists : s.lists = []
  report : s.completed = s.shown ++ [s.hpi.mem reportWord]

/-- The list of the round is in progress, or its report is in. -/
def InFlight (s : Polling) : Prop :=
  ((∃ l, s.lists = [l]) ∧ s.msg ≠ husbTDListDone ∧ s.completed = s.shown) ∨ s.Landed

def Tracked (s : Polling) : Prop :=
  match s.label with
  | .testFlag => (s.Loading → s.Settled) ∧ (¬ s.Loading → s.InFlight)
  | .wait pc =>
    s.InFlight ∧ (pc = .writeAddr ∨ pc = .writeData → s.usbCtlVal = husbTDListDone → s.Landed)
  | .keycode => s.Landed ∧ s.msg ≠ husbTDListDone
  | _ => s.Settled

instance (s : Polling) : Decidable s.Loading := inferInstanceAs (Decidable (_ ≠ _))

/-- The lists submitted have one toggle after another. -/
structure Alternates (s : Polling) : Prop where
  chain : s.submitted.IsChain fun a b => b = a + 1
  last : ∀ l ∈ s.submitted.getLast?, s.toggle = if s.Loading then l + 1 else l

theorem not_loading (htodo : s.todo = []) : ¬ s.Loading := by
  unfold Loading
  rw [htodo]
  exact not_not.2 rfl

theorem loading_of_loads {limit start : BitVec 16} (h : Loads limit start s.hpi.addr s.todo) : s.Loading := by
  obtain ⟨words, hwrites, -⟩ := h
  unfold Loading
  rw [hwrites]
  exact List.append_ne_nil_of_right_ne_nil words (List.cons_ne_nil _ _)

theorem round_loading (s : Polling) : s.round.Loading := loading_of_loads (reportIn_loads _ _ _)

theorem Settled.of_same (h : s.Settled) (hlists : t.lists = s.lists)
    (hmsg : t.msg = husbTDListDone → s.msg = husbTDListDone)
    (hcompleted : t.completed = s.completed) (hshown : t.shown = s.shown) : t.Settled :=
  ⟨hlists.trans h.lists, fun hdone => h.unread (hmsg hdone), by rw [hcompleted, hshown]; exact h.shown⟩

theorem Landed.of_same (h : s.Landed) (hlists : t.lists = s.lists)
    (hreport : t.hpi.mem reportWord = s.hpi.mem reportWord) (hcompleted : t.completed = s.completed)
    (hshown : t.shown = s.shown) : t.Landed :=
  ⟨hlists.trans h.lists, by rw [hcompleted, hshown, hreport]; exact h.report⟩

theorem InFlight.of_same (h : s.InFlight) (hlists : t.lists = s.lists)
    (hmsg : t.msg = husbTDListDone → s.msg = husbTDListDone)
    (hreport : t.hpi.mem reportWord = s.hpi.mem reportWord) (hcompleted : t.completed = s.completed)
    (hshown : t.shown = s.shown) : t.InFlight := by
  refine h.imp (fun hlist => ?_) fun hl => hl.of_same hlists hreport hcompleted hshown
  rw [hlists, hcompleted, hshown]
  exact ⟨hlist.1, fun hdone => hlist.2.1 (hmsg hdone), hlist.2.2⟩

theorem InFlight.landed (h : s.InFlight) (hdone : s.msg = husbTDListDone) : s.Landed :=
  h.resolve_left fun hlist => hlist.2.1 hdone

theorem Settled.tracked (h : s.Settled) (hl : s.label.resting = true) : s.Tracked := by
  unfold Tracked
  cases hlabel : s.label with
  | testFlag | wait _ | keycode => simp [hlabel, PollLabel.resting] at hl
  | random | device _ | removed _ | hotPlug => exact h

theorem Tracked.of_same (h : s.Tracked) (hl : t.label = s.label) (hv : t.usbCtlVal = s.usbCtlVal)
    (hload : t.Loading ↔ s.Loading) (hlists : t.lists = s.lists)
    (hmsg : t.msg = husbTDListDone → s.msg = husbTDListDone)
    (hreport : t.hpi.mem reportWord = s.hpi.mem reportWord) (hcompleted : t.completed = s.completed)
    (hshown : t.shown = s.shown) : t.Tracked := by
  unfold Tracked at h ⊢
  rw [hl, hload, hv]
  cases hlabel : s.label with
  | testFlag =>
    simp only [hlabel] at h ⊢
    exact ⟨fun hyes => (h.1 hyes).of_same hlists hmsg hcompleted hshown,
      fun hno => (h.2 hno).of_same hlists hmsg hreport hcompleted hshown⟩
  | wait pc =>
    simp only [hlabel] at h ⊢
    exact ⟨h.1.of_same hlists hmsg hreport hcompleted hshown,
      fun hpc hdone => (h.2 hpc hdone).of_same hlists hreport hcompleted hshown⟩
  | keycode =>
    simp only [hlabel] at h ⊢
    exact ⟨h.1.of_same hlists hreport hcompleted hshown, fun hdone => h.2 (hmsg hdone)⟩
  | random | device _ | removed _ | hotPlug =>
    simp only [hlabel] at h ⊢
    exact h.of_same hlists hmsg hcompleted hshown

theorem tracked_io (h : s.Tracked) (ha : s.Aimed) {io : Io} {rest : List Io} (htodo : s.todo = io :: rest) :
    s.access.Tracked := by
  obtain ⟨-, hpi, hmsg, hreport, ⟨hs, hiff⟩ | ⟨hs, hl, hload, hno⟩⟩ := io_cases ha htodo
  · have hmsg' (hdone : hpi.mem hpiSie1MsgAdr = husbTDListDone) := hmsg.symm.trans hdone
    refine h.of_same ?_ ?_ hiff ?_ ?_ ?_ ?_ ?_ <;> rw [hs]
    · exact hmsg'
    · exact hreport
  · simp only [Tracked, hl] at h
    obtain ⟨hlists, hunread, hshown⟩ := h.1 hload
    have hl' : s.access.label = .testFlag := by rw [hs]; exact hl
    unfold Tracked
    rw [hl']
    refine ⟨fun hyes => absurd hyes hno, fun _ => Or.inl ?_⟩
    rw [hs]
    exact ⟨⟨s.toggle, by rw [hlists]; rfl⟩, fun hdone => hunread (hmsg.symm.trans hdone), hshown⟩

theorem flag_up (ho : ¬ s.Resubmits) (htodo : s.todo = []) (hl : s.label = .testFlag) : s.sie1Msg = true := by
  by_contra hdown
  exact ho ⟨htodo, hl, Bool.not_eq_true _ ▸ hdown⟩

theorem tracked_testFlag (h : s.Tracked) (ho : ¬ s.Resubmits) (htodo : s.todo = []) (hl : s.label = .testFlag) :
    s.access.Tracked := by
  simp only [Tracked, hl] at h
  rw [access_testFlag htodo hl, if_pos (flag_up ho htodo hl)]
  exact ⟨(h.2 (not_loading htodo)).of_same rfl id rfl rfl rfl, by simp⟩

theorem tracked_wait (h : s.Tracked) (ha : s.Aimed) (htodo : s.todo = []) {pc : WaitPc} (hl : s.label = .wait pc) :
    s.access.Tracked := by
  simp only [Tracked, hl] at h
  simp only [Aimed, hl] at ha
  obtain ⟨-, haddr, hrun⟩ := ha
  obtain ⟨hflight, hread⟩ := h
  cases pc with
  | returned => exact absurd rfl hrun
  | readAddr =>
    rw [access_readAddr htodo hl]
    exact ⟨hflight.of_same rfl id rfl rfl rfl, by simp⟩
  | readData =>
    rw [access_readData htodo hl (haddr (Or.inl rfl))]
    exact ⟨hflight.of_same rfl id rfl rfl rfl, fun _ hdone => (hflight.landed hdone).of_same rfl rfl rfl rfl⟩
  | writeAddr =>
    rw [access_writeAddr htodo hl]
    exact ⟨hflight.of_same rfl id rfl rfl rfl, fun _ hdone => (hread (Or.inl rfl) hdone).of_same rfl rfl rfl rfl⟩
  | writeData =>
    obtain ⟨hmsg, hreport⟩ := cleared (haddr (Or.inr rfl))
    have hcleared : (s.hpi.writeData 0).mem hpiSie1MsgAdr ≠ husbTDListDone := by
      rw [hmsg]
      decide
    rw [access_writeData htodo hl]
    split_ifs with hdone
    · exact ⟨(hread (Or.inr rfl) hdone).of_same rfl hreport rfl rfl, hcleared⟩
    · refine ⟨hflight.imp (fun hlist => ⟨hlist.1, hcleared, hlist.2.2⟩) fun hland => ?_, by simp⟩
      exact hland.of_same rfl hreport rfl rfl

theorem tracked_keycode (h : s.Tracked) (ha : s.Aimed) (htodo : s.todo = []) (hl : s.label = .keycode) :
    s.access.Tracked := by
  simp only [Tracked, hl] at h
  simp only [Aimed, hl, htodo] at ha
  rw [access_keycode htodo hl (ha.resolve_left (by simp)).2]
  exact ⟨h.1.lists, h.2, h.1.report⟩

theorem tracked_resting (h : s.Settled) (htodo : s.todo = []) (hl : s.label.resting = true) :
    s.access.Tracked := by
  obtain ⟨hpi, ios, label, hs, hmem, hlabel, -⟩ | hs := access_resting htodo hl
  · rw [hs]
    exact Settled.tracked (h.of_same rfl (congrFun hmem _).symm.trans rfl rfl) hlabel
  · rw [hs]
    exact ⟨fun _ => h.of_same rfl id rfl rfl, fun hno => absurd (round_loading _) hno⟩

theorem tracked_access (h : s.Tracked) (ha : s.Aimed) (ho : ¬ s.Resubmits) : s.access.Tracked := by
  cases htodo : s.todo with
  | cons io rest => exact tracked_io h ha htodo
  | nil =>
    cases hl : s.label with
    | testFlag => exact tracked_testFlag h ho htodo hl
    | wait pc => exact tracked_wait h ha htodo hl
    | keycode => exact tracked_keycode h ha htodo hl
    | random | device _ | removed _ | hotPlug =>
      simp only [Tracked, hl] at h
      exact tracked_resting h htodo (by rw [hl]; rfl)

def Waiting (s : Polling) : Prop :=
  s.label = .testFlag ∧ ¬ s.Loading ∨
    ∃ pc, s.label = .wait pc ∧ (pc = .writeAddr ∨ pc = .writeData → s.usbCtlVal ≠ husbTDListDone)

theorem InFlight.tracked (h : s.InFlight) (hw : s.Waiting) : s.Tracked := by
  unfold Tracked
  obtain ⟨hl, hno⟩ | ⟨pc, hl, hread⟩ := hw
  · rw [hl]
    exact ⟨fun hyes => absurd hyes hno, fun _ => h⟩
  · rw [hl]
    exact ⟨h, fun hpc hdone => absurd hdone (hread hpc)⟩

theorem Tracked.in_progress (h : s.Tracked) (hne : s.lists ≠ []) :
    ((∃ l, s.lists = [l]) ∧ s.msg ≠ husbTDListDone ∧ s.completed = s.shown) ∧ s.Waiting := by
  unfold Tracked at h
  cases hl : s.label with
  | testFlag =>
    simp only [hl] at h
    have hno : ¬ s.Loading := fun hyes => hne (h.1 hyes).lists
    exact ⟨(h.2 hno).resolve_right fun hland => hne hland.lists, Or.inl ⟨hl, hno⟩⟩
  | wait pc =>
    simp only [hl] at h
    exact ⟨h.1.resolve_right fun hland => hne hland.lists,
      Or.inr ⟨pc, hl, fun hpc hdone => hne (h.2 hpc hdone).lists⟩⟩
  | keycode =>
    simp only [hl] at h
    exact absurd h.1.lists hne
  | random | device _ | removed _ | hotPlug =>
    simp only [hl] at h
    exact absurd h.lists hne

theorem tracked_step (h : s.Tracked) (ha : s.Aimed) {e : PollEvent} (ho : s.Once e) : (s.step e).Tracked := by
  cases e with
  | access => exact tracked_access h ha (ho rfl)
  | answer rand =>
    simp only [step]
    split_ifs with hl
    · simp only [Tracked, hl] at h
      exact Settled.tracked (h.of_same rfl id rfl rfl) rfl
    · exact h
  | report v =>
    simp only [step]
    split_ifs with hlists
    · exact h
    · obtain ⟨⟨hone, hunread, hshown⟩, hw⟩ := h.in_progress hlists
      refine InFlight.tracked (Or.inl ⟨hone, ?_, hshown⟩) hw
      simpa only [msg, setMem, Function.update_of_ne (by decide : hpiSie1MsgAdr ≠ reportWord)] using hunread
  | finish n =>
    simp only [step]
    split_ifs with hn
    · obtain ⟨⟨⟨l, hone⟩, -, hshown⟩, hw⟩ := h.in_progress (List.ne_nil_of_length_pos (by omega))
      have hzero : n = 0 := by simpa [hone] using hn
      refine InFlight.tracked (Or.inr ⟨?_, ?_⟩) hw
      · simp only [hone, hzero, List.eraseIdx_cons_zero]
      · simp only [setMem, hshown, Function.update_of_ne (by decide : reportWord ≠ hpiSie1MsgAdr)]
    · exact h
  | message m =>
    refine h.of_same rfl rfl Iff.rfl rfl (fun hdone => absurd ?_ m.2) ?_ rfl rfl
    · simpa [step, setMem, msg] using hdone
    · simp only [step, setMem, Function.update_of_ne (by decide : reportWord ≠ hpiSie1MsgAdr)]
  | store a v =>
    refine h.of_same rfl rfl Iff.rfl rfl (fun hdone => ?_) ?_ rfl rfl
    · simpa only [step, setMem, msg, Function.update_of_ne a.2.1.symm] using hdone
    · simp only [step, setMem, Function.update_of_ne a.2.2.symm]
  | lowerFlag => exact h.of_same rfl rfl Iff.rfl rfl id rfl rfl rfl

theorem Alternates.of_same (h : s.Alternates) (hsubmitted : t.submitted = s.submitted)
    (htoggle : t.toggle = s.toggle) (hload : t.Loading ↔ s.Loading) : t.Alternates := by
  refine ⟨hsubmitted ▸ h.chain, fun l hl => ?_⟩
  rw [hsubmitted] at hl
  rw [htoggle, h.last l hl]
  simp only [hload]

theorem Alternates.round (h : s.Alternates) (hno : ¬ s.Loading) : s.round.Alternates := by
  refine ⟨h.chain, fun l hl => ?_⟩
  have hlast := h.last l hl
  rw [if_neg hno] at hlast
  rw [if_pos s.round_loading, ← hlast]
  rfl

theorem not_loading_of_resting (ha : s.Aimed) (hl : s.label.resting = true) : ¬ s.Loading := by
  unfold Aimed at ha
  cases hlabel : s.label with
  | testFlag | wait _ | keycode => simp [hlabel, PollLabel.resting] at hl
  | random | device _ | removed _ | hotPlug =>
    simp only [hlabel] at ha
    exact not_not.2 ha

theorem Alternates.idle (h : s.Alternates) (hno : ¬ s.Loading) (hsubmitted : t.submitted = s.submitted)
    (htoggle : t.toggle = s.toggle) (hno' : ¬ t.Loading) : t.Alternates :=
  h.of_same hsubmitted htoggle (iff_of_false hno' hno)

theorem alternates_io (h : s.Alternates) (ha : s.Aimed) {io : Io} {rest : List Io} (htodo : s.todo = io :: rest) :
    s.access.Alternates := by
  obtain ⟨-, hpi, -, -, ⟨hs, hiff⟩ | ⟨hs, -, hload, hno⟩⟩ := io_cases ha htodo
  · exact h.of_same (by rw [hs]) (by rw [hs]) hiff
  · have hsubmitted : s.access.submitted = s.submitted ++ [s.toggle] := by rw [hs]
    have htoggle : s.access.toggle = s.toggle := by rw [hs]
    constructor
    · rw [hsubmitted, List.isChain_append]
      refine ⟨h.chain, List.isChain_singleton _, fun l hl u hu => ?_⟩
      obtain rfl : s.toggle = u := by simpa using hu
      rw [h.last l hl, if_pos hload]
    · intro l hl
      rw [hsubmitted, List.getLast?_concat] at hl
      rw [if_neg hno, htoggle]
      exact Option.some.inj hl

theorem alternates_wait (h : s.Alternates) (ha : s.Aimed) (htodo : s.todo = []) {pc : WaitPc}
    (hl : s.label = .wait pc) : s.access.Alternates := by
  have hno := not_loading htodo
  simp only [Aimed, hl] at ha
  obtain ⟨-, haddr, hrun⟩ := ha
  cases pc with
  | returned => exact absurd rfl hrun
  | readAddr =>
    rw [access_readAddr htodo hl]
    exact h.idle hno rfl rfl (not_loading htodo)
  | readData =>
    rw [access_readData htodo hl (haddr (Or.inl rfl))]
    exact h.idle hno rfl rfl (not_loading htodo)
  | writeAddr =>
    rw [access_writeAddr htodo hl]
    exact h.idle hno rfl rfl (not_loading htodo)
  | writeData =>
    rw [access_writeData htodo hl]
    split_ifs
    · exact h.idle hno rfl rfl (not_not.2 rfl)
    · exact h.idle hno rfl rfl (not_loading htodo)

theorem alternates_access (h : s.Alternates) (ha : s.Aimed) (ho : ¬ s.Resubmits) : s.access.Alternates := by
  cases htodo : s.todo with
  | cons io rest => exact alternates_io h ha htodo
  | nil =>
    have hno := not_loading htodo
    cases hl : s.label with
    | testFlag =>
      rw [access_testFlag htodo hl, if_pos (flag_up ho htodo hl)]
      exact h.idle hno rfl rfl (not_loading htodo)
    | wait pc => exact alternates_wait h ha htodo hl
    | keycode =>
      simp only [Aimed, hl, htodo] at ha
      rw [access_keycode htodo hl (ha.resolve_left (by simp)).2]
      exact h.idle hno rfl rfl (not_loading htodo)
    | random | device _ | removed _ | hotPlug =>
      obtain ⟨hpi, ios, label, hs, -, -, hw⟩ | hs := access_resting htodo (by rw [hl]; rfl)
      · rw [hs]
        exact h.idle hno rfl rfl (not_not.2 hw)
      · rw [hs]
        exact Alternates.round (h.idle hno rfl rfl (not_loading htodo)) (not_loading htodo)

theorem alternates_step (h : s.Alternates) (ha : s.Aimed) {e : PollEvent} (ho : s.Once e) :
    (s.step e).Alternates := by
  cases e with
  | access => exact alternates_access h ha (ho rfl)
  | answer rand =>
    simp only [step]
    split_ifs with hl
    · have hno : ¬ s.Loading := not_loading_of_resting ha (by rw [hl]; rfl)
      exact h.of_same rfl rfl (iff_of_false (not_not.2 rfl) hno)
    · exact h
  | report v =>
    simp only [step]
    split_ifs
    · exact h
    · exact h.of_same rfl rfl Iff.rfl
  | finish n =>
    simp only [step]
    split_ifs
    · exact h.of_same rfl rfl Iff.rfl
    · exact h
  | message m => exact h.of_same rfl rfl Iff.rfl
  | store a v => exact h.of_same rfl rfl Iff.rfl
  | lowerFlag => exact h.of_same rfl rfl Iff.rfl

theorem Tracked.kept (h : s.Tracked) : s.completed = s.shown ∨ ∃ v, s.completed = s.shown ++ [v] := by
  have hflight (hf : s.InFlight) : s.completed = s.shown ∨ ∃ v, s.completed = s.shown ++ [v] :=
    hf.imp (fun hlist => hlist.2.2) fun hland => ⟨_, hland.report⟩
  unfold Tracked at h
  cases hl : s.label with
  | testFlag =>
    simp only [hl] at h
    by_cases hload : s.Loading
    · exact Or.inl (h.1 hload).shown
    · exact hflight (h.2 hload)
  | wait pc =>
    simp only [hl] at h
    exact hflight h.1
  | keycode =>
    simp only [hl] at h
    exact Or.inr ⟨_, h.1.report⟩
  | random | device _ | removed _ | hotPlug =>
    simp only [hl] at h
    exact Or.inl h.shown

/-- The completed reports are shown in their order, each of them once. -/
theorem Tracked.in_order (h : s.Tracked) : s.shown <+: s.completed ∧ s.completed.length ≤ s.shown.length + 1 := by
  obtain hsame | ⟨v, hmore⟩ := h.kept
  · rw [hsame]
    exact ⟨List.prefix_rfl, by omega⟩
  · rw [hmore, List.length_append]
    exact ⟨List.prefix_append s.shown [v], le_rfl⟩

theorem loading_submits (ha : s.Aimed) (hload : s.Loading) : ∃ n,
    let t := run step s (List.replicate n .access)
    t.lists.length = s.lists.length + 1 ∧ t.completed = s.completed ∧ t.shown = s.shown := by
  induction hios : s.todo generalizing s with
  | nil => exact absurd hload (not_loading hios)
  | cons io rest ih =>
    obtain ⟨haimed, hpi, -, -, ⟨hs, hiff⟩ | ⟨hs, -⟩⟩ := io_cases ha hios
    · obtain ⟨n, hlists, hcompleted, hshown⟩ := ih haimed (hiff.2 hload) (by rw [hs])
      refine ⟨n + 1, hlists.trans ?_, hcompleted.trans ?_, hshown.trans ?_⟩ <;> rw [hs]
    · refine ⟨1, ?_⟩
      change s.access.lists.length = _ ∧ s.access.completed = _ ∧ s.access.shown = _
      rw [hs]
      exact ⟨List.length_append, rfl, rfl⟩

theorem finish_all {n : Nat} (hn : s.lists.length = n) :
    let t := run step s (List.replicate n (.finish 0))
    t.completed.length = s.completed.length + n ∧ t.shown = s.shown := by
  induction n generalizing s with
  | zero => exact ⟨rfl, rfl⟩
  | succ n ih =>
    have hlt : 0 < s.lists.length := by omega
    have hs : (s.step (.finish 0)).completed = s.completed ++ [s.hpi.mem reportWord] := by
      simp only [step, if_pos hlt]
    have hlists : (s.step (.finish 0)).lists.length = n := by
      simp only [step, if_pos hlt, List.length_eraseIdx_of_lt hlt]
      omega
    have hshown : (s.step (.finish 0)).shown = s.shown := by
      simp only [step, if_pos hlt]
      rfl
    obtain ⟨hcompleted, hsame⟩ := ih hlists
    refine ⟨hcompleted.trans ?_, hsame.trans hshown⟩
    rw [hs, List.length_append, List.length_singleton]
    omega

theorem resubmitted_overtakes (h : s.Tracked) (hre : s.Resubmits) :
    ∃ js, let t := run step s (.access :: js)
      t.shown = s.shown ∧ t.shown.length + 2 ≤ t.completed.length := by
  obtain ⟨htodo, hl, hflag⟩ := hre
  have hflight : s.InFlight := by
    simp only [Tracked, hl] at h
    exact h.2 (not_loading htodo)
  have hcount : s.completed.length + s.lists.length = s.shown.length + 1 := by
    obtain ⟨⟨l, hlists⟩, -, hshown⟩ | ⟨hlists, hreport⟩ := hflight
    · rw [hlists, hshown]
      rfl
    · rw [hlists, hreport, List.length_append]
      rfl
  have hs : s.access = { s with todo := reportIn s.toggle s.dataSize } := by
    rw [access_testFlag htodo hl, hflag]
    rfl
  have hloads : Loads 0x050c 0x0500 s.access.hpi.addr s.access.todo := by
    rw [hs]
    exact reportIn_loads _ _ _
  have haimed : s.access.Aimed := by
    unfold Aimed
    have hl' : s.access.label = .testFlag := by rw [hs]; exact hl
    rw [hl']
    exact Or.inl hloads
  obtain ⟨n, hlists, hcompleted, hshown⟩ := loading_submits haimed (loading_of_loads hloads)
  obtain ⟨hfinished, hsame⟩ := finish_all hlists
  refine ⟨List.replicate n .access ++ List.replicate (s.access.lists.length + 1) (.finish 0), ?_⟩
  have hshown' : s.access.shown = s.shown := by rw [hs]
  have hcompleted' : s.access.completed = s.completed := by rw [hs]
  have hlists' : s.access.lists = s.lists := by rw [hs]
  have hrun : run step s (.access :: (List.replicate n .access ++
      List.replicate (s.access.lists.length + 1) (.finish 0))) =
        run step (run step s.access (List.replicate n .access))
          (List.replicate (s.access.lists.length + 1) (.finish 0)) := run_append step s.access _ _
  dsimp only
  rw [hrun, hfinished, hcompleted, hcompleted', hlists']
  have hall := hsame.trans (hshown.trans hshown')
  rw [hlists'] at hall
  refine ⟨hall, ?_⟩
  rw [hall]
  omega

def Shows (s : Polling) (e : PollEvent) : Prop := e = .access ∧ s.todo = [] ∧ s.label = .keycode

section First
variable (hpi : Hpi) (m : OtherMsg) (sie1Msg : Bool) (toggle dataSize : BitVec 8) (key : BitVec 16)

/-- Whatever the controller does, and however often lists are submitted: each round shows
the report that came in last, nothing else is ever shown, and there are no more rounds than
completions. -/
theorem newest_report_shown (es : List PollEvent) :
    let s := first hpi m sie1Msg toggle dataSize key
    let t := run step s es
    Throughout step (fun u e => u.Shows e → u.hpi.readData.1 = u.newest (hpi.mem reportWord)) s es ∧
      (∀ v ∈ t.shown, v = hpi.mem reportWord ∨ v ∈ t.arrived) ∧
      t.keycode = (t.shown.getLast?.map fun v => v &&& 0xff).getD key ∧
      t.shown.length ≤ t.completed.length := by
  intro s t
  have hstart : s.Honest (hpi.mem reportWord) key := first_honest hpi m sie1Msg toggle dataSize key
  have hend : t.Honest (hpi.mem reportWord) key :=
    invariant step (I := Honest (hpi.mem reportWord) key) (fun _ e h => honest_step h e) hstart es
  refine ⟨?_, hend.known, hend.keycode, by have := hend.owed; omega⟩
  refine Throughout.of_invariant step (P := fun _ _ => True) (I := Honest (hpi.mem reportWord) key)
    (fun _ e _ h => honest_step h e) ?_ hstart (throughout_of_forall step (fun _ _ => trivial) s es)
  rintro u e - hu ⟨-, htodo, hl⟩
  have haimed := hu.aimed
  simp only [Aimed, hl, htodo] at haimed
  rw [← hu.report]
  exact congrArg u.hpi.mem (haimed.resolve_left (by simp)).2

theorem first_tracked : (first hpi m sie1Msg toggle dataSize key).Tracked := by
  refine ⟨fun _ => ⟨rfl, ?_, rfl⟩, fun hno => absurd (round_loading _) hno⟩
  have hmsg : (first hpi m sie1Msg toggle dataSize key).msg = m := by simp [first, round, msg]
  rw [hmsg]
  exact m.2

/-- While no list is submitted again, the completed reports are shown in their order, each
of them once, and the lists have alternating toggles. As soon as one is submitted again, a
completion can overtake the one before it. -/
theorem reports_shown_once {es : List PollEvent}
    (hall : Throughout step Once (first hpi m sie1Msg toggle dataSize key) es) :
    let t := run step (first hpi m sie1Msg toggle dataSize key) es
    t.shown <+: t.completed ∧ t.completed.length ≤ t.shown.length + 1 ∧
      (t.submitted.IsChain fun a b => b = a + 1) ∧
      ∀ e, ¬ t.Once e → ∃ js, let u := run step t (e :: js)
        u.shown = t.shown ∧ u.shown.length + 2 ≤ u.completed.length := by
  intro t
  have hstart : (first hpi m sie1Msg toggle dataSize key).Alternates :=
    ⟨List.IsChain.nil, fun l hl => nomatch hl⟩
  obtain ⟨hhonest, htracked, halternates⟩ : t.Honest (hpi.mem reportWord) key ∧ t.Tracked ∧ t.Alternates :=
    run_induction step (I := fun u => u.Honest (hpi.mem reportWord) key ∧ u.Tracked ∧ u.Alternates)
      (fun u e ho h => ⟨honest_step h.1 e, tracked_step h.2.1 h.1.aimed ho, alternates_step h.2.2 h.1.aimed ho⟩)
      ⟨first_honest hpi m sie1Msg toggle dataSize key, first_tracked hpi m sie1Msg toggle dataSize key, hstart⟩
      es hall
  refine ⟨htracked.in_order.1, htracked.in_order.2, halternates.chain, fun e ho => ?_⟩
  obtain ⟨rfl, hno⟩ := Classical.not_imp.1 ho
  exact resubmitted_overtakes htracked (not_not.1 hno)

end First

structure Ready (s : Polling) : Prop where
  todo : s.todo = reportIn s.toggle s.dataSize
  label : s.label = .testFlag
  lists : s.lists = []
  device : s.hpi.mem ctlReg &&& noDevice ≠ 0

instance (s : Polling) : Decidable s.Ready :=
  decidable_of_iff (s.todo = reportIn s.toggle s.dataSize ∧ s.label = .testFlag ∧ s.lists = [] ∧
      s.hpi.mem ctlReg &&& noDevice ≠ 0)
    ⟨fun h => ⟨h.1, h.2.1, h.2.2.1, h.2.2.2⟩, fun h => ⟨h.todo, h.label, h.lists, h.device⟩⟩

def promptRound (w : BitVec 16) : List PollEvent :=
  List.replicate 9 .access ++ [.report w, .finish 0] ++ List.replicate 7 .access ++ [.answer 0] ++
    List.replicate 2 .access

theorem prompt_shows (h : s.Ready) (w : BitVec 16) : ∃ mem, mem ctlReg = s.hpi.mem ctlReg ∧
    run step s ((promptRound w).take 18) = { s with
      hpi := ⟨reportWord + 2, mem⟩
      sie1Msg := true
      todo := []
      label := .random
      usbCtlVal := husbTDListDone
      keycode := w &&& 0xff
      submitted := s.submitted ++ [s.toggle]
      arrived := s.arrived ++ [w]
      completed := s.completed ++ [w]
      shown := s.shown ++ [w] } := by
  refine ⟨(run step s ((promptRound w).take 18)).hpi.mem, ?_, ?_⟩
  all_goals
    obtain ⟨hpi, flag, lists, todo, label, v, toggle, dataSize, key, submitted, arrived, completed, shown⟩ := s
    obtain ⟨htodo, hlabel, hlists, -⟩ := h
    dsimp only at htodo hlabel hlists
    subst htodo hlabel hlists
    simp [promptRound, List.replicate, step, access, reportIn, submit, usbWrite, Polling.io, Hpi.writeAddr,
      Hpi.writeData, Hpi.readData, Wait.access, husbSie1PCurrentTDPtr, hpiSie1MsgAdr, reportWord, ctlReg, setMem,
      husbTDListDone]

theorem prompt_ready (h : s.Ready) (w : BitVec 16) : (run step s (promptRound w)).Ready := by
  obtain ⟨mem, hmem, hrun⟩ := prompt_shows h w
  have hdevice : mem ctlReg &&& noDevice ≠ 0 := hmem ▸ h.device
  have hsplit : promptRound w = (promptRound w).take 18 ++ [.answer 0, .access, .access] := rfl
  rw [hsplit, run_append, hrun]
  simp only [run_cons, run_nil, step, access, if_true, Polling.io, Hpi.writeAddr, Hpi.readData, hdevice, ne_eq,
    not_false_eq_true]
  exact ⟨rfl, rfl, h.lists, hdevice⟩

theorem firstReport_shown_once :
    let t := run step (first ⟨0, fun _ => 0⟩ ⟨0, by decide⟩ false 0 8 0) (promptRound 0x0004)
    t.shown <+: t.completed ∧ t.completed.length ≤ t.shown.length + 1 ∧
      (t.submitted.IsChain fun a b => b = a + 1) ∧
      ∀ e, ¬ t.Once e → ∃ js, let u := run step t (e :: js)
        u.shown = t.shown ∧ u.shown.length + 2 ≤ u.completed.length :=
  reports_shown_once _ _ _ _ _ _ (by decide)

end Polling

end Tetris
