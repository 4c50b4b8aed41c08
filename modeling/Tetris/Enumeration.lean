import Tetris.Transfer

/-! The enumeration of the keyboard, steps 3 to 9 of `main`: each step submits a list
until a flag is raised, and then waits for a completion. The controller finishes a list
when it likes. -/
namespace Tetris
open Machine

inductive Label where
  /-- `while (!(IO_read(HPI_STATUS) & HPI_STATUS_SIE1msg_FLAG))` -/
  | testFlag
  | wait (pc : WaitPc)
  /-- the control byte, read after the wait, or at the end of `UsbGetRetryCnt` -/
  | testControl (retried : Bool)
  | retryMsg
  | retryFlag
  | dataSize
  /-- `goto USB_HOT_PLUG`: the controller is reset, and all begins again -/
  | hotPlug
  | enumerated
  deriving DecidableEq

structure TdList where
  step : EnumStep
  start : BitVec 16
  deriving DecidableEq

/-- Software and controller. `lists` are the submitted lists that are not finished, and
`finished` is the step of the one that was finished last. -/
structure Enumeration where
  hpi : Hpi
  sie1Msg : Bool
  lists : List TdList
  finished : Option EnumStep
  step : EnumStep
  todo : List Io
  label : Label
  usbCtlVal : BitVec 16

def Enumeration.msg (s : Enumeration) : BitVec 16 := s.hpi.mem hpiSie1MsgAdr

abbrev OtherMsg := {m : BitVec 16 // m ≠ husbTDListDone}

inductive EnumEvent where
  | access
  | finish (n : Nat)
  | message (m : OtherMsg)
  | store (a : {a : BitVec 16 // a ≠ hpiSie1MsgAdr}) (v : BitVec 16)
  /-- when the flag falls is left open -/
  | lowerFlag
  deriving DecidableEq

/-- A data write at the pointer register submits the list at that address. -/
def Enumeration.io (s : Enumeration) (io : Io) : Enumeration :=
  match io with
  | .addr v => { s with hpi := s.hpi.writeAddr v }
  | .write v =>
    { s with
      hpi := s.hpi.writeData v
      lists := if s.hpi.addr = husbSie1PCurrentTDPtr then s.lists ++ [⟨s.step, v⟩] else s.lists }
  | .read => { s with hpi := s.hpi.readData.2 }
  | .status => s

def Enumeration.begin (s : Enumeration) (k : EnumStep) : Enumeration :=
  { s with step := k, todo := k.submission, label := .testFlag }

def Enumeration.nextStep (s : Enumeration) : Enumeration :=
  match s.step with
  | .setAddress => s.begin .getDeviceDesc1
  | .getDeviceDesc1 => s.begin .getDeviceDesc2
  | .getDeviceDesc2 => s.begin .getConfigDesc1
  | .getConfigDesc1 => s.begin .getConfigDesc2
  | .getConfigDesc2 => { s with todo := deviceInfo, label := .dataSize }
  | .setConfig => s.begin .classRequest
  | .classRequest => s.begin .getHidDesc
  | .getHidDesc => s.begin .getReportDesc
  | .getReportDesc => { s with label := .enumerated }

def Enumeration.access (s : Enumeration) : Enumeration :=
  match s.todo with
  | io :: rest => { s.io io with todo := rest }
  | [] =>
    match s.label with
    | .testFlag =>
      if s.sie1Msg then { s with label := .wait .readAddr } else { s with todo := s.step.submission }
    | .wait pc =>
      let w := (⟨s.hpi, pc, s.usbCtlVal⟩ : Wait).access
      let t := { s with hpi := w.hpi, usbCtlVal := w.usbCtlVal }
      if w.pc = .returned then
        { t with todo := [.addr 0x0506, .read, .addr 0x0508], label := .testControl false }
      else { t with label := .wait w.pc }
    | .testControl retried =>
      let v := s.hpi.readData.1
      let t := { s with hpi := s.hpi.readData.2 }
      -- step 3 does not look at what `UsbGetRetryCnt` returns
      if retried ∧ s.step = .setAddress then { t with label := .hotPlug }
      else if v ≠ 0x03 then { t with todo := [.status, .addr hpiSie1MsgAdr], label := .retryMsg }
      else t.nextStep
    | .retryMsg =>
      let t := { s with hpi := s.hpi.readData.2 }
      if s.hpi.readData.1 = husbTDListDone then
        { t with todo := usbWrite hpiSie1MsgAdr 0, label := .retryFlag }
      else { t with todo := [.addr 0x0508], label := .testControl true }
    | .retryFlag =>
      if s.sie1Msg then { s with todo := [.addr 0x0508], label := .testControl true } else s
    | .dataSize => Enumeration.begin { s with hpi := s.hpi.readData.2 } .setConfig
    | .hotPlug | .enumerated => s

def Enumeration.setMem (s : Enumeration) (a v : BitVec 16) : Enumeration :=
  { s with hpi := { s.hpi with mem := Function.update s.hpi.mem a v } }

def enumStep (s : Enumeration) (e : EnumEvent) : Enumeration :=
  match e with
  | .access => s.access
  | .finish n =>
    match s.lists[n]? with
    | some l =>
      { s.setMem hpiSie1MsgAdr husbTDListDone with
        sie1Msg := true
        lists := s.lists.eraseIdx n
        finished := some l.step }
    | none => s
  | .message m => { s.setMem hpiSie1MsgAdr m with sie1Msg := true }
  | .store a v => s.setMem a v
  | .lowerFlag => { s with sie1Msg := false }

/-- The beginning of step 3. No list has been submitted since the reset. -/
def step3 (hpi : Hpi) (m : OtherMsg) (sie1Msg : Bool) (usbCtlVal : BitVec 16) : Enumeration where
  hpi := { hpi with mem := Function.update hpi.mem hpiSie1MsgAdr m }
  sie1Msg := sie1Msg
  lists := []
  finished := none
  step := .setAddress
  todo := EnumStep.setAddress.submission
  label := .testFlag
  usbCtlVal := usbCtlVal

/-- `UsbWaitTDListDone` returns while a list of its step is in progress. -/
def Unfinished (s : Enumeration) (e : EnumEvent) : Prop :=
  e = .access ∧ s.todo = [] ∧ s.label = .wait .writeData ∧ s.usbCtlVal = husbTDListDone ∧
    ∃ l ∈ s.lists, l.step = s.step

def Io.isWrite : Io → Bool
  | .write _ => true
  | _ => false

def Writing (s : Enumeration) : Prop := s.todo.head?.any Io.isWrite = true

/-- A word is written into the memory of a list in progress, which begins at its start. -/
def Overwrites (s : Enumeration) (e : EnumEvent) : Prop :=
  e = .access ∧ Writing s ∧ ∃ l ∈ s.lists, l.start ≤ s.hpi.addr

/-- `UsbWaitTDListDone` reads a completion that was posted for a list of another step. -/
def Mistakes (s : Enumeration) (e : EnumEvent) : Prop :=
  e = .access ∧ s.todo = [] ∧ s.label = .wait .readData ∧ s.hpi.readData.1 = husbTDListDone ∧
    s.finished ≠ some s.step

structure Safe (s : Enumeration) (e : EnumEvent) : Prop where
  finished : ¬ Unfinished s e
  untouched : ¬ Overwrites s e
  own : ¬ Mistakes s e

def Resubmits (s : Enumeration) : Prop := s.todo = [] ∧ s.label = .testFlag ∧ s.sie1Msg = false

/-- An event other than the beginning of a further attempt. -/
def Unrepeated (s : Enumeration) (e : EnumEvent) : Prop := e = .access → ¬ Resubmits s

/-- A list is submitted again only if the first attempt is no longer in progress. In step
7, which follows the list that nobody waits for, that list is finished before the
step's own is submitted, and the step's own before the register is read. -/
structure Orderly (s : Enumeration) : Prop where
  resubmits : Resubmits s → s.lists = []
  submits : s.step = .setConfig → Writing s → s.hpi.addr = husbSie1PCurrentTDPtr → s.lists = []
  reads : s.step = .setConfig → s.todo = [] → s.label = .wait .readData → s.msg = husbTDListDone →
    s.lists = []

def InOrder (s : Enumeration) (e : EnumEvent) : Prop := e = .access → Orderly s

instance (s : Enumeration) (e : EnumEvent) : Decidable (Unfinished s e) :=
  inferInstanceAs (Decidable (_ ∧ _))
instance (s : Enumeration) (e : EnumEvent) : Decidable (Overwrites s e) :=
  inferInstanceAs (Decidable (_ ∧ (_ = _) ∧ _))
instance (s : Enumeration) (e : EnumEvent) : Decidable (Mistakes s e) :=
  inferInstanceAs (Decidable (_ ∧ _))
instance (s : Enumeration) : Decidable (Resubmits s) := inferInstanceAs (Decidable (_ ∧ _))
instance (s : Enumeration) : Decidable (Writing s) := inferInstanceAs (Decidable (_ = _))

instance (s : Enumeration) : Decidable (Orderly s) :=
  decidable_of_iff
    ((Resubmits s → s.lists = []) ∧
      (s.step = .setConfig → Writing s → s.hpi.addr = husbSie1PCurrentTDPtr → s.lists = []) ∧
      (s.step = .setConfig → s.todo = [] → s.label = .wait .readData → s.msg = husbTDListDone →
        s.lists = []))
    ⟨fun h => ⟨h.1, h.2.1, h.2.2⟩, fun h => ⟨h.resubmits, h.submits, h.reads⟩⟩

instance (s : Enumeration) (e : EnumEvent) : Decidable (InOrder s e) :=
  inferInstanceAs (Decidable (_ → _))

def Clear (s : Enumeration) : Prop := s.lists = [] ∧ s.msg ≠ husbTDListDone

/-- A completion may be waiting, but the flag is down, and whatever raises it again
overwrites the completion. -/
def Dropped (s : Enumeration) : Prop := s.sie1Msg = false ∧ s.lists = []

def Free (s : Enumeration) : Prop := Clear s ∨ Dropped s

/-- The list of the step is in progress, or it is the one that was finished last. -/
def InFlight (s : Enumeration) : Prop :=
  (∃ l, s.lists = [l] ∧ l.step = s.step ∧ (s.step ≠ .setConfig → s.msg ≠ husbTDListDone)) ∨
    (s.lists = [] ∧ (s.msg = husbTDListDone → s.finished = some s.step))

def Reattempted (s : Enumeration) : Prop := s.sie1Msg = false ∧ ∃ l, s.lists = [l] ∧ l.step = s.step

def Sent (s : Enumeration) : Prop := InFlight s ∨ Reattempted s

def EndpointOnly (s : Enumeration) : Prop := ∀ l ∈ s.lists, l.start = 0x0576

def Quiet (s : Enumeration) : Prop := ∀ w ∈ dataWrites s.hpi.addr s.todo, w = (hpiSie1MsgAdr, 0)

def Tracked (s : Enumeration) : Prop :=
  match s.label with
  | .testFlag =>
    (Loads s.step.limit 0x0500 s.hpi.addr s.todo ∧ (Free s ∨ s.step = .setConfig ∧ EndpointOnly s)) ∨
      (dataWrites s.hpi.addr s.todo = [] ∧ Sent s)
  | .wait pc =>
    s.todo = [] ∧ InFlight s ∧ Addressed ⟨s.hpi, pc, s.usbCtlVal⟩ ∧ pc ≠ .returned ∧
      (pc = .writeAddr ∨ pc = .writeData → s.usbCtlVal = husbTDListDone → s.lists = [])
  | .dataSize =>
    (Loads 0x0580 0x0576 s.hpi.addr s.todo ∧ Clear s) ∨
      (dataWrites s.hpi.addr s.todo = [] ∧ EndpointOnly s)
  | .testControl _ | .retryMsg | .retryFlag => Quiet s ∧ Clear s
  | .hotPlug | .enumerated => s.todo = []

variable {s t : Enumeration}

theorem access_resubmits (h : Resubmits s) : s.access = s.begin s.step := by
  obtain ⟨htodo, hl, hflag⟩ := h
  simp [Enumeration.access, Enumeration.begin, htodo, hl, hflag]

theorem access_raised (htodo : s.todo = []) (hl : s.label = .testFlag) (hflag : s.sie1Msg = true) :
    s.access = { s with label := .wait .readAddr } := by
  simp [Enumeration.access, htodo, hl, hflag]

theorem readData_msg (haddr : s.hpi.addr = hpiSie1MsgAdr) : s.hpi.readData.1 = s.msg :=
  congrArg s.hpi.mem haddr

theorem access_readAddr (htodo : s.todo = []) (hl : s.label = .wait .readAddr) :
    s.access = { s with hpi := s.hpi.writeAddr hpiSie1MsgAdr, label := .wait .readData } := by
  simp [Enumeration.access, htodo, hl, Wait.access]

theorem access_readData (htodo : s.todo = []) (hl : s.label = .wait .readData)
    (haddr : s.hpi.addr = hpiSie1MsgAdr) :
    s.access = { s with hpi := s.hpi.readData.2, label := .wait .writeAddr, usbCtlVal := s.msg } := by
  simp [Enumeration.access, htodo, hl, Wait.access, readData_msg haddr]

section Io
variable (s : Enumeration) (io : Io)

@[simp] theorem io_step : (s.io io).step = s.step := by cases io <;> rfl
@[simp] theorem io_label : (s.io io).label = s.label := by cases io <;> rfl
@[simp] theorem io_finished : (s.io io).finished = s.finished := by cases io <;> rfl
@[simp] theorem io_sie1Msg : (s.io io).sie1Msg = s.sie1Msg := by cases io <;> rfl

end Io

theorem access_cons {io : Io} {rest : List Io} (h : s.todo = io :: rest) :
    s.access = { s.io io with todo := rest } := by
  simp only [Enumeration.access, h]

theorem still_io {io : Io} {rest : List Io} (h : dataWrites s.hpi.addr (io :: rest) = []) :
    (s.io io).lists = s.lists ∧ (s.io io).hpi.mem = s.hpi.mem ∧
      dataWrites (s.io io).hpi.addr rest = [] := by
  cases io with
  | write v => simp [dataWrites] at h
  | addr v => exact ⟨rfl, rfl, h⟩
  | read => exact ⟨rfl, rfl, h⟩
  | status => exact ⟨rfl, rfl, h⟩

theorem quiet_io {io : Io} {rest : List Io}
    (h : ∀ w ∈ dataWrites s.hpi.addr (io :: rest), w = (hpiSie1MsgAdr, 0)) :
    (s.io io).lists = s.lists ∧ ((s.io io).msg = husbTDListDone → s.msg = husbTDListDone) ∧
      ∀ w ∈ dataWrites (s.io io).hpi.addr rest, w = (hpiSie1MsgAdr, 0) := by
  cases io with
  | write v =>
    obtain ⟨haddr, hv⟩ := Prod.mk.inj (h (s.hpi.addr, v) (by simp [dataWrites]))
    refine ⟨?_, ?_, fun w hw => h w (List.mem_cons_of_mem _ hw)⟩
    · have hne : hpiSie1MsgAdr ≠ husbSie1PCurrentTDPtr := by decide
      simp [Enumeration.io, haddr, hne]
    · intro hdone
      simp only [Enumeration.msg, Enumeration.io, Hpi.writeData, haddr, hv, Function.update_self] at hdone
      exact absurd hdone (by decide)
  | addr v => exact ⟨rfl, id, h⟩
  | read => exact ⟨rfl, id, h⟩
  | status => exact ⟨rfl, id, h⟩

/-- An access of a sequence that loads a list: the list is submitted, or a word of it
is written at most. -/
theorem loads_io {limit start : BitVec 16} {io : Io} {rest : List Io}
    (h : Loads limit start s.hpi.addr (io :: rest)) :
    ((s.io io).msg = s.msg) ∧
      (((s.io io).lists = s.lists ∧ Loads limit start (s.io io).hpi.addr rest ∧
          (io.isWrite = true → s.hpi.addr < limit)) ∨
        (io.isWrite = true ∧ s.hpi.addr = husbSie1PCurrentTDPtr ∧
          (s.io io).lists = s.lists ++ [⟨s.step, start⟩] ∧
          dataWrites (s.io io).hpi.addr rest = [])) := by
  cases io with
  | addr v => exact ⟨rfl, Or.inl ⟨rfl, h, by simp [Io.isWrite]⟩⟩
  | read => exact ⟨rfl, Or.inl ⟨rfl, h, by simp [Io.isWrite]⟩⟩
  | status => exact ⟨rfl, Or.inl ⟨rfl, h, by simp [Io.isWrite]⟩⟩
  | write v =>
    obtain ⟨words, hwrites, hwords⟩ := h
    have hmsg (hne : hpiSie1MsgAdr ≠ s.hpi.addr) : (s.io (.write v)).msg = s.msg := by
      simp only [Enumeration.msg, Enumeration.io, Hpi.writeData, Function.update_of_ne hne]
    cases words with
    | nil =>
      obtain ⟨hfirst, hrest⟩ := List.cons.inj hwrites
      obtain ⟨haddr, rfl⟩ := Prod.mk.inj hfirst
      refine ⟨hmsg (by rw [haddr]; decide), Or.inr ⟨rfl, haddr, ?_, hrest⟩⟩
      simp [Enumeration.io, haddr]
    | cons w words =>
      obtain ⟨rfl, hrest⟩ := List.cons.inj hwrites
      have hword := hwords (s.hpi.addr, v) (List.mem_cons_self ..)
      have hlow : 0x0500 ≤ s.hpi.addr := hword.1
      have hptr : s.hpi.addr ≠ husbSie1PCurrentTDPtr := by
        intro haddr
        rw [haddr] at hlow
        exact absurd hlow (by decide)
      refine ⟨hmsg ?_, Or.inl ⟨?_, ?_, fun _ => hword.2⟩⟩
      · intro haddr
        rw [← haddr] at hlow
        exact absurd hlow (by decide)
      · simp [Enumeration.io, hptr]
      · exact ⟨words, hrest, fun w hw => hwords w (List.mem_cons_of_mem _ hw)⟩

theorem InFlight.of_msg (h : InFlight s) (hlists : t.lists = s.lists) (hstep : t.step = s.step)
    (hfinished : t.finished = s.finished) (hmsg : t.msg = husbTDListDone → s.msg = husbTDListDone) :
    InFlight t := by
  unfold InFlight
  rw [hlists, hstep, hfinished]
  cases h with
  | inl h =>
    obtain ⟨l, hl, hown, hno⟩ := h
    exact Or.inl ⟨l, hl, hown, fun hne hdone => hno hne (hmsg hdone)⟩
  | inr h => exact Or.inr ⟨h.1, fun hdone => h.2 (hmsg hdone)⟩

theorem Clear.of_msg (h : Clear s) (hlists : t.lists = s.lists)
    (hmsg : t.msg = husbTDListDone → s.msg = husbTDListDone) : Clear t :=
  ⟨hlists.trans h.1, fun hdone => h.2 (hmsg hdone)⟩

theorem Free.lists (h : Free s) : s.lists = [] := h.elim (fun hc => hc.1) fun hd => hd.2

theorem Free.of_msg (h : Free s) (hlists : t.lists = s.lists)
    (hmsg : t.msg = husbTDListDone → s.msg = husbTDListDone) (hflag : t.sie1Msg = s.sie1Msg) : Free t :=
  h.imp (fun hc => hc.of_msg hlists hmsg) fun hd => ⟨hflag.trans hd.1, hlists.trans hd.2⟩

theorem Sent.of_msg (h : Sent s) (hlists : t.lists = s.lists) (hstep : t.step = s.step)
    (hfinished : t.finished = s.finished) (hmsg : t.msg = husbTDListDone → s.msg = husbTDListDone)
    (hflag : t.sie1Msg = s.sie1Msg) : Sent t := by
  refine h.imp (fun hf => hf.of_msg hlists hstep hfinished hmsg) fun hr => ?_
  obtain ⟨hdown, l, hl, hown⟩ := hr
  exact ⟨hflag.trans hdown, l, hlists.trans hl, hown.trans hstep.symm⟩

theorem Free.submit (h : Free s) {l : TdList} (hown : l.step = s.step) (hlists : t.lists = s.lists ++ [l])
    (hstep : t.step = s.step) (hmsg : t.msg = s.msg) (hflag : t.sie1Msg = s.sie1Msg) : Sent t := by
  rw [h.lists, List.nil_append] at hlists
  have hown' : l.step = t.step := hown.trans hstep.symm
  refine h.imp (fun hc => Or.inl ⟨l, hlists, hown', fun _ => ?_⟩) fun hd => ⟨hflag.trans hd.1, l, hlists, hown'⟩
  rw [hmsg]
  exact hc.2

theorem environment_rest (s : Enumeration) {e : EnumEvent} (he : e ≠ .access) :
    (enumStep s e).label = s.label ∧ (enumStep s e).todo = s.todo ∧ (enumStep s e).step = s.step ∧
      (enumStep s e).hpi.addr = s.hpi.addr ∧ (enumStep s e).usbCtlVal = s.usbCtlVal := by
  cases e with
  | access => exact absurd rfl he
  | finish n =>
    simp only [enumStep]
    split <;> exact ⟨rfl, rfl, rfl, rfl, rfl⟩
  | message m => exact ⟨rfl, rfl, rfl, rfl, rfl⟩
  | store a v => exact ⟨rfl, rfl, rfl, rfl, rfl⟩
  | lowerFlag => exact ⟨rfl, rfl, rfl, rfl, rfl⟩

theorem environment_lists (s : Enumeration) {e : EnumEvent} (he : e ≠ .access) :
    (enumStep s e).lists ⊆ s.lists := by
  cases e with
  | access => exact absurd rfl he
  | finish n =>
    simp only [enumStep]
    split
    · exact List.eraseIdx_subset
    · exact fun _ hl => hl
  | message m => exact fun _ hl => hl
  | store a v => exact fun _ hl => hl
  | lowerFlag => exact fun _ hl => hl

theorem message_msg (s : Enumeration) (m : OtherMsg) :
    (enumStep s (.message m)).msg ≠ husbTDListDone := by
  simp only [Enumeration.msg, enumStep, Enumeration.setMem, Function.update_self]
  exact m.2

theorem store_msg (s : Enumeration) (a : {a : BitVec 16 // a ≠ hpiSie1MsgAdr}) (v : BitVec 16) :
    (enumStep s (.store a v)).msg = s.msg := by
  simp only [Enumeration.msg, enumStep, Enumeration.setMem, Function.update_of_ne a.2.symm]

theorem clear_environment (h : Clear s) {e : EnumEvent} (he : e ≠ .access) : Clear (enumStep s e) := by
  cases e with
  | access => exact absurd rfl he
  | finish n =>
    have hnone : s.lists[n]? = none := by simp [h.1]
    simpa only [enumStep, hnone] using h
  | message m => exact ⟨h.1, message_msg s m⟩
  | store a v => exact h.of_msg rfl fun hdone => (store_msg s a v).symm.trans hdone
  | lowerFlag => exact h

theorem inFlight_environment (h : InFlight s) {e : EnumEvent} (he : e ≠ .access) :
    InFlight (enumStep s e) := by
  cases e with
  | access => exact absurd rfl he
  | finish n =>
    simp only [enumStep]
    split
    · next l hl =>
      cases h with
      | inl h =>
        obtain ⟨own, hown, hstep, -⟩ := h
        rw [hown] at hl
        have hn : n = 0 := by
          by_contra hne
          rw [List.getElem?_eq_none (by simp; omega)] at hl
          cases hl
        subst hn
        obtain rfl : own = l := by simpa using hl
        exact Or.inr ⟨by simp [hown], fun _ => congrArg some hstep⟩
      | inr h => simp [h.1] at hl
    · exact h
  | message m =>
    cases h with
    | inl h =>
      obtain ⟨l, hl, hown, -⟩ := h
      exact Or.inl ⟨l, hl, hown, fun _ => message_msg s m⟩
    | inr h => exact Or.inr ⟨h.1, fun hdone => absurd hdone (message_msg s m)⟩
  | store a v => exact h.of_msg rfl rfl rfl fun hdone => (store_msg s a v).symm.trans hdone
  | lowerFlag => exact h

theorem free_environment (h : Free s) {e : EnumEvent} (he : e ≠ .access) : Free (enumStep s e) := by
  cases h with
  | inl hclear => exact Or.inl (clear_environment hclear he)
  | inr h =>
    cases e with
    | access => exact absurd rfl he
    | finish n =>
      have hnone : s.lists[n]? = none := by simp [h.2]
      simp only [enumStep, hnone]
      exact Or.inr h
    | message m => exact Or.inl ⟨h.2, message_msg s m⟩
    | store a v => exact Or.inr h
    | lowerFlag => exact Or.inr ⟨rfl, h.2⟩

theorem sent_environment (h : Sent s) {e : EnumEvent} (he : e ≠ .access) : Sent (enumStep s e) := by
  cases h with
  | inl hflight => exact Or.inl (inFlight_environment hflight he)
  | inr h =>
    obtain ⟨hflag, own, hown, hstep⟩ := h
    cases e with
    | access => exact absurd rfl he
    | finish n =>
      cases n with
      | zero =>
        refine Or.inl (Or.inr ⟨?_, fun _ => ?_⟩)
        · simp [enumStep, hown]
        · simpa [enumStep, hown, Enumeration.setMem] using hstep
      | succ n => exact Or.inr (by simpa [enumStep, hown] using ⟨hflag, own, hown, hstep⟩)
    | message m => exact Or.inl (Or.inl ⟨own, hown, hstep, fun _ => message_msg s m⟩)
    | store a v => exact Or.inr ⟨hflag, own, hown, hstep⟩
    | lowerFlag => exact Or.inr ⟨rfl, own, hown, hstep⟩

theorem tracked_environment (h : Tracked s) {e : EnumEvent} (he : e ≠ .access) :
    Tracked (enumStep s e) := by
  obtain ⟨hlabel, htodo, hstep, haddr, hval⟩ := environment_rest s he
  have hend (hs : EndpointOnly s) : EndpointOnly (enumStep s e) :=
    fun l hl => hs l (environment_lists s he hl)
  unfold Tracked at h ⊢
  rw [hlabel]
  cases hl : s.label with
  | testFlag =>
    simp only [hl, htodo, hstep, haddr] at h ⊢
    refine h.imp (fun hload => ⟨hload.1, ?_⟩) fun hsent => ⟨hsent.1, sent_environment hsent.2 he⟩
    exact hload.2.imp (fun hf => free_environment hf he) fun hs => ⟨hs.1, hend hs.2⟩
  | wait pc =>
    simp only [hl, htodo, hval] at h ⊢
    obtain ⟨hdone, hflight, hat, hrun, hread⟩ := h
    refine ⟨hdone, inFlight_environment hflight he, fun hpc => haddr.trans (hat hpc), hrun, ?_⟩
    intro hpc hv
    exact List.subset_nil.1 (hread hpc hv ▸ environment_lists s he)
  | dataSize =>
    simp only [hl, htodo, haddr] at h ⊢
    exact h.imp (fun hload => ⟨hload.1, clear_environment hload.2 he⟩) fun hs => ⟨hs.1, hend hs.2⟩
  | testControl retried | retryMsg | retryFlag =>
    simp only [hl] at h ⊢
    refine ⟨?_, clear_environment h.2 he⟩
    unfold Quiet
    rw [htodo, haddr]
    exact h.1
  | hotPlug | enumerated =>
    simp only [hl] at h ⊢
    exact htodo.trans h

theorem writing_cons {io : Io} {rest : List Io} (h : s.todo = io :: rest) :
    Writing s ↔ io.isWrite = true := by
  simp [Writing, h]

theorem testFlag_io (h : Tracked s) (ho : Orderly s) {io : Io} {rest : List Io} (htodo : s.todo = io :: rest)
    (hl : s.label = .testFlag) : Tracked s.access := by
  have hlabel : s.access.label = .testFlag := by rw [access_cons htodo, io_label, hl]
  simp only [Tracked, hl, htodo] at h
  simp only [Tracked, hlabel]
  simp only [access_cons htodo]
  cases h with
  | inl h =>
    obtain ⟨hload, hidle⟩ := h
    obtain ⟨hmsg, hcase⟩ := loads_io hload
    cases hcase with
    | inl hword =>
      obtain ⟨hlists, hload', -⟩ := hword
      refine Or.inl ⟨by rwa [io_step], hidle.imp (fun hf => ?_) fun hs => ⟨?_, fun l hl => hs.2 l ?_⟩⟩
      · exact hf.of_msg hlists (fun hdone => hmsg.symm.trans hdone) (io_sie1Msg s io)
      · exact (io_step s io).trans hs.1
      · rwa [← hlists]
    | inr hsubmit =>
      obtain ⟨hw, haddr, hlists, hrest⟩ := hsubmit
      refine Or.inr ⟨hrest, ?_⟩
      cases hidle with
      | inl hf => exact hf.submit rfl hlists (io_step s io) hmsg (io_sie1Msg s io)
      | inr hs =>
        refine Or.inl (Or.inl ⟨⟨s.step, 0x0500⟩, ?_, (io_step s io).symm, fun hne => ?_⟩)
        · rw [hlists, ho.submits hs.1 ((writing_cons htodo).2 hw) haddr]
          rfl
        · rw [io_step] at hne
          exact absurd hs.1 hne
  | inr h =>
    obtain ⟨hstill, hsent⟩ := h
    obtain ⟨hlists, hmem, hrest⟩ := still_io hstill
    refine Or.inr ⟨hrest, hsent.of_msg hlists (io_step s io) (io_finished s io) (fun hdone => ?_)
      (io_sie1Msg s io)⟩
    exact (congrFun hmem hpiSie1MsgAdr).symm.trans hdone

theorem dataSize_io (h : Tracked s) {io : Io} {rest : List Io} (htodo : s.todo = io :: rest)
    (hl : s.label = .dataSize) : Tracked s.access := by
  have hlabel : s.access.label = .dataSize := by rw [access_cons htodo, io_label, hl]
  simp only [Tracked, hl, htodo] at h
  simp only [Tracked, hlabel]
  simp only [access_cons htodo]
  cases h with
  | inl h =>
    obtain ⟨hload, hclear⟩ := h
    obtain ⟨hmsg, hcase⟩ := loads_io hload
    cases hcase with
    | inl hword =>
      obtain ⟨hlists, hload', -⟩ := hword
      exact Or.inl ⟨hload', hclear.of_msg hlists fun hdone => hmsg.symm.trans hdone⟩
    | inr hsubmit =>
      obtain ⟨-, -, hlists, hrest⟩ := hsubmit
      refine Or.inr ⟨hrest, fun l hl => ?_⟩
      change l ∈ (s.io io).lists at hl
      rw [hlists, hclear.1] at hl
      rw [List.mem_singleton.1 hl]
  | inr h =>
    obtain ⟨hlists, -, hrest⟩ := still_io h.1
    refine Or.inr ⟨hrest, fun l hl => h.2 l ?_⟩
    rwa [← hlists]

theorem tracked_io (h : Tracked s) (ho : Orderly s) {io : Io} {rest : List Io}
    (htodo : s.todo = io :: rest) : Tracked s.access := by
  have hlabel : s.access.label = s.label := by rw [access_cons htodo, io_label]
  cases hl : s.label with
  | testFlag => exact testFlag_io h ho htodo hl
  | dataSize => exact dataSize_io h htodo hl
  | wait pc =>
    simp only [Tracked, hl, htodo] at h
    cases h.1
  | testControl retried | retryMsg | retryFlag =>
    rw [hl] at hlabel
    simp only [Tracked, hl, Quiet, htodo] at h
    simp only [Tracked, hlabel]
    simp only [access_cons htodo]
    obtain ⟨hlists, hmsg, hrest⟩ := quiet_io h.1
    exact ⟨hrest, h.2.of_msg hlists hmsg⟩
  | hotPlug | enumerated =>
    simp only [Tracked, hl, htodo] at h
    cases h

theorem not_loads_nil {limit start a : BitVec 16} : ¬ Loads limit start a [] := by
  intro h
  obtain ⟨words, hwrites, -⟩ := h
  simp [dataWrites] at hwrites

theorem begin_tracked {k : EnumStep} (h : Free s ∨ k = .setConfig ∧ EndpointOnly s) :
    Tracked (s.begin k) :=
  Or.inl ⟨submission_loads k _, h⟩

theorem nextStep_tracked (htodo : s.todo = []) (h : Clear s) : Tracked s.nextStep := by
  unfold Enumeration.nextStep
  cases s.step with
  | getConfigDesc2 => exact Or.inl ⟨deviceInfo_loads _, h⟩
  | getReportDesc => exact htodo
  | _ => exact begin_tracked (Or.inl (Or.inl h))

theorem InFlight.of_read (h : InFlight s) (ho : Orderly s) (htodo : s.todo = [])
    (hl : s.label = .wait .readData) (hdone : s.msg = husbTDListDone) :
    s.lists = [] ∧ s.finished = some s.step := by
  cases h with
  | inl h =>
    obtain ⟨l, hlists, -, hno⟩ := h
    by_cases hstep : s.step = .setConfig
    · rw [ho.reads hstep htodo hl hdone] at hlists
      cases hlists
    · exact absurd hdone (hno hstep)
  | inr h => exact ⟨h.1, h.2 hdone⟩

theorem wait_tracked {pc : WaitPc} (hl : s.label = .wait pc) (h : Tracked s) (ho : Orderly s) :
    Tracked s.access := by
  simp only [Tracked, hl] at h
  obtain ⟨htodo, hflight, haddr, hrun, hread⟩ := h
  have hat := addressed_step haddr .access
  cases pc with
  | returned => exact absurd rfl hrun
  | readAddr =>
    rw [access_readAddr htodo hl]
    exact ⟨htodo, hflight.of_msg rfl rfl rfl id, hat, by simp, by simp⟩
  | readData =>
    rw [access_readData htodo hl (haddr (Or.inl rfl))]
    refine ⟨htodo, hflight.of_msg rfl rfl rfl id, by simp [Addressed], by simp, fun _ hdone => ?_⟩
    exact (hflight.of_read ho htodo hl hdone).1
  | writeAddr =>
    have hs : s.access = { s with hpi := s.hpi.writeAddr hpiSie1MsgAdr, label := .wait .writeData } := by
      simp [Enumeration.access, htodo, hl, Wait.access]
    rw [hs]
    exact ⟨htodo, hflight.of_msg rfl rfl rfl id, fun _ => rfl, by simp, fun _ => hread (Or.inl rfl)⟩
  | writeData =>
    have hcleared : (s.hpi.writeData 0).mem hpiSie1MsgAdr = 0 := by
      rw [Hpi.writeData, haddr (Or.inr rfl)]
      exact Function.update_self hpiSie1MsgAdr 0 s.hpi.mem
    have hmsg : (s.hpi.writeData 0).mem hpiSie1MsgAdr ≠ husbTDListDone := by
      rw [hcleared]
      decide
    by_cases hdone : s.usbCtlVal = husbTDListDone
    · have hs : s.access =
          { s with
            hpi := s.hpi.writeData 0
            todo := [.addr 0x0506, .read, .addr 0x0508]
            label := .testControl false } := by
        simp [Enumeration.access, htodo, hl, Wait.access, hdone]
      rw [hs]
      exact ⟨by simp [Quiet, dataWrites], hread (Or.inr rfl) hdone, hmsg⟩
    · have hs : s.access = { s with hpi := s.hpi.writeData 0, label := .wait .readAddr } := by
        simp [Enumeration.access, htodo, hl, Wait.access, hdone]
      rw [hs]
      exact ⟨htodo, hflight.of_msg rfl rfl rfl fun h => absurd h hmsg, by simp [Addressed], by simp,
        by simp⟩

theorem tracked_access (h : Tracked s) (ho : Orderly s) : Tracked s.access := by
  cases htodo : s.todo with
  | cons io rest => exact tracked_io h ho htodo
  | nil =>
    cases hl : s.label with
    | wait pc => exact wait_tracked hl h ho
    | testFlag =>
      simp only [Tracked, hl, htodo] at h
      have hsent : Sent s := (h.resolve_left fun hload => not_loads_nil hload.1).2
      cases hflag : s.sie1Msg with
      | true =>
        have hflight : InFlight s := hsent.resolve_right fun hr => Bool.false_ne_true (hr.1.symm.trans hflag)
        rw [access_raised htodo hl hflag]
        exact ⟨htodo, hflight.of_msg rfl rfl rfl id, by simp [Addressed], by simp, by simp⟩
      | false =>
        have hre : Resubmits s := ⟨htodo, hl, hflag⟩
        rw [access_resubmits hre]
        exact begin_tracked (Or.inl (Or.inr ⟨hflag, ho.resubmits hre⟩))
    | testControl retried =>
      simp only [Tracked, hl] at h
      have hclear : Clear { s with hpi := s.hpi.readData.2 } := h.2.of_msg rfl id
      simp only [Enumeration.access, htodo, hl]
      split_ifs
      · exact rfl
      · exact ⟨by simp [Quiet, dataWrites], hclear.of_msg rfl id⟩
      · exact nextStep_tracked rfl (hclear.of_msg rfl id)
    | retryMsg =>
      simp only [Tracked, hl] at h
      simp only [Enumeration.access, htodo, hl]
      split_ifs
      · exact ⟨by simp [Quiet, dataWrites, usbWrite], h.2.of_msg rfl id⟩
      · exact ⟨by simp [Quiet, dataWrites], h.2.of_msg rfl id⟩
    | retryFlag =>
      simp only [Tracked, hl] at h
      simp only [Enumeration.access, htodo, hl]
      split_ifs
      · exact ⟨by simp [Quiet, dataWrites], h.2.of_msg rfl id⟩
      · simpa only [Tracked, hl] using h
    | dataSize =>
      simp only [Tracked, hl, htodo] at h
      have hend : EndpointOnly s := (h.resolve_left fun hload => not_loads_nil hload.1).2
      simp only [Enumeration.access, htodo, hl]
      exact begin_tracked (Or.inr ⟨rfl, hend⟩)
    | hotPlug | enumerated =>
      have hs : s.access = s := by simp [Enumeration.access, htodo, hl]
      rwa [hs]

theorem tracked_step (h : Tracked s) {e : EnumEvent} (ho : InOrder s e) : Tracked (enumStep s e) := by
  by_cases he : e = .access
  · subst he
    exact tracked_access h (ho rfl)
  · exact tracked_environment h he

theorem Writing.todo (hw : Writing s) : ∃ v rest, s.todo = .write v :: rest := by
  cases htodo : s.todo with
  | nil => simp [Writing, htodo] at hw
  | cons io rest =>
    rw [writing_cons htodo] at hw
    cases io with
    | write v => exact ⟨v, rest, rfl⟩
    | addr v | read | status => cases hw

theorem writing_cases (h : Tracked s) (hw : Writing s) :
    s.lists = [] ∨ s.label = .testFlag ∧ Loads s.step.limit 0x0500 s.hpi.addr s.todo ∧
      s.step = .setConfig ∧ EndpointOnly s := by
  obtain ⟨v, rest, htodo⟩ := hw.todo
  have hwrites : dataWrites s.hpi.addr s.todo ≠ [] := by simp [htodo, dataWrites]
  have hne : s.todo ≠ [] := by simp [htodo]
  cases hl : s.label with
  | testFlag =>
    simp only [Tracked, hl] at h
    obtain ⟨hload, hidle⟩ := h.resolve_right fun hsent => hwrites hsent.1
    exact hidle.imp Free.lists fun hs => ⟨rfl, hload, hs⟩
  | wait pc =>
    simp only [Tracked, hl] at h
    exact absurd h.1 hne
  | dataSize =>
    simp only [Tracked, hl] at h
    exact Or.inl (h.resolve_right fun hsent => hwrites hsent.1).2.1
  | testControl retried | retryMsg | retryFlag =>
    simp only [Tracked, hl] at h
    exact Or.inl h.2.1
  | hotPlug | enumerated =>
    simp only [Tracked, hl] at h
    exact absurd h hne

theorem reading_cases (h : Tracked s) (hl : s.label = .wait .readData) :
    s.hpi.addr = hpiSie1MsgAdr ∧ s.todo = [] ∧ InFlight s := by
  simp only [Tracked, hl] at h
  exact ⟨h.2.2.1 (Or.inl rfl), h.1, h.2.1⟩

/-- What holds of every step taken in order. -/
theorem safe_of_tracked (h : Tracked s) {e : EnumEvent} (ho : InOrder s e) : Safe s e := by
  refine ⟨fun hunfinished => ?_, fun hover => ?_, fun hmistake => ?_⟩
  · obtain ⟨-, -, hl, hdone, l, hmem, -⟩ := hunfinished
    simp only [Tracked, hl] at h
    rw [h.2.2.2.2 (Or.inr trivial) hdone] at hmem
    cases hmem
  · obtain ⟨rfl, hw, l, hmem, hle⟩ := hover
    cases writing_cases h hw with
    | inl hc =>
      rw [hc] at hmem
      cases hmem
    | inr hs =>
      obtain ⟨-, hload, hstep, hend⟩ := hs
      have hlow : s.hpi.addr < 0x0576 := by
        obtain ⟨v, rest, htodo⟩ := hw.todo
        rw [htodo, hstep] at hload
        cases (loads_io hload).2 with
        | inl hword => exact hword.2.2 rfl
        | inr hsubmit => exact hsubmit.2.1 ▸ by decide
      rw [hend l hmem] at hle
      exact absurd hlow (BitVec.not_lt.2 hle)
  · obtain ⟨rfl, htodo, hl, hdone, hother⟩ := hmistake
    obtain ⟨haddr, -, hflight⟩ := reading_cases h hl
    rw [readData_msg haddr] at hdone
    exact hother (hflight.of_read (ho rfl) htodo hl hdone).2

theorem step3_tracked (hpi : Hpi) (m : OtherMsg) (sie1Msg : Bool) (usbCtlVal : BitVec 16) :
    Tracked (step3 hpi m sie1Msg usbCtlVal) := by
  refine Or.inl ⟨submission_loads .setAddress _, Or.inl (Or.inl ⟨rfl, ?_⟩)⟩
  simp only [step3, Enumeration.msg, Function.update_self]
  exact m.2

/-- The run can be continued to a return of `UsbWaitTDListDone` with a list unfinished,
and no further list need be submitted again for that. -/
def Doomed (s : Enumeration) : Prop :=
  ∃ es, Throughout enumStep Unrepeated s es ∧ ¬ Throughout enumStep (fun t e => ¬ Unfinished t e) s es

theorem Doomed.of_step {e : EnumEvent} (hno : Unrepeated s e) (h : Doomed (enumStep s e)) : Doomed s := by
  obtain ⟨es, honce, hes⟩ := h
  exact ⟨e :: es, ⟨hno, honce⟩, fun hall => hes hall.2⟩

theorem unrepeated_cons {io : Io} {rest : List Io} (htodo : s.todo = io :: rest) (e : EnumEvent) :
    Unrepeated s e := by
  rintro - ⟨hnil, -⟩
  rw [htodo] at hnil
  cases hnil

theorem unrepeated_label (hl : s.label ≠ .testFlag) (e : EnumEvent) : Unrepeated s e :=
  fun _ hre => hl hre.2.1

theorem unrepeated_raised (hflag : s.sie1Msg = true) (e : EnumEvent) : Unrepeated s e :=
  fun _ hre => Bool.false_ne_true (hre.2.2.symm.trans hflag)

theorem Doomed.of_io {io : Io} {rest : List Io} (htodo : s.todo = io :: rest)
    (h : Doomed { s.io io with todo := rest }) : Doomed s := by
  rw [← access_cons htodo] at h
  exact Doomed.of_step (e := .access) (unrepeated_cons htodo _) h

theorem returning_doomed (htodo : s.todo = []) (hl : s.label = .wait .writeAddr)
    (hdone : s.usbCtlVal = husbTDListDone) (hlist : ∃ l ∈ s.lists, l.step = s.step) : Doomed s := by
  have hnext : (enumStep s .access).label = .wait .writeData := by
    simp [enumStep, Enumeration.access, htodo, hl, Wait.access]
  refine ⟨[.access, .access], ⟨unrepeated_label (by simp [hl]) _, unrepeated_label (by simp [hnext]) _, trivial⟩,
    fun hall => hall.2.1 ⟨rfl, ?_⟩⟩
  simp [enumStep, Enumeration.access, htodo, hl, Wait.access, hdone, hlist]

theorem reading_doomed (htodo : s.todo = []) (hl : s.label = .wait .readData)
    (haddr : s.hpi.addr = hpiSie1MsgAdr) (hmsg : s.msg = husbTDListDone)
    (hlist : ∃ l ∈ s.lists, l.step = s.step) : Doomed (enumStep s .access) := by
  rw [enumStep, access_readData htodo hl haddr]
  exact returning_doomed htodo rfl hmsg hlist

theorem raised_doomed {ios : List Io} (htodo : s.todo = ios) (hl : s.label = .testFlag)
    (hstill : dataWrites s.hpi.addr ios = []) (hflag : s.sie1Msg = true)
    (hmsg : s.msg = husbTDListDone) (hlist : ∃ l ∈ s.lists, l.step = s.step) : Doomed s := by
  induction ios generalizing s with
  | nil =>
    apply Doomed.of_step (e := .access) (unrepeated_raised hflag _)
    rw [enumStep, access_raised htodo hl hflag]
    apply Doomed.of_step (e := .access) (unrepeated_label (by simp) _)
    rw [enumStep, access_readAddr (s := { s with label := .wait .readAddr }) htodo rfl]
    apply Doomed.of_step (e := .access) (unrepeated_label (by simp) _)
    exact reading_doomed htodo rfl rfl hmsg hlist
  | cons io rest ih =>
    obtain ⟨hlists, hmem, hrest⟩ := still_io hstill
    apply Doomed.of_io htodo
    refine ih rfl ((io_label s io).trans hl) hrest ((io_sie1Msg s io).trans hflag) ?_ ?_
    · exact (congrFun hmem hpiSie1MsgAdr).trans hmsg
    · change ∃ l ∈ (s.io io).lists, l.step = (s.io io).step
      rwa [hlists, io_step]

theorem submitted_doomed {ios : List Io} (htodo : s.todo = ios) (hl : s.label = .testFlag)
    (hstill : dataWrites s.hpi.addr ios = []) {l : TdList} {ls : List TdList}
    (hlists : s.lists = l :: ls) (hlist : ∃ l ∈ ls, l.step = s.step) : Doomed s := by
  apply Doomed.of_step (e := .finish 0) (fun he => by cases he)
  simp only [enumStep, hlists, List.getElem?_cons_zero, List.eraseIdx_cons_zero]
  refine raised_doomed htodo hl hstill rfl ?_ hlist
  simp [Enumeration.msg, Enumeration.setMem]

theorem loading_doomed {ios : List Io} (htodo : s.todo = ios) (hl : s.label = .testFlag)
    {limit start : BitVec 16} (hload : Loads limit start s.hpi.addr ios) (hlists : s.lists ≠ []) :
    Doomed (enumStep s .access) := by
  induction ios generalizing s with
  | nil => exact absurd hload not_loads_nil
  | cons io rest ih =>
    rw [enumStep, access_cons htodo]
    cases (loads_io hload).2 with
    | inl hword =>
      obtain ⟨hkept, hload', -⟩ := hword
      have hmore : rest ≠ [] := fun hnil => not_loads_nil (hnil ▸ hload')
      obtain ⟨io', rest', rfl⟩ := List.exists_cons_of_ne_nil hmore
      apply Doomed.of_step (e := .access) (unrepeated_cons rfl _)
      refine ih rfl ((io_label s io).trans hl) hload' ?_
      change (s.io io).lists ≠ []
      rwa [hkept]
    | inr hsubmit =>
      obtain ⟨-, -, happend, hrest⟩ := hsubmit
      obtain ⟨l, ls, hcons⟩ := List.exists_cons_of_ne_nil hlists
      have hlists' : (s.io io).lists = l :: (ls ++ [⟨s.step, start⟩]) := by
        rw [happend, hcons]
        rfl
      refine submitted_doomed rfl ((io_label s io).trans hl) hrest hlists' ⟨⟨s.step, start⟩, ?_, ?_⟩
      · simp
      · exact (io_step s io).symm

/-- A step that is not in order can be continued to a wrong one. -/
theorem disorderly_doomed (h : Tracked s) (ho : ¬ Orderly s) : Doomed (enumStep s .access) := by
  by_contra hnot
  refine ho ⟨fun hre => ?_, fun _ hw _ => ?_, fun _ htodo hl hmsg => ?_⟩
  · by_contra hlists
    rw [enumStep, access_resubmits hre] at hnot
    obtain ⟨io, rest, hcons⟩ : ∃ io rest, s.step.submission = io :: rest := by
      cases s.step <;> exact ⟨_, _, rfl⟩
    exact hnot (Doomed.of_step (e := .access) (unrepeated_cons hcons _)
      (loading_doomed rfl rfl (submission_loads s.step _) hlists))
  · cases writing_cases h hw with
    | inl hc => exact hc
    | inr hs =>
      by_contra hlists
      exact hnot (loading_doomed rfl hs.1 hs.2.1 hlists)
  · obtain ⟨haddr, -, hflight⟩ := reading_cases h hl
    cases hflight with
    | inl hown =>
      obtain ⟨l, hlists, hstep, -⟩ := hown
      exact absurd (reading_doomed htodo hl haddr hmsg ⟨l, by simp [hlists], hstep⟩) hnot
    | inr hnone => exact hnone.1

/-- While the steps are taken in order, every wait ends with its step's lists finished, no
list in progress is overwritten and no completion mistaken for another step's. After the
first step that is not, `UsbWaitTDListDone` can be made to return too early, without any
further attempt. -/
theorem enumeration_safe (hpi : Hpi) (m : OtherMsg) (sie1Msg : Bool) (usbCtlVal : BitVec 16)
    (es : List EnumEvent) (hall : Throughout enumStep InOrder (step3 hpi m sie1Msg usbCtlVal) es) :
    Throughout enumStep Safe (step3 hpi m sie1Msg usbCtlVal) es ∧
      ∀ e, ¬ InOrder (run enumStep (step3 hpi m sie1Msg usbCtlVal) es) e →
        ∃ js, Throughout enumStep Unrepeated (enumStep (run enumStep (step3 hpi m sie1Msg usbCtlVal) es) e) js ∧
          ¬ Throughout enumStep (fun t e => ¬ Unfinished t e) (step3 hpi m sie1Msg usbCtlVal)
            (es ++ e :: js) := by
  have hstart : Tracked (step3 hpi m sie1Msg usbCtlVal) := step3_tracked hpi m sie1Msg usbCtlVal
  constructor
  · exact hall.of_invariant enumStep (I := Tracked) (fun _ _ ho ht => tracked_step ht ho)
      (fun _ _ ho ht => safe_of_tracked ht ho) hstart
  · intro e ho
    have hend := run_induction enumStep (I := Tracked) (fun _ _ ho ht => tracked_step ht ho) hstart es hall
    obtain ⟨rfl, hno⟩ := Classical.not_imp.1 ho
    obtain ⟨js, honce, hjs⟩ := disorderly_doomed hend hno
    exact ⟨js, honce, fun hsafe => hjs ((throughout_append enumStep _ _ es (.access :: js)).1 hsafe).2.2⟩

def powerUp : Enumeration := step3 ⟨0, fun _ => 0⟩ ⟨0, by decide⟩ false 0

def promptStep (k : EnumStep) : List EnumEvent :=
  List.replicate k.submission.length .access ++
    [.finish 0, .store ⟨0x0508, by decide⟩ 0x03, .access, .access, .access, .lowerFlag] ++
    List.replicate 6 .access

/-- Steps 3 to 9 without a retry; the list of `deviceInfo` is finished at once. -/
def promptRun : List EnumEvent :=
  promptStep .setAddress ++ promptStep .getDeviceDesc1 ++ promptStep .getDeviceDesc2 ++
    promptStep .getConfigDesc1 ++ promptStep .getConfigDesc2 ++
    List.replicate 12 .access ++ [.finish 0] ++
    promptStep .setConfig ++ promptStep .classRequest ++ promptStep .getHidDesc ++
    promptStep .getReportDesc

theorem enumeration_safe_promptRun :
    Throughout enumStep Safe powerUp promptRun ∧
      ∀ e, ¬ InOrder (run enumStep powerUp promptRun) e →
        ∃ js, Throughout enumStep Unrepeated (enumStep (run enumStep powerUp promptRun) e) js ∧
          ¬ Throughout enumStep (fun t e => ¬ Unfinished t e) powerUp (promptRun ++ e :: js) :=
  enumeration_safe _ _ _ _ promptRun (by decide +kernel)

example : (run enumStep powerUp promptRun).label = .enumerated := by decide +kernel

/-- `UsbSetAddress` is called twice before the first list is finished. The wait is about
to return. -/
def retried : List EnumEvent :=
  List.replicate 39 .access ++
    [.finish 0, .store ⟨0x0508, by decide⟩ 0x03, .access, .access, .access, .lowerFlag, .access]

def retriedNext : List EnumEvent := retried ++ List.replicate 6 .access

/-- The list of `UsbGetDeviceDesc1` is submitted; then the second list of step 3 is
finished. -/
def retriedTaken : List EnumEvent :=
  retriedNext ++ List.replicate 24 .access ++ [.finish 0, .access, .access]

theorem retried_reuses :
    Unfinished (run enumStep powerUp retried) .access ∧
      Overwrites (run enumStep powerUp retriedNext) .access ∧
      Mistakes (run enumStep powerUp retriedTaken) .access := by
  decide +kernel

/-- Without any retry, step 7 takes the completion of the list that nobody waits for. -/
example : Mistakes (run enumStep powerUp
    (promptStep .setAddress ++ promptStep .getDeviceDesc1 ++ promptStep .getDeviceDesc2 ++
      promptStep .getConfigDesc1 ++ promptStep .getConfigDesc2 ++ List.replicate 12 .access ++
      List.replicate usbSetConfig.length .access ++ [.finish 0, .access, .access])) .access := by
  decide +kernel

end Tetris
