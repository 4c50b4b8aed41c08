import Mathlib.Data.Bool.AllAny
import Tetris.Gravity
import Tetris.Polling

/-! `main` as a whole: the setup of the controller, the enumeration, the loop, and after a
hot plug the setup again. Each stage begins where the one before it ended. -/
namespace Tetris
open Machine

def commReset : BitVec 16 := 0xFA50
def commExecInt : BitVec 16 := 0xCE01
def commAck : BitVec 16 := 0x0FED
def commIntNum : BitVec 16 := 0x01C2
def commR0 : BitVec 16 := 0x01C4
def husbSie1InitInt : BitVec 16 := 0x0072
def husbResetInt : BitVec 16 := 0x0074
def husbPEOT : BitVec 16 := 0x01B4
def hpiSie2MsgAdr : BitVec 16 := 0x0148
def hpiIrqRoutingReg : BitVec 16 := 0x0142
def host1IrqEnReg : BitVec 16 := 0xC08C
def host1StatReg : BitVec 16 := 0xC090
def host2StatReg : BitVec 16 := 0xC0B0

/-- An access of the setup, which uses the mailbox besides. -/
inductive SetupIo where
  | io (io : Io)
  | mailbox (v : BitVec 16)
  | readMailbox
  deriving DecidableEq

def usbRead (address : BitVec 16) : List Io := [.addr address, .read]

def usbSoftReset : List SetupIo :=
  [.mailbox commReset, .readMailbox, .io .status] ++
    (usbRead hpiSie1MsgAdr ++ usbWrite hpiSie1MsgAdr 0 ++ usbRead hpiSie2MsgAdr ++ usbWrite hpiSie2MsgAdr 0 ++
      usbWrite host1StatReg 0xFFFF ++ usbWrite host2StatReg 0xFFFF).map .io

/-- `COMM_R0` to `COMM_R13`, which are consecutive words. -/
def commRegs (r0 : BitVec 16) : List Io :=
  usbWrite commR0 r0 ++ (List.range 13).flatMap fun i => usbWrite (commR0 + 2 * (BitVec.ofNat 16 i + 1)) 0

def sie1Initial : List SetupIo :=
  (usbWrite hpiSie1MsgAdr 0 ++ usbWrite host1StatReg 0xFFFF ++ usbWrite husbPEOT 600 ++
    usbWrite hpiIrqRoutingReg (0x0400 ||| 0x0040) ++ usbWrite host1IrqEnReg (0x0010 ||| 0x0200) ++
    commRegs 0 ++ usbWrite commIntNum husbSie1InitInt).map .io ++ [.mailbox commExecInt]

def husbReset : List SetupIo :=
  (usbWrite commIntNum husbResetInt ++ commRegs 0x003c).map .io ++ [.mailbox commExecInt]

inductive SetupLabel where
  /-- `while (!(IO_read(HPI_STATUS) & 0xFFFF))` -/
  | status
  /-- `while (IO_read(HPI_MAILBOX) != COMM_ACK)`, in step 1 or in step 2 -/
  | ack (step2 : Bool)
  /-- `UsbRead(ctl_reg)`, after a number of reads that found no device -/
  | device (tries : Nat)
  /-- the loop that waits for a keyboard -/
  | absent
  | ready
  deriving DecidableEq

/-- Software and controller. `raised` says that a bit of `HPI_STATUS` is set other than that
of `sie1Msg`, and `lists` counts the lists in progress. -/
structure Setup where
  hpi : Hpi
  sie1Msg : Bool
  raised : Bool
  mailbox : BitVec 16
  lists : Nat
  todo : List SetupIo
  label : SetupLabel
  usbCtlVal : BitVec 16

inductive SetupEvent where
  | access
  | finish
  | message (m : OtherMsg)
  | store (a : {a : BitVec 16 // a ≠ hpiSie1MsgAdr}) (v : BitVec 16)
  | lowerFlag
  | reply (v : BitVec 16)
  | status (raised : Bool)
  deriving DecidableEq

namespace Setup

def msg (s : Setup) : BitVec 16 := s.hpi.mem hpiSie1MsgAdr

/-- `USB_HOT_PLUG:`, with some lists in progress. -/
def hotPlug (hpi : Hpi) (sie1Msg : Bool) (lists : Nat) (usbCtlVal : BitVec 16) : Setup where
  hpi := hpi
  sie1Msg := sie1Msg
  raised := false
  mailbox := 0
  lists := lists
  todo := usbSoftReset ++ sie1Initial
  label := .status
  usbCtlVal := usbCtlVal

/-- The reset takes the lists in progress away. -/
def io (s : Setup) (io : SetupIo) : Setup :=
  match io with
  | .io (.addr v) => { s with hpi := s.hpi.writeAddr v }
  | .io (.write v) =>
    { s with
      hpi := s.hpi.writeData v
      lists := if s.hpi.addr = husbSie1PCurrentTDPtr then s.lists + 1 else s.lists }
  | .io .read => { s with hpi := s.hpi.readData.2 }
  | .io .status => s
  | .mailbox v => { s with lists := if v = commReset then 0 else s.lists }
  | .readMailbox => s

def access (s : Setup) : Setup :=
  match s.todo with
  | io :: rest => { s.io io with todo := rest }
  | [] =>
    match s.label with
    | .status => if s.sie1Msg ∨ s.raised then { s with label := .ack false } else s
    | .ack step2 =>
      -- the mailbox is read once more, for the error message
      if s.mailbox ≠ commAck then { s with todo := .readMailbox :: (usbSoftReset ++ sie1Initial), label := .status }
      else if step2 then { s with todo := [.io (.addr ctlReg)], label := .device 0 }
      else { s with todo := husbReset, label := .ack true }
    | .device tries =>
      let t := { s with hpi := s.hpi.readData.2, usbCtlVal := s.hpi.readData.1 }
      if s.hpi.readData.1 &&& noDevice ≠ 0 then { t with label := .ready }
      else if tries < 5 then { t with todo := [.io (.addr ctlReg)], label := .device (tries + 1) }
      else { t with todo := [.io (.addr ctlReg)], label := .absent }
    | .absent =>
      let t := { s with hpi := s.hpi.readData.2, usbCtlVal := s.hpi.readData.1 }
      if s.hpi.readData.1 &&& noDevice ≠ 0 then { t with todo := usbSoftReset ++ sie1Initial, label := .status }
      else { t with todo := [.io (.addr ctlReg)] }
    | .ready => s

def setMem (s : Setup) (a v : BitVec 16) : Setup :=
  { s with hpi := { s.hpi with mem := Function.update s.hpi.mem a v } }

def step (s : Setup) (e : SetupEvent) : Setup :=
  match e with
  | .access => s.access
  | .finish =>
    if 0 < s.lists then { s.setMem hpiSie1MsgAdr husbTDListDone with sie1Msg := true, lists := s.lists - 1 } else s
  | .message m => { s.setMem hpiSie1MsgAdr m with sie1Msg := true }
  | .store a v => s.setMem a v
  | .lowerFlag => { s with sie1Msg := false }
  | .reply v => { s with mailbox := v }
  | .status b => { s with raised := b }

end Setup

/-- What `main` keeps from one stage to the next, and the keycode that the game sees.
`arrived` is no variable but the reports of the loops so far. -/
structure Vars where
  toggle : BitVec 8
  dataSize : BitVec 8
  keycode : BitVec 16
  arrived : List (BitVec 16)

inductive Stage where
  | setup (s : Setup) (v : Vars)
  | enumeration (s : Enumeration) (v : Vars)
  | loop (s : Polling) (earlier : List (BitVec 16))

/-- An event of the stage that `main` is in, or the passage to the next. -/
inductive StageEvent where
  | setup (e : SetupEvent)
  | enumeration (e : EnumEvent)
  | loop (e : PollEvent)
  | next
  deriving DecidableEq

/-- `data_size = (IO_read(HPI_DATA))&0x0ff` -/
def Vars.after (v : Vars) (s : Enumeration) (e : EnumEvent) : Vars :=
  if e = .access ∧ s.todo = [] ∧ s.label = .dataSize then
    { v with dataSize := (s.hpi.readData.1 &&& 0x0ff).setWidth 8 }
  else v

namespace Stage

def keycode : Stage → BitVec 16
  | .setup _ v | .enumeration _ v => v.keycode
  | .loop s _ => s.keycode

def arrived : Stage → List (BitVec 16)
  | .setup _ v | .enumeration _ v => v.arrived
  | .loop s earlier => earlier ++ s.arrived

/-- The next stage as it is when nothing is left over from this one. -/
def next : Stage → Stage
  | .setup s v =>
    if h : s.todo = [] ∧ s.label = .ready ∧ s.lists = 0 ∧ s.msg ≠ husbTDListDone then
      .enumeration (step3 s.hpi ⟨s.msg, h.2.2.2⟩ s.sie1Msg s.usbCtlVal) v
    else .setup s v
  | .enumeration s v =>
    if s.label = .hotPlug then .setup (.hotPlug s.hpi s.sie1Msg s.lists.length s.usbCtlVal) v
    else if h : s.label = .enumerated ∧ s.lists = [] ∧ s.msg ≠ husbTDListDone then
      .loop (.first s.hpi ⟨s.msg, h.2.2⟩ s.sie1Msg v.toggle v.dataSize v.keycode) v.arrived
    else .enumeration s v
  | .loop s earlier =>
    if s.label = .hotPlug then
      .setup (.hotPlug s.hpi s.sie1Msg s.lists.length s.usbCtlVal)
        ⟨s.toggle, s.dataSize, s.keycode, earlier ++ s.arrived⟩
    else .loop s earlier

def step : Stage → StageEvent → Stage
  | .setup s v, .setup e => .setup (s.step e) v
  | .enumeration s v, .enumeration e => .enumeration (enumStep s e) (v.after s e)
  | .loop s earlier, .loop e => .loop (s.step e) earlier
  | st, .next => st.next
  | st, _ => st

end Stage

/-- `main` begins, with whatever there is in the controller. -/
def mainStart (hpi : Hpi) (sie1Msg : Bool) (lists : Nat) (usbCtlVal : BitVec 16) (dataSize : BitVec 8) : Stage :=
  .setup (.hotPlug hpi sie1Msg lists usbCtlVal) ⟨0, dataSize, 0, []⟩

/-- The controller leaves the word alone at which it will put the reports. In the
enumeration that is the last word of a transfer descriptor. -/
def Spares (e : EnumEvent) : Prop :=
  match e with
  | .store a _ => a.1 ≠ reportWord
  | _ => True

def Stage.Careful : Stage → StageEvent → Prop
  | .enumeration s _, .enumeration e => InOrder s e ∧ Spares e
  | _, _ => True

def Stage.Once : Stage → StageEvent → Prop
  | .loop s _, .loop e => s.Once e
  | _, _ => True

instance (e : EnumEvent) : Decidable (Spares e) :=
  match e with
  | .store a _ => inferInstanceAs (Decidable (a.1 ≠ reportWord))
  | .access | .finish _ | .message _ | .lowerFlag => .isTrue trivial

instance (st : Stage) (e : StageEvent) : Decidable (st.Careful e) :=
  match st, e with
  | .enumeration s _, .enumeration e => inferInstanceAs (Decidable (InOrder s e ∧ Spares e))
  | .enumeration _ _, .setup _ | .enumeration _ _, .loop _ | .enumeration _ _, .next => .isTrue trivial
  | .setup _ _, _ | .loop _ _, _ => .isTrue trivial

instance (st : Stage) (e : StageEvent) : Decidable (st.Once e) :=
  match st, e with
  | .loop s _, .loop e => inferInstanceAs (Decidable (s.Once e))
  | .loop _ _, .setup _ | .loop _ _, .enumeration _ | .loop _ _, .next => .isTrue trivial
  | .setup _ _, _ | .enumeration _ _, _ => .isTrue trivial

def SetupIo.plain : SetupIo → Io
  | .io access => access
  | .mailbox _ | .readMailbox => .status

/-- No list is submitted, and the message register is cleared at most. -/
def Harmless (w : BitVec 16 × BitVec 16) : Prop :=
  w.1 ≠ husbSie1PCurrentTDPtr ∧ (w.1 = hpiSie1MsgAdr → w.2 = 0)

instance (w : BitVec 16 × BitVec 16) : Decidable (Harmless w) := inferInstanceAs (Decidable (_ ∧ (_ → _)))

namespace Setup

def writes (s : Setup) : List (BitVec 16 × BitVec 16) := dataWrites s.hpi.addr (s.todo.map SetupIo.plain)

/-- Lists in progress are reset before anything else, and the message register is cleared
after that. -/
structure Tracked (s : Setup) : Prop where
  harmless : ∀ w ∈ s.writes, Harmless w
  reset : s.lists = 0 ∨ s.todo = usbSoftReset ++ sie1Initial
  clears : s.msg ≠ husbTDListDone ∨ (hpiSie1MsgAdr, 0) ∈ s.writes
  present : s.label = .ready → s.todo = [] ∧ s.usbCtlVal &&& noDevice ≠ 0

theorem restart_harmless (a : BitVec 16) :
    ∀ w ∈ dataWrites a ((usbSoftReset ++ sie1Initial).map SetupIo.plain), Harmless w := by
  have hstart : dataWrites a ((usbSoftReset ++ sie1Initial).map SetupIo.plain) =
      dataWrites 0 ((usbSoftReset ++ sie1Initial).map SetupIo.plain) := rfl
  rw [hstart, ← List.all_iff_forall_prop]
  decide

theorem restart_clears (a : BitVec 16) :
    (hpiSie1MsgAdr, 0) ∈ dataWrites a ((usbSoftReset ++ sie1Initial).map SetupIo.plain) := by
  have hstart : dataWrites a ((usbSoftReset ++ sie1Initial).map SetupIo.plain) =
      dataWrites 0 ((usbSoftReset ++ sie1Initial).map SetupIo.plain) := rfl
  rw [hstart]
  decide

theorem husbReset_harmless (a : BitVec 16) : ∀ w ∈ dataWrites a (husbReset.map SetupIo.plain), Harmless w := by
  have hstart : dataWrites a (husbReset.map SetupIo.plain) = dataWrites 0 (husbReset.map SetupIo.plain) := rfl
  rw [hstart, ← List.all_iff_forall_prop]
  decide

theorem hotPlug_tracked (hpi : Hpi) (sie1Msg : Bool) (lists : Nat) (v : BitVec 16) :
    (hotPlug hpi sie1Msg lists v).Tracked :=
  ⟨restart_harmless _, Or.inr rfl, Or.inr (restart_clears _), fun h => nomatch h⟩

variable {s t : Setup}

theorem Tracked.nothing_left (h : s.Tracked) (htodo : s.todo = []) : s.lists = 0 ∧ s.msg ≠ husbTDListDone := by
  refine ⟨h.reset.resolve_right fun hall => ?_, h.clears.resolve_right fun hmem => ?_⟩
  · rw [htodo] at hall
    cases hall
  · rw [writes, htodo] at hmem
    cases hmem

theorem Tracked.of_harmless (hlists : t.lists = 0) (hmsg : t.msg ≠ husbTDListDone)
    (hw : ∀ w ∈ t.writes, Harmless w) (hl : t.label ≠ .ready) : t.Tracked :=
  ⟨hw, Or.inl hlists, Or.inl hmsg, fun h => absurd h hl⟩

theorem access_cons {io : SetupIo} {rest : List SetupIo} (h : s.todo = io :: rest) :
    s.access = { s.io io with todo := rest } := by
  simp only [access, h]

theorem Tracked.after_first (h : s.Tracked) {io : SetupIo} {rest : List SetupIo} (htodo : s.todo = io :: rest)
    (hio : io ≠ .mailbox commReset) : s.lists = 0 := by
  refine h.reset.resolve_right fun hall => hio ?_
  rw [htodo] at hall
  exact (List.cons.inj hall).1

theorem Tracked.not_ready (h : s.Tracked) {io : SetupIo} {rest : List SetupIo} (htodo : s.todo = io :: rest) :
    s.access.label ≠ .ready := by
  have hnot : s.label ≠ .ready := by
    intro hl
    rw [(h.present hl).1] at htodo
    cases htodo
  rw [access_cons htodo]
  cases io with
  | io io => cases io <;> exact hnot
  | mailbox v | readMailbox => exact hnot

theorem writes_cons {io : SetupIo} {rest : List SetupIo} (htodo : s.todo = io :: rest) :
    s.writes = dataWrites s.hpi.addr (io.plain :: rest.map SetupIo.plain) := by
  rw [writes, htodo]
  rfl

theorem Tracked.of_unwritten (h : s.Tracked) {io : SetupIo} {rest : List SetupIo} (htodo : s.todo = io :: rest)
    (hw : s.access.writes = dataWrites s.hpi.addr (io.plain :: rest.map SetupIo.plain))
    (hmsg : s.access.msg = s.msg) (hlists : s.access.lists = 0) : s.access.Tracked := by
  rw [← writes_cons htodo] at hw
  exact ⟨by rw [hw]; exact h.harmless, Or.inl hlists, by rw [hw, hmsg]; exact h.clears,
    fun hl => absurd hl (h.not_ready htodo)⟩

theorem tracked_write (h : s.Tracked) {v : BitVec 16} {rest : List SetupIo}
    (htodo : s.todo = .io (.write v) :: rest) : s.access.Tracked := by
  have hs := access_cons htodo
  have hharmless := h.harmless
  have hclears := h.clears
  rw [writes_cons htodo] at hharmless hclears
  obtain ⟨hptr, hzero⟩ : s.hpi.addr ≠ husbSie1PCurrentTDPtr ∧ (s.hpi.addr = hpiSie1MsgAdr → v = 0) :=
    hharmless (s.hpi.addr, v) (List.mem_cons_self ..)
  have hlists : s.access.lists = 0 := by
    rw [hs]
    exact (if_neg hptr).trans (h.after_first htodo (by simp))
  have hmsg : s.access.msg = if hpiSie1MsgAdr = s.hpi.addr then v else s.msg := by
    rw [hs]
    exact Function.update_apply s.hpi.mem s.hpi.addr v hpiSie1MsgAdr
  have hrest : s.access.writes = dataWrites (s.hpi.addr + 2) (rest.map SetupIo.plain) := by
    rw [hs]
    rfl
  refine ⟨fun w hw => hharmless w ?_, Or.inl hlists, ?_, fun hl => absurd hl (h.not_ready htodo)⟩
  · rw [hrest] at hw
    exact List.mem_cons_of_mem _ hw
  · by_cases haddr : hpiSie1MsgAdr = s.hpi.addr
    · rw [hmsg, if_pos haddr, hzero haddr.symm]
      exact Or.inl (by decide)
    · rw [hmsg, if_neg haddr, hrest]
      refine hclears.imp_right fun hmem => ?_
      refine (List.mem_cons.1 hmem).resolve_left fun heq => haddr ?_
      exact congrArg Prod.fst heq

theorem tracked_io (h : s.Tracked) {io : SetupIo} {rest : List SetupIo} (htodo : s.todo = io :: rest) :
    s.access.Tracked := by
  have hs := access_cons htodo
  cases io with
  | mailbox v =>
    refine h.of_unwritten htodo (by rw [hs]; rfl) (by rw [hs]; rfl) ?_
    rw [hs]
    by_cases hv : v = commReset
    · exact if_pos hv
    · exact (if_neg hv).trans (h.after_first htodo fun hio => hv (SetupIo.mailbox.inj hio))
  | readMailbox =>
    refine h.of_unwritten htodo (by rw [hs]; rfl) (by rw [hs]; rfl) ?_
    rw [hs]
    exact h.after_first htodo (by simp)
  | io io =>
    have hnone : s.lists = 0 := h.after_first htodo (by simp)
    cases io with
    | write v => exact tracked_write h htodo
    | addr v | read | status =>
      exact h.of_unwritten htodo (by rw [hs]; rfl) (by rw [hs]; rfl) (by rw [hs]; exact hnone)

theorem tracked_access (h : s.Tracked) : s.access.Tracked := by
  cases htodo : s.todo with
  | cons io rest => exact tracked_io h htodo
  | nil =>
    obtain ⟨hlists, hmsg⟩ := h.nothing_left htodo
    cases hl : s.label with
    | status =>
      simp only [access, htodo, hl]
      split_ifs
      · exact .of_harmless hlists hmsg (by simp [writes, dataWrites]) (by simp)
      · exact h
    | ack step2 =>
      simp only [access, htodo, hl]
      split_ifs
      · exact .of_harmless hlists hmsg (restart_harmless s.hpi.addr) (by simp)
      · exact .of_harmless hlists hmsg (by simp [writes, SetupIo.plain, dataWrites]) (by simp)
      · exact .of_harmless hlists hmsg (husbReset_harmless _) (by simp)
    | device tries =>
      simp only [access, htodo, hl]
      split_ifs with hpresent
      · exact ⟨by simp [writes, dataWrites], Or.inl hlists, Or.inl hmsg, fun _ => ⟨rfl, hpresent⟩⟩
      · exact .of_harmless hlists hmsg (by simp [writes, SetupIo.plain, dataWrites]) (by simp)
      · exact .of_harmless hlists hmsg (by simp [writes, SetupIo.plain, dataWrites]) (by simp)
    | absent =>
      simp only [access, htodo, hl]
      split_ifs
      · exact .of_harmless hlists hmsg (restart_harmless _) (by simp)
      · exact .of_harmless hlists hmsg (by simp [writes, SetupIo.plain, dataWrites]) (by simp)
    | ready =>
      have hs : s.access = s := by simp only [access, htodo, hl]
      rwa [hs]

theorem Tracked.of_same (h : s.Tracked) (htodo : t.todo = s.todo) (haddr : t.hpi.addr = s.hpi.addr)
    (hlists : t.lists = s.lists) (hmsg : t.msg = husbTDListDone → s.msg = husbTDListDone)
    (hlabel : t.label = s.label) (hv : t.usbCtlVal = s.usbCtlVal) : t.Tracked := by
  have hw : t.writes = s.writes := by rw [writes, writes, htodo, haddr]
  refine ⟨by rw [hw]; exact h.harmless, by rw [hlists, htodo]; exact h.reset, ?_, ?_⟩
  · rw [hw]
    exact h.clears.imp_left fun hne hdone => hne (hmsg hdone)
  · rw [hlabel, htodo, hv]
    exact h.present

theorem tracked_step (h : s.Tracked) (e : SetupEvent) : (s.step e).Tracked := by
  cases e with
  | access => exact tracked_access h
  | finish =>
    simp only [step]
    split_ifs with hlists
    · -- the reset is still to come, and so is the write of 0
      have hall : s.todo = usbSoftReset ++ sie1Initial := h.reset.resolve_left (by omega)
      refine ⟨h.harmless, Or.inr hall, Or.inr ?_, h.present⟩
      simp only [writes, setMem, hall]
      exact restart_clears _
    · exact h
  | message m =>
    refine h.of_same rfl rfl rfl (fun hdone => absurd ?_ m.2) rfl rfl
    simpa only [step, setMem, msg, Function.update_self] using hdone
  | store a v =>
    refine h.of_same rfl rfl rfl (fun hdone => ?_) rfl rfl
    simpa only [step, setMem, msg, Function.update_of_ne a.2.symm] using hdone
  | lowerFlag => exact h.of_same rfl rfl rfl id rfl rfl
  | reply v => exact h.of_same rfl rfl rfl id rfl rfl
  | status b => exact h.of_same rfl rfl rfl id rfl rfl

end Setup

theorem enumerated_access {s : Enumeration} (h : Tracked s) (hl : s.access.label = .enumerated) :
    (s.access = s ∧ s.label = .enumerated) ∨ Clear s.access := by
  cases htodo : s.todo with
  | cons io rest =>
    rw [access_cons htodo] at hl
    have hend : s.label = .enumerated := (io_label s io).symm.trans hl
    simp only [Tracked, hend, htodo] at h
    cases h
  | nil =>
    cases hlabel : s.label with
    | enumerated => exact Or.inl ⟨by simp [Enumeration.access, htodo, hlabel], rfl⟩
    | testControl retried =>
      right
      simp only [Tracked, hlabel] at h
      simp only [Enumeration.access, htodo, hlabel] at hl ⊢
      split_ifs at hl ⊢
      unfold Enumeration.nextStep at hl ⊢
      cases hstep : s.step with
      | getReportDesc => exact h.2.of_msg rfl id
      | _ => simp [hstep, Enumeration.begin] at hl
    | testFlag | wait pc | retryMsg | retryFlag =>
      simp only [Enumeration.access, htodo, hlabel, apply_ite Enumeration.label] at hl
      split_ifs at hl
    | dataSize | hotPlug => simp [Enumeration.access, Enumeration.begin, htodo, hlabel] at hl

/-- In order, the enumeration ends with no list in progress and no completion unread. -/
theorem enumerated_clear {s : Enumeration} (h : Tracked s) (hclear : s.label = .enumerated → Clear s) (e : EnumEvent)
    (hl : (enumStep s e).label = .enumerated) : Clear (enumStep s e) := by
  by_cases he : e = .access
  · subst he
    obtain ⟨hs, hend⟩ | hc := enumerated_access h hl
    · rw [enumStep, hs]
      exact hclear hend
    · exact hc
  · obtain ⟨hlabel, -⟩ := environment_rest s he
    exact clear_environment (hclear (hlabel.symm.trans hl)) he

def lastTd : BitVec 16 := 0x0520

/-- In step 9 the word at which reports will be found is written, or has been. -/
structure Planted (s : Enumeration) : Prop where
  last : s.label = .enumerated → s.step = .getReportDesc
  writes : s.step = .getReportDesc → ∀ w ∈ dataWrites s.hpi.addr s.todo, w.1 = reportWord → w.2 = lastTd
  loaded : s.step = .getReportDesc →
    s.hpi.mem reportWord = lastTd ∨ (reportWord, lastTd) ∈ dataWrites s.hpi.addr s.todo

theorem usbGetReportDesc_plants (a : BitVec 16) :
    (∀ w ∈ dataWrites a usbGetReportDesc, w.1 = reportWord → w.2 = lastTd) ∧
      (reportWord, lastTd) ∈ dataWrites a usbGetReportDesc := by
  have hstart : dataWrites a usbGetReportDesc = dataWrites 0 usbGetReportDesc := rfl
  rw [hstart, ← List.all_iff_forall_prop]
  decide

theorem Planted.of_submission {s : Enumeration} (htodo : s.todo = s.step.submission) (hl : s.label ≠ .enumerated) :
    Planted s := by
  have hplants := usbGetReportDesc_plants s.hpi.addr
  refine ⟨fun hend => absurd hend hl, fun hstep => ?_, fun hstep => Or.inr ?_⟩
  · rw [htodo, hstep]
    exact hplants.1
  · rw [htodo, hstep]
    exact hplants.2

theorem Planted.of_same {s t : Enumeration} (h : Planted s) (htodo : s.todo = []) (hstep : t.step = s.step)
    (hmem : t.hpi.mem reportWord = s.hpi.mem reportWord)
    (hw : ∀ w ∈ dataWrites t.hpi.addr t.todo, w.1 ≠ reportWord)
    (hl : t.label = .enumerated → s.step = .getReportDesc) : Planted t := by
  refine ⟨fun hend => hstep.trans (hl hend), fun _ w hmem' haddr => absurd haddr (hw w hmem'), fun ht => Or.inl ?_⟩
  rw [hmem]
  refine (h.loaded (hstep.symm.trans ht)).resolve_right fun hno => ?_
  rw [htodo] at hno
  cases hno

theorem planted_io {s : Enumeration} (h : Planted s) {io : Io} {rest : List Io} (htodo : s.todo = io :: rest) :
    Planted s.access := by
  have hwrites := h.writes
  have hloaded := h.loaded
  rw [htodo] at hwrites hloaded
  rw [access_cons htodo]
  cases io with
  | addr v | read | status => exact ⟨h.last, hwrites, hloaded⟩
  | write v =>
    refine ⟨h.last, fun hstep w hw => hwrites hstep w (List.mem_cons_of_mem _ hw), fun hstep => ?_⟩
    have hmem : (s.hpi.writeData v).mem reportWord = if reportWord = s.hpi.addr then v else s.hpi.mem reportWord :=
      Function.update_apply s.hpi.mem s.hpi.addr v reportWord
    by_cases haddr : reportWord = s.hpi.addr
    · refine Or.inl (hmem.trans ?_)
      rw [if_pos haddr]
      exact hwrites hstep (s.hpi.addr, v) (List.mem_cons_self ..) haddr.symm
    · refine (hloaded hstep).imp (fun hdone => (hmem.trans (if_neg haddr)).trans hdone) fun hto => ?_
      exact (List.mem_cons.1 hto).resolve_left fun heq => haddr (congrArg Prod.fst heq)

theorem planted_wait {s : Enumeration} {pc : WaitPc} (h : Planted s) (ht : Tracked s) (htodo : s.todo = [])
    (hl : s.label = .wait pc) : Planted s.access := by
  simp only [Tracked, hl] at ht
  obtain ⟨-, -, haddr, -⟩ := ht
  have hmem : (⟨s.hpi, pc, s.usbCtlVal⟩ : Wait).access.hpi.mem reportWord = s.hpi.mem reportWord := by
    cases pc with
    | readAddr | readData | writeAddr | returned => rfl
    | writeData =>
      have hne : reportWord ≠ s.hpi.addr := by
        rw [haddr (Or.inr rfl)]
        decide
      exact Function.update_of_ne hne 0 s.hpi.mem
  simp only [Enumeration.access, htodo, hl]
  split_ifs
  · exact h.of_same htodo rfl hmem (by simp [dataWrites]) (by simp)
  · exact h.of_same htodo rfl hmem (by simp [dataWrites]) (by simp)

theorem planted_nextStep {s : Enumeration} (h : Planted s) (htodo : s.todo = []) : Planted s.nextStep := by
  unfold Enumeration.nextStep
  cases hstep : s.step with
  | getReportDesc => exact h.of_same htodo hstep.symm rfl (by simp [htodo, dataWrites]) fun _ => hstep
  | getConfigDesc2 =>
    have hw : dataWrites s.hpi.addr deviceInfo = dataWrites 0 deviceInfo := rfl
    refine h.of_same htodo hstep.symm rfl ?_ (by simp)
    rw [hw, ← List.all_iff_forall_prop]
    decide
  | _ => exact .of_submission rfl (by simp [Enumeration.begin])

theorem planted_access {s : Enumeration} (h : Planted s) (ht : Tracked s) : Planted s.access := by
  cases htodo : s.todo with
  | cons io rest => exact planted_io h htodo
  | nil =>
    cases hl : s.label with
    | wait pc => exact planted_wait h ht htodo hl
    | testFlag =>
      simp only [Enumeration.access, htodo, hl]
      split_ifs
      · exact h.of_same htodo rfl rfl (by simp [dataWrites]) (by simp)
      · exact .of_submission rfl (by simp)
    | testControl retried =>
      simp only [Enumeration.access, htodo, hl]
      split_ifs
      · exact h.of_same htodo rfl rfl (by simp [dataWrites]) (by simp)
      · exact h.of_same htodo rfl rfl (by simp [dataWrites]) (by simp)
      · refine planted_nextStep (h.of_same htodo rfl rfl ?_ (by simp)) rfl
        simp [dataWrites]
    | retryMsg =>
      simp only [Enumeration.access, htodo, hl]
      split_ifs
      · exact h.of_same htodo rfl rfl (by simp [usbWrite, dataWrites, hpiSie1MsgAdr, reportWord]) (by simp)
      · exact h.of_same htodo rfl rfl (by simp [dataWrites]) (by simp)
    | retryFlag =>
      simp only [Enumeration.access, htodo, hl]
      split_ifs
      · exact h.of_same htodo rfl rfl (by simp [dataWrites]) (by simp)
      · exact h
    | dataSize =>
      simp only [Enumeration.access, htodo, hl]
      exact .of_submission rfl (by simp [Enumeration.begin])
    | hotPlug | enumerated =>
      simp only [Enumeration.access, htodo, hl]
      exact h

theorem planted_step {s : Enumeration} (h : Planted s) (ht : Tracked s) {e : EnumEvent} (hspares : Spares e) :
    Planted (enumStep s e) := by
  have hmsg : reportWord ≠ hpiSie1MsgAdr := by decide
  cases e with
  | access => exact planted_access h ht
  | lowerFlag => exact ⟨h.last, h.writes, h.loaded⟩
  | finish n =>
    simp only [enumStep]
    split
    · refine ⟨h.last, h.writes, fun hstep => (h.loaded hstep).imp_left fun hmem => ?_⟩
      exact (Function.update_of_ne hmsg husbTDListDone s.hpi.mem).trans hmem
    · exact h
  | message m =>
    refine ⟨h.last, h.writes, fun hstep => (h.loaded hstep).imp_left fun hmem => ?_⟩
    exact (Function.update_of_ne hmsg m.1 s.hpi.mem).trans hmem
  | store a v =>
    refine ⟨h.last, h.writes, fun hstep => (h.loaded hstep).imp_left fun hmem => ?_⟩
    exact (Function.update_of_ne (Ne.symm hspares) v s.hpi.mem).trans hmem

/-- The key is that of a report, or none. -/
def Known (key : BitVec 16) (arrived : List (BitVec 16)) : Prop :=
  keycodeReader key = {} ∨ ∃ v ∈ arrived, keycodeReader key = keycodeReader v

theorem Known.mono {key : BitVec 16} {arrived arrived' : List (BitVec 16)} (h : Known key arrived)
    (hsub : arrived ⊆ arrived') : Known key arrived' :=
  h.imp_right fun hreport => hreport.imp fun _ hv => ⟨hsub hv.1, hv.2⟩

theorem keycodeReader_low (v : BitVec 16) : keycodeReader (v &&& 0xff) = keycodeReader v := by
  have hlow : (v &&& 0xff).extractLsb' 0 8 = v.extractLsb' 0 8 := by
    rw [BitVec.extractLsb'_and]
    exact BitVec.and_allOnes
  unfold keycodeReader
  rw [hlow]

/-- What a loop shows is known if what was there before is: no key has the last byte of a
transfer descriptor for its code. -/
theorem Polling.Honest.known_key {s : Polling} {key : BitVec 16} {earlier : List (BitVec 16)}
    (h : s.Honest lastTd key) (hkey : Known key earlier) : Known s.keycode (earlier ++ s.arrived) := by
  rw [h.keycode]
  cases hlast : s.shown.getLast? with
  | none => exact hkey.mono (List.subset_append_left _ _)
  | some v =>
    rw [Option.map_some, Option.getD_some, Known, keycodeReader_low]
    obtain rfl | hmem := h.known v (List.mem_of_getLast? hlast)
    · exact Or.inl rfl
    · exact Or.inr ⟨v, List.mem_append_right earlier hmem, rfl⟩

namespace Stage

/-- What each stage can rely on, if the enumeration is in order. -/
def Sound : Stage → Prop
  | .setup s v => s.Tracked ∧ Known v.keycode v.arrived
  | .enumeration s v =>
    Tracked s ∧ (s.label = .enumerated → Clear s) ∧ Planted s ∧ Known v.keycode v.arrived
  | .loop s earlier => ∃ key, s.Honest lastTd key ∧ Known key earlier

def Exact : Stage → Prop
  | .loop s _ => s.Tracked ∧ s.Alternates
  | _ => True

theorem Sound.known {st : Stage} (h : st.Sound) : Known st.keycode st.arrived := by
  cases st with
  | setup s v => exact h.2
  | enumeration s v => exact h.2.2.2
  | loop s earlier =>
    obtain ⟨key, hhonest, hkey⟩ := h
    exact hhonest.known_key hkey

theorem sound_next {st : Stage} (h : st.Sound) : st.next.Sound := by
  cases st with
  | setup s v =>
    simp only [next]
    split_ifs with hready
    · exact ⟨step3_tracked _ _ _ _, (fun hl => nomatch hl), .of_submission rfl (by simp [step3]), h.2⟩
    · exact h
  | enumeration s v =>
    simp only [next]
    split_ifs with hplug hend
    · exact ⟨Setup.hotPlug_tracked _ _ _ _, h.2.2.2⟩
    · obtain ⟨htracked, -, hplanted, hkey⟩ := h
      have hhonest := Polling.first_honest s.hpi ⟨s.msg, hend.2.2⟩ s.sie1Msg v.toggle v.dataSize v.keycode
      have hword : s.hpi.mem reportWord = lastTd := by
        refine (hplanted.loaded (hplanted.last hend.1)).resolve_right fun hto => ?_
        simp only [Tracked, hend.1] at htracked
        rw [htracked] at hto
        cases hto
      rw [hword] at hhonest
      exact ⟨v.keycode, hhonest, hkey⟩
    · exact h
  | loop s earlier =>
    have hkey := h.known
    simp only [next]
    split_ifs
    · exact ⟨Setup.hotPlug_tracked _ _ _ _, hkey⟩
    · exact h

theorem sound_step {st : Stage} {e : StageEvent} (hc : st.Careful e) (h : st.Sound) : (st.step e).Sound := by
  cases e with
  | next => cases st <;> exact sound_next h
  | setup e =>
    cases st with
    | setup s v => exact ⟨Setup.tracked_step h.1 e, h.2⟩
    | enumeration s v | loop s earlier => exact h
  | enumeration e =>
    cases st with
    | enumeration s v =>
      obtain ⟨htracked, hclear, hplanted, hkey⟩ := h
      refine ⟨tracked_step htracked hc.1, enumerated_clear htracked hclear e, planted_step hplanted htracked hc.2, ?_⟩
      unfold Vars.after
      split_ifs <;> exact hkey
    | setup s v | loop s earlier => exact h
  | loop e =>
    cases st with
    | loop s earlier =>
      obtain ⟨key, hhonest, hkey⟩ := h
      exact ⟨key, Polling.honest_step hhonest e, hkey⟩
    | setup s v | enumeration s v => exact h

theorem exact_step {st : Stage} {e : StageEvent} (ho : st.Once e) (hs : st.Sound) (h : st.Exact) :
    (st.step e).Exact := by
  cases e with
  | next =>
    cases st with
    | setup s v =>
      simp only [step, next]
      split_ifs <;> trivial
    | enumeration s v =>
      simp only [step, next]
      split_ifs
      · trivial
      · exact ⟨Polling.first_tracked _ _ _ _ _ _, List.IsChain.nil, fun l hl => nomatch hl⟩
      · trivial
    | loop s earlier =>
      simp only [step, next]
      split_ifs
      · trivial
      · exact h
  | setup e => cases st <;> exact h
  | enumeration e => cases st <;> exact h
  | loop e =>
    cases st with
    | loop s earlier =>
      obtain ⟨key, hhonest, -⟩ := hs
      exact ⟨Polling.tracked_step h.1 hhonest.aimed ho, Polling.alternates_step h.2 hhonest.aimed ho⟩
    | setup s v | enumeration s v => exact h

/-- What a step must not do to a list in progress, or to a completion. -/
def Safe : Stage → StageEvent → Prop
  | .enumeration s _, .enumeration e => Tetris.Safe s e
  | _, _ => True

/-- A stage that is over is followed by the next, with the memory as it is; and the loop
shows each completed report once. -/
def Connected : Stage → Prop
  | .setup s v => s.label = .ready → s.usbCtlVal &&& noDevice ≠ 0 ∧
      ∃ m : OtherMsg, m.1 = s.msg ∧ next (.setup s v) = .enumeration (step3 s.hpi m s.sie1Msg s.usbCtlVal) v
  | .enumeration s v => s.label = .enumerated → ∃ m : OtherMsg, m.1 = s.msg ∧
      next (.enumeration s v) = .loop (.first s.hpi m s.sie1Msg v.toggle v.dataSize v.keycode) v.arrived
  | .loop s _ => s.shown <+: s.completed ∧ s.completed.length ≤ s.shown.length + 1 ∧
      s.submitted.IsChain fun a b => b = a + 1

theorem Sound.connected {st : Stage} (h : st.Sound) (hexact : st.Exact) : st.Connected := by
  cases st with
  | setup s v =>
    intro hl
    obtain ⟨htodo, hpresent⟩ := h.1.present hl
    obtain ⟨hlists, hmsg⟩ := h.1.nothing_left htodo
    exact ⟨hpresent, ⟨s.msg, hmsg⟩, rfl, dif_pos ⟨htodo, hl, hlists, hmsg⟩⟩
  | enumeration s v =>
    intro hl
    obtain ⟨hlists, hmsg⟩ := h.2.1 hl
    have hplug : s.label ≠ .hotPlug := by simp [hl]
    refine ⟨⟨s.msg, hmsg⟩, rfl, ?_⟩
    rw [next, if_neg hplug, dif_pos ⟨hl, hlists, hmsg⟩]
  | loop s earlier => exact ⟨hexact.1.in_order.1, hexact.1.in_order.2, hexact.2.chain⟩

end Stage

def promptSetup : List SetupEvent :=
  List.replicate (usbSoftReset ++ sie1Initial).length .access ++ [.status true, .access, .reply commAck, .access] ++
    List.replicate husbReset.length .access ++ [.access, .store ⟨ctlReg, by decide⟩ 0x1000, .access, .access]

/-- Setup and enumeration without a retry. -/
def promptStart : List StageEvent :=
  promptSetup.map .setup ++ [.next] ++ promptRun.map .enumeration ++ [.next]

def blankStart : Stage := mainStart ⟨0, fun _ => 0⟩ false 0 0 8

def Stage.Ready (st : Stage) : Prop := ∃ s earlier, st = .loop s earlier ∧ s.Ready

instance (st : Stage) : Decidable st.Ready :=
  match st with
  | .loop s earlier =>
    decidable_of_iff s.Ready
      ⟨fun h => ⟨s, earlier, rfl, h⟩, fun ⟨_, _, hs, h⟩ => (Stage.loop.inj hs).1 ▸ h⟩
  | .setup _ _ | .enumeration _ _ => .isFalse fun ⟨_, _, hs, _⟩ => nomatch hs

section Main
variable (hpi : Hpi) (sie1Msg : Bool) (lists : Nat) (usbCtlVal : BitVec 16) (dataSize : BitVec 8)

theorem mainStart_sound : (mainStart hpi sie1Msg lists usbCtlVal dataSize).Sound :=
  ⟨Setup.hotPlug_tracked hpi sie1Msg lists usbCtlVal, Or.inl rfl⟩

/-- Whatever lists are in progress when `main` begins, and through any number of hot plugs:
while lists are submitted again in order only, each stage leaves nothing to the next, no
list of the enumeration is overwritten, and the loop shows each completed report once. -/
theorem stages_connect {es : List StageEvent}
    (hall : Throughout Stage.step (fun st e => st.Careful e ∧ st.Once e)
      (mainStart hpi sie1Msg lists usbCtlVal dataSize) es) :
    let st := mainStart hpi sie1Msg lists usbCtlVal dataSize
    Throughout Stage.step Stage.Safe st es ∧ (run Stage.step st es).Connected := by
  intro st
  have hstart : st.Sound ∧ st.Exact := ⟨mainStart_sound hpi sie1Msg lists usbCtlVal dataSize, trivial⟩
  have hstep (st : Stage) (e : StageEvent) (ho : st.Careful e ∧ st.Once e) (h : st.Sound ∧ st.Exact) :
      (st.step e).Sound ∧ (st.step e).Exact :=
    ⟨Stage.sound_step ho.1 h.1, Stage.exact_step ho.2 h.1 h.2⟩
  constructor
  · refine hall.of_invariant Stage.step (I := fun st => st.Sound ∧ st.Exact) hstep ?_ hstart
    intro st e ho h
    cases st with
    | enumeration s v =>
      cases e with
      | enumeration e => exact safe_of_tracked h.1.1 ho.1.1
      | setup e | loop e | next => trivial
    | setup s v | loop s earlier => trivial
  · have hend := run_induction Stage.step (I := fun st => st.Sound ∧ st.Exact) hstep hstart es hall
    exact hend.1.connected hend.2

end Main

theorem stages_connect_promptStart :
    let es := promptStart ++ (Polling.promptRound 0x0004).map .loop
    Throughout Stage.step Stage.Safe blankStart es ∧ (run Stage.step blankStart es).Connected :=
  stages_connect _ _ _ _ _ (by decide +kernel)

theorem promptStart_ready : (run Stage.step blankStart promptStart).Ready := by
  decide +kernel

end Tetris
