import Tetris.Enumeration
import Mathlib.Data.List.ReduceOption

/-! The host port at its pins: the stores and loads of `IO_write` and `IO_read` pass
through PIO registers and through those of `hpi_io_intf`, each a clock late, and the
USB controller sees the strobes that come out. -/
namespace Tetris
open Machine

/-- The lines of the host port, as the PIO registers have them or, one clock later, the
registers of `hpi_io_intf`. The strobes are active low. -/
structure Lines where
  address : BitVec 2
  data : BitVec 16
  r : Bool
  w : Bool
  cs : Bool
  deriving DecidableEq

inductive Access where
  | address (v : BitVec 32)
  | data (v : BitVec 32)
  | r (v : BitVec 32)
  | w (v : BitVec 32)
  | cs (v : BitVec 32)
  | load
  deriving DecidableEq

def Lines.store (l : Lines) : Access → Lines
  | .address v => { l with address := v.setWidth 2 }
  | .data v => { l with data := v.setWidth 16 }
  | .r v => { l with r := v.getLsbD 0 }
  | .w v => { l with w := v.getLsbD 0 }
  | .cs v => { l with cs := v.getLsbD 0 }
  | .load => l

def Access.isStore : Access → Bool
  | .load => false
  | _ => true

def ioInit : List Access := [.cs 1, .r 1, .w 1, .address 0, .data 0]

def ioWrite (address : BitVec 8) (data : BitVec 16) : List Access :=
  [.address (address.setWidth 32), .cs 0, .data (data.setWidth 32), .w 0, .w 1, .cs 1]

def ioRead (address : BitVec 8) : List Access :=
  [.address (address.setWidth 32), .cs 0, .r 0, .load, .r 1, .cs 1]

/-- What a device does with the accesses it sees: a write strobe that ends writes the
data lines, and a read strobe makes it drive them until it ends. -/
structure Device (δ : Type*) where
  write : δ → BitVec 2 → BitVec 16 → δ
  read : δ → BitVec 2 → BitVec 16
  readDone : δ → BitVec 2 → δ
  floating : BitVec 16

/-- The controller, whose mailbox and status are left open. -/
def hpiDevice (mailbox status floating : BitVec 16) : Device Hpi where
  write d a v :=
    match a with
    | 0 => d.writeData v
    | 2 => d.writeAddr v
    | _ => d
  read d a :=
    match a with
    | 0 => d.readData.1
    | 1 => mailbox
    | 2 => d.addr
    | 3 => status
  readDone d a :=
    match a with
    | 0 => d.readData.2
    | _ => d
  floating := floating

def blankHpi : Hpi := ⟨0, fun _ => 0⟩

def Lines.Writes (l : Lines) : Prop := l.cs = false ∧ l.w = false
def Lines.Reads (l : Lines) : Prop := l.cs = false ∧ l.r = false

instance (l : Lines) : Decidable l.Writes := inferInstanceAs (Decidable (_ ∧ _))
instance (l : Lines) : Decidable l.Reads := inferInstanceAs (Decidable (_ ∧ _))

section Device
variable {δ : Type*} (c : Device δ)

/-- `OTG_DATA`, which `hpi_io_intf` drives while `OTG_WR_N` is low. -/
def otgData (d : δ) (l : Lines) : BitVec 16 :=
  if l.w = false then l.data else if l.Reads then c.read d l.address else c.floating

def strobe (l l' : Lines) (d : δ) : δ :=
  let d := if l.Writes ∧ ¬ l'.Writes then c.write d l.address l.data else d
  if l.Reads ∧ ¬ l'.Reads then c.readDone d l.address else d

/-- Everything from the processor to the device. `calm` counts the clock edges since the
last store, and `loaded` is what loads have returned; neither is a register. -/
structure Bus (δ : Type*) where
  pio : Lines
  otg : Lines
  fromSwDataIn : BitVec 16
  device : δ
  loaded : List (BitVec 16)
  calm : Nat

def Bus.clock (s : Bus δ) (access : Option Access) : Bus δ where
  pio := access.elim s.pio s.pio.store
  otg := s.pio
  fromSwDataIn := otgData c s.device s.otg
  device := strobe c s.otg s.pio s.device
  loaded := if access = some .load then s.loaded ++ [s.fromSwDataIn] else s.loaded
  calm := if access.any Access.isStore then 0 else s.calm + 1

/-- The processor takes its time before a load: two edges after the last store. -/
def Patient (s : Bus δ) (access : Option Access) : Prop := access = some .load → 2 ≤ s.calm

instance (s : Bus δ) (access : Option Access) : Decidable (Patient s access) :=
  inferInstanceAs (Decidable (_ → _))

/-- Out of reset: the PIO registers are cleared, and those of `hpi_io_intf` are not. -/
def busReset (d : δ) : Bus δ where
  pio := ⟨0, 0, false, false, false⟩
  otg := ⟨0, 0, true, true, true⟩
  fromSwDataIn := 0
  device := d
  loaded := []
  calm := 0

/-- What the software sees: lines that change at once, without the clock. -/
structure Port (δ : Type*) where
  lines : Lines
  device : δ
  loaded : List (BitVec 16)

def Port.perform (s : Port δ) (a : Access) : Port δ where
  lines := s.lines.store a
  device := strobe c s.lines (s.lines.store a) s.device
  loaded := if a = .load then s.loaded ++ [otgData c s.device s.lines] else s.loaded

def Bus.port (s : Bus δ) : Port δ := ⟨s.pio, strobe c s.otg s.pio s.device, s.loaded⟩

structure Bus.Still (s : Bus δ) : Prop where
  pins : 1 ≤ s.calm → s.otg = s.pio
  data : 2 ≤ s.calm → s.fromSwDataIn = otgData c s.device s.pio

@[simp] theorem strobe_self (l : Lines) (d : δ) : strobe c l l d = d := by
  simp [strobe]

theorem still_step {s : Bus δ} (h : s.Still c) (access : Option Access) : (s.clock c access).Still c := by
  by_cases hstore : access.any Access.isStore = true
  · have hcalm : (s.clock c access).calm = 0 := if_pos hstore
    exact ⟨fun h1 => by omega, fun h2 => by omega⟩
  · have hcalm : (s.clock c access).calm = s.calm + 1 := if_neg hstore
    have hpio : (s.clock c access).pio = s.pio := by
      match access with
      | none => rfl
      | some .load => rfl
      | some (.address _) | some (.data _) | some (.r _) | some (.w _) | some (.cs _) =>
        exact absurd rfl hstore
    refine ⟨fun _ => hpio.symm, fun h2 => ?_⟩
    have hpins := h.pins (by omega)
    rw [hpio]
    change otgData c s.device s.otg = otgData c (strobe c s.otg s.pio s.device) s.pio
    rw [hpins, strobe_self]

/-- Clock by clock, the bus does what the software does, and stays where it is meanwhile. -/
theorem bus_simulates : Simulates (Bus.clock c) (Port.perform c) (fun _ access => access) (Bus.port c)
    Patient (Bus.Still c) := by
  intro s access hpatient h
  refine ⟨still_step c h access, ?_⟩
  match access with
  | none =>
    change (⟨s.pio, strobe c s.pio s.pio _, s.loaded⟩ : Port δ) = s.port c
    rw [strobe_self]
    rfl
  | some .load =>
    have hcalm := hpatient rfl
    have hsame : strobe c s.otg s.pio s.device = s.device := by rw [h.pins (by omega), strobe_self]
    change (⟨s.pio, strobe c s.pio s.pio (strobe c s.otg s.pio s.device), s.loaded ++ [s.fromSwDataIn]⟩ : Port δ) =
      ⟨s.pio, strobe c s.pio s.pio (strobe c s.otg s.pio s.device),
        s.loaded ++ [otgData c (strobe c s.otg s.pio s.device) s.pio]⟩
    rw [hsame, h.data hcalm]
  | some (.address _) | some (.data _) | some (.r _) | some (.w _) | some (.cs _) => rfl

inductive Call where
  | write (address : BitVec 8) (data : BitVec 16)
  | read (address : BitVec 8)
  deriving DecidableEq

def Call.accesses : Call → List Access
  | .write address data => ioWrite address data
  | .read address => ioRead address

/-- What a call is for: one access of the device, and what a read returns. -/
def Device.call (s : δ × List (BitVec 16)) : Call → δ × List (BitVec 16)
  | .write address data => (c.write s.1 (address.setWidth 2) data, s.2)
  | .read address => (c.readDone s.1 (address.setWidth 2), s.2 ++ [c.read s.1 (address.setWidth 2)])

def Lines.Idle (l : Lines) : Prop := l.r = true ∧ l.w = true ∧ l.cs = true

theorem perform_call {s : Port δ} (h : s.lines.Idle) (k : Call) :
    let t := run (Port.perform c) s k.accesses
    t.lines.Idle ∧ (t.device, t.loaded) = c.call (s.device, s.loaded) k := by
  obtain ⟨⟨address, data, r, w, cs⟩, d, out⟩ := s
  obtain ⟨rfl, rfl, rfl⟩ := h
  cases k with
  | write a v =>
    simp [Call.accesses, ioWrite, Port.perform, Lines.store, strobe, Lines.Writes, Lines.Reads, Device.call,
      Lines.Idle]
  | read a =>
    simp [Call.accesses, ioRead, Port.perform, Lines.store, strobe, Lines.Writes, Lines.Reads, Device.call,
      Lines.Idle, otgData]

theorem perform_calls {s : Port δ} (h : s.lines.Idle) (ks : List Call) :
    let t := run (Port.perform c) s (ks.flatMap Call.accesses)
    t.lines.Idle ∧ (t.device, t.loaded) = ks.foldl c.call (s.device, s.loaded) := by
  induction ks generalizing s with
  | nil => exact ⟨h, rfl⟩
  | cons k ks ih =>
    obtain ⟨hidle, hcall⟩ := perform_call c h k
    rw [List.flatMap_cons, run_append, List.foldl_cons, ← hcall]
    exact ih hidle

/-- No strobe meets another one, and the lines that one needs stand still as it begins,
while it lasts and as it ends. -/
structure Clean (l l' : Lines) : Prop where
  single : ¬ (l'.Writes ∧ l'.Reads)
  address : l.Writes ∨ l'.Writes ∨ l.Reads ∨ l'.Reads → l.address = l'.address
  data : l.Writes ∨ l'.Writes → l.data = l'.data

theorem Clean.refl {l l' : Lines} (h : Clean l l') : Clean l' l' := ⟨h.single, fun _ => rfl, fun _ => rfl⟩

theorem call_clean {s : Port δ} (h : s.lines.Idle) (k : Call) :
    Throughout (Port.perform c) (fun s a => Clean s.lines (s.lines.store a)) s k.accesses := by
  obtain ⟨⟨address, data, r, w, cs⟩, d, out⟩ := s
  obtain ⟨rfl, rfl, rfl⟩ := h
  cases k <;>
  · refine ⟨⟨?_, ?_, ?_⟩, ⟨?_, ?_, ?_⟩, ⟨?_, ?_, ?_⟩, ⟨?_, ?_, ?_⟩, ⟨?_, ?_, ?_⟩, ⟨?_, ?_, ?_⟩, trivial⟩ <;>
      simp [Port.perform, Lines.store, Lines.Writes, Lines.Reads]

theorem calls_clean {s : Port δ} (h : s.lines.Idle) (ks : List Call) :
    Throughout (Port.perform c) (fun s a => Clean s.lines (s.lines.store a)) s
      (ks.flatMap Call.accesses) := by
  induction ks generalizing s with
  | nil => trivial
  | cons k ks ih =>
    rw [List.flatMap_cons, throughout_append]
    exact ⟨call_clean c h k, ih (perform_call c h k).1⟩

theorem trace_accesses (s : Bus δ) (is : List (Option Access)) :
    trace (Bus.clock c) (fun _ access => access) s is = is.reduceOption := by
  induction is generalizing s with
  | nil => rfl
  | cons i is ih =>
    rw [trace, ih]
    cases i <;> rfl

theorem bus_run {s : Bus δ} (h : s.Still c) {is : List (Option Access)}
    (hp : Throughout (Bus.clock c) Patient s is) :
    (run (Bus.clock c) s is).port c = run (Port.perform c) (s.port c) is.reduceOption := by
  rw [← trace_accesses c s]
  exact (bus_simulates c).run h is hp

/-- The lines and the device do not depend on when loads are made. -/
theorem bus_settles {s : Bus δ} {t : Port δ} (hlines : t.lines = s.pio)
    (hdevice : t.device = strobe c s.otg s.pio s.device) (is : List (Option Access)) :
    let s' := run (Bus.clock c) s is
    (run (Port.perform c) t is.reduceOption).device = strobe c s'.otg s'.pio s'.device := by
  induction is generalizing s t with
  | nil => exact hdevice
  | cons access is ih =>
    have hsettled : strobe c s.pio s.pio (s.clock c access).device = t.device := by
      rw [strobe_self]
      exact hdevice.symm
    cases access with
    | none =>
      rw [List.reduceOption_cons_of_none, run_cons]
      exact ih hlines hsettled.symm
    | some a =>
      rw [List.reduceOption_cons_of_some, run_cons, run_cons]
      refine ih (congrArg (Lines.store · a) hlines) ?_
      change strobe c t.lines (t.lines.store a) t.device = strobe c s.pio (s.pio.store a) _
      rw [hlines, hdevice]
      rfl

theorem port_of_calm {s : Bus δ} (h : s.Still c) (hcalm : 1 ≤ s.calm) : s.port c = ⟨s.pio, s.device, s.loaded⟩ := by
  unfold Bus.port
  rw [h.pins hcalm, strobe_self]

def CleanAccess (l : Lines) (access : Option Access) : Prop := ∀ a, access = some a → Clean l (l.store a)

theorem clean_at_pins {s : Bus δ} {js : List (Option Access)}
    (h : Throughout (Bus.clock c) (fun s access => CleanAccess s.pio access) s js)
    (hne : js.reduceOption ≠ []) :
    Clean (run (Bus.clock c) s js).otg (run (Bus.clock c) s js).pio := by
  induction js using List.reverseRecOn with
  | nil => exact absurd rfl hne
  | append_singleton js i ih =>
    obtain ⟨hjs, hi, -⟩ := (throughout_append _ _ s js [i]).1 h
    rw [run_append, run_cons, run_nil]
    cases i with
    | some a => exact hi a rfl
    | none =>
      have hbefore : js.reduceOption ≠ [] := by
        rwa [List.reduceOption_append, List.reduceOption_cons_of_none, List.reduceOption_nil,
          List.append_nil] at hne
      exact (ih hjs hbefore).refl

theorem accesses_clean {s : Bus δ} (h : s.Still c) {is : List (Option Access)}
    (hp : Throughout (Bus.clock c) Patient s is)
    (hclean : Throughout (Port.perform c) (fun s a => Clean s.lines (s.lines.store a)) (s.port c)
      is.reduceOption) :
    Throughout (Bus.clock c) (fun s access => CleanAccess s.pio access) s is := by
  rw [← trace_accesses c s] at hclean
  exact (bus_simulates c).throughout_steps (fun _ _ _ hall => hall) h hp hclean

theorem perform_ioInit (d : δ) :
    run (Port.perform c) ((busReset d).port c) ioInit =
      ⟨⟨0, 0, true, true, true⟩, c.readDone (c.write d 0 0) 0, []⟩ := by
  simp [ioInit, busReset, Bus.port, Port.perform, Lines.store, strobe, Lines.Writes, Lines.Reads]

theorem ioInit_clean (d : δ) :
    Throughout (Port.perform c) (fun s a => Clean s.lines (s.lines.store a)) ((busReset d).port c)
      ioInit := by
  refine ⟨⟨?_, ?_, ?_⟩, ⟨?_, ?_, ?_⟩, ⟨?_, ?_, ?_⟩, ⟨?_, ?_, ?_⟩, ⟨?_, ?_, ?_⟩, trivial⟩ <;>
    simp [busReset, Bus.port, Port.perform, Lines.store, Lines.Writes, Lines.Reads]

theorem busReset_still (d : δ) : (busReset d).Still c := by
  constructor <;> simp [busReset]

def unhurried (as : List Access) : List (Option Access) := as.flatMap fun a => [some a, none, none]

/-- `UsbWrite(0x0500, 0x050C)`, and the word read back. -/
def writeAndRead : List Call := [.write 2 0x0500, .write 0 0x050C, .write 2 0x0500, .read 0]

section Calls
variable {ks : List Call} {is : List (Option Access)}

/-- However the clock runs on between the accesses of `IO_init` and of the calls after it,
the device makes the accesses of the calls, in their order, after the two of the
power-up; each read returns what the device drives; and no strobe is disturbed. -/
theorem calls_reach_device (d : δ) (hops : is.reduceOption = ioInit ++ ks.flatMap Call.accesses)
    (hp : Throughout (Bus.clock c) Patient (busReset d) is) :
    let t := run (Bus.clock c) (busReset d) is
    (1 ≤ t.calm → (t.device, t.loaded) = ks.foldl c.call (c.readDone (c.write d 0 0) 0, [])) ∧
      ∀ js, js <+: is → js.reduceOption ≠ [] →
        Clean (run (Bus.clock c) (busReset d) js).otg (run (Bus.clock c) (busReset d) js).pio := by
  intro t
  have hrun := bus_run c (busReset_still c d) hp
  rw [hops, run_append, perform_ioInit] at hrun
  constructor
  · intro hcalm
    have hstill : t.Still c :=
      invariant (Bus.clock c) (I := Bus.Still c) (fun _ a h => still_step c h a) (busReset_still c d) is
    have hport := port_of_calm c hstill hcalm
    have hcalls := (perform_calls c (s := ⟨⟨0, 0, true, true, true⟩, c.readDone (c.write d 0 0) 0, []⟩)
      ⟨rfl, rfl, rfl⟩ ks).2
    rw [← hrun, hport] at hcalls
    exact hcalls
  · rintro js ⟨rest, rfl⟩ hne
    have hclean : Throughout (Port.perform c) (fun s a => Clean s.lines (s.lines.store a))
        ((busReset d).port c) (js ++ rest).reduceOption := by
      rw [hops, throughout_append, perform_ioInit]
      exact ⟨ioInit_clean c d, calls_clean c ⟨rfl, rfl, rfl⟩ ks⟩
    have hall := accesses_clean c (busReset_still c d) hp hclean
    exact clean_at_pins c ((throughout_append _ _ _ js rest).1 hall).1 hne

end Calls

theorem writeAndRead_reaches_device :
    let c := hpiDevice 0 0 0
    let is := unhurried (ioInit ++ writeAndRead.flatMap Call.accesses)
    let t := run (Bus.clock c) (busReset blankHpi) is
    (t.device, t.loaded) = writeAndRead.foldl c.call (c.readDone (c.write blankHpi 0 0) 0, []) ∧
      ∀ js, js <+: is → js.reduceOption ≠ [] →
        Clean (run (Bus.clock c) (busReset blankHpi) js).otg (run (Bus.clock c) (busReset blankHpi) js).pio :=
  have hops : (unhurried (ioInit ++ writeAndRead.flatMap Call.accesses)).reduceOption =
      ioInit ++ writeAndRead.flatMap Call.accesses := rfl
  have hreach := calls_reach_device (hpiDevice 0 0 0) blankHpi hops (by decide)
  ⟨hreach.1 (by decide +kernel), hreach.2⟩

theorem clock_nones {s : Bus δ} (hpins : s.otg = s.pio) (n : Nat) :
    let t := run (Bus.clock c) s (List.replicate n none)
    t.pio = s.pio ∧ t.otg = s.pio ∧ t.device = s.device ∧ t.loaded = s.loaded ∧
      (1 ≤ n → t.fromSwDataIn = otgData c s.device s.pio) := by
  induction n generalizing s with
  | zero => exact ⟨rfl, hpins, rfl, rfl, fun h => by omega⟩
  | succ n ih =>
    have hdevice : (s.clock c none).device = s.device := by
      change strobe c s.otg s.pio s.device = _
      rw [hpins, strobe_self]
    have hdata : (s.clock c none).fromSwDataIn = otgData c s.device s.pio := by
      change otgData c s.device s.otg = _
      rw [hpins]
    obtain ⟨hpio, hotg, hdev, hloaded, hlast⟩ := ih (s := s.clock c none) rfl
    rw [List.replicate_succ, run_cons]
    refine ⟨hpio, hotg, hdev.trans hdevice, hloaded, fun _ => ?_⟩
    cases n with
    | zero => exact hdata
    | succ n =>
      refine (hlast (by omega)).trans ?_
      rw [hdevice]
      rfl

/-- A load gets what the device drives exactly if it comes two clocks or more after the
strobe is set; before that it gets what was on the lines without it. -/
theorem loaded_after_strobe {s : Bus δ} (hpins : s.otg = s.pio) (hselected : s.pio.cs = false)
    (hr : s.pio.r = true) (hw : s.pio.w = true) (n : Nat) :
    (run (Bus.clock c) s (some (.r 0) :: List.replicate n none ++ [some .load])).loaded =
      s.loaded ++ [if 2 ≤ n then c.read s.device s.pio.address else c.floating] := by
  have hfloating : otgData c s.device s.pio = c.floating := by
    simp [otgData, Lines.Reads, hr, hw]
  have hquiet (l : Lines) : strobe c s.pio l s.device = s.device := by
    simp [strobe, Lines.Writes, Lines.Reads, hr, hw]
  have hdevice : (s.clock c (some (.r 0))).device = s.device := by
    change strobe c s.otg s.pio s.device = _
    rw [hpins, strobe_self]
  have hload (t : Bus δ) : (t.clock c (some .load)).loaded = t.loaded ++ [t.fromSwDataIn] := rfl
  rw [List.cons_append, run_cons, run_append, run_cons, run_nil, hload]
  cases n with
  | zero =>
    change s.loaded ++ [otgData c s.device s.otg] = _
    rw [hpins, hfloating]
    rfl
  | succ n =>
    -- the pins follow with the first edge after the store
    have hfirst : ((s.clock c (some (.r 0))).clock c none).device = s.device := by
      change strobe c s.pio (s.pio.store (.r 0)) (s.clock c (some (.r 0))).device = _
      rw [hdevice]
      exact hquiet _
    obtain ⟨-, -, -, hloaded, hlast⟩ := clock_nones c (s := (s.clock c (some (.r 0))).clock c none) rfl n
    rw [List.replicate_succ, run_cons, hloaded]
    cases n with
    | zero =>
      change s.loaded ++ [otgData c (s.clock c (some (.r 0))).device s.pio] = _
      rw [hdevice, hfloating]
      rfl
    | succ n =>
      rw [hlast (by omega), hfirst]
      change s.loaded ++ [otgData c s.device (s.pio.store (.r 0))] = _
      have hreads : (s.pio.store (.r 0)).Reads := ⟨hselected, rfl⟩
      have hw' : (s.pio.store (.r 0)).w = true := hw
      rw [otgData, hw', if_neg (by decide), if_pos hreads, if_pos (by omega)]
      rfl

def selectedBus : Bus Hpi := ⟨⟨0, 0, true, true, false⟩, ⟨0, 0, true, true, false⟩, 0, blankHpi, [], 2⟩

theorem selectedBus_loaded :
    (run (Bus.clock (hpiDevice 0 0 0xFFFF)) selectedBus
        (some (.r 0) :: List.replicate 1 none ++ [some .load])).loaded =
      [] ++ [if 2 ≤ 1 then (hpiDevice 0 0 0xFFFF).read blankHpi 0 else 0xFFFF] :=
  loaded_after_strobe (hpiDevice 0 0 0xFFFF) (s := selectedBus) rfl rfl rfl rfl 1

end Device

def Io.call : Io → Call
  | .addr v => .write 2 v
  | .write v => .write 0 v
  | .read => .read 0
  | .status => .read 3

theorem io_call (mailbox status floating : BitVec 16) (s : Enumeration) (io : Io) (out : List (BitVec 16)) :
    ((hpiDevice mailbox status floating).call (s.hpi, out) io.call).1 = (s.io io).hpi := by
  cases io <;> rfl

theorem io_calls (mailbox status floating : BitVec 16) (e : Enumeration) (ios : List Io)
    (out : List (BitVec 16)) :
    ((ios.map Io.call).foldl (hpiDevice mailbox status floating).call (e.hpi, out)).1 =
      (ios.foldl Enumeration.io e).hpi := by
  induction ios generalizing e out with
  | nil => rfl
  | cons io ios ih =>
    have hfirst := io_call mailbox status floating e io out
    rw [List.map_cons, List.foldl_cons, List.foldl_cons]
    generalize hnext : (hpiDevice mailbox status floating).call (e.hpi, out) io.call = next at hfirst ⊢
    obtain ⟨hpi, out'⟩ := next
    obtain rfl : hpi = (e.io io).hpi := hfirst
    exact ih (e.io io) out'

/-- What the enumeration writes and reads through the port is done at the pins, whatever
the clock. -/
theorem enumeration_reaches_pins (mailbox status floating : BitVec 16) {s : Bus Hpi}
    (hstill : s.Still (hpiDevice mailbox status floating)) (hidle : s.pio.Idle) (hcalm : 1 ≤ s.calm)
    (e : Enumeration) (he : e.hpi = s.device) {ios : List Io} {is : List (Option Access)}
    (hops : is.reduceOption = (ios.map Io.call).flatMap Call.accesses) :
    let t := run (Bus.clock (hpiDevice mailbox status floating)) s is
    1 ≤ t.calm → t.device = (ios.foldl Enumeration.io e).hpi := by
  intro t ht
  have hafter : t.Still (hpiDevice mailbox status floating) :=
    invariant (Bus.clock _) (I := Bus.Still (hpiDevice mailbox status floating))
      (fun _ a h => still_step _ h a) hstill is
  have hdevice : s.device = strobe (hpiDevice mailbox status floating) s.otg s.pio s.device := by
    rw [hstill.pins hcalm, strobe_self]
  have hrun := bus_settles _ (t := ⟨s.pio, s.device, s.loaded⟩) rfl hdevice is
  rw [hops] at hrun
  have hcalls := (perform_calls (hpiDevice mailbox status floating) (s := ⟨s.pio, s.device, s.loaded⟩)
    hidle (ios.map Io.call)).2
  calc t.device
      = strobe (hpiDevice mailbox status floating) t.otg t.pio t.device := by
        rw [hafter.pins ht, strobe_self]
    _ = ((ios.map Io.call).foldl (hpiDevice mailbox status floating).call (s.device, s.loaded)).1 :=
        hrun.symm.trans (congrArg Prod.fst hcalls)
    _ = (ios.foldl Enumeration.io e).hpi := he ▸ io_calls mailbox status floating e ios s.loaded

def restingBus : Bus Hpi := ⟨⟨0, 0, true, true, true⟩, ⟨0, 0, true, true, true⟩, 0, powerUp.hpi, [], 1⟩

theorem usbWrite_reaches_pins :
    let ios := usbWrite 0x0500 0x050C ++ [.addr 0x0500, .read]
    let is := ((ios.map Io.call).flatMap Call.accesses).map some ++ [none]
    (run (Bus.clock (hpiDevice 0 0 0)) restingBus is).device = (ios.foldl Enumeration.io powerUp).hpi :=
  enumeration_reaches_pins 0 0 0 (s := restingBus) ⟨fun _ => rfl, fun h2 => absurd h2 (by decide)⟩
    ⟨rfl, rfl, rfl⟩ le_rfl powerUp rfl rfl (by decide +kernel)

end Tetris
