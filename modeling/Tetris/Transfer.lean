import Tetris.Usb

/-! The lists of transfer descriptors that the enumeration writes into the USB
controller's memory, as straight-line sequences of accesses to the host port. -/
namespace Tetris

def husbSie1PCurrentTDPtr : BitVec 16 := 0x01B0

inductive Io where
  | addr (v : BitVec 16)
  | write (v : BitVec 16)
  | read
  | status
  deriving DecidableEq

/-- The steps 3 to 9 of `main`, each named after the list that it submits. -/
inductive EnumStep where
  | setAddress | getDeviceDesc1 | getDeviceDesc2 | getConfigDesc1 | getConfigDesc2
  | setConfig | classRequest | getHidDesc | getReportDesc
  deriving DecidableEq

def usbWrite (address data : BitVec 16) : List Io := [.addr address, .write data]

def submit (words : List (BitVec 16)) : List Io :=
  .addr 0x0500 :: words.map .write ++ usbWrite husbSie1PCurrentTDPtr 0x0500

def usbSetAddress : List Io := submit [
  0x050C, 0x0008, 0x00D0, 0x0001, 0x0013, 0x0514,
  0x0500, 0x0002, 0x0000, 0x0000,
  0x0000, 0x0000, 0x0090, 0x0041, 0x0013, 0x0000]

def usbGetDeviceDesc1 : List Io := submit [
  0x050C, 0x0008, 0x02D0, 0x0001, 0x0013, 0x0514,
  0x0680, 0x0100, 0x0000, 0x0008,
  0x052C, 0x0008, 0x0290, 0x0041, 0x0013, 0x0520,
  0x0000, 0x0000, 0x0210, 0x0041, 0x0013, 0x0000]

def usbGetDeviceDesc2 : List Io := submit [
  0x050C, 0x0008, 0x02D0, 0x0001, 0x0013, 0x0514,
  0x0680, 0x0100, 0x0000, 0x0012,
  0x0544, 0x0008, 0x0290, 0x0041, 0x0013, 0x0520,
  0x054c, 0x0008, 0x0290, 0x0001, 0x0013, 0x052c,
  0x0554, 0x0002, 0x0290, 0x0041, 0x0013, 0x0538,
  0x0000, 0x0000, 0x0210, 0x0041, 0x0013, 0x0000]

def usbGetConfigDesc1 : List Io := submit [
  0x050C, 0x0008, 0x02D0, 0x0001, 0x0013, 0x0514,
  0x0680, 0x0200, 0x0000, 0x0009,
  0x0544, 0x0008, 0x0290, 0x0041, 0x0013, 0x0520,
  0x054c, 0x0001, 0x0290, 0x0001, 0x0013, 0x052c,
  0x0000, 0x0000, 0x0210, 0x0041, 0x0013, 0x0000]

def usbGetConfigDesc2 : List Io := submit [
  0x050C, 0x0008, 0x02D0, 0x0001, 0x0013, 0x0514,
  0x0680, 0x0200, 0x0000, 0x00FF,
  0x055c, 0x0008, 0x0290, 0x0041, 0x0013, 0x0520,
  0x0564, 0x0008, 0x0290, 0x0001, 0x0013, 0x052c,
  0x056c, 0x0008, 0x0290, 0x0041, 0x0013, 0x0538,
  0x0574, 0x0008, 0x0290, 0x0001, 0x0013, 0x0544,
  0x057c, 0x0002, 0x0290, 0x0041, 0x0013, 0x0550,
  0x0000, 0x0000, 0x0210, 0x0041, 0x0013, 0x0000]

def usbSetConfig : List Io := submit [
  0x050C, 0x0008, 0x02D0, 0x0001, 0x0013, 0x0514,
  0x0900, 0x0001, 0x0000, 0x0000,
  0x0000, 0x0000, 0x0290, 0x0041, 0x0013, 0x0000]

def usbClassRequest : List Io := submit [
  0x050C, 0x0008, 0x02D0, 0x0001, 0x0013, 0x0514,
  0x0A21, 0x0000, 0x0000, 0x0000,
  0x0000, 0x0000, 0x0290, 0x0041, 0x0013, 0x0000]

def usbGetHidDesc : List Io := submit [
  0x050C, 0x0008, 0x02D0, 0x0001, 0x0013, 0x0514,
  0x0681, 0x2100, 0x0000, 0x007B,
  0x0544, 0x0008, 0x0290, 0x0041, 0x0013, 0x0520,
  0x0000, 0x0000, 0x0210, 0x0041, 0x0013, 0x0000]

def usbGetReportDesc : List Io := submit [
  0x050C, 0x0008, 0x02D0, 0x0001, 0x0013, 0x0514,
  0x0681, 0x2200, 0x0000, 0x007B,
  0x0580, 0x0008, 0x0290, 0x0041, 0x0013, 0x0520,
  0x0588, 0x0008, 0x0290, 0x0001, 0x0013, 0x052c,
  0x0590, 0x0008, 0x0290, 0x0041, 0x0013, 0x0538,
  0x0598, 0x0008, 0x0290, 0x0001, 0x0013, 0x0544,
  0x05a0, 0x0008, 0x0290, 0x0041, 0x0013, 0x0550,
  0x05a8, 0x0008, 0x0290, 0x0001, 0x0013, 0x055c,
  0x05b0, 0x0008, 0x0290, 0x0041, 0x0013, 0x0568,
  0x05b8, 0x0003, 0x0290, 0x0001, 0x0013, 0x0574,
  0x0000, 0x0000, 0x0210, 0x0041, 0x0013, 0x0000]

def EnumStep.submission : EnumStep → List Io
  | .setAddress => usbSetAddress
  | .getDeviceDesc1 => usbGetDeviceDesc1
  | .getDeviceDesc2 => usbGetDeviceDesc2
  | .getConfigDesc1 => usbGetConfigDesc1
  | .getConfigDesc2 => usbGetConfigDesc2
  | .setConfig => usbSetConfig
  | .classRequest => usbClassRequest
  | .getHidDesc => usbGetHidDesc
  | .getReportDesc => usbGetReportDesc

/-- "get device info", which submits a list of its own and does not wait for it; the
last read is that of `data_size`. -/
def deviceInfo : List Io :=
  [.addr 0x056c, .read, .addr 0x0576, .write 0x073F, .write 0x8105, .write 0x0003, .write 0x0008,
    .write 0xAC0A] ++ usbWrite husbSie1PCurrentTDPtr 0x0576 ++ [.addr 0x057c]

def dataWrites : BitVec 16 → List Io → List (BitVec 16 × BitVec 16)
  | _, [] => []
  | _, .addr v :: ios => dataWrites v ios
  | a, .write v :: ios => (a, v) :: dataWrites (a + 2) ios
  | a, .read :: ios => dataWrites (a + 2) ios
  | a, .status :: ios => dataWrites a ios

/-- Some words from `0x0500` on, below `limit`, and last the pointer to `start`. -/
def Loads (limit start : BitVec 16) (a : BitVec 16) (ios : List Io) : Prop :=
  ∃ words, dataWrites a ios = words ++ [(husbSie1PCurrentTDPtr, start)] ∧
    ∀ w ∈ words, 0x0500 ≤ w.1 ∧ w.1 < limit

/-- The words of all lists lie below `0x0580`, and those of step 7 below the list of
`deviceInfo`. -/
def EnumStep.limit : EnumStep → BitVec 16
  | .setConfig => 0x0576
  | _ => 0x0580

theorem Loads.of_all {limit start a : BitVec 16} {ios : List Io}
    (hlast : dataWrites a ios = (dataWrites a ios).dropLast ++ [(husbSie1PCurrentTDPtr, start)])
    (hall : (dataWrites a ios).dropLast.all (fun w => 0x0500 ≤ w.1 ∧ w.1 < limit) = true) :
    Loads limit start a ios := by
  refine ⟨(dataWrites a ios).dropLast, hlast, fun w hw => ?_⟩
  exact of_decide_eq_true (List.all_eq_true.1 hall w hw)

theorem submission_loads (k : EnumStep) (a : BitVec 16) : Loads k.limit 0x0500 a k.submission := by
  have hstart : dataWrites a k.submission = dataWrites 0 k.submission := by
    cases k <;> rfl
  apply Loads.of_all
  · rw [hstart]
    cases k <;> rfl
  · rw [hstart]
    cases k <;> decide

theorem deviceInfo_loads (a : BitVec 16) : Loads 0x0580 0x0576 a deviceInfo :=
  Loads.of_all rfl rfl

end Tetris
