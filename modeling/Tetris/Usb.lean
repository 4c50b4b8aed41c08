import Tetris.Machine
import Mathlib.Data.BitVec
import Mathlib.Logic.Function.Basic

/-! The software's wait for the USB controller: two accesses to read a message
register, two more to clear it, and a controller that writes it at any time. -/
namespace Tetris
open Machine

def hpiSie1MsgAdr : BitVec 16 := 0x0144
def husbTDListDone : BitVec 16 := 0x1000

/-- The controller as seen through its host port: the address register and the
memory behind it. -/
structure Hpi where
  addr : BitVec 16
  mem : BitVec 16 → BitVec 16

def Hpi.writeAddr (d : Hpi) (v : BitVec 16) : Hpi := { d with addr := v }

/-- `IO_write(HPI_DATA, v)`; a data access moves the address on by a word. -/
def Hpi.writeData (d : Hpi) (v : BitVec 16) : Hpi where
  addr := d.addr + 2
  mem := Function.update d.mem d.addr v

def Hpi.readData (d : Hpi) : BitVec 16 × Hpi := (d.mem d.addr, { d with addr := d.addr + 2 })

/-- The next access of `UsbWaitTDListDone`: the two of `UsbRead`, then the two of
`UsbWrite(.., 0)`. -/
inductive WaitPc where
  | readAddr | readData | writeAddr | writeData | returned
  deriving DecidableEq

structure Wait where
  hpi : Hpi
  pc : WaitPc
  usbCtlVal : BitVec 16

inductive BusEvent where
  | access
  | post (msg : BitVec 16)
  deriving DecidableEq

def Wait.access (s : Wait) : Wait :=
  match s.pc with
  | .readAddr => { s with hpi := s.hpi.writeAddr hpiSie1MsgAdr, pc := .readData }
  | .readData =>
    { s with
      hpi := s.hpi.readData.2
      pc := .writeAddr
      usbCtlVal := s.hpi.readData.1 }
  | .writeAddr => { s with hpi := s.hpi.writeAddr hpiSie1MsgAdr, pc := .writeData }
  -- the loop condition is tested once the register has been cleared
  | .writeData =>
    { s with
      hpi := s.hpi.writeData 0
      pc := if s.usbCtlVal ≠ husbTDListDone then .readAddr else .returned }
  | .returned => s

def busStep (s : Wait) (e : BusEvent) : Wait :=
  match e with
  | .access => s.access
  | .post msg => { s with hpi := { s.hpi with mem := Function.update s.hpi.mem hpiSie1MsgAdr msg } }

/-- The wait together with what the software has seen: whether the message register
has been read since it was last written by the controller. -/
structure Watched where
  wait : Wait
  seen : Bool

def watch (o : Watched) (e : BusEvent) : Watched where
  wait := busStep o.wait e
  seen :=
    match e with
    | .post _ => false
    | .access => if o.wait.pc = .readData ∧ o.wait.hpi.addr = hpiSie1MsgAdr then true else o.seen

/-- An access that overwrites with 0 a `HUSB_TDListDone` not yet read. -/
def Destroys (o : Watched) (e : BusEvent) : Prop :=
  e = .access ∧ o.wait.pc = .writeData ∧ o.wait.hpi.addr = hpiSie1MsgAdr ∧
    o.wait.hpi.mem hpiSie1MsgAdr = husbTDListDone ∧ o.seen = false

instance (o : Watched) (e : BusEvent) : Decidable (Destroys o e) := inferInstanceAs (Decidable (_ ∧ _))

def called (hpi : Hpi) (usbCtlVal : BitVec 16) : Watched := ⟨⟨hpi, .readAddr, usbCtlVal⟩, false⟩

/-- The last message before a write of 0 is a `HUSB_TDListDone` that came after the read:
either just before the write, or before the access that sets its address. -/
def PostedInWindow (s : Wait) (es : List BusEvent) : Prop :=
  ∃ js ks,
    (es = js ++ [.post husbTDListDone, .access] ++ ks ∧ (run busStep s js).pc = .writeData) ∨
      (es = js ++ [.post husbTDListDone, .access, .access] ++ ks ∧ (run busStep s js).pc = .writeAddr)

def Addressed (s : Wait) : Prop :=
  s.pc = .readData ∨ s.pc = .writeData → s.hpi.addr = hpiSie1MsgAdr

theorem addressed_step {s : Wait} (h : Addressed s) (e : BusEvent) : Addressed (busStep s e) := by
  cases e with
  | post msg => exact h
  | access =>
    unfold Addressed busStep Wait.access
    cases hpc : s.pc with
    | readAddr => exact fun _ => rfl
    | readData => simp
    | writeAddr => exact fun _ => rfl
    | writeData => split_ifs <;> simp
    | returned => simp [hpc]

theorem run_watch (o : Watched) (es : List BusEvent) : (run watch o es).wait = run busStep o.wait es := by
  induction es generalizing o with
  | nil => rfl
  | cons e es ih => exact ih (watch o e)

theorem called_addressed (hpi : Hpi) (v : BitVec 16) (es : List BusEvent) :
    Addressed (run busStep ⟨hpi, .readAddr, v⟩ es) :=
  invariant busStep (I := Addressed) (fun _ e h => addressed_step h e) (by simp [Addressed]) es

theorem unseen_after_access {o : Watched} (haddr : Addressed o.wait)
    (hseen : (watch o .access).seen = false)
    (hpc : (watch o .access).wait.pc = .writeAddr ∨ (watch o .access).wait.pc = .writeData) :
    o.seen = false ∧ o.wait.pc = .writeAddr ∧
      (watch o .access).wait = { o.wait with hpi := o.wait.hpi.writeAddr hpiSie1MsgAdr, pc := .writeData } := by
  simp only [watch, busStep, Wait.access] at hseen hpc ⊢
  cases hst : o.wait.pc with
  | readAddr => simp [hst] at hpc
  | readData =>
    have hat := haddr (Or.inl hst)
    simp [hst, hat] at hseen
  | writeAddr => exact ⟨by simpa [hst] using hseen, rfl, rfl⟩
  | writeData =>
    simp only [hst] at hpc
    split_ifs at hpc <;> simp at hpc
  | returned => simp [hst] at hpc

theorem destroys_at_write {o : Watched} (haddr : Addressed o.wait) (hpc : o.wait.pc = .writeData) :
    Destroys (watch o (.post husbTDListDone)) .access :=
  ⟨rfl, hpc, haddr (Or.inr hpc), by simp [watch, busStep], rfl⟩

theorem destroys_at_address {o : Watched} (hpc : o.wait.pc = .writeAddr) :
    Destroys (watch (watch o (.post husbTDListDone)) .access) .access := by
  simp only [Destroys, watch, busStep, Wait.access, hpc, Hpi.writeAddr]
  simp

section Call
variable (hpi : Hpi) (v : BitVec 16)

/-- Where the register is about to be cleared unread, its content was posted in the window. -/
theorem posted_of_unseen (es : List BusEvent) :
    let s := (called hpi v).wait
    let o := run watch (called hpi v) es
    let msg := o.wait.hpi.mem hpiSie1MsgAdr
    o.seen = false →
      (o.wait.pc = .writeAddr → ∃ js, es = js ++ [.post msg] ∧ (run busStep s js).pc = .writeAddr) ∧
      (o.wait.pc = .writeData → ∃ js,
        (es = js ++ [.post msg] ∧ (run busStep s js).pc = .writeData) ∨
          (es = js ++ [.post msg, .access] ∧ (run busStep s js).pc = .writeAddr)) := by
  induction es using List.reverseRecOn with
  | nil => simp [called]
  | append_singleton es e ih =>
    intro s o msg hseen
    have ho : o = watch (run watch (called hpi v) es) e := by simp [o, run_append]
    have hwait : (run watch (called hpi v) es).wait = run busStep s es := run_watch (called hpi v) es
    cases e with
    | post m =>
      have hmsg : msg = m := by simp [msg, ho, watch, busStep]
      have hpc : o.wait.pc = (run busStep s es).pc := by
        rw [ho, ← hwait]
        rfl
      rw [hmsg, hpc]
      exact ⟨fun hpc => ⟨es, rfl, hpc⟩, fun hpc => ⟨es, Or.inl ⟨rfl, hpc⟩⟩⟩
    | access =>
      have haddr : Addressed (run watch (called hpi v) es).wait := by
        rw [hwait]
        exact called_addressed hpi v es
      have hlast (hpc : o.wait.pc = .writeAddr ∨ o.wait.pc = .writeData) := by
        rw [ho] at hseen hpc
        exact unseen_after_access haddr hseen hpc
      constructor
      · intro hpc
        obtain ⟨-, -, hafter⟩ := hlast (Or.inl hpc)
        rw [← ho] at hafter
        rw [hafter] at hpc
        cases hpc
      · intro hpc
        obtain ⟨hunseen, hbefore, hafter⟩ := hlast (Or.inr hpc)
        rw [← ho] at hafter
        have hmsg : msg = (run watch (called hpi v) es).wait.hpi.mem hpiSie1MsgAdr := by
          simp only [msg, hafter]
          rfl
        obtain ⟨js, hes, hjs⟩ := (ih hunseen).1 hbefore
        refine ⟨js, Or.inr ⟨?_, hjs⟩⟩
        rw [hmsg]
        conv_lhs => rw [hes]
        simp

/-- A `HUSB_TDListDone` is cleared unread exactly if it is posted between the read and
the write of 0, with no message after it. -/
theorem completions_kept_iff (es : List BusEvent) :
    Throughout watch (fun o e => ¬ Destroys o e) (called hpi v) es ↔
      ¬ PostedInWindow (called hpi v).wait es := by
  rw [throughout_iff]
  constructor
  · rintro hall ⟨js, ks, hposted⟩
    have hwait : (run watch (called hpi v) js).wait = run busStep (called hpi v).wait js :=
      run_watch (called hpi v) js
    rw [← hwait] at hposted
    cases hposted with
    | inl hlate =>
      obtain ⟨hes, hpc⟩ := hlate
      refine hall (js ++ [.post husbTDListDone]) .access ks (by simpa using hes) ?_
      rw [run_append]
      apply destroys_at_write _ hpc
      rw [hwait]
      exact called_addressed hpi v js
    | inr hearly =>
      obtain ⟨hes, hpc⟩ := hearly
      refine hall (js ++ [.post husbTDListDone, .access]) .access ks (by simpa using hes) ?_
      rw [run_append]
      exact destroys_at_address hpc
  · intro hno js e ks hes hdestroys
    obtain ⟨rfl, hpc, -, hmsg, hseen⟩ := hdestroys
    obtain ⟨is, hposted⟩ := (posted_of_unseen hpi v js hseen).2 hpc
    rw [hmsg] at hposted
    refine hno ⟨is, ks, hposted.imp ?_ ?_⟩
    · rintro ⟨rfl, hat⟩
      exact ⟨by simpa using hes, hat⟩
    · rintro ⟨rfl, hat⟩
      exact ⟨by simpa using hes, hat⟩

end Call

structure Stuck (s : Wait) : Prop where
  addressed : Addressed s
  clear : s.hpi.mem hpiSie1MsgAdr = 0
  running : s.pc ≠ .returned
  unread : s.pc = .writeAddr ∨ s.pc = .writeData → s.usbCtlVal ≠ husbTDListDone

theorem stuck_access {s : Wait} (h : Stuck s) : Stuck s.access := by
  have haddr : Addressed s.access := addressed_step h.addressed .access
  cases hpc : s.pc with
  | returned => exact absurd hpc h.running
  | readAddr =>
    have hs : s.access = { s with hpi := s.hpi.writeAddr hpiSie1MsgAdr, pc := .readData } := by
      simp only [Wait.access, hpc]
    rw [hs] at haddr ⊢
    exact ⟨haddr, h.clear, by simp, by simp⟩
  | readData =>
    have hread : s.hpi.readData.1 = 0 := by
      rw [Hpi.readData, h.addressed (Or.inl hpc)]
      exact h.clear
    have hs : s.access = { s with hpi := s.hpi.readData.2, pc := .writeAddr, usbCtlVal := 0 } := by
      simp only [Wait.access, hpc, hread]
    rw [hs] at haddr ⊢
    exact ⟨haddr, h.clear, by simp, fun _ => (by decide : (0 : BitVec 16) ≠ husbTDListDone)⟩
  | writeAddr =>
    have hs : s.access = { s with hpi := s.hpi.writeAddr hpiSie1MsgAdr, pc := .writeData } := by
      simp only [Wait.access, hpc]
    rw [hs] at haddr ⊢
    exact ⟨haddr, h.clear, by simp, fun _ => h.unread (Or.inl hpc)⟩
  | writeData =>
    have hs : s.access = { s with hpi := s.hpi.writeData 0, pc := .readAddr } := by
      simp only [Wait.access, hpc, if_pos (h.unread (Or.inr hpc))]
    rw [hs] at haddr ⊢
    refine ⟨haddr, ?_, by simp, by simp⟩
    rw [Hpi.writeData, h.addressed (Or.inr hpc)]
    exact Function.update_self hpiSie1MsgAdr 0 s.hpi.mem

theorem stuck_forever {s : Wait} (h : Stuck s) (n : Nat) :
    (run busStep s (List.replicate n .access)).pc ≠ .returned := by
  induction n generalizing s with
  | zero => exact h.running
  | succ n ih => exact ih (stuck_access h)

/-- Another message is read; then the completion comes, and is cleared. -/
def lateCompletion : List BusEvent :=
  [.post 0x0001, .access, .access, .post husbTDListDone, .access, .access]

theorem lateCompletion_destroyed : ∃ (hpi : Hpi) (v : BitVec 16) (es : List BusEvent),
    ¬ Throughout watch (fun o e => ¬ Destroys o e) (called hpi v) es ∧
      ∀ n, (run busStep (run busStep (called hpi v).wait es) (List.replicate n .access)).pc ≠ .returned := by
  refine ⟨⟨0, fun _ => 0⟩, 0, lateCompletion, by decide, fun n => stuck_forever ?_ n⟩
  exact ⟨called_addressed _ _ lateCompletion, by decide, by decide, by decide⟩

end Tetris
