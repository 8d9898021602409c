import LddSamples.Library.Flags
import LddSamples.Library.Runs

/-!
# tiny_tty: the modem lines

`tiny_tiocmset` changes a copy of the modem control register, and takes every request for
DTR for one for RTS. `tiny_tiocmget` shows the register.
-/

namespace LddSamples.Serial.TinyTty

open Flags

abbrev Word := BitVec 32

def TIOCM_DTR : Word := 0x002
def TIOCM_RTS : Word := 0x004
def TIOCM_CTS : Word := 0x020
def TIOCM_CAR : Word := 0x040
def TIOCM_RI : Word := 0x080
def TIOCM_DSR : Word := 0x100
def TIOCM_LOOP : Word := 0x8000

def MCR_DTR : Word := 0x01
def MCR_RTS : Word := 0x02
def MCR_LOOP : Word := 0x04
def MSR_CTS : Word := 0x08
def MSR_CD : Word := 0x10
def MSR_RI : Word := 0x20
def MSR_DSR : Word := 0x40

/-- The registers of `struct tiny_serial`. -/
structure TinySerial where
  msr : Word
  mcr : Word

def tinyTiocmget (tiny : TinySerial) : Word :=
  (if Has tiny.mcr MCR_DTR then TIOCM_DTR else 0#32) |||
    (if Has tiny.mcr MCR_RTS then TIOCM_RTS else 0#32) |||
    (if Has tiny.mcr MCR_LOOP then TIOCM_LOOP else 0#32) |||
    (if Has tiny.msr MSR_CTS then TIOCM_CTS else 0#32) |||
    (if Has tiny.msr MSR_CD then TIOCM_CAR else 0#32) |||
    (if Has tiny.msr MSR_RI then TIOCM_RI else 0#32) |||
    (if Has tiny.msr MSR_DSR then TIOCM_DSR else 0#32)

def tinyTiocmset (tiny : TinySerial) (set clear : Word) : TinySerial :=
  let mcr := tiny.mcr
  let mcr := if Has set TIOCM_RTS then mcr ||| MCR_RTS else mcr
  let mcr := if Has set TIOCM_DTR then mcr ||| MCR_RTS else mcr
  let mcr := if Has clear TIOCM_RTS then mcr &&& ~~~MCR_RTS else mcr
  let mcr := if Has clear TIOCM_DTR then mcr &&& ~~~MCR_RTS else mcr
  { tiny with mcr := mcr }

/-- The two lines that a modem has, and what a request makes of them. -/
structure Lines where
  dtr : Bool
  rts : Bool

def Lines.set (lines : Lines) (set clear : Word) : Lines where
  dtr := (lines.dtr || decide (Has set TIOCM_DTR)) && !decide (Has clear TIOCM_DTR)
  rts := (lines.rts || decide (Has set TIOCM_RTS)) && !decide (Has clear TIOCM_RTS)

/-- The driver with the lines that it should show. -/
structure State where
  tiny : TinySerial
  lines : Lines

structure Request where
  set : Word
  clear : Word

namespace State

/-- The registers have any values at first. -/
def initial (tiny : TinySerial) : State :=
  ⟨tiny, ⟨decide (Has (tinyTiocmget tiny) TIOCM_DTR), decide (Has (tinyTiocmget tiny) TIOCM_RTS)⟩⟩

def step (s : State) (e : Request) : Except Unit State :=
  .ok ⟨tinyTiocmset s.tiny e.set e.clear, s.lines.set e.set e.clear⟩

def Shows (s : State) : Prop :=
  (Has (tinyTiocmget s.tiny) TIOCM_DTR ↔ s.lines.dtr = true) ∧
    (Has (tinyTiocmget s.tiny) TIOCM_RTS ↔ s.lines.rts = true)

/-- A request that clears DTR finds it clear, and leaves RTS clear. One that sets it finds it
set, and leaves RTS set if it does not clear it. -/
def Harmless (s : State) (e : Request) : Prop :=
  (Has e.clear TIOCM_DTR → s.lines.dtr = false ∧ (s.lines.set e.set e.clear).rts = false) ∧
    (Has e.set TIOCM_DTR → ¬ Has e.clear TIOCM_DTR →
      s.lines.dtr = true ∧ (Has e.clear TIOCM_RTS ∨ (s.lines.set e.set e.clear).rts = true))

end State

variable {tiny : TinySerial} {s : State} {e : Request}

theorem MCR_DTR_eq : MCR_DTR = bit 32 0 := rfl

theorem MCR_RTS_eq : MCR_RTS = bit 32 1 := rfl

/-- Each line has a bit of its own in the answer. -/
theorem tinyTiocmget_lines (tiny : TinySerial) :
    (Has (tinyTiocmget tiny) TIOCM_DTR ↔ Has tiny.mcr MCR_DTR) ∧
      (Has (tinyTiocmget tiny) TIOCM_RTS ↔ Has tiny.mcr MCR_RTS) := by
  have hapart : ¬ Has TIOCM_RTS TIOCM_DTR ∧ ¬ Has TIOCM_LOOP TIOCM_DTR ∧
      ¬ Has TIOCM_CTS TIOCM_DTR ∧ ¬ Has TIOCM_CAR TIOCM_DTR ∧ ¬ Has TIOCM_RI TIOCM_DTR ∧
      ¬ Has TIOCM_DSR TIOCM_DTR ∧ Has TIOCM_DTR TIOCM_DTR := by decide
  have hapart' : ¬ Has TIOCM_DTR TIOCM_RTS ∧ ¬ Has TIOCM_LOOP TIOCM_RTS ∧
      ¬ Has TIOCM_CTS TIOCM_RTS ∧ ¬ Has TIOCM_CAR TIOCM_RTS ∧ ¬ Has TIOCM_RI TIOCM_RTS ∧
      ¬ Has TIOCM_DSR TIOCM_RTS ∧ Has TIOCM_RTS TIOCM_RTS := by decide
  constructor
  · simp only [tinyTiocmget, has_or, has_ite, hapart, and_false, or_false, and_true]
  · simp only [tinyTiocmget, has_or, has_ite, hapart', and_false, or_false, false_or, and_true]

theorem has_or_bit {x : Word} {i j : ℕ} {p : Prop} [Decidable p] (hi : i < 32) :
    Has (if p then x ||| bit 32 j else x) (bit 32 i) ↔ Has x (bit 32 i) ∨ p ∧ j = i := by
  split
  · next hp => rw [has_or, bit_has_bit hi, and_iff_right hp]
  · next hp => simp [hp]

theorem has_clear_bit {x : Word} {i j : ℕ} {p : Prop} [Decidable p] (hi : i < 32) :
    Has (if p then x &&& ~~~ bit 32 j else x) (bit 32 i) ↔ Has x (bit 32 i) ∧ (p → j ≠ i) := by
  split
  · next hp => rw [has_clear hi, forall_prop_of_true hp]
  · next hp => simp [hp]

/-- A request leaves every bit of the register as it is but RTS, and DTR goes where RTS goes. -/
theorem tinyTiocmset_bit (tiny : TinySerial) (set clear : Word) {i : ℕ} (hi : i < 32) :
    Has (tinyTiocmset tiny set clear).mcr (bit 32 i) ↔
      if i = 1 then
        (Has tiny.mcr MCR_RTS ∨ Has set TIOCM_RTS ∨ Has set TIOCM_DTR) ∧
          ¬ Has clear TIOCM_RTS ∧ ¬ Has clear TIOCM_DTR
      else Has tiny.mcr (bit 32 i) := by
  simp only [tinyTiocmset, MCR_RTS_eq, has_clear_bit hi, has_or_bit hi]
  by_cases h1 : i = 1
  · subst h1
    simp [or_assoc, and_assoc]
  · simp [h1, Ne.symm h1]

theorem initial_shows (tiny : TinySerial) : (State.initial tiny).Shows := by
  simp [State.initial, State.Shows]

/-- A request is shown exactly when it is harmless. -/
theorem step_shows_iff (hs : s.Shows) {t : State} (h : s.step e = .ok t) :
    t.Shows ↔ s.Harmless e := by
  cases h
  obtain ⟨hdtr, hrts⟩ := hs
  rw [(tinyTiocmget_lines s.tiny).1] at hdtr
  rw [(tinyTiocmget_lines s.tiny).2] at hrts
  have hset := fun i hi => tinyTiocmset_bit s.tiny e.set e.clear (i := i) hi
  rw [State.Shows, (tinyTiocmget_lines _).1, (tinyTiocmget_lines _).2, MCR_DTR_eq, MCR_RTS_eq,
    hset 0 (by decide), hset 1 (by decide), if_neg (by decide), if_pos rfl, ← MCR_DTR_eq, hdtr,
    hrts]
  simp only [State.Harmless, Lines.set]
  by_cases hD : Has e.set TIOCM_DTR <;> by_cases hR : Has e.set TIOCM_RTS <;>
    by_cases hd : Has e.clear TIOCM_DTR <;> by_cases hr : Has e.clear TIOCM_RTS <;>
    cases s.lines.dtr <;> cases s.lines.rts <;> simp [hD, hR, hd, hr]

/-- In every run of requests, whatever the registers were at first, the lines shown are those
of a modem exactly when every request is harmless. No run changes another line than RTS. -/
theorem modem_right_iff (tiny : TinySerial) (es : List Request) :
    (Runs.Always State.step State.Shows (.initial tiny) es ↔
        Runs.Along State.step State.Harmless (.initial tiny) es) ∧
      Runs.Always State.step (fun s => s.tiny.msr = tiny.msr ∧
        ∀ i, i < 32 → i ≠ 1 → (Has s.tiny.mcr (bit 32 i) ↔ Has tiny.mcr (bit 32 i)))
        (.initial tiny) es := by
  constructor
  · apply Runs.always_iff_along (I := State.Shows)
    · exact fun s hs => hs
    · exact fun s e t hs hC h => (step_shows_iff hs h).mpr hC
    · exact fun s e hs hC => ⟨_, rfl, fun hshows => hC ((step_shows_iff hs rfl).mp hshows)⟩
    · exact initial_shows tiny
  · apply Runs.always_of_inv (fun _ hs => hs)
    · rintro s e t ⟨hmsr, hmcr⟩ h
      cases h
      refine ⟨hmsr, fun i hi h1 => ?_⟩
      rw [tinyTiocmset_bit s.tiny e.set e.clear hi, if_neg h1]
      exact hmcr i hi h1
    · exact ⟨rfl, fun _ _ _ => Iff.rfl⟩

end LddSamples.Serial.TinyTty
