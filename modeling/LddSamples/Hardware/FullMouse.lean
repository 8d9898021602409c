import LddSamples.Kernel.Basic
import LddSamples.Library.Census
import LddSamples.Library.Runs

/-!
# lab4_full_mouse_driver: packets handed from `my_interrupt` to the readers

`my_interrupt` assembles a packet in `my_state.bytes` and sets `my_state.ready`; a reader
waits for the flag, switches the interrupt off, copies the packet, clears the flag and
switches the interrupt on again. Each byte and each operation of a reader is a step.
-/

namespace LddSamples.Hardware.FullMouse

open Kernel

/-- A byte from the UART, with its place in the stream. -/
structure Byte where
  arrival : ℕ
  value : UInt8
  deriving DecidableEq

structure Packet where
  first : Byte
  second : Byte
  third : Byte
  deriving DecidableEq

def Packet.values (p : Packet) : List UInt8 := [p.first.value, p.second.value, p.third.value]

/-- What `my_interrupt` works on; `packets` are those it has framed, in order. -/
structure Device where
  bytes : ℕ → Byte
  numByteIn : ℕ
  ready : Bool
  arrived : ℕ
  packets : List Packet

def Device.packet (d : Device) : Packet := ⟨d.bytes 0, d.bytes 1, d.bytes 2⟩

def Device.accept (d : Device) (byte : UInt8) : Device :=
  if 0 < d.numByteIn ∨ byte &&& 0x40 ≠ 0 then
    { d with
      bytes := Function.update d.bytes d.numByteIn ⟨d.arrived, byte⟩
      numByteIn := d.numByteIn + 1 }
  else d

def Device.complete (d : Device) : Device :=
  if d.numByteIn = 3 then
    { d with ready := true, numByteIn := 0, packets := d.packets ++ [d.packet] }
  else d

def myInterrupt (d : Device) (byte : UInt8) : Device :=
  { (d.accept byte).complete with arrived := d.arrived + 1 }

/-- Where a reader stands, by what it does next. -/
inductive Pc
  | idle
  | testing (lbuf : ℕ) (nodelay : Bool)
  | waiting (lbuf : ℕ) (nodelay : Bool)
  | passed (lbuf : ℕ)
  | disabled (lbuf : ℕ)
  | copied (lbuf : ℕ) (packet : Packet)
  | cleared (lbuf : ℕ) (packet : Packet)

/-- `depth` counts the calls of `disable_irq` that are not undone. `copied` are the
packets handed to `copy_to_user`, `returned` those of completed reads, and `results`
what each call returned. -/
structure State where
  device : Device
  depth : ℕ
  readers : ℕ → Pc
  copied : List Packet
  returned : List Packet
  results : List (ℕ × ℤ)

inductive Event
  | byte (b : UInt8)
  | openOrRelease
  | call (r : ℕ) (lbuf : ℕ) (nodelay : Bool)
  | test (r : ℕ)
  | wake (r : ℕ) (signal : Bool)
  | disableIrq (r : ℕ)
  | copyToUser (r : ℕ)
  | clearReady (r : ℕ)
  | enableIrq (r : ℕ)

namespace State

def initial : State :=
  ⟨⟨fun _ => ⟨0, 0⟩, 0, false, 0, []⟩, 0, fun _ => .idle, [], [], []⟩

def goto (s : State) (r : ℕ) (pc : Pc) : State :=
  { s with readers := Function.update s.readers r pc }

def leave (s : State) (r : ℕ) (result : ℤ) : State :=
  { s with
    readers := Function.update s.readers r .idle
    results := s.results ++ [(r, result)] }

def step (s : State) : Event → Except Unit State
  | .byte b =>
      if s.depth = 0 then .ok { s with device := myInterrupt s.device b }
      else .error ()
  | .openOrRelease => .ok { s with device := { s.device with ready := false } }
  | .call r lbuf nodelay =>
      match s.readers r with
      | .idle => .ok (if lbuf < 3 then s.leave r (-EINVAL) else s.goto r (.testing lbuf nodelay))
      | _ => .error ()
  | .test r =>
      match s.readers r with
      | .testing lbuf nodelay =>
          .ok (if s.device.ready then s.goto r (.passed lbuf)
            else if nodelay then s.leave r (-EAGAIN)
            else s.goto r (.waiting lbuf nodelay))
      | _ => .error ()
  | .wake r signal =>
      match s.readers r with
      | .waiting lbuf nodelay =>
          if signal then .ok (s.leave r (-ERESTARTSYS))
          else if s.device.ready then .ok (s.goto r (.testing lbuf nodelay))
          else .error ()
      | _ => .error ()
  | .disableIrq r =>
      match s.readers r with
      | .passed lbuf => .ok { s.goto r (.disabled lbuf) with depth := s.depth + 1 }
      | _ => .error ()
  | .copyToUser r =>
      match s.readers r with
      | .disabled lbuf => .ok { s.goto r (.copied lbuf s.device.packet) with
          copied := s.copied ++ [s.device.packet] }
      | _ => .error ()
  | .clearReady r =>
      match s.readers r with
      | .copied lbuf packet => .ok { s.goto r (.cleared lbuf packet) with
          device := { s.device with ready := false } }
      | _ => .error ()
  | .enableIrq r =>
      match s.readers r with
      | .cleared lbuf packet => .ok { s.leave r lbuf with
          depth := s.depth - 1
          returned := s.returned ++ [packet] }
      | _ => .error ()

/-- Completed reads have returned framed packets, in order and each at most once. -/
def Delivers (s : State) : Prop := s.returned.Sublist s.device.packets

/-- A reader that switches the interrupt off finds the flag still set, no packet under
assembly, and no other reader between its `disable_irq` and its `enable_irq`. -/
def DisablesInTime (s : State) (e : Event) : Prop :=
  ∀ r lbuf, e = .disableIrq r → s.readers r = .passed lbuf →
    s.device.ready = true ∧ s.device.numByteIn = 0 ∧ s.depth = 0

end State

/-! ## Assembly -/

/-- What a byte does to the device. -/
inductive Takes (d : Device) (b : UInt8) : Device → Prop
  | ignored (h : d.numByteIn = 0) : Takes d b { d with arrived := d.arrived + 1 }
  | stored (h : d.numByteIn < 2) : Takes d b { d with
      bytes := Function.update d.bytes d.numByteIn ⟨d.arrived, b⟩
      numByteIn := d.numByteIn + 1
      arrived := d.arrived + 1 }
  | framed (h : d.numByteIn = 2) : Takes d b ⟨Function.update d.bytes 2 ⟨d.arrived, b⟩, 0, true,
      d.arrived + 1, d.packets ++ [⟨d.bytes 0, d.bytes 1, ⟨d.arrived, b⟩⟩]⟩

theorem myInterrupt_takes {d : Device} (hlt : d.numByteIn < 3) (b : UInt8) :
    Takes d b (myInterrupt d b) := by
  unfold myInterrupt Device.accept
  split
  · next haccept =>
      by_cases hlast : d.numByteIn = 2
      · have hframed := Takes.framed (b := b) hlast
        simpa [Device.complete, Device.packet, hlast] using hframed
      · have hstored := Takes.stored (b := b) (d := d) (by omega)
        have hmore : d.numByteIn + 1 ≠ 3 := by omega
        simpa [Device.complete, hmore] using hstored
  · next hreject =>
      have hzero : d.numByteIn = 0 := by
        by_contra hne
        exact hreject (.inl (Nat.pos_of_ne_zero hne))
      have hignored := Takes.ignored (b := b) hzero
      simpa [Device.complete, hzero] using hignored

/-- The buffer holds the last packet framed, except while the next one is being
assembled: then its first byte is newer than its last. -/
structure Device.Inv (d : Device) : Prop where
  counter : d.numByteIn < 3
  recent : 0 < d.numByteIn → (d.bytes 0).arrival < d.arrived
  older : ∀ p ∈ d.packets, p.third.arrival < d.arrived
  ordered : ∀ p ∈ d.packets, p.first.arrival < p.third.arrival
  nodup : d.packets.Nodup
  whole : d.numByteIn = 0 → d.packets ≠ [] → d.packets.getLast? = some d.packet
  mixed : 0 < d.numByteIn → d.packets ≠ [] → (d.bytes 2).arrival < (d.bytes 0).arrival
  framed : d.ready = true → d.packets ≠ []

namespace Device.Inv

variable {d : Device}

theorem packet_mem (h : d.Inv) (hzero : d.numByteIn = 0) (hsome : d.packets ≠ []) :
    d.packet ∈ d.packets := List.mem_of_getLast? (h.whole hzero hsome)

theorem packet_not_mem (h : d.Inv) (hpos : 0 < d.numByteIn) (hsome : d.packets ≠ []) :
    d.packet ∉ d.packets := by
  intro hmem
  have hordered := h.ordered _ hmem
  have hmixed := h.mixed hpos hsome
  simp only [Device.packet] at hordered
  omega

theorem takes {d' : Device} {b : UInt8} (h : d.Inv) (htakes : Takes d b d') : d'.Inv := by
  cases htakes with
  | ignored hzero =>
      exact {
        counter := h.counter
        recent := fun hpos => absurd hzero hpos.ne'
        older := fun p hp => Nat.lt_succ_of_lt (h.older p hp)
        ordered := h.ordered
        nodup := h.nodup
        whole := h.whole
        mixed := h.mixed
        framed := h.framed }
  | stored hlt =>
      have hcases : d.numByteIn = 0 ∨ d.numByteIn = 1 := by omega
      exact {
        counter := Nat.succ_lt_succ hlt
        recent := fun _ => by
          rcases hcases with hzero | hone
          · simp [hzero]
          · have hrecent := h.recent (by omega)
            simp only [hone, Function.update_apply, if_neg zero_ne_one]
            omega
        older := fun p hp => Nat.lt_succ_of_lt (h.older p hp)
        ordered := h.ordered
        nodup := h.nodup
        whole := fun hzero => absurd hzero (Nat.succ_ne_zero _)
        mixed := fun _ hsome => by
          rcases hcases with hzero | hone
          · have hold := h.older _ (h.packet_mem hzero hsome)
            simpa [hzero, Device.packet] using hold
          · have hmixed := h.mixed (by omega) hsome
            simpa [hone] using hmixed
        framed := h.framed }
  | framed htwo =>
      have hrecent := h.recent (by omega)
      exact {
        counter := Nat.succ_pos 2
        recent := fun hpos => absurd hpos (lt_irrefl 0)
        older := fun p hp => by
          rcases List.mem_append.mp hp with hold | hnew
          · exact Nat.lt_succ_of_lt (h.older p hold)
          · rw [List.mem_singleton.mp hnew]
            exact Nat.lt_succ_self _
        ordered := fun p hp => by
          rcases List.mem_append.mp hp with hold | hnew
          · exact h.ordered p hold
          · rw [List.mem_singleton.mp hnew]
            exact hrecent
        nodup := by
          rw [← List.concat_eq_append, List.nodup_concat]
          exact ⟨fun hmem => lt_irrefl _ (h.older _ hmem), h.nodup⟩
        whole := fun _ _ => by simp [Device.packet]
        mixed := fun hpos => absurd hpos (lt_irrefl 0)
        framed := fun _ => List.append_ne_nil_of_right_ne_nil _ (List.cons_ne_nil _ _) }

theorem clearReady (h : d.Inv) : Device.Inv { d with ready := false } where
  counter := h.counter
  recent := h.recent
  older := h.older
  ordered := h.ordered
  nodup := h.nodup
  whole := h.whole
  mixed := h.mixed
  framed hready := by cases hready

end Device.Inv

theorem Takes.packets_ne_nil {d d' : Device} {b : UInt8} (h : Takes d b d')
    (hsome : d.packets ≠ []) : d'.packets ≠ [] := by
  cases h with
  | ignored _ => exact hsome
  | stored _ => exact hsome
  | framed _ => exact List.append_ne_nil_of_left_ne_nil hsome _

theorem Takes.packets_sublist {d d' : Device} {b : UInt8} (h : Takes d b d') :
    d.packets.Sublist d'.packets := by
  cases h with
  | ignored _ => exact List.Sublist.refl _
  | stored _ => exact List.Sublist.refl _
  | framed _ => exact List.sublist_append_left _ _

/-! ## Delivery -/

/-- The reader has seen the flag set. -/
def Pc.Admitted : Pc → Prop
  | .passed _ => True
  | .disabled _ => True
  | .copied _ _ => True
  | .cleared _ _ => True
  | _ => False

def Pc.HasIrq : Pc → Prop
  | .disabled _ => True
  | .copied _ _ => True
  | .cleared _ _ => True
  | _ => False

/-- What the reader has copied and not yet returned. -/
def Pc.held : Pc → Option Packet
  | .copied _ packet => some packet
  | .cleared _ packet => some packet
  | _ => none

theorem Pc.hasIrq_of_held {pc : Pc} {p : Packet} (h : pc.held = some p) : pc.HasIrq := by
  cases pc with
  | copied _ _ => trivial
  | cleared _ _ => trivial
  | _ => cases h

theorem Pc.held_of_not_hasIrq {pc : Pc} (h : ¬ pc.HasIrq) : pc.held = none := by
  cases pc with
  | copied _ _ => exact absurd trivial h
  | cleared _ _ => exact absurd trivial h
  | _ => rfl

theorem admitted_update {readers : ℕ → Pc} {r : ℕ} {pc : Pc} {P : Prop} (hpc : pc.Admitted → P)
    (hrest : ∀ r', (readers r').Admitted → P) (r' : ℕ)
    (h : (Function.update readers r pc r').Admitted) : P := by
  by_cases heq : r' = r
  · subst heq
    exact hpc (by simpa using h)
  · rw [Function.update_of_ne heq] at h
    exact hrest r' h

theorem sublist_of_append_singleton {α : Type*} {xs ys : List α} {a : α}
    (h : xs.Sublist (ys ++ [a])) (ha : a ∉ xs) : xs.Sublist ys := by
  obtain ⟨us, vs, rfl, hus, hvs⟩ := List.sublist_append_iff.mp h
  have hnil : vs = [] := by
    rcases List.sublist_singleton.mp hvs with rfl | rfl
    · rfl
    · exact absurd (by simp) ha
  simpa [hnil] using hus

theorem not_nodup_append_singleton {α : Type*} {xs : List α} {a : α} (ha : a ∈ xs) :
    ¬ (xs ++ [a]).Nodup := by
  rw [← List.concat_eq_append, List.nodup_concat]
  exact fun h => h.1 ha

namespace State

variable {s s' : State} {e : Event}

/-- The steps, by what they do. In a step that `goes`, a reader moves without touching
the packet, the flag or the interrupt, and gets past the loop only if the flag is set. -/
inductive Does (s : State) : Event → State → Prop
  | byte (b : UInt8) (h : s.depth = 0) :
      Does s (.byte b) { s with device := myInterrupt s.device b }
  | openOrRelease : Does s .openOrRelease { s with device := { s.device with ready := false } }
  | goes {e : Event} {r : ℕ} (pc : Pc) {results : List (ℕ × ℤ)}
      (hfrom : ¬ (s.readers r).HasIrq) (hto : ¬ pc.HasIrq)
      (hready : pc.Admitted → s.device.ready = true) :
      Does s e { s with readers := Function.update s.readers r pc, results := results }
  | disableIrq {r lbuf : ℕ} (h : s.readers r = .passed lbuf) :
      Does s (.disableIrq r) { s.goto r (.disabled lbuf) with depth := s.depth + 1 }
  | copyToUser {r lbuf : ℕ} (h : s.readers r = .disabled lbuf) :
      Does s (.copyToUser r) { s.goto r (.copied lbuf s.device.packet) with
        copied := s.copied ++ [s.device.packet] }
  | clearReady {r lbuf : ℕ} {packet : Packet} (h : s.readers r = .copied lbuf packet) :
      Does s (.clearReady r) { s.goto r (.cleared lbuf packet) with
        device := { s.device with ready := false } }
  | enableIrq {r lbuf : ℕ} {packet : Packet} (h : s.readers r = .cleared lbuf packet) :
      Does s (.enableIrq r) { s.leave r lbuf with
        depth := s.depth - 1
        returned := s.returned ++ [packet] }

theorem step_does (h : step s e = .ok s') : Does s e s' := by
  cases e with
  | byte b =>
      simp only [step] at h
      split at h
      · next hdepth =>
          cases h
          exact .byte b hdepth
      · cases h
  | openOrRelease =>
      cases h
      exact .openOrRelease
  | call r lbuf nodelay =>
      simp only [step] at h
      split at h
      · next hpc =>
          have hfrom : ¬ (s.readers r).HasIrq := by simp [hpc, Pc.HasIrq]
          cases h
          split
          · exact .goes .idle hfrom id False.elim
          · exact .goes (.testing lbuf nodelay) hfrom id False.elim
      · cases h
  | test r =>
      simp only [step] at h
      split at h
      · next lbuf nodelay hpc =>
          have hfrom : ¬ (s.readers r).HasIrq := by simp [hpc, Pc.HasIrq]
          cases h
          split
          · next hready => exact .goes (.passed lbuf) hfrom id fun _ => hready
          · split
            · exact .goes .idle hfrom id False.elim
            · exact .goes (.waiting lbuf nodelay) hfrom id False.elim
      · cases h
  | wake r signal =>
      simp only [step] at h
      split at h
      · next lbuf nodelay hpc =>
          have hfrom : ¬ (s.readers r).HasIrq := by simp [hpc, Pc.HasIrq]
          split at h
          · cases h
            exact .goes .idle hfrom id False.elim
          · split at h
            · cases h
              exact .goes (.testing lbuf nodelay) hfrom id False.elim
            · cases h
      · cases h
  | disableIrq r =>
      simp only [step] at h
      split at h
      · next lbuf hpc =>
          cases h
          exact .disableIrq hpc
      · cases h
  | copyToUser r =>
      simp only [step] at h
      split at h
      · next lbuf hpc =>
          cases h
          exact .copyToUser hpc
      · cases h
  | clearReady r =>
      simp only [step] at h
      split at h
      · next lbuf packet hpc =>
          cases h
          exact .clearReady hpc
      · cases h
  | enableIrq r =>
      simp only [step] at h
      split at h
      · next lbuf packet hpc =>
          cases h
          exact .enableIrq hpc
      · cases h

/-- Between a copy and the return of the packet, one reader holds it, and it is still in
the buffer. -/
def Handover (s : State) : Prop :=
  (s.copied = s.returned ∧ ∀ r, (s.readers r).held = none) ∨
    ∃ r, (s.readers r).held = some s.device.packet ∧
      (∀ r', r' ≠ r → (s.readers r').held = none) ∧ s.copied = s.returned ++ [s.device.packet]

/-- The interrupt is off exactly while some reader holds it off. -/
def Balanced (s : State) : Prop :=
  ∃ holders : Finset ℕ, (∀ r, r ∈ holders ↔ (s.readers r).HasIrq) ∧ s.depth = holders.card

structure Inv (s : State) : Prop where
  device : s.device.Inv
  admitted : ∀ r, (s.readers r).Admitted → s.device.packets ≠ []
  balanced : s.Balanced
  single : s.depth ≤ 1
  copied : s.copied.Sublist s.device.packets
  handover : s.Handover
  unseen : s.depth = 0 → s.device.ready = true →
    ∀ p, s.device.packets.getLast? = some p → p ∉ s.copied
  still : ∀ r, (s.readers r).HasIrq → s.device.numByteIn = 0
  disabled : ∀ r lbuf, s.readers r = .disabled lbuf → s.device.packet ∉ s.copied
  cleared : ∀ r lbuf packet, s.readers r = .cleared lbuf packet → s.device.ready = false

theorem inv_initial : Inv initial where
  device :=
    { counter := Nat.succ_pos 2
      recent := fun hpos => absurd hpos (lt_irrefl 0)
      older := by simp [initial]
      ordered := by simp [initial]
      nodup := List.nodup_nil
      whole := fun _ hsome => absurd rfl hsome
      mixed := fun _ hsome => absurd rfl hsome
      framed := fun hready => by cases hready }
  admitted _ hpc := hpc.elim
  balanced := ⟨∅, fun r => by simp [initial, Pc.HasIrq], rfl⟩
  single := Nat.zero_le 1
  copied := List.Sublist.refl _
  handover := .inl ⟨rfl, fun _ => rfl⟩
  unseen _ hready := by cases hready
  still _ hirq := hirq.elim
  disabled _ _ hpc := by cases hpc
  cleared _ _ _ _ := rfl

theorem Inv.delivers (h : Inv s) : Delivers s := by
  refine List.Sublist.trans ?_ h.copied
  rcases h.handover with ⟨hcopied, -⟩ | ⟨r, -, -, hcopied⟩
  · rw [hcopied]
  · rw [hcopied]
    exact List.sublist_append_left _ _

theorem balanced_iff : Balanced s ↔ Census.Counts Pc.HasIrq s.readers s.depth := Iff.rfl

theorem Balanced.irq_off (h : Balanced s) {r : ℕ} (hirq : (s.readers r).HasIrq) :
    s.depth ≠ 0 :=
  (balanced_iff.mp h).ne_zero hirq

theorem Balanced.not_hasIrq (h : Balanced s) (hdepth : s.depth = 0) (r : ℕ) :
    ¬ (s.readers r).HasIrq := fun hirq => h.irq_off hirq hdepth

/-- No two readers hold the interrupt off. -/
theorem Inv.unique (h : Inv s) {r r' : ℕ} (hr : (s.readers r).HasIrq)
    (hr' : (s.readers r').HasIrq) : r = r' :=
  (balanced_iff.mp h.balanced).unique h.single hr hr'

/-- Only the reader that holds the interrupt off can hold a packet. -/
theorem Inv.held_of_ne (h : Inv s) {r r' : ℕ} (hr : (s.readers r).HasIrq) (hne : r' ≠ r) :
    (s.readers r').held = none :=
  Pc.held_of_not_hasIrq fun hr' => hne (h.unique hr' hr)

theorem Handover.copied_eq (h : Handover s) (hnone : ∀ r, (s.readers r).held = none) :
    s.copied = s.returned := by
  rcases h with ⟨hcopied, -⟩ | ⟨r, hheld, -, -⟩
  · exact hcopied
  · rw [hnone r] at hheld
    cases hheld

theorem Inv.copied_eq (h : Inv s) (hdepth : s.depth = 0) : s.copied = s.returned :=
  h.handover.copied_eq fun r => Pc.held_of_not_hasIrq (h.balanced.not_hasIrq hdepth r)

/-- The depth moves with the number of readers that hold the interrupt off. -/
theorem step_counts {n : ℕ} (hcounts : Census.Counts Pc.HasIrq s.readers n) (hle : n ≤ s.depth)
    (h : step s e = .ok s') :
    ∃ n', Census.Counts Pc.HasIrq s'.readers n' ∧ s'.depth + n = s.depth + n' := by
  cases step_does h with
  | byte b _ => exact ⟨n, hcounts, rfl⟩
  | openOrRelease => exact ⟨n, hcounts, rfl⟩
  | goes _ hfrom hto _ => exact ⟨n, hcounts.stays (iff_of_false hto hfrom), rfl⟩
  | disableIrq hpc =>
      exact ⟨n + 1, hcounts.enters (by simp [hpc, Pc.HasIrq]) trivial, Nat.succ_add_eq_add_succ ..⟩
  | copyToUser hpc => exact ⟨n, hcounts.stays (by simp [hpc, Pc.HasIrq]), rfl⟩
  | clearReady hpc => exact ⟨n, hcounts.stays (by simp [hpc, Pc.HasIrq]), rfl⟩
  | @enableIrq r lbuf packet hpc =>
      have hirq : (s.readers r).HasIrq := by simp [hpc, Pc.HasIrq]
      have hpos := hcounts.ne_zero hirq
      refine ⟨n - 1, hcounts.leaves hirq id, ?_⟩
      change s.depth - 1 + n = s.depth + (n - 1)
      omega

theorem step_balanced (hi : Balanced s) (h : step s e = .ok s') : Balanced s' := by
  obtain ⟨n, hcounts, hdepth⟩ := step_counts (balanced_iff.mp hi) le_rfl h
  obtain rfl : n = s'.depth := by omega
  exact balanced_iff.mpr hcounts

theorem step_device (hi : s.device.Inv) (h : step s e = .ok s') : s'.device.Inv := by
  cases step_does h with
  | byte b _ => exact hi.takes (myInterrupt_takes hi.counter b)
  | openOrRelease => exact hi.clearReady
  | clearReady _ => exact hi.clearReady
  | _ => exact hi

theorem step_admitted (hi : Inv s) (h : step s e = .ok s') (r : ℕ)
    (hpc : (s'.readers r).Admitted) : s'.device.packets ≠ [] := by
  cases step_does h with
  | byte b _ => exact (myInterrupt_takes hi.device.counter b).packets_ne_nil (hi.admitted r hpc)
  | openOrRelease => exact hi.admitted r hpc
  | goes _ _ _ hready =>
      exact admitted_update (fun hto => hi.device.framed (hready hto)) hi.admitted r hpc
  | @disableIrq r' lbuf hbefore =>
      exact admitted_update (fun _ => hi.admitted r' (by rw [hbefore]; trivial)) hi.admitted r hpc
  | @copyToUser r' lbuf hbefore =>
      exact admitted_update (fun _ => hi.admitted r' (by rw [hbefore]; trivial)) hi.admitted r hpc
  | @clearReady r' lbuf packet hbefore =>
      exact admitted_update (fun _ => hi.admitted r' (by rw [hbefore]; trivial)) hi.admitted r hpc
  | @enableIrq r' lbuf packet hbefore => exact admitted_update False.elim hi.admitted r hpc

theorem step_single (hi : Inv s) (hC : DisablesInTime s e) (h : step s e = .ok s') :
    s'.depth ≤ 1 := by
  cases step_does h with
  | disableIrq hpc =>
      have hzero := (hC _ _ rfl hpc).2.2
      change s.depth + 1 ≤ 1
      omega
  | enableIrq _ => exact (Nat.sub_le _ _).trans hi.single
  | _ => exact hi.single

/-- A packet that is copied comes after all that were copied before. -/
theorem step_copied (hi : Inv s) (h : step s e = .ok s') :
    s'.copied.Sublist s'.device.packets := by
  cases step_does h with
  | byte b _ =>
      exact hi.copied.trans (myInterrupt_takes hi.device.counter b).packets_sublist
  | @copyToUser r lbuf hpc =>
      have hzero := hi.still r (by rw [hpc]; trivial)
      have hnew := hi.disabled r lbuf hpc
      have hsome := hi.admitted r (by rw [hpc]; trivial)
      obtain ⟨earlier, hsplit⟩ := List.getLast?_eq_some_iff.mp (hi.device.whole hzero hsome)
      have hearlier : s.copied.Sublist earlier := by
        have hcopied := hi.copied
        rw [hsplit] at hcopied
        exact sublist_of_append_singleton hcopied hnew
      show (s.copied ++ [s.device.packet]).Sublist s.device.packets
      rw [hsplit]
      exact hearlier.append (List.Sublist.refl _)
  | _ => exact hi.copied

theorem Handover.of_held (h : Handover s) (hcopied : s'.copied = s.copied)
    (hreturned : s'.returned = s.returned) (hpacket : s'.device.packet = s.device.packet)
    (hheld : ∀ r, (s'.readers r).held = (s.readers r).held) : Handover s' := by
  simpa only [Handover, hcopied, hreturned, hpacket, hheld] using h

theorem step_handover (hi : Inv s) (h : step s e = .ok s') : Handover s' := by
  cases step_does h with
  | byte b hdepth =>
      exact .inl ⟨hi.copied_eq hdepth, fun r =>
        Pc.held_of_not_hasIrq (hi.balanced.not_hasIrq hdepth r)⟩
  | openOrRelease => exact hi.handover.of_held rfl rfl rfl fun _ => rfl
  | goes _ hfrom hto _ =>
      refine hi.handover.of_held rfl rfl rfl (congrFun (Census.comp_update_of_eq Pc.held ?_))
      rw [Pc.held_of_not_hasIrq hto, Pc.held_of_not_hasIrq hfrom]
  | @disableIrq r lbuf hpc =>
      refine hi.handover.of_held rfl rfl rfl (congrFun (Census.comp_update_of_eq Pc.held ?_))
      rw [hpc]
      rfl
  | @copyToUser r lbuf hpc =>
      have hothers : ∀ r', r' ≠ r → (s.readers r').held = none := fun r' hne =>
        hi.held_of_ne (by simp [hpc, Pc.HasIrq]) hne
      have hcopied : s.copied = s.returned := by
        apply hi.handover.copied_eq
        intro r'
        by_cases heq : r' = r
        · rw [heq, hpc]
          rfl
        · exact hothers r' heq
      refine .inr ⟨r, ?_, fun r' hne => ?_, ?_⟩
      · simp [goto, Pc.held]
      · simp [goto, hne, hothers r' hne]
      · simp [goto, hcopied]
  | @clearReady r lbuf packet hpc =>
      refine hi.handover.of_held rfl rfl rfl (congrFun (Census.comp_update_of_eq Pc.held ?_))
      rw [hpc]
      rfl
  | @enableIrq r lbuf packet hpc =>
      have hpacket : (s.readers r).held = some packet := by rw [hpc]; rfl
      rcases hi.handover with ⟨-, hnone⟩ | ⟨r', hheld, hothers, hcopied⟩
      · rw [hnone r] at hpacket
        cases hpacket
      · obtain rfl : r = r' := by
          by_contra hne
          rw [hothers r hne] at hpacket
          cases hpacket
        obtain rfl : packet = s.device.packet := by
          rw [hpacket] at hheld
          exact Option.some.inj hheld
        refine .inl ⟨hcopied, fun r' => ?_⟩
        by_cases heq : r' = r
        · simp [heq, leave, Pc.held]
        · simp [leave, heq, hothers]

/-- The packet of a byte that completes one is newer than all that were copied. -/
theorem Takes.unseen {d d' : Device} {b : UInt8} (htakes : Takes d b d') (hd : d.Inv)
    {copied : List Packet} (hcopied : copied.Sublist d.packets)
    (hold : d.ready = true → ∀ p, d.packets.getLast? = some p → p ∉ copied)
    (hready : d'.ready = true) (p : Packet) (hp : d'.packets.getLast? = some p) : p ∉ copied := by
  cases htakes with
  | ignored _ => exact hold hready p hp
  | stored _ => exact hold hready p hp
  | framed _ =>
      rw [List.getLast?_concat, Option.some.injEq] at hp
      subst hp
      intro hmem
      exact lt_irrefl _ (hd.older _ (hcopied.subset hmem))

theorem step_unseen (hi : Inv s) (h : step s e = .ok s') :
    s'.depth = 0 → s'.device.ready = true →
      ∀ p, s'.device.packets.getLast? = some p → p ∉ s'.copied := by
  cases step_does h with
  | byte b hdepth =>
      intro _
      exact Takes.unseen (myInterrupt_takes hi.device.counter b) hi.device hi.copied
        (hi.unseen hdepth)
  | openOrRelease =>
      intro _ hready
      cases hready
  | goes _ _ _ _ => exact hi.unseen
  | disableIrq _ =>
      intro hdepth
      exact absurd hdepth (Nat.succ_ne_zero _)
  | copyToUser hpc =>
      intro hdepth
      exact absurd hdepth (hi.balanced.irq_off (by rw [hpc]; trivial))
  | clearReady _ =>
      intro _ hready
      cases hready
  | enableIrq hpc =>
      intro _ hready
      have hclear := hi.cleared _ _ _ hpc
      rw [show s.device.ready = true from hready] at hclear
      cases hclear

/-- With the interrupt off for `r` alone, what is asked of the readers at some place in their
`disable_irq` section is asked of `r`. -/
theorem Inv.only (h : Inv s) {r r' : ℕ} (hr : (s.readers r).HasIrq) {pc pc' : Pc}
    (hpc : Function.update s.readers r pc r' = pc') (hirq : pc'.HasIrq) : pc = pc' := by
  by_cases heq : r' = r
  · rw [heq, Function.update_self] at hpc
    exact hpc
  · rw [Function.update_of_ne heq] at hpc
    exact absurd (h.unique (by rw [hpc]; exact hirq) hr) heq

theorem step_still (hi : Inv s) (hC : DisablesInTime s e) (h : step s e = .ok s') :
    ∀ r, (s'.readers r).HasIrq → s'.device.numByteIn = 0 := by
  intro r' hirq
  cases step_does h with
  | byte b hdepth => exact absurd hirq (hi.balanced.not_hasIrq hdepth r')
  | openOrRelease => exact hi.still r' hirq
  | @goes _ r pc _ hfrom hto _ =>
      by_cases heq : r' = r
      · simp only [heq, Function.update_self] at hirq
        exact absurd hirq hto
      · simp only [Function.update_of_ne heq] at hirq
        exact hi.still r' hirq
  | disableIrq hpc => exact (hC _ _ rfl hpc).2.1
  | @copyToUser r lbuf hpc => exact hi.still r (by rw [hpc]; trivial)
  | @clearReady r lbuf packet hpc => exact hi.still r (by rw [hpc]; trivial)
  | @enableIrq r lbuf packet hpc => exact hi.still r (by rw [hpc]; trivial)

theorem step_disabled (hi : Inv s) (hC : DisablesInTime s e) (h : step s e = .ok s') :
    ∀ r lbuf, s'.readers r = .disabled lbuf → s'.device.packet ∉ s'.copied := by
  intro r' lbuf' hpc'
  have hirq' : (Pc.disabled lbuf').HasIrq := trivial
  cases step_does h with
  | byte b hdepth => exact absurd (hpc' ▸ hirq') (hi.balanced.not_hasIrq hdepth r')
  | openOrRelease => exact hi.disabled r' lbuf' hpc'
  | @goes _ r pc _ hfrom hto _ =>
      by_cases heq : r' = r
      · rw [heq] at hpc'
        simp only [Function.update_self] at hpc'
        exact absurd (hpc' ▸ hirq') hto
      · simp only [Function.update_of_ne heq] at hpc'
        exact hi.disabled r' lbuf' hpc'
  | @disableIrq r lbuf hpc =>
      obtain ⟨hready, hzero, hdepth⟩ := hC r lbuf rfl hpc
      have hsome := hi.device.framed hready
      exact hi.unseen hdepth hready _ (hi.device.whole hzero hsome)
  | copyToUser hpc => cases hi.only (by rw [hpc]; trivial) hpc' hirq'
  | clearReady hpc => cases hi.only (by rw [hpc]; trivial) hpc' hirq'
  | enableIrq hpc => cases hi.only (by rw [hpc]; trivial) hpc' hirq'

theorem step_cleared (hi : Inv s) (hC : DisablesInTime s e) (h : step s e = .ok s') :
    ∀ r lbuf packet, s'.readers r = .cleared lbuf packet → s'.device.ready = false := by
  intro r' lbuf' packet' hpc'
  have hirq' : (Pc.cleared lbuf' packet').HasIrq := trivial
  cases step_does h with
  | byte b hdepth => exact absurd (hpc' ▸ hirq') (hi.balanced.not_hasIrq hdepth r')
  | openOrRelease => rfl
  | @goes _ r pc _ hfrom hto _ =>
      by_cases heq : r' = r
      · rw [heq] at hpc'
        simp only [Function.update_self] at hpc'
        exact absurd (hpc' ▸ hirq') hto
      · simp only [Function.update_of_ne heq] at hpc'
        exact hi.cleared r' lbuf' packet' hpc'
  | @disableIrq r lbuf hpc =>
      have hdepth := (hC r lbuf rfl hpc).2.2
      by_cases heq : r' = r
      · rw [heq] at hpc'
        simp [goto] at hpc'
      · simp only [goto, Function.update_of_ne heq] at hpc'
        exact absurd (hpc' ▸ hirq') (hi.balanced.not_hasIrq hdepth r')
  | copyToUser hpc => cases hi.only (by rw [hpc]; trivial) hpc' hirq'
  | clearReady _ => rfl
  | enableIrq hpc => cases hi.only (by rw [hpc]; trivial) hpc' hirq'

theorem step_inv (hi : Inv s) (hC : DisablesInTime s e) (h : step s e = .ok s') : Inv s' where
  device := step_device hi.device h
  admitted := step_admitted hi h
  balanced := step_balanced hi.balanced h
  single := step_single hi hC h
  copied := step_copied hi h
  handover := step_handover hi h
  unseen := step_unseen hi h
  still := step_still hi hC h
  disabled := step_disabled hi hC h
  cleared := step_cleared hi hC h

/-! ## Reads that come too late -/

/-- While nobody opens or releases the file, the flag goes down only behind a copy. -/
def Unready (s : State) : Prop :=
  s.device.ready = false → ∀ p, s.device.packets.getLast? = some p → p ∈ s.copied

theorem unready_initial : Unready initial := fun _ _ hp => nomatch hp

theorem Takes.unready {d d' : Device} {b : UInt8} (htakes : Takes d b d') {copied : List Packet}
    (hold : d.ready = false → ∀ p, d.packets.getLast? = some p → p ∈ copied)
    (hready : d'.ready = false) (p : Packet) (hp : d'.packets.getLast? = some p) : p ∈ copied := by
  cases htakes with
  | ignored _ => exact hold hready p hp
  | stored _ => exact hold hready p hp
  | framed _ => cases hready

theorem step_unready (hi : Inv s) (hs : Unready s) (he : e ≠ .openOrRelease)
    (h : step s e = .ok s') : Unready s' := by
  cases step_does h with
  | byte b _ => exact Takes.unready (myInterrupt_takes hi.device.counter b) hs
  | openOrRelease => exact absurd rfl he
  | goes _ _ _ _ => exact hs
  | disableIrq _ => exact hs
  | copyToUser _ => exact fun hready p hp => List.mem_append_left _ (hs hready p hp)
  | @clearReady r lbuf packet hpc =>
      intro _ p hp
      have hheld : (s.readers r).held = some packet := by rw [hpc]; rfl
      rcases hi.handover with ⟨-, hnone⟩ | ⟨r', hheld', -, hcopied⟩
      · rw [hnone r] at hheld
        cases hheld
      · have hzero := hi.still r (Pc.hasIrq_of_held hheld)
        have hlast := hi.device.whole hzero (List.ne_nil_of_mem (List.mem_of_getLast? hp))
        obtain rfl : p = s.device.packet := Option.some.inj (hp.symm.trans hlast)
        simp [goto, hcopied]
  | enableIrq _ => exact hs

theorem Inv.held_eq (h : Inv s) {r : ℕ} {p : Packet} (hheld : (s.readers r).held = some p) :
    p = s.device.packet := by
  rcases h.handover with ⟨-, hnone⟩ | ⟨r', hheld', hothers, -⟩
  · rw [hnone r] at hheld
    cases hheld
  · by_cases heq : r = r'
    · rw [heq, hheld'] at hheld
      exact (Option.some.inj hheld).symm
    · rw [hothers r heq] at hheld
      cases hheld

/-- A reader behind its `disable_irq` can return what is in `my_state.bytes`, whatever the others
do. -/
theorem exists_return {r : ℕ} (hirq : (s.readers r).HasIrq)
    (hheld : ∀ p, (s.readers r).held = some p → p = s.device.packet) :
    ∃ fs s', Runs.exec step s fs = .ok s' ∧ s'.returned = s.returned ++ [s.device.packet] ∧
      s'.device.packet = s.device.packet ∧ s'.device.packets = s.device.packets ∧
      ∀ r', r' ≠ r → s'.readers r' = s.readers r' := by
  cases hpc : s.readers r with
  | disabled lbuf =>
      refine ⟨[.copyToUser r, .clearReady r, .enableIrq r], { s.leave r lbuf with
        device := { s.device with ready := false }
        depth := s.depth - 1
        copied := s.copied ++ [s.device.packet]
        returned := s.returned ++ [s.device.packet] }, ?_, rfl, rfl, rfl, ?_⟩
      · simp [step, hpc, goto, leave]
      · exact fun r' hne => Function.update_of_ne hne ..
  | copied lbuf packet =>
      obtain rfl := hheld packet (by rw [hpc]; rfl)
      refine ⟨[.clearReady r, .enableIrq r], { s.leave r lbuf with
        device := { s.device with ready := false }
        depth := s.depth - 1
        returned := s.returned ++ [s.device.packet] }, ?_, rfl, rfl, rfl, ?_⟩
      · simp [step, hpc, goto, leave]
      · exact fun r' hne => Function.update_of_ne hne ..
  | cleared lbuf packet =>
      obtain rfl := hheld packet (by rw [hpc]; rfl)
      refine ⟨[.enableIrq r], { s.leave r lbuf with
        depth := s.depth - 1
        returned := s.returned ++ [s.device.packet] }, ?_, rfl, rfl, rfl, ?_⟩
      · simp [step, hpc]
      · exact fun r' hne => Function.update_of_ne hne ..
  | _ =>
      rw [hpc] at hirq
      exact hirq.elim

/-- A reader that switches the interrupt off too late can go on to return a packet that is half
assembled, or one that is returned twice. -/
theorem late_disable_breaks (hi : Inv s) (hs : Unready s) (hC : ¬ DisablesInTime s e) :
    ∃ fs, ¬ Runs.Always step Delivers s (e :: fs) := by
  simp only [DisablesInTime, not_forall] at hC
  obtain ⟨r, lbuf, rfl, hpc, hlate⟩ := hC
  have hsome := hi.admitted r (by rw [hpc]; trivial)
  have hstep : step s (.disableIrq r) = .ok { s.goto r (.disabled lbuf) with
      depth := s.depth + 1 } := by
    simp [step, hpc]
  obtain ⟨fs, t, hreturn, hreturned, hpacket, hpackets, hothers⟩ :=
    exists_return (s := { s.goto r (.disabled lbuf) with depth := s.depth + 1 }) (r := r)
      (by simp [goto, Pc.HasIrq]) (by simp [goto, Pc.held])
  have hrun : Runs.exec step s (.disableIrq r :: fs) = .ok t := by
    rw [Runs.exec_cons, hstep]
    exact hreturn
  simp only [goto] at hreturned hpacket hpackets hothers
  by_cases hzero : s.device.numByteIn = 0
  · by_cases hdepth : s.depth = 0
    · -- the flag is down, so the packet has been copied, and nobody has it but who returned it
      have hready : s.device.ready = false := by simpa [hzero, hdepth] using hlate
      have hagain : s.device.packet ∈ s.returned := by
        rw [← hi.copied_eq hdepth]
        exact hs hready _ (hi.device.whole hzero hsome)
      refine ⟨fs, Runs.not_always_of_exec hrun fun hdelivers => ?_⟩
      rw [Delivers, hreturned, hpackets] at hdelivers
      exact not_nodup_append_singleton hagain (hdelivers.nodup hi.device.nodup)
    · -- another reader is behind its `disable_irq`, and both return what is there
      obtain ⟨r', hirq'⟩ := (balanced_iff.mp hi.balanced).exists_of_ne_zero hdepth
      have hne : r' ≠ r := by
        rintro rfl
        rw [hpc] at hirq'
        exact hirq'
      have hsame : t.readers r' = s.readers r' := by
        rw [hothers r' hne, Function.update_of_ne hne]
      obtain ⟨gs, t', hreturn', hreturned', -, hpackets', -⟩ := exists_return (s := t) (r := r')
        (by rwa [hsame]) (fun p hp => by rw [hpacket]; exact hi.held_eq (hsame ▸ hp))
      have hrun' : Runs.exec step s (.disableIrq r :: fs ++ gs) = .ok t' := by
        rw [Runs.exec_append, hrun]
        exact hreturn'
      refine ⟨fs ++ gs, Runs.not_always_of_exec hrun' fun hdelivers => ?_⟩
      rw [Delivers, hreturned', hpackets', hreturned, hpackets, hpacket] at hdelivers
      exact not_nodup_append_singleton (by simp) (hdelivers.nodup hi.device.nodup)
  · refine ⟨fs, Runs.not_always_of_exec hrun fun hdelivers => ?_⟩
    rw [Delivers, hreturned, hpackets] at hdelivers
    exact hi.device.packet_not_mem (Nat.pos_of_ne_zero hzero) hsome
      (hdelivers.subset (by simp [Device.packet]))

/-- Reads deliver the framed packets in order and at most once in every run in which each reader
switches the interrupt off in time. A run in which nobody opens or releases the file, and one
does not, breaks at the first such `disable_irq`. -/
theorem delivers_or_breaks (es : List Event) :
    (Runs.Along step DisablesInTime initial es → Runs.Always step Delivers initial es) ∧
      (.openOrRelease ∉ es → ¬ Runs.Along step DisablesInTime initial es →
        Runs.Breaks step DisablesInTime Delivers initial es) := by
  constructor
  · exact Runs.always_of_along (I := Inv) (fun _ hi => hi.delivers)
      (fun _ _ _ hi hC h => step_inv hi hC h) inv_initial
  · intro hclosed
    apply Runs.breaks_of_not_along (I := fun s => Inv s ∧ Unready s)
      (A := fun e => e ≠ .openOrRelease)
    · exact fun s hs => hs.1.delivers
    · exact fun s e s' hs he hC h => ⟨step_inv hs.1 hC h, step_unready hs.1 hs.2 he h⟩
    · exact fun s e hs _ hC => late_disable_breaks hs.1 hs.2 hC
    · exact ⟨inv_initial, unready_initial⟩
    · exact fun e he heq => hclosed (heq ▸ he)

/-- The first byte of the next packet comes between the test of the flag and `disable_irq`. -/
def halfAssembled : List Event :=
  [.call 0 3 false, .byte 0x40, .byte 1, .byte 2, .test 0, .byte 0x43, .disableIrq 0,
    .copyToUser 0, .clearReady 0, .enableIrq 0]

/-- Two readers pass the test of one flag. -/
def passedTwice : List Event :=
  [.call 0 3 false, .call 1 3 false, .byte 0x40, .byte 1, .byte 2, .test 0, .test 1,
    .disableIrq 0, .copyToUser 0, .clearReady 0, .enableIrq 0,
    .disableIrq 1, .copyToUser 1, .clearReady 1, .enableIrq 1]

theorem not_delivers_of_values {returned packets : List (List UInt8)}
    (hreturned : s.returned.map Packet.values = returned)
    (hpackets : s.device.packets.map Packet.values = packets)
    (h : ¬ returned.Sublist packets) : ¬ Delivers s := by
  intro hdelivers
  rw [← hreturned, ← hpackets] at h
  exact h (hdelivers.map _)

/-- A read returns bytes of two packets, and two reads return one packet. -/
theorem races_break_delivery :
    (∃ s, Runs.exec step initial halfAssembled = .ok s ∧
        s.returned.map Packet.values = [[0x43, 1, 2]] ∧
        s.device.packets.map Packet.values = [[0x40, 1, 2]] ∧ ¬ Delivers s) ∧
      ∃ s, Runs.exec step initial passedTwice = .ok s ∧
        s.returned.map Packet.values = [[0x40, 1, 2], [0x40, 1, 2]] ∧
        s.device.packets.map Packet.values = [[0x40, 1, 2]] ∧ ¬ Delivers s := by
  constructor
  · exact ⟨_, rfl, rfl, rfl, not_delivers_of_values rfl rfl (by decide)⟩
  · exact ⟨_, rfl, rfl, rfl, not_delivers_of_values rfl rfl (by decide)⟩

end State

end LddSamples.Hardware.FullMouse
