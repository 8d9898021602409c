import LddSamples.Library.Runs

/-!
# lab1_pci: references that the search drops twice

`my_init` goes through the devices with `for_each_pci_dev`. `pci_get_device` takes a
reference to the device that it returns and drops the one to the device it comes from; the
body of the loop drops that one as well.
-/

namespace LddSamples.Pci.DeviceFinder

open Outcome

/-- A step that cannot be taken, or that uses a device after its last reference has gone. -/
inductive Stop
  | disabled
  | released
  deriving DecidableEq

variable {ι : Type} [DecidableEq ι]

def pciDevGet (refs : ι → ℕ) (p : ι) : Except Stop (ι → ℕ) := do
  require .released (0 < refs p)
  .ok (Function.update refs p (refs p + 1))

def pciDevPut (refs : ι → ℕ) (p : ι) : Except Stop (ι → ℕ) := do
  require .released (0 < refs p)
  .ok (Function.update refs p (refs p - 1))

/-- `pci_get_device(PCI_ANY_ID, PCI_ANY_ID, from)`, where `rest` are the devices that come
after `from`: the first of them is returned. -/
def pciGetDevice (refs : ι → ℕ) : Option ι → List ι → Except Stop (ι → ℕ)
  | none, [] => .ok refs
  | none, q :: _ => pciDevGet refs q
  | some p, [] => pciDevPut refs p
  | some p, q :: _ => do
      require .released (0 < refs p)
      let refs ← pciDevGet refs q
      pciDevPut refs p

/-- The loop of `my_init`, with the devices that are still to come. -/
def forEachPciDev (refs : ι → ℕ) (pdev : Option ι) : List ι → Except Stop (ι → ℕ)
  | [] => pciGetDevice refs pdev []
  | q :: rest => do
      let refs ← pciGetDevice refs pdev (q :: rest)
      let refs ← pciDevPut refs q
      forEachPciDev refs (some q) rest

/-- The devices, in the order in which the search finds them. -/
structure Bus (ι : Type) where
  devs : List ι
  nodup : devs.Nodup

def myInit (bus : Bus ι) (refs : ι → ℕ) : Except Stop (ι → ℕ) := forEachPciDev refs none bus.devs

/-! ## One load -/

/-- One reference less to each of the devices. -/
def lowered (devs : List ι) (refs : ι → ℕ) (p : ι) : ℕ := if p ∈ devs then refs p - 1 else refs p

/-- What a search that has come to some devices does, unless one of them is released. -/
def lower (devs : List ι) (refs : ι → ℕ) : Except Stop (ι → ℕ) :=
  if ∀ p ∈ devs, 0 < refs p then .ok (lowered devs refs) else .error .released

variable {bus : Bus ι} {rest : List ι} {refs : ι → ℕ} {p q : ι}

theorem pciDevPut_of_pos (h : 0 < refs p) :
    pciDevPut refs p = .ok (Function.update refs p (refs p - 1)) := by
  rw [pciDevPut, require_of h, ok_bind]

theorem pciDevGet_of_pos (h : 0 < refs p) :
    pciDevGet refs p = .ok (Function.update refs p (refs p + 1)) := by
  rw [pciDevGet, require_of h, ok_bind]

theorem require_of_not {P : Prop} [Decidable P] (h : ¬ P) :
    require Stop.released P = .error .released := if_neg h

/-- A reference that is taken and given back. -/
theorem get_put (h : 0 < refs q) : (do pciDevPut (← pciDevGet refs q) q) = .ok refs := by
  rw [pciDevGet_of_pos h, ok_bind, pciDevPut_of_pos (by simp), Function.update_self,
    Function.update_idem, Nat.add_sub_cancel, Function.update_eq_self]

/-- A round of the loop gives back the reference to the new device, and drops the one to the
device before it a second time. -/
theorem round_eq (hne : q ≠ p) (hp : 0 < refs p) (hq : 0 < refs q) :
    (do pciDevPut (← pciGetDevice refs (some p) (q :: rest)) q) =
      .ok (Function.update refs p (refs p - 1)) := by
  have hput : pciDevPut (Function.update refs q (refs q + 1)) p =
      .ok (Function.update (Function.update refs q (refs q + 1)) p (refs p - 1)) := by
    rw [pciDevPut_of_pos (by rwa [Function.update_of_ne hne.symm]), Function.update_of_ne hne.symm]
  have hcomm : Function.update (Function.update refs q (refs q + 1)) p (refs p - 1) =
      Function.update (Function.update refs p (refs p - 1)) q
        (Function.update refs p (refs p - 1) q + 1) := by
    rw [Function.update_comm hne, Function.update_of_ne hne]
  have hleft : 0 < Function.update refs p (refs p - 1) q := by
    rwa [Function.update_of_ne hne]
  have hround := get_put hleft
  rw [pciDevGet_of_pos hleft, ok_bind] at hround
  rw [pciGetDevice, require_of hp, ok_bind, pciDevGet_of_pos hq, ok_bind, hput, ok_bind, hcomm]
  exact hround

theorem lowered_cons (hp : p ∉ rest) :
    lowered rest (Function.update refs p (refs p - 1)) = lowered (p :: rest) refs := by
  funext r
  by_cases hr : r = p
  · subst hr
    simp [lowered, hp]
  · simp [lowered, hr]

theorem pos_update_iff (hp : p ∉ rest) {n : ℕ} :
    (∀ r ∈ rest, 0 < Function.update refs p n r) ↔ ∀ r ∈ rest, 0 < refs r := by
  refine forall₂_congr fun r hr => ?_
  have hne : r ≠ p := fun heq => hp (heq ▸ hr)
  rw [Function.update_of_ne hne]

/-- The search from a device on, by induction on the devices that come after it. -/
theorem forEachPciDev_eq (hnodup : (p :: rest).Nodup) :
    forEachPciDev refs (some p) rest = lower (p :: rest) refs := by
  induction rest generalizing p refs with
  | nil =>
      rw [forEachPciDev, pciGetDevice, lower]
      by_cases hp : 0 < refs p
      · rw [pciDevPut_of_pos hp, if_pos (by simpa using hp), ← lowered_cons List.not_mem_nil]
        rfl
      · rw [pciDevPut, require_of_not hp, if_neg (by simpa using hp)]
        rfl
  | cons q rest ih =>
      obtain ⟨hnew, hrest⟩ := List.nodup_cons.mp hnodup
      have hne : q ≠ p := fun heq => hnew (heq ▸ List.mem_cons_self)
      by_cases hp : 0 < refs p
      · by_cases hq : 0 < refs q
        · have hround : (do pciDevPut (← pciGetDevice refs (some p) (q :: rest)) q) =
              .ok (Function.update refs p (refs p - 1)) := round_eq hne hp hq
          rw [forEachPciDev, ← bind_assoc, hround, ok_bind, ih hrest, lower, lower,
            lowered_cons hnew]
          have hall : (∀ r ∈ p :: q :: rest, 0 < refs r) ↔ ∀ r ∈ q :: rest, 0 < refs r :=
            List.forall_mem_cons.trans (and_iff_right hp)
          exact if_congr ((pos_update_iff hnew).trans hall.symm) rfl rfl
        · rw [forEachPciDev, pciGetDevice, require_of hp, ok_bind, pciDevGet, require_of_not hq,
            lower, if_neg (by simp [hq])]
          rfl
      · rw [forEachPciDev, pciGetDevice, require_of_not hp, lower, if_neg (by simp [hp])]
        rfl

theorem myInit_eq (bus : Bus ι) (refs : ι → ℕ) : myInit bus refs = lower bus.devs refs := by
  obtain ⟨devs, hnodup⟩ := bus
  cases devs with
  | nil => simp [myInit, forEachPciDev, pciGetDevice, lower, funext_iff, lowered]
  | cons q rest =>
      by_cases hq : 0 < refs q
      · rw [myInit, forEachPciDev, pciGetDevice, ← bind_assoc, get_put hq, ok_bind,
          forEachPciDev_eq hnodup]
      · rw [myInit, forEachPciDev, pciGetDevice, pciDevGet, require_of_not hq, lower,
          if_neg (by simp [hq])]
        rfl

/-! ## Loads among other users of the devices -/

/-- `refs` are the counters of the devices, and `holders` how many do hold a reference, the
bus among them. -/
structure World (ι : Type) where
  refs : ι → ℕ
  holders : ι → ℕ
  loaded : Bool
  loads : ℕ

inductive Event (ι : Type)
  | insmod
  | rmmod
  | hold (p : ι)
  | drop (p : ι)

namespace World

omit [DecidableEq ι] in
def initial (refs : ι → ℕ) : World ι := ⟨refs, refs, false, 0⟩

def step (bus : Bus ι) (w : World ι) : Event ι → Except Stop (World ι)
  | .insmod =>
      match w.loaded with
      | false => do
          let refs ← myInit bus w.refs
          .ok { w with refs := refs, loaded := true, loads := w.loads + 1 }
      | true => .error .disabled
  | .rmmod =>
      match w.loaded with
      | false => .error .disabled
      | true => .ok { w with loaded := false }
  | .hold p => do
      let refs ← pciDevGet w.refs p
      .ok { w with refs := refs, holders := Function.update w.holders p (w.holders p + 1) }
  | .drop p => do
      require .disabled (0 < w.holders p)
      let refs ← pciDevPut w.refs p
      .ok { w with refs := refs, holders := Function.update w.holders p (w.holders p - 1) }

/-- Each load so far has taken a reference from every device. -/
def Short (bus : Bus ι) (w : World ι) : Prop :=
  ∀ p ∈ bus.devs, w.refs p + w.loads = w.holders p

/-- The next load uses a released device exactly where the loads so far have taken all the
references to one. -/
def FailsNext (bus : Bus ι) (w : World ι) : Prop :=
  step bus w .insmod = .error .released ↔
    w.loaded = false ∧ ∃ p ∈ bus.devs, w.holders p ≤ w.loads

variable {w w' : World ι} {e : Event ι}

omit [DecidableEq ι] in
theorem initial_short (bus : Bus ι) (refs : ι → ℕ) : Short bus (initial refs) := fun _ _ => rfl

theorem insmod_eq (hloaded : w.loaded = false) :
    step bus w .insmod = if ∀ p ∈ bus.devs, 0 < w.refs p then
      .ok { w with refs := lowered bus.devs w.refs, loaded := true, loads := w.loads + 1 }
    else .error .released := by
  simp only [step, hloaded, myInit_eq, lower]
  split <;> rfl

theorem Short.failsNext (h : Short bus w) : FailsNext bus w := by
  have hpos : (¬ ∀ p ∈ bus.devs, 0 < w.refs p) ↔ ∃ p ∈ bus.devs, w.holders p ≤ w.loads := by
    push Not
    refine exists_congr fun p => and_congr_right fun hp => ?_
    have hshort := h p hp
    omega
  cases hloaded : w.loaded with
  | false =>
      rw [FailsNext, insmod_eq hloaded, ← hpos, hloaded]
      split
      · next hall => exact iff_of_false nofun fun hnot => hnot.2 hall
      · next hnot => exact iff_of_true rfl ⟨rfl, hnot⟩
  | true => simp [FailsNext, step, hloaded]

/-- A step of another user keeps its counter and its holders apart as they were. -/
theorem Short.use (h : Short bus w) {m n : ℕ} (hmn : p ∈ bus.devs → m + w.loads = n) :
    Short bus { w with
      refs := Function.update w.refs p m
      holders := Function.update w.holders p n } := by
  intro r hr
  by_cases heq : r = p
  · subst heq
    simpa using hmn hr
  · simpa [Function.update_of_ne heq] using h r hr

theorem step_short (hw : Short bus w) (h : step bus w e = .ok w') : Short bus w' := by
  cases e with
  | insmod =>
      cases hloaded : w.loaded with
      | false =>
          rw [insmod_eq hloaded] at h
          split at h
          · next hall =>
              cases h
              intro p hp
              have hshort := hw p hp
              have hpos := hall p hp
              simp only [lowered, if_pos hp]
              omega
          · cases h
      | true => simp [step, hloaded] at h
  | rmmod =>
      simp only [step] at h
      split at h
      · cases h
      · cases h
        exact hw
  | hold p =>
      simp only [step, pciDevGet, bind_eq_ok, require_eq_ok, Except.ok.injEq] at h
      obtain ⟨_, ⟨_, hpos, rfl⟩, rfl⟩ := h
      refine hw.use fun hp => ?_
      have hshort := hw p hp
      omega
  | drop p =>
      simp only [step, pciDevPut, bind_eq_ok, require_eq_ok, Except.ok.injEq] at h
      obtain ⟨_, hheld, _, ⟨_, hpos, rfl⟩, rfl⟩ := h
      refine hw.use fun hp => ?_
      have hshort := hw p hp
      omega

/-- In every run of loads and unloads among other users of the devices, the counter of each
device falls behind its holders by one with each load; and the next load fails as soon as
the counter of one has come to nothing. -/
theorem loads_take_references (bus : Bus ι) (refs : ι → ℕ) (es : List (Event ι)) :
    Runs.Always (step bus) (fun w => Short bus w ∧ FailsNext bus w) (initial refs) es :=
  Runs.always_of_inv (fun _ hw => ⟨hw, hw.failsNext⟩) (fun _ _ _ hw h => step_short hw h)
    (initial_short bus refs) es

/-- A device with two holders is released by the second load and used by the third. -/
example : Runs.exec (step ⟨[0, 1], by decide⟩) (initial fun _ => 2)
    [.insmod, .rmmod, .insmod, .rmmod, .insmod] = .error (.released : Stop) := by
  rfl

end World

end LddSamples.Pci.DeviceFinder
