import LddSamples.Ioctl.Signal

/-!
# lab3_ioctl_signal: ioctls that overlap

The driver takes no lock, so another task may run between any two accesses to `sig_pid`,
`sig_tsk` and `sig_tosend`, and between the reading of the arguments of `send_sig` and the
call. A task does not exit in the middle of its own ioctl.
-/

namespace LddSamples.Ioctl.Signal

open Kernel CArith

/-- A task pointer, or `NULL`, with the number that it was stored for: the one that
`MYIOC_SETPID` looked up, or the number of the sender that stored itself. -/
structure Pointer where
  number : ℤ
  task : Option ℕ
  deriving DecidableEq

/-- The next access that `mycdrv_unlocked_ioctl` makes to the driver's variables. -/
inductive Pc
  | idle
  | setPid (arg : ℤ)
  | find
  | keep (found : Pointer)
  | setSig (arg : ℤ)
  | test
  | take
  | name
  | readSig
  | readTsk (sig : ℤ)
  | send (sig : ℤ) (tsk : Pointer)
  deriving DecidableEq

/-- The `switch`; the default case returns. -/
def Pc.entry (cmd : ℕ) (arg : ℤ) : Pc :=
  if cmd = MYIOC_SETPID then .setPid arg
  else if cmd = MYIOC_SETSIG then .setSig arg
  else if cmd = MYIOC_SENDSIG then .test
  else .idle

/-- `number` is the one that `sig_tsk` was stored for; `oops` says that `send_sig` has been
called with `NULL`. -/
structure World extends State where
  number : ℤ
  oops : Bool
  pc : ℕ → Pc

namespace World

/-- `step` is the next access by the task that has the number `pid`. -/
inductive Event
  | fork (pid : ℤ)
  | exit (pid : ℤ)
  | ioctl (pid : ℤ) (cmd : ℕ) (arg : ℤ)
  | step (pid : ℤ)

/-- `n` accesses by the task that has the number `pid`. -/
def Event.steps (pid : ℤ) (n : ℕ) : List Event := List.replicate n (.step pid)

def initial : World := { State.initial with number := 0, oops := false, pc := fun _ => .idle }

/-- `send_sig(sig_tosend, sig_tsk, 0)`. -/
def sendSig (w : World) (current : ℕ) (sig : ℤ) : Option ℕ → World
  | none => { w with oops := true }
  | some tsk => { w with
      sends := w.sends ++ [⟨tsk, w.procs.taskPid tsk, sig, current, w.history.asked,
        w.history.signal⟩] }

/-- What the next access of `current`, whose number is `pid`, does to the variables, and the
one after it. -/
def access (w : World) (current : ℕ) (pid : ℤ) : Pc → World × Pc
  | .idle => (w, .idle)
  | .setPid arg => ({ w with
      driver := { w.driver with sigPid := toInt32 arg }
      history := { w.history with asked := some (toInt32 arg) } }, .find)
  | .find => (w, .keep ⟨w.driver.sigPid, w.procs.pidTask w.driver.sigPid⟩)
  | .keep found => ({ w with
      driver := { w.driver with sigTsk := found.task }
      number := found.number }, .idle)
  | .setSig arg => ({ w with
      driver := { w.driver with sigTosend := toInt32 arg }
      history := { w.history with signal := some (toInt32 arg) } }, .idle)
  | .test => (w, if w.driver.sigTsk.isNone then .take else .readSig)
  | .take => ({ w with driver := { w.driver with sigTsk := some current }, number := pid }, .name)
  | .name => ({ w with driver := { w.driver with sigPid := pid } }, .readSig)
  | .readSig => (w, .readTsk w.driver.sigTosend)
  | .readTsk sig => (w, .send sig ⟨w.number, w.driver.sigTsk⟩)
  | .send sig tsk => (w.sendSig current sig tsk.task, .idle)

def setPc (w : World) (tsk : ℕ) (pc : Pc) : World :=
  { w with pc := Function.update w.pc tsk pc }

def advance (w : World) (current : ℕ) (pid : ℤ) : World :=
  let r := w.access current pid (w.pc current)
  r.1.setPc current r.2

def step (w : World) : Event → Except Unit World
  | .fork pid =>
      if h : 0 < pid ∧ w.procs.pidTask pid = none then
        .ok { w with procs := w.procs.fork pid h.2 }
      else .error ()
  | .exit pid =>
      match h : w.procs.pidTask pid with
      | none => .error ()
      | some tsk =>
          if w.pc tsk = .idle then .ok { w with procs := w.procs.exit pid tsk h } else .error ()
  | .ioctl pid cmd arg =>
      match w.procs.pidTask pid with
      | none => .error ()
      | some current =>
          if w.pc current = .idle then .ok (w.setPc current (.entry cmd arg)) else .error ()
  | .step pid =>
      match w.procs.pidTask pid with
      | none => .error ()
      | some current =>
          if w.pc current = .idle then .error () else .ok (w.advance current pid)

/-- Every signal that was sent went where it should, and none to `NULL`. -/
def Right (w : World) : Prop := w.oops = false ∧ ∀ r ∈ w.sends, r.Right

/-- When `send_sig` is called with the task and the signal that were read before: there is a
task, which has not exited; the number that it was stored for is the one that was set last,
or, where none ever was, that of the caller; and `sig_tosend` is still what it was. -/
def Careful (w : World) : Event → Prop
  | .step pid => ∀ current sig tsk, w.procs.pidTask pid = some current →
      w.pc current = .send sig tsk →
        (∃ t, tsk.task = some t ∧ (w.procs.taskPid t).isSome) ∧
        tsk.number = w.history.asked.getD pid ∧ w.driver.sigTosend = sig
  | _ => True

end World

/-! ## What the pointers say -/

/-- A task that has not exited has the number that the pointer was stored for. -/
def Pointer.Names (p : Pointer) (procs : ProcTable) : Prop :=
  ∀ t, p.task = some t → t < procs.born ∧ ∀ q, procs.taskPid t = some q → q = p.number

theorem Pointer.names_of_taskPid {procs : ProcTable} {t : ℕ} {pid : ℤ}
    (h : procs.taskPid t = some pid) : (⟨pid, some t⟩ : Pointer).Names procs := by
  rintro _ ⟨⟩
  exact ⟨procs.old t pid h, fun q hq => Option.some.inj (hq.symm.trans h)⟩

theorem Pointer.names_find (procs : ProcTable) (pid : ℤ) :
    (⟨pid, procs.pidTask pid⟩ : Pointer).Names procs := by
  intro t ht
  exact names_of_taskPid ((procs.inverse pid t).mp ht) t rfl

/-- What changes the process table leaves the numbers of the tasks alone that were there
and have not exited. -/
def ProcTable.Grows (procs procs' : ProcTable) : Prop :=
  procs.born ≤ procs'.born ∧ ∀ t, t < procs.born → ∀ q, procs'.taskPid t = some q →
    procs.taskPid t = some q

theorem ProcTable.grows_fork (procs : ProcTable) {pid : ℤ} (hfree : procs.pidTask pid = none) :
    procs.Grows (procs.fork pid hfree) := by
  refine ⟨Nat.le_succ _, fun t hlt q hq => ?_⟩
  dsimp only [ProcTable.fork] at hq
  rwa [Function.update_of_ne hlt.ne] at hq

theorem ProcTable.grows_exit (procs : ProcTable) {pid : ℤ} {tsk : ℕ}
    (htask : procs.pidTask pid = some tsk) : procs.Grows (procs.exit pid tsk htask) := by
  refine ⟨le_rfl, fun t _ q hq => ?_⟩
  by_cases ht : t = tsk
  · simp [ProcTable.exit, ht] at hq
  · dsimp only [ProcTable.exit] at hq
    rwa [Function.update_of_ne ht] at hq

theorem Pointer.Names.grows {p : Pointer} {procs procs' : ProcTable} (h : p.Names procs)
    (hgrows : procs.Grows procs') : p.Names procs' := by
  intro t ht
  obtain ⟨hlt, hnumber⟩ := h t ht
  exact ⟨hlt.trans_le hgrows.1, fun q hq => hnumber q (hgrows.2 t hlt q hq)⟩

/-- The pointer that a task has read, or is about to store. -/
def Pc.pointer : Pc → Option Pointer
  | .keep p | .send _ p => some p
  | _ => none

@[simp] theorem Pc.entry_pointer (cmd : ℕ) (arg : ℤ) : (Pc.entry cmd arg).pointer = none := by
  unfold Pc.entry
  split_ifs <;> rfl

/-- The signal that a task has read. -/
def Pc.signal : Pc → Option ℤ
  | .readTsk sig | .send sig _ => some sig
  | _ => none

@[simp] theorem Pc.entry_signal (cmd : ℕ) (arg : ℤ) : (Pc.entry cmd arg).signal = none := by
  unfold Pc.entry
  split_ifs <;> rfl

namespace World

variable {w w' : World} {e : Event}

structure Inv (w : World) : Prop where
  sigTsk : (⟨w.number, w.driver.sigTsk⟩ : Pointer).Names w.procs
  held : ∀ t p, (w.pc t).pointer = some p → p.Names w.procs
  sigTosend : ∀ x, w.history.signal = some x → w.driver.sigTosend = x
  unset : w.history.signal = none → ∀ t x, (w.pc t).signal = some x → w.driver.sigTosend = x
  right : Right w

theorem initial_inv : Inv initial where
  sigTsk _ h := by cases h
  held _ _ h := by cases h
  sigTosend _ h := by cases h
  unset _ _ _ h := by cases h
  right := ⟨rfl, fun _ h => absurd h List.not_mem_nil⟩

theorem Inv.procs (hw : Inv w) {procs : ProcTable} (hgrows : w.procs.Grows procs) :
    Inv { w with procs := procs } where
  sigTsk := hw.sigTsk.grows hgrows
  held t p h := (hw.held t p h).grows hgrows
  sigTosend := hw.sigTosend
  unset := hw.unset
  right := hw.right

theorem Inv.setPc (hw : Inv w) {tsk : ℕ} {pc : Pc}
    (hpc : ∀ p, pc.pointer = some p → p.Names w.procs)
    (hsig : w.history.signal = none → ∀ x, pc.signal = some x → w.driver.sigTosend = x) :
    Inv (w.setPc tsk pc) where
  sigTsk := hw.sigTsk
  held t p h := by
    by_cases ht : t = tsk
    · subst ht
      exact hpc p (by simpa [World.setPc] using h)
    · exact hw.held t p (by simpa [World.setPc, Function.update_of_ne ht] using h)
  sigTosend := hw.sigTosend
  unset hnone t x h := by
    by_cases ht : t = tsk
    · subst ht
      exact hsig hnone x (by simpa [World.setPc] using h)
    · exact hw.unset hnone t x (by simpa [World.setPc, Function.update_of_ne ht] using h)
  right := hw.right

theorem careful_iff {pid : ℤ} {current : ℕ} {sig : ℤ} {tsk : Pointer}
    (hcurrent : w.procs.pidTask pid = some current) (hpc : w.pc current = .send sig tsk) :
    w.Careful (.step pid) ↔
      (∃ t, tsk.task = some t ∧ (w.procs.taskPid t).isSome) ∧
        tsk.number = w.history.asked.getD pid ∧ w.driver.sigTosend = sig := by
  constructor
  · intro h
    exact h current sig tsk hcurrent hpc
  · rintro h current' sig' tsk' hcurrent' hpc'
    cases hcurrent.symm.trans hcurrent'
    cases hpc.symm.trans hpc'
    exact h

/-- The task is the one that the pointer was stored for, so it is the right one exactly
where that number is the right one. -/
theorem target_right_iff {procs : ProcTable} (asked : Option ℤ) {pid : ℤ} {current t : ℕ}
    {number : ℤ} (hcurrent : procs.pidTask pid = some current)
    (hnames : ∀ q, procs.taskPid t = some q → q = number) :
    (match asked with
      | some a => procs.taskPid t = some a
      | none => (procs.taskPid t).isSome ∧ t = current) ↔
      (procs.taskPid t).isSome ∧ number = asked.getD pid := by
  have hpid := (procs.inverse _ _).mp hcurrent
  cases asked with
  | some a =>
      constructor
      · intro h
        exact ⟨by rw [h]; rfl, (hnames a h).symm⟩
      · rintro ⟨h, rfl⟩
        obtain ⟨q, hq⟩ := Option.isSome_iff_exists.mp h
        rw [hq, hnames q hq]
  | none =>
      refine and_congr_right fun h => ?_
      obtain ⟨q, hq⟩ := Option.isSome_iff_exists.mp h
      constructor
      · rintro rfl
        exact (hnames pid hpid).symm
      · intro hnumber
        rw [hnames q hq, hnumber, ← procs.inverse] at hq
        exact Option.some.inj (hq.symm.trans hcurrent)

theorem sendSig_some_right_iff (hright : Right w) {current t : ℕ} {sig : ℤ} :
    Right (w.sendSig current sig (some t)) ↔
      (⟨t, w.procs.taskPid t, sig, current, w.history.asked, w.history.signal⟩ : Send).Right := by
  simp only [Right, sendSig, List.forall_mem_append, List.forall_mem_singleton, hright.1, true_and]
  exact and_iff_right hright.2

/-- The signal that was read is the one that was set last where the variable still holds it. -/
theorem signal_right_iff (hw : Inv w) {current : ℕ} {sig : ℤ}
    (hpc : (w.pc current).signal = some sig) :
    (∀ x, w.history.signal = some x → sig = x) ↔ w.driver.sigTosend = sig := by
  cases hsignal : w.history.signal with
  | none => simpa using hw.unset hsignal current sig hpc
  | some x => simp [hw.sigTosend x hsignal, eq_comm]

theorem sendSig_right_iff (hw : Inv w) {pid : ℤ} {current : ℕ} {sig : ℤ} {tsk : Pointer}
    (hcurrent : w.procs.pidTask pid = some current) (hpc : w.pc current = .send sig tsk) :
    Right (w.sendSig current sig tsk.task) ↔ w.Careful (.step pid) := by
  have hnames := hw.held current tsk (by rw [hpc]; rfl)
  rw [careful_iff hcurrent hpc]
  obtain ⟨number, task⟩ := tsk
  cases task with
  | none => simp [sendSig, Right]
  | some t =>
      have htarget := target_right_iff w.history.asked hcurrent (hnames t rfl).2
      have hsignal := signal_right_iff hw (show (w.pc current).signal = some sig by rw [hpc]; rfl)
      rw [sendSig_some_right_iff hw.right, Send.Right, hsignal]
      simp only [Option.some.injEq, exists_eq_left', ← and_assoc]
      exact and_congr_left fun _ => htarget

/-! ## Runs -/

theorem access_procs (w : World) (current : ℕ) (pid : ℤ) (pc : Pc) :
    (w.access current pid pc).1.procs = w.procs := by
  cases pc with
  | send sig tsk => cases htask : tsk.task <;> simp [access, sendSig, htask]
  | _ => rfl

theorem access_pointer (hw : Inv w) {current : ℕ} {pid : ℤ} (p : Pointer)
    (hp : (w.access current pid (w.pc current)).2.pointer = some p) : p.Names w.procs := by
  cases hpc : w.pc current with
  | find =>
      rw [hpc] at hp
      cases hp
      exact Pointer.names_find w.procs w.driver.sigPid
  | readTsk sig =>
      rw [hpc] at hp
      cases hp
      exact hw.sigTsk
  | test =>
      rw [hpc] at hp
      cases hnull : w.driver.sigTsk <;> simp [access, hnull, Pc.pointer] at hp
  | _ => simp [hpc, access, Pc.pointer] at hp

theorem access_signal (hw : Inv w) {current : ℕ} {pid : ℤ}
    (hnone : (w.access current pid (w.pc current)).1.history.signal = none) (x : ℤ)
    (hx : (w.access current pid (w.pc current)).2.signal = some x) :
    (w.access current pid (w.pc current)).1.driver.sigTosend = x := by
  cases hpc : w.pc current with
  | readSig =>
      rw [hpc] at hx
      cases hx
      rfl
  | readTsk sig =>
      rw [hpc] at hx hnone
      cases hx
      exact hw.unset hnone current x (by rw [hpc]; rfl)
  | test =>
      rw [hpc] at hx
      cases hnull : w.driver.sigTsk <;> simp [access, hnull, Pc.signal] at hx
  | _ => simp [hpc, access, Pc.signal] at hx

theorem access_inv (hw : Inv w) {current : ℕ} {pid : ℤ}
    (hcurrent : w.procs.pidTask pid = some current) (hcareful : w.Careful (.step pid)) :
    Inv (w.access current pid (w.pc current)).1 := by
  cases hpc : w.pc current with
  | keep found =>
      have hnames := hw.held current found (by rw [hpc]; rfl)
      exact ⟨hnames, hw.held, hw.sigTosend, hw.unset, hw.right⟩
  | take =>
      have hnames := Pointer.names_of_taskPid ((w.procs.inverse _ _).mp hcurrent)
      exact ⟨hnames, hw.held, hw.sigTosend, hw.unset, hw.right⟩
  | setSig arg =>
      refine ⟨hw.sigTsk, hw.held, fun x hx => ?_, fun hnone => ?_, hw.right⟩
      · exact Option.some.inj hx
      · cases hnone
  | send sig tsk =>
      have hright := (sendSig_right_iff hw hcurrent hpc).mpr hcareful
      cases htask : tsk.task with
      | none =>
          rw [htask] at hright
          cases hright.1
      | some t =>
          rw [htask] at hright
          simp only [access, htask]
          exact ⟨hw.sigTsk, hw.held, hw.sigTosend, hw.unset, hright⟩
  | _ => exact ⟨hw.sigTsk, hw.held, hw.sigTosend, hw.unset, hw.right⟩

theorem advance_inv (hw : Inv w) {current : ℕ} {pid : ℤ}
    (hcurrent : w.procs.pidTask pid = some current) (hcareful : w.Careful (.step pid)) :
    Inv (w.advance current pid) := by
  apply (access_inv hw hcurrent hcareful).setPc
  · rw [access_procs]
    exact access_pointer hw
  · exact access_signal hw

theorem step_inv (hw : Inv w) (hcareful : w.Careful e) (h : step w e = .ok w') : Inv w' := by
  cases e with
  | fork pid =>
      simp only [step] at h
      split at h
      · next hfree =>
          cases h
          exact hw.procs (w.procs.grows_fork hfree.2)
      · cases h
  | exit pid =>
      simp only [step] at h
      split at h
      · cases h
      · next tsk htask =>
          split_ifs at h
          cases h
          exact hw.procs (w.procs.grows_exit htask)
  | ioctl pid cmd arg =>
      simp only [step] at h
      split at h
      · cases h
      · split_ifs at h
        cases h
        exact hw.setPc (by simp) (by simp)
  | step pid =>
      simp only [step] at h
      split at h
      · cases h
      · next current hcurrent =>
          split_ifs at h
          cases h
          exact advance_inv hw hcurrent hcareful

theorem careless_sends (hw : Inv w) (hcareful : ¬ w.Careful e) :
    ∃ w', step w e = .ok w' ∧ ¬ Right w' := by
  cases e with
  | step pid =>
      simp only [Careful, not_forall] at hcareful
      obtain ⟨current, sig, tsk, hcurrent, hpc, hwrong⟩ := hcareful
      refine ⟨w.advance current pid, by simp [step, hcurrent, hpc], fun hright => hwrong ?_⟩
      rw [← careful_iff hcurrent hpc, ← sendSig_right_iff hw hcurrent hpc]
      rw [advance, hpc] at hright
      exact hright
  | _ => exact absurd trivial hcareful

/-- In every run, however the ioctls overlap, every signal goes where it should in every
state exactly when every call of `send_sig` is careful. -/
theorem sends_right_iff (es : List Event) :
    Runs.Always step Right initial es ↔ Runs.Along step Careful initial es :=
  Runs.always_iff_along (fun _ hw => hw.right) (fun _ _ _ hw hC h => step_inv hw hC h)
    (fun _ _ hw hC => careless_sends hw hC) initial_inv

theorem not_always_right {es : List Event} (oops : Bool) (sends : List Send)
    (hrun : (Runs.exec step initial es).map (fun w => (w.oops, w.sends)) = .ok (oops, sends))
    (hwrong : oops = true ∨ ∃ r ∈ sends, ¬ r.Right) : ¬ Runs.Always step Right initial es := by
  cases hexec : Runs.exec step initial es with
  | error f => simp [hexec, Except.map] at hrun
  | ok w =>
      obtain ⟨rfl, rfl⟩ : w.oops = oops ∧ w.sends = sends := by
        simpa [hexec, Except.map] using hrun
      refine Runs.not_always_of_exec hexec fun hright => ?_
      rcases hwrong with hoops | ⟨r, hr, hnot⟩
      · rw [hright.1] at hoops
        cases hoops
      · exact hnot (hright.2 r hr)

/-- Task 2 is set and exits before the signal is sent; number 5 is set, which no task has,
and the sender gets the signal; nothing is set, and the second sender's signal goes to the
first; number 2 is set while task 1 has found `NULL`, and task 1 stores itself over it; and
number 5 is set after task 1 has found a pointer, and `send_sig` gets `NULL`. -/
theorem signals_go_astray :
    ¬ Runs.Always step Right initial
        (.fork 1 :: .fork 2 :: .ioctl 1 MYIOC_SETPID 2 :: (Event.steps 1 3 ++
          .exit 2 :: .ioctl 1 MYIOC_SENDSIG 0 :: Event.steps 1 4)) ∧
      ¬ Runs.Always step Right initial
        (.fork 1 :: .ioctl 1 MYIOC_SETPID 5 :: (Event.steps 1 3 ++
          .ioctl 1 MYIOC_SENDSIG 0 :: Event.steps 1 6)) ∧
      ¬ Runs.Always step Right initial
        (.fork 1 :: .fork 2 :: .ioctl 1 MYIOC_SENDSIG 0 :: (Event.steps 1 6 ++
          .ioctl 2 MYIOC_SENDSIG 0 :: Event.steps 2 4)) ∧
      ¬ Runs.Always step Right initial
        (.fork 1 :: .fork 2 :: .ioctl 1 MYIOC_SENDSIG 0 :: .step 1 :: .ioctl 2 MYIOC_SETPID 2 ::
          (Event.steps 2 3 ++ Event.steps 1 5)) ∧
      ¬ Runs.Always step Right initial
        (.fork 1 :: .fork 2 :: .ioctl 1 MYIOC_SETPID 2 :: (Event.steps 1 3 ++
          .ioctl 1 MYIOC_SENDSIG 0 :: .step 1 :: .ioctl 2 MYIOC_SETPID 5 ::
            (Event.steps 2 3 ++ Event.steps 1 3))) := by
  refine ⟨not_always_right false [⟨1, none, SIGKILL, 0, some 2, none⟩] (by decide +kernel) ?_,
    not_always_right false [⟨0, some 1, SIGKILL, 0, some 5, none⟩] (by decide +kernel) ?_,
    not_always_right false [⟨0, some 1, SIGKILL, 0, none, none⟩,
      ⟨0, some 1, SIGKILL, 1, none, none⟩] (by decide +kernel) ?_,
    not_always_right false [⟨0, some 1, SIGKILL, 0, some 2, none⟩] (by decide +kernel) ?_,
    not_always_right true [] (by decide +kernel) (.inl rfl)⟩
  · exact .inr ⟨_, List.mem_singleton.mpr rfl, fun hright => by cases hright.1⟩
  · exact .inr ⟨_, List.mem_singleton.mpr rfl, fun hright => absurd hright.1 (by decide)⟩
  · exact .inr ⟨_, List.mem_cons_of_mem _ (List.mem_singleton.mpr rfl),
      fun hright => absurd hright.1.2 (by decide)⟩
  · exact .inr ⟨_, List.mem_singleton.mpr rfl, fun hright => absurd hright.1 (by decide)⟩

/-! ## Callers that take turns -/

@[simp] theorem Event.steps_zero (pid : ℤ) : Event.steps pid 0 = [] := rfl

@[simp] theorem Event.steps_succ (pid : ℤ) (n : ℕ) :
    Event.steps pid (n + 1) = .step pid :: Event.steps pid n := rfl

/-- The accesses of a call that no other call overlaps. -/
def accesses (d : Driver) (cmd : ℕ) : ℕ :=
  if cmd = MYIOC_SETPID then 3
  else if cmd = MYIOC_SETSIG then 1
  else if cmd = MYIOC_SENDSIG then if d.sigTsk.isNone then 6 else 4
  else 0

def inTurn (s : State) : Signal.Event → List Event
  | .fork pid => [.fork pid]
  | .exit pid => [.exit pid]
  | .ioctl pid cmd arg => .ioctl pid cmd arg :: Event.steps pid (accesses s.driver cmd)

/-- No ioctl is under way, and the variables, the tasks and the signals are those of `s`. -/
structure Shows (s : State) (w : World) : Prop where
  state : w.toState = s
  quiet : w.oops = false
  idle : ∀ t, w.pc t = .idle

theorem exec_inTurn {pid : ℤ} {current : ℕ} (hcurrent : w.procs.pidTask pid = some current)
    (hidle : w.pc current = .idle) (cmd : ℕ) (arg : ℤ) :
    ∃ number, Runs.exec step w (inTurn w.toState (.ioctl pid cmd arg)) =
      .ok { w with
        toState := w.call current pid cmd arg
        number := number
        pc := Function.update w.pc current .idle } := by
  have hpidsig : MYIOC_SETSIG ≠ MYIOC_SETPID := by decide
  have hpidsend : MYIOC_SENDSIG ≠ MYIOC_SETPID := by decide
  have hsigsend : MYIOC_SENDSIG ≠ MYIOC_SETSIG := by decide
  by_cases hsetpid : cmd = MYIOC_SETPID
  · subst hsetpid
    refine ⟨toInt32 arg, ?_⟩
    simp [inTurn, accesses, step, hcurrent, hidle, advance, access, setPc, Pc.entry,
      State.call, mycdrvUnlockedIoctl, History.record]
  by_cases hsetsig : cmd = MYIOC_SETSIG
  · subst hsetsig
    refine ⟨w.number, ?_⟩
    simp [inTurn, accesses, step, hcurrent, hidle, advance, access, setPc, Pc.entry, State.call,
      mycdrvUnlockedIoctl, History.record, hpidsig]
  by_cases hsendsig : cmd = MYIOC_SENDSIG
  · subst hsendsig
    cases htsk : w.driver.sigTsk with
    | none =>
        refine ⟨pid, ?_⟩
        simp [inTurn, accesses, step, hcurrent, hidle, advance, access, sendSig,
          setPc, Pc.entry, State.call, mycdrvUnlockedIoctl, History.record, hpidsend, hsigsend,
          htsk]
    | some tsk =>
        refine ⟨w.number, ?_⟩
        simp [inTurn, accesses, step, hcurrent, hidle, advance, access, sendSig,
          setPc, Pc.entry, State.call, mycdrvUnlockedIoctl, History.record, hpidsend, hsigsend,
          htsk]
  · refine ⟨w.number, ?_⟩
    simp [inTurn, accesses, step, hcurrent, hidle, setPc, Pc.entry, State.call,
      mycdrvUnlockedIoctl, History.record, hsetpid, hsetsig, hsendsig]

theorem ioctl_shows {s : State} {pid : ℤ} {current : ℕ} (h : Shows s w)
    (hcurrent : s.procs.pidTask pid = some current) (cmd : ℕ) (arg : ℤ) :
    ∃ w', Runs.exec step w (inTurn s (.ioctl pid cmd arg)) = .ok w' ∧
      Shows (s.call current pid cmd arg) w' := by
  obtain ⟨rfl, hquiet, hidle⟩ := h
  obtain ⟨number, hrun⟩ := exec_inTurn hcurrent (hidle current) cmd arg
  refine ⟨_, hrun, rfl, hquiet, fun t => ?_⟩
  by_cases ht : t = current
  · rw [ht]
    exact Function.update_self ..
  · exact (Function.update_of_ne ht ..).trans (hidle t)

theorem step_shows {s s' : State} {e : Signal.Event} (h : Shows s w) (hstep : s.step e = .ok s') :
    ∃ w', Runs.exec step w (inTurn s e) = .ok w' ∧ Shows s' w' := by
  cases e with
  | fork pid =>
      obtain ⟨rfl, hquiet, hidle⟩ := h
      simp only [State.step] at hstep
      split at hstep
      · next hfree =>
          cases hstep
          refine ⟨{ w with procs := w.procs.fork pid hfree.2 }, ?_, rfl, hquiet, hidle⟩
          simp [inTurn, step, hfree]
      · cases hstep
  | exit pid =>
      obtain ⟨rfl, hquiet, hidle⟩ := h
      simp only [State.step] at hstep
      split at hstep
      · next tsk htask =>
          cases hstep
          refine ⟨{ w with procs := w.procs.exit pid tsk htask }, ?_, rfl, hquiet, hidle⟩
          rw [inTurn, Runs.exec_cons, step]
          split
          · next hnone => simp [htask] at hnone
          · next t ht =>
              obtain rfl : t = tsk := Option.some.inj (ht.symm.trans htask)
              rw [if_pos (hidle t)]
              rfl
      · cases hstep
  | ioctl pid cmd arg =>
      simp only [State.step] at hstep
      split at hstep
      · next current hcurrent =>
          cases hstep
          exact ioctl_shows h hcurrent cmd arg
      · cases hstep

/-- Every run of callers that take turns is one of the driver. -/
theorem run_shows {s : State} {es : List Signal.Event}
    (hrun : Runs.exec State.step State.initial es = .ok s) :
    ∃ w, Runs.exec step initial (Runs.expand State.step inTurn State.initial es) = .ok w ∧
      Shows s w :=
  Runs.exec_expands (fun _ _ _ _ h hstep => step_shows h hstep) ⟨rfl, rfl, fun _ => rfl⟩ hrun

end World

end LddSamples.Ioctl.Signal
