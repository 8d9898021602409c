import LddSamples.Debug.Proc
import LddSamples.Ioctl.Signal

/-!
# lab7_proc_sig: signals sent by writing to /proc

Two solutions of one task. The first has one callback for both entries, which tells them
apart by the `data` of the entry; the second has a pair of callbacks for each. The second
one forgets a buffer where the bytes for "signal" cannot be copied. To write numbers here
is to call the driver of lab3_ioctl_signal.
-/

namespace LddSamples.Debug.ProcSig

open Kernel CArith Outcome Proc Ioctl.Signal

def SIGUSR1 : ℤ := 10

/-- `sig_pid`, `sig_tsk` and `sig_tosend`. -/
def initialDriver : Driver := ⟨-1, none, SIGUSR1⟩

/-- The entries "pid" and "signal". -/
inductive Node
  | pid
  | signal
  deriving DecidableEq

/-- The variables after a callback, and what `send_sig` was called with. -/
abbrev Effect := Driver × Option (ℕ × ℤ)

/-- The task that calls and its number. -/
structure Caller where
  task : ℕ
  pid : ℤ

/-- What the first callback does with the bytes it has copied. -/
def setPid (procs : ProcTable) (d : Driver) (str : List UInt8) : Effect :=
  let pid := sscanf str d.sigPid
  ({ d with sigPid := pid, sigTsk := procs.pidTask pid }, none)

/-- What the second one does. -/
def setSignal (current : Caller) (d : Driver) (str : List UInt8) : Effect :=
  let signal := sscanf str d.sigTosend
  match d.sigTsk with
  | some tsk => ({ d with sigTosend := signal }, some (tsk, signal))
  | none => (⟨current.pid, some current.task, signal⟩, some (current.task, signal))

namespace SolA

/-- The `data` of the two entries are the entries themselves. -/
def myProcWrite (env : Env) (heap : Heap) (buffer behind : List UInt8) (procs : ProcTable)
    (current : Caller) (d : Driver) : Option Node → Except Kernel.Fault (Result Effect)
  | some .pid => writeParam env heap buffer behind (d, none) (setPid procs d)
  | some .signal => writeParam env heap buffer behind (d, none) (setSignal current d)
  | none =>
      match kmalloc env heap with
      | (none, _) => .error .nullDereference
      | (some str, heap) =>
          if env.copied buffer.length < buffer.length then
            .ok ⟨-EFAULT, (d, none), kfree heap str⟩
          else .ok ⟨-EINVAL, (d, none), kfree heap str⟩

/-- `sprintf` of a number and a newline. -/
def myProcRead (d : Driver) : Option Node → ℤ ⊕ List UInt8
  | some .pid => .inr (Decimal.text d.sigPid ++ [10])
  | some .signal => .inr (Decimal.text d.sigTosend ++ [10])
  | none => .inl (-EINVAL)

end SolA

namespace SolB

def myProcWrite1 (env : Env) (heap : Heap) (buffer behind : List UInt8) (procs : ProcTable)
    (d : Driver) : Except Kernel.Fault (Result Effect) :=
  writeParam env heap buffer behind (d, none) (setPid procs d)

/-- The buffer is not freed where the copy fails. -/
def myProcWrite2 (env : Env) (heap : Heap) (buffer behind : List UInt8) (current : Caller)
    (d : Driver) : Except Kernel.Fault (Result Effect) :=
  match kmalloc env heap with
  | (none, _) => .error .nullDereference
  | (some str, heap) =>
      if env.copied buffer.length < buffer.length then .ok ⟨-EFAULT, (d, none), heap⟩
      else do
        require .nullDereference (buffer.length ≠ 0)
        .ok ⟨toInt32 buffer.length, setSignal current d (buffer ++ behind), kfree heap str⟩

def myProcRead1 (d : Driver) : List UInt8 := Decimal.text d.sigPid ++ [10]

def myProcRead2 (d : Driver) : List UInt8 := Decimal.text d.sigTosend ++ [10]

end SolB

/-! ## Both as systems -/

inductive Solution
  | a
  | b

def Solution.write (sol : Solution) (env : Env) (heap : Heap) (buffer behind : List UInt8)
    (procs : ProcTable) (current : Caller) (d : Driver) (node : Node) :
    Except Kernel.Fault (Result Effect) :=
  match sol, node with
  | .a, node => SolA.myProcWrite env heap buffer behind procs current d (some node)
  | .b, .pid => SolB.myProcWrite1 env heap buffer behind procs d
  | .b, .signal => SolB.myProcWrite2 env heap buffer behind current d

def Solution.read (sol : Solution) (d : Driver) (node : Node) : ℤ ⊕ List UInt8 :=
  match sol, node with
  | .a, node => SolA.myProcRead d (some node)
  | .b, .pid => .inr (SolB.myProcRead1 d)
  | .b, .signal => .inr (SolB.myProcRead2 d)

/-- What can be seen from outside: what the calls returned, in their order, and the
signals. -/
structure View where
  driver : Driver
  procs : ProcTable
  replies : List (ℤ ⊕ List UInt8)
  sends : List (ℕ × ℤ)

structure State where
  view : View
  heap : Heap

/-- Reads and writes are made by the task that has the number `pid`. -/
inductive Event
  | fork (pid : ℤ)
  | exit (pid : ℤ)
  | read (node : Node)
  | write (pid : ℤ) (node : Node) (env : Env) (buffer behind : List UInt8)

inductive Stop
  | refused
  | fault (f : Kernel.Fault)

def View.reply (v : View) (r : ℤ ⊕ List UInt8) : View := { v with replies := v.replies ++ [r] }

def View.wrote (v : View) (r : Result Effect) : View :=
  { v with
    driver := r.param.1
    replies := v.replies ++ [.inl r.ret]
    sends := v.sends ++ r.param.2.toList }

def View.fork (v : View) (pid : ℤ) : Except Stop View :=
  if h : (0 < pid ∧ pid ≤ INT_MAX) ∧ v.procs.pidTask pid = none then
    .ok { v with procs := v.procs.fork pid h.2 }
  else .error .refused

def View.exit (v : View) (pid : ℤ) : Except Stop View :=
  match h : v.procs.pidTask pid with
  | some tsk => .ok { v with procs := v.procs.exit pid tsk h }
  | none => .error .refused

namespace State

def initial : State := ⟨⟨initialDriver, .empty, [], []⟩, ⟨0, []⟩⟩

def step (sol : Solution) (s : State) : Event → Except Stop State
  | .fork pid => (s.view.fork pid).map fun v => { s with view := v }
  | .exit pid => (s.view.exit pid).map fun v => { s with view := v }
  | .read node => .ok { s with view := s.view.reply (sol.read s.view.driver node) }
  | .write pid node env buffer behind =>
      match s.view.procs.pidTask pid with
      | some tsk =>
          match sol.write env s.heap buffer behind s.view.procs ⟨tsk, pid⟩ s.view.driver node with
          | .ok r => .ok ⟨s.view.wrote r, r.heap⟩
          | .error f => .error (.fault f)
      | none => .error .refused

end State

/-! ## The two solutions do the same, but for the buffers -/

/-- The copy for "signal" fails. -/
def Leaks : Event → Bool
  | .write _ .signal env buffer _ => decide (env.copied buffer.length < buffer.length)
  | _ => false

/-- The states look the same. The first solution has freed every buffer, the second one all
but `n`. -/
structure Same (n : ℕ) (s t : State) : Prop where
  view : s.view = t.view
  requests : s.heap.requests = t.heap.requests
  freed : s.heap.freed.length = s.heap.requests
  leaked : t.heap.freed.length + n = t.heap.requests

/-- Both go on, to states that are the same, or both stop for the same reason. -/
def Agree (n : ℕ) : Except Stop State → Except Stop State → Prop
  | .ok s, .ok t => Same n s t
  | .error f, .error g => f = g
  | _, _ => False

variable {s t : State} {n : ℕ} {sol : Solution}

theorem initial_same : Same 0 .initial .initial := ⟨rfl, rfl, rfl, rfl⟩

/-- A write frees the buffer, unless it is one of those that leak it. -/
theorem write_agree {hs ht : Heap} (hrequests : hs.requests = ht.requests) (pid : ℤ) (node : Node)
    (env : Env) (buffer behind : List UInt8) (procs : ProcTable) (current : Caller) (d : Driver) :
    (∃ f, Solution.a.write env hs buffer behind procs current d node = .error f ∧
      Solution.b.write env ht buffer behind procs current d node = .error f) ∨
    ∃ ret effect,
      Solution.a.write env hs buffer behind procs current d node =
        .ok ⟨ret, effect, kfree ⟨hs.requests + 1, hs.freed⟩ hs.requests⟩ ∧
      Solution.b.write env ht buffer behind procs current d node =
        .ok ⟨ret, effect, if Leaks (.write pid node env buffer behind)
          then ⟨ht.requests + 1, ht.freed⟩ else kfree ⟨ht.requests + 1, ht.freed⟩ ht.requests⟩ := by
  cases hgrant : env.grants ht.requests with
  | false =>
      left
      refine ⟨.nullDereference, ?_⟩
      cases node <;>
        simp [Solution.write, SolA.myProcWrite, SolB.myProcWrite1, SolB.myProcWrite2, writeParam,
          kmalloc, hrequests, hgrant]
  | true =>
      by_cases hcopy : env.copied buffer.length < buffer.length
      · right
        refine ⟨-EFAULT, (d, none), ?_⟩
        cases node <;>
          simp [Solution.write, SolA.myProcWrite, SolB.myProcWrite1, SolB.myProcWrite2, writeParam,
            kmalloc, hrequests, hgrant, hcopy, Leaks]
      · by_cases hempty : buffer = []
        · left
          refine ⟨.nullDereference, ?_⟩
          cases node <;>
            simp [Solution.write, SolA.myProcWrite, SolB.myProcWrite1, SolB.myProcWrite2,
              writeParam, kmalloc, hrequests, hgrant, hempty, require]
        · right
          cases node with
          | pid =>
              refine ⟨toInt32 buffer.length, setPid procs d (buffer ++ behind), ?_⟩
              simp [Solution.write, SolA.myProcWrite, SolB.myProcWrite1, writeParam, kmalloc,
                hrequests, hgrant, hcopy, hempty, Leaks, require]
          | signal =>
              refine ⟨toInt32 buffer.length, setSignal current d (buffer ++ behind), ?_⟩
              simp [Solution.write, SolA.myProcWrite, SolB.myProcWrite2, writeParam, kmalloc,
                hrequests, hgrant, hcopy, hempty, Leaks, require]

theorem read_agree (d : Driver) (node : Node) :
    Solution.a.read d node = Solution.b.read d node := by
  cases node <;> rfl

theorem Same.of_view {v : View} (h : Same n s t) :
    Same n { s with view := v } { t with view := v } :=
  { h with view := rfl }

theorem step_agree (h : Same n s t) (e : Event) :
    Agree (n + if Leaks e then 1 else 0) (s.step .a e) (t.step .b e) := by
  cases e with
  | fork pid =>
      simp only [State.step, h.view]
      cases t.view.fork pid with
      | error f => rfl
      | ok v => exact h.of_view
  | exit pid =>
      simp only [State.step, h.view]
      cases t.view.exit pid with
      | error f => rfl
      | ok v => exact h.of_view
  | read node =>
      simp only [State.step, h.view, read_agree]
      exact h.of_view
  | write pid node env buffer behind =>
      simp only [State.step, h.view]
      cases t.view.procs.pidTask pid with
      | none => rfl
      | some tsk =>
          rcases write_agree h.requests pid node env buffer behind t.view.procs ⟨tsk, pid⟩
            t.view.driver with ⟨f, ha, hb⟩ | ⟨ret, effect, ha, hb⟩
          · simp only [ha, hb]
            rfl
          · simp only [ha, hb]
            have hfreed := h.freed
            have hleaked := h.leaked
            refine ⟨rfl, ?_, by simp [kfree, hfreed], ?_⟩
            · split <;> simp [kfree, h.requests]
            · split <;> simp [kfree] <;> omega

theorem exec_agree (h : Same n s t) (es : List Event) :
    Agree (n + es.countP Leaks) (Runs.exec (State.step .a) s es)
      (Runs.exec (State.step .b) t es) := by
  induction es generalizing n s t with
  | nil => exact h
  | cons e es ih =>
      have hstep := step_agree h e
      rw [Runs.exec_cons, Runs.exec_cons, List.countP_cons, Nat.add_comm (es.countP _),
        ← Nat.add_assoc]
      cases ha : s.step .a e <;> cases hb : t.step .b e <;> rw [ha, hb] at hstep
      · exact hstep
      · exact hstep.elim
      · exact hstep.elim
      · exact ih hstep

/-- In every run the two solutions return the same, send the same signals and stop at the
same faults. The first one frees every buffer, the second one loses as many as copies for
"signal" have failed. -/
theorem solutions_agree (es : List Event) :
    Agree (es.countP Leaks) (Runs.exec (State.step .a) .initial es)
      (Runs.exec (State.step .b) .initial es) := by
  have h := exec_agree initial_same es
  rwa [Nat.zero_add] at h

/-! ## They are the driver of lab3_ioctl_signal -/

/-- The calls of the ioctl driver that do the same. -/
def calls (s : State) : Event → List Ioctl.Signal.Event
  | .fork pid => [.fork pid]
  | .exit pid => [.exit pid]
  | .read _ => []
  | .write pid node env buffer behind =>
      if env.copied buffer.length < buffer.length then []
      else match node with
        | .pid => [.ioctl pid MYIOC_SETPID (sscanf (buffer ++ behind) s.view.driver.sigPid)]
        | .signal =>
            [.ioctl pid MYIOC_SETSIG (sscanf (buffer ++ behind) s.view.driver.sigTosend),
              .ioctl pid MYIOC_SENDSIG 0]

/-- The ioctl driver with the values that the variables have here. -/
def ioctlInitial : Ioctl.Signal.State := ⟨initialDriver, .empty, ⟨none, none⟩, []⟩

/-- The ioctl driver is in the same state and has sent the same signals, and the variables
hold numbers of type `int`. -/
structure Refines (v : View) (u : Ioctl.Signal.State) : Prop where
  driver : u.driver = v.driver
  procs : u.procs = v.procs
  sends : u.sends.map (fun r => (r.task, r.signal)) = v.sends
  sigPid : toInt32 v.driver.sigPid = v.driver.sigPid
  sigTosend : toInt32 v.driver.sigTosend = v.driver.sigTosend
  tasks : ∀ pid tsk, v.procs.pidTask pid = some tsk → toInt32 pid = pid

variable {v : View} {u : Ioctl.Signal.State} {e : Event} {s' : State}

theorem toInt32_sscanf (str : List UInt8) {param : ℤ} (h : toInt32 param = param) :
    toInt32 (sscanf str param) = sscanf str param := by
  unfold sscanf
  cases Decimal.scanInt str with
  | none => exact h
  | some x => exact toInt32_idem x

theorem writeParam_param {α : Type} {env : Env} {heap : Heap} {buffer behind : List UInt8}
    {param : α} {scan : List UInt8 → α} {r : Result α}
    (h : writeParam env heap buffer behind param scan = .ok r) :
    r.param = if env.copied buffer.length < buffer.length then param
      else scan (buffer ++ behind) := by
  rcases halloc : kmalloc env heap with ⟨_ | str, heap'⟩
  · simp [writeParam, halloc] at h
  · by_cases hcopy : env.copied buffer.length < buffer.length
    · rw [if_pos hcopy]
      simp [writeParam, halloc, hcopy] at h
      rw [← h]
    · rw [if_neg hcopy]
      simp [writeParam, halloc, hcopy] at h
      rw [← h.2]

/-- What a write that returns has done. -/
theorem write_effect {env : Env} {heap : Heap} {buffer behind : List UInt8} {procs : ProcTable}
    {current : Caller} {d : Driver} {node : Node} {r : Result Effect}
    (h : sol.write env heap buffer behind procs current d node = .ok r) :
    r.param = if env.copied buffer.length < buffer.length then (d, none)
      else match node with
        | .pid => setPid procs d (buffer ++ behind)
        | .signal => setSignal current d (buffer ++ behind) := by
  have ha {r : Result Effect}
      (h : Solution.a.write env heap buffer behind procs current d node = .ok r) :
      r.param = if env.copied buffer.length < buffer.length then (d, none)
        else match node with
          | .pid => setPid procs d (buffer ++ behind)
          | .signal => setSignal current d (buffer ++ behind) := by
    cases node <;> exact writeParam_param h
  cases sol with
  | a => exact ha h
  | b =>
      rcases write_agree (rfl : heap.requests = heap.requests) current.pid node env buffer behind
        procs current d with ⟨f, -, hb⟩ | ⟨ret, effect, hsame, hb⟩
      · rw [hb] at h
        cases h
      · rw [hb] at h
        cases h
        have hparam := ha hsame
        exact hparam

theorem initial_refines : Refines State.initial.view ioctlInitial where
  driver := rfl
  procs := rfl
  sends := rfl
  sigPid := by decide
  sigTosend := by decide
  tasks _ _ h := by cases h

/-- A call of the ioctl driver by a task that has not exited. -/
theorem ioctl_step {pid : ℤ} {tsk : ℕ} (htsk : u.procs.pidTask pid = some tsk) (cmd : ℕ) (arg : ℤ) :
    u.step (.ioctl pid cmd arg) = .ok (u.call tsk pid cmd arg) := by
  simp only [Ioctl.Signal.State.step, htsk]

theorem setPid_refines (h : Refines v u) {pid : ℤ} {tsk : ℕ}
    (htsk : v.procs.pidTask pid = some tsk) (str : List UInt8) {r : Result Effect}
    (hr : r.param = setPid v.procs v.driver str) :
    ∃ u', Runs.exec Ioctl.Signal.State.step u
        [.ioctl pid MYIOC_SETPID (sscanf str v.driver.sigPid)] = .ok u' ∧
      Refines (v.wrote r) u' := by
  have hpid := toInt32_sscanf str h.sigPid
  refine ⟨u.call tsk pid MYIOC_SETPID (sscanf str v.driver.sigPid), ?_, ?_, h.procs, ?_, ?_, ?_,
    h.tasks⟩
  · rw [Runs.exec_cons, ioctl_step (by rw [h.procs, htsk])]
    rfl
  · simp [Ioctl.Signal.State.call, mycdrvUnlockedIoctl, hpid, h.driver, h.procs, View.wrote, hr,
      setPid]
  · simp [Ioctl.Signal.State.call, mycdrvUnlockedIoctl, View.wrote, hr, setPid, h.sends]
  · simp only [View.wrote, hr, setPid]
    exact hpid
  · simp only [View.wrote, hr, setPid]
    exact h.sigTosend

theorem setSignal_refines (h : Refines v u) {pid : ℤ} {tsk : ℕ}
    (htsk : v.procs.pidTask pid = some tsk) (str : List UInt8) {r : Result Effect}
    (hr : r.param = setSignal ⟨tsk, pid⟩ v.driver str) :
    ∃ u', Runs.exec Ioctl.Signal.State.step u
        [.ioctl pid MYIOC_SETSIG (sscanf str v.driver.sigTosend), .ioctl pid MYIOC_SENDSIG 0] =
          .ok u' ∧
      Refines (v.wrote r) u' := by
  have hsetpid : MYIOC_SETSIG ≠ MYIOC_SETPID := by decide
  have hsendpid : MYIOC_SENDSIG ≠ MYIOC_SETPID := by decide
  have hsendsig : MYIOC_SENDSIG ≠ MYIOC_SETSIG := by decide
  have hsignal := toInt32_sscanf str h.sigTosend
  have htasks := h.tasks pid tsk htsk
  let u₁ := u.call tsk pid MYIOC_SETSIG (sscanf str v.driver.sigTosend)
  have hdriver : u₁.driver = { v.driver with sigTosend := sscanf str v.driver.sigTosend } := by
    simp [u₁, Ioctl.Signal.State.call, mycdrvUnlockedIoctl, hsetpid, hsignal, h.driver]
  have hsends : u₁.sends = u.sends := by
    simp [u₁, Ioctl.Signal.State.call, mycdrvUnlockedIoctl, hsetpid]
  have hprocs : u₁.procs = v.procs := h.procs
  refine ⟨u₁.call tsk pid MYIOC_SENDSIG 0, ?_, ?_, hprocs, ?_, ?_, ?_, h.tasks⟩
  · rw [Runs.exec_cons, ioctl_step (by rw [h.procs, htsk]), ok_bind, Runs.exec_cons,
      ioctl_step (by rw [hprocs, htsk])]
    rfl
  · simp only [Ioctl.Signal.State.call, mycdrvUnlockedIoctl, hsendpid, hsendsig, if_false, if_true,
      hdriver, View.wrote, hr, setSignal]
    cases v.driver.sigTsk <;> rfl
  · simp only [Ioctl.Signal.State.call, mycdrvUnlockedIoctl, hsendpid, hsendsig, if_false, if_true,
      hdriver, hsends, View.wrote, hr, setSignal]
    cases v.driver.sigTsk <;> simp [h.sends]
  · simp only [View.wrote, hr, setSignal]
    cases v.driver.sigTsk with
    | none => exact htasks
    | some _ => exact h.sigPid
  · simp only [View.wrote, hr, setSignal]
    cases v.driver.sigTsk <;> exact hsignal

theorem fork_refines (h : Refines v u) {pid : ℤ} {v' : View} (hstep : v.fork pid = .ok v') :
    ∃ u', u.step (.fork pid) = .ok u' ∧ Refines v' u' := by
  unfold View.fork at hstep
  split at hstep
  · next hfree =>
      cases hstep
      have hu : 0 < pid ∧ u.procs.pidTask pid = none := ⟨hfree.1.1, by rw [h.procs, hfree.2]⟩
      refine ⟨{ u with procs := u.procs.fork pid hu.2 },
        by simp only [Ioctl.Signal.State.step, dif_pos hu], h.driver, ?_, h.sends, h.sigPid,
        h.sigTosend, fun q tsk hq => ?_⟩
      · simp only [h.procs]
      · by_cases hqp : q = pid
        · subst hqp
          exact toInt32_of_mem (by omega) hfree.1.2
        · refine h.tasks q tsk ?_
          dsimp only [ProcTable.fork] at hq
          rwa [Function.update_of_ne hqp] at hq
  · cases hstep

theorem exit_refines (h : Refines v u) {pid : ℤ} {v' : View} (hstep : v.exit pid = .ok v') :
    ∃ u', u.step (.exit pid) = .ok u' ∧ Refines v' u' := by
  unfold View.exit at hstep
  split at hstep
  · next tsk htsk =>
      cases hstep
      have hu : u.procs.pidTask pid = some tsk := by rw [h.procs, htsk]
      refine ⟨{ u with procs := u.procs.exit pid tsk hu }, ?_, h.driver, ?_, h.sends,
        h.sigPid, h.sigTosend, fun q t hq => ?_⟩
      · simp only [Ioctl.Signal.State.step]
        split
        · next t ht =>
            obtain rfl : t = tsk := Option.some.inj (ht.symm.trans hu)
            rfl
        · next hnone => simp [hu] at hnone
      · simp only [h.procs]
      · by_cases hqp : q = pid
        · simp [ProcTable.exit, hqp] at hq
        · refine h.tasks q t ?_
          dsimp only [ProcTable.exit] at hq
          rwa [Function.update_of_ne hqp] at hq
  · cases hstep

theorem step_refines (h : Refines s.view u) (hstep : s.step sol e = .ok s') :
    ∃ u', Runs.exec Ioctl.Signal.State.step u (calls s e) = .ok u' ∧ Refines s'.view u' := by
  cases e with
  | fork pid =>
      simp only [State.step] at hstep
      cases hv : s.view.fork pid with
      | error f => simp [hv, Except.map] at hstep
      | ok v =>
          obtain ⟨u', hu', hr⟩ := fork_refines h hv
          simp only [hv, Except.map, Except.ok.injEq] at hstep
          subst hstep
          exact ⟨u', by rw [calls, Runs.exec_cons, hu']; rfl, hr⟩
  | exit pid =>
      simp only [State.step] at hstep
      cases hv : s.view.exit pid with
      | error f => simp [hv, Except.map] at hstep
      | ok v =>
          obtain ⟨u', hu', hr⟩ := exit_refines h hv
          simp only [hv, Except.map, Except.ok.injEq] at hstep
          subst hstep
          exact ⟨u', by rw [calls, Runs.exec_cons, hu']; rfl, hr⟩
  | read node =>
      cases hstep
      exact ⟨u, rfl, { h with }⟩
  | write pid node env buffer behind =>
      simp only [State.step] at hstep
      split at hstep
      · next tsk htsk =>
          split at hstep
          · next r hr =>
              cases hstep
              have heffect := write_effect hr
              by_cases hcopy : env.copied buffer.length < buffer.length
              · rw [if_pos hcopy] at heffect
                refine ⟨u, by simp [calls, hcopy], ?_⟩
                simp only [View.wrote, heffect, Option.toList, List.append_nil]
                exact { h with }
              · rw [if_neg hcopy] at heffect
                cases node with
                | pid =>
                    simp only [calls, if_neg hcopy]
                    exact setPid_refines h htsk _ heffect
                | signal =>
                    simp only [calls, if_neg hcopy]
                    exact setSignal_refines h htsk _ heffect
          · cases hstep
      · cases hstep

/-- Every run of either solution is one of the ioctl driver: a number written to "pid" is
`MYIOC_SETPID`, one written to "signal" is `MYIOC_SETSIG` and `MYIOC_SENDSIG`. -/
theorem proc_refines_ioctl (sol : Solution) (es : List Event) :
    Meets (fun _ => True) (fun s' => ∃ u,
        Runs.exec Ioctl.Signal.State.step ioctlInitial
          (Runs.expand (State.step sol) calls .initial es) = .ok u ∧ Refines s'.view u)
      (Runs.exec (State.step sol) .initial es) :=
  meets_of_ok fun _ hrun => Runs.exec_expands (R := fun s u => Refines s.view u)
    (fun _ _ _ _ h hstep => step_refines h hstep) initial_refines hrun

end LddSamples.Debug.ProcSig
