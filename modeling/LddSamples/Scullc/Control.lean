import LddSamples.Scullc.Transfer

/-!
# Loading, opening, trimming, seeking and configuring scullc

Everything that changes the geometry: `scullc_init` samples the parameters,
`scullc_ioctl` changes the module's variables at any time, and `scullc_trim`
copies them into an emptied device.
-/

namespace LddSamples.Scullc

open Kernel CArith Outcome

/-! ## Trimming -/

/-- One turn of the loop of `scullc_trim` on a list item's data: the slots
`0 .. qset - 1` are read and their quanta freed, then the array. -/
def freeData (qset : ℤ) (heap : Heap) : Option PtrArray → Except Fault Heap
  | none => .ok heap
  | some data => do
      require .indexOutOfBounds (qset ≤ data.len)
      let quanta := (List.range qset.toNat).filterMap fun i => (data.slots i).map Quantum.addr
      .ok (kfree (quanta.foldl kfree heap) data.addr)

def freeItems (qset : ℤ) (heap : Heap) : List ListItem → Except Fault Heap
  | [] => .ok heap
  | item :: items => do
      let heap ← freeData qset heap item.data
      freeItems qset (kfree heap item.addr) items

def ScullcDev.trimmed (dev : ScullcDev) (m : Module) : ScullcDev :=
  { dev with
    data := none
    next := []
    size := 0
    qset := m.scullcQset
    quantum := m.scullcQuantum }

def scullcTrim (m : Module) (heap : Heap) (dev : ScullcDev) :
    Except Fault (ℤ × ScullcDev × Heap) :=
  if dev.vmas ≠ 0 then .ok (-EBUSY, dev, heap)
  else do
    let heap ← freeData dev.qset heap dev.data
    let heap ← freeItems dev.qset heap dev.next
    .ok (0, dev.trimmed m, heap)

/-! ## Opening and loading -/

def O_ACCMODE : ℕ := 3
def O_WRONLY : ℕ := 1

def scullcOpen (env : Env) (m : Module) (heap : Heap) (dev : ScullcDev) (flags : ℕ) :
    Except Fault (ℤ × ScullcDev × Heap) :=
  if flags % (O_ACCMODE + 1) = O_WRONLY then
    if env.signalled then .ok (-ERESTARTSYS, dev, heap)
    else do
      let (_, dev, heap) ← scullcTrim m heap dev.lock
      .ok (0, dev.unlock, heap)
  else .ok (0, dev, heap)

def ScullcDev.fresh (quantum qset : ℤ) : ScullcDev :=
  ⟨none, [], 0, quantum, qset, 0, false⟩

/-- The variables of the module with default parameters, and the cache that
`scullc_init` creates from them. -/
def Module.initial : Module := ⟨SCULLC_QUANTUM, SCULLC_QSET, SCULLC_QUANTUM.toNat⟩

def ScullcDev.initial : ScullcDev :=
  .fresh Module.initial.scullcQuantum Module.initial.scullcQset

/-! ## Seeking -/

/-- The returned value and the new `filp->f_pos`. -/
def scullcLlseek (dev : ScullcDev) (fPos off : ℤ) (whence : ℕ) : ℤ × ℤ :=
  match whence with
  | 0 => settle off
  | 1 => settle (toInt64 (fPos + off))
  | 2 => settle (toInt64 (dev.size + off))
  | _ => (-EINVAL, fPos)
where
  settle (newpos : ℤ) : ℤ × ℤ := if newpos < 0 then (-EINVAL, fPos) else (newpos, newpos)

/-! ## ioctl -/

def ioc (dir type nr size : ℕ) : ℕ := dir * 1073741824 + size * 65536 + type * 256 + nr

def SCULLC_IOC_MAGIC : ℕ := 75
def SCULLC_IOC_MAXNR : ℕ := 12

def SCULLC_IOCRESET : ℕ := ioc 0 SCULLC_IOC_MAGIC 0 0
def SCULLC_IOCSQUANTUM : ℕ := ioc 1 SCULLC_IOC_MAGIC 1 4
def SCULLC_IOCTQUANTUM : ℕ := ioc 0 SCULLC_IOC_MAGIC 2 0
def SCULLC_IOCGQUANTUM : ℕ := ioc 2 SCULLC_IOC_MAGIC 3 4
def SCULLC_IOCQQUANTUM : ℕ := ioc 0 SCULLC_IOC_MAGIC 4 0
def SCULLC_IOCXQUANTUM : ℕ := ioc 3 SCULLC_IOC_MAGIC 5 4
def SCULLC_IOCHQUANTUM : ℕ := ioc 0 SCULLC_IOC_MAGIC 6 0
def SCULLC_IOCSQSET : ℕ := ioc 1 SCULLC_IOC_MAGIC 7 4
def SCULLC_IOCTQSET : ℕ := ioc 0 SCULLC_IOC_MAGIC 8 0
def SCULLC_IOCGQSET : ℕ := ioc 2 SCULLC_IOC_MAGIC 9 4
def SCULLC_IOCQQSET : ℕ := ioc 0 SCULLC_IOC_MAGIC 10 0
def SCULLC_IOCXQSET : ℕ := ioc 3 SCULLC_IOC_MAGIC 11 4
def SCULLC_IOCHQSET : ℕ := ioc 0 SCULLC_IOC_MAGIC 12 0

/-- The `int` at the user address `arg`: what reading it yields, `none` if it
faults, and whether writing it faults. -/
structure UserInt where
  value : Option ℤ
  storeFaults : Bool

/-- `__get_user(x, p)` sets `x` to zero when the access faults. -/
def UserInt.get (u : UserInt) : ℤ × ℤ :=
  match u.value with
  | some v => (0, toInt32 v)
  | none => (-EFAULT, 0)

def UserInt.put (u : UserInt) : ℤ := if u.storeFaults then -EFAULT else 0

/-- The six commands on one variable. The result is the value returned and the
value the variable has afterwards. -/
inductive VarCmd
  | set
  | tell
  | get
  | query
  | exchange
  | shift

def VarCmd.apply (var arg : ℤ) (u : UserInt) : VarCmd → ℤ × ℤ
  | .set => (u.get.1, u.get.2)
  | .tell => (0, toInt32 arg)
  | .get => (u.put, var)
  | .query => (var, var)
  | .exchange => (if u.get.1 = 0 then u.put else u.get.1, u.get.2)
  | .shift => (var, toInt32 arg)

def Module.onQuantum (m : Module) (arg : ℤ) (u : UserInt) (c : VarCmd) : ℤ × Module :=
  let r := c.apply m.scullcQuantum arg u
  (r.1, { m with scullcQuantum := r.2 })

def Module.onQset (m : Module) (arg : ℤ) (u : UserInt) (c : VarCmd) : ℤ × Module :=
  let r := c.apply m.scullcQset arg u
  (r.1, { m with scullcQset := r.2 })

inductive Command
  | reset
  | onQuantum (c : VarCmd)
  | onQset (c : VarCmd)

/-- The labels of the `switch (cmd)` of `scullc_ioctl`. -/
def commands : List (ℕ × Command) :=
  [(SCULLC_IOCRESET, .reset),
    (SCULLC_IOCSQUANTUM, .onQuantum .set),
    (SCULLC_IOCTQUANTUM, .onQuantum .tell),
    (SCULLC_IOCGQUANTUM, .onQuantum .get),
    (SCULLC_IOCQQUANTUM, .onQuantum .query),
    (SCULLC_IOCXQUANTUM, .onQuantum .exchange),
    (SCULLC_IOCHQUANTUM, .onQuantum .shift),
    (SCULLC_IOCSQSET, .onQset .set),
    (SCULLC_IOCTQSET, .onQset .tell),
    (SCULLC_IOCGQSET, .onQset .get),
    (SCULLC_IOCQQSET, .onQset .query),
    (SCULLC_IOCXQSET, .onQset .exchange),
    (SCULLC_IOCHQSET, .onQset .shift)]

def scullcIoctl (m : Module) (cmd : ℕ) (arg : ℤ) (u : UserInt) : ℤ × Module :=
  if cmd / 256 % 256 ≠ SCULLC_IOC_MAGIC then (-ENOTTY, m)
  else if cmd % 256 > SCULLC_IOC_MAXNR then (-ENOTTY, m)
  else
    match commands.lookup cmd with
    | some .reset => (0, { m with scullcQset := SCULLC_QSET, scullcQuantum := SCULLC_QUANTUM })
    | some (.onQuantum c) => m.onQuantum arg u c
    | some (.onQset c) => m.onQset arg u c
    | none => (-ENOTTY, m)

theorem scullcIoctl_objectSize (m : Module) (cmd : ℕ) (arg : ℤ) (u : UserInt) :
    (scullcIoctl m cmd arg u).2.objectSize = m.objectSize := by
  unfold scullcIoctl
  split_ifs
  · rfl
  · rfl
  · cases commands.lookup cmd with
    | none => rfl
    | some c => cases c <;> rfl

theorem scullcTrim_ok {m : Module} {heap heap' : Heap} {dev dev' : ScullcDev} {ret : ℤ}
    (h : scullcTrim m heap dev = .ok (ret, dev', heap')) :
    (dev.vmas ≠ 0 ∧ dev' = dev) ∨ (dev.vmas = 0 ∧ dev' = dev.trimmed m) := by
  unfold scullcTrim at h
  split at h
  · next hvmas =>
      cases h
      exact .inl ⟨hvmas, rfl⟩
  · next hvmas =>
      simp only [bind_eq_ok, Except.ok.injEq, Prod.mk.injEq] at h
      obtain ⟨_, -, _, -, -, rfl, -⟩ := h
      exact .inr ⟨not_not.mp hvmas, rfl⟩

theorem scullcOpen_ok {env : Env} {m : Module} {heap heap' : Heap} {dev dev' : ScullcDev}
    {flags : ℕ} {ret : ℤ} (h : scullcOpen env m heap dev flags = .ok (ret, dev', heap')) :
    dev' = dev ∨ dev' = dev.lock.unlock ∨ (flags % (O_ACCMODE + 1) = O_WRONLY ∧
      env.signalled = false ∧ dev.vmas = 0 ∧ dev' = (dev.lock.trimmed m).unlock) := by
  unfold scullcOpen at h
  split at h
  · next hflags =>
      split at h
      · cases h
        exact .inl rfl
      · next hsignal =>
          simp only [bind_eq_ok, Prod.exists, Except.ok.injEq, Prod.mk.injEq] at h
          obtain ⟨_, dev₁, _, htrim, -, rfl, -⟩ := h
          rcases scullcTrim_ok htrim with ⟨-, rfl⟩ | ⟨hvmas, rfl⟩
          · exact .inr (.inl rfl)
          · exact .inr (.inr ⟨hflags, by simpa using hsignal, hvmas, rfl⟩)
  · cases h
    exact .inl rfl

end LddSamples.Scullc
