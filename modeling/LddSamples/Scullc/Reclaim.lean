import LddSamples.Scullc.Ownership
import LddSamples.Scullc.Returns

/-!
# The accounts of scullc's memory

Arrays are allocated with the geometry of the device, freed with it, and replaced by
those of the module's variables only when all of them are gone. So over whole runs
every address that was granted is owned by one device, once, or has been freed once.
-/

namespace LddSamples.Scullc

open Kernel CArith Outcome

/-- A write-only open frees exactly what the device no longer owns. -/
theorem scullcOpen_owned {env : Env} {m : Module} {heap heap' : Heap} {dev dev' : ScullcDev}
    {flags : ℕ} {ret : ℤ} (hdev : Shaped dev)
    (h : scullcOpen env m heap dev flags = .ok (ret, dev', heap')) :
    ∃ gone, heap'.freed = heap.freed ++ gone ∧ heap'.requests = heap.requests ∧
      gone ++ dev'.owned = dev.owned := by
  have hlock : Shaped dev.lock := (SameData.lock dev).shaped hdev
  unfold scullcOpen at h
  split at h
  · split at h
    · cases h
      exact ⟨[], by simp⟩
    · by_cases hvmas : dev.lock.vmas = 0
      · rw [scullcTrim_frees m heap hlock hvmas] at h
        cases h
        exact ⟨dev.owned, rfl, rfl, List.append_nil _⟩
      · simp only [scullcTrim, ne_eq, hvmas, not_false_eq_true, if_true] at h
        cases h
        exact ⟨[], by simp⟩
  · cases h
    exact ⟨[], by simp⟩

namespace System

/-- The module loaded with default variables, and a cache of objects of `size` bytes. -/
def loaded (size : ℕ) : System := { initial with module := { Module.initial with objectSize := size } }

example : loaded 4000 = initial := rfl

/-- The environment grants every allocation of the call. -/
def AllocationsSucceed (_ : System) : Call → Prop
  | .openDev _ _ _ env => ∀ n, env.grants n = true
  | .read _ env _ _ _ => ∀ n, env.grants n = true
  | .write _ env _ _ _ => ∀ n, env.grants n = true
  | _ => True

/-- All the arrays have the length that their device says, and every address that has
been granted is owned by a device or freed, and only once. -/
structure Accounts (sys : System) : Prop where
  arrays : ∀ i n data, (sys.devs i).dataAt n = some data → (data.len : ℤ) = (sys.devs i).qset
  once : (sys.heap.freed : Multiset ℕ) + ∑ i, ((sys.devs i).owned : Multiset ℕ) =
    Multiset.range sys.heap.requests

/-- A trim comes to its end. It frees what the device owns, each address once, and
leaves the device empty and the others as they were. -/
def TrimFrees (sys : System) (call : Call) : Prop :=
  ∀ i, sys.Trims call i → ∃ sys', sys.step call = .ok sys' ∧
    (sys'.devs i).size = 0 ∧ (sys'.devs i).data = none ∧ (sys'.devs i).next = [] ∧
    sys'.heap.freed = sys.heap.freed ++ (sys.devs i).owned ∧
    (∀ a ∈ (sys.devs i).owned, sys'.heap.freed.count a = 1) ∧
    ∀ j, j ≠ i → sys'.devs j = sys.devs j

structure Kept (sys : System) : Prop where
  good : sys.module.Good
  regular : ∀ i, World.Regular (sys.devs i)
  once : (sys.heap.freed : Multiset ℕ) + ∑ i, ((sys.devs i).owned : Multiset ℕ) =
    Multiset.range sys.heap.requests

theorem loaded_kept (size : ℕ) : Kept (loaded size) where
  good := World.initial_good
  regular _ := (World.initial_steady (ι := ℕ)).regular
  once := rfl

variable {sys sys' : System} {call : Call}

theorem Kept.accounts (h : Kept sys) : Accounts sys where
  arrays i := (h.regular i).shaped
  once := h.once

/-- What a call does to the memory: one device is granted `new` and gives back `gone`. -/
theorem step_memory (hsys : Kept sys) (halloc : sys.AllocationsSucceed call)
    (h : sys.step call = .ok sys') :
    ∃ i dev gone, sys'.devs = Function.update sys.devs i dev ∧
      sys'.heap.freed = sys.heap.freed ++ gone ∧ sys.heap.requests ≤ sys'.heap.requests ∧
      (gone ++ dev.owned).Perm ((sys.devs i).owned ++ asked sys.heap sys'.heap) := by
  have hnothing : sys'.devs = sys.devs → sys'.heap = sys.heap →
      ∃ i dev gone, sys'.devs = Function.update sys.devs i dev ∧
        sys'.heap.freed = sys.heap.freed ++ gone ∧ sys.heap.requests ≤ sys'.heap.requests ∧
        (gone ++ dev.owned).Perm ((sys.devs i).owned ++ asked sys.heap sys'.heap) := by
    intro hdevs hheap
    refine ⟨0, sys.devs 0, [], ?_, ?_, ?_, ?_⟩
    · rw [hdevs, Function.update_eq_self]
    · simp [hheap]
    · rw [hheap]
    · simp [hheap, asked_self]
  cases call with
  | ioctl cmd arg u =>
      cases h
      exact hnothing rfl rfl
  | llseek fd off whence =>
      simp only [step] at h
      split at h <;> (cases h; exact hnothing rfl rfl)
  | openDev fd j flags env =>
      simp only [step, bind_eq_ok, Prod.exists, Except.ok.injEq] at h
      obtain ⟨ret, dev, heap, hopen, rfl⟩ := h
      obtain ⟨gone, hfreed, hrequests, howned⟩ := scullcOpen_owned (hsys.regular j).shaped hopen
      refine ⟨j, dev, gone, rfl, hfreed, hrequests.ge, ?_⟩
      simp [howned, asked, hrequests]
  | read fd env count given aio =>
      simp only [step] at h
      rcases transfer_ok h with rfl | ⟨file, t, hfile, hpos, hread, -, hdevs, hheap⟩
      · exact hnothing rfl rfl
      · obtain ⟨new, hgains, howned⟩ := scullcDoRead_owned hread
        refine ⟨file.dev, t.dev, [], hdevs, by simp [hheap, hgains.freed], ?_, ?_⟩
        · rw [hheap]
          exact hgains.le
        · rwa [hheap, ← hgains.all halloc]
  | write fd env buf given aio =>
      simp only [step] at h
      rcases transfer_ok h with rfl | ⟨file, t, hfile, hpos, hwrite, -, hdevs, hheap⟩
      · exact hnothing rfl rfl
      · have hqset : 0 ≤ (sys.devs file.dev).qset := by
          obtain ⟨q, s, -, -, hs⟩ := (hsys.regular file.dev).geometry
          omega
        obtain ⟨new, hgains, howned⟩ := scullcDoWrite_owned hqset hwrite
        refine ⟨file.dev, t.dev, [], hdevs, by simp [hheap, hgains.freed], ?_, ?_⟩
        · rw [hheap]
          exact hgains.le
        · rwa [hheap, ← hgains.all halloc]

theorem sum_owned_update (devs : Fin SCULLC_DEVS → ScullcDev) (i : Fin SCULLC_DEVS)
    (dev : ScullcDev) :
    (∑ j, ((Function.update devs i dev j).owned : Multiset ℕ)) + (devs i).owned =
      (∑ j, ((devs j).owned : Multiset ℕ)) + dev.owned := by
  have hrest : ∑ j ∈ Finset.univ.erase i, ((Function.update devs i dev j).owned : Multiset ℕ) =
      ∑ j ∈ Finset.univ.erase i, ((devs j).owned : Multiset ℕ) := by
    apply Finset.sum_congr rfl
    intro j hj
    rw [Function.update_of_ne (Finset.ne_of_mem_erase hj)]
  rw [← Finset.add_sum_erase _ _ (Finset.mem_univ i),
    ← Finset.add_sum_erase _ _ (Finset.mem_univ i),
    hrest, Function.update_self]
  abel

theorem range_asked {heap heap' : Heap} (h : heap.requests ≤ heap'.requests) :
    Multiset.range heap'.requests =
      Multiset.range heap.requests + (asked heap heap' : Multiset ℕ) := by
  obtain ⟨n, hn⟩ := Nat.exists_eq_add_of_le h
  have hasked : asked heap heap' = List.range' (0 + heap.requests) n := by
    simp [asked, hn]
  rw [hasked, Multiset.range, Multiset.range, Multiset.coe_add, List.range_eq_range',
    List.range_eq_range', hn, List.range'_append_1]

theorem step_once (hsys : Kept sys) (halloc : sys.AllocationsSucceed call)
    (h : sys.step call = .ok sys') :
    (sys'.heap.freed : Multiset ℕ) + ∑ i, ((sys'.devs i).owned : Multiset ℕ) =
      Multiset.range sys'.heap.requests := by
  obtain ⟨i, dev, gone, hdevs, hfreed, hle, hperm⟩ := step_memory hsys halloc h
  have hsum := sum_owned_update sys.devs i dev
  have hmoved : (gone : Multiset ℕ) + dev.owned =
      (sys.devs i).owned + (asked sys.heap sys'.heap : Multiset ℕ) := by
    simpa only [Multiset.coe_add, Multiset.coe_eq_coe] using hperm
  have hbefore := hsys.once
  rw [hdevs, hfreed, range_asked hle, ← Multiset.coe_add]
  rw [← hbefore]
  have hkey : ((sys.heap.freed : Multiset ℕ) + gone +
      ∑ j, ((Function.update sys.devs i dev j).owned : Multiset ℕ)) + (sys.devs i).owned =
      ((sys.heap.freed : Multiset ℕ) + ∑ j, ((sys.devs j).owned : Multiset ℕ) +
        (asked sys.heap sys'.heap : Multiset ℕ)) + (sys.devs i).owned := by
    calc
      _ = (sys.heap.freed : Multiset ℕ) + gone +
          ((∑ j, ((Function.update sys.devs i dev j).owned : Multiset ℕ)) + (sys.devs i).owned) := by
        abel
      _ = (sys.heap.freed : Multiset ℕ) + (∑ j, ((sys.devs j).owned : Multiset ℕ)) +
          (gone + dev.owned) := by
        rw [hsum]
        abel
      _ = _ := by
        rw [hmoved]
        abel
  exact add_right_cancel hkey

theorem step_kept (hsys : Kept sys) (hioctl : sys.IoctlGood call)
    (halloc : sys.AllocationsSucceed call) (h : sys.step call = .ok sys') : Kept sys' := by
  refine ⟨?_, fun i => ?_, step_once hsys halloc h⟩
  · rcases step_module h with ⟨hmodule, -⟩ | ⟨cmd, arg, u, hcall, hmodule⟩
    · rw [hmodule]
      exact hsys.good
    · rw [hmodule]
      exact hioctl cmd arg u hcall
  · have hregular := hsys.regular i
    rcases step_devs h i with hsame | ⟨-, hdev⟩ | ⟨pos, -, env, heap, buf, aio, t, hwrite, hdev⟩
    · exact hregular.of_sameData hsame
    · -- a trim takes over the variables of the module
      obtain ⟨q, s, hg, hq, hs⟩ := hsys.good.geometry
      rw [hdev]
      exact ⟨⟨q, s, hg, hq, hs⟩, trimmed_shaped _ _⟩
    · have hlock : World.Regular (sys.devs i).lock := hregular.of_sameData (.lock _)
      rw [hdev]
      exact hlock.locked (r := .write buf pos aio) hwrite

theorem Kept.count_le_one (h : Kept sys) (a : ℕ) :
    sys.heap.freed.count a + ∑ i, (sys.devs i).owned.count a ≤ 1 := by
  have hcount := congrArg (Multiset.count a) h.once
  have hnodup := Multiset.nodup_iff_count_le_one.mp (Multiset.nodup_range sys.heap.requests) a
  simp only [Multiset.count_add, Multiset.count_sum', Multiset.coe_count] at hcount
  omega

theorem step_trimFrees (hsys : Kept sys) : sys.TrimFrees call := by
  rintro i ⟨fd, flags, env, rfl, hflags, hsignal, hvmas⟩
  have hlock : Shaped (sys.devs i).lock := (SameData.lock _).shaped (hsys.regular i).shaped
  have hopen : scullcOpen env sys.module sys.heap (sys.devs i) flags =
      .ok (0, ((sys.devs i).lock.trimmed sys.module).unlock,
        { sys.heap with freed := sys.heap.freed ++ (sys.devs i).owned }) := by
    simp [scullcOpen, hflags, hsignal, scullcTrim_frees sys.module sys.heap hlock hvmas]
  obtain ⟨sys', hstep, hdevs, hheap⟩ : ∃ sys', sys.step (.openDev fd i flags env) = .ok sys' ∧
      sys'.devs = Function.update sys.devs i ((sys.devs i).lock.trimmed sys.module).unlock ∧
      sys'.heap = { sys.heap with freed := sys.heap.freed ++ (sys.devs i).owned } :=
    ⟨_, by simp only [step, hopen, ok_bind]; rfl, rfl, rfl⟩
  have hdev : sys'.devs i = ((sys.devs i).lock.trimmed sys.module).unlock := by
    rw [hdevs, Function.update_self]
  refine ⟨sys', hstep, by rw [hdev]; rfl, by rw [hdev]; rfl, by rw [hdev]; rfl, by rw [hheap],
    fun a ha => ?_, fun j hj => by rw [hdevs, Function.update_of_ne hj]⟩
  have hle := hsys.count_le_one a
  have hone : 0 < (sys.devs i).owned.count a := List.count_pos_iff.mpr ha
  have hpart := Finset.single_le_sum (f := fun j => (sys.devs j).owned.count a)
    (fun _ _ => Nat.zero_le _) (Finset.mem_univ i)
  rw [hheap, List.count_append]
  omega

/-! ## Objects that hold every quantum -/

theorem step_objectSize (h : sys.step call = .ok sys') :
    sys'.module.objectSize = sys.module.objectSize := by
  rcases step_module h with ⟨hmodule, -⟩ | ⟨cmd, arg, u, -, hmodule⟩
  · rw [hmodule]
  · rw [hmodule, scullcIoctl_objectSize]

theorem Kept.roomy (hsys : Kept sys) (hsize : INT_MAX ≤ sys.module.objectSize)
    (i : Fin SCULLC_DEVS) : Roomy sys.module (sys.devs i) := by
  obtain ⟨q, s, hg, hq, -⟩ := hsys.good.geometry
  obtain ⟨q', s', hg', hq', -⟩ := (hsys.regular i).geometry
  have hfits := hg.quantum_le
  have hroom := hg'.quantum_le
  exact ⟨hsys.good, by omega, hsys.regular i, by omega⟩

theorem step_returns (hsys : Kept sys) (hsize : INT_MAX ≤ sys.module.objectSize)
    (halloc : sys.AllocationsSucceed call) : ∃ sys', sys.step call = .ok sys' := by
  have htransfer : ∀ (fd : ℕ) (given : Option ℤ) (go : ScullcDev → ℤ → Except Fault Transfer),
      (∀ i pos, 0 ≤ pos → ∃ t, go (sys.devs i) pos = .ok t) →
        ∃ sys', sys.transfer fd given go = .ok sys' := by
    intro fd given go hgo
    cases hrun : sys.transfer fd given go with
    | ok sys' => exact ⟨sys', rfl⟩
    | error f =>
        obtain ⟨file, -, hpos, herror⟩ := transfer_error hrun
        obtain ⟨t, ht⟩ := hgo file.dev _ hpos
        rw [ht] at herror
        cases herror
  have hlock : ∀ i, Roomy sys.module (sys.devs i).lock := fun i =>
    (hsys.roomy hsize i).of_sameData (.lock _)
  cases call with
  | ioctl cmd arg u => exact ⟨_, rfl⟩
  | llseek fd off whence =>
      simp only [step]
      split <;> exact ⟨_, rfl⟩
  | openDev fd i flags env =>
      obtain ⟨r, hopen⟩ := scullcOpen_returns env sys.module sys.heap (hsys.regular i).shaped flags
      exact ⟨_, by simp only [step, hopen, ok_bind]; rfl⟩
  | read fd env count given aio =>
      simp only [step]
      apply htransfer
      intro i pos hpos
      unfold scullcDoRead
      split
      · exact ⟨_, rfl⟩
      · exact ((hlock i).readLocked_returns_iff hpos count aio).mpr fun _ _ _ n _ => halloc _
  | write fd env buf given aio =>
      simp only [step]
      apply htransfer
      intro i pos hpos
      unfold scullcDoWrite
      split
      · exact ⟨_, rfl⟩
      · exact ((hlock i).writeLocked_returns_iff hpos buf _ aio).mpr fun _ _ n _ => halloc _

/-- In every run of calls, whatever good variables the ioctls set, arrays have the
length that their device says, no address is owned twice or freed twice or lost, and
trims empty their device. When the objects of the cache hold every quantum, no call
stops the run. -/
theorem memory_accounted (size : ℕ) (calls : List Call)
    (hioctl : Runs.Along step IoctlGood (loaded size) calls)
    (halloc : Runs.Along step AllocationsSucceed (loaded size) calls) :
    Runs.Always step Accounts (loaded size) calls ∧
      Runs.Along step TrimFrees (loaded size) calls ∧
      (INT_MAX ≤ size → ∃ sys, Runs.exec step (loaded size) calls = .ok sys) := by
  have hall := Runs.along_and.mpr ⟨hioctl, halloc⟩
  refine ⟨?_, ?_, fun hsize => ?_⟩
  · apply Runs.always_of_along (I := Kept) ?_ ?_ (loaded_kept size) hall
    · intro sys hsys
      exact hsys.accounts
    · intro sys call sys' hsys hC h
      exact step_kept hsys hC.1 hC.2 h
  · apply Runs.along_of_along (I := Kept) ?_ ?_ (loaded_kept size) hall
    · intro sys call hsys _
      exact step_trimFrees hsys
    · intro sys call sys' hsys hC h
      exact step_kept hsys hC.1 hC.2 h
  · apply Runs.exec_of_along (I := fun sys => Kept sys ∧ sys.module.objectSize = size) ?_ ?_
      ⟨loaded_kept size, rfl⟩ hall
    · rintro sys call ⟨hsys, hobject⟩ hC
      exact step_returns hsys (hobject ▸ hsize) hC.2
    · rintro sys call sys' ⟨hsys, hobject⟩ hC h
      exact ⟨step_kept hsys hC.1 hC.2 h, (step_objectSize h).trans hobject⟩

/-- `SCULLC_IOCTQSET` sets 3, two opens trim the device, and a write in between puts a
quantum, an array and three list items there. -/
def refilled : List Call :=
  [.ioctl SCULLC_IOCTQSET 3 ⟨none, true⟩, .openDev 0 0 O_WRONLY Env.calm,
    .write 0 Env.calm [7] (some 40000) false, .openDev 1 0 O_WRONLY Env.calm]

theorem refilled_accounted :
    Runs.Always step Accounts (loaded 2147483647) refilled ∧
      Runs.Along step TrimFrees (loaded 2147483647) refilled ∧
      ∃ sys, Runs.exec step (loaded 2147483647) refilled = .ok sys := by
  have hioctl : Runs.Along step IoctlGood (loaded 2147483647) refilled := by
    refine ⟨?_, fun s₁ _ => ⟨?_, fun s₂ _ => ⟨?_, fun s₃ _ => ⟨?_, fun s₄ _ => trivial⟩⟩⟩⟩
    · rintro cmd arg u ⟨⟩
      exact ⟨by decide, by decide, by decide⟩
    · nofun
    · nofun
    · nofun
  have halloc : Runs.Along step AllocationsSucceed (loaded 2147483647) refilled :=
    ⟨trivial, fun _ _ => ⟨fun _ => rfl, fun _ _ => ⟨fun _ => rfl, fun _ _ =>
      ⟨fun _ => rfl, fun _ _ => trivial⟩⟩⟩⟩
  obtain ⟨haccounts, htrims, hgo⟩ := memory_accounted 2147483647 refilled hioctl halloc
  exact ⟨haccounts, htrims, hgo (by decide)⟩

end System

end LddSamples.Scullc
