import LddSamples.Kernel.Process
import LddSamples.Library.Census
import LddSamples.Library.Runs

/-!
# sync_lab1, sync_lab2: modules that exclude each other

A module takes a lock of another module when it is loaded and gives it back when it is
unloaded. With `mutex_trylock` the load fails where the lock is taken, with
`down_interruptible` it waits for its turn or for a signal.
-/

namespace LddSamples.Sync.Contention

open Kernel Outcome Census

inductive Mechanism
  | mutex
  | semaphore

/-- A module is not loaded, or waits in `my_init`, or is loaded. -/
inductive Pc
  | unloaded
  | waiting
  | loaded
  deriving DecidableEq

/-- `count` is that of the lock, 1 for a mutex that is free. `returned` is what each load that
came to its end returned. -/
structure World (ι : Type) where
  count : ℕ
  waiters : List ι
  pc : ι → Pc
  returned : List ℤ

inductive Event (ι : Type)
  | insmod (p : ι)
  | signal (p : ι)
  | rmmod (p : ι)

namespace World

variable {ι : Type}

def initial : World ι := ⟨1, [], fun _ => .unloaded, []⟩

variable [DecidableEq ι]

def goto (w : World ι) (p : ι) (pc : Pc) : World ι := { w with pc := Function.update w.pc p pc }

/-- `up`: the first waiter gets the semaphore and its load goes on; the count grows when there
is none. -/
def up (w : World ι) : World ι :=
  match w.waiters with
  | [] => { w with count := w.count + 1 }
  | q :: waiters => { w.goto q .loaded with waiters := waiters, returned := w.returned ++ [0] }

def step (m : Mechanism) (w : World ι) : Event ι → Except Stop (World ι)
  | .insmod p =>
      match w.pc p with
      | .unloaded =>
          if 0 < w.count then
            .ok { w.goto p .loaded with count := w.count - 1, returned := w.returned ++ [0] }
          else
            match m with
            | .mutex => .ok { w with returned := w.returned ++ [-EBUSY] }
            | .semaphore => .ok { w.goto p .waiting with waiters := w.waiters ++ [p] }
      | _ => .error .disabled
  | .signal p =>
      match w.pc p with
      | .waiting => .ok { w.goto p .unloaded with
          waiters := w.waiters.erase p
          returned := w.returned ++ [-EBUSY] }
      | _ => .error .disabled
  | .rmmod p =>
      match w.pc p with
      | .loaded =>
          match m with
          | .mutex => .ok { w.goto p .unloaded with count := 1 }
          | .semaphore => .ok (w.goto p .unloaded).up
      | _ => .error .disabled

/-- No two modules are loaded, and where none is the lock is free and nobody waits for it. -/
def Excludes (w : World ι) : Prop :=
  (∀ p q, w.pc p = .loaded → w.pc q = .loaded → p = q) ∧
    ((∀ p, w.pc p ≠ .loaded) → w.count = 1 ∧ ∀ p, w.pc p ≠ .waiting)

def Loaded (pc : Pc) : Prop := pc = .loaded

/-- The waiters are in the queue, once, and the lock is the token of the module that is
loaded. -/
structure Inv (w : World ι) : Prop where
  pool : Pool Loaded w.pc 1 w.count
  waiters : ∀ p, p ∈ w.waiters ↔ w.pc p = .waiting
  nodup : w.waiters.Nodup
  taken : w.waiters ≠ [] → w.count = 0

variable {m : Mechanism} {w w' : World ι} {e : Event ι}

omit [DecidableEq ι] in
theorem initial_inv : Inv (initial : World ι) where
  pool := pool_full fun _ h => by cases h
  waiters _ := by simp [initial]
  nodup := List.nodup_nil
  taken h := absurd rfl h

theorem Inv.excludes (h : Inv w) : Excludes w := by
  constructor
  · intro p q hp hq
    have hcard : ({p, q} : Finset ι).card ≤ 1 := h.pool.card_le (by simp [Loaded, hp, hq])
    by_contra hne
    rw [Finset.card_pair hne] at hcard
    omega
  · intro hnone
    have hcount := h.pool.full_of_none hnone
    refine ⟨hcount, fun p hp => ?_⟩
    have hmem := (h.waiters p).mpr hp
    have htaken := h.taken (List.ne_nil_of_mem hmem)
    omega

theorem waiters_goto (hw : Inv w) {p : ι} (pc : Pc) (hwas : w.pc p ≠ .waiting)
    (hpc : pc ≠ .waiting) (q : ι) : q ∈ w.waiters ↔ (w.goto p pc).pc q = .waiting := by
  by_cases hq : q = p
  · simp [goto, hq, hpc, hw.waiters, hwas]
  · simp [goto, Function.update_of_ne hq, hw.waiters]

/-- The loaded module is unloaded, and has not yet given the lock back. -/
theorem Inv.unload (h : Inv w) {p : ι} (hp : w.pc p = .loaded) :
    Pool Loaded (w.goto p .unloaded).pc 1 (w.count + 1) ∧ w.count = 0 := by
  have hpool := h.pool.draw (i := p) (a := .unloaded) (.gives hp nofun)
  refine ⟨hpool, ?_⟩
  obtain ⟨n, -, htotal⟩ := hpool
  omega

theorem insmod_inv (h : Inv w) {p : ι} (hp : w.pc p = .unloaded) (hcount : 0 < w.count)
    (returned : List ℤ) :
    Inv { w.goto p .loaded with count := w.count - 1, returned := returned } where
  pool := h.pool.draw (.takes hcount (by rw [Loaded, hp]; exact nofun) rfl)
  waiters := waiters_goto h .loaded (by rw [hp]; exact nofun) nofun
  nodup := h.nodup
  taken hne := by
    have hzero := h.taken hne
    simp only
    omega

theorem wait_inv (h : Inv w) {p : ι} (hp : w.pc p = .unloaded) (hcount : ¬ 0 < w.count) :
    Inv { w.goto p .waiting with waiters := w.waiters ++ [p] } where
  pool := h.pool.draw (.stays (by simp [Loaded, hp]))
  waiters q := by
    by_cases hq : q = p
    · simp [goto, hq]
    · simp [goto, hq, h.waiters]
  nodup := by
    have hnew : p ∉ w.waiters := by simp [h.waiters, hp]
    exact List.Nodup.append h.nodup (List.nodup_singleton p) (by simpa using hnew)
  taken _ := Nat.eq_zero_of_not_pos hcount

theorem signal_inv (h : Inv w) {p : ι} (hp : w.pc p = .waiting) (returned : List ℤ) :
    Inv { w.goto p .unloaded with waiters := w.waiters.erase p, returned := returned } where
  pool := h.pool.draw (.stays (by simp [Loaded, hp]))
  waiters q := by
    by_cases hq : q = p
    · simp [goto, hq, h.nodup.mem_erase_iff]
    · simp [goto, h.nodup.mem_erase_iff, hq, h.waiters]
  nodup := h.nodup.erase p
  taken _ := h.taken (List.ne_nil_of_mem ((h.waiters p).mpr hp))

theorem mutexUnlock_inv (h : Inv w) {p : ι} (hp : w.pc p = .loaded) (hwaiters : w.waiters = []) :
    Inv { w.goto p .unloaded with count := 1 } := by
  obtain ⟨hpool, hcount⟩ := h.unload hp
  rw [hcount] at hpool
  exact {
    pool := hpool
    waiters := waiters_goto h .unloaded (by rw [hp]; exact nofun) nofun
    nodup := h.nodup
    taken := fun hne => absurd hwaiters hne }

theorem up_inv (h : Inv w) {p : ι} (hp : w.pc p = .loaded) : Inv (w.goto p .unloaded).up := by
  obtain ⟨hpool, hcount⟩ := h.unload hp
  have hwaiting := waiters_goto h .unloaded (by rw [hp]; exact nofun) nofun
  unfold up
  split
  · next hnone =>
      exact ⟨hpool, hwaiting, h.nodup, fun hne => absurd hnone hne⟩
  · next q waiters hsome =>
      -- the lock goes from one module to the next without becoming free
      have hlist : w.waiters = q :: waiters := hsome
      have hnodup : (q :: waiters).Nodup := hlist ▸ h.nodup
      have hq : (w.goto p .unloaded).pc q = .waiting := by
        rw [← hwaiting, hlist]
        exact List.mem_cons_self
      constructor
      · have hout : ¬ Loaded ((w.goto p .unloaded).pc q) := by
          rw [Loaded, hq]
          exact nofun
        have hin : Loaded .loaded := rfl
        exact hpool.draw (.takes (Nat.succ_pos _) hout hin)
      · intro r
        by_cases hr : r = q
        · subst hr
          simp [goto, (List.nodup_cons.mp hnodup).1]
        · have hold := hwaiting r
          rw [hlist, List.mem_cons, or_iff_right hr] at hold
          simpa [goto, Function.update_of_ne hr] using hold
      · exact (List.nodup_cons.mp hnodup).2
      · exact fun _ => hcount

/-- A mutex has no queue of loads. -/
def NoQueue (m : Mechanism) (w : World ι) : Prop :=
  match m with
  | .mutex => w.waiters = []
  | .semaphore => True

theorem step_inv (hw : Inv w ∧ NoQueue m w) (h : step m w e = .ok w') :
    Inv w' ∧ NoQueue m w' := by
  obtain ⟨hw, hqueue⟩ := hw
  cases e with
  | insmod p =>
      simp only [step] at h
      split at h
      · next hp =>
          split at h
          · next hcount =>
              cases h
              exact ⟨insmod_inv hw hp hcount _, hqueue⟩
          · next hcount =>
              cases m with
              | mutex =>
                  cases h
                  exact ⟨⟨hw.pool, hw.waiters, hw.nodup, hw.taken⟩, hqueue⟩
              | semaphore =>
                  cases h
                  exact ⟨wait_inv hw hp hcount, trivial⟩
      · cases h
  | signal p =>
      simp only [step] at h
      split at h
      · next hp =>
          cases h
          refine ⟨signal_inv hw hp _, ?_⟩
          cases m with
          | mutex =>
              have hnone : w.waiters = [] := hqueue
              simp [NoQueue, hnone]
          | semaphore => trivial
      · cases h
  | rmmod p =>
      simp only [step] at h
      split at h
      · next hp =>
          cases m with
          | mutex =>
              cases h
              exact ⟨mutexUnlock_inv hw hp hqueue, hqueue⟩
          | semaphore =>
              cases h
              exact ⟨up_inv hw hp, trivial⟩
      · cases h

/-- In every order of loads, unloads and signals no two modules are loaded; and the lock is
not lost: where none is loaded, it is free and no load is left waiting. -/
theorem excludes_always (m : Mechanism) (es : List (Event ι)) :
    Runs.Always (step m) Excludes (initial : World ι) es := by
  refine Runs.always_of_inv (I := fun w => Inv w ∧ NoQueue m w) (fun _ hw => hw.1.excludes)
    (fun _ _ _ hw h => step_inv hw h) ⟨initial_inv, ?_⟩ es
  cases m <;> trivial

end World

end LddSamples.Sync.Contention
