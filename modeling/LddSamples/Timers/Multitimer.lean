import LddSamples.Kernel.Basic
import LddSamples.Library.Census
import LddSamples.Library.Runs

/-!
# lab2_multitimer: a timer for every write

A write counts itself in `ntimers`, allocates a timer and its data, and adds the timer;
`my_timer_function` frees both, counts itself out and prints. `my_exit` waits until
`ntimers` is 0, and then the module goes.
-/

namespace LddSamples.Timers.Multitimer

open Kernel

/-- Where a write and its timer stand: the write before it allocates the timer, before it
allocates the data, and before `add_timer`; the timer pending; and the callback before each
of its two `kfree`, before `atomic_dec`, before its last `pr_info`, and after it. -/
inductive TimerPc
  | absent
  | counted
  | allocated (tl : ℕ)
  | setup (tl mdata : ℕ)
  | pending (tl mdata : ℕ)
  | entered (tl mdata : ℕ)
  | timerFreed (tl mdata : ℕ)
  | dataFreed (tl mdata : ℕ)
  | decremented (tl mdata : ℕ)
  | returned (tl mdata : ℕ)

inductive ExitPc
  | loaded
  | waiting
  | passed

/-- `begun` counts the writes and `ended` the callbacks by their operations on `ntimers`, and
`runs` the callbacks of each write, all for the statements. -/
structure State where
  ntimers : ℤ
  heap : Heap
  pcs : ℕ → TimerPc
  writing : ℕ → Bool
  exit : ExitPc
  begun : ℕ
  ended : ℕ
  runs : ℕ → ℕ

inductive Event
  | write
  | allocTimer (w : ℕ)
  | allocData (w : ℕ)
  | addTimer (w : ℕ)
  | leave (w : ℕ)
  | expire (w : ℕ)
  | freeTimer (w : ℕ)
  | freeData (w : ℕ)
  | decrement (w : ℕ)
  | finish (w : ℕ)
  | exit
  | test

namespace TimerPc

/-- The write is before `add_timer`. -/
def adding : TimerPc → Bool
  | .counted => true
  | .allocated _ => true
  | .setup _ _ => true
  | _ => false

/-- The write has counted itself in, and the callback not yet out. -/
def Owes : TimerPc → Prop
  | .absent => False
  | .decremented _ _ => False
  | .returned _ _ => False
  | _ => True

def objects : TimerPc → List ℕ
  | .absent => []
  | .counted => []
  | .allocated tl => [tl]
  | .setup tl mdata => [tl, mdata]
  | .pending tl mdata => [tl, mdata]
  | .entered tl mdata => [tl, mdata]
  | .timerFreed tl mdata => [tl, mdata]
  | .dataFreed tl mdata => [tl, mdata]
  | .decremented tl mdata => [tl, mdata]
  | .returned tl mdata => [tl, mdata]

/-- What the callback has freed. -/
def freed : TimerPc → List ℕ
  | .timerFreed tl _ => [tl]
  | .dataFreed tl mdata => [tl, mdata]
  | .decremented tl mdata => [tl, mdata]
  | .returned tl mdata => [tl, mdata]
  | _ => []

/-- How often the callback has been started. -/
def runs : TimerPc → ℕ
  | .entered _ _ => 1
  | .timerFreed _ _ => 1
  | .dataFreed _ _ => 1
  | .decremented _ _ => 1
  | .returned _ _ => 1
  | _ => 0

end TimerPc

namespace State

def initial : State :=
  ⟨0, ⟨0, []⟩, fun _ => .absent, fun _ => false, .loaded, 0, 0, fun _ => 0⟩

def goto (s : State) (w : ℕ) (pc : TimerPc) : State :=
  { s with pcs := Function.update s.pcs w pc }

/-- Allocations succeed. The module can be removed only after all writes have returned. -/
def step (s : State) : Event → Except Unit State
  | .write =>
      match s.exit with
      | .loaded => .ok { s.goto s.begun .counted with
          ntimers := atomicInc s.ntimers
          writing := Function.update s.writing s.begun true
          begun := s.begun + 1 }
      | _ => .error ()
  | .allocTimer w =>
      match s.pcs w with
      | .counted => .ok { s.goto w (.allocated s.heap.requests) with
          heap := (kmalloc Env.calm s.heap).2 }
      | _ => .error ()
  | .allocData w =>
      match s.pcs w with
      | .allocated tl => .ok { s.goto w (.setup tl s.heap.requests) with
          heap := (kmalloc Env.calm s.heap).2 }
      | _ => .error ()
  | .addTimer w =>
      match s.pcs w with
      | .setup tl mdata => .ok (s.goto w (.pending tl mdata))
      | _ => .error ()
  | .leave w =>
      if s.writing w = true ∧ (s.pcs w).adding = false then .ok { s with
        writing := Function.update s.writing w false }
      else .error ()
  | .expire w =>
      match s.pcs w with
      | .pending tl mdata => .ok { s.goto w (.entered tl mdata) with
          runs := Function.update s.runs w (s.runs w + 1) }
      | _ => .error ()
  | .freeTimer w =>
      match s.pcs w with
      | .entered tl mdata => .ok { s.goto w (.timerFreed tl mdata) with heap := kfree s.heap tl }
      | _ => .error ()
  | .freeData w =>
      match s.pcs w with
      | .timerFreed tl mdata => .ok { s.goto w (.dataFreed tl mdata) with
          heap := kfree s.heap mdata }
      | _ => .error ()
  | .decrement w =>
      match s.pcs w with
      | .dataFreed tl mdata => .ok { s.goto w (.decremented tl mdata) with
          ntimers := atomicDec s.ntimers
          ended := s.ended + 1 }
      | _ => .error ()
  | .finish w =>
      match s.pcs w with
      | .decremented tl mdata => .ok (s.goto w (.returned tl mdata))
      | _ => .error ()
  | .exit =>
      match s.exit with
      | .loaded =>
          if ∀ w < s.begun, s.writing w = false then .ok { s with exit := .waiting }
          else .error ()
      | _ => .error ()
  | .test =>
      match s.exit with
      | .waiting => .ok (if s.ntimers = 0 then { s with exit := .passed } else s)
      | _ => .error ()

/-- `ntimers` is the number of writes less the callbacks, a callback runs once and frees the
two objects of its own write, and past the loop of `my_exit` every callback has returned. -/
structure Safe (s : State) : Prop where
  count : s.ntimers = s.begun - s.ended
  nonneg : 0 ≤ s.ntimers
  runs : ∀ w, s.runs w = (s.pcs w).runs
  freed : ∀ a, a ∈ s.heap.freed ↔ ∃ w, a ∈ (s.pcs w).freed
  once : s.heap.freed.Nodup
  own : ∀ w w' a, a ∈ (s.pcs w).objects → a ∈ (s.pcs w').objects → w = w'
  finished : s.exit = .passed → ∀ w < s.begun, ∃ tl mdata, s.pcs w = .returned tl mdata

/-- No increment overflows, and the loop of `my_exit` finds no callback behind its
`atomic_dec`. -/
def Timely (s : State) : Event → Prop
  | .write => s.exit = .loaded → s.ntimers < CArith.INT_MAX
  | .test => s.exit = .waiting → s.ntimers = 0 →
      ∀ w tl mdata, s.pcs w ≠ .decremented tl mdata
  | _ => True

end State

/-! ## What a step does -/

/-- A step of one timer works on the objects of that timer. -/
inductive HeapMove (heap : Heap) (pc pc' : TimerPc) : Heap → Prop
  | same (objects : pc'.objects = pc.objects) (freed : pc'.freed = pc.freed) :
      HeapMove heap pc pc' heap
  | alloc (objects : pc'.objects = pc.objects ++ [heap.requests]) (freed : pc'.freed = pc.freed) :
      HeapMove heap pc pc' (kmalloc Env.calm heap).2
  | free {a : ℕ} (objects : pc'.objects = pc.objects) (freed : pc'.freed = pc.freed ++ [a])
      (mem : a ∈ pc.objects) (kept : pc.objects.Nodup → a ∉ pc.freed) :
      HeapMove heap pc pc' (kfree heap a)

/-- A write or a callback goes on, and what it owes `ntimers` does not change. -/
structure Moves (s : State) (w : ℕ) (pc : TimerPc) (heap : Heap) (runs : ℕ → ℕ) : Prop where
  present : s.pcs w ≠ .absent ∧ pc ≠ .absent
  unfinished : ∀ tl mdata, s.pcs w ≠ .returned tl mdata
  owes : pc.Owes ↔ (s.pcs w).Owes
  moved : HeapMove s.heap (s.pcs w) pc heap
  counted : s.runs w = (s.pcs w).runs → runs w = pc.runs
  others : ∀ x, x ≠ w → runs x = s.runs x

inductive Does (s : State) : Event → State → Prop
  | write (h : s.exit = .loaded) : Does s .write { s.goto s.begun .counted with
      ntimers := atomicInc s.ntimers
      writing := Function.update s.writing s.begun true
      begun := s.begun + 1 }
  | moves {e : Event} (w : ℕ) (pc : TimerPc) (heap : Heap) (runs : ℕ → ℕ)
      (h : Moves s w pc heap runs) : Does s e { s.goto w pc with heap := heap, runs := runs }
  | leave {w : ℕ} : Does s (.leave w) { s with
      writing := Function.update s.writing w false }
  | decrement {w tl mdata : ℕ} (h : s.pcs w = .dataFreed tl mdata) :
      Does s (.decrement w) { s.goto w (.decremented tl mdata) with
        ntimers := atomicDec s.ntimers
        ended := s.ended + 1 }
  | exit : Does s .exit { s with exit := .waiting }
  | wait : Does s .test s
  | pass (h : s.exit = .waiting) (hzero : s.ntimers = 0) : Does s .test { s with exit := .passed }

namespace State

variable {s s' : State} {e : Event}

theorem step_does (h : step s e = .ok s') : Does s e s' := by
  cases e with
  | write =>
      simp only [step] at h
      split at h
      · next hexit =>
          cases h
          exact .write hexit
      · cases h
  | allocTimer w =>
      simp only [step] at h
      split at h
      · next hpc =>
          cases h
          refine .moves w _ _ s.runs ⟨?_, ?_, ?_, .alloc ?_ ?_, ?_, fun _ _ => rfl⟩
          all_goals simp [hpc, TimerPc.Owes, TimerPc.objects, TimerPc.freed, TimerPc.runs]
      · cases h
  | allocData w =>
      simp only [step] at h
      split at h
      · next tl hpc =>
          cases h
          refine .moves w _ _ s.runs ⟨?_, ?_, ?_, .alloc ?_ ?_, ?_, fun _ _ => rfl⟩
          all_goals simp [hpc, TimerPc.Owes, TimerPc.objects, TimerPc.freed, TimerPc.runs]
      · cases h
  | addTimer w =>
      simp only [step] at h
      split at h
      · next tl mdata hpc =>
          cases h
          refine .moves w _ s.heap s.runs ⟨?_, ?_, ?_, .same ?_ ?_, ?_, fun _ _ => rfl⟩
          all_goals simp [hpc, TimerPc.Owes, TimerPc.objects, TimerPc.freed, TimerPc.runs]
      · cases h
  | leave w =>
      simp only [step] at h
      split at h
      · cases h
        exact .leave
      · cases h
  | expire w =>
      simp only [step] at h
      split at h
      · next tl mdata hpc =>
          cases h
          refine .moves w _ s.heap _ ⟨?_, ?_, ?_, .same ?_ ?_, ?_,
            fun _ hne => Function.update_of_ne hne _ _⟩
          all_goals simp [hpc, TimerPc.Owes, TimerPc.objects, TimerPc.freed, TimerPc.runs]
      · cases h
  | freeTimer w =>
      simp only [step] at h
      split at h
      · next tl mdata hpc =>
          cases h
          refine .moves w _ _ s.runs ⟨?_, ?_, ?_, .free ?_ ?_ ?_ ?_, ?_, fun _ _ => rfl⟩
          all_goals simp [hpc, TimerPc.Owes, TimerPc.objects, TimerPc.freed, TimerPc.runs]
      · cases h
  | freeData w =>
      simp only [step] at h
      split at h
      · next tl mdata hpc =>
          cases h
          refine .moves w _ _ s.runs ⟨?_, ?_, ?_, .free ?_ ?_ ?_ ?_, ?_, fun _ _ => rfl⟩
          all_goals simp [hpc, TimerPc.Owes, TimerPc.objects, TimerPc.freed, TimerPc.runs, eq_comm]
      · cases h
  | decrement w =>
      simp only [step] at h
      split at h
      · next tl mdata hpc =>
          cases h
          exact .decrement hpc
      · cases h
  | finish w =>
      simp only [step] at h
      split at h
      · next tl mdata hpc =>
          cases h
          refine .moves w _ s.heap s.runs ⟨?_, ?_, ?_, .same ?_ ?_, ?_, fun _ _ => rfl⟩
          all_goals simp [hpc, TimerPc.Owes, TimerPc.objects, TimerPc.freed, TimerPc.runs]
      · cases h
  | exit =>
      simp only [step] at h
      split at h
      · split at h
        · cases h
          exact .exit
        · cases h
      · cases h
  | test =>
      simp only [step] at h
      split at h
      · next hexit =>
          split at h
          · next hzero =>
              cases h
              exact .pass hexit hzero
          · cases h
            exact .wait
      · cases h

end State

/-! ## The invariant -/

/-- Every object has one owner, and is freed once, by its owner. -/
structure Owned (heap : Heap) (objects freed : ℕ → List ℕ) : Prop where
  allocated : ∀ w, ∀ a ∈ objects w, a < heap.requests
  nodup : ∀ w, (objects w).Nodup
  own : ∀ w w' a, a ∈ objects w → a ∈ objects w' → w = w'
  mine : ∀ w, freed w ⊆ objects w
  freed : ∀ a, a ∈ heap.freed ↔ ∃ w, a ∈ freed w
  once : heap.freed.Nodup

namespace Owned

variable {heap : Heap} {objects freed : ℕ → List ℕ}

theorem alloc (h : Owned heap objects freed) (w : ℕ) :
    Owned (kmalloc Env.calm heap).2
      (Function.update objects w (objects w ++ [heap.requests])) freed := by
  have hmem : ∀ x a, a ∈ Function.update objects w (objects w ++ [heap.requests]) x ↔
      a ∈ objects x ∨ x = w ∧ a = heap.requests := fun x a => by
    by_cases heq : x = w
    · subst heq
      simp
    · simp [heq]
  have hfresh : ∀ x, heap.requests ∉ objects x := fun x hx => lt_irrefl _ (h.allocated x _ hx)
  refine ⟨fun x a ha => ?_, fun x => ?_, fun x y a hx hy => ?_, fun x a ha => ?_, h.freed, h.once⟩
  · rcases (hmem x a).mp ha with hold | ⟨-, rfl⟩
    · exact Nat.lt_succ_of_lt (h.allocated x a hold)
    · exact Nat.lt_succ_self _
  · by_cases heq : x = w
    · subst heq
      rw [Function.update_self, ← List.concat_eq_append, List.nodup_concat]
      exact ⟨hfresh x, h.nodup x⟩
    · rw [Function.update_of_ne heq]
      exact h.nodup x
  · rcases (hmem x a).mp hx with hx | ⟨hxw, ha⟩
    · rcases (hmem y a).mp hy with hy | ⟨-, ha⟩
      · exact h.own x y a hx hy
      · rw [ha] at hx
        exact absurd hx (hfresh x)
    · rcases (hmem y a).mp hy with hy | ⟨hyw, -⟩
      · rw [ha] at hy
        exact absurd hy (hfresh y)
      · rw [hxw, hyw]
  · exact (hmem x a).mpr (.inl (h.mine x ha))

theorem free (h : Owned heap objects freed) {w a : ℕ} (ha : a ∈ objects w) (hnew : a ∉ freed w) :
    Owned (kfree heap a) objects (Function.update freed w (freed w ++ [a])) := by
  have hmem : ∀ x b, b ∈ Function.update freed w (freed w ++ [a]) x ↔
      b ∈ freed x ∨ x = w ∧ b = a := fun x b => by
    by_cases heq : x = w
    · subst heq
      simp
    · simp [heq]
  have hlive : a ∉ heap.freed := fun hfreed => by
    obtain ⟨x, hx⟩ := (h.freed a).mp hfreed
    rw [h.own x w a (h.mine x hx) ha] at hx
    exact hnew hx
  refine ⟨h.allocated, h.nodup, h.own, fun x b hb => ?_, fun b => ?_, ?_⟩
  · rcases (hmem x b).mp hb with hold | ⟨rfl, rfl⟩
    · exact h.mine x hold
    · exact ha
  · simp only [kfree, List.mem_append, List.mem_singleton, h.freed, hmem, exists_or]
    simp
  · rw [kfree, ← List.concat_eq_append, List.nodup_concat]
    exact ⟨hlive, h.once⟩

end Owned

namespace State

variable {s s' : State} {e : Event}

/-- What `ntimers` counts: the writes that are not yet counted out. -/
def Balanced (s : State) : Prop :=
  ∃ owing : ℕ, s.ntimers = owing ∧ Census.Counts TimerPc.Owes s.pcs owing

structure Inv (s : State) : Prop where
  count : s.ntimers = s.begun - s.ended
  balanced : s.Balanced
  small : s.ntimers ≤ CArith.INT_MAX
  absent : ∀ w, s.pcs w = .absent ↔ s.begun ≤ w
  runs : ∀ w, s.runs w = (s.pcs w).runs
  owned : Owned s.heap (TimerPc.objects ∘ s.pcs) (TimerPc.freed ∘ s.pcs)
  passed : s.exit = .passed → ∀ w, s.pcs w = .absent ∨ ∃ tl mdata, s.pcs w = .returned tl mdata

theorem initial_inv : Inv initial where
  count := rfl
  balanced := ⟨0, rfl, Census.counts_zero fun _ => id⟩
  small := by decide
  absent w := by simp [initial]
  runs _ := rfl
  owned :=
    { allocated := fun w a ha => absurd ha List.not_mem_nil
      nodup := fun w => List.nodup_nil
      own := fun w w' a ha => absurd ha List.not_mem_nil
      mine := fun w => List.Subset.refl _
      freed := by simp [initial, TimerPc.freed]
      once := List.nodup_nil }
  passed h := by cases h

theorem Inv.nonneg (h : Inv s) : 0 ≤ s.ntimers := by
  obtain ⟨owing, hcount, -⟩ := h.balanced
  rw [hcount]
  exact Int.natCast_nonneg owing

theorem Inv.safe (h : Inv s) : Safe s where
  count := h.count
  nonneg := h.nonneg
  runs := h.runs
  freed := h.owned.freed
  once := h.owned.once
  own := h.owned.own
  finished hexit w hw := by
    rcases h.passed hexit w with habsent | hreturned
    · exact absurd ((h.absent w).mp habsent) (Nat.not_le.mpr hw)
    · exact hreturned

/-- One of a timer's own moves keeps everything. -/
theorem Inv.moves {w : ℕ} {pc : TimerPc} {heap : Heap} {runs : ℕ → ℕ} (hi : Inv s)
    (h : Moves s w pc heap runs) : Inv { s.goto w pc with heap := heap, runs := runs } where
  count := hi.count
  balanced := by
    obtain ⟨owing, hcount, howing⟩ := hi.balanced
    exact ⟨owing, hcount, howing.stays h.owes⟩
  small := hi.small
  absent x := by
    by_cases heq : x = w
    · subst heq
      have hbegun := (not_congr (hi.absent x)).mp h.present.1
      simp [goto, h.present.2, hbegun]
    · simp [goto, heq, hi.absent]
  runs x := by
    by_cases heq : x = w
    · subst heq
      simp [goto, h.counted (hi.runs x)]
    · simp [goto, heq, h.others x heq, hi.runs]
  owned := by
    simp only [goto]
    cases h.moved with
    | same hobjects hfreed =>
        rw [Census.comp_update_of_eq _ hobjects, Census.comp_update_of_eq _ hfreed]
        exact hi.owned
    | alloc hobjects hfreed =>
        rw [Function.comp_update, hobjects, Census.comp_update_of_eq _ hfreed]
        exact hi.owned.alloc w
    | free hobjects hfreed ha hkept =>
        rw [Census.comp_update_of_eq _ hobjects, Function.comp_update, hfreed]
        exact hi.owned.free ha (hkept (hi.owned.nodup w))
  passed hexit x := by
    rcases hi.passed hexit w with habsent | ⟨tl, mdata, hreturned⟩
    · exact absurd habsent h.present.1
    · exact absurd hreturned (h.unfinished tl mdata)

theorem Inv.write (hi : Inv s) (hexit : s.exit = .loaded) (hsmall : s.ntimers < CArith.INT_MAX) :
    Inv { s.goto s.begun .counted with
      ntimers := atomicInc s.ntimers
      writing := Function.update s.writing s.begun true
      begun := s.begun + 1 } := by
  have hinc := atomicInc_of_lt hi.nonneg hsmall
  have hnew : s.pcs s.begun = .absent := (hi.absent _).mpr le_rfl
  refine ⟨?_, ?_, ?_, fun w => ?_, fun w => ?_, ?_, fun h => ?_⟩
  · calc
      atomicInc s.ntimers = s.ntimers + 1 := hinc
      _ = ((s.begun + 1 : ℕ) : ℤ) - s.ended := by rw [hi.count]; push_cast; ring
  · obtain ⟨owing, hcount, howing⟩ := hi.balanced
    refine ⟨owing + 1, ?_, howing.enters (by simp [hnew, TimerPc.Owes]) trivial⟩
    calc
      atomicInc s.ntimers = s.ntimers + 1 := hinc
      _ = ((owing + 1 : ℕ) : ℤ) := by rw [hcount, Nat.cast_succ]
  · exact hinc.trans_le hsmall
  · by_cases heq : w = s.begun
    · simp [goto, heq]
    · simp only [goto, Function.update_of_ne heq, hi.absent]
      omega
  · by_cases heq : w = s.begun
    · subst heq
      simp [goto, hi.runs, hnew, TimerPc.runs]
    · simp [goto, heq, hi.runs]
  · simp only [goto]
    rw [Census.comp_update_of_eq TimerPc.objects (by rw [hnew]; rfl),
      Census.comp_update_of_eq TimerPc.freed (by rw [hnew]; rfl)]
    exact hi.owned
  · rw [show s.exit = .passed from h] at hexit
    cases hexit

theorem Inv.decrement {w tl mdata : ℕ} (hi : Inv s) (hpc : s.pcs w = .dataFreed tl mdata) :
    Inv { s.goto w (.decremented tl mdata) with
      ntimers := atomicDec s.ntimers
      ended := s.ended + 1 } := by
  have hdec := atomicDec_of_mem hi.nonneg hi.small
  refine ⟨?_, ?_, ?_, fun x => ?_, fun x => ?_, ?_, fun h => ?_⟩
  · calc
      atomicDec s.ntimers = s.ntimers - 1 := hdec
      _ = (s.begun : ℤ) - ((s.ended + 1 : ℕ) : ℤ) := by rw [hi.count]; push_cast; ring
  · obtain ⟨owing, hcount, howing⟩ := hi.balanced
    have howes : (s.pcs w).Owes := by simp [hpc, TimerPc.Owes]
    have hpos := howing.ne_zero howes
    refine ⟨owing - 1, ?_, howing.leaves howes id⟩
    calc
      atomicDec s.ntimers = s.ntimers - 1 := hdec
      _ = ((owing - 1 : ℕ) : ℤ) := by omega
  · calc
      atomicDec s.ntimers = s.ntimers - 1 := hdec
      _ ≤ CArith.INT_MAX := by linarith [hi.small]
  · by_cases heq : x = w
    · have hbegun := (not_congr (hi.absent w)).mp (by simp [hpc])
      simp [goto, heq, hbegun]
    · simp [goto, heq, hi.absent]
  · by_cases heq : x = w
    · subst heq
      simp [goto, hi.runs, hpc, TimerPc.runs]
    · simp [goto, heq, hi.runs]
  · simp only [goto]
    rw [Census.comp_update_of_eq TimerPc.objects (by rw [hpc]; rfl),
      Census.comp_update_of_eq TimerPc.freed (by rw [hpc]; rfl)]
    exact hi.owned
  · rcases hi.passed h w with habsent | ⟨tl, mdata, hreturned⟩
    · rw [hpc] at habsent
      cases habsent
    · rw [hpc] at hreturned
      cases hreturned

/-- At 0 nothing is owed, and what is not owed and not behind its `atomic_dec` is over. -/
theorem Inv.pass (hi : Inv s) (hzero : s.ntimers = 0)
    (hlate : ∀ w tl mdata, s.pcs w ≠ .decremented tl mdata) : Inv { s with exit := .passed } where
  count := hi.count
  balanced := hi.balanced
  small := hi.small
  absent := hi.absent
  runs := hi.runs
  owned := hi.owned
  passed _ w := by
    obtain ⟨owing, hcount, howing⟩ := hi.balanced
    obtain rfl : owing = 0 := by omega
    have howes := howing.forall_not w
    cases hpc : s.pcs w with
    | absent => exact .inl rfl
    | decremented tl mdata => exact absurd hpc (hlate w tl mdata)
    | returned tl mdata => exact .inr ⟨tl, mdata, rfl⟩
    | _ =>
        rw [hpc] at howes
        exact absurd trivial howes

theorem step_inv (hi : Inv s) (hC : Timely s e) (h : step s e = .ok s') : Inv s' := by
  cases step_does h with
  | write hexit => exact hi.write hexit (hC hexit)
  | moves w pc heap runs hmoves => exact hi.moves hmoves
  | leave => exact ⟨hi.count, hi.balanced, hi.small, hi.absent, hi.runs, hi.owned, hi.passed⟩
  | decrement hpc => exact hi.decrement hpc
  | exit => exact ⟨hi.count, hi.balanced, hi.small, hi.absent, hi.runs, hi.owned, nofun⟩
  | wait => exact hi
  | pass hexit hzero => exact hi.pass hzero (hC hexit hzero)

theorem untimely (hi : Inv s) (hC : ¬ Timely s e) : ∃ s', step s e = .ok s' ∧ ¬ Safe s' := by
  cases e with
  | write =>
      simp only [Timely, Classical.not_imp, not_lt] at hC
      obtain ⟨hexit, hlarge⟩ := hC
      refine ⟨_, by rw [step, hexit], fun hsafe => ?_⟩
      have hnonneg : 0 ≤ atomicInc s.ntimers := hsafe.nonneg
      rw [le_antisymm hi.small hlarge] at hnonneg
      exact absurd hnonneg (by decide)
  | test =>
      simp only [Timely, Classical.not_imp, not_forall, not_not] at hC
      obtain ⟨hexit, hzero, w, tl, mdata, hpc⟩ := hC
      refine ⟨_, by rw [step, hexit], fun hsafe => ?_⟩
      rw [if_pos hzero] at hsafe
      have hbegun : w < s.begun := by
        rw [← Nat.not_le, ← hi.absent, hpc]
        nofun
      obtain ⟨tl', mdata', hreturned⟩ := hsafe.finished rfl w hbegun
      rw [show s.pcs w = _ from hreturned] at hpc
      cases hpc
  | _ => exact absurd trivial hC

/-- The unloading is safe exactly when no increment of `ntimers` overflows and the loop ends
at no moment when a callback has counted itself out and not returned. -/
theorem safe_iff (es : List Event) :
    Runs.Always step Safe initial es ↔ Runs.Along step Timely initial es :=
  Runs.always_iff_along (fun _ hi => hi.safe) (fun _ _ _ hi hC h => step_inv hi hC h)
    (fun _ _ hi hC => untimely hi hC) initial_inv

/-- The callback of the only write has counted itself out; `my_exit` finds 0 and goes on, and
the callback is still to print. -/
theorem unloaded_under_callback :
    ∃ s, Runs.exec step initial [.write, .allocTimer 0, .allocData 0, .addTimer 0, .leave 0, .exit,
        .expire 0, .freeTimer 0, .freeData 0, .decrement 0, .test] = .ok s ∧
      s.exit = .passed ∧ s.pcs 0 = .decremented 0 1 ∧ ¬ Safe s := by
  refine ⟨_, rfl, rfl, rfl, fun hsafe => ?_⟩
  obtain ⟨tl, mdata, hreturned⟩ := hsafe.finished rfl 0 Nat.zero_lt_one
  cases hreturned

end State

end LddSamples.Timers.Multitimer
