import LddSamples.Library.Decimal
import Mathlib.Data.List.Rotate

/-!
# The task list behind a seq_file

`my_next` follows the circular list and never returns NULL, and `my_start` returns the
current task whatever the position. So the output goes round the list for ever, from the
same place whenever a buffer has been filled.
-/

namespace LddSamples.Debug.SeqFile

open Decimal

structure Task where
  pid : ℕ
  comm : List UInt8
  deriving DecidableEq

/-- The list that the `tasks` links of the processes form, and the process that reads. -/
structure TaskList where
  tasks : List Task
  nodup : tasks.Nodup
  next : Task → Task
  /-- The links lead from each task to the one after it, and from the last to the first. -/
  circular : tasks.map next = tasks.rotate 1
  current : Task
  current_mem : current ∈ tasks

/-- `struct seq_operations`, without `stop`. Pointers to nothing are `none`. -/
structure SeqOperations (V R : Type*) where
  start : ℕ → Option V × ℕ
  next : V → ℕ → Option V × ℕ
  shown : V → R

namespace SeqOperations

variable {V R : Type*} (op : SeqOperations V R)

/-- Showing records until the buffer holds `k` or the iterator ends: the records, and
the position that is saved, if there is more to come. -/
def fill : ℕ → Option V × ℕ → List R × Option ℕ
  | _, (none, _) => ([], none)
  | 0, (some _, pos) => ([], some pos)
  | k + 1, (some v, pos) =>
      let (records, saved) := fill k (op.next v pos)
      (op.shown v :: records, saved)

/-- One buffer after the other, each with room for the given number of records. -/
def reads : List ℕ → Option ℕ → List (List R) × Option ℕ
  | [], saved => ([], saved)
  | _ :: _, none => ([], none)
  | k :: sizes, some pos =>
      let (records, saved) := op.fill k (op.start pos)
      let (rest, last) := reads sizes saved
      (records :: rest, last)

end SeqOperations

/-! ## The driver's operations -/

namespace TaskList

variable (l : TaskList)

/-- A pointer to a `tasks` member stands for its task. -/
def myStart (pos : ℕ) : Option Task × ℕ := (some l.current, pos)

/-- The position is not advanced. -/
def myNext (v : Task) (pos : ℕ) : Option Task × ℕ := (some (l.next v), pos)

/-- `"%u\t:\t%s\n"`. -/
def line (task : Task) : List UInt8 := decimal task.pid ++ [9, 58, 9] ++ task.comm ++ [10]

/-- The record is that of the task behind `v`. -/
def myShow (v : Task) : List UInt8 := line (l.next v)

def swapsOp : SeqOperations Task (List UInt8) := ⟨l.myStart, l.myNext, l.myShow⟩

/-- The iteration comes to an end, and has then shown each task once. -/
def ShowsEachOnce : Prop :=
  ∀ sizes, (∀ k ∈ sizes, 0 < k) → l.tasks.length < sizes.sum →
    (l.swapsOp.reads sizes (some 0)).2 = none ∧
      (l.swapsOp.reads sizes (some 0)).1.flatten.Perm (l.tasks.map line)

/-- The first `k` records of a pass: the tasks after the current one. -/
def pass (k : ℕ) : List (List UInt8) := (List.range k).map fun j => line (l.next^[j + 1] l.current)

/-! ## Going round -/

theorem map_next (k : ℕ) : l.tasks.map l.next^[k] = l.tasks.rotate k := by
  induction k with
  | zero => simp
  | succ k ih =>
      rw [Function.iterate_succ', ← List.map_map, ih, List.map_rotate, l.circular,
        List.rotate_rotate, Nat.add_comm]

/-- As many steps as there are tasks pass every task, wherever they start. -/
theorem steps_perm (m : ℕ) :
    ((List.range l.tasks.length).map fun j => l.next^[m + j] l.current).Perm l.tasks := by
  obtain ⟨i, hi, hcurrent⟩ := List.getElem_of_mem l.current_mem
  have hrotate : ((List.range l.tasks.length).map fun j => l.next^[m + j] l.current) =
      l.tasks.rotate (i + m) := by
    apply List.ext_getElem
    · simp
    · intro j hj hj'
      rw [List.length_rotate] at hj'
      have hturn : i < (l.tasks.rotate (m + j)).length := by simpa using hi
      have hstep : l.next^[m + j] l.current = (l.tasks.rotate (m + j))[i] := by
        simp only [← l.map_next, List.getElem_map, hcurrent]
      simp only [List.getElem_map, List.getElem_range, hstep, List.getElem_rotate]
      congr 2
      omega
  rw [hrotate]
  exact List.rotate_perm _ _

theorem fill_eq (k j pos : ℕ) :
    l.swapsOp.fill k (some (l.next^[j] l.current), pos) =
      ((List.range k).map fun i => line (l.next^[j + i + 1] l.current), some pos) := by
  induction k generalizing j with
  | zero => rfl
  | succ k ih =>
      have hnext : l.swapsOp.next (l.next^[j] l.current) pos =
          (some (l.next^[j + 1] l.current), pos) := by
        rw [Function.iterate_succ_apply']
        rfl
      rw [SeqOperations.fill, hnext, ih, List.range_succ_eq_map, List.map_cons, List.map_map]
      simp only [Prod.mk.injEq, List.cons.injEq, and_true]
      constructor
      · rw [Nat.add_zero, Function.iterate_succ_apply']
        rfl
      · refine List.map_congr_left fun i _ => ?_
        rw [Function.comp_apply]
        congr 3
        omega

theorem reads_eq (sizes : List ℕ) (pos : ℕ) :
    l.swapsOp.reads sizes (some pos) = (sizes.map l.pass, some pos) := by
  induction sizes with
  | nil => rfl
  | cons k sizes ih =>
      have hfill : l.swapsOp.fill k (l.swapsOp.start pos) = (l.pass k, some pos) := by
        refine (l.fill_eq k 0 pos).trans ?_
        simp only [Nat.zero_add]
        rfl
      rw [SeqOperations.reads, hfill]
      dsimp only
      rw [ih]
      rfl

/-- The iteration never ends, whatever the sizes of the buffers. Each buffer begins
again behind the current task, and any records of one buffer that follow one another,
as many as there are tasks, are the records of every task once. -/
theorem goes_round (sizes : List ℕ) :
    (l.swapsOp.reads sizes (some 0)).2 = some 0 ∧
      (l.swapsOp.reads sizes (some 0)).1 = sizes.map l.pass ∧
      ∀ k ∈ sizes, ∀ m, m + l.tasks.length ≤ k →
        (((l.pass k).drop m).take l.tasks.length).Perm (l.tasks.map line) := by
  rw [l.reads_eq]
  refine ⟨rfl, rfl, fun k _ m hm => ?_⟩
  have hrecords : ((l.pass k).drop m).take l.tasks.length =
      ((List.range l.tasks.length).map fun j => l.next^[m + 1 + j] l.current).map line := by
    apply List.ext_getElem
    · simp only [pass, List.length_take, List.length_drop, List.length_map, List.length_range]
      omega
    · intro j hj hj'
      simp only [pass, List.getElem_take, List.getElem_drop, List.getElem_map, List.getElem_range,
        Nat.add_right_comm m j 1]
  rw [hrecords]
  exact (l.steps_perm (m + 1)).map line

end TaskList

/-- The idle task and one other, which reads. -/
def twoTasks : TaskList where
  tasks := [⟨0, []⟩, ⟨1, []⟩]
  nodup := by decide
  next t := if t = ⟨0, []⟩ then ⟨1, []⟩ else ⟨0, []⟩
  circular := by decide
  current := ⟨1, []⟩
  current_mem := by decide

theorem twoTasks_never_ends : ¬ twoTasks.ShowsEachOnce := by
  intro hshows
  have hends := (hshows [3] (by decide) (by decide)).1
  exact absurd hends (by decide)

end LddSamples.Debug.SeqFile
