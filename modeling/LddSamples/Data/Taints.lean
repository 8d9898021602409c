import LddSamples.Library.ListHead
import LddSamples.Library.Runs

/-!
# lab2_taints and lab5_data_taints: a walk over the modules that starts at one of them

The kernel puts a module on its list in front, before the module's `my_init` is called.
The walk takes what stands before the module for the head of the list, which it is unless
other modules have come since.
-/

namespace LddSamples.Data.Taints

open ListHead Outcome

/-- The nodes: the kernel's head `modules`, and the `list` of a `struct module`. -/
inductive Addr
  | modules
  | module (m : ℕ)
  deriving DecidableEq

/-! ## The modules -/

/-- The modules are numbered in the order in which they come. -/
inductive Event
  | load
  | unload (m : ℕ)

/-- What the list is for: the modules that are loaded, the last one first. -/
structure Modules where
  loaded : List ℕ
  born : ℕ

def Modules.step (l : Modules) : Event → Except Unit Modules
  | .load => .ok ⟨l.born :: l.loaded, l.born + 1⟩
  | .unload m => if m ∈ l.loaded then .ok { l with loaded := l.loaded.erase m } else .error ()

structure State where
  links : Store Addr
  born : ℕ

namespace State

def boot : State := ⟨init (fun _ => none) .modules, 0⟩

/-- A module comes and goes with its node. -/
def step (garbage : Node Addr) (s : State) : Event → Except Fault State
  | .load => do
      let links ← add (Function.update s.links (.module s.born) (some garbage))
        (.module s.born) .modules
      .ok ⟨links, s.born + 1⟩
  | .unload m => do
      let links ← del garbage s.links (.module m)
      .ok { s with links := Function.update links (.module m) none }

end State

/-! ## The walk -/

/-- The counter `j` and the lines: a module and the number it is printed with. -/
structure Output where
  j : ℕ
  lines : List (Addr × ℕ)

/-- `pr_info` of one module. -/
def print (m : Addr) (out : Output) : Except Fault Output :=
  .ok ⟨out.j + 1, out.lines ++ [(m, out.j)]⟩

/-- `my_init` of the module `this` prints these lines. -/
def Prints (links : Store Addr) (this : ℕ) (lines : List (Addr × ℕ)) : Prop :=
  ∃ node, load links (.module this) = .ok node ∧
    ∃ j, ForEach (fun _ => links) print node.prev ⟨0, []⟩ ⟨j, lines⟩

variable {links : Store Addr} {s : State} {l l' : Modules} {garbage : Node Addr} {e : Event}

/-- From any node of a ring on, the walk prints the other nodes in their order. -/
theorem forEach_prints {head : Addr} {as : List Addr} (h : Threads links head as) :
    ∃ j, ForEach (fun _ => links) print head ⟨0, []⟩ ⟨j, as.zipIdx⟩ := by
  let I (rest : List Addr) (out : Output) : Prop :=
    ∃ seen, as = seen ++ rest ∧ out = ⟨seen.length, seen.zipIdx⟩
  obtain ⟨out, hwalk, hout⟩ :
      ∃ out, ForEach (fun _ => links) print head ⟨0, []⟩ out ∧ I [] out := by
    refine forEach_ends ?_ ⟨[], rfl, rfl⟩ h
    rintro a rest _ ⟨seen, rfl, rfl⟩
    refine ⟨_, rfl, ⟨seen ++ [a], by simp, ?_⟩, seen, h⟩
    simp [List.zipIdx_append]
  obtain ⟨seen, hseen, rfl⟩ := hout
  rw [List.append_nil] at hseen
  exact ⟨seen.length, hseen ▸ hwalk⟩

/-! ## The list refines the modules -/

structure Refines (s : State) (l : Modules) : Prop where
  threads : Threads s.links .modules (l.loaded.map .module)
  born : s.born = l.born
  old : ∀ m ∈ l.loaded, m < l.born
  sorted : l.loaded.Pairwise (· > ·)

theorem boot_refines : Refines .boot ⟨[], 0⟩ where
  threads := threads_init ..
  born := rfl
  old _ h := absurd h List.not_mem_nil
  sorted := .nil

theorem mem_nodes {m : ℕ} {ms : List ℕ} :
    Addr.module m ∈ .modules :: ms.map Addr.module ↔ m ∈ ms := by
  simp

theorem load_refines (h : Refines s l) :
    ∃ s', s.step garbage .load = .ok s' ∧ Refines s' ⟨l.born :: l.loaded, l.born + 1⟩ := by
  have hout : Addr.module s.born ∉ .modules :: l.loaded.map Addr.module := by
    rw [mem_nodes, h.born]
    exact fun hmem => absurd (h.old _ hmem) (lt_irrefl _)
  have hthreads : Threads (Function.update s.links (.module s.born) (some garbage)) .modules
      (l.loaded.map .module) := by
    refine h.threads.congr fun c hc => Function.update_of_ne ?_ _ _
    rintro rfl
    exact hout hc
  obtain ⟨links, hadd, hnew, -⟩ := add_ok hthreads (by simp [Live]) hout
  refine ⟨⟨links, s.born + 1⟩, by rw [State.step, hadd, ok_bind], ?_, ?_, ?_, ?_⟩
  · rw [h.born] at hnew
    exact hnew
  · exact congrArg (· + 1) h.born
  · intro m hm
    rcases List.mem_cons.mp hm with rfl | hm
    · exact Nat.lt_succ_self _
    · exact (h.old m hm).trans (Nat.lt_succ_self _)
  · exact List.pairwise_cons.mpr ⟨h.old, h.sorted⟩

theorem unload_refines (h : Refines s l) {m : ℕ} (hm : m ∈ l.loaded) :
    ∃ s', s.step garbage (.unload m) = .ok s' ∧
      Refines s' { l with loaded := l.loaded.erase m } := by
  obtain ⟨newer, older, -, hsplit, herase⟩ := List.exists_erase_eq hm
  have hring : Threads s.links .modules
      (newer.map .module ++ .module m :: older.map Addr.module) := by
    have hthreads := h.threads
    rwa [hsplit, List.map_append, List.map_cons] at hthreads
  obtain ⟨links, hdel, hthreads, -⟩ := del_ok garbage hring
  have hsub : (l.loaded.erase m).Sublist l.loaded := List.erase_sublist
  have hout : m ∉ l.loaded.erase m := by
    have hnodup : l.loaded.Nodup := h.sorted.imp fun hlt => hlt.ne'
    exact fun hmem => (hnodup.mem_erase_iff.mp hmem).1 rfl
  refine ⟨{ s with links := Function.update links (.module m) none },
    by rw [State.step, hdel, ok_bind], ?_, h.born, fun x hx => h.old x (hsub.subset hx),
    h.sorted.sublist hsub⟩
  rw [← List.map_append, ← herase] at hthreads
  refine hthreads.congr fun c hc => Function.update_of_ne ?_ _ _
  rintro rfl
  exact hout (mem_nodes.mp hc)

theorem step_refines (h : Refines s l) (hstep : l.step e = .ok l') :
    ∃ s', s.step garbage e = .ok s' ∧ Refines s' l' := by
  cases e with
  | load =>
      cases hstep
      exact load_refines h
  | unload m =>
      simp only [Modules.step] at hstep
      split at hstep
      · next hm =>
          cases hstep
          exact unload_refines h hm
      · cases hstep

/-! ## What is printed -/

/-- The lines for every module that is loaded, and for nothing else. -/
def allLines (loaded : List ℕ) : List (Addr × ℕ) := (loaded.map Addr.module).zipIdx

theorem prints_first {this : ℕ} {older : List ℕ}
    (h : Threads links .modules ((this :: older).map .module)) :
    Prints links this (allLines (this :: older)) := by
  have hring : Threads links .modules ([] ++ .module this :: older.map Addr.module) := h
  obtain ⟨node, hload, hprev, -⟩ := hring.load_entry
  have hnode : node.prev = .modules := Option.some.inj (hprev.prev.symm.trans hring.entry_prev.prev)
  refine ⟨node, hload, ?_⟩
  rw [hnode]
  exact forEach_prints h

/-- The walk starts behind the module `next`, which came next, and passes over the head. -/
theorem prints_behind {this next : ℕ} {newer older : List ℕ}
    (h : Threads links .modules ((newer ++ next :: this :: older).map .module)) :
    Prints links this
      ((this :: older).map Addr.module ++ .modules :: newer.map Addr.module).zipIdx := by
  rw [List.map_append, List.map_cons] at h
  have hring : Threads links .modules
      ((newer.map .module ++ [.module next]) ++ .module this :: older.map Addr.module) := by
    rwa [← List.append_cons]
  obtain ⟨node, hload, hprev, -⟩ := hring.load_entry
  have hnode : node.prev = .module next := by
    have hlast := Option.some.inj (hprev.prev.symm.trans hring.entry_prev.prev)
    simpa using hlast
  refine ⟨node, hload, ?_⟩
  rw [hnode]
  exact forEach_prints h.rotate

theorem newest_iff {newer older : List ℕ} {this : ℕ}
    (hsorted : (newer ++ this :: older).Pairwise (· > ·)) :
    (∃ m ∈ newer ++ this :: older, this < m) ↔ newer ≠ [] := by
  obtain ⟨-, hbehind, hnewer⟩ := List.pairwise_append.mp hsorted
  constructor
  · rintro ⟨m, hm, hlt⟩ rfl
    rcases List.mem_cons.mp hm with rfl | hm
    · exact lt_irrefl _ hlt
    · exact lt_asymm hlt ((List.pairwise_cons.mp hbehind).1 m hm)
  · intro hne
    obtain ⟨m, hm⟩ := List.exists_mem_of_ne_nil newer hne
    exact ⟨m, List.mem_append_left _ hm, hnewer m hm this List.mem_cons_self⟩

theorem mem_zipIdx {a : Addr} {as : List Addr} : (∃ j, (a, j) ∈ as.zipIdx) ↔ a ∈ as := by
  constructor
  · rintro ⟨j, hj⟩
    exact List.fst_mem_of_mem_zipIdx hj
  · intro ha
    obtain ⟨j, hj⟩ := List.getElem?_of_mem ha
    exact ⟨j, List.mem_zipIdx_iff_getElem?.mpr hj⟩

/-- A walk that does not start at the head prints the head, and misses a module. -/
theorem behind_wrong {this next : ℕ} {newer older : List ℕ}
    (hnodup : (newer ++ next :: this :: older).Nodup) :
    let lines := ((this :: older).map Addr.module ++ .modules :: newer.map Addr.module).zipIdx
    (∃ j, (.modules, j) ∈ lines) ∧ ∀ j, (.module next, j) ∉ lines := by
  intro lines
  refine ⟨mem_zipIdx.mpr (by simp), fun j hj => ?_⟩
  have hmem := mem_zipIdx.mp ⟨j, hj⟩
  rw [List.nodup_middle] at hnodup
  apply (List.nodup_cons.mp hnodup).1
  simp only [List.mem_append, List.mem_map, List.mem_cons, Addr.module.injEq, exists_eq_right,
    reduceCtorEq, false_or] at hmem ⊢
  tauto

theorem allLines_right (loaded : List ℕ) :
    (¬ ∃ j, (.modules, j) ∈ allLines loaded) ∧
      ∀ m ∈ loaded, ∃ j, (.module m, j) ∈ allLines loaded := by
  simp only [allLines, mem_zipIdx]
  simp

/-- Whatever modules came and went before `my_init` is called: it prints a line for each
module that is loaded, and nothing else, exactly when no module that came later is still
there. Otherwise it takes the kernel's head for a module, and misses one. -/
theorem taints_right_iff {es : List Event} (garbage : Node Addr)
    (hrun : Runs.exec Modules.step ⟨[], 0⟩ es = .ok l) {this : ℕ} (hthis : this ∈ l.loaded) :
    ∃ s lines, Runs.exec (State.step garbage) .boot es = .ok s ∧ Prints s.links this lines ∧
      (lines = allLines l.loaded ↔ ∀ m ∈ l.loaded, m ≤ this) ∧
      ((∃ j, (.modules, j) ∈ lines) ↔ ∃ m ∈ l.loaded, this < m) ∧
      ((∃ m ∈ l.loaded, ∀ j, (.module m, j) ∉ lines) ↔ ∃ m ∈ l.loaded, this < m) := by
  have hsim : ∀ l s e l', Refines s l → Modules.step l e = .ok l' →
      ∃ s', State.step garbage s e = .ok s' ∧ Refines s' l' :=
    fun _ _ _ _ hs hstep => step_refines hs hstep
  obtain ⟨s, hexec, hs⟩ := Runs.exec_simulates hsim boot_refines hrun
  obtain ⟨newer, older, hsplit⟩ := List.append_of_mem hthis
  have hthreads := hs.threads
  have hsorted := hs.sorted
  rw [hsplit] at hthreads hsorted
  have hnewest := newest_iff hsorted
  rw [← hsplit] at hnewest
  have hle : (∀ m ∈ l.loaded, m ≤ this) ↔ ¬ ∃ m ∈ l.loaded, this < m := by
    simp
  obtain ⟨hhead, hall⟩ := allLines_right l.loaded
  rw [hle, hnewest]
  rcases List.eq_nil_or_concat newer with rfl | ⟨before, next, rfl⟩
  · refine ⟨s, allLines l.loaded, hexec, ?_, by simp, by simpa using hhead, ?_⟩
    · rw [hsplit]
      exact prints_first hthreads
    · simp only [ne_eq, not_true, iff_false, not_exists, not_and, not_forall, not_not]
      exact hall
  · rw [List.concat_eq_append, ← List.append_cons] at hthreads hsorted hsplit
    obtain ⟨hmodules, hmiss⟩ := behind_wrong (hsorted.imp fun hlt => hlt.ne')
    have hnewer : before.concat next ≠ [] := by simp
    refine ⟨s, _, hexec, prints_behind hthreads, ?_, iff_of_true hmodules hnewer,
      iff_of_true ⟨next, by simp [hsplit], hmiss⟩ hnewer⟩
    refine iff_of_false (fun heq => ?_) (not_not.mpr hnewer)
    rw [heq] at hmodules
    exact hhead hmodules

/-- Module 1 comes before `my_init` of module 0 is called. -/
theorem taints_after_load : ∃ s lines,
    Runs.exec (State.step ⟨.modules, .modules⟩) .boot [.load, .load] = .ok s ∧
      Prints s.links 0 lines ∧ (lines = allLines [1, 0] ↔ ∀ m ∈ [1, 0], m ≤ 0) ∧
      ((∃ j, (.modules, j) ∈ lines) ↔ ∃ m ∈ [1, 0], 0 < m) ∧
      ((∃ m ∈ [1, 0], ∀ j, (.module m, j) ∉ lines) ↔ ∃ m ∈ [1, 0], 0 < m) :=
  taints_right_iff (l := ⟨[1, 0], 2⟩) ⟨.modules, .modules⟩ rfl (by simp)

end LddSamples.Data.Taints
