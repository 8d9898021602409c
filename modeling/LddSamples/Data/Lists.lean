import LddSamples.Kernel.Basic
import LddSamples.Library.Decimal
import LddSamples.Library.ListHead

/-!
# lab3_data_list and lab1_list: entries on a list of the kernel

Loading the module puts five entries on a list, unloading it takes them off and frees
them. The two drivers differ in what an entry says.
-/

namespace LddSamples.Data.Lists

open Kernel ListHead Outcome

/-- The nodes: the head, which is static, and that of an allocated entry. -/
inductive Addr
  | head
  | entry (de : ℕ)
  deriving DecidableEq

/-- `struct data_entry` and `struct camel_entry`, without the node. -/
structure Entry where
  number : ℤ
  name : List UInt8

inductive Line
  | failed (k : ℕ)
  | adding (entry : Entry)
  | listEmpty
  | listNotEmpty
  | removed (entry : Entry)
  | doneEmpty
  | doneNotEmpty

structure State where
  heap : Heap
  links : Store Addr
  entries : ℕ → Option Entry
  log : List Line

/-- What the two drivers write into entry `k`. The name is printed into an array of `room`
bytes, which has place for the label, two digits and the terminating zero. -/
structure Driver where
  number : ℕ → ℤ
  label : List UInt8
  room : ℕ
  label_le : label.length + 3 ≤ room

def Driver.entry (d : Driver) (k : ℕ) : Entry := ⟨d.number k, d.label ++ Decimal.text (k + 1)⟩

namespace State

def initial (heap : Heap) : State := ⟨heap, ListHead.init (fun _ => none) .head, fun _ => none, []⟩

/-- `kmalloc` of an entry, whose bytes may be anything. -/
def alloc (s : State) (heap : Heap) (de : ℕ) (garbage : Node Addr) (entry : Entry) : State :=
  { s with
    heap := heap
    links := Function.update s.links (.entry de) (some garbage)
    entries := Function.update s.entries de (some entry)
    log := s.log ++ [.adding entry] }

def free (s : State) (de : ℕ) (entry : Entry) : State :=
  { s with
    heap := kfree s.heap de
    links := Function.update s.links (.entry de) none
    entries := Function.update s.entries de none
    log := s.log ++ [.removed entry] }

end State

/-- The rounds from `k` on. -/
def initLoop (d : Driver) (env : Env) (garbage : Node Addr) :
    ℕ → ℕ → State → Except ListHead.Fault (ℤ × State)
  | 0, _, s => .ok (0, s)
  | n + 1, k, s =>
      match kmalloc env s.heap with
      | (none, heap) => .ok (-ENOMEM, { s with heap := heap, log := s.log ++ [.failed k] })
      | (some de, heap) => do
          let s := s.alloc heap de garbage (d.entry k)
          let links ← add s.links (.entry de) .head
          initLoop d env garbage n (k + 1) { s with links := links }

def init (d : Driver) (env : Env) (garbage : Node Addr) (s : State) :
    Except ListHead.Fault (ℤ × State) :=
  initLoop d env garbage 5 0 s

/-- The body of the walk. No entry stands around the head. -/
def exitBody (poison : Node Addr) : Addr → State → Except ListHead.Fault State
  | .head, _ => .error .dangling
  | .entry de, s => do
      let links ← del poison s.links (.entry de)
      let entry ← ofOption .dangling (s.entries de)
      .ok ({ s with links := links }.free de entry)

/-- Unloading the module in `s` ends in `t`. -/
def Exits (poison : Node Addr) (s t : State) : Prop :=
  ∃ isEmpty, empty s.links .head = .ok isEmpty ∧
    if isEmpty then t = { s with log := s.log ++ [.listEmpty] }
    else ∃ u, ForEachSafe State.links (exitBody poison) .head
        { s with log := s.log ++ [.listNotEmpty] } u ∧
      ∃ isEmpty', empty u.links .head = .ok isEmpty' ∧
        t = { u with log := u.log ++ [if isEmpty' then .doneEmpty else .doneNotEmpty] }

/-- "Data_". -/
def datadrv : Driver := ⟨fun k => k, [68, 97, 116, 97, 95], 16, by decide⟩

/-- "Camel_". -/
def camels : Driver := ⟨fun k => 11 + k, [67, 97, 109, 101, 108, 95], 20, by decide⟩

def datadrvInit := init datadrv

def camelsInit := init camels

/-! ## What is on the list -/

/-- The list holds these entries, with the addresses they have, and no other entry is
allocated. -/
structure Holds (s : State) (xs : List (ℕ × Entry)) : Prop where
  threads : Threads s.links .head (xs.map fun x => .entry x.1)
  entry : ∀ x ∈ xs, s.entries x.1 = some x.2
  only : ∀ de, de ∉ xs.map Prod.fst → s.links (.entry de) = none ∧ s.entries de = none
  old : ∀ x ∈ xs, x.1 < s.heap.requests

variable {s : State} {xs : List (ℕ × Entry)}

theorem holds_initial (heap : Heap) : Holds (.initial heap) [] where
  threads := threads_init ..
  entry _ h := absurd h List.not_mem_nil
  only _ _ := ⟨rfl, rfl⟩
  old _ h := absurd h List.not_mem_nil

theorem Holds.congr {t : State} (h : Holds s xs) (hlinks : t.links = s.links)
    (hentries : t.entries = s.entries) (hheap : s.heap.requests ≤ t.heap.requests) :
    Holds t xs where
  threads := hlinks ▸ h.threads
  entry := hentries ▸ h.entry
  only := hlinks ▸ hentries ▸ h.only
  old x hx := (h.old x hx).trans_le hheap

theorem mem_addrs {de : ℕ} :
    Addr.entry de ∈ Addr.head :: xs.map (fun x => .entry x.1) ↔ de ∈ xs.map Prod.fst := by
  simp

/-- One round of the loop with an allocation that is granted. -/
theorem Holds.added (h : Holds s xs) (garbage : Node Addr) (entry : Entry) :
    let s' := s.alloc ⟨s.heap.requests + 1, s.heap.freed⟩ s.heap.requests garbage entry
    ∃ links, add s'.links (.entry s.heap.requests) .head = .ok links ∧
      Holds { s' with links := links } ((s.heap.requests, entry) :: xs) := by
  intro s'
  have hold : s.heap.requests ∉ xs.map Prod.fst := by
    intro hmem
    obtain ⟨x, hx, heq⟩ := List.mem_map.mp hmem
    exact absurd (h.old x hx) (by omega)
  have hout : Addr.entry s.heap.requests ∉ .head :: xs.map (fun x => .entry x.1) :=
    mem_addrs.not.mpr hold
  have hthreads : Threads s'.links .head (xs.map fun x => .entry x.1) := by
    refine h.threads.congr fun c hc => Function.update_of_ne ?_ _ _
    rintro rfl
    exact hout hc
  have hlive : Live s'.links (.entry s.heap.requests) := by
    simp [Live, s', State.alloc]
  obtain ⟨links, hadd, hnew, hframe, -⟩ := add_ok hthreads hlive hout
  refine ⟨links, hadd, hnew, ?_, ?_, ?_⟩
  · intro x hx
    rcases List.mem_cons.mp hx with rfl | hx
    · exact Function.update_self ..
    · refine (Function.update_of_ne ?_ _ _).trans (h.entry x hx)
      exact fun heq => hold (heq ▸ List.mem_map_of_mem hx)
  · intro de hde
    simp only [List.map_cons, List.mem_cons, not_or] at hde
    have hne : Addr.entry de ≠ .entry s.heap.requests := fun heq => hde.1 (Addr.entry.inj heq)
    obtain ⟨hnode, hentry⟩ := h.only de hde.2
    have hsame : links (.entry de) = s'.links (.entry de) := by
      apply hframe
      simp only [List.mem_cons, not_or]
      exact ⟨by simp, hne, fun hmem => hde.2 (mem_addrs.mp (List.mem_cons_of_mem _ hmem))⟩
    exact ⟨hsame.trans ((Function.update_of_ne hne _ _).trans hnode),
      (Function.update_of_ne hde.1 _ _).trans hentry⟩
  · intro x hx
    rcases List.mem_cons.mp hx with rfl | hx
    · exact Nat.lt_succ_self _
    · exact (h.old x hx).trans (Nat.lt_succ_self _)

/-- The body of the walk at the first entry. -/
theorem Holds.removed {x : ℕ × Entry} (h : Holds s (x :: xs)) (poison : Node Addr) :
    ∃ s', exitBody poison (.entry x.1) s = .ok s' ∧ Holds s' xs ∧
      s'.heap = kfree s.heap x.1 ∧ s'.log = s.log ++ [.removed x.2] := by
  have hring : Threads s.links .head ([] ++ .entry x.1 :: xs.map fun x => .entry x.1) :=
    h.threads
  obtain ⟨links, hdel, hthreads, hframe, -⟩ := del_ok poison hring
  have hout : x.1 ∉ xs.map Prod.fst := by
    have hnodup := (List.nodup_cons.mp (List.nodup_cons.mp hring.nodup).2).1
    exact fun hmem => hnodup (by simpa using hmem)
  have hentry := h.entry x List.mem_cons_self
  refine ⟨({ s with links := links }).free x.1 x.2, ?_, ⟨?_, ?_, ?_, ?_⟩, rfl, rfl⟩
  · simp only [exitBody, hdel, hentry, ofOption_some, ok_bind]
  · refine hthreads.congr fun c hc => Function.update_of_ne ?_ _ _
    rintro rfl
    exact hout (mem_addrs.mp hc)
  · intro y hy
    refine (Function.update_of_ne ?_ _ _).trans (h.entry y (List.mem_cons_of_mem _ hy))
    exact fun heq => hout (heq ▸ List.mem_map_of_mem hy)
  · intro de hde
    by_cases heq : de = x.1
    · rw [heq]
      exact ⟨Function.update_self .., Function.update_self ..⟩
    · have hother : de ∉ (x :: xs).map Prod.fst := by
        rw [List.map_cons, List.mem_cons, not_or]
        exact ⟨heq, hde⟩
      obtain ⟨hnode, hnone⟩ := h.only de hother
      have hne : Addr.entry de ≠ .entry x.1 := fun h => heq (Addr.entry.inj h)
      have hsame : links (.entry de) = s.links (.entry de) := by
        apply hframe
        rw [List.nil_append]
        exact mem_addrs.not.mpr hother
      exact ⟨(Function.update_of_ne hne _ _).trans (hsame.trans hnode),
        (Function.update_of_ne heq _ _).trans hnone⟩
  · exact fun y hy => h.old y (List.mem_cons_of_mem _ hy)

/-! ## Loading and unloading -/

/-- What `n` rounds from `k` on put on the list, the last one first; the first one gets the
address `first`. -/
def added (d : Driver) (first n k : ℕ) : List (ℕ × Entry) :=
  ((List.range n).map fun i => (first + i, d.entry (k + i))).reverse

theorem added_succ (d : Driver) (first n k : ℕ) :
    added d first (n + 1) k = added d (first + 1) n (k + 1) ++ [(first, d.entry k)] := by
  simp [added, List.range_succ_eq_map, Function.comp_def, Nat.add_assoc, Nat.add_comm 1]

/-- Every name fits the array it is printed into. -/
theorem Driver.name_fits (d : Driver) {k : ℕ} (hk : k < 9) :
    (d.entry k).name.length + 1 ≤ d.room := by
  have htext : (Decimal.text ((k : ℤ) + 1)).length ≤ 2 := by
    apply Decimal.text_length_le Nat.one_pos
    omega
  have hroom := d.label_le
  simp only [Driver.entry, List.length_append]
  omega

/-- The loop comes to the first allocation that fails, or to its end. -/
theorem initLoop_ok (d : Driver) (env : Env) (garbage : Node Addr) (N k : ℕ) (h : Holds s xs) :
    ∃ n s', n ≤ N ∧ (∀ i < n, env.grants (s.heap.requests + i) = true) ∧
      (n < N → env.grants (s.heap.requests + n) = false) ∧
      initLoop d env garbage N k s = .ok (if n = N then 0 else -ENOMEM, s') ∧
      Holds s' (added d s.heap.requests n k ++ xs) ∧ s'.heap.freed = s.heap.freed ∧
      s'.log = s.log ++ (added d s.heap.requests n k).reverse.map (fun x => .adding x.2) ++
        if n = N then [] else [.failed (k + n)] := by
  induction N generalizing s xs k with
  | zero => exact ⟨0, s, le_rfl, by simp, by simp, rfl, h, rfl, by simp [added]⟩
  | succ N ih =>
      cases hgrant : env.grants s.heap.requests with
      | false =>
          refine ⟨0, { s with
            heap := ⟨s.heap.requests + 1, s.heap.freed⟩, log := s.log ++ [.failed k] },
            Nat.zero_le _, by simp, fun _ => hgrant, ?_, ?_, rfl, by simp [added]⟩
          · simp [initLoop, kmalloc, hgrant]
          · exact h.congr rfl rfl (Nat.le_succ _)
      | true =>
          obtain ⟨links, hadd, hholds⟩ := h.added garbage (d.entry k)
          obtain ⟨n, s', hn, hgranted, hrefused, hrun, hholds', hfreed, hlog⟩ := ih (k + 1) hholds
          refine ⟨n + 1, s', by omega, ?_, ?_, ?_, ?_, hfreed, ?_⟩
          · intro i hi
            cases i with
            | zero => exact hgrant
            | succ i =>
                rw [← Nat.add_assoc, Nat.add_right_comm]
                exact hgranted i (by omega)
          · intro hlt
            rw [← Nat.add_assoc, Nat.add_right_comm]
            exact hrefused (by omega)
          · simp only [initLoop, kmalloc, hgrant, if_true, hadd, ok_bind, hrun]
            simp
          · rw [added_succ, List.append_assoc]
            exact hholds'
          · rw [hlog, added_succ]
            simp [State.alloc, Nat.add_assoc, Nat.add_comm 1]

/-- Where the walk has come to, from `s` on. -/
structure Unloading (s : State) (xs : List (ℕ × Entry)) (rest : List Addr) (u : State) : Prop where
  split : ∃ gone ys, xs = gone ++ ys ∧ rest = ys.map (fun x => .entry x.1) ∧ Holds u ys ∧
    u.heap.freed = s.heap.freed ++ gone.map Prod.fst ∧
    u.log = s.log ++ .listNotEmpty :: gone.map (fun x => .removed x.2)

theorem Unloading.round {u : State} {a : Addr} {rest : List Addr} (poison : Node Addr)
    (h : Unloading s xs (a :: rest) u) :
    ∃ u', exitBody poison a u = .ok u' ∧ Unloading s xs rest u' := by
  obtain ⟨gone, ys, hxs, hrest, hholds, hfreed, hlog⟩ := h.split
  cases ys with
  | nil => cases hrest
  | cons y ys =>
      cases hrest
      obtain ⟨u', hbody, hholds', hheap, hlog'⟩ := hholds.removed poison
      refine ⟨u', hbody, ⟨gone ++ [y], ys, by simp [hxs], rfl, hholds', ?_, ?_⟩⟩
      · simp [hheap, kfree, hfreed]
      · simp [hlog', hlog]

theorem exits_ok (poison : Node Addr) (h : Holds s xs) :
    ∃ t, Exits poison s t ∧ Holds t [] ∧ t.heap.freed = s.heap.freed ++ xs.map Prod.fst ∧
      t.log = s.log ++ if xs = [] then [.listEmpty]
        else .listNotEmpty :: xs.map (fun x => .removed x.2) ++ [.doneEmpty] := by
  have hempty := h.threads.empty_eq
  by_cases hxs : xs = []
  · subst hxs
    refine ⟨{ s with log := s.log ++ [.listEmpty] }, ⟨true, hempty, rfl⟩, ?_, by simp, rfl⟩
    exact h.congr rfl rfl le_rfl
  · have hstart : Unloading s xs (xs.map fun x => .entry x.1)
        { s with log := s.log ++ [.listNotEmpty] } :=
      ⟨[], xs, rfl, rfl, h.congr rfl rfl le_rfl, by simp, rfl⟩
    obtain ⟨u, hwalk, hend⟩ : ∃ u, ForEachSafe State.links (exitBody poison) .head
        { s with log := s.log ++ [.listNotEmpty] } u ∧ Unloading s xs [] u := by
      refine forEachSafe_ends (fun rest u hu => ⟨[], ?_⟩) (fun a rest u hu => hu.round poison)
        hstart h.threads
      obtain ⟨gone, ys, -, rfl, hholds, -⟩ := hu.split
      exact hholds.threads
    obtain ⟨gone, ys, rfl, hrest, hholds, hfreed, hlog⟩ := hend.split
    obtain rfl := List.map_eq_nil_iff.mp hrest.symm
    refine ⟨{ u with log := u.log ++ [.doneEmpty] }, ⟨false, ?_, ?_⟩, ?_, ?_, ?_⟩
    · rw [hempty, decide_eq_false (by simpa using hxs)]
    · exact ⟨u, hwalk, true, hholds.threads.empty_eq, rfl⟩
    · exact hholds.congr rfl rfl le_rfl
    · rw [List.append_nil]
      exact hfreed
    · simp only [List.append_nil] at hxs
      simp [hlog, hxs]

/-- What is said while the module is loaded and unloaded, when `n` entries were put on the
list. -/
def story (xs : List (ℕ × Entry)) : List Line :=
  xs.reverse.map (fun x => .adding x.2) ++ (if xs.length = 5 then [] else [.failed xs.length]) ++
    if xs = [] then [.listEmpty]
    else .listNotEmpty :: xs.map (fun x => .removed x.2) ++ [.doneEmpty]

/-- Loading puts entries on the list up to the first allocation that fails; where one does,
they are left behind. They are just what unloading would take off, the last one first, each
freed once, with nothing left allocated. Every name fits its array. -/
theorem unload_undoes_load (d : Driver) (env : Env) (garbage poison : Node Addr) (heap : Heap) :
    ∃ n s t, n ≤ 5 ∧ (∀ i < n, env.grants (heap.requests + i) = true) ∧
      (n < 5 → env.grants (heap.requests + n) = false) ∧
      init d env garbage (.initial heap) = .ok (if n = 5 then 0 else -ENOMEM, s) ∧
      Holds s (added d heap.requests n 0) ∧
      (∀ x ∈ added d heap.requests n 0, x.2.name.length + 1 ≤ d.room) ∧
      s.heap.freed = heap.freed ∧
      Exits poison s t ∧ Holds t [] ∧
      t.heap.freed = heap.freed ++ (added d heap.requests n 0).map Prod.fst ∧
      t.log = story (added d heap.requests n 0) := by
  obtain ⟨n, s, hn, hgrants, hrefused, hrun, hholds, hfreed, hlog⟩ :=
    initLoop_ok d env garbage 5 0 (holds_initial heap)
  rw [List.append_nil] at hholds
  obtain ⟨t, hexits, hempty, hall, hstory⟩ := exits_ok poison hholds
  have hnames : ∀ x ∈ added d heap.requests n 0, x.2.name.length + 1 ≤ d.room := by
    intro x hx
    obtain ⟨i, hi, rfl⟩ := List.mem_map.mp (List.mem_reverse.mp hx)
    have hlt := List.mem_range.mp hi
    exact d.name_fits (by omega)
  refine ⟨n, s, t, hn, hgrants, hrefused, hrun, hholds, hnames, hfreed, hexits, hempty, ?_, ?_⟩
  · rw [hall, hfreed]
    rfl
  · have hlength : (added d heap.requests n 0).length = n := by simp [added]
    rw [hstory, hlog, story, hlength, Nat.zero_add]
    rfl

end LddSamples.Data.Lists
