import LddSamples.Kernel.Basic
import LddSamples.Library.Buckets
import LddSamples.Library.Runs

/-!
# The hash table of lab4_data_hashtable

`hash_min` is the kernel's second hash layer, whatever it maps the keys to. Adding and
deleting compute the bucket independently from the data; they agree because both do it
the same way.
-/

namespace LddSamples.Data.HashTable

open Kernel Buckets

/-- `struct h_struct`; the address of its `node` is what the lists link. -/
structure HStruct where
  node : ℕ
  data : ℤ
  deriving DecidableEq

/-- `DEFINE_HASHTABLE(data_hash, 1)`. -/
abbrev Table := Fin 2 → List HStruct

def hashFunc (data : ℤ) : ℤ := data.tmod 2

variable (hashMin : ℤ → Fin 2)

def hashAdd (t : Table) (new : HStruct) (key : ℤ) : Table := link t (hashMin key) new

def hashDel (t : Table) (entry : HStruct) : Table := keep (fun x => x.node != entry.node) t

def addNode (t : Table) (new : HStruct) : Table := hashAdd hashMin t new (hashFunc new.data)

/-- `hash_for_each_possible` walks the bucket of the key. -/
def delNode (t : Table) (data : ℤ) : Table :=
  match (t (hashMin (hashFunc data))).find? fun entry => entry.data = data with
  | some entry => hashDel t entry
  | none => t

def printNodes (t : Table) : List ℤ := (entries t).map HStruct.data

inductive Op
  | addNode (new : HStruct)
  | delNode (data : ℤ)

def step (t : Table) : Op → Except Fault Table
  | .addNode new => .ok (addNode hashMin t new)
  | .delNode data => .ok (delNode hashMin t data)

def empty : Table := fun _ => []

def Linked (t : Table) (node : ℕ) : Prop := ∃ entry ∈ entries t, entry.node = node

/-- A node that is added is not linked. -/
def NotLinked (t : Table) (op : Op) : Prop := ∀ new, op = .addNode new → ¬ Linked t new.node

/-- What the operations are for: the values that were added, less one for each value
that was deleted and there. -/
def values : Multiset ℤ → List Op → Multiset ℤ
  | M, [] => M
  | M, .addNode new :: ops => values (new.data ::ₘ M) ops
  | M, .delNode data :: ops => values (M.erase data) ops

/-- A deletion takes one entry with its value away, or changes nothing. -/
def DeletesOne (t : Table) (data : ℤ) : Prop :=
  (data ∉ printNodes t → delNode hashMin t data = t) ∧
    (data ∈ printNodes t → ∃ entry ∈ entries t, entry.data = data ∧
      entries (delNode hashMin t data) = (entries t).erase entry)

structure Sound (t : Table) : Prop where
  nodup : ((entries t).map HStruct.node).Nodup
  placed : ∀ b, ∀ entry ∈ t b, b = hashMin (hashFunc entry.data)

variable {hashMin} {t : Table}

theorem empty_sound : Sound hashMin empty where
  nodup := List.nodup_nil
  placed _ _ h := absurd h List.not_mem_nil

/-! ## One operation -/

theorem addNode_sound (ht : Sound hashMin t) {new : HStruct} (hnew : ¬ Linked t new.node) :
    Sound hashMin (addNode hashMin t new) where
  nodup := by
    have hperm := (entries_link t (hashMin (hashFunc new.data)) new).map HStruct.node
    refine (hperm.nodup_iff).mpr (List.nodup_cons.mpr ⟨fun h => hnew ?_, ht.nodup⟩)
    obtain ⟨entry, hentry, hnode⟩ := List.mem_map.mp h
    exact ⟨entry, hentry, hnode⟩
  placed b entry h := by
    rcases mem_link.mp h with ⟨rfl, hb⟩ | hold
    · exact hb
    · exact ht.placed b entry hold

theorem addNode_print (t : Table) (new : HStruct) :
    (printNodes (addNode hashMin t new) : Multiset ℤ) = new.data ::ₘ (printNodes t : Multiset ℤ) :=
  Multiset.coe_eq_coe.mpr ((entries_link t _ new).map HStruct.data)

theorem hashDel_sound (ht : Sound hashMin t) (entry : HStruct) :
    Sound hashMin (hashDel t entry) where
  nodup := by
    rw [hashDel, entries_keep]
    exact (List.filter_sublist.map _).nodup ht.nodup
  placed b x h := ht.placed b x (List.mem_of_mem_filter h)

/-- An entry with the value is in the bucket that the search walks, if there is one. -/
theorem find_eq_none_iff (ht : Sound hashMin t) (data : ℤ) :
    (t (hashMin (hashFunc data))).find? (fun entry => entry.data = data) = none ↔
      data ∉ printNodes t := by
  rw [List.find?_eq_none]
  constructor
  · intro hnone hmem
    obtain ⟨entry, hentry, rfl⟩ := List.mem_map.mp hmem
    obtain ⟨b, hb⟩ := mem_entries.mp hentry
    rw [← ht.placed b entry hb] at hnone
    simpa using hnone entry hb
  · intro hnone entry hentry hdata
    refine hnone (List.mem_map.mpr ⟨entry, mem_entries.mpr ⟨_, hentry⟩, ?_⟩)
    simpa using hdata

theorem delNode_deletesOne (ht : Sound hashMin t) (data : ℤ) : DeletesOne hashMin t data := by
  unfold DeletesOne delNode
  rw [← find_eq_none_iff ht]
  cases hfind : (t (hashMin (hashFunc data))).find? fun entry => entry.data = data with
  | none =>
      refine ⟨fun _ => rfl, fun hmem => ?_⟩
      exact absurd hmem ((find_eq_none_iff ht data).mp hfind)
  | some entry =>
      have hentry : entry ∈ entries t := mem_entries.mpr ⟨_, List.mem_of_find?_eq_some hfind⟩
      have hdata : entry.data = data := by simpa using List.find?_some hfind
      refine ⟨?_, fun _ => ⟨entry, hentry, hdata, entries_unlink ht.nodup hentry⟩⟩
      rintro ⟨⟩

theorem delNode_sound (ht : Sound hashMin t) (data : ℤ) :
    Sound hashMin (delNode hashMin t data) := by
  unfold delNode
  split
  · exact hashDel_sound ht _
  · exact ht

theorem delNode_print (ht : Sound hashMin t) (data : ℤ) :
    (printNodes (delNode hashMin t data) : Multiset ℤ) =
      (printNodes t : Multiset ℤ).erase data := by
  obtain ⟨habsent, hpresent⟩ := delNode_deletesOne ht data
  by_cases hmem : data ∈ printNodes t
  · obtain ⟨entry, hentry, rfl, herase⟩ := hpresent hmem
    have hperm : (printNodes t).Perm
        (entry.data :: printNodes (delNode hashMin t entry.data)) := by
      rw [printNodes, printNodes, herase, ← List.map_cons]
      exact (List.perm_cons_erase hentry).map _
    rw [Multiset.coe_eq_coe.mpr hperm, ← Multiset.cons_coe, Multiset.erase_cons_head]
  · rw [habsent hmem, Multiset.erase_of_notMem hmem]

/-! ## Sequences of operations -/

theorem exec_values (ht : Sound hashMin t) (ops : List Op)
    (hops : Runs.Along (step hashMin) NotLinked t ops) :
    ∃ t', Runs.exec (step hashMin) t ops = .ok t' ∧ Sound hashMin t' ∧
      (printNodes t' : Multiset ℤ) = values (printNodes t) ops := by
  induction ops generalizing t with
  | nil => exact ⟨t, rfl, ht, rfl⟩
  | cons op ops ih =>
      obtain ⟨hfirst, hrest⟩ := hops
      cases op with
      | addNode new =>
          obtain ⟨t', hrun, hsound, hprint⟩ := ih (addNode_sound ht (hfirst new rfl)) (hrest _ rfl)
          exact ⟨t', hrun, hsound, by rw [hprint, addNode_print, values]⟩
      | delNode data =>
          obtain ⟨t', hrun, hsound, hprint⟩ := ih (delNode_sound ht data) (hrest _ rfl)
          exact ⟨t', hrun, hsound, by rw [hprint, delNode_print ht, values]⟩

/-- After any additions of nodes that are not linked and any deletions, the nodes that
are printed are those added less those deleted, every node is in the bucket of its data,
and the next deletion takes one entry away or changes nothing. -/
theorem prints_values (hashMin : ℤ → Fin 2) (ops : List Op)
    (hops : Runs.Along (step hashMin) NotLinked empty ops) :
    ∃ t, Runs.exec (step hashMin) empty ops = .ok t ∧
      (printNodes t : Multiset ℤ) = values 0 ops ∧
      (∀ b, ∀ entry ∈ t b, b = hashMin (hashFunc entry.data)) ∧
      ∀ data, DeletesOne hashMin t data := by
  obtain ⟨t, hrun, hsound, hprint⟩ := exec_values empty_sound ops hops
  refine ⟨t, hrun, ?_, hsound.placed, delNode_deletesOne hsound⟩
  rw [hprint]
  rfl

/-- `hash_32` of one bit: the top bit of a product of 32 bits. -/
def hash32 (key : ℤ) : Fin 2 :=
  ⟨CArith.toUInt32 (CArith.toUInt32 key * 1640531527) / 2147483648 % 2, Nat.mod_lt _ Nat.two_pos⟩

/-- The operations of `hashtable_init`. -/
def initOps : List Op := [.addNode ⟨1, 5⟩, .addNode ⟨2, 2⟩, .addNode ⟨3, 7⟩, .delNode 5]

theorem prints_values_init : ∃ t, Runs.exec (step hash32) empty initOps = .ok t ∧
    (printNodes t : Multiset ℤ) = values 0 initOps ∧
    (∀ b, ∀ entry ∈ t b, b = hash32 (hashFunc entry.data)) ∧
    ∀ data, DeletesOne hash32 t data := by
  have hlink : ∀ t : Table, ∀ entry : HStruct, entry.node ∉ (entries t).map HStruct.node →
      NotLinked t (.addNode entry) := by
    rintro t entry hnew _ ⟨⟩ ⟨old, hold, hnode⟩
    exact hnew (List.mem_map.mpr ⟨old, hold, hnode⟩)
  apply prints_values hash32 initOps
  refine ⟨hlink _ _ (by decide), fun t₁ h₁ => ?_⟩
  cases h₁
  refine ⟨hlink _ _ (by decide), fun t₂ h₂ => ?_⟩
  cases h₂
  refine ⟨hlink _ _ (by decide), fun t₃ h₃ => ?_⟩
  cases h₃
  refine ⟨?_, fun t₄ h₄ => trivial⟩
  rintro _ ⟨⟩

end LddSamples.Data.HashTable
