import LddSamples.Kernel.Basic

/-!
# What a computation gets from the allocator

Addresses are handed out in order and none is handed out twice. A computation that
only allocates is described by the addresses it has been granted; such descriptions
compose.
-/

namespace LddSamples.Kernel

/-- The addresses asked for between two states of the heap. -/
def asked (heap heap' : Heap) : List ℕ :=
  List.range' heap.requests (heap'.requests - heap.requests)

/-- From `heap` to `heap'` nothing is freed, and the addresses `new` are granted. -/
structure Gains (env : Env) (heap heap' : Heap) (new : List ℕ) : Prop where
  freed : heap'.freed = heap.freed
  le : heap.requests ≤ heap'.requests
  sublist : new.Sublist (asked heap heap')
  all : (∀ n, env.grants n = true) → new = asked heap heap'

variable {env : Env} {heap heap₁ heap₂ : Heap} {new new' : List ℕ}

theorem asked_self (heap : Heap) : asked heap heap = [] := by simp [asked]

theorem asked_succ (heap : Heap) (freed : List ℕ) :
    asked heap ⟨heap.requests + 1, freed⟩ = [heap.requests] := by
  simp [asked]

theorem asked_append (h : heap.requests ≤ heap₁.requests) (h' : heap₁.requests ≤ heap₂.requests) :
    asked heap heap₂ = asked heap heap₁ ++ asked heap₁ heap₂ := by
  obtain ⟨m, hm⟩ := Nat.exists_eq_add_of_le h
  obtain ⟨n, hn⟩ := Nat.exists_eq_add_of_le h'
  have hsum : heap.requests + m + n - heap.requests = m + n := by omega
  simp only [asked, hn, hm, Nat.add_sub_cancel_left, hsum, List.range'_append_1]

theorem Gains.refl (env : Env) (heap : Heap) : Gains env heap heap [] where
  freed := rfl
  le := le_refl _
  sublist := List.nil_sublist _
  all _ := (asked_self heap).symm

theorem Gains.trans (h : Gains env heap heap₁ new) (h' : Gains env heap₁ heap₂ new') :
    Gains env heap heap₂ (new ++ new') where
  freed := h'.freed.trans h.freed
  le := h.le.trans h'.le
  sublist := by
    rw [asked_append h.le h'.le]
    exact h.sublist.append h'.sublist
  all hgrants := by rw [asked_append h.le h'.le, h.all hgrants, h'.all hgrants]

theorem Gains.mem (h : Gains env heap heap₁ new) {a : ℕ} (ha : a ∈ new) :
    heap.requests ≤ a ∧ a < heap₁.requests := by
  have hmem := List.mem_range'_1.mp (h.sublist.subset ha)
  have hle := h.le
  omega

theorem kmalloc_some {addr : ℕ} (h : kmalloc env heap = (some addr, heap₁)) :
    addr = heap.requests ∧ Gains env heap heap₁ [addr] := by
  obtain ⟨hgrant, rfl⟩ := Prod.mk.inj h
  split at hgrant
  · obtain rfl := Option.some.inj hgrant
    refine ⟨rfl, ⟨rfl, Nat.le_succ _, ?_, fun _ => (asked_succ ..).symm⟩⟩
    rw [asked_succ]
  · cases hgrant

theorem kmalloc_none (h : kmalloc env heap = (none, heap₁)) : Gains env heap heap₁ [] := by
  obtain ⟨hgrant, rfl⟩ := Prod.mk.inj h
  refine ⟨rfl, Nat.le_succ _, List.nil_sublist _, fun hall => ?_⟩
  rw [if_pos (hall _)] at hgrant
  cases hgrant

end LddSamples.Kernel
