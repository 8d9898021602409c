import Mathlib.Data.List.FinRange
import Mathlib.Tactic

/-!
# Chained hash tables

An array of lists. The order in which a walk over all buckets meets the entries
depends on their history, but which entries it meets changes only by what is linked and
unlinked.
-/

namespace Buckets

variable {α : Type*} {n : ℕ} {t : Fin n → List α}

/-- The entries in the order of a walk over all buckets. -/
def entries (t : Fin n → List α) : List α := (List.finRange n).flatMap t

def link (t : Fin n → List α) (b : Fin n) (a : α) : Fin n → List α :=
  Function.update t b (a :: t b)

/-- The entries that satisfy `p` stay, in all buckets. -/
def keep (p : α → Bool) (t : Fin n → List α) : Fin n → List α := fun b => (t b).filter p

theorem mem_entries {a : α} : a ∈ entries t ↔ ∃ b, a ∈ t b := by
  simp [entries]

theorem link_same (t : Fin n → List α) (b : Fin n) (a : α) : link t b a b = a :: t b :=
  Function.update_self ..

theorem link_of_ne (t : Fin n → List α) {b c : Fin n} (a : α) (h : c ≠ b) : link t b a c = t c :=
  Function.update_of_ne h ..

theorem mem_link {b c : Fin n} {a x : α} : x ∈ link t b a c ↔ (x = a ∧ c = b) ∨ x ∈ t c := by
  by_cases h : c = b
  · rw [h, link_same, List.mem_cons, and_iff_left rfl]
  · rw [link_of_ne t a h]
    simp [h]

/-- Linking an entry adds it to the entries, wherever its bucket is. -/
theorem entries_link (t : Fin n → List α) (b : Fin n) (a : α) :
    (entries (link t b a)).Perm (a :: entries t) := by
  obtain ⟨before, behind, hkeys⟩ := List.append_of_mem (List.mem_finRange b)
  have hnodup := List.nodup_finRange n
  rw [hkeys] at hnodup
  have hothers : ∀ cs : List (Fin n), b ∉ cs → cs.flatMap (link t b a) = cs.flatMap t := by
    intro cs hb
    refine List.flatMap_congr fun c hc => link_of_ne t a ?_
    rintro rfl
    exact hb hc
  have hbefore : b ∉ before := fun h =>
    (List.disjoint_of_nodup_append hnodup) h List.mem_cons_self
  have hbehind : b ∉ behind := (List.nodup_cons.mp (List.nodup_append.mp hnodup).2.1).1
  unfold entries
  rw [hkeys, List.flatMap_append, List.flatMap_append, List.flatMap_cons, List.flatMap_cons,
    hothers before hbefore, hothers behind hbehind, link_same]
  exact List.perm_middle

theorem entries_keep (p : α → Bool) (t : Fin n → List α) :
    entries (keep p t) = (entries t).filter p := by
  rw [entries, entries, List.filter_flatMap]
  rfl

/-- Where the entries have different addresses, to keep all but those at the address
of one entry is to take away this entry. -/
theorem entries_unlink {κ : Type*} [DecidableEq κ] [DecidableEq α] {addr : α → κ}
    (hnodup : ((entries t).map addr).Nodup) {a : α} (ha : a ∈ entries t) :
    entries (keep (fun x => addr x != addr a) t) = (entries t).erase a := by
  rw [entries_keep, (List.Nodup.of_map addr hnodup).erase_eq_filter]
  refine List.filter_congr fun x hx => ?_
  by_cases hxa : x = a
  · rw [hxa, bne_self_eq_false, bne_self_eq_false]
  · have haddr : addr x ≠ addr a := fun h => hxa (List.inj_on_of_nodup_map hnodup hx ha h)
    rw [bne_iff_ne.mpr haddr, bne_iff_ne.mpr hxa]

end Buckets
