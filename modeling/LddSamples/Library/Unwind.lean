import Mathlib.Data.Finset.Basic
import Mathlib.Data.List.Nodup
import LddSamples.Library.Runs

/-!
# Constructors that give back what they took when they fail

A constructor takes resources one after the other, any of which may be refused. Where it
sees the refusal it gives back a list of resources and fails; where it does not look it
goes on without the resource. To use what was refused is a fault, and so is to give back what
is not there, unless it was refused and the resource is one of those where this does nothing.

Whether all this works out for every pattern of refusals is told from the lists alone.
-/

namespace Unwind

open Outcome

variable {R : Type*} [DecidableEq R]

inductive Step (R : Type*)
  | sure (r : R)
  | guard (undo : List R)
  | checked (r : R) (undo : List R)
  | unchecked (r : R)
  | uses (r : R)

structure World (R : Type*) where
  held : Finset R
  refused : Finset R

inductive Fault
  | notThere
  | badPointer

namespace World

def take (w : World R) (r : R) : World R := { w with held := insert r w.held }

def refuse (w : World R) (r : R) : World R := { w with refused := insert r w.refused }

end World

section Execution

variable (tolerates : R → Bool)

def release (w : World R) (r : R) : Except Fault (World R) :=
  if r ∈ w.held then .ok { w with held := w.held.erase r }
  else if r ∈ w.refused ∧ tolerates r then .ok w else .error .notThere

def releaseAll : World R → List R → Except Fault (World R)
  | w, [] => .ok w
  | w, r :: rs => do releaseAll (← release tolerates w r) rs

/-- What is done when a refusal is seen: give back, and fail. -/
def fail (w : World R) (undo : List R) : Except Fault (Bool × World R) :=
  (releaseAll tolerates w undo).map fun w => (false, w)

/-- `grants` says which of the attempts that may fail succeed. -/
def build : List (Step R) → (ℕ → Bool) → World R → Except Fault (Bool × World R)
  | [], _, w => .ok (true, w)
  | .sure r :: steps, grants, w => build steps grants (w.take r)
  | .guard undo :: steps, grants, w =>
      if grants 0 then build steps (fun i => grants (i + 1)) w else fail tolerates w undo
  | .checked r undo :: steps, grants, w =>
      if grants 0 then build steps (fun i => grants (i + 1)) (w.take r)
      else fail tolerates (w.refuse r) undo
  | .unchecked r :: steps, grants, w =>
      build steps (fun i => grants (i + 1)) (if grants 0 then w.take r else w.refuse r)
  | .uses r :: steps, grants, w =>
      if r ∈ w.refused then .error .badPointer else build steps grants w

end Execution

/-! ## The lists -/

def takes : List (Step R) → List R
  | [] => []
  | .sure r :: steps => r :: takes steps
  | .guard _ :: steps => takes steps
  | .checked r _ :: steps => r :: takes steps
  | .unchecked r :: steps => r :: takes steps
  | .uses _ :: steps => takes steps

variable (tolerates : R → Bool)

/-- The list gives back, once each, what must be there and what may be there; and else at
most `failed`. -/
def Returns (must may failed : Finset R) (undo : List R) : Prop :=
  (∀ r ∈ must ∪ may, undo.count r = 1) ∧ (∀ r ∈ may, tolerates r) ∧
    ∀ r ∈ undo, r ∈ must ∪ may ∨ (r ∈ failed ∧ tolerates r)

instance (must may failed : Finset R) (undo : List R) :
    Decidable (Returns tolerates must may failed undo) :=
  inferInstanceAs (Decidable (_ ∧ _ ∧ _))

/-- Every list gives back what has been taken before it, and nothing is used that may have been
refused; `ends` is asked of what the constructor leaves when it succeeds. -/
def Checks (ends : Finset R → Finset R → Prop) : Finset R → Finset R → List (Step R) → Prop
  | must, may, [] => ends must may
  | must, may, .sure r :: steps => Checks ends (insert r must) may steps
  | must, may, .guard undo :: steps =>
      Returns tolerates must may ∅ undo ∧ Checks ends must may steps
  | must, may, .checked r undo :: steps =>
      Returns tolerates must may {r} undo ∧ Checks ends (insert r must) may steps
  | must, may, .unchecked r :: steps => Checks ends must (insert r may) steps
  | must, may, .uses r :: steps => r ∉ may ∧ Checks ends must may steps

instance decidableChecks (ends : Finset R → Finset R → Prop)
    [∀ must may, Decidable (ends must may)] :
    ∀ must may steps, Decidable (Checks tolerates ends must may steps)
  | must, may, [] => inferInstanceAs (Decidable (ends must may))
  | must, may, .sure r :: steps => decidableChecks ends (insert r must) may steps
  | must, may, .guard _ :: steps =>
      have := decidableChecks ends must may steps
      inferInstanceAs (Decidable (_ ∧ _))
  | must, may, .checked r _ :: steps =>
      have := decidableChecks ends (insert r must) may steps
      inferInstanceAs (Decidable (_ ∧ _))
  | must, may, .unchecked r :: steps => decidableChecks ends must (insert r may) steps
  | must, may, .uses _ :: steps =>
      have := decidableChecks ends must may steps
      inferInstanceAs (Decidable (_ ∧ _))

/-! ## Giving back -/

section Giving

variable {tolerates : R → Bool} {w : World R} {must may failed : Finset R} {undo : List R}

def Nothing (w : World R) : Prop := w.held = ∅

/-- The resources are given back without a fault, and nothing is left. -/
def Clears (tolerates : R → Bool) (w : World R) (undo : List R) : Prop :=
  Meets (fun _ => False) Nothing (releaseAll tolerates w undo)

/-- What is held has not been refused. -/
def Apart (w : World R) : Prop := Disjoint w.held w.refused

theorem clears_nil : Clears tolerates w [] ↔ w.held = ∅ := Iff.rfl

theorem clears_cons_held {r : R} (hr : r ∈ w.held) :
    Clears tolerates w (r :: undo) ↔ Clears tolerates { w with held := w.held.erase r } undo := by
  rw [Clears, releaseAll, release, if_pos hr]
  rfl

theorem clears_cons_refused {r : R} (hr : r ∉ w.held) (hrefused : r ∈ w.refused ∧ tolerates r) :
    Clears tolerates w (r :: undo) ↔ Clears tolerates w undo := by
  rw [Clears, releaseAll, release, if_neg hr, if_pos hrefused]
  rfl

theorem not_clears_cons {r : R} (hr : r ∉ w.held) (hrefused : ¬ (r ∈ w.refused ∧ tolerates r)) :
    ¬ Clears tolerates w (r :: undo) := by
  rw [Clears, releaseAll, release, if_neg hr, if_neg hrefused]
  exact id

/-- The list clears when it has every resource that is held once, and else only what may be
given back for nothing. -/
theorem clears_iff (hapart : Apart w) : Clears tolerates w undo ↔
    (∀ r ∈ w.held, undo.count r = 1) ∧
      ∀ r ∈ undo, r ∈ w.held ∨ (r ∈ w.refused ∧ tolerates r) := by
  induction undo generalizing w with
  | nil =>
      rw [clears_nil, Finset.eq_empty_iff_forall_notMem]
      simp
  | cons a undo ih =>
      by_cases ha : a ∈ w.held
      · have hrefused : a ∉ w.refused := Finset.disjoint_left.mp hapart ha
        have hrest : Apart { w with held := w.held.erase a } :=
          Finset.disjoint_of_subset_left (Finset.erase_subset a w.held) hapart
        rw [clears_cons_held ha, ih hrest]
        simp only [Finset.mem_erase, List.forall_mem_cons, ha, true_or, true_and]
        constructor
        · rintro ⟨hcount, hmem⟩
          have hout : a ∉ undo := fun h =>
            (hmem a h).elim (fun h => h.1 rfl) fun h => hrefused h.1
          refine ⟨fun r hr => ?_, fun r hr => (hmem r hr).imp_left And.right⟩
          by_cases heq : r = a
          · rw [heq, List.count_cons_self, List.count_eq_zero_of_not_mem hout]
          · rw [List.count_cons_of_ne (Ne.symm heq)]
            exact hcount r ⟨heq, hr⟩
        · rintro ⟨hcount, hmem⟩
          have hout : a ∉ undo := by
            have hone := hcount a ha
            rw [List.count_cons_self] at hone
            exact List.count_eq_zero.mp (by omega)
          refine ⟨fun r hr => ?_, fun r hr => (hmem r hr).imp_left fun h => ⟨?_, h⟩⟩
          · rw [← hcount r hr.2, List.count_cons_of_ne (Ne.symm hr.1)]
          · rintro rfl
            exact hout hr
      · have hcount : ∀ r ∈ w.held, (a :: undo).count r = undo.count r := by
          rintro r hr
          refine List.count_cons_of_ne ?_
          rintro rfl
          exact ha hr
        by_cases hrefused : a ∈ w.refused ∧ tolerates a
        · rw [clears_cons_refused ha hrefused, ih hapart, List.forall_mem_cons,
            and_iff_right (Or.inr hrefused)]
          refine and_congr_left fun _ => forall₂_congr fun r hr => ?_
          rw [hcount r hr]
        · refine iff_of_false (not_clears_cons ha hrefused) fun h => ?_
          exact (h.2 a List.mem_cons_self).elim ha hrefused

/-- Resources that must be there are, and of those that may be there some are and the
others were refused. -/
structure Fits (must may : Finset R) (w : World R) : Prop where
  least : must ⊆ w.held
  most : w.held ⊆ must ∪ may
  refused : w.refused = may \ w.held

theorem Fits.not_refused (h : Fits must may w) {r : R} (hr : r ∉ may) : r ∉ w.refused := by
  rw [h.refused, Finset.mem_sdiff]
  exact fun hmem => hr hmem.1

theorem Fits.apart (h : Fits must may w) (hfailed : Disjoint failed (must ∪ may)) :
    Apart { w with refused := failed ∪ w.refused } := by
  rw [Apart, Finset.disjoint_union_right, h.refused]
  exact ⟨(hfailed.mono_right h.most).symm, Finset.disjoint_sdiff⟩

/-- All that may be there was refused. -/
theorem fits_least (hmay : Disjoint must may) : Fits must may ⟨must, may⟩ :=
  ⟨subset_rfl, Finset.subset_union_left, (Finset.sdiff_eq_self_of_disjoint hmay.symm).symm⟩

theorem returns_iff (hfailed : Disjoint failed (must ∪ may)) (hmay : Disjoint must may) :
    (∀ w, Fits must may w → Clears tolerates { w with refused := failed ∪ w.refused } undo) ↔
      Returns tolerates must may failed undo := by
  constructor
  · intro h
    have hall : Fits must may ⟨must ∪ may, ∅⟩ :=
      ⟨Finset.subset_union_left, subset_rfl,
        (Finset.sdiff_eq_empty_iff_subset.mpr Finset.subset_union_right).symm⟩
    have hfew := fits_least hmay
    obtain ⟨hcount, hmem⟩ := (clears_iff (hall.apart hfailed)).mp (h _ hall)
    obtain ⟨-, hmem'⟩ := (clears_iff (hfew.apart hfailed)).mp (h _ hfew)
    refine ⟨hcount, fun r hr => ?_, fun r hr => by simpa using hmem r hr⟩
    have hundo : r ∈ undo := by
      rw [← List.count_pos_iff, hcount r (Finset.mem_union_right _ hr)]
      exact Nat.one_pos
    exact ((hmem' r hundo).resolve_left (Finset.disjoint_right.mp hmay hr)).2
  · rintro ⟨hcount, htolerates, hmem⟩ w hw
    refine (clears_iff (hw.apart hfailed)).mpr ⟨fun r hr => hcount r (hw.most hr), ?_⟩
    intro r hr
    by_cases hheld : r ∈ w.held
    · exact .inl hheld
    · refine .inr ?_
      rw [Finset.mem_union, hw.refused, Finset.mem_sdiff]
      rcases hmem r hr with hr | hr
      · have hr : r ∈ may := (Finset.mem_union.mp hr).resolve_left fun h => hheld (hw.least h)
        exact ⟨.inr ⟨hr, hheld⟩, htolerates r hr⟩
      · exact ⟨.inl hr.1, hr.2⟩

end Giving

/-! ## The constructor -/

section Building

variable {tolerates : R → Bool} {w : World R} {must may : Finset R} {steps : List (Step R)}
  {E : World R → Prop} {C : Finset R → Finset R → Prop}

/-- Without a fault, and a constructor that fails holds nothing. -/
def Builds (tolerates : R → Bool) (E : World R → Prop) (steps : List (Step R))
    (grants : ℕ → Bool) (w : World R) : Prop :=
  Meets (fun _ => False) (fun r => if r.1 then E r.2 else Nothing r.2)
    (build tolerates steps grants w)

/-- The steps take nothing twice, and nothing that is there. -/
structure Fresh (must may : Finset R) (steps : List (Step R)) : Prop where
  apart : Disjoint must may
  nodup : (takes steps).Nodup
  new : ∀ r ∈ takes steps, r ∉ must ∪ may

/-- The worlds with one more resource that must be there are those in which it was taken. -/
theorem forall_take {r : R} (hr : r ∉ must ∪ may) {P : World R → Prop} :
    (∀ w, Fits must may w → P (w.take r)) ↔ ∀ w, Fits (insert r must) may w → P w := by
  rw [Finset.mem_union, not_or] at hr
  constructor
  · intro h w hw
    have hheld : r ∈ w.held := hw.least (Finset.mem_insert_self r must)
    have htake : World.take ⟨w.held.erase r, w.refused⟩ r = w := by
      rw [World.take, Finset.insert_erase hheld]
    rw [← htake]
    refine h _ ⟨?_, ?_, ?_⟩
    · exact Finset.subset_erase.mpr ⟨(Finset.subset_insert r must).trans hw.least, hr.1⟩
    · intro x hx
      have hmem := hw.most (Finset.mem_of_mem_erase hx)
      rw [Finset.insert_union] at hmem
      exact (Finset.mem_insert.mp hmem).resolve_left (Finset.ne_of_mem_erase hx)
    · rw [hw.refused]
      grind
  · intro h w hw
    refine h _ ⟨Finset.insert_subset_insert r hw.least, ?_, ?_⟩
    · rw [Finset.insert_union]
      exact Finset.insert_subset_insert r hw.most
    · exact hw.refused.trans (Finset.sdiff_insert_of_notMem hr.2 w.held).symm

/-- The worlds with one more resource that may be there are those in which it was taken and
those in which it was refused. -/
theorem forall_may {r : R} (hr : r ∉ must ∪ may) {P : World R → Prop} :
    (∀ w, Fits must may w → P (w.take r) ∧ P (w.refuse r)) ↔
      ∀ w, Fits must (insert r may) w → P w := by
  have hunion := hr
  rw [Finset.mem_union, not_or] at hr
  constructor
  · intro h w hw
    have hmost : ∀ x ∈ w.held, x ≠ r → x ∈ must ∪ may := by
      intro x hx hne
      have hmem := hw.most hx
      rw [Finset.union_insert] at hmem
      exact (Finset.mem_insert.mp hmem).resolve_left hne
    by_cases hheld : r ∈ w.held
    · have htake : World.take ⟨w.held.erase r, w.refused⟩ r = w := by
        rw [World.take, Finset.insert_erase hheld]
      rw [← htake]
      refine (h _ ⟨Finset.subset_erase.mpr ⟨hw.least, hr.1⟩, fun x hx => ?_, ?_⟩).1
      · exact hmost x (Finset.mem_of_mem_erase hx) (Finset.ne_of_mem_erase hx)
      · rw [hw.refused]
        grind
    · have hrefused : r ∈ w.refused := by
        rw [hw.refused]
        exact Finset.mem_sdiff.mpr ⟨Finset.mem_insert_self r may, hheld⟩
      have hrefuse : World.refuse ⟨w.held, w.refused.erase r⟩ r = w := by
        rw [World.refuse, Finset.insert_erase hrefused]
      have hfits : Fits must may ⟨w.held, w.refused.erase r⟩ := by
        refine ⟨hw.least, fun x hx => hmost x hx fun heq => hheld (heq ▸ hx), ?_⟩
        rw [hw.refused]
        grind
      exact hrefuse ▸ (h _ hfits).2
  · intro h w hw
    have hheld : r ∉ w.held := fun hmem => hunion (hw.most hmem)
    refine ⟨h _ ⟨hw.least.trans (Finset.subset_insert r w.held), ?_, ?_⟩,
      h _ ⟨hw.least, ?_, ?_⟩⟩
    · rw [Finset.union_insert]
      exact Finset.insert_subset_insert r hw.most
    · refine hw.refused.trans (Eq.symm ?_)
      exact (Finset.insert_sdiff_insert may w.held r).trans
        (Finset.sdiff_insert_of_notMem hr.2 w.held)
    · rw [Finset.union_insert]
      exact hw.most.trans (Finset.subset_insert r _)
    · refine Eq.trans ?_ (Finset.insert_sdiff_of_notMem may hheld).symm
      exact congrArg (insert r) hw.refused

/-- The pattern of grants with one more in front. -/
def next (first : Bool) (grants : ℕ → Bool) : ℕ → Bool
  | 0 => first
  | i + 1 => grants i

theorem Fresh.cons {r : R} (hnodup : (r :: takes steps).Nodup)
    (hnew : ∀ x ∈ r :: takes steps, x ∉ must ∪ may) (hapart : Disjoint must may) :
    Fresh (insert r must) may steps ∧ Fresh must (insert r may) steps := by
  have hr := hnew r List.mem_cons_self
  rw [Finset.mem_union, not_or] at hr
  obtain ⟨hout, hnodup⟩ := List.nodup_cons.mp hnodup
  have hother : ∀ x ∈ takes steps, x ∉ insert r (must ∪ may) := by
    intro x hx hmem
    rcases Finset.mem_insert.mp hmem with rfl | hmem
    · exact hout hx
    · exact hnew x (List.mem_cons_of_mem _ hx) hmem
  refine ⟨⟨Finset.disjoint_insert_left.mpr ⟨hr.2, hapart⟩, hnodup, ?_⟩,
    Finset.disjoint_insert_right.mpr ⟨hr.1, hapart⟩, hnodup, ?_⟩
  · rwa [Finset.insert_union]
  · rwa [Finset.union_insert]

theorem fail_iff {undo : List R} : Meets (fun _ => False)
    (fun r => if r.1 then E r.2 else Nothing r.2) (fail tolerates w undo) ↔
      Clears tolerates w undo := by
  rw [fail, Clears]
  cases releaseAll tolerates w undo <;> rfl

/-- The constructor works out for every pattern of refusals exactly when its lists do. -/
theorem builds_iff (hends : ∀ must may, Disjoint must may →
      ((∀ w, Fits must may w → E w) ↔ C must may))
    (hfresh : Fresh must may steps) :
    (∀ grants w, Fits must may w → Builds tolerates E steps grants w) ↔
      Checks tolerates C must may steps := by
  induction steps generalizing must may with
  | nil =>
      rw [Checks, ← hends must may hfresh.apart]
      exact ⟨fun h w hw => h (fun _ => true) w hw, fun h _ w hw => h w hw⟩
  | cons st steps ih =>
      cases st with
      | sure r =>
          have hr := hfresh.new r List.mem_cons_self
          have hrest := (Fresh.cons hfresh.nodup hfresh.new hfresh.apart).1
          rw [Checks, ← ih hrest]
          exact forall_congr' fun grants => forall_take hr (P := Builds tolerates E steps grants)
      | guard undo =>
          rw [Checks, ← ih ⟨hfresh.apart, hfresh.nodup, hfresh.new⟩,
            ← returns_iff (Finset.disjoint_empty_left _) hfresh.apart]
          simp only [Finset.empty_union]
          constructor
          · intro h
            exact ⟨fun w hw => fail_iff.mp (h (next false fun _ => true) w hw),
              fun grants w hw => h (next true grants) w hw⟩
          · rintro ⟨hundo, hrest⟩ grants w hw
            rw [Builds, build]
            split
            · exact hrest _ w hw
            · exact fail_iff.mpr (hundo w hw)
      | checked r undo =>
          have hr := hfresh.new r List.mem_cons_self
          have hrest := (Fresh.cons hfresh.nodup hfresh.new hfresh.apart).1
          rw [Checks, ← ih hrest,
            ← returns_iff (Finset.disjoint_singleton_left.mpr hr) hfresh.apart]
          simp only [← Finset.insert_eq]
          constructor
          · intro h
            refine ⟨fun w hw => fail_iff.mp (h (next false fun _ => true) w hw), fun grants => ?_⟩
            exact (forall_take hr).mp fun w hw => h (next true grants) w hw
          · rintro ⟨hundo, hrest⟩ grants w hw
            rw [Builds, build]
            split
            · exact (forall_take hr).mpr (hrest _) w hw
            · exact fail_iff.mpr (hundo w hw)
      | unchecked r =>
          have hr := hfresh.new r List.mem_cons_self
          have hrest := (Fresh.cons hfresh.nodup hfresh.new hfresh.apart).2
          rw [Checks, ← ih hrest]
          constructor
          · intro h grants
            exact (forall_may hr).mp fun w hw =>
              ⟨h (next true grants) w hw, h (next false grants) w hw⟩
          · intro h grants w hw
            have hboth := (forall_may hr).mpr (h fun i => grants (i + 1)) w hw
            rw [Builds, build]
            split
            · exact hboth.1
            · exact hboth.2
      | uses r =>
          rw [Checks, ← ih ⟨hfresh.apart, hfresh.nodup, hfresh.new⟩]
          constructor
          · intro h
            have hout : r ∉ may := by
              intro hmem
              have hfault := h (fun _ => true) _ (fits_least hfresh.apart)
              rw [Builds, build, if_pos hmem] at hfault
              exact hfault
            refine ⟨hout, fun grants w hw => ?_⟩
            have hrest := h grants w hw
            rwa [Builds, build, if_neg (hw.not_refused hout)] at hrest
          · rintro ⟨hout, hrest⟩ grants w hw
            rw [Builds, build, if_neg (hw.not_refused hout)]
            exact hrest grants w hw

end Building

/-! ## Loading and unloading -/

/-- A constructor that takes nothing twice, and what is given back in the end. -/
structure Driver (R : Type*) [DecidableEq R] where
  steps : List (Step R)
  exit : List R
  nodup : (takes steps).Nodup

structure Machine (R : Type*) where
  loaded : Bool
  world : World R

inductive Event
  | load (grants : ℕ → Bool)
  | unload

inductive Stop
  | refused
  | fault

def initial : Machine R := ⟨false, ⟨∅, ∅⟩⟩

/-- Only a driver that is not loaded can be loaded, and the other way round. -/
def step (tolerates : R → Bool) (d : Driver R) (s : Machine R) : Event → Except Stop (Machine R)
  | .load grants =>
      if s.loaded then .error .refused
      else match build tolerates d.steps grants ⟨s.world.held, ∅⟩ with
        | .ok (loaded, world) => .ok ⟨loaded, world⟩
        | .error _ => .error .fault
  | .unload =>
      if s.loaded then
        match releaseAll tolerates s.world d.exit with
        | .ok world => .ok ⟨false, world⟩
        | .error _ => .error .fault
      else .error .refused

def Clean (s : Machine R) : Prop := s.loaded = false → Nothing s.world

/-- However often the driver is loaded and unloaded, and whatever is refused: no fault, and
nothing is left when it is not loaded. -/
def Balanced (tolerates : R → Bool) (d : Driver R) : Prop :=
  ∀ es, Runs.exec (step tolerates d) initial es ≠ .error .fault ∧
    Runs.Always (step tolerates d) Clean initial es

/-- Loading takes everything that is not refused, or fails and takes nothing. -/
def AllOrNothing (tolerates : R → Bool) (d : Driver R) : Prop :=
  ∀ grants, Builds tolerates (fun _ => True) d.steps grants ⟨∅, ∅⟩

section Loading

variable {tolerates : R → Bool} {d : Driver R}

theorem fits_empty {w : World R} : Fits ∅ ∅ w ↔ w = ⟨∅, ∅⟩ := by
  constructor
  · rintro ⟨-, hmost, hrefused⟩
    have hheld : w.held = ∅ := Finset.subset_empty.mp hmost
    rw [Finset.empty_sdiff] at hrefused
    cases w
    congr
  · rintro rfl
    exact ⟨subset_rfl, Finset.empty_subset _, rfl⟩

theorem Driver.fresh (d : Driver R) : Fresh ∅ ∅ d.steps :=
  ⟨disjoint_bot_left, d.nodup, fun _ _ => Finset.notMem_empty _⟩

theorem allOrNothing_iff :
    AllOrNothing tolerates d ↔ Checks tolerates (fun _ _ => True) ∅ ∅ d.steps := by
  rw [← builds_iff (fun _ _ _ => ⟨fun _ => trivial, fun _ _ _ => trivial⟩) d.fresh]
  simp only [fits_empty, forall_eq, AllOrNothing]

/-- Loading works out, and unloading after it. -/
def Cycles (tolerates : R → Bool) (d : Driver R) : Prop :=
  ∀ grants, Builds tolerates (fun w => Clears tolerates w d.exit) d.steps grants ⟨∅, ∅⟩

theorem cycles_iff : Cycles tolerates d ↔
    Checks tolerates (fun must may => Returns tolerates must may ∅ d.exit) ∅ ∅ d.steps := by
  rw [← builds_iff (E := fun w => Clears tolerates w d.exit) (fun must may hapart => ?_) d.fresh]
  · simp only [fits_empty, forall_eq, Cycles]
  · rw [← returns_iff (Finset.disjoint_empty_left _) hapart]
    simp only [Finset.empty_union]

/-- Unloaded with nothing held, or loaded with what unloading gives back. -/
def Inv (tolerates : R → Bool) (d : Driver R) (s : Machine R) : Prop :=
  if s.loaded then Clears tolerates s.world d.exit else Nothing s.world

theorem Inv.clean {s : Machine R} (hs : Inv tolerates d s) : Clean s := by
  intro hloaded
  rwa [Inv, hloaded] at hs

theorem initial_inv : Inv tolerates d initial := rfl

theorem step_meets (hcycles : Cycles tolerates d) {s : Machine R} (hs : Inv tolerates d s)
    (e : Event) : Meets (fun stop => stop ≠ .fault) (Inv tolerates d) (step tolerates d s e) := by
  cases e with
  | load grants =>
      rw [step]
      refine meets_ite (fun _ => nofun) fun hloaded => ?_
      have hnothing : s.world.held = ∅ := hs.clean (Bool.eq_false_of_not_eq_true hloaded)
      have hbuilds := hcycles grants
      rw [Builds] at hbuilds
      rw [hnothing]
      cases hrun : build tolerates d.steps grants ⟨∅, ∅⟩ with
      | error fault =>
          rw [hrun] at hbuilds
          exact hbuilds.elim
      | ok r =>
          rw [hrun] at hbuilds
          exact hbuilds
  | unload =>
      rw [step]
      refine meets_ite (fun hloaded => ?_) fun _ => nofun
      rw [Inv, if_pos hloaded, Clears] at hs
      cases hrun : releaseAll tolerates s.world d.exit with
      | error fault =>
          rw [hrun] at hs
          exact hs.elim
      | ok w =>
          rw [hrun] at hs
          exact hs

theorem Balanced.cycles (h : Balanced tolerates d) : Cycles tolerates d := by
  intro grants
  obtain ⟨hload, hloaded⟩ := h [.load grants]
  obtain ⟨hcycle, hunloaded⟩ := h [.load grants, .unload]
  rw [Builds]
  cases hbuild : build tolerates d.steps grants ⟨∅, ∅⟩ with
  | error fault => exact absurd (by simp [step, initial, hbuild, bind, Except.bind]) hload
  | ok r =>
      obtain ⟨loaded, w⟩ := r
      have hstep : step tolerates d initial (.load grants) = .ok ⟨loaded, w⟩ := by
        simp [step, initial, hbuild]
      cases loaded with
      | false => exact hloaded.2 _ hstep rfl
      | true =>
          refine show Clears tolerates w d.exit from ?_
          rw [Clears]
          cases hrelease : releaseAll tolerates w d.exit with
          | error fault =>
              refine absurd ?_ hcycle
              rw [Runs.exec_cons, hstep]
              simp [step, hrelease, bind, Except.bind]
          | ok w' =>
              refine (hunloaded.2 _ hstep).2 ⟨false, w'⟩ ?_ rfl
              simp [step, hrelease]

/-- The drivers that keep their balance are told from their lists. -/
theorem balanced_iff : Balanced tolerates d ↔
    Checks tolerates (fun must may => Returns tolerates must may ∅ d.exit) ∅ ∅ d.steps := by
  rw [← cycles_iff]
  refine ⟨Balanced.cycles, fun hcycles es => ⟨?_, ?_⟩⟩
  · refine Runs.exec_ne_error (I := Inv tolerates d) (fun s e hs heq => ?_) (fun s e s' hs h => ?_)
      initial_inv es
    · exact (step_meets hcycles hs e).of_error heq rfl
    · exact (step_meets hcycles hs e).of_ok h
  · exact Runs.always_of_inv (fun s hs => Inv.clean hs)
      (fun s e s' hs h => (step_meets hcycles hs e).of_ok h) initial_inv es

end Loading

end Unwind
