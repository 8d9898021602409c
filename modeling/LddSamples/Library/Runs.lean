import LddSamples.Library.Outcome

/-!
# Runs of a system that takes one event at a time

`step s e` is the state after event `e`, or the reason why the system cannot
go on from `s` by `e`. Everything that is said here about runs follows from
what one step preserves.
-/

namespace Runs

variable {σ ε φ : Type*} (step : σ → ε → Except φ σ)

def exec (s : σ) : List ε → Except φ σ
  | [] => .ok s
  | e :: es => do exec (← step s e) es

/-- The events of another system that stand for those of the run, in its order. -/
def expand {κ : Type*} (f : σ → ε → List κ) (s : σ) : List ε → List κ
  | [] => []
  | e :: es =>
      f s e ++ match step s e with
        | .ok s' => expand f s' es
        | .error _ => []

/-- Every event of the list meets `C` in the state in which it is taken. -/
def Along (C : σ → ε → Prop) (s : σ) : List ε → Prop
  | [] => True
  | e :: es => C s e ∧ ∀ s', step s e = .ok s' → Along C s' es

/-- Every state that the list of events passes through satisfies `P`. -/
def Always (P : σ → Prop) (s : σ) : List ε → Prop
  | [] => P s
  | e :: es => P s ∧ ∀ s', step s e = .ok s' → Always P s' es

variable {step}

@[simp] theorem exec_nil (s : σ) : exec step s [] = .ok s := rfl

@[simp] theorem exec_cons (s : σ) (e : ε) (es : List ε) :
    exec step s (e :: es) = (step s e >>= fun s' => exec step s' es) := rfl

theorem exec_append {s : σ} {es fs : List ε} :
    exec step s (es ++ fs) = (exec step s es >>= fun s' => exec step s' fs) := by
  induction es generalizing s with
  | nil => rfl
  | cons e es ih =>
      rw [List.cons_append, exec_cons, exec_cons]
      cases hstep : step s e with
      | error f => rfl
      | ok s' => exact ih

theorem exec_append_cons {s s' : σ} {e : ε} {es fs : List ε}
    (h : exec step s (es ++ e :: fs) = .ok s') :
    ∃ t t', exec step s es = .ok t ∧ step t e = .ok t' ∧ exec step t' fs = .ok s' := by
  rw [exec_append, Outcome.bind_eq_ok] at h
  obtain ⟨t, ht, h⟩ := h
  rw [exec_cons, Outcome.bind_eq_ok] at h
  obtain ⟨t', ht', h⟩ := h
  exact ⟨t, t', ht, ht', h⟩

/-- A run that leaves `J` takes an event that can leave it. -/
theorem exists_of_leaves {J : σ → Prop} {E : ε → Prop}
    (hkeep : ∀ s e s', J s → ¬ E e → step s e = .ok s' → J s') {s s' : σ} {es : List ε}
    (hs : J s) (hrun : exec step s es = .ok s') (hleft : ¬ J s') : ∃ e ∈ es, E e := by
  induction es generalizing s with
  | nil =>
      cases hrun
      exact absurd hs hleft
  | cons e es ih =>
      obtain ⟨t, ht, hrest⟩ := Outcome.bind_eq_ok.mp hrun
      by_cases he : E e
      · exact ⟨e, List.mem_cons_self, he⟩
      · obtain ⟨f, hf, hE⟩ := ih (hkeep s e t hs he ht) hrest
        exact ⟨f, List.mem_cons_of_mem _ hf, hE⟩

/-- What every admissible event keeps, a run of such events keeps. -/
theorem exec_keeps {I : σ → Prop} {A : ε → Prop}
    (hkeep : ∀ s e s', I s → A e → step s e = .ok s' → I s') {s s' : σ} {es : List ε}
    (hs : I s) (hA : ∀ e ∈ es, A e) (hrun : exec step s es = .ok s') : I s' := by
  induction es generalizing s with
  | nil =>
      cases hrun
      exact hs
  | cons e es ih =>
      obtain ⟨t, ht, hrest⟩ := Outcome.bind_eq_ok.mp hrun
      exact ih (hkeep s e t hs (hA e List.mem_cons_self) ht)
        (fun f hf => hA f (List.mem_cons_of_mem _ hf)) hrest

/-- A reason for which no step can stop under an invariant is none for which a run stops. -/
theorem exec_ne_error {I : σ → Prop} {f : φ} (hne : ∀ s e, I s → step s e ≠ .error f)
    (hkeep : ∀ s e s', I s → step s e = .ok s' → I s') {s : σ} (hs : I s) (es : List ε) :
    exec step s es ≠ .error f := by
  induction es generalizing s with
  | nil => exact nofun
  | cons e es ih =>
      rw [exec_cons]
      cases hstep : step s e with
      | error g =>
          intro heq
          cases heq
          exact hne s e hs hstep
      | ok t => exact ih (hkeep s e t hs hstep)

/-- The simulation rule: what one system does in a step, the other one does too. -/
theorem exec_simulates {τ ψ : Type*} {step' : τ → ε → Except ψ τ} {R : σ → τ → Prop}
    (hsim : ∀ s t e s', R s t → step s e = .ok s' → ∃ t', step' t e = .ok t' ∧ R s' t')
    {s s' : σ} {t : τ} {es : List ε} (hR : R s t) (hrun : exec step s es = .ok s') :
    ∃ t', exec step' t es = .ok t' ∧ R s' t' := by
  induction es generalizing s t with
  | nil =>
      cases hrun
      exact ⟨t, rfl, hR⟩
  | cons e es ih =>
      obtain ⟨u, hu, hrest⟩ := Outcome.bind_eq_ok.mp hrun
      obtain ⟨v, hv, hRv⟩ := hsim s t e u hR hu
      obtain ⟨t', ht', hlast⟩ := ih hRv hrest
      refine ⟨t', ?_, hlast⟩
      rw [exec_cons, hv]
      exact ht'

/-- The simulation rule where a step of one system is any number of steps of the other. -/
theorem exec_expands {τ κ ψ : Type*} {step' : τ → κ → Except ψ τ} {R : σ → τ → Prop}
    {f : σ → ε → List κ}
    (hsim : ∀ s t e s', R s t → step s e = .ok s' → ∃ t', exec step' t (f s e) = .ok t' ∧ R s' t')
    {s s' : σ} {t : τ} {es : List ε} (hR : R s t) (hrun : exec step s es = .ok s') :
    ∃ t', exec step' t (expand step f s es) = .ok t' ∧ R s' t' := by
  induction es generalizing s t with
  | nil =>
      cases hrun
      exact ⟨t, rfl, hR⟩
  | cons e es ih =>
      obtain ⟨u, hu, hrest⟩ := Outcome.bind_eq_ok.mp hrun
      obtain ⟨v, hv, hRv⟩ := hsim s t e u hR hu
      obtain ⟨t', ht', hlast⟩ := ih hRv hrest
      refine ⟨t', ?_, hlast⟩
      rw [expand, hu, exec_append, hv]
      exact ht'

/-- At each point of the run the other system, by the events that stand for those so far, is
in the state that the system shows. -/
def Refines {τ κ ψ : Type*} (step : σ → ε → Except φ σ) (step' : τ → κ → Except ψ τ)
    (f : σ → ε → List κ) (shown : σ → τ) (s : σ) (es : List ε) : Prop :=
  ∀ pre, pre <+: es → ∀ s', exec step s pre = .ok s' →
    exec step' (shown s) (expand step f s pre) = .ok (shown s')

theorem along_append {C : σ → ε → Prop} {s : σ} {es fs : List ε} :
    Along step C s (es ++ fs) ↔
      Along step C s es ∧ ∀ s', exec step s es = .ok s' → Along step C s' fs := by
  induction es generalizing s with
  | nil => simp [Along]
  | cons e es ih =>
      simp only [List.cons_append, Along, ih, exec_cons, Outcome.bind_eq_ok]
      constructor
      · rintro ⟨hC, hrest⟩
        refine ⟨⟨hC, fun t ht => (hrest t ht).1⟩, ?_⟩
        rintro s' ⟨t, ht, hrun⟩
        exact (hrest t ht).2 s' hrun
      · rintro ⟨⟨hC, hrest⟩, hlast⟩
        exact ⟨hC, fun t ht => ⟨hrest t ht, fun s' hrun => hlast s' ⟨t, ht, hrun⟩⟩⟩

theorem along_cons_of {C : σ → ε → Prop} {s s' : σ} {e : ε} {es : List ε}
    (h : step s e = .ok s') (hC : C s e) (hes : Along step C s' es) :
    Along step C s (e :: es) := by
  refine ⟨hC, fun t ht => ?_⟩
  rw [h] at ht
  cases ht
  exact hes

theorem Along.last {C : σ → ε → Prop} {s s' : σ} {es : List ε} {e : ε}
    (hC : Along step C s (es ++ [e])) (hrun : exec step s es = .ok s') : C s' e :=
  ((along_append.mp hC).2 s' hrun).1

theorem always_iff {P : σ → Prop} {s : σ} {es : List ε} :
    Always step P s es ↔ ∀ pre, pre <+: es → ∀ s', exec step s pre = .ok s' → P s' := by
  induction es generalizing s with
  | nil => simp [Always]
  | cons e es ih =>
      constructor
      · rintro ⟨hP, hrest⟩ pre hpre s' hrun
        cases pre with
        | nil =>
            cases hrun
            exact hP
        | cons f pre =>
            obtain ⟨rfl, htail⟩ := List.cons_prefix_cons.mp hpre
            obtain ⟨t, ht, hrun⟩ := Outcome.bind_eq_ok.mp hrun
            exact ih.mp (hrest t ht) pre htail s' hrun
      · intro h
        refine ⟨h [] List.nil_prefix s rfl, fun t ht => ih.mpr fun pre hpre s' hrun => ?_⟩
        refine h (e :: pre) (List.cons_prefix_cons.mpr ⟨rfl, hpre⟩) s' ?_
        rw [exec_cons, ht]
        exact hrun

theorem always_iff_next {P : σ → Prop} {s : σ} {es : List ε} :
    Always step P s es ↔
      P s ∧ Along step (fun s e => ∀ s', step s e = .ok s' → P s') s es := by
  induction es generalizing s with
  | nil => simp [Always, Along]
  | cons e es ih =>
      simp only [Always, Along, ih]
      constructor
      · rintro ⟨hP, hrest⟩
        exact ⟨hP, fun s' hs' => (hrest s' hs').1, fun s' hs' => (hrest s' hs').2⟩
      · rintro ⟨hP, hnext, hrest⟩
        exact ⟨hP, fun s' hs' => ⟨hnext s' hs', hrest s' hs'⟩⟩

theorem along_and {C D : σ → ε → Prop} {s : σ} {es : List ε} :
    Along step (fun s e => C s e ∧ D s e) s es ↔ Along step C s es ∧ Along step D s es := by
  induction es generalizing s with
  | nil => simp [Along]
  | cons e es ih =>
      simp only [Along, ih]
      constructor
      · rintro ⟨⟨hC, hD⟩, hrest⟩
        exact ⟨⟨hC, fun s' hs' => (hrest s' hs').1⟩, hD, fun s' hs' => (hrest s' hs').2⟩
      · rintro ⟨⟨hC, hCs⟩, hD, hDs⟩
        exact ⟨⟨hC, hD⟩, fun s' hs' => ⟨hCs s' hs', hDs s' hs'⟩⟩

/-- Under an invariant that the steps meeting `C` keep, what follows from `C` at
one step follows along the run. -/
theorem along_of_along {C Q : σ → ε → Prop} {I : σ → Prop}
    (hstep : ∀ s e, I s → C s e → Q s e)
    (hkeep : ∀ s e s', I s → C s e → step s e = .ok s' → I s')
    {s : σ} {es : List ε} (hs : I s) (hC : Along step C s es) : Along step Q s es := by
  induction es generalizing s with
  | nil => trivial
  | cons e es ih =>
      exact ⟨hstep s e hs hC.1, fun s' hs' => ih (hkeep s e s' hs hC.1 hs') (hC.2 s' hs')⟩

/-- The exactness rule. Where, under the invariant, `Q` and `C` are the same of
one step, and steps that meet `C` keep the invariant, they are the same of a run. -/
theorem along_congr {C Q : σ → ε → Prop} {I : σ → Prop}
    (hstep : ∀ s e, I s → (Q s e ↔ C s e))
    (hkeep : ∀ s e s', I s → C s e → step s e = .ok s' → I s')
    {s : σ} {es : List ε} (hs : I s) : Along step Q s es ↔ Along step C s es := by
  constructor
  · intro hQ
    induction es generalizing s with
    | nil => trivial
    | cons e es ih =>
        have hC := (hstep s e hs).mp hQ.1
        exact ⟨hC, fun s' hs' => ih (hkeep s e s' hs hC hs') (hQ.2 s' hs')⟩
  · exact along_of_along (fun s e hI => (hstep s e hI).mpr) hkeep hs

/-- The exactness rule for states: where `C` decides, step by step, whether the
next state is good, every state of a run is good exactly when every step meets
`C`. -/
theorem always_iff_along {C : σ → ε → Prop} {I P : σ → Prop}
    (hgood : ∀ s, I s → P s)
    (hkeep : ∀ s e s', I s → C s e → step s e = .ok s' → I s')
    (hbad : ∀ s e, I s → ¬ C s e → ∃ s', step s e = .ok s' ∧ ¬ P s')
    {s : σ} {es : List ε} (hs : I s) : Always step P s es ↔ Along step C s es := by
  rw [always_iff_next, and_iff_right (hgood s hs)]
  apply along_congr (fun s e hI => ?_) hkeep hs
  constructor
  · intro hnext
    by_contra hC
    obtain ⟨s', hs', hP⟩ := hbad s e hI hC
    exact hP (hnext s' hs')
  · intro hC s' hs'
    exact hgood s' (hkeep s e s' hI hC hs')

/-- A run refines another system step by step. -/
theorem refines_iff_along {τ κ ψ : Type*} {step' : τ → κ → Except ψ τ} {f : σ → ε → List κ}
    {shown : σ → τ} {s : σ} {es : List ε} :
    Refines step step' f shown s es ↔
      Along step (fun s e => ∀ s', step s e = .ok s' →
        exec step' (shown s) (f s e) = .ok (shown s')) s es := by
  constructor
  · intro h
    induction es generalizing s with
    | nil => trivial
    | cons e es ih =>
        have hfirst : ∀ s', step s e = .ok s' →
            exec step' (shown s) (f s e) = .ok (shown s') := by
          intro s' hs'
          have hone : [e] <+: e :: es := List.cons_prefix_cons.mpr ⟨rfl, List.nil_prefix⟩
          have hshown := h [e] hone s' (by rw [exec_cons, hs']; rfl)
          simpa only [expand, hs', List.append_nil] using hshown
        refine ⟨hfirst, fun s' hs' => ih fun pre hpre t ht => ?_⟩
        have hcons : e :: pre <+: e :: es := List.cons_prefix_cons.mpr ⟨rfl, hpre⟩
        have hshown := h (e :: pre) hcons t (by rw [exec_cons, hs']; exact ht)
        rwa [expand, hs', exec_append, hfirst s' hs', Outcome.ok_bind] at hshown
  · intro h pre hpre
    induction pre generalizing s es with
    | nil =>
        intro s' hs'
        cases hs'
        rfl
    | cons e pre ih =>
        intro s' hrun
        obtain ⟨es, rfl⟩ : ∃ fs, es = e :: fs := by
          obtain ⟨fs, rfl⟩ := hpre
          exact ⟨pre ++ fs, rfl⟩
        obtain ⟨t, ht, hrest⟩ := Outcome.bind_eq_ok.mp hrun
        rw [expand, ht, exec_append, h.1 t ht]
        exact ih (h.2 t ht) (List.cons_prefix_cons.mp hpre).2 s' hrest

theorem not_always_of_exec {P : σ → Prop} {s s' : σ} {es : List ε}
    (hrun : exec step s es = .ok s') (hP : ¬ P s') : ¬ Always step P s es :=
  fun h => hP (always_iff.mp h es (List.prefix_refl es) s' hrun)

/-- The invariant rule for runs whose steps all meet a condition. -/
theorem always_of_along {C : σ → ε → Prop} {I P : σ → Prop}
    (hgood : ∀ s, I s → P s)
    (hkeep : ∀ s e s', I s → C s e → step s e = .ok s' → I s')
    {s : σ} {es : List ε} (hs : I s) (hC : Along step C s es) : Always step P s es := by
  induction es generalizing s with
  | nil => exact hgood s hs
  | cons e es ih =>
      exact ⟨hgood s hs, fun s' hs' => ih (hkeep s e s' hs hC.1 hs') (hC.2 s' hs')⟩

/-- Where a step that meets `C` can be taken, a run that meets it goes through. -/
theorem exec_of_along {C : σ → ε → Prop} {I : σ → Prop}
    (hgo : ∀ s e, I s → C s e → ∃ s', step s e = .ok s')
    (hkeep : ∀ s e s', I s → C s e → step s e = .ok s' → I s')
    {s : σ} {es : List ε} (hs : I s) (hC : Along step C s es) : ∃ s', exec step s es = .ok s' := by
  induction es generalizing s with
  | nil => exact ⟨s, rfl⟩
  | cons e es ih =>
      obtain ⟨t, ht⟩ := hgo s e hs hC.1
      obtain ⟨s', hrun⟩ := ih (hkeep s e t hs hC.1 ht) (hC.2 t ht)
      refine ⟨s', ?_⟩
      rw [exec_cons, ht]
      exact hrun

theorem along_of_forall {C : σ → ε → Prop} (h : ∀ s e, C s e) (s : σ) (es : List ε) :
    Along step C s es := by
  induction es generalizing s with
  | nil => trivial
  | cons e es ih => exact ⟨h s e, fun s' _ => ih s'⟩

/-- The invariant rule for all runs. -/
theorem always_of_inv {I P : σ → Prop} (hgood : ∀ s, I s → P s)
    (hkeep : ∀ s e s', I s → step s e = .ok s' → I s') {s : σ} (hs : I s) (es : List ε) :
    Always step P s es :=
  always_of_along (C := fun _ _ => True) hgood (fun s e s' hI _ h => hkeep s e s' hI h) hs
    (along_of_forall (fun _ _ => trivial) s es)

/-- The run comes to a first step that does not meet `C`, and from there it can go on, by that
step, to a state without `P`. -/
def Breaks (step : σ → ε → Except φ σ) (C : σ → ε → Prop) (P : σ → Prop) (s : σ)
    (es : List ε) : Prop :=
  ∃ pre e t, pre ++ [e] <+: es ∧ Along step C s pre ∧ exec step s pre = .ok t ∧ ¬ C t e ∧
    ∃ fs t', exec step t (e :: fs) = .ok t' ∧ ¬ P t'

theorem exists_exec_of_not_always {P : σ → Prop} {s : σ} {es : List ε}
    (h : ¬ Always step P s es) : ∃ pre s', pre <+: es ∧ exec step s pre = .ok s' ∧ ¬ P s' := by
  rw [always_iff] at h
  push Not at h
  obtain ⟨pre, hpre, s', hrun, hP⟩ := h
  exact ⟨pre, s', hpre, hrun, hP⟩

/-- A step that makes a good state no longer good, now or later, takes the run past it. -/
theorem exists_exec_cons_of_not_always {P : σ → Prop} {s : σ} {e : ε} {fs : List ε} (hP : P s)
    (h : ¬ Always step P s (e :: fs)) :
    ∃ gs s', exec step s (e :: gs) = .ok s' ∧ ¬ P s' := by
  obtain ⟨pre, s', hpre, hrun, hbad⟩ := exists_exec_of_not_always h
  cases pre with
  | nil =>
      cases hrun
      exact absurd hP hbad
  | cons f gs =>
      obtain ⟨rfl, -⟩ := List.cons_prefix_cons.mp hpre
      exact ⟨gs, s', hrun, hbad⟩

theorem Breaks.cons {C : σ → ε → Prop} {P : σ → Prop} {s s' : σ} {e : ε} {es : List ε}
    (hC : C s e) (hs : step s e = .ok s') (h : Breaks step C P s' es) :
    Breaks step C P s (e :: es) := by
  obtain ⟨pre, f, t, hpre, halong, hrun, hf, hbad⟩ := h
  refine ⟨e :: pre, f, t, List.cons_prefix_cons.mpr ⟨rfl, hpre⟩, along_cons_of hs hC halong, ?_,
    hf, hbad⟩
  rw [exec_cons, hs]
  exact hrun

/-- A run of admissible events that does not meet `C` breaks at the first event that does
not, if from there it can go wrong. -/
theorem breaks_of_not_along {C : σ → ε → Prop} {I P : σ → Prop} {A : ε → Prop}
    (hgood : ∀ s, I s → P s)
    (hkeep : ∀ s e s', I s → A e → C s e → step s e = .ok s' → I s')
    (hbad : ∀ s e, I s → A e → ¬ C s e → ∃ fs, ¬ Always step P s (e :: fs))
    {s : σ} {es : List ε} (hs : I s) (hA : ∀ e ∈ es, A e) (hnot : ¬ Along step C s es) :
    Breaks step C P s es := by
  induction es generalizing s with
  | nil => exact absurd trivial hnot
  | cons e es ih =>
      have he : A e := hA e List.mem_cons_self
      by_cases hC : C s e
      · have hlater : ∃ s', step s e = .ok s' ∧ ¬ Along step C s' es := by
          by_contra hnone
          push Not at hnone
          exact hnot ⟨hC, hnone⟩
        obtain ⟨s', hs', hrest⟩ := hlater
        have hbreaks := ih (hkeep s e s' hs he hC hs')
          (fun f hf => hA f (List.mem_cons_of_mem e hf)) hrest
        exact hbreaks.cons hC hs'
      · obtain ⟨fs, hfs⟩ := hbad s e hs he hC
        obtain ⟨gs, t, hrun, hP⟩ := exists_exec_cons_of_not_always (hgood s hs) hfs
        exact ⟨[], e, s, List.cons_prefix_cons.mpr ⟨rfl, List.nil_prefix⟩, trivial, rfl, hC, gs, t,
          hrun, hP⟩

/-- The rule for defects that show only later: steps that meet `C` keep every state good, and
a run with a step that does not meet it breaks at the first one. -/
theorem always_or_breaks {C : σ → ε → Prop} {I P : σ → Prop}
    (hgood : ∀ s, I s → P s)
    (hkeep : ∀ s e s', I s → C s e → step s e = .ok s' → I s')
    (hbad : ∀ s e, I s → ¬ C s e → ∃ fs, ¬ Always step P s (e :: fs))
    {s : σ} (es : List ε) (hs : I s) :
    (Along step C s es → Always step P s es) ∧
      (¬ Along step C s es → Breaks step C P s es) :=
  ⟨always_of_along hgood hkeep hs,
    breaks_of_not_along (A := fun _ => True) hgood (fun s e s' hI _ => hkeep s e s' hI)
      (fun s e hI _ => hbad s e hI) hs fun _ _ => trivial⟩

end Runs
