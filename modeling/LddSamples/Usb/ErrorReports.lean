import LddSamples.Usb.ReadStream

/-!
# Any error is reported once

A write and a flush look at `errors` and clear it under `err_lock`. A read looks at it and
clears it in two steps, with no lock but `io_mutex`, which the completions and the writes that
come before their own `mutex_lock` do not take.
-/

namespace LddSamples.Usb

open Kernel Outcome

/-- The read has found an error, and has still to clear it. -/
def Call.Failing : Call → Prop
  | .read _ _ (.failing _) => True
  | _ => False

theorem Call.Failing.inside {call : Call} (h : call.Failing) : call.Inside := by
  cases call with
  | read file args pc =>
      cases pc with
      | failing rv => trivial
      | _ => exact absurd h id
  | _ => exact absurd h id

/-- A step that has nothing to do with `errors`. -/
structure Skel.SameErrors (k k' : Skel) : Prop where
  errors : k'.errors = k.errors
  failures : k'.failures = k.failures
  reports : k'.reports = k.reports

/-- What a step of a call does about `errors`. -/
inductive Call.Reports (k : Skel) (call : Call) : CallEvent → Skel × Call → Prop
  | same {e : CallEvent} {k' : Skel} {call' : Call} (h : k.SameErrors k')
      (hfailing : call'.Failing ↔ call.Failing) : Reports k call e (k', call')
  | look {file : ℕ} {args : ReadArgs} {rv : ℤ} (herrors : k.errors < 0)
      (hcall : call = .read file args .idle) :
      Reports k call (.read .look) (k.report, .read file args (.failing rv))
  | clear {file : ℕ} {args : ReadArgs} {rv : ℤ} (hcall : call = .read file args (.failing rv)) :
      Reports k call (.read .clear) ({ k with errors := 0 }, .read file args (.unlocking rv))
  | write {file : ℕ} {w w' : WriteCall} (herrors : k.errors < 0) (hcall : call = .write file w)
      (hpc : w.pc = .looking) :
      Reports k call (.write .look) ({ k.report with errors := 0 }, .write file w')
  | flush {file : ℕ} {res : ℤ} (herrors : k.errors ≠ 0) (hcall : call = .flush file .resolving) :
      Reports k call (.flush .resolve) ({ k.report with errors := 0 }, .flush file (.unlocking res))

theorem readStep_reports (c : ℕ) (k : Skel) (file : ℕ) (args : ReadArgs) (pc : ReadPc)
    (e : ReadEvent) :
    Yields (fun r => (Call.read file args pc).Reports k (.read e) (r.1, .read file args r.2))
      (readStep c args k pc e) := by
  have hsame : ¬ (Call.read file args pc).Failing → ∀ e : ReadEvent, ∀ k' : Skel, ∀ pc' : ReadPc,
      (k'.errors, k'.failures, k'.reports) = (k.errors, k.failures, k.reports) →
      ¬ (Call.read file args pc').Failing →
      Yields (fun r => (Call.read file args pc).Reports k (.read e) (r.1, .read file args r.2))
        (.ok (k', pc')) := by
    intro hold e k' pc' h hnew
    simp only [Prod.mk.injEq] at h
    exact .same ⟨h.1, h.2.1, h.2.2⟩ (iff_of_false hnew hold)
  unfold readStep
  split
  case h_6 =>
    exact meets_ite (fun herrors => .look herrors rfl) fun _ => hsame id _ _ _ rfl id
  case h_7 => exact .clear rfl
  all_goals try replace hsame := hsame id
  case h_1 =>
    refine meets_ite (fun _ => hsame _ _ _ rfl ?_) fun _ => trivial
    split <;> exact id
  case h_3 =>
    refine hsame _ _ _ rfl ?_
    split
    · split <;> exact id
    · exact id
  case h_8 =>
    refine meets_ite (fun _ => hsame _ _ _ rfl id) fun _ => hsame _ _ _ rfl ?_
    split <;> exact id
  case h_10 =>
    refine meets_ite (fun _ => hsame _ _ _ rfl ?_) fun _ => hsame _ _ _ rfl id
    split <;> exact id
  case h_11 =>
    refine hsame _ _ _ rfl ?_
    split <;> exact id
  all_goals first
    | trivial
    | exact hsame _ _ _ rfl id
    | exact meets_ite (fun _ => trivial) fun _ => hsame _ _ _ rfl id
    | exact meets_ite (fun _ => hsame _ _ _ rfl id) fun _ => trivial

theorem writeStep_reports (c : ℕ) (k : Skel) (file : ℕ) {w : WriteCall} {pc : WritePc}
    (hpc : w.pc = pc) (e : WriteEvent) :
    Yields (fun r => (Call.write file w).Reports k (.write e) (r.1, .write file r.2))
      (writeStep c k w pc e) := by
  have hsame : ∀ k' : Skel, ∀ w' : WriteCall,
      (k'.errors, k'.failures, k'.reports) = (k.errors, k.failures, k.reports) →
      Yields (fun r => (Call.write file w).Reports k (.write e) (r.1, .write file r.2))
        (.ok (k', w')) := by
    intro k' w' h
    simp only [Prod.mk.injEq] at h
    exact .same ⟨h.1, h.2.1, h.2.2⟩ Iff.rfl
  unfold writeStep
  split
  case h_3 => exact meets_ite (fun herrors => .write herrors rfl hpc) fun _ => hsame _ _ rfl
  all_goals first
    | trivial
    | exact hsame _ _ rfl
    | exact meets_ite (fun _ => hsame _ _ rfl) fun _ => hsame _ _ rfl
    | exact meets_ite (fun _ => hsame _ _ rfl) fun _ =>
        meets_ite (fun _ => hsame _ _ rfl) fun _ => trivial
    | exact meets_ite (fun _ => trivial) fun _ => hsame _ _ rfl
    | exact meets_ite (fun _ => meets_ite (fun _ => hsame _ _ rfl) fun _ => hsame _ _ rfl) fun _ =>
        trivial
    | exact (meets_of_ok fun _ _ => trivial).bind fun _ _ => hsame _ _ rfl

theorem flushStep_reports (c : ℕ) (k : Skel) (file : ℕ) (pc : FlushPc) (e : FlushEvent) :
    Yields (fun r => (Call.flush file pc).Reports k (.flush e) (r.1, .flush file r.2))
      (flushStep c k pc e) := by
  have hsame : ∀ e : FlushEvent, ∀ k' : Skel, ∀ pc' : FlushPc,
      (k'.errors, k'.failures, k'.reports) = (k.errors, k.failures, k.reports) →
      Yields (fun r => (Call.flush file pc).Reports k (.flush e) (r.1, .flush file r.2))
        (.ok (k', pc')) := by
    intro e k' pc' h
    simp only [Prod.mk.injEq] at h
    exact .same ⟨h.1, h.2.1, h.2.2⟩ Iff.rfl
  unfold flushStep
  split
  case h_4 => exact meets_ite (fun _ => hsame _ _ _ rfl) fun herrors => .flush herrors rfl
  all_goals first
    | trivial
    | exact hsame _ _ _ rfl
    | exact meets_ite (fun _ => hsame _ _ _ rfl) fun _ => trivial

theorem Call.step_reports (c : ℕ) (k : Skel) (call : Call) (e : CallEvent) :
    Yields (call.Reports k e) (call.step c k e) := by
  unfold Call.step
  split
  · exact (readStep_reports c k _ _ _ _).bind fun _ h => h
  · exact (writeStep_reports c k _ rfl _).bind fun _ h => h
  · exact (flushStep_reports c k _ _ _).bind fun _ h => h
  · trivial

/-! ## Failures -/

/-- A step that notes a failure, or has nothing to do with `errors`. -/
inductive Skel.Notes (k k' : Skel) : Prop
  | same (h : k.SameErrors k')
  | fails (hfailures : k'.failures = k.failures + 1) (hreports : k'.reports = k.reports)
      (herrors : k'.errors ≠ 0)

theorem hcdStep_notes (k : Skel) {w : WriteCall} (hw : w.Sound) {hcd : Hcd} (hhcd : w.hcd = hcd)
    (e : HcdEvent) : Yields (fun r => k.Notes r.1) (hcdStep k w hcd e) := by
  unfold hcdStep
  split
  · exact (meets_of_ok fun _ _ => trivial).bind fun _ _ => .same ⟨rfl, rfl, rfl⟩
  · next status => exact .fails rfl rfl (hw.failed status hhcd)
  · exact (meets_of_ok fun _ _ => trivial).bind fun _ _ => .same ⟨rfl, rfl, rfl⟩
  · exact .same ⟨rfl, rfl, rfl⟩
  · exact (meets_of_ok fun _ _ => trivial).bind fun _ _ => .same ⟨rfl, rfl, rfl⟩
  · trivial

theorem busStep_notes (k : Skel) (bus : Bus) (e : BusEvent) :
    Yields (fun r => k.Notes r.1) (busStep k bus e) := by
  have hreset : -EPIPE ≠ 0 := by decide
  unfold busStep
  split
  all_goals first
    | trivial
    | exact meets_ok (.same ⟨rfl, rfl, rfl⟩)
    | exact meets_ok (.fails rfl rfl hreset)
    | exact meets_ite (fun _ => meets_ok (.same ⟨rfl, rfl, rfl⟩)) fun _ => trivial

theorem Skel.readCallback_notes (k : Skel) (status : ℤ) (data : List UInt8) :
    k.Notes (k.readCallback status data) := by
  unfold readCallback
  split
  · exact .same ⟨rfl, rfl, rfl⟩
  · exact .fails rfl rfl ‹_›

/-! ## Runs -/

/-- The last failure, where it is still in `errors` after it was reported, was reported to a
read that has still to clear it. -/
structure Told (k : Skel) (calls : ℕ → Call) : Prop where
  nodup : k.reports.Nodup
  known : ∀ n ∈ k.reports, n ≤ k.failures
  clearing : k.errors ≠ 0 → k.failures ∈ k.reports → ∃ c, (calls c).Failing

theorem Told.notes {k k' : Skel} {calls : ℕ → Call} (h : Told k calls) (hnotes : k.Notes k') :
    Told k' calls := by
  cases hnotes with
  | same hsame =>
      obtain ⟨herrors, hfailures, hreports⟩ := hsame
      refine ⟨hreports ▸ h.nodup, ?_, ?_⟩
      · rw [hreports, hfailures]
        exact h.known
      · rw [hreports, hfailures, herrors]
        exact h.clearing
  | fails hfailures hreports herrors =>
      refine ⟨hreports ▸ h.nodup, fun n hn => ?_, fun _ hmem => ?_⟩
      · have hle := h.known n (hreports ▸ hn)
        omega
      · have hle := h.known _ (hreports ▸ hmem)
        omega

theorem Told.update {k : Skel} {calls : ℕ → Call} (h : Told k calls) {c : ℕ} {call : Call}
    (hfailing : (calls c).Failing → call.Failing) : Told k (Function.update calls c call) := by
  refine ⟨h.nodup, h.known, fun herrors hmem => ?_⟩
  obtain ⟨d, hd⟩ := h.clearing herrors hmem
  refine ⟨d, ?_⟩
  by_cases heq : d = c
  · subst heq
    rw [Function.update_self]
    exact hfailing hd
  · rwa [Function.update_of_ne heq]

/-- Where the last failure has not been reported yet, it can be. -/
theorem Told.report {k : Skel} {calls : ℕ → Call} (h : Told k calls)
    (hnew : k.failures ∉ k.reports) :
    k.report.reports.Nodup ∧ ∀ n ∈ k.report.reports, n ≤ k.failures := by
  refine ⟨h.nodup.append (List.nodup_singleton _) ?_, fun n hn => ?_⟩
  · simpa using hnew
  · rcases List.mem_append.mp hn with hn | hn
    · exact h.known n hn
    · exact (List.mem_singleton.mp hn).le

/-- A write takes an error for its own that a read has taken, and has still to clear. -/
def TakesAgain (s : World) (e : Event) : Prop :=
  ∃ c f w, e = .inCall c (.write .look) ∧ s.calls c = .write f w ∧ w.pc = .looking ∧
    s.skel.errors < 0 ∧ s.skel.failures ∈ s.skel.reports ∧ ∃ d, (s.calls d).Failing

theorem Told.inCall {s : World} (h : Told s.skel s.calls) (hs : s.Inv) {c : ℕ} {e : CallEvent}
    {k : Skel} {call : Call} (hC : ¬ TakesAgain s (.inCall c e))
    (hstep : (s.calls c).step c s.skel e = .ok (k, call)) :
    Told k (Function.update s.calls c call) := by
  have hreports : (s.calls c).Reports s.skel e (k, call) :=
    (Call.step_reports c s.skel (s.calls c) e).of_ok hstep
  -- who is inside has nobody that clears an error beside it
  have hnew : (s.calls c).Inside → ¬ (s.calls c).Failing → s.skel.errors ≠ 0 →
      s.skel.failures ∉ s.skel.reports := by
    intro hinside hnot herrors hmem
    obtain ⟨d, hd⟩ := h.clearing herrors hmem
    have hne : d ≠ c := fun heq => hnot (heq ▸ hd)
    exact hs.quiet.alone c hinside d hne hd.inside
  cases hreports with
  | same hsame hfailing => exact (h.update hfailing.mpr).notes (.same hsame)
  | @look file args rv herrors hcall =>
      obtain ⟨hnodup, hknown⟩ := h.report (hnew (hcall ▸ trivial) (hcall ▸ id) herrors.ne)
      refine ⟨hnodup, hknown, fun _ _ => ⟨c, ?_⟩⟩
      rw [Function.update_self]
      trivial
  | clear hcall => exact ⟨h.nodup, h.known, fun herrors => absurd rfl herrors⟩
  | @write file w w' herrors hcall hpc =>
      have hmem : s.skel.failures ∉ s.skel.reports := fun hmem =>
        hC ⟨c, file, w, rfl, hcall, hpc, herrors, hmem, h.clearing herrors.ne hmem⟩
      obtain ⟨hnodup, hknown⟩ := h.report hmem
      exact ⟨hnodup, hknown, fun herrors => absurd rfl herrors⟩
  | flush herrors hcall =>
      obtain ⟨hnodup, hknown⟩ := h.report (hnew (hcall ▸ trivial) (hcall ▸ id) herrors)
      exact ⟨hnodup, hknown, fun herrors => absurd rfl herrors⟩

theorem World.Does.told {s s' : World} {e : Event} (hdoes : s.Does e s') (hs : s.Inv)
    (h : Told s.skel s.calls) (hC : ¬ TakesAgain s e) : Told s'.skel s'.calls := by
  cases hdoes with
  | @enter _ c f call hbegins habsent hfd =>
      refine h.update fun hfailing => ?_
      rw [habsent] at hfailing
      exact absurd hfailing id
  | inCall hstep => exact h.inCall hs hC hstep
  | @hcd c f e k w w' hcall hstep =>
      have hw : (Call.write f w).Sound := hcall ▸ hs.held.sound c
      have hnotes : s.skel.Notes k := (hcdStep_notes s.skel hw rfl e).of_ok hstep
      refine (h.update fun hfailing => ?_).notes hnotes
      rw [hcall] at hfailing
      exact absurd hfailing id
  | @finish c f call hfinish =>
      refine h.update fun hfailing => ?_
      exact absurd hfailing.inside (Call.finish_ends hfinish).before.inside
  | completeRead hflight hlength => exact h.notes (s.skel.readCallback_notes _ _)
  | wakeReaders hcallbacks => exact h.notes (.same ⟨rfl, rfl, rfl⟩)
  | inBus hstep => exact h.notes ((busStep_notes s.skel s.bus _).of_ok hstep)
  | openGet hfile => exact h.notes (.same ⟨rfl, rfl, rfl⟩)
  | release hfile hfd husers => exact h.notes (.same ⟨rfl, rfl, rfl⟩)
  | putInterface hbus => exact h.notes (.same ⟨rfl, rfl, rfl⟩)
  | _ => exact h

/-- Each failure is reported at most once, in every state of a run, exactly when no write takes
an error that a read has taken, and has still to clear. -/
theorem reported_once_iff (maxPacketSize : BitVec 16) (content : ℕ → UInt8) (es : List Event) :
    Runs.Always World.step (fun s => s.skel.reports.Nodup) (.initial maxPacketSize content) es ↔
      Runs.Along World.step (fun s e => ¬ TakesAgain s e) (.initial maxPacketSize content) es := by
  have hinit := World.initial_inv maxPacketSize content
  have htold : Told (World.initial maxPacketSize content).skel
      (World.initial maxPacketSize content).calls :=
    ⟨List.nodup_nil, nofun, fun h => absurd rfl h⟩
  refine Runs.always_iff_along
    (fun (s : World) (hs : s.Inv ∧ Told s.skel s.calls) => hs.2.nodup)
    (fun s e s' ⟨hs, htold⟩ hC hstep => ?_) (fun s e ⟨hs, htold⟩ hC => ?_) ⟨hinit, htold⟩
  · exact ⟨hs.step hstep, ((World.step_does hs e).of_ok hstep).told hs htold hC⟩
  · obtain ⟨c, f, w, rfl, hcall, hpc, herrors, hmem, -⟩ := not_not.mp hC
    have hmove : s.move (.inCall c (.write .look)) = .ok
        { s.setCall c (.write f { w with pc := .upping (Skel.errorOf s.skel.errors) }) with
          skel := { s.skel.report with errors := 0 } } := by
      simp [World.move, hcall, Call.step, writeStep, hpc, herrors]
    refine ⟨_, hs.step_of_move hmove, fun hnodup => ?_⟩
    exact (List.nodup_append.mp hnodup).2.2 _ hmem _ (List.mem_singleton_self _) rfl

/-- A write fails, a read takes the error, and another write takes it again. -/
example : ((Runs.exec World.step (.initial 64 fun _ => 0)
    ([.openFind 0, .openGet 0, .write 0 0 [7] false, .read 1 0 4 false, .write 2 0 [8] false] ++
      [.down, .look, .allocUrb true, .allocBuffer true, .copy true, .lock, .anchor, .submit 0,
        .unlock].map (fun e => .inCall 0 (.write e)) ++
      [.hcd 0 (.giveback (-71)), .hcd 0 .note] ++
      [.lock, .sample, .look].map (fun e => .inCall 1 (.read e)) ++
      [.down, .look].map (fun e => .inCall 2 (.write e)))).map
        fun s => s.skel.reports).toOption = some [1, 1] := by
  rfl

/-! ## Failures that go unreported -/

structure Kept (k : Skel) (calls : ℕ → Call) : Prop where
  kept : k.errors = 0 → k.failures = 0 ∨ k.failures ∈ k.reports
  errors : k.errors ≠ 0 → k.failures ≠ 0
  failing : ∀ c, (calls c).Failing → k.failures ≠ 0

/-- A read clears an error other than the one it took. -/
def Forgets (s : World) (e : Event) : Prop :=
  ∃ c f args rv, e = .inCall c (.read .clear) ∧ s.calls c = .read f args (.failing rv) ∧
    s.skel.failures ∉ s.skel.reports

theorem Kept.notes {k k' : Skel} {calls : ℕ → Call} (h : Kept k calls) (hnotes : k.Notes k') :
    Kept k' calls := by
  cases hnotes with
  | same hsame =>
      obtain ⟨herrors, hfailures, hreports⟩ := hsame
      refine ⟨?_, ?_, ?_⟩
      · rw [herrors, hfailures, hreports]
        exact h.kept
      · rw [herrors, hfailures]
        exact h.errors
      · rw [hfailures]
        exact h.failing
  | fails hfailures hreports herrors =>
      have hne : k'.failures ≠ 0 := hfailures ▸ Nat.succ_ne_zero _
      exact ⟨fun h => absurd h herrors, fun _ => hne, fun _ _ => hne⟩

theorem Kept.update {k : Skel} {calls : ℕ → Call} (h : Kept k calls) {c : ℕ} {call : Call}
    (hfailing : call.Failing → k.failures ≠ 0) : Kept k (Function.update calls c call) := by
  refine ⟨h.kept, h.errors, fun d hd => ?_⟩
  by_cases heq : d = c
  · rw [heq, Function.update_self] at hd
    exact hfailing hd
  · rw [Function.update_of_ne heq] at hd
    exact h.failing d hd

/-- Who takes an error that is there takes the last failure. -/
theorem Kept.report {k : Skel} {calls : ℕ → Call} (h : Kept k calls) (herrors : k.errors ≠ 0) :
    Kept { k.report with errors := 0 } calls :=
  ⟨fun _ => .inr (List.mem_append_right _ (List.mem_singleton_self _)), fun h => absurd rfl h,
    fun _ _ => h.errors herrors⟩

theorem Kept.inCall {s : World} (h : Kept s.skel s.calls) {c : ℕ} {e : CallEvent}
    {k : Skel} {call : Call} (hC : ¬ Forgets s (.inCall c e))
    (hstep : (s.calls c).step c s.skel e = .ok (k, call)) :
    Kept k (Function.update s.calls c call) := by
  have hreports : (s.calls c).Reports s.skel e (k, call) :=
    (Call.step_reports c s.skel (s.calls c) e).of_ok hstep
  cases hreports with
  | same hsame hfailing =>
      exact (h.update fun hcall => h.failing c (hfailing.mp hcall)).notes (.same hsame)
  | look herrors hcall =>
      have hnext : Kept s.skel.report s.calls := ⟨fun h => absurd h herrors.ne, h.errors, h.failing⟩
      exact hnext.update fun _ => h.errors herrors.ne
  | @clear file args rv hcall =>
      have hmem : s.skel.failures ∈ s.skel.reports :=
        by_contra fun hmem => hC ⟨c, file, args, rv, rfl, hcall, hmem⟩
      have hnext : Kept { s.skel with errors := 0 } s.calls :=
        ⟨fun _ => .inr hmem, fun h => absurd rfl h, h.failing⟩
      exact hnext.update False.elim
  | write herrors hcall hpc => exact (h.report herrors.ne).update False.elim
  | flush herrors hcall => exact (h.report herrors).update False.elim

theorem World.Does.kept {s s' : World} {e : Event} (hdoes : s.Does e s') (hs : s.Inv)
    (h : Kept s.skel s.calls) (hC : ¬ Forgets s e) : Kept s'.skel s'.calls := by
  cases hdoes with
  | enter hbegins habsent hfd =>
      exact h.update fun hfailing => absurd hfailing.inside hbegins.fresh.inside
  | inCall hstep => exact h.inCall hC hstep
  | @hcd c f e k w w' hcall hstep =>
      have hw : (Call.write f w).Sound := hcall ▸ hs.held.sound c
      have hnotes : s.skel.Notes k := (hcdStep_notes s.skel hw rfl e).of_ok hstep
      have hnext : Kept s.skel (Function.update s.calls c (.write f w')) := h.update nofun
      exact hnext.notes hnotes
  | finish hfinish =>
      exact h.update fun hfailing => absurd hfailing.inside (Call.finish_ends hfinish).after.inside
  | completeRead hflight hlength => exact h.notes (s.skel.readCallback_notes _ _)
  | wakeReaders hcallbacks => exact h.notes (.same ⟨rfl, rfl, rfl⟩)
  | inBus hstep => exact h.notes ((busStep_notes s.skel s.bus _).of_ok hstep)
  | openGet hfile => exact h.notes (.same ⟨rfl, rfl, rfl⟩)
  | release hfile hfd husers => exact h.notes (.same ⟨rfl, rfl, rfl⟩)
  | putInterface hbus => exact h.notes (.same ⟨rfl, rfl, rfl⟩)
  | _ => exact h

/-- Wherever no error is there, the last failure was reported, in every state of a run, exactly
when no read clears an error that came behind the one it took. -/
theorem last_failure_reported_iff (maxPacketSize : BitVec 16) (content : ℕ → UInt8)
    (es : List Event) :
    Runs.Always World.step
        (fun s => s.skel.errors = 0 → s.skel.failures = 0 ∨ s.skel.failures ∈ s.skel.reports)
        (.initial maxPacketSize content) es ↔
      Runs.Along World.step (fun s e => ¬ Forgets s e) (.initial maxPacketSize content) es := by
  have hinit := World.initial_inv maxPacketSize content
  have hkept : Kept (World.initial maxPacketSize content).skel
      (World.initial maxPacketSize content).calls :=
    ⟨fun _ => .inl rfl, fun h => absurd rfl h, fun _ => nofun⟩
  refine Runs.always_iff_along
    (fun (s : World) (hs : s.Inv ∧ Kept s.skel s.calls) => hs.2.kept)
    (fun s e s' ⟨hs, hkept⟩ hC hstep => ?_) (fun s e ⟨hs, hkept⟩ hC => ?_) ⟨hinit, hkept⟩
  · exact ⟨hs.step hstep, ((World.step_does hs e).of_ok hstep).kept hs hkept hC⟩
  · obtain ⟨c, f, args, rv, rfl, hcall, hmem⟩ := not_not.mp hC
    have hmove : s.move (.inCall c (.read .clear)) = .ok
        { s.setCall c (.read f args (.unlocking rv)) with
          skel := { s.skel with errors := 0 } } := by
      simp [World.move, hcall, Call.step, readStep]
    have hfailing : (s.calls c).Failing := hcall ▸ trivial
    refine ⟨_, hs.step_of_move hmove, fun hkept' => ?_⟩
    exact (hkept' rfl).elim (hkept.failing c hfailing) hmem

end LddSamples.Usb
