import LddSamples.Library.Runs

/-!
# lab4_full_mouse_driver: SIGIO for the process behind `user_pid`

Every open stores its process in `user_pid`, a release kills the tasklet `usersig` and
then sets `user_pid` to 0, and `my_interrupt` schedules `usersig` while `user_pid` is not 0.
A descriptor is inherited by a child, and a file is released with its last descriptor.
-/

namespace LddSamples.Hardware.MouseSignal

/-- `TASKLET_STATE_SCHED` of `usersig`: clear, set by `tasklet_schedule`, or set by
`tasklet_kill`, which keeps it from being scheduled. -/
inductive Sched
  | clear
  | scheduled
  | killing
  deriving DecidableEq

/-- Where `mymouse_release` stands, and in which process: before it tests `user_pid`, before
and inside `tasklet_kill`, and before `user_pid = 0`. -/
inductive ReleasePc
  | idle
  | testing (p : ℕ)
  | killing (p : ℕ)
  | unlocking (p : ℕ)
  | clearing (p : ℕ)

def ReleasePc.process : ReleasePc → Option ℕ
  | .idle => none
  | .testing p => some p
  | .killing p => some p
  | .unlocking p => some p
  | .clearing p => some p

/-- What the statements look at: a run of `t_sendsig`, with its process and whether that is
alive and has the device open, and a packet, with whether a process has the device open and
whether `usersig` is scheduled. -/
inductive Report
  | signal (pid : ℕ) (alive : Bool) (holds : Bool)
  | packet (held : Bool) (scheduled : Bool)
  deriving DecidableEq

def Report.Right : Report → Prop
  | .signal _ alive holds => alive = true ∧ holds = true
  | .packet held scheduled => held = true → scheduled = true

/-- `alive` are the processes that `pid_task` finds. `holders` has a pair of file and process
for each descriptor, `opened` counts the files, and `reports` are for the statements. -/
structure State where
  userPid : ℕ
  sched : Sched
  running : Bool
  alive : List ℕ
  holders : List (ℕ × ℕ)
  opened : ℕ
  release : ℕ → ReleasePc
  reports : List Report

inductive Event
  | fork (p child : ℕ)
  | exit (p : ℕ)
  | openFile (p : ℕ)
  | close (f p : ℕ)
  | test (f : ℕ)
  | kill (f : ℕ)
  | unlock (f : ℕ)
  | clear (f : ℕ)
  | packet
  | run
  | sendSig

namespace State

/-- All processes descend from process 1. -/
def initial : State := ⟨0, .clear, false, [1], [], 0, fun _ => .idle, []⟩

def holds (s : State) (p : ℕ) : Bool := s.holders.any fun d => d.2 = p

/-- The process is inside `mymouse_release` for some file. -/
def releasing (s : State) (p : ℕ) : Bool :=
  (List.range s.opened).any fun f => (s.release f).process = some p

def inherited (holders : List (ℕ × ℕ)) (p child : ℕ) : List (ℕ × ℕ) :=
  (holders.filter fun d => d.2 = p).map fun d => (d.1, child)

/-- `tasklet_schedule`. -/
def schedule : Sched → Sched
  | .clear => .scheduled
  | sched => sched

/-- A process gives up its descriptors before it exits, and after that its number can be
given to another one. -/
def step (s : State) : Event → Except Unit State
  | .fork p child =>
      if p ∈ s.alive ∧ child ∉ s.alive ∧ child ≠ 0 then .ok { s with
        alive := child :: s.alive
        holders := inherited s.holders p child ++ s.holders }
      else .error ()
  | .exit p =>
      if p ∈ s.alive ∧ s.holds p = false ∧ s.releasing p = false then .ok { s with
        alive := s.alive.filter (· ≠ p) }
      else .error ()
  | .openFile p =>
      if p ∈ s.alive then .ok { s with
        userPid := p
        holders := (s.opened, p) :: s.holders
        opened := s.opened + 1 }
      else .error ()
  | .close f p =>
      if (f, p) ∈ s.holders then
        let rest := s.holders.erase (f, p)
        .ok { s with
          holders := rest
          release := if rest.any fun d => d.1 = f then s.release
            else Function.update s.release f (.testing p) }
      else .error ()
  | .test f =>
      match s.release f with
      | .testing p => .ok { s with
          release := Function.update s.release f (if s.userPid ≠ 0 then .killing p else .idle) }
      | _ => .error ()
  | .kill f =>
      match s.release f, s.sched with
      | .killing p, .clear => .ok { s with
          sched := .killing
          release := Function.update s.release f (.unlocking p) }
      | _, _ => .error ()
  | .unlock f =>
      match s.release f, s.running with
      | .unlocking p, false => .ok { s with
          sched := .clear
          release := Function.update s.release f (.clearing p) }
      | _, _ => .error ()
  | .clear f =>
      match s.release f with
      | .clearing _ => .ok { s with
          userPid := 0
          release := Function.update s.release f .idle }
      | _ => .error ()
  | .packet =>
      let sched := if s.userPid ≠ 0 then schedule s.sched else s.sched
      .ok { s with
        sched := sched
        reports := s.reports ++ [.packet (s.holders ≠ []) (sched = .scheduled)] }
  | .run =>
      match s.sched, s.running with
      | .scheduled, false => .ok { s with sched := .clear, running := true }
      | _, _ => .error ()
  | .sendSig =>
      if s.running then .ok { s with
        running := false
        reports := s.reports ++
          [.signal s.userPid (s.userPid ∈ s.alive) (s.holds s.userPid)] }
      else .error ()

/-- Every signal has gone to a process that was alive and had the device open, and every
packet has scheduled one while there was such a process. -/
def Right (s : State) : Prop := ∀ r ∈ s.reports, r.Right

/-- The process behind `user_pid` gives up its last descriptor only when no other process
has one; the last descriptor of all goes while `usersig` is neither scheduled nor running;
`user_pid` is cleared while no process has one; and no packet is completed between the last
close and the clearing of `user_pid`, nor inside `tasklet_kill` while there is a descriptor. -/
def Careful (s : State) : Event → Prop
  | .close f p => (f, p) ∈ s.holders →
      (s.holders.erase (f, p) ≠ [] → s.userPid = p →
        ∃ g, (g, p) ∈ s.holders.erase (f, p)) ∧
      (s.holders.erase (f, p) = [] → s.sched ≠ .scheduled ∧ s.running = false)
  | .clear f => (∃ p, s.release f = .clearing p) → s.holders = []
  | .packet => if s.holders = [] then s.userPid = 0 ∨ s.sched = .killing
      else s.sched ≠ .killing
  | _ => True

/-- While a process has the device open, that behind `user_pid` does. -/
structure Inv (s : State) : Prop where
  zero : 0 ∉ s.alive
  alive : ∀ f p, (f, p) ∈ s.holders → p ∈ s.alive
  stored : s.holders ≠ [] → ∃ f, (f, s.userPid) ∈ s.holders
  busy : s.sched = .scheduled ∨ s.running = true → s.holders ≠ []
  right : Right s

theorem initial_inv : Inv initial where
  zero := by decide
  alive _ _ := nofun
  stored h := absurd rfl h
  busy := nofun
  right _ := nofun

variable {s s' : State} {e : Event}

theorem holds_iff {p : ℕ} : s.holds p = true ↔ ∃ f, (f, p) ∈ s.holders := by
  simp [holds]

theorem right_append {r : Report} (h : Right s) (hr : r.Right) :
    ∀ r' ∈ s.reports ++ [r], r'.Right := by
  intro r' hr'
  rcases List.mem_append.mp hr' with hold | hnew
  · exact h r' hold
  · rw [List.mem_singleton.mp hnew]
    exact hr

theorem schedule_eq_scheduled {sched : Sched} : schedule sched = .scheduled ↔ sched ≠ .killing := by
  cases sched <;> simp [schedule]

theorem mem_inherited {holders : List (ℕ × ℕ)} {p child f q : ℕ}
    (h : (f, q) ∈ inherited holders p child) : q = child := by
  obtain ⟨d, -, hd⟩ := List.mem_map.mp h
  cases hd
  rfl

theorem fork_inv {p child : ℕ} (hi : Inv s) (h : step s (.fork p child) = .ok s') : Inv s' := by
  simp only [step] at h
  split at h
  case isFalse => cases h
  case isTrue hok =>
    cases h
    obtain ⟨-, -, hchild⟩ := hok
    have hholders : inherited s.holders p child ++ s.holders ≠ [] → s.holders ≠ [] := by
      intro hne hnone
      simp [hnone, inherited] at hne
    refine ⟨?_, fun f q hq => ?_, fun hne => ?_, fun hbusy => ?_, hi.right⟩
    · rw [List.mem_cons]
      rintro (hzero | hzero)
      · exact hchild hzero.symm
      · exact hi.zero hzero
    · rcases List.mem_append.mp hq with hnew | hold
      · rw [mem_inherited hnew]
        exact List.mem_cons_self
      · exact List.mem_cons_of_mem _ (hi.alive f q hold)
    · obtain ⟨f, hf⟩ := hi.stored (hholders hne)
      exact ⟨f, List.mem_append_right _ hf⟩
    · exact List.append_ne_nil_of_right_ne_nil _ (hi.busy hbusy)

theorem exit_inv {p : ℕ} (hi : Inv s) (h : step s (.exit p) = .ok s') : Inv s' := by
  simp only [step] at h
  split at h
  case isFalse => cases h
  case isTrue hok =>
    cases h
    obtain ⟨-, hnone, -⟩ := hok
    refine ⟨fun hzero => hi.zero (List.mem_of_mem_filter hzero), fun f q hq => ?_, hi.stored,
      hi.busy, hi.right⟩
    have hne : q ≠ p := by
      rintro rfl
      have hheld : s.holds q = true := holds_iff.mpr ⟨f, hq⟩
      rw [hnone] at hheld
      cases hheld
    exact List.mem_filter.mpr ⟨hi.alive f q hq, by simpa using hne⟩

theorem open_inv {p : ℕ} (hi : Inv s) (h : step s (.openFile p) = .ok s') : Inv s' := by
  simp only [step] at h
  split at h
  case isFalse => cases h
  case isTrue halive =>
    cases h
    refine ⟨hi.zero, fun f q hq => ?_, fun _ => ⟨s.opened, List.mem_cons_self⟩,
      fun _ => List.cons_ne_nil _ _, hi.right⟩
    rcases List.mem_cons.mp hq with heq | hold
    · cases heq
      exact halive
    · exact hi.alive f q hold

theorem close_inv {f p : ℕ} (hi : Inv s) (hC : Careful s (.close f p))
    (h : step s (.close f p) = .ok s') : Inv s' := by
  simp only [step] at h
  split at h
  case isFalse => cases h
  case isTrue hmem =>
    cases h
    obtain ⟨hother, hlast⟩ := hC hmem
    refine ⟨hi.zero, fun g q hq => hi.alive g q (List.mem_of_mem_erase hq), fun hne => ?_,
      fun hbusy hnone => ?_, hi.right⟩
    · by_cases hp : s.userPid = p
      · obtain ⟨g, hg⟩ := hother hne hp
        exact ⟨g, by rwa [hp]⟩
      · obtain ⟨g, hg⟩ := hi.stored (List.ne_nil_of_mem hmem)
        have hne : (g, s.userPid) ≠ (f, p) := fun heq => hp (congrArg Prod.snd heq)
        exact ⟨g, (List.mem_erase_of_ne hne).mpr hg⟩
    · obtain ⟨hsched, hrunning⟩ := hlast hnone
      rcases hbusy with hscheduled | hruns
      · exact hsched hscheduled
      · rw [hrunning] at hruns
        cases hruns

theorem packet_inv (hi : Inv s) (hC : Careful s .packet) (h : step s .packet = .ok s') :
    Inv s' := by
  cases h
  by_cases hnone : s.holders = []
  · have hidle : s.sched ≠ .scheduled := fun hscheduled => hi.busy (.inl hscheduled) hnone
    have hC : s.userPid = 0 ∨ s.sched = .killing := by simpa [Careful, hnone] using hC
    have hsame : (if s.userPid ≠ 0 then schedule s.sched else s.sched) = s.sched := by
      rcases hC with hzero | hkilling
      · simp [hzero]
      · simp [hkilling, schedule]
    refine ⟨hi.zero, hi.alive, hi.stored, fun hbusy => ?_,
      right_append hi.right fun hheld => absurd hnone (by simpa using hheld)⟩
    rw [hsame] at hbusy
    exact hi.busy hbusy
  · have hC : s.sched ≠ .killing := by simpa [Careful, hnone] using hC
    obtain ⟨f, hf⟩ := hi.stored hnone
    have hpid : s.userPid ≠ 0 := by
      intro hzero
      rw [hzero] at hf
      exact hi.zero (hi.alive f 0 hf)
    refine ⟨hi.zero, hi.alive, hi.stored, fun _ => hnone, right_append hi.right fun _ => ?_⟩
    simp [hpid, schedule_eq_scheduled, hC]

theorem sendSig_inv (hi : Inv s) (h : step s .sendSig = .ok s') : Inv s' := by
  simp only [step] at h
  split at h
  case isFalse => cases h
  case isTrue hrunning =>
    cases h
    obtain ⟨f, hf⟩ := hi.stored (hi.busy (.inr hrunning))
    refine ⟨hi.zero, hi.alive, hi.stored, fun hbusy => ?_,
      right_append hi.right ⟨by simpa using hi.alive f _ hf, holds_iff.mpr ⟨f, hf⟩⟩⟩
    rcases hbusy with hscheduled | hruns
    · exact hi.busy (.inl hscheduled)
    · cases hruns

theorem step_inv (hi : Inv s) (hC : Careful s e) (h : step s e = .ok s') : Inv s' := by
  cases e with
  | fork p child => exact fork_inv hi h
  | exit p => exact exit_inv hi h
  | openFile p => exact open_inv hi h
  | close f p => exact close_inv hi hC h
  | test f =>
      simp only [step] at h
      split at h
      · cases h
        exact ⟨hi.zero, hi.alive, hi.stored, hi.busy, hi.right⟩
      · cases h
  | kill f =>
      simp only [step] at h
      split at h
      · next hsched =>
          cases h
          refine ⟨hi.zero, hi.alive, hi.stored, fun hbusy => ?_, hi.right⟩
          rcases hbusy with hscheduled | hruns
          · cases hscheduled
          · exact hi.busy (.inr hruns)
      · cases h
  | unlock f =>
      simp only [step] at h
      split at h
      · next hrunning =>
          cases h
          refine ⟨hi.zero, hi.alive, hi.stored, fun hbusy => ?_, hi.right⟩
          rcases hbusy with hscheduled | hruns
          · cases hscheduled
          · exact hi.busy (.inr hruns)
      · cases h
  | clear f =>
      simp only [step] at h
      split at h
      · next p hclearing =>
          cases h
          exact ⟨hi.zero, hi.alive, fun hne => absurd (hC ⟨p, hclearing⟩) hne, hi.busy, hi.right⟩
      · cases h
  | packet => exact packet_inv hi hC h
  | run =>
      simp only [step] at h
      split at h
      · next hsched hrunning =>
          cases h
          exact ⟨hi.zero, hi.alive, hi.stored, fun _ => hi.busy (.inl hsched), hi.right⟩
      · cases h
  | sendSig => exact sendSig_inv hi h

/-! ## Where a run goes wrong -/

def GoesWrong (s : State) : Prop := ∃ es, ¬ Runs.Always step Right s es

theorem GoesWrong.of_step (h : step s e = .ok s') (hwrong : GoesWrong s') :
    ∃ es, ¬ Runs.Always step Right s (e :: es) := by
  obtain ⟨es, hes⟩ := hwrong
  exact ⟨es, fun halways => hes (halways.2 s' h)⟩

theorem goesWrong_of_report {r : Report} (hmem : r ∈ s.reports) (hr : ¬ r.Right) : GoesWrong s :=
  ⟨[], fun hright => hr (hright r hmem)⟩

theorem goesWrong_of_running (hrunning : s.running = true) (hstale : s.holds s.userPid = false) :
    GoesWrong s := by
  have hstep : step s .sendSig = .ok { s with
      running := false
      reports := s.reports ++
        [.signal s.userPid (s.userPid ∈ s.alive) (s.holds s.userPid)] } := if_pos hrunning
  obtain ⟨es, hes⟩ := GoesWrong.of_step hstep
    (goesWrong_of_report (List.mem_append_right _ List.mem_cons_self) fun hright => by
      rw [hright.2] at hstale
      cases hstale)
  exact ⟨_, hes⟩

/-- A run of the tasklet signals the process behind `user_pid`. -/
theorem goesWrong_of_busy (hbusy : s.sched = .scheduled ∨ s.running = true)
    (hstale : s.holds s.userPid = false) : GoesWrong s := by
  cases hrunning : s.running with
  | true => exact goesWrong_of_running hrunning hstale
  | false =>
      have hsched : s.sched = .scheduled := hbusy.resolve_right (by simp [hrunning])
      have hstep : step s .run = .ok { s with sched := .clear, running := true } := by
        simp only [step, hsched, hrunning]
      obtain ⟨es, hes⟩ := GoesWrong.of_step hstep (goesWrong_of_running rfl hstale)
      exact ⟨_, hes⟩

/-- While some process has the device open, but that behind `user_pid` does not, the next
packet schedules nothing or signals that process. -/
theorem goesWrong_of_stale (hheld : s.holders ≠ []) (hstale : s.holds s.userPid = false) :
    GoesWrong s := by
  have hstep : step s .packet = .ok { s with
      sched := if s.userPid ≠ 0 then schedule s.sched else s.sched
      reports := s.reports ++ [.packet (s.holders ≠ [])
        ((if s.userPid ≠ 0 then schedule s.sched else s.sched) = .scheduled)] } := rfl
  by_cases hscheduled : (if s.userPid ≠ 0 then schedule s.sched else s.sched) = .scheduled
  · obtain ⟨es, hes⟩ := GoesWrong.of_step hstep (goesWrong_of_busy (.inl hscheduled) hstale)
    exact ⟨_, hes⟩
  · obtain ⟨es, hes⟩ := GoesWrong.of_step hstep
      (goesWrong_of_report (List.mem_append_right _ List.mem_cons_self) fun hright =>
        hscheduled (by simpa using hright (by simpa using hheld)))
    exact ⟨_, hes⟩

theorem careless_close {f p : ℕ} (hC : ¬ Careful s (.close f p)) :
    ∃ es, ¬ Runs.Always step Right s (.close f p :: es) := by
  simp only [Careful, not_forall, not_and_or] at hC
  obtain ⟨hmem, hC⟩ := hC
  have hstep : step s (.close f p) = .ok { s with
      holders := s.holders.erase (f, p)
      release := if (s.holders.erase (f, p)).any fun d => d.1 = f then s.release
        else Function.update s.release f (.testing p) } := if_pos hmem
  apply GoesWrong.of_step hstep
  rcases hC with ⟨hheld, hp, hgone⟩ | ⟨hnone, hbusy⟩
  · refine goesWrong_of_stale hheld ?_
    rw [Bool.eq_false_iff, ne_eq, holds_iff, hp]
    exact hgone
  · have hbusy : s.sched = .scheduled ∨ s.running = true := by simpa using hbusy
    refine goesWrong_of_busy hbusy ?_
    simp [holds, hnone]

theorem careless (hi : Inv s) (hC : ¬ Careful s e) :
    ∃ es, ¬ Runs.Always step Right s (e :: es) := by
  cases e with
  | close f p => exact careless_close hC
  | clear f =>
      simp only [Careful, not_forall] at hC
      obtain ⟨⟨p, hclearing⟩, hheld⟩ := hC
      have hstep : step s (.clear f) = .ok { s with
          userPid := 0
          release := Function.update s.release f .idle } := by
        simp only [step, hclearing]
      refine GoesWrong.of_step hstep (goesWrong_of_stale hheld ?_)
      rw [Bool.eq_false_iff, ne_eq, holds_iff]
      rintro ⟨g, hg⟩
      exact hi.zero (hi.alive g 0 hg)
  | packet =>
      by_cases hnone : s.holders = []
      · have hC : s.userPid ≠ 0 ∧ s.sched ≠ .killing := by
          simpa [Careful, hnone, not_or] using hC
        refine GoesWrong.of_step rfl (goesWrong_of_busy (.inl ?_) (by simp [holds, hnone]))
        simp [hC.1, schedule_eq_scheduled, hC.2]
      · have hC : s.sched = .killing := by simpa [Careful, hnone] using hC
        refine GoesWrong.of_step rfl (goesWrong_of_report
          (List.mem_append_right _ List.mem_cons_self) fun hright => ?_)
        have hscheduled := hright (by simpa using hnone)
        simp [hC, schedule] at hscheduled
  | _ => exact absurd trivial hC

end State

end LddSamples.Hardware.MouseSignal
