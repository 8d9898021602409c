import LddSamples.Kernel.Process
import LddSamples.Library.Runs

/-!
# A thread that reads wake up and the exit of the module ends

`wait_function` waits, returns if the flag says that the module exits, reports a read
otherwise, and clears the flag. It waits on the flag itself (wat_queu_stat, wait_queue_dyn)
or on a completion (completion_static, completion_dyn). A flag that is set between the test
and the clearing is wiped out.
-/

namespace LddSamples.Misc.WaitThread

open Kernel Outcome

/-- What the thread waits on. -/
inductive Mechanism
  | queue
  | completion
  deriving DecidableEq

/-- Where `wait_function` stands: at its wait, asleep in it, past it, past the test of the
flag, past the message, or at its end. -/
inductive ThreadPc
  | waiting
  | asleep
  | passed
  | tested
  | printed
  | returned
  deriving DecidableEq

def ThreadPc.wake : ThreadPc → ThreadPc
  | .asleep => .waiting
  | pc => pc

/-- Where `etx_read` stands: it has set the flag, or has also seen that the completion is not
done. `before` is how many reads had been reported when the flag was set; no step depends on
it. -/
inductive ReadPc
  | out
  | stored (before : ℕ)
  | completing (before : ℕ)

def ReadPc.before : ReadPc → Option ℕ
  | .out => none
  | .stored before => some before
  | .completing before => some before

/-- Where `etx_driver_exit` stands. -/
inductive ExitPc
  | loaded
  | stored
  | completing
  | done
  deriving DecidableEq

/-- `refs` are the references to the module, one for each read, and `reports` the messages
"Event Came From Read Function". `returned` has `before` of each read that has returned. -/
structure World (ι : Type) where
  flag : ℤ
  count : ℕ
  thread : ThreadPc
  pc : ι → ReadPc
  refs : ℕ
  exit : ExitPc
  reports : ℕ
  returned : List ℕ

inductive Event (ι : Type)
  | store (p : ι)
  | wake (p : ι)
  | complete (p : ι)
  | exitStore
  | exitWake
  | exitComplete
  | wait
  | test
  | print
  | clear

namespace World

variable {ι : Type}

def initial : World ι := ⟨0, 0, .waiting, fun _ => .out, 0, .loaded, 0, []⟩

/-- A wait that begins now would not sleep. -/
def Ready (m : Mechanism) (w : World ι) : Prop :=
  match m with
  | .queue => w.flag ≠ 0
  | .completion => 0 < w.count

instance (m : Mechanism) (w : World ι) : Decidable (w.Ready m) := by
  cases m
  · exact inferInstanceAs (Decidable (_ ≠ _))
  · exact inferInstanceAs (Decidable (_ < _))

variable [DecidableEq ι]

def leave (w : World ι) (p : ι) (before : ℕ) : World ι :=
  { w with
    pc := Function.update w.pc p .out
    refs := w.refs - 1
    returned := w.returned ++ [before] }

/-- A module with references is not unloaded, and one that exits gets no more of them. -/
def step (m : Mechanism) (w : World ι) : Event ι → Except Stop (World ι)
  | .store p =>
      match w.pc p, w.exit with
      | .out, .loaded => .ok { w with
          flag := 1
          pc := Function.update w.pc p (.stored w.reports)
          refs := w.refs + 1 }
      | _, _ => .error .disabled
  | .wake p =>
      match w.pc p with
      | .stored before =>
          match m with
          | .queue => .ok { w.leave p before with thread := w.thread.wake }
          | .completion =>
              if w.count ≠ 0 then .ok (w.leave p before)
              else .ok { w with pc := Function.update w.pc p (.completing before) }
      | _ => .error .disabled
  | .complete p =>
      match w.pc p with
      | .completing before =>
          .ok { w.leave p before with count := w.count + 1, thread := w.thread.wake }
      | _ => .error .disabled
  | .exitStore =>
      match w.exit, w.refs with
      | .loaded, 0 => .ok { w with flag := 2, exit := .stored }
      | _, _ => .error .disabled
  | .exitWake =>
      match w.exit with
      | .stored =>
          match m with
          | .queue => .ok { w with thread := w.thread.wake, exit := .done }
          | .completion =>
              if w.count ≠ 0 then .ok { w with exit := .done }
              else .ok { w with exit := .completing }
      | _ => .error .disabled
  | .exitComplete =>
      match w.exit with
      | .completing =>
          .ok { w with count := w.count + 1, thread := w.thread.wake, exit := .done }
      | _ => .error .disabled
  | .wait =>
      match w.thread with
      | .waiting =>
          if w.Ready m then
            match m with
            | .queue => .ok { w with thread := .passed }
            | .completion => .ok { w with thread := .passed, count := w.count - 1 }
          else .ok { w with thread := .asleep }
      | _ => .error .disabled
  | .test =>
      match w.thread with
      | .passed => .ok { w with thread := if w.flag = 2 then .returned else .tested }
      | _ => .error .disabled
  | .print =>
      match w.thread with
      | .tested => .ok { w with thread := .printed, reports := w.reports + 1 }
      | _ => .error .disabled
  | .clear =>
      match w.thread with
      | .printed => .ok { w with thread := .waiting, flag := 0 }
      | _ => .error .disabled

/-- When the thread is asleep, it has reported a read after each flag that was set by a read
that has returned, and the exit has not gone by. -/
def Right (w : World ι) : Prop :=
  w.thread = .asleep → (∀ before ∈ w.returned, before < w.reports) ∧ w.exit ≠ .done

/-- The exit does not set the flag between the thread's test and its clearing, nor does a read
between the message and the clearing, if the thread waits on the flag. -/
def Timely (m : Mechanism) (w : World ι) : Event ι → Prop
  | .store p => m = .queue → w.pc p = .out → w.exit = .loaded → w.thread ≠ .printed
  | .exitStore => w.exit = .loaded → w.refs = 0 → w.thread ≠ .tested ∧ w.thread ≠ .printed
  | _ => True

/-! ## What is owed is coming -/

/-- The thread will report a read, or return, before it sleeps. -/
def Coming (m : Mechanism) (w : World ι) : Prop :=
  match w.thread with
  | .waiting => w.Ready m
  | .asleep => False
  | .printed => m = .completion ∧ 0 < w.count
  | _ => True

structure Inv (m : Mechanism) (w : World ι) : Prop where
  asleep : m = .completion → w.thread = .asleep → w.count = 0
  returned : ∀ before ∈ w.returned,
    before ≤ w.reports ∧ (before = w.reports → w.Coming m)
  inside : ∀ p before, (w.pc p).before = some before →
    before ≤ w.reports ∧ (m = .queue → before = w.reports →
      w.Coming m ∨ w.thread = .asleep ∧ w.flag ≠ 0)
  stopping : w.exit ≠ .loaded →
    w.thread = .returned ∨ w.flag = 2 ∧ (w.thread = .waiting ∨ w.thread = .asleep ∨
      w.thread = .passed)
  done : w.exit = .done → w.Coming m

variable {m : Mechanism} {w w' : World ι} {e : Event ι}

omit [DecidableEq ι] in
theorem initial_inv : Inv m (initial : World ι) where
  asleep _ h := by cases h
  returned _ h := absurd h List.not_mem_nil
  inside _ _ h := by cases h
  stopping h := absurd rfl h
  done h := by cases h

omit [DecidableEq ι] in
theorem not_coming_asleep (h : w.thread = .asleep) : ¬ w.Coming m := by
  simp [Coming, h]

omit [DecidableEq ι] in
theorem Inv.right (h : Inv m w) : Right w := by
  intro hasleep
  have hnot := not_coming_asleep (m := m) hasleep
  refine ⟨fun before hmem => ?_, fun hdone => hnot (h.done hdone)⟩
  obtain ⟨hle, hcoming⟩ := h.returned before hmem
  exact hle.lt_of_ne fun heq => hnot (hcoming heq)

/-- The move of a read that sets nothing. -/
theorem Inv.leave (h : Inv m w) {p : ι} {before : ℕ} (hp : (w.pc p).before = some before)
    (hcoming : before = w.reports → w.Coming m) : Inv m (w.leave p before) where
  asleep := h.asleep
  returned b hb := by
    rcases List.mem_append.mp hb with hb | hb
    · exact h.returned b hb
    · rw [List.mem_singleton.mp hb]
      exact ⟨(h.inside p before hp).1, hcoming⟩
  inside q b hq := by
    by_cases hqp : q = p
    · simp [World.leave, hqp, ReadPc.before] at hq
    · simp only [World.leave, Function.update_of_ne hqp] at hq
      exact h.inside q b hq
  stopping := h.stopping
  done := h.done

theorem store_inv (h : Inv m w) {p : ι} (hloaded : w.exit = .loaded)
    (htimely : m = .queue → w.thread ≠ .printed) :
    Inv m { w with
      flag := 1
      pc := Function.update w.pc p (.stored w.reports)
      refs := w.refs + 1 } := by
  have hcoming : w.Coming m → Coming m { w with
      flag := 1
      pc := Function.update w.pc p (.stored w.reports)
      refs := w.refs + 1 } := by
    cases hthread : w.thread <;> cases m <;> simp [Coming, Ready, hthread]
  constructor
  · exact h.asleep
  · intro b hb
    exact ⟨(h.returned b hb).1, fun heq => hcoming ((h.returned b hb).2 heq)⟩
  · intro q b hq
    by_cases hqp : q = p
    · simp only [hqp, Function.update_self, ReadPc.before, Option.some.injEq] at hq
      subst hq
      refine ⟨le_rfl, fun hqueue _ => ?_⟩
      have hprinted := htimely hqueue
      subst hqueue
      cases hthread : w.thread <;> simp_all [Coming, Ready]
    · simp only [Function.update_of_ne hqp] at hq
      obtain ⟨hle, hcase⟩ := h.inside q b hq
      refine ⟨hle, fun hqueue heq => ?_⟩
      rcases hcase hqueue heq with hold | ⟨hasleep, -⟩
      · exact .inl (hcoming hold)
      · exact .inr ⟨hasleep, one_ne_zero⟩
  · exact fun hexit => absurd hloaded hexit
  · exact fun hdone => absurd (hloaded.symm.trans hdone) (by decide)

omit [DecidableEq ι] in
theorem wake_ne_asleep (pc : ThreadPc) : pc.wake ≠ .asleep := by
  cases pc <;> simp [ThreadPc.wake]

omit [DecidableEq ι] in
/-- A completion that has been completed makes the thread come. -/
theorem coming_of_awake (hcount : 0 < w.count) (hawake : w.thread ≠ .asleep)
    (hm : m = .completion) : w.Coming m := by
  subst hm
  cases hthread : w.thread <;> simp_all [Coming, Ready]

omit [DecidableEq ι] in
/-- The thread is woken, and a completion is completed before. -/
theorem Inv.wakes (h : Inv m w) {count : ℕ} (hcount : m = .completion → 0 < count) :
    Inv m { w with count := count, thread := w.thread.wake } := by
  have hcoming : w.Coming m → Coming m { w with count := count, thread := w.thread.wake } := by
    cases m with
    | queue => cases hthread : w.thread <;> simp [Coming, Ready, hthread, ThreadPc.wake]
    | completion =>
        intro _
        exact coming_of_awake (hcount rfl) (wake_ne_asleep _) rfl
  have hstopping : w.exit ≠ .loaded → w.thread.wake = .returned ∨ w.flag = 2 ∧
      (w.thread.wake = .waiting ∨ w.thread.wake = .asleep ∨ w.thread.wake = .passed) := by
    intro hexit
    rcases h.stopping hexit with hthread | ⟨hflag, hthread | hthread | hthread⟩ <;>
      simp_all [ThreadPc.wake]
  constructor
  · intro _ hasleep
    exact absurd hasleep (wake_ne_asleep _)
  · intro b hb
    exact ⟨(h.returned b hb).1, fun heq => hcoming ((h.returned b hb).2 heq)⟩
  · intro p b hp
    obtain ⟨hle, hcase⟩ := h.inside p b hp
    refine ⟨hle, fun hqueue heq => .inl ?_⟩
    rcases hcase hqueue heq with hold | ⟨hasleep, hflag⟩
    · exact hcoming hold
    · subst hqueue
      simpa [Coming, Ready, hasleep, ThreadPc.wake] using hflag
  · exact hstopping
  · exact fun hdone => hcoming (h.done hdone)

omit [DecidableEq ι] in
/-- Once the exit has set the flag, a thread that is awake will see it. -/
theorem Inv.coming_of_stopping (h : Inv m w) (hexit : w.exit ≠ .loaded)
    (hawake : w.thread ≠ .asleep) (hcount : m = .completion → 0 < w.count) : w.Coming m := by
  rcases h.stopping hexit with hthread | ⟨hflag, hthread | hthread | hthread⟩
  · simp [Coming, hthread]
  · cases m with
    | queue => simp [Coming, Ready, hthread, hflag]
    | completion => exact coming_of_awake (hcount rfl) hawake rfl
  · exact absurd hthread hawake
  · simp [Coming, hthread]

omit [DecidableEq ι] in
theorem exitStore_inv (h : Inv m w)
    (htimely : w.thread ≠ .tested ∧ w.thread ≠ .printed) :
    Inv m { w with flag := 2, exit := .stored } := by
  have hcoming : w.Coming m → Coming m { w with flag := 2, exit := .stored } := by
    cases hthread : w.thread <;> cases m <;> simp [Coming, Ready, hthread]
  constructor
  · exact h.asleep
  · intro b hb
    exact ⟨(h.returned b hb).1, fun heq => hcoming ((h.returned b hb).2 heq)⟩
  · intro p b hp
    obtain ⟨hle, hcase⟩ := h.inside p b hp
    refine ⟨hle, fun hqueue heq => ?_⟩
    rcases hcase hqueue heq with hold | ⟨hasleep, -⟩
    · exact .inl (hcoming hold)
    · exact .inr ⟨hasleep, two_ne_zero⟩
  · intro _
    cases hthread : w.thread <;> simp_all
  · exact nofun

omit [DecidableEq ι] in
/-- The exit goes on, and after its last step the thread is on its way. -/
theorem Inv.exits (h : Inv m w) {exit : ExitPc} (hexit : w.exit ≠ .loaded)
    (hdone : exit = .done → w.Coming m) : Inv m { w with exit := exit } where
  asleep := h.asleep
  returned := h.returned
  inside := h.inside
  stopping _ := h.stopping hexit
  done := hdone

omit [DecidableEq ι] in
theorem wait_inv (h : Inv m w) (hthread : w.thread = .waiting) (count : ℕ) :
    Inv m { w with thread := .passed, count := count } where
  asleep _ hasleep := by cases hasleep
  returned b hb := ⟨(h.returned b hb).1, fun _ => trivial⟩
  inside p b hp := ⟨(h.inside p b hp).1, fun _ _ => .inl trivial⟩
  stopping hexit := by
    rcases h.stopping hexit with hreturned | ⟨hflag, -⟩
    · rw [hthread] at hreturned
      cases hreturned
    · exact .inr ⟨hflag, .inr (.inr rfl)⟩
  done _ := trivial

omit [DecidableEq ι] in
theorem sleep_inv (h : Inv m w) (hthread : w.thread = .waiting) (hready : ¬ w.Ready m) :
    Inv m { w with thread := .asleep } := by
  have hnot : ¬ w.Coming m := by simpa [Coming, hthread] using hready
  constructor
  · rintro rfl -
    exact Nat.eq_zero_of_not_pos hready
  · intro b hb
    exact ⟨(h.returned b hb).1, fun heq => absurd ((h.returned b hb).2 heq) hnot⟩
  · intro p b hp
    obtain ⟨hle, hcase⟩ := h.inside p b hp
    refine ⟨hle, fun hqueue heq => ?_⟩
    rcases hcase hqueue heq with hold | ⟨hasleep, -⟩
    · exact absurd hold hnot
    · rw [hthread] at hasleep
      cases hasleep
  · intro hexit
    rcases h.stopping hexit with hreturned | ⟨hflag, -⟩
    · rw [hthread] at hreturned
      cases hreturned
    · exact .inr ⟨hflag, .inr (.inl rfl)⟩
  · exact fun hdone => absurd (h.done hdone) hnot

omit [DecidableEq ι] in
theorem test_inv (h : Inv m w) (hthread : w.thread = .passed) :
    Inv m { w with thread := if w.flag = 2 then .returned else .tested } := by
  have hcoming : Coming m { w with thread := if w.flag = 2 then .returned else .tested } := by
    by_cases hflag : w.flag = 2 <;> simp [Coming, hflag]
  constructor
  · intro _ hasleep
    by_cases hflag : w.flag = 2 <;> simp [hflag] at hasleep
  · intro b hb
    exact ⟨(h.returned b hb).1, fun _ => hcoming⟩
  · intro p b hp
    exact ⟨(h.inside p b hp).1, fun _ _ => .inl hcoming⟩
  · intro hexit
    rcases h.stopping hexit with hreturned | ⟨hflag, -⟩
    · rw [hthread] at hreturned
      cases hreturned
    · exact .inl (if_pos hflag)
  · exact fun _ => hcoming

omit [DecidableEq ι] in
/-- Past its test the thread does not see an exit that sets the flag now. -/
theorem Inv.loaded (h : Inv m w) (hthread : w.thread = .tested ∨ w.thread = .printed) :
    w.exit = .loaded := by
  by_contra hexit
  rcases h.stopping hexit with hother | ⟨-, hother | hother | hother⟩ <;> simp [hother] at hthread

omit [DecidableEq ι] in
theorem print_inv (h : Inv m w) (hthread : w.thread = .tested) :
    Inv m { w with thread := .printed, reports := w.reports + 1 } := by
  have hloaded := h.loaded (.inl hthread)
  constructor
  · exact fun _ hasleep => by cases hasleep
  · intro b hb
    have hle := (h.returned b hb).1
    exact ⟨hle.trans (Nat.le_succ _), fun heq => by simp only at heq; omega⟩
  · intro p b hp
    have hle := (h.inside p b hp).1
    exact ⟨hle.trans (Nat.le_succ _), fun _ heq => by simp only at heq; omega⟩
  · exact fun hexit => absurd hloaded hexit
  · exact fun hdone => absurd (hloaded.symm.trans hdone) (by decide)

omit [DecidableEq ι] in
theorem clear_inv (h : Inv m w) (hthread : w.thread = .printed) :
    Inv m { w with thread := .waiting, flag := 0 } := by
  have hloaded := h.loaded (.inr hthread)
  have hcoming : w.Coming m → m = .completion ∧
      Coming m { w with thread := .waiting, flag := 0 } := by
    intro hold
    obtain ⟨rfl, hcount⟩ : m = .completion ∧ 0 < w.count := by simpa [Coming, hthread] using hold
    exact ⟨rfl, hcount⟩
  constructor
  · exact fun _ hasleep => by cases hasleep
  · intro b hb
    exact ⟨(h.returned b hb).1, fun heq => (hcoming ((h.returned b hb).2 heq)).2⟩
  · intro p b hp
    obtain ⟨hle, hcase⟩ := h.inside p b hp
    refine ⟨hle, fun hqueue heq => ?_⟩
    rcases hcase hqueue heq with hold | ⟨hasleep, -⟩
    · exact .inl (hcoming hold).2
    · rw [hthread] at hasleep
      cases hasleep
  · exact fun hexit => absurd hloaded hexit
  · exact fun hdone => absurd (hloaded.symm.trans hdone) (by decide)

theorem step_inv (hw : Inv m w) (hC : w.Timely m e) (h : step m w e = .ok w') : Inv m w' := by
  cases e with
  | store p =>
      simp only [step] at h
      split at h
      · next hout hloaded =>
          cases h
          exact store_inv hw hloaded fun hqueue => hC hqueue hout hloaded
      · cases h
  | wake p =>
      simp only [step] at h
      split at h
      · next before hp =>
          have hbefore : (w.pc p).before = some before := by rw [hp]; rfl
          cases m with
          | queue =>
              cases h
              have hawake : Inv .queue { w with thread := w.thread.wake } := hw.wakes nofun
              refine hawake.leave hbefore fun heq => ?_
              rcases (hawake.inside p before hbefore).2 rfl heq with hcoming | ⟨hasleep, -⟩
              · exact hcoming
              · exact absurd hasleep (wake_ne_asleep _)
          | completion =>
              simp only at h
              split at h
              · next hcount =>
                  cases h
                  refine hw.leave hbefore fun _ => ?_
                  exact coming_of_awake (Nat.pos_of_ne_zero hcount)
                    (fun hasleep => hcount (hw.asleep rfl hasleep)) rfl
              · cases h
                refine { hw with inside := fun q b hq => ?_ }
                by_cases hqp : q = p
                · simp only [hqp, Function.update_self, ReadPc.before, Option.some.injEq] at hq
                  subst hq
                  exact ⟨(hw.inside p _ hbefore).1, nofun⟩
                · simp only [Function.update_of_ne hqp] at hq
                  exact hw.inside q b hq
      · cases h
  | complete p =>
      simp only [step] at h
      split at h
      · next before hp =>
          have hbefore : (w.pc p).before = some before := by rw [hp]; rfl
          cases h
          have hawake := hw.wakes fun _ => Nat.succ_pos w.count
          refine hawake.leave hbefore fun heq => ?_
          cases m with
          | queue =>
              rcases (hawake.inside p before hbefore).2 rfl heq with hcoming | ⟨hasleep, -⟩
              · exact hcoming
              · exact absurd hasleep (wake_ne_asleep _)
          | completion => exact coming_of_awake (Nat.succ_pos _) (wake_ne_asleep _) rfl
      · cases h
  | exitStore =>
      simp only [step] at h
      split at h
      · next hloaded hrefs =>
          cases h
          exact exitStore_inv hw (hC hloaded hrefs)
      · cases h
  | exitWake =>
      simp only [step] at h
      split at h
      · next hstored =>
          have hexit : w.exit ≠ .loaded := by rw [hstored]; decide
          cases m with
          | queue =>
              cases h
              have hawake : Inv .queue { w with thread := w.thread.wake } := hw.wakes nofun
              exact hawake.exits hexit fun _ =>
                hawake.coming_of_stopping hexit (wake_ne_asleep _) nofun
          | completion =>
              simp only at h
              split at h
              · next hcount =>
                  cases h
                  refine hw.exits hexit fun _ => ?_
                  exact coming_of_awake (Nat.pos_of_ne_zero hcount)
                    (fun hasleep => hcount (hw.asleep rfl hasleep)) rfl
              · cases h
                exact hw.exits hexit nofun
      · cases h
  | exitComplete =>
      simp only [step] at h
      split at h
      · next hcompleting =>
          have hexit : w.exit ≠ .loaded := by rw [hcompleting]; decide
          cases h
          have hawake := hw.wakes fun _ => Nat.succ_pos w.count
          exact hawake.exits hexit fun _ =>
            hawake.coming_of_stopping hexit (wake_ne_asleep _) fun _ => Nat.succ_pos _
      · cases h
  | wait =>
      simp only [step] at h
      split at h
      · next hthread =>
          split at h
          · cases m <;> cases h <;> exact wait_inv hw hthread _
          · next hready =>
              cases h
              exact sleep_inv hw hthread hready
      · cases h
  | test =>
      simp only [step] at h
      split at h
      · next hthread =>
          cases h
          exact test_inv hw hthread
      · cases h
  | print =>
      simp only [step] at h
      split at h
      · next hthread =>
          cases h
          exact print_inv hw hthread
      · cases h
  | clear =>
      simp only [step] at h
      split at h
      · next hthread =>
          cases h
          exact clear_inv hw hthread
      · cases h

/-! ## What is wiped out -/

/-- With the flag clear the thread takes what the completion still has, and sleeps. -/
theorem exists_asleep (hthread : w.thread = .waiting) (hflag : w.flag = 0) :
    ∃ es w', Runs.exec (step m) w es = .ok w' ∧ w'.thread = .asleep ∧ w'.exit = w.exit := by
  cases m with
  | queue =>
      exact ⟨[.wait], { w with thread := .asleep }, by simp [step, hthread, Ready, hflag], rfl, rfl⟩
  | completion =>
      induction hcount : w.count generalizing w with
      | zero =>
          exact ⟨[.wait], { w with thread := .asleep }, by simp [step, hthread, Ready, hcount],
            rfl, rfl⟩
      | succ n ih =>
          let w₁ : World ι :=
            { w with thread := .waiting, flag := 0, count := n, reports := w.reports + 1 }
          obtain ⟨es, w', hrun, hasleep, hexit⟩ := ih (w := w₁) rfl rfl rfl
          refine ⟨[.wait, .test, .print, .clear] ++ es, w', ?_, hasleep, hexit⟩
          rw [Runs.exec_append]
          have htake : Runs.exec (step .completion) w [.wait, .test, .print, .clear] = .ok w₁ := by
            simp [step, hthread, Ready, hcount, hflag, w₁]
          rw [htake]
          exact hrun

/-- An exit that has set the flag comes to its end. -/
theorem exists_done (hexit : w.exit = .stored) (hthread : w.thread = .waiting) :
    ∃ es w', Runs.exec (step m) w es = .ok w' ∧ w'.thread = .waiting ∧ w'.flag = w.flag ∧
      w'.exit = .done := by
  cases m with
  | queue =>
      refine ⟨[.exitWake], { w with exit := .done }, ?_, hthread, rfl, rfl⟩
      simp [step, hexit, hthread, ThreadPc.wake]
  | completion =>
      by_cases hcount : w.count = 0
      · refine ⟨[.exitWake, .exitComplete], { w with exit := .done, count := w.count + 1 }, ?_,
          hthread, rfl, rfl⟩
        simp [step, hexit, hthread, ThreadPc.wake, hcount]
      · exact ⟨[.exitWake], { w with exit := .done }, by simp [step, hexit, hcount], hthread, rfl,
          rfl⟩

/-- A flag set by the exit and wiped out leaves the thread asleep after the exit. -/
theorem exit_wiped_out (hthread : w.thread = .tested ∨ w.thread = .printed)
    (hexit : w.exit = .stored) : ∃ es, ¬ Runs.Always (step m) Right w es := by
  obtain ⟨es₁, w₁, hrun₁, hthread₁, hflag₁, hexit₁⟩ : ∃ es w₁,
      Runs.exec (step m) w es = .ok w₁ ∧ w₁.thread = .waiting ∧ w₁.flag = 0 ∧
        w₁.exit = .stored := by
    rcases hthread with hthread | hthread
    · exact ⟨[.print, .clear],
        { w with thread := .waiting, flag := 0, reports := w.reports + 1 },
        by simp [step, hthread], rfl, rfl, hexit⟩
    · exact ⟨[.clear], { w with thread := .waiting, flag := 0 }, by simp [step, hthread], rfl, rfl,
        hexit⟩
  obtain ⟨es₂, w₂, hrun₂, hthread₂, hflag₂, hexit₂⟩ := exists_done (m := m) hexit₁ hthread₁
  obtain ⟨es₃, w₃, hrun₃, hthread₃, hexit₃⟩ :=
    exists_asleep (m := m) hthread₂ (hflag₂.trans hflag₁)
  have hrun : Runs.exec (step m) w (es₁ ++ (es₂ ++ es₃)) = .ok w₃ := by
    rw [Runs.exec_append, hrun₁, ok_bind, Runs.exec_append, hrun₂, ok_bind, hrun₃]
  refine ⟨_, Runs.not_always_of_exec hrun fun hright => ?_⟩
  exact (hright hthread₃).2 (hexit₃.trans hexit₂)

/-- A flag set by a read and wiped out leaves the read without a report. -/
theorem read_wiped_out {p : ι} (hout : w.pc p = .out) (hloaded : w.exit = .loaded)
    (hthread : w.thread = .printed) :
    ¬ Runs.Always (step .queue) Right w [.store p, .clear, .wake p, .wait] := by
  let w₁ : World ι :=
    { w with flag := 1, pc := Function.update w.pc p (.stored w.reports), refs := w.refs + 1 }
  let w₂ : World ι := { w₁ with thread := .waiting, flag := 0 }
  have hrun : Runs.exec (step .queue) w [.store p, .clear, .wake p, .wait] =
      .ok { w₂.leave p w.reports with thread := .asleep } := by
    simp [step, hout, hloaded, hthread, Ready, World.leave, ThreadPc.wake, w₁, w₂]
  refine Runs.not_always_of_exec hrun fun hright => ?_
  have hlt := (hright rfl).1 w.reports (List.mem_append_right _ (List.mem_singleton.mpr rfl))
  exact absurd hlt (lt_irrefl _)

/-- In every run that is timely, every read is reported and the exit is seen before the thread
sleeps. A run that is not can go on, by the first step that is not, to a state in which the
thread sleeps and has missed a read or the exit. -/
theorem timely_or_missed (m : Mechanism) (es : List (Event ι)) :
    (Runs.Along (step m) (Timely m) initial es → Runs.Always (step m) Right initial es) ∧
      (¬ Runs.Along (step m) (Timely m) initial es →
        Runs.Breaks (step m) (Timely m) Right initial es) := by
  apply Runs.always_or_breaks (I := Inv m)
  · exact fun w hw => hw.right
  · exact fun w e w' hw hC h => step_inv hw hC h
  · intro w e hw hC
    cases e with
    | store p =>
        simp only [Timely] at hC
        push Not at hC
        obtain ⟨rfl, hout, hloaded, hthread⟩ := hC
        exact ⟨_, read_wiped_out hout hloaded hthread⟩
    | exitStore =>
        simp only [Timely] at hC
        push Not at hC
        obtain ⟨hloaded, hrefs, hthread⟩ := hC
        have hpast : w.thread = .tested ∨ w.thread = .printed := by
          by_cases htested : w.thread = .tested
          · exact .inl htested
          · exact .inr (hthread htested)
        obtain ⟨fs, hfs⟩ := exit_wiped_out (m := m)
          (w := { w with flag := 2, exit := .stored }) hpast rfl
        refine ⟨fs, fun halways => hfs (halways.2 _ ?_)⟩
        simp only [step, hloaded, hrefs]
    | _ => exact absurd trivial hC
  · exact initial_inv

end World

end LddSamples.Misc.WaitThread
