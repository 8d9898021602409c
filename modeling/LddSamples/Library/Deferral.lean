import LddSamples.Library.Runs

/-!
# Functions that are called later, and the exit of their owner

An owner has functions that the system calls later, one call of each at a time: something
queues them, and a call may queue its function again. The exit of the owner stops what
queues them, and takes them from their queues with or without waiting for a call that is on
its way. Then the owner is gone, and nothing may call it any more.
-/

namespace Deferral

/-- Where the call of a function stands: there is none, it has begun, or it has queued the
function again. -/
inductive Call
  | idle
  | started
  | requeued
  deriving DecidableEq

structure Item where
  queued : Bool
  call : Call
  deriving DecidableEq

def Item.off : Item := ⟨false, .idle⟩

/-- `stopSource` waits for the source as well. `take` only takes a function from its queue,
`await` also waits for its call, and `drain` waits until nothing is left to call. -/
inductive ExitStep (ι : Type)
  | stopSource
  | take (i : ι)
  | await (i : ι)
  | drain (is : List ι)

def ExitStep.Hasty {ι : Type} : ExitStep ι → Prop
  | .stopSource => True
  | .take _ => True
  | _ => False

instance {ι : Type} : DecidablePred (fun x : ExitStep ι => x.Hasty)
  | .stopSource => isTrue trivial
  | .take _ => isTrue trivial
  | .await _ => isFalse id
  | .drain _ => isFalse id

/-- What queues the functions: the owner once when it is loaded, a source that goes on until
it is stopped, or the users of the owner. -/
inductive Source
  | load
  | stoppable
  | users
  deriving DecidableEq

/-- Users that pin the owner keep it from exiting, and do not enter once it exits. -/
inductive Users
  | none
  | pinning
  | free
  deriving DecidableEq

/-- With `fresh`, each time a function is queued it is one that nobody uses; with `repeats`,
each call queues its function again. -/
structure Owner (ι : Type) where
  users : Users
  source : Source
  repeats : Bool
  fresh : Bool
  exit : List (ExitStep ι)

/-- `exit` is what the exit has still to do, once it has begun. -/
structure State (ι : Type) where
  item : ι → Item
  live : Bool
  users : ℕ
  exit : Option (List (ExitStep ι))

inductive Event (ι : Type)
  | enter
  | leave
  | trigger (i : ι)
  | start (i : ι)
  | requeue (i : ι)
  | finish (i : ι)
  | beginExit
  | exitStep

variable {ι : Type}

namespace Owner

def initial (d : Owner ι) : State ι :=
  ⟨fun _ => ⟨decide (d.source = .load), .idle⟩, decide (d.source = .stoppable), 0, none⟩

def Triggers (d : Owner ι) (s : State ι) : Bool :=
  match d.source with
  | .load => false
  | .stoppable => s.live
  | .users => decide (0 < s.users)

variable [DecidableEq ι]

def step (d : Owner ι) (s : State ι) : Event ι → Except Unit (State ι)
  | .enter =>
      match d.users, s.exit with
      | .none, _ => .error ()
      | .pinning, some _ => .error ()
      | .free, some [] => .error ()
      | _, _ => .ok { s with users := s.users + 1 }
  | .leave =>
      if 0 < s.users then .ok { s with users := s.users - 1 } else .error ()
  | .trigger i =>
      if d.Triggers s ∧ (d.fresh → s.item i = .off) then
        .ok { s with item := Function.update s.item i ⟨true, (s.item i).call⟩ }
      else .error ()
  | .start i =>
      match s.item i with
      | ⟨true, .idle⟩ => .ok { s with item := Function.update s.item i ⟨false, .started⟩ }
      | _ => .error ()
  | .requeue i =>
      match d.repeats, (s.item i).call with
      | true, .started => .ok { s with item := Function.update s.item i ⟨true, .requeued⟩ }
      | _, _ => .error ()
  | .finish i =>
      match d.repeats, s.item i with
      | true, ⟨queued, .requeued⟩ =>
          .ok { s with item := Function.update s.item i ⟨queued, .idle⟩ }
      | false, ⟨queued, .started⟩ =>
          .ok { s with item := Function.update s.item i ⟨queued, .idle⟩ }
      | _, _ => .error ()
  | .beginExit =>
      match s.exit with
      | none =>
          if d.users = .pinning ∧ 0 < s.users then .error ()
          else .ok { s with exit := some d.exit }
      | some _ => .error ()
  | .exitStep =>
      match s.exit with
      | some (.stopSource :: l) => .ok { s with live := false, exit := some l }
      | some (.take i :: l) =>
          .ok { s with item := Function.update s.item i ⟨false, (s.item i).call⟩, exit := some l }
      | some (.await i :: l) =>
          if (s.item i).call = .idle then
            .ok { s with item := Function.update s.item i .off, exit := some l }
          else .error ()
      | some (.drain is :: l) =>
          if ∀ i ∈ is, s.item i = .off then .ok { s with exit := some l } else .error ()
      | _ => .error ()

end Owner

/-- After the exit nothing is queued or called, and nobody is left who could queue or call
anything. -/
def Safe (s : State ι) : Prop :=
  s.exit = some [] → (∀ i, s.item i = .off) ∧ s.live = false ∧ s.users = 0

/-- The rest of an exit waits for function `i` when its source has stopped. -/
def Covers (i : ι) : Bool → List (ExitStep ι) → Prop
  | _, [] => False
  | _, .stopSource :: l => Covers i false l
  | live, .take _ :: l => Covers i live l
  | live, .await j :: l => (live = false ∧ j = i) ∨ Covers i live l
  | live, .drain is :: l => (live = false ∧ i ∈ is) ∨ Covers i live l

instance [DecidableEq ι] (i : ι) (live : Bool) (l : List (ExitStep ι)) :
    Decidable (Covers i live l) := by
  induction l generalizing live with
  | nil => exact inferInstanceAs (Decidable False)
  | cons x l ih =>
      cases x with
      | stopSource => exact ih false
      | take j => exact ih live
      | await j => exact @instDecidableOr _ _ _ (ih live)
      | drain is => exact @instDecidableOr _ _ _ (ih live)

/-- The source is stopped, if it has to be. -/
def Stops (live : Bool) (l : List (ExitStep ι)) : Prop :=
  live = true → l.any fun x => match x with
    | .stopSource => true
    | _ => false

instance (live : Bool) (l : List (ExitStep ι)) : Decidable (Stops live l) :=
  inferInstanceAs (Decidable (_ → _))

namespace Owner

/-- The exit stops what there is to stop, and then waits for each function. -/
structure Settles (d : Owner ι) : Prop where
  pinned : d.users ≠ .free
  stops : Stops (decide (d.source = .stoppable)) d.exit
  covers : ∀ i, Covers i (decide (d.source = .stoppable)) d.exit

variable {d : Owner ι} {s s' : State ι} {e : Event ι}

/-! ## Exits that wait -/

structure Inv (d : Owner ι) (s : State ι) : Prop where
  nobody : d.users = .none → s.users = 0
  loaded : s.exit = none → s.live = decide (d.source = .stoppable)
  live : d.source ≠ .stoppable → s.live = false
  users : s.exit ≠ none → s.users = 0
  exiting : ∀ l, s.exit = some l →
    Stops s.live l ∧ ∀ i, Covers i s.live l ∨ (s.live = false ∧ s.item i = .off)

theorem initial_inv (d : Owner ι) : Inv d d.initial where
  nobody _ := rfl
  loaded _ := rfl
  live h := decide_eq_false h
  users h := absurd rfl h
  exiting _ h := nomatch h

theorem Inv.safe (h : Inv d s) : Safe s := by
  intro hexit
  obtain ⟨hstops, hcovers⟩ := h.exiting [] hexit
  refine ⟨fun i => ?_, ?_, h.users (by rw [hexit]; exact nofun)⟩
  · obtain hnever | ⟨-, hoff⟩ := hcovers i
    · exact absurd hnever id
    · exact hoff
  · by_contra hlive
    exact absurd (hstops (Bool.eq_true_of_not_eq_false hlive)) nofun

/-- In the exit nobody but the source queues a function. -/
theorem Inv.triggers_eq (h : Inv d s) (hexit : s.exit ≠ none) : d.Triggers s = s.live := by
  unfold Triggers
  split
  · next hload => rw [h.live (by rw [hload]; exact nofun)]
  · rfl
  · next husers => rw [h.live (by rw [husers]; exact nofun), h.users hexit]; rfl

theorem beginExit_inv (hd : d.Settles) (h : Inv d s) (hnone : s.exit = none)
    (husers : ¬ (d.users = .pinning ∧ 0 < s.users)) : Inv d { s with exit := some d.exit } where
  nobody := h.nobody
  loaded h := nomatch h
  live := h.live
  users _ := by
    cases hkind : d.users with
    | none => exact h.nobody hkind
    | pinning =>
        rw [hkind] at husers
        simpa using husers
    | free => exact absurd hkind hd.pinned
  exiting l hl := by
    obtain rfl := Option.some.inj hl
    rw [h.loaded hnone]
    exact ⟨hd.stops, fun i => .inl (hd.covers i)⟩

/-- A step of the exit, by what it leaves. -/
theorem Inv.next (h : Inv d s) {l l' : List (ExitStep ι)} (hl : s.exit = some l)
    {item : ι → Item} {live : Bool} (hlive : live = s.live ∨ live = false)
    (hrest : Stops live l' ∧ ∀ i, Covers i live l' ∨ (live = false ∧ item i = .off)) :
    Inv d ⟨item, live, s.users, some l'⟩ where
  nobody := h.nobody
  loaded := nofun
  live hsource := hlive.elim (fun heq => heq.trans (h.live hsource)) id
  users _ := h.users (by rw [hl]; exact nofun)
  exiting := by
    rintro _ ⟨⟩
    exact hrest

variable [DecidableEq ι]

/-- A function that is not off, or can be queued, goes on. -/
theorem Inv.goesOn (h : Inv d s) {i : ι} (t : Item)
    (hi : s.item i ≠ .off ∨ d.Triggers s = true) :
    Inv d { s with item := Function.update s.item i t } where
  nobody := h.nobody
  loaded := h.loaded
  live := h.live
  users := h.users
  exiting l hl := by
    obtain ⟨hstops, hcovers⟩ := h.exiting l hl
    refine ⟨hstops, fun j => (hcovers j).imp_right ?_⟩
    rintro ⟨hlive, hoff⟩
    have hne : j ≠ i := by
      rintro rfl
      obtain hon | htriggers := hi
      · exact hon hoff
      · rw [h.triggers_eq (by rw [hl]; exact nofun), hlive] at htriggers
        cases htriggers
    exact ⟨hlive, (Function.update_of_ne hne ..).trans hoff⟩

theorem exitStep_inv (h : Inv d s) (hstep : d.step s .exitStep = .ok s') : Inv d s' := by
  simp only [step] at hstep
  split at hstep
  · next l hl =>
      cases hstep
      obtain ⟨-, hcovers⟩ := h.exiting _ hl
      refine h.next hl (.inr rfl) ⟨nofun, fun i => ?_⟩
      exact (hcovers i).imp_right fun hoff => ⟨rfl, hoff.2⟩
  · next i l hl =>
      cases hstep
      obtain ⟨hstops, hcovers⟩ := h.exiting _ hl
      refine h.next hl (.inl rfl) ⟨hstops, fun j => (hcovers j).imp_right ?_⟩
      rintro ⟨hlive, hoff⟩
      refine ⟨hlive, ?_⟩
      by_cases hj : j = i
      · subst hj
        simp [hoff, Item.off]
      · rwa [Function.update_of_ne hj]
  · next i l hl =>
      split at hstep
      · cases hstep
        obtain ⟨hstops, hcovers⟩ := h.exiting _ hl
        refine h.next hl (.inl rfl) ⟨hstops, fun j => ?_⟩
        by_cases hj : j = i
        · subst hj
          obtain (⟨hlive, -⟩ | hlater) | ⟨hlive, -⟩ := hcovers j
          · exact .inr ⟨hlive, Function.update_self ..⟩
          · exact .inl hlater
          · exact .inr ⟨hlive, Function.update_self ..⟩
        · obtain (⟨-, heq⟩ | hlater) | ⟨hlive, hoff⟩ := hcovers j
          · exact absurd heq.symm hj
          · exact .inl hlater
          · exact .inr ⟨hlive, (Function.update_of_ne hj ..).trans hoff⟩
      · cases hstep
  · next is l hl =>
      split at hstep
      · next hempty =>
          cases hstep
          obtain ⟨hstops, hcovers⟩ := h.exiting _ hl
          refine h.next hl (.inl rfl) ⟨hstops, fun j => ?_⟩
          obtain (⟨hlive, hmem⟩ | hlater) | hoff := hcovers j
          · exact .inr ⟨hlive, hempty j hmem⟩
          · exact .inl hlater
          · exact .inr hoff
      · cases hstep
  · cases hstep

theorem step_inv (hd : d.Settles) (hs : Inv d s) (h : d.step s e = .ok s') : Inv d s' := by
  cases e with
  | enter =>
      simp only [step] at h
      split at h
      · cases h
      · cases h
      · cases h
      · next hnobody hpinned hexited =>
          cases h
          have hloaded : s.exit = none := by
            by_contra hexit
            obtain ⟨l, hl⟩ := Option.ne_none_iff_exists'.mp hexit
            cases hkind : d.users with
            | none => exact hnobody hkind
            | pinning => exact hpinned l hkind hl
            | free => exact hd.pinned hkind
          refine ⟨fun hkind => (hnobody hkind).elim, hs.loaded, hs.live, ?_, hs.exiting⟩
          exact fun hexit => absurd hloaded hexit
  | leave =>
      simp only [step] at h
      split at h
      · next hpos =>
          cases h
          refine ⟨fun hkind => ?_, hs.loaded, hs.live, fun hexit => ?_, hs.exiting⟩
          · simp [hs.nobody hkind]
          · simp [hs.users hexit]
      · cases h
  | trigger i =>
      simp only [step] at h
      split at h
      · next htriggers =>
          cases h
          exact hs.goesOn _ (.inr htriggers.1)
      · cases h
  | start i =>
      simp only [step] at h
      split at h
      · next hitem =>
          cases h
          exact hs.goesOn _ (.inl (by rw [hitem]; exact nofun))
      · cases h
  | requeue i =>
      simp only [step] at h
      split at h
      · next _ hcall =>
          cases h
          refine hs.goesOn _ (.inl fun hoff => ?_)
          rw [hoff] at hcall
          cases hcall
      · cases h
  | finish i =>
      simp only [step] at h
      split at h
      · next _ hitem =>
          cases h
          exact hs.goesOn _ (.inl (by rw [hitem]; exact nofun))
      · next _ hitem =>
          cases h
          exact hs.goesOn _ (.inl (by rw [hitem]; exact nofun))
      · cases h
  | beginExit =>
      simp only [step] at h
      split at h
      · next hnone =>
          split at h
          · cases h
          · next husers =>
              cases h
              exact beginExit_inv hd hs hnone husers
      · cases h
  | exitStep => exact exitStep_inv hs h

/-- An owner that waits in its exit is never called after it. -/
theorem safe_of_settles (hd : d.Settles) (es : List (Event ι)) :
    Runs.Always d.step Safe d.initial es :=
  Runs.always_of_inv (fun _ hs => hs.safe) (fun _ _ _ hs h => step_inv hd hs h) (initial_inv d) es

/-! ## Exits that do not wait -/

/-- The exit waits for no function, and there is one to wait for, or users that stay. -/
structure Impatient (d : Owner ι) : Prop where
  hasty : ∀ x ∈ d.exit, x.Hasty
  leaves : d.users = .free ∨ Nonempty ι ∧ (d.source = .users → d.users ≠ .none)

theorem exec_hasty (d : Owner ι) {l : List (ExitStep ι)} (hl : ∀ x ∈ l, x.Hasty)
    (hs : s.exit = some l) :
    ∃ s', Runs.exec d.step s (List.replicate l.length .exitStep) = .ok s' ∧
      s'.exit = some [] ∧ s'.users = s.users ∧ ∀ i, (s'.item i).call = (s.item i).call := by
  induction l generalizing s with
  | nil => exact ⟨s, rfl, hs, rfl, fun _ => rfl⟩
  | cons x l ih =>
      obtain ⟨hx, hrest⟩ := List.forall_mem_cons.mp hl
      cases x with
      | stopSource =>
          obtain ⟨s', hrun, hexit, husers, hcalls⟩ :=
            ih (s := { s with live := false, exit := some l }) hrest rfl
          refine ⟨s', ?_, hexit, husers, hcalls⟩
          rw [List.length_cons, List.replicate_succ, Runs.exec_cons]
          simp only [step, hs]
          exact hrun
      | take i =>
          obtain ⟨s', hrun, hexit, husers, hcalls⟩ := ih (s := { s with
            item := Function.update s.item i ⟨false, (s.item i).call⟩
            exit := some l }) hrest rfl
          refine ⟨s', ?_, hexit, husers, fun j => (hcalls j).trans ?_⟩
          · rw [List.length_cons, List.replicate_succ, Runs.exec_cons]
            simp only [step, hs]
            exact hrun
          · by_cases hj : j = i
            · subst hj
              simp
            · simp [Function.update_of_ne hj]
      | await i => exact absurd hx id
      | drain is => exact absurd hx id

theorem step_trigger {i : ι} (htriggers : d.Triggers s = true) (hoff : s.item i = .off) :
    d.step s (.trigger i) = .ok { s with item := Function.update s.item i ⟨true, .idle⟩ } := by
  simp [step, htriggers, hoff, Item.off]

theorem step_start {i : ι} (hitem : s.item i = ⟨true, .idle⟩) :
    d.step s (.start i) = .ok { s with item := Function.update s.item i ⟨false, .started⟩ } := by
  simp only [step, hitem]

theorem step_enter (husers : d.users ≠ .none) (hexit : s.exit = none) :
    d.step s .enter = .ok { s with users := s.users + 1 } := by
  cases hkind : d.users with
  | none => exact absurd hkind husers
  | pinning => simp only [step, hkind, hexit]
  | free => simp only [step, hkind, hexit]

theorem exec_called {i : ι} (htriggers : d.Triggers s = true) (hoff : s.item i = .off) :
    ∃ t, Runs.exec d.step s [.trigger i, .start i] = .ok t ∧ t.exit = s.exit ∧
      t.users = s.users ∧ (t.item i).call = .started := by
  have hqueued := step_trigger htriggers hoff
  have hstarted := step_start (d := d) (s := { s with
    item := Function.update s.item i ⟨true, .idle⟩ }) (Function.update_self ..)
  refine ⟨{ s with
    item := Function.update (Function.update s.item i ⟨true, .idle⟩) i ⟨false, .started⟩ },
    ?_, rfl, rfl, by simp⟩
  rw [Runs.exec_cons, hqueued, Outcome.ok_bind, Runs.exec_cons, hstarted]
  rfl

/-- A call of any function can be on its way when the exit begins, with no user left. -/
theorem exists_started (i : ι) (husers : d.source = .users → d.users ≠ .none) :
    ∃ es s, Runs.exec d.step d.initial es = .ok s ∧ s.exit = none ∧ s.users = 0 ∧
      (s.item i).call = .started := by
  cases hsource : d.source with
  | load =>
      have hstarted := step_start (d := d) (s := d.initial) (i := i) (by simp [initial, hsource])
      refine ⟨[.start i], { d.initial with
        item := Function.update d.initial.item i ⟨false, .started⟩ }, ?_, rfl, rfl, by simp⟩
      rw [Runs.exec_cons, hstarted]
      rfl
  | stoppable =>
      have htriggers : d.Triggers d.initial = true := by simp [Triggers, initial, hsource]
      obtain ⟨t, hrun, hexit, hzero, hcall⟩ :=
        exec_called (i := i) htriggers (by simp [initial, hsource, Item.off])
      exact ⟨_, t, hrun, hexit, hzero, hcall⟩
  | users =>
      have hentered := step_enter (s := d.initial) (husers hsource) rfl
      have htriggers : d.Triggers { d.initial with users := 1 } = true := by
        simp [Triggers, hsource]
      obtain ⟨t, hrun, hexit, hone, hcall⟩ :=
        exec_called (i := i) htriggers (by simp [initial, hsource, Item.off])
      refine ⟨.enter :: ([.trigger i, .start i] ++ [.leave]), { t with users := 0 }, ?_, hexit,
        rfl, hcall⟩
      have hleft : d.step t .leave = .ok { t with users := 0 } := by simp [step, hone]
      rw [Runs.exec_cons, hentered]
      change Runs.exec d.step { d.initial with users := 1 } _ = _
      rw [Runs.exec_append, hrun, Outcome.ok_bind, Runs.exec_cons, hleft]
      rfl

/-- An owner that waits for nothing can be called after its exit. -/
theorem exists_unsafe (hd : d.Impatient) : ∃ es, ¬ Runs.Always d.step Safe d.initial es := by
  obtain hfree | ⟨⟨i⟩, husers⟩ := hd.leaves
  · let one : State ι := { d.initial with users := 1, exit := some d.exit }
    obtain ⟨s, hrun, hexit, husers, -⟩ := exec_hasty (s := one) d hd.hasty rfl
    have hwhole : Runs.exec d.step d.initial
        (.enter :: .beginExit :: List.replicate d.exit.length .exitStep) = .ok s := by
      rw [Runs.exec_cons, step_enter (by rw [hfree]; exact nofun) rfl, Outcome.ok_bind,
        Runs.exec_cons]
      simp only [step, initial, hfree]
      exact hrun
    refine ⟨_, Runs.not_always_of_exec hwhole fun hsafe => ?_⟩
    obtain ⟨-, -, hzero⟩ := hsafe hexit
    rw [husers] at hzero
    cases hzero
  · obtain ⟨es, s, hes, hnone, hzero, hcall⟩ := exists_started i husers
    obtain ⟨s', hrun, hexit, -, hcalls⟩ :=
      exec_hasty (s := { s with exit := some d.exit }) d hd.hasty rfl
    have hwhole : Runs.exec d.step d.initial
        (es ++ .beginExit :: List.replicate d.exit.length .exitStep) = .ok s' := by
      have hbegin : d.step s .beginExit = .ok { s with exit := some d.exit } := by
        simp [step, hnone, hzero]
      rw [Runs.exec_append, hes, Outcome.ok_bind, Runs.exec_cons, hbegin]
      exact hrun
    refine ⟨_, Runs.not_always_of_exec hwhole fun hsafe => ?_⟩
    have hidle := congrArg Item.call ((hsafe hexit).1 i)
    rw [hcalls i, hcall] at hidle
    cases hidle

end Owner

end Deferral
