import LddSamples.Usb.Steps

/-!
# The last reference frees the device

Each open file has a reference to the `usb_skel`, and so has the interface until its disconnect
is through. What uses the device has one of them: a call holds its file, and requests are under
way only as long as the disconnect has not killed them, after which none can be submitted.
-/

namespace LddSamples.Usb

open Kernel Outcome Census

namespace World

/-! ## References -/

/-- The reference of the interface. -/
def ofInterface (s : World) : ℕ := if s.bus.phase = 6 then 0 else 1

structure Held (s : World) : Prop where
  sound : ∀ c, (s.calls c).Sound
  uses : ∀ f, Counts (Call.Uses f) s.calls (s.users f)
  users : ∀ f, s.users f ≠ 0 → s.files f = .opened
  fds : ∀ f, s.fds f ≠ 0 → s.files f = .opened
  opening : Counts (· = .opening) s.files s.openers
  deregistered : 2 ≤ s.bus.phase → s.openers = 0
  opened : ∃ n, Counts (· = .opened) s.files n ∧ s.skel.kref = n + s.ofInterface
  frees : s.frees = if s.skel.kref = 0 then 1 else 0

theorem initial_held (maxPacketSize : BitVec 16) (content : ℕ → UInt8) :
    (initial maxPacketSize content).Held where
  sound _ := trivial
  uses _ := counts_zero fun _ => id
  users _ h := absurd rfl h
  fds _ h := absurd rfl h
  opening := counts_zero fun _ => nofun
  deregistered := nofun
  opened := ⟨0, counts_zero fun _ => nofun, rfl⟩
  frees := rfl

variable {s s' : World} {e : Event}

theorem Held.alive_of_opened (h : s.Held) {f : ℕ} (hf : s.files f = .opened) : s.frees = 0 := by
  obtain ⟨n, hcount, hkref⟩ := h.opened
  have hn := hcount.ne_zero hf
  rw [h.frees, if_neg (by omega)]

theorem Held.alive_of_interface (h : s.Held) (hbus : s.bus.phase < 6) : s.frees = 0 := by
  obtain ⟨n, -, hkref⟩ := h.opened
  rw [ofInterface, if_neg hbus.ne] at hkref
  rw [h.frees, if_neg (by omega)]

theorem Held.alive_of_opening (h : s.Held) {f : ℕ} (hf : s.files f = .opening) : s.frees = 0 := by
  refine h.alive_of_interface ?_
  by_contra hbus
  exact h.opening.ne_zero hf (h.deregistered (by omega))

/-- The last of the references to go frees the device. -/
theorem frees_put {kref frees : ℕ} (hkref : 0 < kref) (hfrees : frees = 0) :
    (if kref = 1 then frees + 1 else frees) = if kref - 1 = 0 then 1 else 0 := by
  split <;> split <;> omega

theorem Bus.phase_of_hasIntfdata {bus : Bus} (h : bus.hasIntfdata) : bus.phase = 0 := by
  cases bus with
  | bound => rfl
  | drawing reset => rfl
  | drawn reset => rfl
  | resetting => rfl
  | noted => rfl
  | _ => cases h

/-- A file that is not open changes, and the open ones stay open. -/
theorem opened_update {files : ℕ → File} {f g : ℕ} {file : File} (hf : files f ≠ .opened)
    (hg : files g = .opened) : Function.update files f file g = .opened := by
  have hne : g ≠ f := by
    rintro rfl
    exact hf hg
  rw [Function.update_of_ne hne, hg]

theorem sound_update {calls : ℕ → Call} (h : ∀ c, (calls c).Sound) {c : ℕ} {call : Call}
    (hcall : call.Sound) (d : ℕ) : (Function.update calls c call d).Sound := by
  by_cases heq : d = c
  · rw [heq, Function.update_self]
    exact hcall
  · rw [Function.update_of_ne heq]
    exact h d

theorem uses_enter {calls : ℕ → Call} {users : ℕ → ℕ} {c f : ℕ} {call : Call}
    (h : ∀ g, Counts (Call.Uses g) calls (users g)) (hold : ∀ g, ¬ (calls c).Uses g)
    (hnew : ∀ g, call.Uses g ↔ f = g) (g : ℕ) :
    Counts (Call.Uses g) (Function.update calls c call)
      (Function.update users f (users f + 1) g) := by
  by_cases heq : g = f
  · rw [heq, Function.update_self]
    exact (h f).enters (hold f) ((hnew f).mpr rfl)
  · rw [Function.update_of_ne heq]
    exact (h g).stays (iff_of_false (fun hg => heq ((hnew g).mp hg).symm) (hold g))

theorem uses_leave {calls : ℕ → Call} {users : ℕ → ℕ} {c f : ℕ} {call : Call}
    (h : ∀ g, Counts (Call.Uses g) calls (users g)) (hold : (calls c).Uses f)
    (hnew : ∀ g, ¬ call.Uses g) (g : ℕ) :
    Counts (Call.Uses g) (Function.update calls c call)
      (Function.update users f (users f - 1) g) := by
  by_cases heq : g = f
  · rw [heq, Function.update_self]
    exact (h f).leaves hold (hnew f)
  · rw [Function.update_of_ne heq]
    exact (h g).stays (iff_of_false (hnew g) fun hg => heq (hg.unique hold))

theorem Held.does (h : s.Held) (hdoes : s.Does e s') : s'.Held := by
  have ⟨hsound, huses, husers, hfds, hopening, hderegistered, ⟨n, hopened, hkref⟩, hfrees⟩ := h
  cases hdoes with
  | @openFind f hdata hfile =>
      have hne : s.files f ≠ .opened := by simp [hfile]
      refine ⟨hsound, huses, fun g hg => opened_update hne (husers g hg),
        fun g hg => opened_update hne (hfds g hg), hopening.enters (by simp [hfile]) rfl,
        fun hbus => ?_, ⟨n, hopened.stays (by simp [hfile]), hkref⟩, hfrees⟩
      simp [setFile, Bus.phase_of_hasIntfdata hdata] at hbus
  | @openFail f hfile =>
      have hne : s.files f ≠ .opened := by simp [hfile]
      refine ⟨hsound, huses, fun g hg => opened_update hne (husers g hg),
        fun g hg => opened_update hne (hfds g hg), hopening.leaves hfile nofun,
        fun hbus => ?_, ⟨n, hopened.stays (by simp [hfile]), hkref⟩, hfrees⟩
      exact Nat.sub_eq_zero_of_le (hderegistered hbus ▸ Nat.zero_le 1)
  | @openGet f hfile =>
      have hne : s.files f ≠ .opened := by simp [hfile]
      refine ⟨hsound, huses, fun g hg => opened_update hne (husers g hg), fun g hg => ?_,
        hopening.leaves hfile nofun, fun hbus => ?_, ⟨n + 1, hopened.enters hne rfl, ?_⟩, ?_⟩
      · by_cases heq : g = f
        · rw [heq]
          exact Function.update_self f _ _
        · exact opened_update hne (hfds g (by simpa [heq] using hg))
      · exact Nat.sub_eq_zero_of_le (hderegistered hbus ▸ Nat.zero_le 1)
      · exact (congrArg (· + 1) hkref).trans (Nat.add_right_comm n _ 1)
      · exact (h.alive_of_opening hfile).trans (if_neg (Nat.succ_ne_zero _)).symm
  | @dup f hfd =>
      refine ⟨hsound, huses, husers, fun g hg => ?_, hopening, hderegistered,
        ⟨n, hopened, hkref⟩, hfrees⟩
      by_cases heq : g = f
      · exact hfds g (heq ▸ hfd.ne')
      · exact hfds g (by simpa [heq] using hg)
  | @close f hfd =>
      refine ⟨hsound, huses, husers, fun g hg => ?_, hopening, hderegistered,
        ⟨n, hopened, hkref⟩, hfrees⟩
      by_cases heq : g = f
      · exact hfds g (heq ▸ hfd.ne')
      · exact hfds g (by simpa [heq] using hg)
  | @release f hfile hfd hunused =>
      have hpos := hopened.ne_zero hfile
      refine ⟨hsound, huses, fun g hg => ?_, fun g hg => ?_, hopening.stays (by simp [hfile]),
        hderegistered, ⟨n - 1, hopened.leaves hfile nofun, ?_⟩, ?_⟩
      · have hne : g ≠ f := fun heq => hg (heq ▸ hunused)
        exact (Function.update_of_ne hne _ _).trans (husers g hg)
      · have hne : g ≠ f := fun heq => hg (heq ▸ hfd)
        exact (Function.update_of_ne hne _ _).trans (hfds g hg)
      · exact (congrArg (· - 1) hkref).trans (Nat.sub_add_comm (Nat.pos_of_ne_zero hpos))
      · exact frees_put (hkref ▸ Nat.add_pos_left (Nat.pos_of_ne_zero hpos) _)
          (h.alive_of_opened hfile)
  | @enter _ c f call hbegins habsent hfd =>
      have hfresh := hbegins.fresh
      refine ⟨sound_update hsound hfresh.sound,
        uses_enter huses (habsent ▸ fun _ => id) hfresh.uses, fun g hg => ?_, hfds, hopening,
        hderegistered, ⟨n, hopened, hkref⟩, hfrees⟩
      · by_cases heq : g = f
        · exact heq ▸ hfds f hfd.ne'
        · exact husers g (by simpa [heq] using hg)
  | @inCall c e k call hstep =>
      have hmoves : (s.calls c).Moves c s.skel k call :=
        (Call.step_moves s.skel (hsound c) e).of_ok hstep
      have hcall := (Call.step_sound s.skel (hsound c) e).of_ok hstep
      exact ⟨sound_update hsound hcall, fun g => (huses g).stays (hmoves.uses g), husers, hfds,
        hopening, hderegistered, ⟨n, hopened, hmoves.kref.trans hkref⟩, hmoves.kref ▸ hfrees⟩
  | @hcd c f e k w w' hcall hstep =>
      have hw : (Call.write f w).Sound := hcall ▸ hsound c
      have hcompletes : w.Completes s.skel k w' := (hcdStep_completes s.skel w rfl e).of_ok hstep
      have hw' := (hcdStep_sound s.skel hw rfl e).of_ok hstep
      refine ⟨sound_update hsound hw', fun g => (huses g).stays ?_, husers, hfds, hopening,
        hderegistered, ⟨n, hopened, hcompletes.kref.trans hkref⟩, hcompletes.kref ▸ hfrees⟩
      simp only [hcall, Call.Uses, hcompletes.pc]
  | @finish c f call hfinish =>
      have hends := Call.finish_ends hfinish
      have hpos := (huses f).ne_zero hends.uses
      refine ⟨sound_update hsound (hends.sound (hsound c)),
        uses_leave huses hends.uses hends.unused, fun g hg => ?_, hfds, hopening,
        hderegistered, ⟨n, hopened, hkref⟩, hfrees⟩
      · by_cases heq : g = f
        · exact heq ▸ husers f hpos
        · exact husers g (by simpa [heq] using hg)
  | @completeRead status data length hflight hlength =>
      have hsame := (s.skel.readCallback_same status data).1
      exact ⟨hsound, huses, husers, hfds, hopening, hderegistered,
        ⟨n, hopened, hsame.trans hkref⟩, hsame ▸ hfrees⟩
  | wakeReaders hcallbacks =>
      exact ⟨hsound, huses, husers, hfds, hopening, hderegistered, ⟨n, hopened, hkref⟩, hfrees⟩
  | @inBus e k bus hstep =>
      have hmoves : s.bus.Moves s.skel k bus := (busStep_moves s.skel s.bus e).of_ok hstep
      obtain ⟨hbefore, hafter⟩ := hmoves.notGone
      refine ⟨hsound, huses, husers, hfds, hopening,
        fun hbus => hderegistered (hmoves.deregistered hbus), ⟨n, hopened, ?_⟩,
        hmoves.kref ▸ hfrees⟩
      simp only [hmoves.kref, hkref, ofInterface, if_neg hbefore.ne, if_neg hafter.ne]
  | deregister hbus hopeners =>
      refine ⟨hsound, huses, husers, hfds, hopening, fun _ => hopeners, ⟨n, hopened, ?_⟩, hfrees⟩
      simpa [ofInterface, hbus, Bus.phase] using hkref
  | putInterface hbus =>
      have hphase : s.bus.phase = 5 := by rw [hbus]; rfl
      rw [ofInterface, if_neg (by omega)] at hkref
      refine ⟨hsound, huses, husers, hfds, hopening, fun _ => hderegistered (by omega),
        ⟨n, hopened, ?_⟩, ?_⟩
      · exact congrArg (· - 1) hkref
      · exact frees_put (hkref ▸ n.succ_pos) (h.alive_of_interface (by omega))

/-! ## What a disconnect has waited for -/

/-- Who is inside `io_mutex`. -/
def Inside (s : World) : Owner → Prop
  | .call c => (s.calls c).Inside
  | .bus => s.bus.Inside

structure Quiet (s : World) : Prop where
  guards : Lock.Guards s.skel.ioMutex s.Inside
  window : ∀ c, (s.calls c).MaySubmit → s.skel.disconnected = false
  underWay : Counts Call.UnderWay s.calls s.skel.submitted
  marked : 3 ≤ s.bus.phase → s.skel.disconnected = true
  reads : 4 ≤ s.bus.phase → s.skel.bulkInUrb.Idle
  writes : 5 ≤ s.bus.phase → s.skel.submitted = 0

theorem initial_quiet (maxPacketSize : BitVec 16) (content : ℕ → UInt8) :
    (initial maxPacketSize content).Quiet where
  guards := Lock.guards_none fun p => by cases p <;> exact id
  window _ := False.elim
  underWay := counts_zero fun _ => id
  marked := nofun
  reads := nofun
  writes := nofun

theorem inside_setCall {call : Call} {c : ℕ} {q : Owner} (hq : q ≠ .call c) (k : Skel):
    Inside { s.setCall c call with skel := k } q ↔ s.Inside q := by
  cases q with
  | bus => exact Iff.rfl
  | call d =>
      have hne : d ≠ c := fun heq => hq (heq ▸ rfl)
      simp [Inside, setCall, hne]

theorem guards_setCall {c : ℕ} {call : Call} {k : Skel}
    (h : Lock.Guards s.skel.ioMutex s.Inside)
    (hmove : Lock.Move (Owner.call c) (s.calls c).Inside call.Inside s.skel.ioMutex k.ioMutex) :
    Lock.Guards k.ioMutex (Inside { s.setCall c call with skel := k }) := by
  have hself : Lock.Move (Owner.call c) (s.Inside (.call c))
      (Inside { s.setCall c call with skel := k } (.call c)) s.skel.ioMutex k.ioMutex := by
    simpa [Inside, setCall] using hmove
  exact h.move hself fun q hq => inside_setCall hq k

theorem window_update {calls : ℕ → Call} {p : Prop} (h : ∀ c, (calls c).MaySubmit → p)
    {c : ℕ} {call : Call} (hcall : call.MaySubmit → p) (d : ℕ)
    (hd : (Function.update calls c call d).MaySubmit) : p := by
  by_cases heq : d = c
  · rw [heq, Function.update_self] at hd
    exact hcall hd
  · rw [Function.update_of_ne heq] at hd
    exact h d hd

theorem Quiet.does (h : s.Quiet) (hsound : ∀ c, (s.calls c).Sound) (hdoes : s.Does e s') :
    s'.Quiet := by
  have ⟨hguards, hwindow, hunderWay, hmarked, hreads, hwrites⟩ := h
  cases hdoes with
  | openFind hdata hfile => exact ⟨hguards, hwindow, hunderWay, hmarked, hreads, hwrites⟩
  | openFail hfile => exact ⟨hguards, hwindow, hunderWay, hmarked, hreads, hwrites⟩
  | openGet hfile => exact ⟨hguards, hwindow, hunderWay, hmarked, hreads, hwrites⟩
  | dup hfd => exact ⟨hguards, hwindow, hunderWay, hmarked, hreads, hwrites⟩
  | close hfd => exact ⟨hguards, hwindow, hunderWay, hmarked, hreads, hwrites⟩
  | release hfile hfd husers => exact ⟨hguards, hwindow, hunderWay, hmarked, hreads, hwrites⟩
  | @enter _ c f call hbegins habsent hfd =>
      have hfresh := hbegins.fresh
      refine ⟨guards_setCall hguards (.stays (iff_of_false hfresh.inside ?_)),
        window_update hwindow fun h => absurd h hfresh.window,
        hunderWay.stays (iff_of_false hfresh.underWay ?_), hmarked, hreads, hwrites⟩
      all_goals
        rw [habsent]
        exact id
  | @inCall c e k call hstep =>
      have hmoves : (s.calls c).Moves c s.skel k call :=
        (Call.step_moves s.skel (hsound c) e).of_ok hstep
      -- a call that may still submit has found the device there, and no mark has come since
      have hearly : (s.calls c).MaySubmit → ¬ 3 ≤ s.bus.phase := fun hmay hbus =>
        Bool.false_ne_true ((hwindow c hmay).symm.trans (hmarked hbus))
      refine ⟨guards_setCall hguards hmoves.lock, ?_, hunderWay.move hmoves.underWay, ?_, ?_, ?_⟩
      · rw [hmoves.disconnected]
        exact window_update hwindow fun h => (hmoves.window h).elim (hwindow c) id
      · exact fun hbus => hmoves.disconnected.trans (hmarked hbus)
      · intro hbus
        refine hmoves.reads.elim (fun h => h ▸ hreads hbus) fun h => absurd ?_ (hearly h)
        exact Nat.le_of_succ_le hbus
      · intro hbus
        refine hmoves.writes.elim (fun h => h.trans (hwrites hbus)) fun h => absurd ?_ (hearly h)
        exact Nat.le_trans (by decide) hbus
  | @hcd c f e k w w' hcall hstep =>
      have hcompletes : w.Completes s.skel k w' := (hcdStep_completes s.skel w rfl e).of_ok hstep
      have hinside : (s.calls c).Inside ↔ w'.pc.Inside := by
        rw [hcall, hcompletes.pc]
        exact Iff.rfl
      have hmay : (s.calls c).MaySubmit ↔ w'.pc.MaySubmit := by
        rw [hcall, hcompletes.pc]
        exact Iff.rfl
      refine ⟨guards_setCall hguards ?_, ?_, hunderWay.move ?_, ?_, ?_, fun hbus => ?_⟩
      · rw [hcompletes.ioMutex]
        exact .stays hinside.symm
      · rw [hcompletes.disconnected]
        exact window_update hwindow fun h => hwindow c (hmay.mpr h)
      · rw [hcall]
        exact hcompletes.underWay f
      · exact fun hbus => hcompletes.disconnected.trans (hmarked hbus)
      · exact fun hbus => hcompletes.bulkInUrb ▸ hreads hbus
      · exact Nat.eq_zero_of_le_zero (hwrites hbus ▸ hcompletes.submitted)
  | @finish c f call hfinish =>
      have hends := Call.finish_ends hfinish
      exact ⟨guards_setCall hguards (.stays (iff_of_false hends.after.inside hends.before.inside)),
        window_update hwindow fun h => absurd h hends.after.window, hunderWay.stays hends.underWay,
        hmarked, hreads, hwrites⟩
  | @completeRead status data length hflight hlength =>
      obtain ⟨-, -, hsubmitted, hmutex, hdisc⟩ := s.skel.readCallback_same status data
      refine ⟨hmutex ▸ hguards, hdisc ▸ hwindow, hsubmitted ▸ hunderWay, hdisc ▸ hmarked,
        fun hbus => ?_, hsubmitted ▸ hwrites⟩
      exact absurd (hflight.symm.trans (hreads hbus).1) nofun
  | wakeReaders hcallbacks =>
      refine ⟨hguards, hwindow, hunderWay, hmarked, fun hbus => ?_, hwrites⟩
      exact absurd (hreads hbus).2 hcallbacks.ne'
  | @inBus e k bus hstep =>
      have hmoves : s.bus.Moves s.skel k bus := (busStep_moves s.skel s.bus e).of_ok hstep
      have hlock : Lock.Move Owner.bus (s.Inside .bus)
        (Inside { s with skel := k, bus := bus } .bus) s.skel.ioMutex k.ioMutex := hmoves.lock
      refine ⟨hguards.move hlock fun q hq => ?_, fun c hmay => ?_, ?_, fun hbus => ?_,
        fun hbus => ?_, fun hbus => ?_⟩
      · cases q with
        | call c => exact Iff.rfl
        | bus => exact absurd rfl hq
      · refine hmoves.disconnected.elim (fun h => h.trans (hwindow c hmay)) fun hbus => ?_
        have hcall : s.Inside (.call c) := hmay.inside
        have hbus' : s.Inside .bus := hbus
        exact absurd (hguards.unique hcall hbus') nofun
      · exact hmoves.submitted ▸ hunderWay
      · refine (hmoves.marked hbus).elim id fun h => h.2.trans (hmarked h.1)
      · rw [hmoves.bulkInUrb]
        exact (hmoves.readKilled hbus).elim hreads id
      · rw [hmoves.submitted]
        exact (hmoves.killed hbus).elim hwrites id
  | deregister hbus hopeners =>
      refine ⟨hguards.congr fun q => ?_, hwindow, hunderWay, nofun, nofun, nofun⟩
      cases q with
      | call c => exact Iff.rfl
      | bus => exact iff_of_false id (hbus ▸ id : ¬ s.bus.Inside)
  | putInterface hbus =>
      have hphase : s.bus.phase = 5 := by rw [hbus]; rfl
      refine ⟨hguards.congr fun q => ?_, hwindow, hunderWay, fun _ => hmarked (by omega),
        fun _ => hreads (by omega), fun _ => hwrites (by omega)⟩
      cases q with
      | call c => exact Iff.rfl
      | bus => exact iff_of_false id (hbus ▸ id : ¬ s.bus.Inside)

/-! ## Runs -/

structure Inv (s : World) : Prop where
  held : s.Held
  quiet : s.Quiet

theorem hcdStep_underWay {c : ℕ} {e : HcdEvent} {k : Skel} {w : WriteCall} {hcd : Hcd}
    {r : Skel × WriteCall} (he : (Event.hcd c e).touches) (hstep : hcdStep k w hcd e = .ok r) :
    hcd.UnderWay := by
  cases e with
  | giveback status =>
      cases hcd with
      | inFlight => trivial
      | _ => cases hstep
  | freeBuffer => cases he
  | put => cases he
  | note =>
      cases hcd with
      | reporting status => trivial
      | _ => cases hstep
  | up =>
      cases hcd with
      | upping => trivial
      | _ => cases hstep

theorem Held.alive_of_uses (h : s.Held) {c f : ℕ} (huses : (s.calls c).Uses f) : s.frees = 0 :=
  h.alive_of_opened (h.users f ((h.uses f).ne_zero huses))

theorem Inv.alive_of_urb (h : s.Inv) (hurb : ¬ s.skel.bulkInUrb.Idle) : s.frees = 0 := by
  refine h.held.alive_of_interface ?_
  by_contra hbus
  exact hurb (h.quiet.reads (by omega))

theorem Inv.alive_of_underWay (h : s.Inv) {c : ℕ} (hc : (s.calls c).UnderWay) : s.frees = 0 := by
  refine h.held.alive_of_interface ?_
  by_contra hbus
  exact h.quiet.underWay.ne_zero hc (h.quiet.writes (by omega))

/-- Whoever uses the `usb_skel` has a reference to it. -/
theorem Inv.alive_of_touches (h : s.Inv) (hdoes : s.Does e s') (he : e.touches) :
    s.frees = 0 := by
  cases hdoes with
  | openFind hdata hfile => cases he
  | openFail hfile => cases he
  | openGet hfile => exact h.held.alive_of_opening hfile
  | dup hfd => cases he
  | close hfd => cases he
  | release hfile hfd husers => exact h.held.alive_of_opened hfile
  | enter hbegins habsent hfd => cases hbegins <;> cases he
  | @inCall c e k call hstep =>
      have hmoves : (s.calls c).Moves c s.skel k call :=
        (Call.step_moves s.skel (h.held.sound c) e).of_ok hstep
      obtain ⟨f, hf⟩ := hmoves.busy
      exact h.held.alive_of_uses hf
  | @hcd c f e k w w' hcall hstep =>
      have hunderWay : (Call.write f w).UnderWay := hcdStep_underWay he hstep
      exact h.alive_of_underWay (hcall ▸ hunderWay)
  | finish hfinish => cases he
  | completeRead hflight hlength =>
      exact h.alive_of_urb fun hidle => nomatch hflight.symm.trans hidle.1
  | wakeReaders hcallbacks => exact h.alive_of_urb fun hidle => hcallbacks.ne' hidle.2
  | @inBus e k bus hstep =>
      have hmoves : s.bus.Moves s.skel k bus := (busStep_moves s.skel s.bus e).of_ok hstep
      exact h.held.alive_of_interface hmoves.notGone.1
  | deregister hbus hopeners => exact h.held.alive_of_interface (by rw [hbus]; decide)
  | putInterface hbus => exact h.held.alive_of_interface (by rw [hbus]; decide)

theorem step_does (h : s.Inv) (e : Event) : Safely (s.Does e) (s.step e) := by
  refine (move_does h.held.sound e).bind fun s' hdoes => ?_
  have hne : ¬ (e.touches ∧ s.frees ≠ 0) := fun ⟨he, hfrees⟩ => hfrees (h.alive_of_touches hdoes he)
  rw [if_neg hne]
  exact hdoes

theorem Inv.step_of_move (h : s.Inv) (hmove : s.move e = .ok s') : s.step e = .ok s' := by
  have hdoes := (move_does h.held.sound e).of_ok hmove
  have hne : ¬ (e.touches ∧ s.frees ≠ 0) := fun ⟨he, hfrees⟩ => hfrees (h.alive_of_touches hdoes he)
  rw [World.step, hmove, ok_bind, if_neg hne]

theorem Inv.step (h : s.Inv) (hstep : s.step e = .ok s') : s'.Inv :=
  have hdoes := (step_does h e).of_ok hstep
  ⟨h.held.does hdoes, h.quiet.does h.held.sound hdoes⟩

theorem initial_inv (maxPacketSize : BitVec 16) (content : ℕ → UInt8) :
    (initial maxPacketSize content).Inv :=
  ⟨initial_held maxPacketSize content, initial_quiet maxPacketSize content⟩

theorem Bus.phase_eq_six {bus : Bus} : bus.phase = 6 ↔ bus = .gone := by
  cases bus <;> simp [Bus.phase]

theorem Held.frees_eq (h : s.Held) :
    s.frees ≤ 1 ∧ (s.frees = 1 ↔ s.bus = .gone ∧ ∀ f, s.files f ≠ .opened) := by
  obtain ⟨n, hcount, hkref⟩ := h.opened
  have hnone : n = 0 ↔ ∀ f, s.files f ≠ .opened :=
    ⟨fun hn => (hn ▸ hcount).forall_not, hcount.eq_zero⟩
  have hgone : s.ofInterface = 0 ↔ s.bus = .gone := by
    rw [← Bus.phase_eq_six, ofInterface]
    split <;> simp [*]
  rw [h.frees, ← hnone, ← hgone]
  split <;> omega

end World

/-- No step of any run uses the device, a request or a buffer after it was freed, or frees one
twice; and the device is freed when its disconnect is through and no file is open any more. -/
theorem skel_delete_last (maxPacketSize : BitVec 16) (content : ℕ → UInt8) (es : List Event) :
    Runs.exec World.step (.initial maxPacketSize content) es ≠ .error .useAfterFree ∧
      Runs.Always World.step
        (fun s => s.frees ≤ 1 ∧ (s.frees = 1 ↔ s.bus = .gone ∧ ∀ f, s.files f ≠ .opened))
        (.initial maxPacketSize content) es := by
  have hkeep : ∀ s e s', World.Inv s → s.step e = .ok s' → s'.Inv := fun s e s' hs => hs.step
  have hinit := World.initial_inv maxPacketSize content
  constructor
  · refine Runs.exec_ne_error (fun s e hs hstep => ?_) hkeep hinit es
    exact nomatch (World.step_does hs e).of_error hstep
  · exact Runs.always_of_inv (fun s hs => hs.held.frees_eq) hkeep hinit es

/-- What has been killed stays so, whatever the calls go on with. -/
theorem disconnect_stops_io (maxPacketSize : BitVec 16) (content : ℕ → UInt8) (es : List Event) :
    Runs.Always World.step
      (fun s => s.bus = .killed ∨ s.bus = .gone →
        s.skel.disconnected = true ∧ s.skel.bulkInUrb.Idle ∧
          ∀ c, ¬ (s.calls c).MaySubmit ∧ ¬ (s.calls c).UnderWay)
      (.initial maxPacketSize content) es := by
  have hkeep : ∀ s e s', World.Inv s → s.step e = .ok s' → s'.Inv := fun s e s' hs => hs.step
  refine Runs.always_of_inv (fun s hs hbus => ?_) hkeep (World.initial_inv maxPacketSize content) es
  have hphase : 5 ≤ s.bus.phase := by
    rcases hbus with hbus | hbus
    · exact hbus ▸ Nat.le_refl 5
    · exact hbus ▸ Nat.le_succ 5
  have hmarked := hs.quiet.marked (by omega)
  refine ⟨hmarked, hs.quiet.reads (by omega), fun c => ⟨fun hmay => ?_, fun hunderWay => ?_⟩⟩
  · exact Bool.false_ne_true ((hs.quiet.window c hmay).symm.trans hmarked)
  · exact hs.quiet.underWay.ne_zero hunderWay (hs.quiet.writes hphase)

end LddSamples.Usb
