import LddSamples.Usb.Lifetime

/-!
# Writes: the throttle and what is sent

A write takes one of the tokens of `limit_sem` before it allocates anything, and the token goes
back after the buffer, by the writer itself or by the callback. What the device was sent by a
write follows from whether its request was submitted.
-/

namespace LddSamples.Usb

open Kernel Outcome Census

namespace World

variable {s s' : World} {e : Event}

/-! ## The throttle -/

def Throttled (s : World) : Prop := Pool Call.HoldsToken s.calls WRITES_IN_FLIGHT s.skel.limitSem

theorem Throttled.does (h : s.Throttled) (hsound : ∀ c, (s.calls c).Sound) (hdoes : s.Does e s') :
    s'.Throttled := by
  cases hdoes with
  | @enter _ c f call hbegins habsent hfd =>
      have habsent' : ¬ (s.calls c).HoldsToken := by
        rw [habsent]
        exact id
      exact h.draw (.stays (iff_of_false hbegins.fresh.token habsent'))
  | @inCall c e k call hstep =>
      have hmoves : (s.calls c).Moves c s.skel k call :=
        (Call.step_moves s.skel (hsound c) e).of_ok hstep
      exact h.draw hmoves.limit
  | @hcd c f e k w w' hcall hstep =>
      have hcompletes : w.Completes s.skel k w' := (hcdStep_completes s.skel w rfl e).of_ok hstep
      exact h.draw (hcall ▸ hcompletes.limit f)
  | finish hfinish => exact h.draw (.stays (Call.finish_ends hfinish).token)
  | @completeRead status data length hflight hlength =>
      have hlimit := (s.skel.readCallback_same status data).2.1
      simpa only [Throttled, hlimit] using h
  | @inBus e k bus hstep =>
      have hmoves : s.bus.Moves s.skel k bus := (busStep_moves s.skel s.bus e).of_ok hstep
      simpa only [Throttled, hmoves.limitSem] using h
  | _ => exact h

end World

theorem WritePc.Unsent.throttled {data : List UInt8} {urb : Urb} {pc : WritePc}
    (h : pc.Unsent data urb .held) : pc.Throttled := by
  cases pc with
  | downing => exact nomatch h.2
  | leaving retval => exact h.2.2 rfl
  | returned retval => exact h.2.2 rfl
  | _ => trivial

theorem Hcd.Holds.underWay {hcd : Hcd} (h : hcd.Holds) : hcd.UnderWay := by
  cases hcd with
  | inFlight => trivial
  | reporting status => trivial
  | freeing => trivial
  | _ => exact absurd h id

/-- A write that has a buffer has a token for it. -/
theorem WriteCall.Sound.holdsToken {w : WriteCall} (hw : w.Sound) (hbuf : w.buf = .held) :
    w.HoldsToken := by
  by_cases hhcd : w.hcd = .never
  · have hunsent := hw.unsent hhcd
    rw [hbuf] at hunsent
    exact (WriteCall.holdsToken_of_never w hhcd).mpr hunsent.throttled
  · rw [WriteCall.holdsToken_of_sent w hhcd]
    by_contra hnot
    have hfreed := (hw.sent hhcd).buf.2 fun hholds => hnot hholds.underWay
    exact nomatch hbuf.symm.trans hfreed

/-- At no time do more than `WRITES_IN_FLIGHT` writes have a buffer, and when no write is
between its `down` and its `up` all the tokens are back. -/
theorem limit_sem_bounds_buffers (maxPacketSize : BitVec 16) (content : ℕ → UInt8)
    (es : List Event) :
    Runs.Always World.step
      (fun s =>
        (∀ writes : Finset ℕ, (∀ c ∈ writes, ∃ f w, s.calls c = .write f w ∧ w.buf = .held) →
          writes.card ≤ WRITES_IN_FLIGHT) ∧
        ((∀ c f w, s.calls c = .write f w → ¬ w.HoldsToken) →
          s.skel.limitSem = WRITES_IN_FLIGHT))
      (.initial maxPacketSize content) es := by
  have hkeep : ∀ s e s', s.Inv ∧ s.Throttled → World.step s e = .ok s' → s'.Inv ∧ s'.Throttled :=
    fun s e s' ⟨hs, hthrottled⟩ hstep =>
      ⟨hs.step hstep, hthrottled.does hs.held.sound ((World.step_does hs e).of_ok hstep)⟩
  have hinit : World.Throttled (.initial maxPacketSize content) := pool_full fun _ => id
  refine Runs.always_of_inv (fun s ⟨hs, hthrottled⟩ => ⟨fun writes hheld => ?_, fun hnone => ?_⟩)
    hkeep ⟨World.initial_inv maxPacketSize content, hinit⟩ es
  · refine hthrottled.card_le fun c hc => ?_
    obtain ⟨f, w, hcall, hbuf⟩ := hheld c hc
    have hw : (Call.write f w).Sound := hcall ▸ hs.held.sound c
    rw [hcall]
    exact WriteCall.Sound.holdsToken hw hbuf
  · refine hthrottled.full_of_none fun c hc => ?_
    cases hcall : s.calls c with
    | write f w =>
        rw [hcall] at hc
        exact hnone c f w hcall hc
    | _ =>
        rw [hcall] at hc
        exact hc

/-! ## What is sent -/

/-- The transfers that the device was sent by write `c`. -/
def sentBy (c : ℕ) (sent : List (ℕ × List UInt8)) : List (List UInt8) :=
  (sent.filter fun transfer => transfer.1 = c).map Prod.snd

theorem sentBy_append_of_ne {c d : ℕ} (h : d ≠ c) (sent : List (ℕ × List UInt8))
    (bytes : List UInt8) : sentBy d (sent ++ [(c, bytes)]) = sentBy d sent := by
  simp [sentBy, h.symm]

theorem sentBy_append (c : ℕ) (sent : List (ℕ × List UInt8)) (bytes : List UInt8) :
    sentBy c (sent ++ [(c, bytes)]) = sentBy c sent ++ [bytes] := by
  simp [sentBy]

/-- What a call has to have sent, by where it stands. -/
def Call.sends : Call → List (List UInt8)
  | .write _ w =>
      match w.hcd with
      | .never => []
      | _ => [w.data.take w.writesize]
  | _ => []

/-- A step sends nothing, or all that its call has to send. -/
def Call.SendsOn (c : ℕ) (k : Skel) (call : Call) (k' : Skel) (call' : Call) : Prop :=
  k'.sent = k.sent ∧ call'.sends = call.sends ∨
    ∃ bytes, k'.sent = k.sent ++ [(c, bytes)] ∧ call.sends = [] ∧ call'.sends = [bytes]

theorem readStep_sends (c : ℕ) (k : Skel) (args : ReadArgs) (pc : ReadPc) (e : ReadEvent) :
    Yields (fun r => r.1.sent = k.sent) (readStep c args k pc e) := by
  unfold readStep
  split
  all_goals first
    | trivial
    | exact meets_ok rfl
    | exact meets_ite (fun _ => meets_ok rfl) fun _ => meets_ok rfl
    | exact meets_ite (fun _ => meets_ok rfl) fun _ => trivial
    | exact meets_ite (fun _ => trivial) fun _ => meets_ok rfl

theorem flushStep_sends (c : ℕ) (k : Skel) (pc : FlushPc) (e : FlushEvent) :
    Yields (fun r => r.1.sent = k.sent) (flushStep c k pc e) := by
  unfold flushStep
  split
  all_goals first
    | trivial
    | exact meets_ok rfl
    | exact meets_ite (fun _ => meets_ok rfl) fun _ => meets_ok rfl
    | exact meets_ite (fun _ => meets_ok rfl) fun _ => trivial

theorem WriteCall.sends_of_sent (f : ℕ) {w : WriteCall} (h : w.hcd ≠ .never) :
    (Call.write f w).sends = [w.data.take w.writesize] := by
  cases hhcd : w.hcd with
  | never => exact absurd hhcd h
  | _ => simp only [Call.sends, hhcd]

theorem writeStep_sends (c : ℕ) (k : Skel) (f : ℕ) {w : WriteCall} (hw : w.Sound) {pc : WritePc}
    (hpc : w.pc = pc) (e : WriteEvent) :
    Yields (fun r => (Call.write f w).SendsOn c k r.1 (.write f r.2)) (writeStep c k w pc e) := by
  have hgo : ∀ k' : Skel, ∀ w' : WriteCall, k'.sent = k.sent → w'.hcd = w.hcd → w'.data = w.data →
      Yields (fun r => (Call.write f w).SendsOn c k r.1 (.write f r.2)) (.ok (k', w')) := by
    intro k' w' hsent hhcd hdata
    refine .inl ⟨hsent, ?_⟩
    simp only [Call.sends, hhcd, hdata, WriteCall.writesize]
  unfold writeStep
  split
  case h_9 =>
    have hhcd : w.hcd = .never := hw.never_of (hpc ▸ id)
    refine meets_ite (fun _ => .inr ⟨_, rfl, ?_, rfl⟩) fun _ => hgo _ _ rfl rfl rfl
    simp only [Call.sends, hhcd]
  all_goals first
    | trivial
    | exact hgo _ _ rfl rfl rfl
    | exact hgo _ _ rfl (by split <;> rfl) (by split <;> rfl)
    | exact meets_ite (fun _ => hgo _ _ rfl rfl rfl) fun _ => hgo _ _ rfl rfl rfl
    | exact meets_ite (fun _ => hgo _ _ rfl rfl rfl) fun _ =>
        meets_ite (fun _ => hgo _ _ rfl rfl rfl) fun _ => trivial
    | exact meets_ite (fun _ => trivial) fun _ => hgo _ _ rfl rfl rfl
    | exact meets_ite (fun _ => meets_ite (fun _ => hgo _ _ rfl rfl rfl) fun _ =>
        hgo _ _ rfl rfl rfl) fun _ => trivial
    | exact (meets_of_ok fun _ _ => trivial).bind fun _ _ => hgo _ _ rfl rfl rfl

theorem Call.step_sends (c : ℕ) (k : Skel) {call : Call} (hcall : call.Sound) (e : CallEvent) :
    Yields (fun r => call.SendsOn c k r.1 r.2) (call.step c k e) := by
  unfold Call.step
  split
  · exact (readStep_sends c k _ _ _).bind fun _ h => .inl ⟨h, rfl⟩
  · exact (writeStep_sends c k _ hcall rfl _).bind fun _ h => h
  · exact (flushStep_sends c k _ _).bind fun _ h => .inl ⟨h, rfl⟩
  · trivial

theorem hcdStep_sends (k : Skel) (w : WriteCall) {hcd : Hcd} (hhcd : w.hcd = hcd)
    (e : HcdEvent) :
    Yields (fun r => r.1.sent = k.sent ∧ w.hcd ≠ .never ∧ r.2.hcd ≠ .never)
      (hcdStep k w hcd e) := by
  rw [hhcd]
  unfold hcdStep
  split
  · refine (meets_of_ok fun _ _ => trivial).bind fun urb _ => ⟨rfl, nofun, ?_⟩
    dsimp only
    split <;> nofun
  · exact ⟨rfl, nofun, nofun⟩
  · exact (meets_of_ok fun _ _ => trivial).bind fun _ _ => ⟨rfl, nofun, nofun⟩
  · exact ⟨rfl, nofun, nofun⟩
  · exact (meets_of_ok fun _ _ => trivial).bind fun _ _ => ⟨rfl, nofun, nofun⟩
  · trivial

theorem busStep_sends (k : Skel) (bus : Bus) (e : BusEvent) :
    Yields (fun r => r.1.sent = k.sent) (busStep k bus e) := by
  unfold busStep
  split
  all_goals first
    | trivial
    | exact meets_ok rfl
    | exact meets_ite (fun _ => meets_ok rfl) fun _ => trivial

theorem Skel.readCallback_sends (k : Skel) (status : ℤ) (data : List UInt8) :
    (k.readCallback status data).sent = k.sent := by
  unfold readCallback
  split <;> rfl

theorem Call.Begins.sends {f c : ℕ} {e : Event} {call : Call} (h : Begins f e c call) :
    call.sends = [] := by
  cases h with
  | read c count nonblock => rfl
  | write c data nonblock => rfl
  | flush c => rfl

theorem Call.finish_sends {f : ℕ} {call call' : Call} (h : call.finish = some (f, call')) :
    call'.sends = call.sends := by
  unfold finish at h
  split at h
  · cases h
    rfl
  · split at h
    · cases h
      rfl
    · cases h
  · cases h
    rfl
  · cases h

def World.Sends (s : World) : Prop := ∀ c, sentBy c s.skel.sent = (s.calls c).sends

theorem World.Sends.update {s : World} (h : s.Sends) {c : ℕ} {k : Skel} {call : Call}
    (hon : (s.calls c).SendsOn c s.skel k call) (d : ℕ) :
    sentBy d k.sent = (Function.update s.calls c call d).sends := by
  by_cases heq : d = c
  · subst heq
    rw [Function.update_self]
    rcases hon with ⟨hsent, hsends⟩ | ⟨bytes, hsent, hsends, hsends'⟩
    · rw [hsent, hsends]
      exact h d
    · rw [hsent, sentBy_append, h d, hsends, hsends']
      rfl
  · rw [Function.update_of_ne heq, ← h d]
    rcases hon with ⟨hsent, -⟩ | ⟨bytes, hsent, -⟩
    · rw [hsent]
    · rw [hsent, sentBy_append_of_ne heq]

theorem World.Sends.does {s s' : World} {e : Event} (h : s.Sends)
    (hsound : ∀ c, (s.calls c).Sound) (hdoes : s.Does e s') : s'.Sends := by
  cases hdoes with
  | enter hbegins habsent hfd =>
      refine h.update (.inl ⟨rfl, ?_⟩)
      rw [hbegins.sends, habsent]
      rfl
  | @inCall c e k call hstep => exact h.update ((Call.step_sends c s.skel (hsound c) e).of_ok hstep)
  | @hcd c f e k w w' hcall hstep =>
      have hcompletes : w.Completes s.skel k w' := (hcdStep_completes s.skel w rfl e).of_ok hstep
      obtain ⟨hsent, hne, hne'⟩ := (hcdStep_sends s.skel w rfl e).of_ok hstep
      refine h.update (.inl ⟨hsent, ?_⟩)
      rw [hcall, WriteCall.sends_of_sent f hne', WriteCall.sends_of_sent f hne]
      simp only [WriteCall.writesize, hcompletes.data]
  | finish hfinish => exact h.update (.inl ⟨rfl, Call.finish_sends hfinish⟩)
  | @completeRead status data length hflight hlength =>
      simpa only [Sends, s.skel.readCallback_sends status data] using h
  | @inBus e k bus hstep =>
      have hsent : k.sent = s.skel.sent := (busStep_sends s.skel s.bus e).of_ok hstep
      simpa only [Sends, hsent] using h
  | _ => exact h

theorem WriteCall.Sound.writesize_pos {w : WriteCall} (hw : w.Sound) (hhcd : w.hcd ≠ .never) :
    0 < w.writesize := by
  have hdata : w.data ≠ [] := fun h => hhcd (hw.empty h).2
  exact Nat.lt_min.mpr ⟨List.length_pos_of_ne_nil hdata, by decide⟩

theorem WriteCall.Sound.result {w : WriteCall} (hw : w.Sound) {n : ℤ} (hpc : w.pc = .returned n)
    (f : ℕ) :
    (0 < n → n = min w.data.length MAX_TRANSFER ∧
        (Call.write f w).sends = [w.data.take n.toNat]) ∧
      (n ≤ 0 → (Call.write f w).sends = []) ∧
      (w.hcd = .never ∨ w.hcd = .over → w.urb.refs = 0 ∧ w.urb.frees ≤ 1 ∧ w.buf ≠ .held) := by
  by_cases hhcd : w.hcd = .never
  · have hunsent := hw.unsent hhcd
    rw [hpc] at hunsent
    obtain ⟨hn, ⟨hrefs, hfrees⟩, hbuf⟩ := hunsent
    refine ⟨fun hpos => ?_, fun _ => by simp only [Call.sends, hhcd],
      fun _ => ⟨hrefs, hfrees, hbuf⟩⟩
    rcases hn with hneg | ⟨hzero, -⟩
    · exact absurd hpos hneg.not_gt
    · exact absurd hzero hpos.ne'
  · obtain ⟨hn, hurb, hbuf⟩ := hw.sent hhcd
    rw [hpc] at hn hurb
    replace hn : n = w.writesize := hn
    have hpos := hw.writesize_pos hhcd
    refine ⟨fun _ => ⟨by rw [hn]; rfl, ?_⟩, fun hneg => by omega, fun hover => ?_⟩
    · rw [WriteCall.sends_of_sent f hhcd, hn, Int.toNat_natCast]
    · replace hover := hover.resolve_left hhcd
      rw [hover] at hurb hbuf
      rw [hurb, hbuf.2 id]
      exact ⟨rfl, Nat.le_refl 1, nofun⟩

/-- A write that returns `n > 0` has had its first `n` bytes sent, once, and one that returns an
error or 0 has sent nothing; and when the USB core is done with it, too, its request and its
buffer are gone. -/
theorem write_returns_what_it_sent (maxPacketSize : BitVec 16) (content : ℕ → UInt8)
    (es : List Event) :
    Runs.Always World.step
      (fun s => ∀ c f w n, s.calls c = .write f w → w.pc = .returned n →
        (0 < n → n = min w.data.length MAX_TRANSFER ∧
          sentBy c s.skel.sent = [w.data.take n.toNat]) ∧
        (n ≤ 0 → sentBy c s.skel.sent = []) ∧
        (w.hcd = .never ∨ w.hcd = .over → w.urb.refs = 0 ∧ w.urb.frees ≤ 1 ∧ w.buf ≠ .held))
      (.initial maxPacketSize content) es := by
  have hkeep : ∀ s e s', s.Inv ∧ s.Sends → World.step s e = .ok s' → s'.Inv ∧ s'.Sends :=
    fun s e s' ⟨hs, hsends⟩ hstep =>
      ⟨hs.step hstep, hsends.does hs.held.sound ((World.step_does hs e).of_ok hstep)⟩
  have hinit : World.Sends (.initial maxPacketSize content) := fun _ => rfl
  refine Runs.always_of_inv (fun s ⟨hs, hsends⟩ c f w n hcall hpc => ?_)
    hkeep ⟨World.initial_inv maxPacketSize content, hinit⟩ es
  have hw : (Call.write f w).Sound := hcall ▸ hs.held.sound c
  rw [hsends c, hcall]
  exact WriteCall.Sound.result hw hpc f

end LddSamples.Usb
