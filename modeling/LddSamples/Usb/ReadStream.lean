import LddSamples.Usb.Writes

/-!
# Reads take the stream in order

The buffer holds one transfer, and what of it no read was handed is still to come. A read that
looks at it has seen that no transfer is going on, and none starts but by a read that is inside
`io_mutex`. Where a copy faults its piece counts as handed.
-/

namespace LddSamples.Usb

open Kernel Outcome CArith

/-! ## The buffer -/

/-- What is in the buffer for the reads to come. -/
def Skel.rest (k : Skel) : List UInt8 :=
  ByteMap.window k.bulkInBuffer k.bulkInCopied (k.bulkInFilled - k.bulkInCopied)

structure Skel.Streams (k : Skel) : Prop where
  flight : ∀ length, k.bulkInUrb.flight = some length →
    k.ongoingRead = true ∧ length ≤ k.bulkInSize
  empty : k.ongoingRead = true → k.bulkInFilled = 0 ∧ k.bulkInCopied = 0
  copied : k.bulkInCopied ≤ k.bulkInFilled
  filled : k.bulkInFilled ≤ k.bulkInSize
  size : k.bulkInSize ≤ 2047
  stream : k.handed.flatMap Handed.bytes ++ k.rest = k.received

/-- What reads and their completions work on. -/
structure Skel.SameReads (k k' : Skel) : Prop where
  flight : k'.bulkInUrb.flight = k.bulkInUrb.flight
  buffer : k'.bulkInBuffer = k.bulkInBuffer
  size : k'.bulkInSize = k.bulkInSize
  filled : k'.bulkInFilled = k.bulkInFilled
  copied : k'.bulkInCopied = k.bulkInCopied
  ongoing : k'.ongoingRead = k.ongoingRead
  received : k'.received = k.received
  handed : k'.handed = k.handed

/-- The same, for a step that changes other fields only. -/
def Skel.reads (k : Skel) : Option ℕ × (ℕ → UInt8) × ℕ × ℕ × ℕ × Bool × List UInt8 × List Handed :=
  (k.bulkInUrb.flight, k.bulkInBuffer, k.bulkInSize, k.bulkInFilled, k.bulkInCopied, k.ongoingRead,
    k.received, k.handed)

theorem Skel.SameReads.of_eq {k k' : Skel} (h : k'.reads = k.reads) : k.SameReads k' := by
  simp only [Skel.reads, Prod.mk.injEq] at h
  obtain ⟨hurb, hbuffer, hsize, hfilled, hcopied, hongoing, hreceived, hhanded⟩ := h
  exact ⟨hurb, hbuffer, hsize, hfilled, hcopied, hongoing, hreceived, hhanded⟩

theorem Skel.Streams.congr {k k' : Skel} (h : k.Streams) (hsame : k.SameReads k') :
    k'.Streams := by
  obtain ⟨hurb, hbuffer, hsize, hfilled, hcopied, hongoing, hreceived, hhanded⟩ := hsame
  obtain ⟨h₁, h₂, h₃, h₄, h₅, h₆⟩ := h
  refine ⟨?_, ?_, ?_, ?_, ?_, ?_⟩
  · rwa [hurb, hongoing, hsize]
  · rwa [hongoing, hfilled, hcopied]
  · rwa [hcopied, hfilled]
  · rwa [hfilled, hsize]
  · rwa [hsize]
  · rwa [Skel.rest, hbuffer, hcopied, hfilled, hhanded, hreceived]

theorem Skel.Streams.available {k : Skel} (h : k.Streams) :
    k.available = k.bulkInFilled - k.bulkInCopied := by
  have hcopied := h.copied
  have hfilled := h.filled
  have hsize := h.size
  rw [Skel.available, ← Int.ofNat_sub hcopied]
  exact toUInt64_natCast (by omega)

/-- A piece from the front of the rest goes to a read. -/
theorem Skel.Streams.hand {k : Skel} (h : k.Streams) (reader : ℕ) {chunk : ℕ}
    (hchunk : chunk ≤ k.bulkInFilled - k.bulkInCopied) (hongoing : k.ongoingRead = false)
    (ok : Bool) : (k.hand reader chunk ok).Streams := by
  have hcopied := h.copied
  refine ⟨h.flight, fun h => ?_, ?_, h.filled, h.size, ?_⟩
  · exact absurd (hongoing.symm.trans h) Bool.false_ne_true
  · change k.bulkInCopied + chunk ≤ k.bulkInFilled
    omega
  · have hsplit : k.bulkInFilled - k.bulkInCopied =
        chunk + (k.bulkInFilled - (k.bulkInCopied + chunk)) := by omega
    have hstream := h.stream
    rw [Skel.rest, hsplit, ByteMap.window_add] at hstream
    simpa [Skel.hand, Skel.rest] using hstream

theorem Skel.Streams.readCallback {k : Skel} (h : k.Streams) {length : ℕ}
    (hflight : k.bulkInUrb.flight = some length) (status : ℤ) {data : List UInt8}
    (hdata : data.length ≤ length) : (k.readCallback status data).Streams := by
  obtain ⟨hongoing, hlength⟩ := h.flight length hflight
  obtain ⟨hfilled, hcopied⟩ := h.empty hongoing
  have hrest : k.handed.flatMap Handed.bytes = k.received := by
    rw [← h.stream, Skel.rest, hfilled, hcopied, ByteMap.window_zero, List.append_nil]
  unfold Skel.readCallback
  split
  · refine ⟨nofun, nofun, ?_, hdata.trans hlength, h.size, ?_⟩
    · exact hcopied.le.trans data.length.zero_le
    · simp [Skel.rest, hcopied, hrest, ByteMap.window_overwrite]
  · refine ⟨nofun, nofun, h.copied, h.filled, h.size, ?_⟩
    simp [Skel.rest, Skel.fail, hfilled, hcopied, hrest]

/-! ## Reads -/

/-- What a read that is inside has found of the buffer and of its request. -/
def ReadPc.Finds (k : Skel) : ReadPc → Prop
  | .idle => k.ongoingRead = false
  | .deciding => k.ongoingRead = false
  | .starting _ _ => k.ongoingRead = false ∧ k.bulkInFilled = k.bulkInCopied
  | .submitting _ _ => k.ongoingRead = true ∧ k.bulkInUrb.flight = none
  | .refused _ _ => k.ongoingRead = true ∧ k.bulkInUrb.flight = none
  | _ => True

theorem ReadPc.finds_of_outside {k : Skel} {pc : ReadPc} (h : ¬ pc.Inside) : pc.Finds k := by
  cases pc with
  | locking => trivial
  | leaving rv => trivial
  | returned rv => trivial
  | _ => exact absurd trivial h

theorem Skel.SameReads.finds {k k' : Skel} (h : k.SameReads k') {pc : ReadPc}
    (hpc : pc.Finds k) : pc.Finds k' := by
  cases pc with
  | idle => exact h.ongoing.trans hpc
  | deciding => exact h.ongoing.trans hpc
  | starting count after => exact ⟨h.ongoing.trans hpc.1, by rw [h.filled, h.copied, hpc.2]⟩
  | submitting count after => exact ⟨h.ongoing.trans hpc.1, by rw [h.flight, hpc.2]⟩
  | refused rv after => exact ⟨h.ongoing.trans hpc.1, by rw [h.flight, hpc.2]⟩
  | _ => trivial

theorem Skel.SameReads.refl (k : Skel) : k.SameReads k := .of_eq rfl

theorem Skel.Streams.flight_none {k : Skel} (h : k.Streams) (hongoing : k.ongoingRead = false) :
    k.bulkInUrb.flight = none := by
  cases hflight : k.bulkInUrb.flight with
  | none => rfl
  | some length => exact absurd (hongoing.symm.trans (h.flight length hflight).1) Bool.false_ne_true

theorem readStep_streams (c : ℕ) {k : Skel} (hk : k.Streams) (args : ReadArgs) {pc : ReadPc}
    (hpc : pc.Finds k) (e : ReadEvent) :
    Yields (fun r => r.1.Streams ∧ r.2.Finds r.1) (readStep c args k pc e) := by
  have hsame : ∀ k' : Skel, ∀ pc' : ReadPc, k.SameReads k' → pc'.Finds k →
      Yields (fun r => r.1.Streams ∧ r.2.Finds r.1) (.ok (k', pc')) :=
    fun k' pc' hsame hpc' => ⟨hk.congr hsame, hsame.finds hpc'⟩
  unfold readStep
  split
  · refine meets_ite (fun _ => hsame _ _ (.of_eq rfl) ?_) fun _ => trivial
    split <;> trivial
  · exact meets_ite (fun _ => trivial) fun _ => hsame _ _ (.refl k) trivial
  · refine hsame _ _ (.refl k) ?_
    split
    · split <;> trivial
    · exact Bool.eq_false_of_not_eq_true ‹_›
  · exact meets_ite (fun _ => trivial) fun h => hsame _ _ (.refl k) (Bool.eq_false_of_not_eq_true h)
  · exact meets_ite (fun _ => hsame _ _ (.refl k) trivial) fun _ => trivial
  · exact meets_ite (fun _ => hsame _ _ (.of_eq rfl) trivial) fun _ =>
      hsame _ _ (.refl k) hpc
  · exact hsame _ _ (.of_eq rfl) trivial
  · have havailable := hk.available
    have hcopied := hk.copied
    refine meets_ite (fun hnone => hsame _ _ (.refl k) ⟨hpc, by omega⟩) fun _ => ?_
    refine ⟨hk.hand c (by omega) hpc _, ?_⟩
    dsimp only
    split
    · refine ⟨hpc, ?_⟩
      change k.bulkInFilled = k.bulkInCopied + min k.available args.count
      omega
    · trivial
  · obtain ⟨hongoing, hused⟩ := hpc
    have hflight := hk.flight_none hongoing
    refine ⟨⟨fun length h => ?_, fun _ => ⟨rfl, rfl⟩, Nat.le_refl 0, Nat.zero_le _, hk.size, ?_⟩,
      rfl, hflight⟩
    · exact nomatch hflight.symm.trans h
    · have hstream := hk.stream
      rw [Skel.rest, hused, Nat.sub_self] at hstream
      exact hstream
  · obtain ⟨hongoing, hflight⟩ := hpc
    refine meets_ite (fun _ => ⟨⟨fun length h => ?_, hk.empty, hk.copied, hk.filled, hk.size,
      hk.stream⟩, ?_⟩) fun _ => hsame _ _ (.refl k) ⟨hongoing, hflight⟩
    · cases h
      exact ⟨hongoing, Nat.min_le_left _ _⟩
    · dsimp only
      split <;> trivial
  · refine ⟨⟨fun length h => ?_, nofun, hk.copied, hk.filled, hk.size, hk.stream⟩, ?_⟩
    · exact nomatch hpc.2.symm.trans h
    · dsimp only
      split <;> trivial
  · exact hsame _ _ (.of_eq rfl) trivial
  · trivial

/-- A read that is not inside leaves the buffer and its request alone. -/
theorem readStep_sameReads (c : ℕ) (k : Skel) (args : ReadArgs) {pc : ReadPc} (hpc : ¬ pc.Inside)
    (e : ReadEvent) : Yields (fun r => k.SameReads r.1) (readStep c args k pc e) := by
  unfold readStep
  split
  · exact meets_ite (fun _ => meets_ok (.of_eq rfl)) fun _ => trivial
  · exact meets_ite (fun _ => trivial) fun _ => meets_ok (.refl k)
  · exact absurd trivial hpc
  all_goals first
    | exact absurd trivial hpc
    | trivial

section

variable {c : ℕ} {k : Skel}

theorem writeStep_sameReads (w : WriteCall) (pc : WritePc) (e : WriteEvent) :
    Yields (fun r => k.SameReads r.1) (writeStep c k w pc e) := by
  have hok : ∀ k' : Skel, ∀ w' : WriteCall, k'.reads = k.reads →
      Yields (fun r => k.SameReads r.1) (.ok (k', w')) := fun _ _ h => .of_eq h
  unfold writeStep
  split
  all_goals first
    | trivial
    | exact hok _ _ rfl
    | exact meets_ite (fun _ => hok _ _ rfl) fun _ => hok _ _ rfl
    | exact meets_ite (fun _ => hok _ _ rfl) fun _ =>
        meets_ite (fun _ => hok _ _ rfl) fun _ => trivial
    | exact meets_ite (fun _ => trivial) fun _ => hok _ _ rfl
    | exact meets_ite (fun _ => meets_ite (fun _ => hok _ _ rfl) fun _ => hok _ _ rfl) fun _ =>
        trivial
    | exact (meets_of_ok fun _ _ => trivial).bind fun _ _ => hok _ _ rfl

theorem hcdStep_sameReads (w : WriteCall) (hcd : Hcd) (e : HcdEvent) :
    Yields (fun r => k.SameReads r.1) (hcdStep k w hcd e) := by
  have hok : ∀ k' : Skel, ∀ w' : WriteCall, k'.reads = k.reads →
      Yields (fun r => k.SameReads r.1) (.ok (k', w')) := fun _ _ h => .of_eq h
  unfold hcdStep
  split
  all_goals first
    | trivial
    | exact hok _ _ rfl
    | exact (meets_of_ok fun _ _ => trivial).bind fun _ _ => hok _ _ rfl

theorem flushStep_sameReads (pc : FlushPc) (e : FlushEvent) :
    Yields (fun r => k.SameReads r.1) (flushStep c k pc e) := by
  have hok : ∀ k' : Skel, ∀ pc' : FlushPc, k'.reads = k.reads →
      Yields (fun r => k.SameReads r.1) (.ok (k', pc')) := fun _ _ h => .of_eq h
  unfold flushStep
  split
  all_goals first
    | trivial
    | exact hok _ _ rfl
    | exact meets_ite (fun _ => hok _ _ rfl) fun _ => hok _ _ rfl
    | exact meets_ite (fun _ => hok _ _ rfl) fun _ => trivial

theorem busStep_sameReads (bus : Bus) (e : BusEvent) :
    Yields (fun r => k.SameReads r.1) (busStep k bus e) := by
  have hok : ∀ k' : Skel, ∀ bus' : Bus, k'.reads = k.reads →
      Yields (fun r => k.SameReads r.1) (.ok (k', bus')) := fun _ _ h => .of_eq h
  unfold busStep
  split
  all_goals first
    | trivial
    | exact hok _ _ rfl
    | exact meets_ite (fun _ => hok _ _ rfl) fun _ => trivial

end

/-! ## What a read returns -/

def piecesOf (c : ℕ) (handed : List Handed) : List Handed :=
  handed.filter fun piece => piece.reader = c

/-- The read was handed one piece, which it returns the length of, or which is lost. -/
def Gave (count : ℕ) (rv : ℤ) (mine : List Handed) : Prop :=
  ∃ piece, mine = [piece] ∧
    (piece.ok = true ∧ 0 < rv ∧ rv = piece.bytes.length ∧ rv ≤ count ∨
      piece.ok = false ∧ rv = -EFAULT)

def GaveNone (rv : ℤ) (mine : List Handed) : Prop := mine = [] ∧ rv ≤ 0 ∧ rv ≠ -EFAULT

/-- What a read has been handed, by where it stands. -/
def ReadPc.Accounts (count : ℕ) (mine : List Handed) : ReadPc → Prop
  | .starting _ (.leave rv) => Gave count rv mine
  | .submitting _ (.leave rv) => Gave count rv mine
  | .refused _ (.leave rv) => Gave count rv mine
  | .refused rv .retry => GaveNone rv mine
  | .failing rv => GaveNone rv mine
  | .unlocking rv => Gave count rv mine ∨ GaveNone rv mine
  | .leaving rv => Gave count rv mine ∨ GaveNone rv mine
  | .returned rv => Gave count rv mine ∨ GaveNone rv mine
  | _ => mine = [] ∧ 0 < count

theorem errorOf_gaveNone (k : Skel) {mine : List Handed} (hmine : mine = [])
    (herr : k.errors < 0) : GaveNone (Skel.errorOf k.errors) mine := by
  refine ⟨hmine, (Skel.errorOf_neg herr).le, ?_⟩
  unfold Skel.errorOf
  split
  · next h => exact h ▸ by decide
  · decide

theorem refused_gaveNone (errno : ℕ) {mine : List Handed} (hmine : mine = []) :
    GaveNone (if (errno : ℤ) = ENOMEM then -errno else -Kernel.EIO) mine := by
  unfold GaveNone
  split
  · next h => exact ⟨hmine, by rw [h]; decide, by rw [h]; decide⟩
  · exact ⟨hmine, by decide, by decide⟩

theorem piecesOf_hand (k : Skel) (c chunk : ℕ) (ok : Bool) :
    piecesOf c (k.hand c chunk ok).handed = piecesOf c k.handed ++
      [⟨c, ByteMap.window k.bulkInBuffer k.bulkInCopied chunk, ok⟩] := by
  simp [piecesOf, Skel.hand]

theorem piecesOf_hand_of_ne (k : Skel) {c d : ℕ} (hd : d ≠ c) (chunk : ℕ) (ok : Bool) :
    piecesOf d (k.hand c chunk ok).handed = piecesOf d k.handed := by
  simp [piecesOf, Skel.hand, hd.symm]

/-- The piece of a read that was handed none before, and asked for some bytes. -/
theorem gave_hand (c : ℕ) {k : Skel} (hk : k.Streams) {count : ℕ}
    (hmine : piecesOf c k.handed = []) (hcount : 0 < count) (hsome : k.available ≠ 0) (ok : Bool) :
    Gave count (if ok then toInt32 (min k.available count : ℕ) else -EFAULT)
      (piecesOf c (k.hand c (min k.available count) ok).handed) := by
  have havailable := hk.available
  have hfilled := hk.filled
  have hsize := hk.size
  rw [piecesOf_hand, hmine, List.nil_append]
  refine ⟨_, rfl, ?_⟩
  cases ok with
  | false => exact .inr ⟨rfl, rfl⟩
  | true =>
      have hchunk : toInt32 (min k.available count : ℕ) = (min k.available count : ℕ) :=
        toInt32_of_mem (by omega) (by unfold INT_MAX; omega)
      rw [if_pos rfl, hchunk, ByteMap.window_length]
      exact .inl ⟨rfl, by omega, rfl, by omega⟩

theorem readStep_accounts (c : ℕ) {k : Skel} (hk : k.Streams) (args : ReadArgs) {pc : ReadPc}
    (hpc : pc.Accounts args.count (piecesOf c k.handed)) (e : ReadEvent) :
    Yields (fun r => r.2.Accounts args.count (piecesOf c r.1.handed) ∧
      ∀ d, d ≠ c → piecesOf d r.1.handed = piecesOf d k.handed) (readStep c args k pc e) := by
  have hsame : ∀ k' : Skel, ∀ pc' : ReadPc, k'.handed = k.handed →
      pc'.Accounts args.count (piecesOf c k.handed) →
      Yields (fun r => r.2.Accounts args.count (piecesOf c r.1.handed) ∧
        ∀ d, d ≠ c → piecesOf d r.1.handed = piecesOf d k.handed) (.ok (k', pc')) :=
    fun k' pc' hhanded hpc' => ⟨hhanded.symm ▸ hpc', fun d _ => hhanded ▸ rfl⟩
  unfold readStep
  split
  · refine meets_ite (fun _ => hsame _ _ rfl ?_) fun _ => trivial
    split
    · exact .inr ⟨hpc.1, by decide, by decide⟩
    · exact hpc
  · exact meets_ite (fun _ => trivial) fun _ => hsame _ _ rfl (.inr ⟨hpc.1, by decide, by decide⟩)
  · refine hsame _ _ rfl ?_
    split
    · split
      · exact .inr ⟨hpc.1, by decide, by decide⟩
      · exact hpc
    · exact hpc
  · exact meets_ite (fun _ => trivial) fun h => hsame _ _ rfl hpc
  · exact meets_ite (fun _ => hsame _ _ rfl (.inr ⟨hpc.1, by decide, by decide⟩)) fun _ => trivial
  · exact meets_ite (fun herr => hsame _ _ rfl (errorOf_gaveNone k hpc.1 herr)) fun _ =>
      hsame _ _ rfl hpc
  · exact hsame _ _ rfl (.inr hpc)
  · next ok =>
    obtain ⟨hmine, hcount⟩ := hpc
    refine meets_ite (fun _ => hsame _ _ rfl ⟨hmine, hcount⟩) fun hsome => ⟨?_, fun d hd => ?_⟩
    · have hgave := gave_hand c hk hmine hcount (fun h => hsome (.inr h)) ok
      dsimp only
      split
      · exact hgave
      · exact .inl hgave
    · exact piecesOf_hand_of_ne k hd _ _
  · next after =>
    cases after with
    | retry => exact hsame _ _ rfl hpc
    | leave rv => exact hsame _ _ rfl hpc
  · next count after errno =>
    refine meets_ite (fun _ => hsame _ _ rfl ?_) fun _ => hsame _ _ rfl ?_
    · cases after with
      | retry => exact hpc
      | leave rv => exact .inl hpc
    · cases after with
      | retry => exact refused_gaveNone errno hpc.1
      | leave rv => exact hpc
  · next after =>
    cases after with
    | retry => exact hsame _ _ rfl (.inr hpc)
    | leave rv => exact hsame _ _ rfl (.inl hpc)
  · exact hsame _ _ rfl hpc
  · trivial

/-! ## Runs -/

def Call.Finds (k : Skel) : Call → Prop
  | .read _ _ pc => pc.Finds k
  | _ => True

def Call.Accounts (mine : List Handed) : Call → Prop
  | .absent => mine = []
  | .read _ args pc => pc.Accounts args.count mine
  | _ => True

structure Streaming (k : Skel) (calls : ℕ → Call) : Prop where
  streams : k.Streams
  finds : ∀ c, (calls c).Finds k
  accounts : ∀ c, (calls c).Accounts (piecesOf c k.handed)

theorem Call.finds_of_outside {k : Skel} {call : Call} (h : ¬ call.Inside) : call.Finds k := by
  cases call with
  | read file args pc => exact ReadPc.finds_of_outside h
  | _ => trivial

theorem Skel.SameReads.call_finds {k k' : Skel} (h : k.SameReads k') {call : Call}
    (hcall : call.Finds k) : call.Finds k' := by
  cases call with
  | read file args pc => exact h.finds hcall
  | _ => trivial

/-- A step that leaves the buffer and its request alone. -/
theorem Streaming.same {k k' : Skel} {calls : ℕ → Call} (h : Streaming k calls)
    (hsame : k.SameReads k') : Streaming k' calls where
  streams := h.streams.congr hsame
  finds c := hsame.call_finds (h.finds c)
  accounts c := hsame.handed.symm ▸ h.accounts c

theorem Streaming.update {k : Skel} {calls : ℕ → Call} (h : Streaming k calls) {c : ℕ}
    {call : Call} (hfinds : call.Finds k) (haccounts : call.Accounts (piecesOf c k.handed)) :
    Streaming k (Function.update calls c call) := by
  refine ⟨h.streams, fun d => ?_, fun d => ?_⟩
  · by_cases heq : d = c
    · rw [heq, Function.update_self]
      exact hfinds
    · rw [Function.update_of_ne heq]
      exact h.finds d
  · by_cases heq : d = c
    · rw [heq, Function.update_self]
      exact haccounts
    · rw [Function.update_of_ne heq]
      exact h.accounts d

/-- A step of a read: no other read is inside when it changes anything. -/
theorem Streaming.readStep {k k' : Skel} {calls : ℕ → Call} (h : Streaming k calls) {c file : ℕ}
    {args : ReadArgs} {pc pc' : ReadPc} {e : ReadEvent} (hcall : calls c = .read file args pc)
    (halone : pc.Inside → ∀ d, d ≠ c → ¬ (calls d).Inside)
    (hstep : Usb.readStep c args k pc e = .ok (k', pc')) :
    Streaming k' (Function.update calls c (.read file args pc')) := by
  have hfinds : (Call.read file args pc).Finds k := hcall ▸ h.finds c
  have haccounts : (Call.read file args pc).Accounts (piecesOf c k.handed) := hcall ▸ h.accounts c
  obtain ⟨hstreams, hfinds'⟩ := (readStep_streams c h.streams args hfinds e).of_ok hstep
  obtain ⟨haccounts', hothers⟩ := (readStep_accounts c h.streams args haccounts e).of_ok hstep
  refine ⟨hstreams, fun d => ?_, fun d => ?_⟩
  · by_cases heq : d = c
    · rw [heq, Function.update_self]
      exact hfinds'
    · rw [Function.update_of_ne heq]
      by_cases hinside : pc.Inside
      · exact Call.finds_of_outside (halone hinside d heq)
      · exact ((readStep_sameReads c k args hinside e).of_ok hstep).call_finds (h.finds d)
  · by_cases heq : d = c
    · rw [heq, Function.update_self]
      exact haccounts'
    · rw [Function.update_of_ne heq]
      exact (hothers d heq).symm ▸ h.accounts d

/-- A transfer ends: no read is between its look at the buffer and its next transfer. -/
theorem Streaming.readCallback {k : Skel} {calls : ℕ → Call} (h : Streaming k calls) {length : ℕ}
    (hflight : k.bulkInUrb.flight = some length) (status : ℤ) {data : List UInt8}
    (hdata : data.length ≤ length) : Streaming (k.readCallback status data) calls := by
  have hongoing := (h.streams.flight length hflight).1
  have hpc : ∀ pc : ReadPc, pc.Finds k → pc.Finds (k.readCallback status data) := by
    intro pc hfinds
    cases pc with
    | idle => exact absurd (hongoing.symm.trans hfinds) nofun
    | deciding => exact absurd (hongoing.symm.trans hfinds) nofun
    | starting count after => exact absurd (hongoing.symm.trans hfinds.1) nofun
    | submitting count after => exact absurd (hflight.symm.trans hfinds.2) nofun
    | refused rv after => exact absurd (hflight.symm.trans hfinds.2) nofun
    | _ => trivial
  refine ⟨h.streams.readCallback hflight status hdata, fun c => ?_, fun c => ?_⟩
  · have hfinds := h.finds c
    cases hcall : calls c with
    | read file args pc => exact hpc pc (by simpa only [hcall, Call.Finds] using hfinds)
    | _ => trivial
  · have hhanded : (k.readCallback status data).handed = k.handed := by
      unfold Skel.readCallback
      split <;> rfl
    exact hhanded.symm ▸ h.accounts c

theorem Call.Begins.accounts {f c : ℕ} {e : Event} {call : Call} (h : Begins f e c call) :
    call.Accounts [] := by
  cases h with
  | read c count nonblock =>
      by_cases hcount : count = 0
      · rw [beginRead, if_pos hcount]
        exact .inr ⟨rfl, Int.le_refl 0, by decide⟩
      · rw [beginRead, if_neg hcount]
        exact ⟨rfl, Nat.pos_of_ne_zero hcount⟩
  | write c data nonblock => trivial
  | flush c => trivial

theorem Call.finish_accounts {f : ℕ} {call call' : Call} {mine : List Handed}
    (hfinish : call.finish = some (f, call')) (h : call.Accounts mine) : call'.Accounts mine := by
  unfold finish at hfinish
  split at hfinish
  · cases hfinish
    exact h
  · split at hfinish
    · cases hfinish
      trivial
    · cases hfinish
  · cases hfinish
    trivial
  · cases hfinish

/-- A step of any call. -/
theorem Streaming.inCall {k k' : Skel} {calls : ℕ → Call} (h : Streaming k calls) {c : ℕ}
    {call : Call} {e : CallEvent}
    (halone : ∀ c, (calls c).Inside → ∀ d, d ≠ c → ¬ (calls d).Inside)
    (hstep : (calls c).step c k e = .ok (k', call)) :
    Streaming k' (Function.update calls c call) := by
  unfold Call.step at hstep
  split at hstep
  · next file args pc e hcall =>
    obtain ⟨⟨k₁, pc'⟩, hread, hdone⟩ := bind_eq_ok.mp hstep
    cases hdone
    have hinside : pc.Inside → (calls c).Inside := fun h => hcall ▸ h
    exact h.readStep hcall (fun hpc => halone c (hinside hpc)) hread
  · next file w e hcall =>
    obtain ⟨⟨k₁, w'⟩, hwrite, hdone⟩ := bind_eq_ok.mp hstep
    cases hdone
    have hnext : Streaming k (Function.update calls c (.write file w')) := h.update trivial trivial
    exact hnext.same ((writeStep_sameReads w w.pc e).of_ok hwrite)
  · next file pc e hcall =>
    obtain ⟨⟨k₁, pc'⟩, hflush, hdone⟩ := bind_eq_ok.mp hstep
    cases hdone
    have hnext : Streaming k (Function.update calls c (.flush file pc')) := h.update trivial trivial
    exact hnext.same ((flushStep_sameReads pc e).of_ok hflush)
  · cases hstep

theorem World.Quiet.alone {s : World} (h : s.Quiet) (c : ℕ) (hc : (s.calls c).Inside) (d : ℕ)
    (hd : d ≠ c) : ¬ (s.calls d).Inside := by
  intro hinside
  have hc' : s.Inside (.call c) := hc
  have hd' : s.Inside (.call d) := hinside
  exact hd (Owner.call.inj (h.guards.unique hd' hc'))

theorem World.Does.streaming {s s' : World} {e : Event} (hdoes : s.Does e s') (hs : s.Inv)
    (h : Streaming s.skel s.calls) : Streaming s'.skel s'.calls := by
  cases hdoes with
  | @enter _ c f call hbegins habsent hfd =>
      have hnone : (Call.absent).Accounts (piecesOf c s.skel.handed) := habsent ▸ h.accounts c
      refine h.update (Call.finds_of_outside hbegins.fresh.inside) ?_
      rw [show piecesOf c s.skel.handed = [] from hnone]
      exact hbegins.accounts
  | @inCall c e k call hstep => exact h.inCall hs.quiet.alone hstep
  | @hcd c f e k w w' hcall hstep =>
      have hsame : s.skel.SameReads k := (hcdStep_sameReads w w.hcd e).of_ok hstep
      have hnext : Streaming s.skel (Function.update s.calls c (.write f w')) :=
        h.update trivial trivial
      exact hnext.same hsame
  | @finish c f call hfinish =>
      exact h.update (Call.finds_of_outside (Call.finish_ends hfinish).after.inside)
        (Call.finish_accounts hfinish (h.accounts c))
  | completeRead hflight hlength => exact h.readCallback hflight _ hlength
  | wakeReaders hcallbacks => exact h.same (.of_eq rfl)
  | @inBus e k bus hstep => exact h.same ((busStep_sameReads s.bus e).of_ok hstep)
  | openGet hfile => exact h.same (.of_eq rfl)
  | release hfile hfd husers => exact h.same (.of_eq rfl)
  | putInterface hbus => exact h.same (.of_eq rfl)
  | _ => exact h

theorem streaming_initial (maxPacketSize : BitVec 16) (content : ℕ → UInt8) :
    Streaming (World.initial maxPacketSize content).skel
      (World.initial maxPacketSize content).calls := by
  refine ⟨⟨nofun, nofun, Nat.le_refl 0, Nat.zero_le _, ?_, rfl⟩, fun _ => trivial, fun _ => rfl⟩
  change (maxPacketSize &&& 0x7ff).toNat ≤ 2047
  rw [BitVec.toNat_and]
  exact Nat.and_le_right

/-- The pieces that reads were handed, those whose copy faulted among them, and what is left in
the buffer are together what the device has delivered, in order. A read returns the length of
its one piece, or has lost it, or has none. -/
theorem reads_take_the_stream (maxPacketSize : BitVec 16) (content : ℕ → UInt8)
    (es : List Event) :
    Runs.Always World.step
      (fun s =>
        s.skel.handed.flatMap Handed.bytes ++ s.skel.rest = s.skel.received ∧
        ∀ c f args rv, s.calls c = .read f args (.returned rv) →
          Gave args.count rv (piecesOf c s.skel.handed) ∨
            GaveNone rv (piecesOf c s.skel.handed))
      (.initial maxPacketSize content) es := by
  have hkeep : ∀ s e s', World.Inv s ∧ Streaming s.skel s.calls → World.step s e = .ok s' →
      s'.Inv ∧ Streaming s'.skel s'.calls := fun s e s' ⟨hs, hstreaming⟩ hstep =>
    ⟨hs.step hstep, ((World.step_does hs e).of_ok hstep).streaming hs hstreaming⟩
  refine Runs.always_of_inv (fun s ⟨_, hstreaming⟩ => ⟨hstreaming.streams.stream, ?_⟩) hkeep
    ⟨World.initial_inv maxPacketSize content, streaming_initial maxPacketSize content⟩ es
  intro c f args rv hcall
  have haccounts : (Call.read f args (.returned rv)).Accounts (piecesOf c s.skel.handed) :=
    hcall ▸ hstreaming.accounts c
  exact haccounts

end LddSamples.Usb
