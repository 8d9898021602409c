import LddSamples.Char.Buffer
import LddSamples.Library.Runs

/-!
# lab4_char_seek: files sharing one buffer

Any number of open files read, write and seek in `membuff`, each at its own
position. What they have stored so far determines every later read.
-/

namespace LddSamples.Char.Seek

open Kernel CArith Outcome ByteMap

/-- `history` is what has been stored so far, newest first; no call reads it. -/
structure State where
  membuff : ℕ → UInt8
  fPos : ℕ → ℤ
  history : List (ℕ × List UInt8)

inductive Call
  | openFile (fd : ℕ)
  | read (fd lbuf k : ℕ)
  | write (fd : ℕ) (buf : List UInt8) (k : ℕ)
  | lseek (fd : ℕ) (offset : ℤ) (orig : ℕ)

structure Result where
  ret : ℤ
  out : List UInt8

/-- `kmalloc` leaves `membuff` with any content. -/
def initial (content : ℕ → UInt8) : State := ⟨content, fun _ => 0, []⟩

def State.stored (s : State) (fd : ℕ) (buf : List UInt8) (ret : ℤ) : List (ℕ × List UInt8) :=
  if ret = 0 then s.history else ((s.fPos fd).toNat, buf.take ret.toNat) :: s.history

def call (s : State) : Call → Except Fault (Result × State)
  | .openFile fd => .ok (⟨0, []⟩, { s with fPos := Function.update s.fPos fd 0 })
  | .read fd lbuf k => do
      let r ← chardrvRead s.membuff lbuf (s.fPos fd) k
      .ok (⟨r.ret, r.out⟩, { s with fPos := Function.update s.fPos fd r.pos })
  | .write fd buf k => do
      let r ← chardrvWrite s.membuff buf (s.fPos fd) k
      .ok (⟨r.ret, []⟩,
        ⟨r.membuff, Function.update s.fPos fd r.pos, s.stored fd buf r.ret⟩)
  | .lseek fd offset orig =>
      let r := chardrvLseek (s.fPos fd) offset orig
      .ok (⟨r.1, []⟩, { s with fPos := Function.update s.fPos fd r.2 })

def step (s : State) (c : Call) : Except Fault State := (call s c).map Prod.snd

def Call.Admissible : Call → Prop
  | .read _ lbuf _ => lbuf ≤ MAX_RW_COUNT
  | .write _ buf _ => buf.length ≤ MAX_RW_COUNT
  | _ => True

/-- What a call returns and changes, in terms of the position of its file and of
what all files have stored so far. -/
def Answers (content : ℕ → UInt8) (s : State) (r : Result) (s' : State) : Call → Prop
  | .openFile fd => s' = { s with fPos := Function.update s.fPos fd 0 }
  | .read fd lbuf k =>
      if s.fPos fd + lbuf ≤ MEMBUFF_SIZE then
        r.ret = (min k lbuf : ℕ) ∧
          r.out = window (lastStored content s.history) (s.fPos fd).toNat (min k lbuf) ∧
          s' = { s with fPos := Function.update s.fPos fd (s.fPos fd + r.ret) }
      else r.ret = 0 ∧ r.out = [] ∧ s' = s
  | .write fd buf k =>
      if s.fPos fd + buf.length ≤ MEMBUFF_SIZE then
        r.ret = (min k buf.length : ℕ) ∧
          s'.membuff = overwrite s.membuff (s.fPos fd).toNat (buf.take (min k buf.length)) ∧
          s'.fPos = Function.update s.fPos fd (s.fPos fd + r.ret) ∧
          s'.history = s.stored fd buf r.ret
      else r.ret = 0 ∧ s' = s
  | .lseek fd _ orig =>
      (orig ≤ SEEK_END → r.ret = s'.fPos fd) ∧ s'.membuff = s.membuff ∧
        ∀ other, other ≠ fd → s'.fPos other = s.fPos other

structure Sound (content : ℕ → UInt8) (s : State) : Prop where
  positions : ∀ fd, 0 ≤ s.fPos fd ∧ s.fPos fd ≤ MEMBUFF_SIZE
  membuff : s.membuff = lastStored content s.history

theorem initial_sound (content : ℕ → UInt8) : Sound content (initial content) where
  positions _ := ⟨le_refl _, Int.natCast_nonneg _⟩
  membuff := rfl

variable {content : ℕ → UInt8} {s s' : State} {c : Call}

theorem positions_update (hs : ∀ fd, 0 ≤ s.fPos fd ∧ s.fPos fd ≤ MEMBUFF_SIZE) {fd : ℕ} {pos : ℤ}
    (hlow : 0 ≤ pos) (hhigh : pos ≤ MEMBUFF_SIZE) (other : ℕ) :
    0 ≤ Function.update s.fPos fd pos other ∧
      Function.update s.fPos fd pos other ≤ MEMBUFF_SIZE := by
  revert other
  rw [Function.forall_update_iff s.fPos fun _ p => 0 ≤ p ∧ p ≤ MEMBUFF_SIZE]
  exact ⟨⟨hlow, hhigh⟩, fun x _ => hs x⟩

theorem Sound.place (hs : Sound content s) (fd : ℕ) :
    ∃ p : ℕ, s.fPos fd = p ∧ p ≤ MEMBUFF_SIZE := by
  obtain ⟨hlow, hhigh⟩ := hs.positions fd
  obtain ⟨p, hp⟩ := Int.eq_ofNat_of_zero_le hlow
  exact ⟨p, hp, by omega⟩

theorem call_answers (hs : Sound content s) (hc : c.Admissible) :
    ∃ r s', call s c = .ok (r, s') ∧ Answers content s r s' c ∧ Sound content s' := by
  cases c with
  | openFile fd =>
      exact ⟨_, _, rfl, rfl,
        positions_update hs.positions (le_refl _) (Int.natCast_nonneg _), hs.membuff⟩
  | lseek fd offset orig =>
      obtain ⟨hlow, hhigh⟩ := hs.positions fd
      obtain ⟨hlow', hhigh'⟩ := chardrvLseek_mem hlow hhigh offset orig
      refine ⟨_, _, rfl, ⟨fun horig => ?_, rfl, fun other hne => Function.update_of_ne hne ..⟩,
        positions_update hs.positions hlow' hhigh', hs.membuff⟩
      simp only [Function.update_self]
      unfold chardrvLseek SEEK_SET SEEK_CUR SEEK_END at *
      split_ifs
      · rfl
      · rfl
      · rfl
      · omega
  | read fd lbuf k =>
      obtain ⟨p, hp, hple⟩ := hs.place fd
      have hread := chardrvRead_eq s.membuff hple hc k
      rw [← hp] at hread
      by_cases hfit : p + lbuf ≤ MEMBUFF_SIZE
      · rw [if_pos hfit] at hread
        refine ⟨⟨(min k lbuf : ℕ), window s.membuff p (min k lbuf)⟩,
          { s with fPos := Function.update s.fPos fd (p + min k lbuf : ℕ) }, ?_, ?_, ?_, hs.membuff⟩
        · simp only [call, hread, ok_bind]
        · have hfit' : (p : ℤ) + lbuf ≤ MEMBUFF_SIZE := by omega
          simp only [Answers, hp, if_pos hfit', Int.toNat_natCast, hs.membuff, Int.natCast_add,
            true_and]
        · exact positions_update hs.positions (Int.natCast_nonneg _) (by omega)
      · rw [if_neg hfit] at hread
        refine ⟨⟨0, []⟩, s, ?_, ?_, hs⟩
        · simp only [call, hread, ok_bind]
          rw [Function.update_eq_self]
        · have hfit' : ¬ s.fPos fd + lbuf ≤ MEMBUFF_SIZE := by omega
          simp only [Answers, if_neg hfit', true_and]
  | write fd buf k =>
      obtain ⟨p, hp, hple⟩ := hs.place fd
      have hwrite := chardrvWrite_eq s.membuff hple hc k
      rw [← hp] at hwrite
      by_cases hfit : p + buf.length ≤ MEMBUFF_SIZE
      · rw [if_pos hfit] at hwrite
        refine ⟨⟨(min k buf.length : ℕ), []⟩, ⟨overwrite s.membuff p (buf.take (min k buf.length)),
          Function.update s.fPos fd (p + min k buf.length : ℕ),
          s.stored fd buf (min k buf.length : ℕ)⟩, ?_, ?_, ?_, ?_⟩
        · simp only [call, hwrite, ok_bind]
        · have hfit' : (p : ℤ) + buf.length ≤ MEMBUFF_SIZE := by omega
          simp only [Answers, hp, if_pos hfit', Int.toNat_natCast, Int.natCast_add, true_and]
        · exact positions_update hs.positions (Int.natCast_nonneg _) (by omega)
        · simp only [State.stored, hp, Int.toNat_natCast]
          split
          · next hzero =>
              have hnone : min k buf.length = 0 := by omega
              rw [hnone, List.take_zero, overwrite_nil, hs.membuff]
          · rw [lastStored_cons, hs.membuff]
      · rw [if_neg hfit] at hwrite
        refine ⟨⟨0, []⟩, s, ?_, ?_, hs⟩
        · simp only [call, hwrite, ok_bind, State.stored, if_true]
          rw [Function.update_eq_self]
        · have hfit' : ¬ s.fPos fd + buf.length ≤ MEMBUFF_SIZE := by omega
          simp only [Answers, if_neg hfit', true_and]

theorem exec_sound (hs : Sound content s) (calls : List Call) (hcalls : ∀ c ∈ calls, c.Admissible) :
    ∃ s', Runs.exec step s calls = .ok s' ∧ Sound content s' := by
  induction calls generalizing s with
  | nil => exact ⟨s, rfl, hs⟩
  | cons c calls ih =>
      obtain ⟨r, s₁, hcall, -, hs₁⟩ := call_answers hs (hcalls c List.mem_cons_self)
      obtain ⟨s₂, hexec, hs₂⟩ := ih hs₁ fun d hd => hcalls d (List.mem_cons_of_mem _ hd)
      have hstep : step s c = .ok s₁ := by
        rw [step, hcall]
        rfl
      exact ⟨s₂, by rw [Runs.exec_cons, hstep]; exact hexec, hs₂⟩

/-- Every run of admissible calls goes through; afterwards all positions are in
the buffer or at its end, and every further call returns what `Answers` says. -/
theorem runs_answer (content : ℕ → UInt8) (calls : List Call)
    (hcalls : ∀ c ∈ calls, c.Admissible) :
    ∃ s, Runs.exec step (initial content) calls = .ok s ∧
      (∀ fd, 0 ≤ s.fPos fd ∧ s.fPos fd ≤ MEMBUFF_SIZE) ∧
      s.membuff = lastStored content s.history ∧
      ∀ c : Call, c.Admissible →
        ∃ r s', call s c = .ok (r, s') ∧ Answers content s r s' c := by
  obtain ⟨s, hexec, hs⟩ := exec_sound (initial_sound content) calls hcalls
  refine ⟨s, hexec, hs.positions, hs.membuff, fun c hc => ?_⟩
  obtain ⟨r, s', hcall, hanswer, -⟩ := call_answers hs hc
  exact ⟨r, s', hcall, hanswer⟩

def twoFiles : List Call := [.write 0 [1, 2, 3] 3, .lseek 1 1 SEEK_SET]

theorem twoFiles_answer :
    ∃ s, Runs.exec step (initial fun _ => 0) twoFiles = .ok s ∧
      (∀ fd, 0 ≤ s.fPos fd ∧ s.fPos fd ≤ MEMBUFF_SIZE) ∧
      s.membuff = lastStored (fun _ => 0) s.history ∧
      ∀ c : Call, c.Admissible →
        ∃ r s', call s c = .ok (r, s') ∧ Answers (fun _ => 0) s r s' c :=
  runs_answer (fun _ => 0) twoFiles (by simp [twoFiles, Call.Admissible, MAX_RW_COUNT])

end LddSamples.Char.Seek
