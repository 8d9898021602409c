import LddSamples.Dma.Generic

/-!
# Files on one ram disk

Any number of open files read, write and seek with the generic entry points, each at its
own position, as lab1_copytofrom and the debug lab do. The ram disk is an array of
fixed size, and a block may be transferred in chunks of any sizes.
-/

namespace LddSamples.Dma.Ramdisk

open Kernel CArith Outcome ByteMap

/-- `history` is what has been stored so far, newest first; no call reads it. -/
structure State where
  ramdisk : ℕ → UInt8
  fPos : ℕ → ℤ
  history : List (ℕ × List UInt8)

inductive Call
  | openFile (fd : ℕ)
  | read (fd lbuf : ℕ)
  | write (fd : ℕ) (buf : List UInt8)
  | lseek (fd : ℕ) (offset : ℤ) (orig : ℕ)

structure Result where
  ret : ℤ
  out : List UInt8

/-- `kmalloc` leaves the ram disk with any content. -/
def initial (content : ℕ → UInt8) : State := ⟨content, fun _ => 0, []⟩

/-- One call; user buffers are accessible throughout. -/
def call (s : State) : Call → Except Fault (Result × State)
  | .openFile fd => .ok (⟨0, []⟩, { s with fPos := Function.update s.fPos fd 0 })
  | .read fd lbuf => do
      let r ← mycdrvGenericRead s.ramdisk lbuf (s.fPos fd) lbuf
      .ok (⟨r.ret, r.out⟩, { s with fPos := Function.update s.fPos fd r.pos })
  | .write fd buf => do
      let r ← mycdrvGenericWrite s.ramdisk buf (s.fPos fd) buf.length
      .ok (⟨r.ret, []⟩, ⟨r.ramdisk, Function.update s.fPos fd r.pos,
        ((s.fPos fd).toNat, buf.take r.ret.toNat) :: s.history⟩)
  | .lseek fd offset orig =>
      let r := mycdrvGenericLseek (s.fPos fd) offset orig
      .ok (⟨r.1, []⟩, { s with fPos := Function.update s.fPos fd r.2 })

def perform (s : State) : List Call → Except Fault (List Result × State)
  | [] => .ok ([], s)
  | c :: calls => do
      let (r, s) ← call s c
      let (rs, t) ← perform s calls
      .ok (r :: rs, t)

/-- What is left between the position and the end. -/
def State.room (s : State) (fd : ℕ) : ℕ := RAMDISK_SIZE - (s.fPos fd).toNat

/-- What a call returns and changes, in terms of the position of its file and of
what all files have stored so far. -/
def Answers (content : ℕ → UInt8) (s : State) (r : Result) (s' : State) : Call → Prop
  | .openFile fd => s' = { s with fPos := Function.update s.fPos fd 0 }
  | .read fd lbuf =>
      r.ret = (min lbuf (s.room fd) : ℕ) ∧
        r.out = window (lastStored content s.history) (s.fPos fd).toNat (min lbuf (s.room fd)) ∧
        s' = { s with fPos := Function.update s.fPos fd (s.fPos fd + r.ret) }
  | .write fd buf =>
      r.ret = (min buf.length (s.room fd) : ℕ) ∧
        s'.ramdisk = overwrite s.ramdisk (s.fPos fd).toNat (buf.take (s.room fd)) ∧
        s'.fPos = Function.update s.fPos fd (s.fPos fd + r.ret) ∧
        s'.history = ((s.fPos fd).toNat, buf.take (s.room fd)) :: s.history
  | .lseek fd _ orig =>
      (orig ≤ SEEK_END → r.ret = s'.fPos fd) ∧ s'.ramdisk = s.ramdisk ∧
        s'.history = s.history ∧ ∀ other, other ≠ fd → s'.fPos other = s.fPos other

structure Sound (content : ℕ → UInt8) (s : State) : Prop where
  positions : ∀ fd, 0 ≤ s.fPos fd ∧ s.fPos fd ≤ RAMDISK_SIZE
  ramdisk : s.ramdisk = lastStored content s.history

theorem initial_sound (content : ℕ → UInt8) : Sound content (initial content) where
  positions _ := ⟨le_refl _, Int.natCast_nonneg _⟩
  ramdisk := rfl

variable {content : ℕ → UInt8} {s s' : State} {c : Call} {fd : ℕ}

theorem positions_update (hs : ∀ fd, 0 ≤ s.fPos fd ∧ s.fPos fd ≤ RAMDISK_SIZE) {pos : ℤ}
    (hlow : 0 ≤ pos) (hhigh : pos ≤ RAMDISK_SIZE) (other : ℕ) :
    0 ≤ Function.update s.fPos fd pos other ∧
      Function.update s.fPos fd pos other ≤ RAMDISK_SIZE := by
  revert other
  rw [Function.forall_update_iff s.fPos fun _ p => 0 ≤ p ∧ p ≤ RAMDISK_SIZE]
  exact ⟨⟨hlow, hhigh⟩, fun x _ => hs x⟩

theorem Sound.place (hs : Sound content s) (fd : ℕ) :
    ∃ p : ℕ, s.fPos fd = p ∧ p ≤ RAMDISK_SIZE ∧ s.room fd = RAMDISK_SIZE - p := by
  obtain ⟨hlow, hhigh⟩ := hs.positions fd
  obtain ⟨p, hp⟩ := Int.eq_ofNat_of_zero_le hlow
  exact ⟨p, hp, by omega, by simp [State.room, hp]⟩

theorem call_answers (hs : Sound content s) (c : Call) :
    ∃ r s', call s c = .ok (r, s') ∧ Answers content s r s' c ∧ Sound content s' := by
  cases c with
  | openFile fd =>
      exact ⟨_, _, rfl, rfl,
        positions_update hs.positions (le_refl _) (Int.natCast_nonneg _), hs.ramdisk⟩
  | lseek fd offset orig =>
      obtain ⟨hlow, hhigh⟩ := hs.positions fd
      obtain ⟨hlow', hhigh'⟩ := mycdrvGenericLseek_mem hlow hhigh offset orig
      refine ⟨_, _, rfl, ⟨fun horig => ?_, rfl, rfl, fun other hne => Function.update_of_ne hne ..⟩,
        positions_update hs.positions hlow' hhigh', hs.ramdisk⟩
      simp only [Function.update_self]
      unfold mycdrvGenericLseek SEEK_SET SEEK_CUR SEEK_END at *
      split_ifs
      · rfl
      · rfl
      · rfl
      · omega
  | read fd lbuf =>
      obtain ⟨p, hp, hple, hroom⟩ := hs.place fd
      have hread := mycdrvGenericRead_eq s.ramdisk lbuf lbuf hple
      rw [Nat.min_eq_right (Nat.min_le_left _ _), ← hroom] at hread
      refine ⟨⟨(min lbuf (s.room fd) : ℕ), window s.ramdisk p (min lbuf (s.room fd))⟩,
        { s with fPos := Function.update s.fPos fd (p + min lbuf (s.room fd) : ℕ) }, ?_,
        ⟨rfl, ?_, ?_⟩, positions_update hs.positions (Int.natCast_nonneg _) (by omega),
        hs.ramdisk⟩
      · simp only [call, hp, hread, ok_bind]
      · rw [hp, Int.toNat_natCast, hs.ramdisk]
      · rw [hp, Int.natCast_add]
  | write fd buf =>
      obtain ⟨p, hp, hple, hroom⟩ := hs.place fd
      have hwrite := mycdrvGenericWrite_eq s.ramdisk buf buf.length hple
      have htake : buf.take (min buf.length (s.room fd)) = buf.take (s.room fd) := by
        rw [Nat.min_comm, ← List.take_eq_take_min]
      rw [Nat.min_eq_right (Nat.min_le_left _ _), Nat.sub_self, List.replicate_zero,
        List.append_nil, ← hroom, htake] at hwrite
      refine ⟨⟨(min buf.length (s.room fd) : ℕ), []⟩,
        ⟨overwrite s.ramdisk p (buf.take (s.room fd)),
          Function.update s.fPos fd (p + min buf.length (s.room fd) : ℕ),
          (p, buf.take (s.room fd)) :: s.history⟩, ?_, ⟨rfl, ?_, ?_, ?_⟩,
        positions_update hs.positions (Int.natCast_nonneg _) (by omega), ?_⟩
      · simp only [call, hp, hwrite, ok_bind, Int.toNat_natCast, htake]
      · rw [hp, Int.toNat_natCast]
      · rw [hp, Int.natCast_add]
      · rw [hp, Int.toNat_natCast]
      · rw [lastStored_cons, hs.ramdisk]

theorem perform_sound (hs : Sound content s) (calls : List Call) :
    ∃ rs s', perform s calls = .ok (rs, s') ∧ Sound content s' := by
  induction calls generalizing s with
  | nil => exact ⟨[], s, rfl, hs⟩
  | cons c calls ih =>
      obtain ⟨r, s₁, hcall, -, hs₁⟩ := call_answers hs c
      obtain ⟨rs, s₂, hrest, hs₂⟩ := ih hs₁
      exact ⟨r :: rs, s₂, by simp only [perform, hcall, hrest, ok_bind], hs₂⟩

/-! ## Blocks in chunks -/

/-- Consecutive writes of one file store and return what one write of the whole would. -/
theorem write_chunks (hs : Sound content s) (fd : ℕ) (chunks : List (List UInt8)) :
    ∃ rs s', perform s (chunks.map (.write fd)) = .ok (rs, s') ∧
      (rs.map Result.ret).sum = (min chunks.flatten.length (s.room fd) : ℕ) ∧
      s'.ramdisk = overwrite s.ramdisk (s.fPos fd).toNat (chunks.flatten.take (s.room fd)) ∧
      s'.fPos = Function.update s.fPos fd
        (s.fPos fd + (min chunks.flatten.length (s.room fd) : ℕ)) := by
  induction chunks generalizing s with
  | nil => exact ⟨[], s, rfl, by simp, by simp, by simp⟩
  | cons chunk chunks ih =>
      obtain ⟨r, s₁, hcall, ⟨hret, hramdisk, hfPos, -⟩, hs₁⟩ := call_answers hs (.write fd chunk)
      obtain ⟨rs, s₂, hrest, hsum, hramdisk', hfPos'⟩ := ih hs₁
      obtain ⟨hlow, hhigh⟩ := hs.positions fd
      have hmoved : s₁.fPos fd = s.fPos fd + r.ret := by rw [hfPos, Function.update_self]
      have hroom : s₁.room fd = s.room fd - chunk.length := by
        simp only [State.room, hmoved, hret]
        omega
      rw [hroom] at hsum hramdisk' hfPos'
      refine ⟨r :: rs, s₂, ?_, ?_, ?_, ?_⟩
      · simp only [List.map_cons, perform, hcall, hrest, ok_bind]
      · simp only [List.map_cons, List.sum_cons, hsum, hret, List.flatten_cons,
          List.length_append]
        omega
      · have hnext : (s₁.fPos fd).toNat =
            (s.fPos fd).toNat + (chunk.take (s.room fd)).length := by
          rw [hmoved, hret, List.length_take]
          omega
        rw [hramdisk', hramdisk, hnext, overwrite_append, List.flatten_cons, List.take_append]
      · have hend : s.fPos fd + (min chunk.length (s.room fd) : ℕ) +
              (min chunks.flatten.length (s.room fd - chunk.length) : ℕ) =
            s.fPos fd + (min (chunk.length + chunks.flatten.length) (s.room fd) : ℕ) := by omega
        rw [hfPos', hmoved, hfPos, Function.update_idem, hret, hend, List.flatten_cons,
          List.length_append]

theorem read_chunks (hs : Sound content s) (fd : ℕ) (lens : List ℕ) :
    ∃ rs, perform s (lens.map (.read fd)) = .ok (rs, { s with
        fPos := Function.update s.fPos fd (s.fPos fd + (min lens.sum (s.room fd) : ℕ)) }) ∧
      (rs.map Result.ret).sum = (min lens.sum (s.room fd) : ℕ) ∧
      rs.flatMap Result.out = window s.ramdisk (s.fPos fd).toNat (min lens.sum (s.room fd)) := by
  induction lens generalizing s with
  | nil => exact ⟨[], by simp [perform], by simp, by simp⟩
  | cons len lens ih =>
      obtain ⟨r, s₁, hcall, ⟨hret, hout, hs₁⟩, hsound⟩ := call_answers hs (.read fd len)
      obtain ⟨hlow, hhigh⟩ := hs.positions fd
      have hmoved : s₁.fPos fd = s.fPos fd + r.ret := by
        rw [hs₁]
        exact Function.update_self ..
      have hroom : s₁.room fd = s.room fd - len := by
        simp only [State.room, hmoved, hret]
        omega
      obtain ⟨rs, hrest, hsum, hout'⟩ := ih hsound
      rw [hroom] at hrest hsum hout'
      have hsplit : min (len + lens.sum) (s.room fd) =
          min len (s.room fd) + min lens.sum (s.room fd - len) := by omega
      have hnext : (s₁.fPos fd).toNat = (s.fPos fd).toNat + min len (s.room fd) := by
        rw [hmoved, hret]
        omega
      have hramdisk : s₁.ramdisk = s.ramdisk := by rw [hs₁]
      refine ⟨r :: rs, ?_, ?_, ?_⟩
      · have hend : s.fPos fd + (min len (s.room fd) : ℕ) + (min lens.sum (s.room fd - len) : ℕ) =
            s.fPos fd + (min (len + lens.sum) (s.room fd) : ℕ) := by omega
        rw [hmoved, hret, hend, hs₁] at hrest
        simp only [List.map_cons, perform, hcall, hs₁, hrest, ok_bind, List.sum_cons,
          Function.update_idem]
      · rw [List.map_cons, List.sum_cons, hsum, hret, List.sum_cons, hsplit, Int.natCast_add]
      · rw [List.flatMap_cons, hout', hout, hnext, hramdisk, ← hs.ramdisk, ← window_add,
          List.sum_cons, hsplit]

/-- Two ways of cutting one block into chunks, written by one file, have the same effect
and transfer the same number of bytes; so do two ways of cutting a read. -/
structure ChunkIndependent (s : State) : Prop where
  write : ∀ fd (xs ys : List (List UInt8)), xs.flatten = ys.flatten →
    ∃ rx sx ry sy, perform s (xs.map (.write fd)) = .ok (rx, sx) ∧
      perform s (ys.map (.write fd)) = .ok (ry, sy) ∧
      (rx.map Result.ret).sum = (ry.map Result.ret).sum ∧
      sx.ramdisk = sy.ramdisk ∧ sx.fPos = sy.fPos
  read : ∀ fd (ms ns : List ℕ), ms.sum = ns.sum →
    ∃ rm rn t, perform s (ms.map (.read fd)) = .ok (rm, t) ∧
      perform s (ns.map (.read fd)) = .ok (rn, t) ∧
      (rm.map Result.ret).sum = (rn.map Result.ret).sum ∧
      rm.flatMap Result.out = rn.flatMap Result.out

/-- Every run goes through. Afterwards all positions are in the ram disk or at its end,
every further call returns what `Answers` says, and a block can be transferred in
chunks of any sizes. -/
theorem array_runs_answer (content : ℕ → UInt8) (calls : List Call) :
    ∃ rs s, perform (initial content) calls = .ok (rs, s) ∧
      (∀ fd, 0 ≤ s.fPos fd ∧ s.fPos fd ≤ RAMDISK_SIZE) ∧
      s.ramdisk = lastStored content s.history ∧
      (∀ c, ∃ r s', call s c = .ok (r, s') ∧ Answers content s r s' c) ∧
      ChunkIndependent s := by
  obtain ⟨rs, s, hrun, hs⟩ := perform_sound (initial_sound content) calls
  refine ⟨rs, s, hrun, hs.positions, hs.ramdisk, fun c => ?_, ?_⟩
  · obtain ⟨r, s', hcall, hanswer, -⟩ := call_answers hs c
    exact ⟨r, s', hcall, hanswer⟩
  · exact {
      write := fun fd xs ys hsame => by
        obtain ⟨rx, sx, hx, hsumx, hramdiskx, hfPosx⟩ := write_chunks hs fd xs
        obtain ⟨ry, sy, hy, hsumy, hramdisky, hfPosy⟩ := write_chunks hs fd ys
        rw [hsame] at hsumx hramdiskx hfPosx
        exact ⟨rx, sx, ry, sy, hx, hy, hsumx.trans hsumy.symm, hramdiskx.trans hramdisky.symm,
          hfPosx.trans hfPosy.symm⟩
      read := fun fd ms ns hsame => by
        obtain ⟨rm, hm, hsumm, houtm⟩ := read_chunks hs fd ms
        obtain ⟨rn, hn, hsumn, houtn⟩ := read_chunks hs fd ns
        rw [hsame] at hm hsumm houtm
        exact ⟨rm, rn, _, hm, hn, hsumm.trans hsumn.symm, houtm.trans houtn.symm⟩ }

end LddSamples.Dma.Ramdisk
