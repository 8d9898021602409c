import LddSamples.Char.Seek

/-!
# lab3_mmap: `membuff` in the address space of programs

Besides reading and writing files, programs map parts of `membuff`, and load and store
bytes through any number of mappings. `membuff` begins at a page of the physical memory,
and `remap_pfn_range` gives a mapping consecutive frames.
-/

namespace LddSamples.Char.Mmap

open Kernel CArith Outcome ByteMap

/-- What `chrdrv_mmap` reads of a `struct vm_area_struct`. -/
structure Vma where
  vmStart : ℕ
  vmEnd : ℕ
  vmPgoff : ℕ

/-- `vma->vm_pgoff << PAGE_SHIFT`, in 64 bits. -/
def Vma.offset (vma : Vma) : ℕ := toUInt64 (vma.vmPgoff * PAGE_SIZE)

def Vma.len (vma : Vma) : ℕ := toUInt64 (vma.vmEnd - vma.vmStart)

/-- A mapping that has been made: page `k` of the area is frame `pfn + k`. -/
structure Mapping where
  vma : Vma
  pfn : ℕ

/-- The physical address of byte `i`. -/
def Mapping.translate (m : Mapping) (i : ℕ) : ℕ :=
  (m.pfn + i / PAGE_SIZE) * PAGE_SIZE + i % PAGE_SIZE

/-- `membuff` begins at page `frame`; `remaps` is whether `remap_pfn_range` succeeds. -/
def chrdrvMmap (frame : ℕ) (vma : Vma) (remaps : Bool) : ℤ × Option Mapping :=
  if vma.offset ≥ MEMBUFF_SIZE then (-EINVAL, none)
  else if vma.len > MEMBUFF_SIZE - vma.offset then (-EINVAL, none)
  else if remaps then (0, some ⟨vma, (frame * PAGE_SIZE + vma.offset) / PAGE_SIZE⟩)
  else (-EAGAIN, none)

/-- The byte at an offset of `membuff`. -/
def membuff (frame : ℕ) (phys : ℕ → UInt8) (j : ℕ) : UInt8 := phys (frame * PAGE_SIZE + j)

def putMembuff (frame : ℕ) (phys content : ℕ → UInt8) (addr : ℕ) : UInt8 :=
  if frame * PAGE_SIZE ≤ addr then content (addr - frame * PAGE_SIZE) else phys addr

/-- `history` is what has been stored so far by any path, newest first, by offset in the
device; no call reads it. -/
structure State where
  phys : ℕ → UInt8
  fPos : ℕ → ℤ
  mappings : List Mapping
  history : List (ℕ × List UInt8)

inductive Call
  | file (c : Seek.Call)
  | mmap (vma : Vma) (remaps : Bool)
  | load (m i : ℕ)
  | store (m i : ℕ) (b : UInt8)

def initial (phys : ℕ → UInt8) : State := ⟨phys, fun _ => 0, [], []⟩

/-- The files on `membuff`. -/
def State.files (frame : ℕ) (s : State) : Seek.State := ⟨membuff frame s.phys, s.fPos, s.history⟩

def State.putFiles (frame : ℕ) (s : State) (t : Seek.State) : State :=
  ⟨putMembuff frame s.phys t.membuff, t.fPos, s.mappings, t.history⟩

def State.storeByte (s : State) (mapping : Mapping) (i : ℕ) (b : UInt8) : State :=
  { s with
    phys := Function.update s.phys (mapping.translate i) b
    history := (mapping.vma.vmPgoff * PAGE_SIZE + i, [b]) :: s.history }

/-- A program does not get past an access outside its mappings. -/
def State.mapped (s : State) (m i : ℕ) : Except Fault Mapping := do
  let mapping ← ofOption .indexOutOfBounds s.mappings[m]?
  require .indexOutOfBounds (i < mapping.vma.len)
  .ok mapping

def call (frame : ℕ) (s : State) : Call → Except Fault (Seek.Result × State)
  | .file c => do
      let (r, t) ← Seek.call (s.files frame) c
      .ok (r, s.putFiles frame t)
  | .mmap vma remaps =>
      let r := chrdrvMmap frame vma remaps
      .ok (⟨r.1, []⟩, { s with mappings := s.mappings ++ r.2.toList })
  | .load m i => do
      let mapping ← s.mapped m i
      .ok (⟨0, [s.phys (mapping.translate i)]⟩, s)
  | .store m i b => do
      let mapping ← s.mapped m i
      .ok (⟨0, []⟩, s.storeByte mapping i b)

def step (frame : ℕ) (s : State) (c : Call) : Except Fault State :=
  (call frame s c).map Prod.snd

/-- The area lies inside `membuff`, in its own page offset. -/
def Vma.Fits (vma : Vma) : Prop := vma.vmPgoff * PAGE_SIZE + vma.len ≤ MEMBUFF_SIZE

def Call.Admissible : Call → Prop
  | .file c => c.Admissible
  | .mmap vma _ => vma.vmPgoff < 2 ^ 52
  | _ => True

/-- The access is one to a mapping. -/
def Call.Mapped (s : State) : Call → Prop
  | .load m i => ∃ mapping, s.mappings[m]? = some mapping ∧ i < mapping.vma.len
  | .store m i _ => ∃ mapping, s.mappings[m]? = some mapping ∧ i < mapping.vma.len
  | _ => True

/-- What a call returns and changes, in terms of what both paths have stored so far. -/
def Answers (frame : ℕ) (content : ℕ → UInt8) (s : State) (r : Seek.Result) (s' : State) :
    Call → Prop
  | .file c =>
      Seek.Answers content (s.files frame) r (s'.files frame) c ∧ s'.mappings = s.mappings
  | .mmap vma _ =>
      (r.ret = 0 → vma.Fits ∧ ∃ m, m.vma = vma ∧ s'.mappings = s.mappings ++ [m]) ∧
        (r.ret ≠ 0 → s' = s) ∧ s'.files frame = s.files frame
  | .load m i => ∃ mapping, s.mappings[m]? = some mapping ∧
      r.out = [lastStored content s.history (mapping.vma.vmPgoff * PAGE_SIZE + i)] ∧ s' = s
  | .store m i b => ∃ mapping, s.mappings[m]? = some mapping ∧
      s'.history = (mapping.vma.vmPgoff * PAGE_SIZE + i, [b]) :: s.history ∧
      s'.fPos = s.fPos ∧ s'.mappings = s.mappings

/-! ## Addresses -/

variable {frame : ℕ} {content phys : ℕ → UInt8} {s s' : State} {c : Call}

theorem offset_eq {vma : Vma} (h : vma.vmPgoff < 2 ^ 52) :
    vma.offset = vma.vmPgoff * PAGE_SIZE := by
  have hshift : vma.vmPgoff * PAGE_SIZE < 18446744073709551616 := by
    unfold PAGE_SIZE
    omega
  rw [Vma.offset, ← Nat.cast_mul]
  exact toUInt64_natCast hshift

theorem translate_eq (m : Mapping) (i : ℕ) : m.translate i = m.pfn * PAGE_SIZE + i := by
  rw [Mapping.translate, Nat.add_mul, Nat.add_assoc, Nat.div_add_mod']

/-- A mapping is made only of a part of `membuff`, and of the frames of that part. -/
theorem chrdrvMmap_cases (frame : ℕ) {vma : Vma} (remaps : Bool) (h : vma.vmPgoff < 2 ^ 52) :
    chrdrvMmap frame vma remaps = (0, some ⟨vma, frame + vma.vmPgoff⟩) ∧ vma.Fits ∨
      (chrdrvMmap frame vma remaps).1 ≠ 0 ∧ (chrdrvMmap frame vma remaps).2 = none := by
  have hpage : 0 < PAGE_SIZE := by decide
  unfold chrdrvMmap
  split_ifs with hoffset hlen hremaps
  · exact .inr ⟨by decide, rfl⟩
  · exact .inr ⟨by decide, rfl⟩
  · rw [offset_eq h] at hoffset hlen ⊢
    rw [← Nat.add_mul, Nat.mul_div_cancel _ hpage]
    exact .inl ⟨rfl, by unfold Vma.Fits; omega⟩
  · exact .inr ⟨by decide, rfl⟩

theorem membuff_putMembuff (frame : ℕ) (phys content : ℕ → UInt8) :
    membuff frame (putMembuff frame phys content) = content := by
  funext j
  rw [membuff, putMembuff, if_pos (Nat.le_add_right _ _), Nat.add_sub_cancel_left]

theorem membuff_update (frame : ℕ) (phys : ℕ → UInt8) (j : ℕ) (b : UInt8) :
    membuff frame (Function.update phys (frame * PAGE_SIZE + j) b) =
      overwrite (membuff frame phys) j [b] := by
  funext i
  rw [overwrite_singleton, membuff]
  by_cases heq : i = j
  · rw [heq, Function.update_self, Function.update_self]
  · rw [Function.update_of_ne heq, Function.update_of_ne fun h => heq (Nat.add_left_cancel h)]
    rfl

/-! ## Runs -/

structure Sound (frame : ℕ) (content : ℕ → UInt8) (s : State) : Prop where
  files : Seek.Sound content (s.files frame)
  mappings : ∀ m ∈ s.mappings, m.vma.Fits ∧ m.pfn = frame + m.vma.vmPgoff

theorem initial_sound (frame : ℕ) (phys : ℕ → UInt8) :
    Sound frame (membuff frame phys) (initial phys) where
  files := Seek.initial_sound (membuff frame phys)
  mappings _ := nofun

/-- A byte of a mapping is the byte of the device behind it. -/
theorem Sound.translate_eq (hs : Sound frame content s) {m : Mapping} (hm : m ∈ s.mappings)
    (i : ℕ) : m.translate i = frame * PAGE_SIZE + (m.vma.vmPgoff * PAGE_SIZE + i) := by
  rw [Mmap.translate_eq, (hs.mappings m hm).2, Nat.add_mul, Nat.add_assoc]

theorem mapped_eq {m i : ℕ} {mapping : Mapping} (hm : s.mappings[m]? = some mapping)
    (hi : i < mapping.vma.len) : s.mapped m i = .ok mapping := by
  rw [State.mapped, hm, ofOption_some, ok_bind, require_of hi, ok_bind]

theorem files_putFiles (frame : ℕ) (s : State) (t : Seek.State) :
    (s.putFiles frame t).files frame = t := by
  rw [State.putFiles, State.files, membuff_putMembuff]

/-- A store through a mapping is one at the device byte behind it. -/
theorem Sound.storeByte (hs : Sound frame content s) {mapping : Mapping}
    (hm : mapping ∈ s.mappings) (i : ℕ) (b : UInt8) :
    Sound frame content (s.storeByte mapping i b) := by
  refine ⟨⟨hs.files.positions, ?_⟩, hs.mappings⟩
  have hstored : (s.files frame).membuff = lastStored content s.history := hs.files.membuff
  change membuff frame (Function.update s.phys (mapping.translate i) b) =
    lastStored content ((mapping.vma.vmPgoff * PAGE_SIZE + i, [b]) :: s.history)
  rw [hs.translate_eq hm, membuff_update, lastStored_cons, ← hstored]
  rfl

theorem call_answers (hs : Sound frame content s) (hc : c.Admissible) (hmapped : c.Mapped s) :
    ∃ r s', call frame s c = .ok (r, s') ∧ Answers frame content s r s' c ∧
      Sound frame content s' := by
  cases c with
  | file c =>
      obtain ⟨r, t, hcall, hanswers, hsound⟩ := Seek.call_answers hs.files hc
      rw [← files_putFiles frame s t] at hanswers hsound
      exact ⟨r, s.putFiles frame t, by simp only [call, hcall, ok_bind], ⟨hanswers, rfl⟩,
        ⟨hsound, hs.mappings⟩⟩
  | mmap vma remaps =>
      rcases chrdrvMmap_cases frame remaps hc with ⟨hmade, hfits⟩ | ⟨hret, hnone⟩
      · refine ⟨⟨0, []⟩, { s with mappings := s.mappings ++ [⟨vma, frame + vma.vmPgoff⟩] }, ?_,
          ⟨fun _ => ⟨hfits, _, rfl, rfl⟩, fun hne => absurd rfl hne, rfl⟩,
          ⟨hs.files, fun m hm => ?_⟩⟩
        · simp only [call, hmade, Option.toList_some]
        · rcases List.mem_append.mp hm with hold | hnew
          · exact hs.mappings m hold
          · rw [List.mem_singleton.mp hnew]
            exact ⟨hfits, rfl⟩
      · refine ⟨⟨(chrdrvMmap frame vma remaps).1, []⟩, s, ?_,
          ⟨fun hzero => absurd hzero hret, fun _ => rfl, rfl⟩, hs⟩
        simp only [call, hnone, Option.toList_none, List.append_nil]
  | load m i =>
      obtain ⟨mapping, hm, hi⟩ := hmapped
      have hstored : (s.files frame).membuff = lastStored content s.history := hs.files.membuff
      refine ⟨⟨0, [s.phys (mapping.translate i)]⟩, s,
        by simp only [call, mapped_eq hm hi, ok_bind], ⟨mapping, hm, ?_, rfl⟩, hs⟩
      rw [hs.translate_eq (List.mem_of_getElem? hm), ← hstored]
      rfl
  | store m i b =>
      obtain ⟨mapping, hm, hi⟩ := hmapped
      exact ⟨⟨0, []⟩, s.storeByte mapping i b, by simp only [call, mapped_eq hm hi, ok_bind],
        ⟨mapping, hm, rfl, rfl, rfl⟩, hs.storeByte (List.mem_of_getElem? hm) i b⟩

/-- A call that goes through was one to a mapping if it is an access. -/
theorem mapped_of_call {r : Seek.Result} (h : call frame s c = .ok (r, s')) : c.Mapped s := by
  have hmapped : ∀ m i mapping, s.mapped m i = .ok mapping →
      ∃ mapping, s.mappings[m]? = some mapping ∧ i < mapping.vma.len := by
    intro m i mapping hok
    simp only [State.mapped, bind_eq_ok, ofOption_eq_ok, require_eq_ok] at hok
    obtain ⟨mapping', hm, _, hi, -⟩ := hok
    exact ⟨mapping', hm, hi⟩
  cases c with
  | file c => trivial
  | mmap vma remaps => trivial
  | load m i =>
      simp only [call, bind_eq_ok] at h
      obtain ⟨mapping, hok, -⟩ := h
      exact hmapped m i mapping hok
  | store m i b =>
      simp only [call, bind_eq_ok] at h
      obtain ⟨mapping, hok, -⟩ := h
      exact hmapped m i mapping hok

theorem step_sound (hs : Sound frame content s) (hc : c.Admissible)
    (h : step frame s c = .ok s') : Sound frame content s' := by
  cases hcall : call frame s c with
  | error f =>
      rw [step, hcall] at h
      cases h
  | ok result =>
      obtain ⟨r, t⟩ := result
      rw [step, hcall] at h
      cases h
      obtain ⟨r', t', hcall', -, hsound⟩ := call_answers hs hc (mapped_of_call hcall)
      rw [hcall] at hcall'
      cases hcall'
      exact hsound

end LddSamples.Char.Mmap
