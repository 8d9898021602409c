import LddSamples.Library.RetryLoop
import LddSamples.Library.Runs
import LddSamples.Library.SparseFile
import LddSamples.Scullc.Invariant

/-!
# The plain operations refine a sparse file

Piece `k` of the file is slot `k % qset` of list item `k / qset`. Under a
geometry whose quantum the cache objects can hold, every plain call does to the
file what `SparseFile` says, so whole histories of calls do.
-/

namespace LddSamples.Scullc

open Kernel CArith Outcome ByteMap SparseFile

variable {q s : ℕ} {m : Module} {heap : Heap} {dev : ScullcDev}

/-! ## The file a device stores -/

def ScullcDev.toFile (q s : ℕ) (dev : ScullcDev) : File UInt8 where
  size := dev.size
  value p := ((dev.quantumAt (p / q / s) (p / q % s)).bind fun mem => mem.cells (p % q)).getD 0
  present k := (dev.quantumAt (k / s) (k % s)).isSome

def InRange (q s p : ℕ) : Prop := ((p / q / s : ℕ) : ℤ) ≤ INT_MAX

theorem toFile_fresh (q s : ℕ) : (ScullcDev.fresh q s).toFile q s = SparseFile.empty 0 := by
  apply File.ext_fields
  · rfl
  · intro i
    simp [ScullcDev.toFile, fresh_quantumAt, SparseFile.empty]
  · intro k
    simp [ScullcDev.toFile, fresh_quantumAt, SparseFile.empty]

structure Represents (q s : ℕ) (dev : ScullcDev) (f : File UInt8) : Prop where
  wellFormed : WellFormed q s dev
  size_lt : dev.size < 9223372036854775808
  file : dev.toFile q s = f

theorem Represents.size_eq {f : File UInt8} (h : Represents q s dev f) : dev.size = f.size :=
  congrArg File.size h.file

theorem represents_fresh (q s : ℕ) : Represents q s (.fresh q s) (SparseFile.empty 0) where
  wellFormed := wellFormed_fresh q s
  size_lt := by simp [ScullcDev.fresh]
  file := toFile_fresh q s

theorem InRange.lt (hg : Geometry q s) {p : ℕ} (hp : InRange q s p) :
    p < 4611686016279904256 := by
  have hmax := INT_MAX_eq
  have hfits : q * s ≤ 2147483647 := by
    have := hg.fits
    rw [hmax] at this
    exact_mod_cast this
  have hpos : 0 < q * s := Nat.mul_pos hg.quantum_pos hg.qset_pos
  have hdiv : p / (q * s) < 2147483648 := by
    rw [← Nat.div_div_eq_div_mul]
    unfold InRange at hp
    omega
  calc
    p < 2147483648 * (q * s) := (Nat.div_lt_iff_lt_mul hpos).mp hdiv
    _ ≤ 2147483648 * 2147483647 := Nat.mul_le_mul_left _ hfits
    _ ≤ 4611686016279904256 := by norm_num

theorem slot_eq_iff {k l : ℕ} : (k / s = l / s ∧ k % s = l % s) ↔ k = l := by
  constructor
  · rintro ⟨hdiv, hmod⟩
    rw [← Nat.div_add_mod k s, ← Nat.div_add_mod l s, hdiv, hmod]
  · rintro rfl
    exact ⟨rfl, rfl⟩

theorem SameData.toFile {dev dev₁ : ScullcDev} (h : SameData dev dev₁) :
    dev₁.toFile q s = dev.toFile q s := by
  apply File.ext_fields
  · exact h.size
  · intro p
    simp only [ScullcDev.toFile, h.quantumAt]
  · intro k
    simp only [ScullcDev.toFile, h.quantumAt]

theorem Represents.of_sameData {dev dev₁ : ScullcDev} {f : File UInt8}
    (h : Represents q s dev f) (hsame : SameData dev dev₁) : Represents q s dev₁ f where
  wellFormed := hsame.wellFormed h.wellFormed
  size_lt := hsame.size ▸ h.size_lt
  file := hsame.toFile.trans h.file

/-! ## One read -/

/-- What a plain call returns when it moves `n` bytes at `p`. -/
structure Moves (t : Transfer) (p n : ℕ) : Prop where
  ret : t.ret = n
  pos : t.pos = p + n

/-- Where the file has no byte to read, the code takes `goto nothing`. -/
theorem hole_of_absent (hg : Geometry q s) (hdev : WellFormed q s dev) {p : ℕ}
    (hp : InRange q s p) (habsent : (dev.toFile q s).present (p / q) = false) :
    Hole dev q s p := by
  refine ⟨_, locate_eq hg p, ?_⟩
  simp only [ScullcDev.toFile, ScullcDev.quantumAt, Option.isSome_eq_false_iff,
    Option.isNone_iff_eq_none, Option.bind_eq_none_iff] at habsent
  simp only [toUInt32_item hp]
  cases hdata : dev.dataAt (p / q / s) with
  | none => exact .inl rfl
  | some data =>
      refine .inr ⟨data, rfl, PtrArray.fetch_eq_ok.mpr ⟨?_, ?_⟩⟩
      · have := Nat.mod_lt (p / q) hg.qset_pos
        have := hdev.shaped _ _ hdata
        have := hdev.qset_eq
        omega
      · rw [Int.toNat_natCast]
        exact habsent data hdata

/-- Where the file has bytes to read, the code finds them initialised. -/
theorem Represents.readFinds {f : File UInt8} (hg : Geometry q s) (hroom : q ≤ m.objectSize)
    (hdev : Represents q s dev f) {p n : ℕ} (hp : InRange q s p) (hn : n < 4611686018427387904)
    (hsize : p ≤ f.size) (hpresent : f.present (p / q) = true) :
    ReadFinds m dev q s n p ((SparseFile.read q f p n).map some) := by
  obtain ⟨hwf, hlt, rfl⟩ := hdev
  have hplt := hp.lt hg
  have hqmod := Nat.mod_lt p hg.quantum_pos
  obtain ⟨mem, hmem⟩ := Option.isSome_iff_exists.mp hpresent
  obtain ⟨data, hdata, hslot⟩ := Option.bind_eq_some_iff.mp hmem
  have hlen : (data.len : ℤ) = s := (hwf.shaped _ _ hdata).trans hwf.qset_eq
  have hslt := Nat.mod_lt (p / q) hg.qset_pos
  have hfetch : data.fetch ((p / q % s : ℕ) : ℤ) = .ok (some mem) :=
    PtrArray.fetch_eq_ok.mpr ⟨by omega, by rw [Int.toNat_natCast]; exact hslot⟩
  have hclamp : clampSize dev.size p n = min n (dev.size - p) := by
    have hin : (p : ℤ) ≤ dev.size := by exact_mod_cast hsize
    rw [clampSize_of_mem (Int.natCast_nonneg p) hin (by omega) (by omega)]
    omega
  have hread : readCount q (dev.toFile q s) p n = min n (min (dev.size - p) (room q p)) := by
    refine if_neg (not_or.mpr ⟨Nat.not_lt.mpr hsize, ?_⟩)
    simp [hpresent]
  have hcount : clampCount q ((p % q : ℕ) : ℤ) (clampSize dev.size p n) =
      readCount q (dev.toFile q s) p n := by
    rw [clampCount_eq hg.quantum_pos hg.quantum_le, hclamp, hread]
    unfold room
    omega
  have hcountle : readCount q (dev.toFile q s) p n ≤ room q p := by
    rw [hread]
    omega
  unfold room at hcountle
  have hpos : toUInt64 (p : ℤ) = p := toUInt64_natCast (by omega)
  have hitem : dev.dataAt (toUInt32 (toInt32 ((p / q / s : ℕ) : ℤ))) = some data := by
    rw [toUInt32_item hp]
    exact hdata
  refine ⟨by rwa [hpos], _, data, mem, locate_eq hg p, hitem, hfetch, ?_, ?_⟩
  · rw [hcount]
    have hend : ((p % q : ℕ) : ℤ) + (readCount q (dev.toFile q s) p n : ℕ) ≤ m.objectSize := by
      omega
    exact .inr ⟨Int.natCast_nonneg _, hend⟩
  · rw [hcount, SparseFile.read, window_map, Int.toNat_natCast]
    unfold window
    refine List.map_congr_left fun i hi => ?_
    -- the delivered bytes stay in the quantum, and all of it has been initialised
    have hin : i < readCount q (dev.toFile q s) p n := List.mem_range.mp hi
    have hdiv : (p + i) / q = p / q := by
      apply div_eq_of_lt_writeCount (n := i + 1) hg.quantum_pos
      unfold writeCount room
      omega
    have hmod : (p + i) % q = p % q + i := by
      have h₁ := Nat.div_add_mod (p + i) q
      have h₂ := Nat.div_add_mod p q
      rw [hdiv] at h₁
      omega
    obtain ⟨b, hb⟩ := Option.isSome_iff_exists.mp
      (hwf.filled _ _ _ hmem (p % q + i) (by omega))
    simp only [ScullcDev.toFile, hdiv, hmod, hmem, hb, Option.bind_some, Option.getD_some]

theorem scullcDoRead_refines {f : File UInt8} (hg : Geometry q s) (hroom : q ≤ m.objectSize)
    (heap : Heap) (hdev : Represents q s dev f) {p n : ℕ} (hp : InRange q s p)
    (hn : n < 4611686018427387904) :
    ∃ t, scullcDoRead Env.calm m heap dev n p false = .ok t ∧
      Moves t p (readCount q f p n) ∧ t.out = (SparseFile.read q f p n).map some ∧
      Represents q s t.dev f := by
  have hplt := hp.lt hg
  have hlocked : Represents q s dev.lock f := hdev.of_sameData (.lock dev)
  have hstart : scullcDoRead Env.calm m heap dev n p false =
      readLocked Env.calm m heap dev.lock q s n p false := by
    simp [scullcDoRead, hdev.wellFormed.quantum_eq, hdev.wellFormed.qset_eq]
  rw [hstart]
  by_cases hstop : f.size < p ∨ f.present (p / q) = false
  · have hcount : readCount q f p n = 0 := if_pos hstop
    have hnothing : dev.lock.size < toUInt64 (p : ℤ) ∨ Hole dev.lock q s p := by
      rcases hstop with hsize | habsent
      · left
        rw [toUInt64_natCast (by omega)]
        exact hdev.size_eq ▸ hsize
      · right
        apply hole_of_absent hg hlocked.wellFormed hp
        rw [hlocked.file]
        exact habsent
    obtain ⟨dev₁, heap₁, hread, hsame⟩ := readTarget_calm_none heap n hnothing
    refine ⟨_, readLocked_of_none hread, ⟨?_, ?_⟩, ?_, hlocked.of_sameData hsame.unlock⟩
    · rw [hcount]
      rfl
    · rw [hcount]
      exact (Int.add_zero _).symm
    · rw [SparseFile.read, hcount]
      rfl
  · obtain ⟨hsize, hpresent⟩ := not_or.mp hstop
    rw [Bool.not_eq_false] at hpresent
    have hfound := hlocked.readFinds hg hroom hp hn (Nat.not_lt.mp hsize) hpresent
    have hread := readTarget_of_finds Env.calm heap hfound
    have hle := readCount_le q f p n
    have hplus : toInt64 ((p : ℤ) + (readCount q f p n : ℕ)) = p + (readCount q f p n : ℕ) :=
      toInt64_of_mem (by omega) (by omega)
    have hcopy := readCopy_calm dev.lock heap ((SparseFile.read q f p n).map some) p
    rw [List.length_map, read_length, hplus] at hcopy
    exact ⟨_, (readLocked_of_some hread).trans (congrArg Except.ok hcopy), ⟨rfl, rfl⟩, rfl,
      hlocked.of_sameData (SameData.refl dev.lock).unlock⟩

/-! ## One write -/

theorem Represents.writeFinds {f : File UInt8} (hg : Geometry q s) (hroom : q ≤ m.objectSize)
    (hglobal : m.scullcQuantum = q) (heap : Heap) (hdev : Represents q s dev f) {p : ℕ} (n : ℕ)
    (hp : InRange q s p) :
    ∃ t dev₁ heap₁, writeTarget Env.calm m heap dev q s n p = .ok (some t, dev₁, heap₁) ∧
      WriteFinds m dev q s n p t dev₁ ∧ t.item = p / q / s ∧ t.sPos = (p / q % s : ℕ) ∧
      t.qPos = (p % q : ℕ) ∧ t.count = writeCount q p n := by
  have hmod := Nat.mod_lt p hg.quantum_pos
  have hslt := Nat.mod_lt (p / q) hg.qset_pos
  have hlen : dev.lenAt (toUInt32 (toInt32 ((p / q / s : ℕ) : ℤ))) s = s := by
    have := hdev.wellFormed.shaped.lenAt (toUInt32 (toInt32 ((p / q / s : ℕ) : ℤ)))
    rwa [hdev.wellFormed.qset_eq] at this
  have hcount : clampCount q ((p % q : ℕ) : ℤ) n = writeCount q p n :=
    clampCount_eq hg.quantum_pos hg.quantum_le p n
  have hclear : toUInt64 m.scullcQuantum ≤ m.objectSize := by
    have hmax := INT_MAX_eq
    have := hg.quantum_le
    rw [hglobal, toUInt64_natCast (by omega)]
    exact hroom
  have hinside : Inside m.objectSize ((p % q : ℕ) : ℤ) (clampCount q ((p % q : ℕ) : ℤ) n) := by
    rw [hcount]
    have hend : ((p % q : ℕ) : ℤ) + (writeCount q p n : ℕ) ≤ m.objectSize := by
      unfold writeCount room
      omega
    exact .inr ⟨Int.natCast_nonneg _, hend⟩
  obtain ⟨t, dev₁, heap₁, hwrite⟩ := writeTarget_calm heap (locate_eq hg p)
    (Int.natCast_nonneg s) ⟨Int.natCast_nonneg _, by rw [hlen]; exact_mod_cast hslt⟩ hclear hinside
  have hfinds := writeTarget_some hwrite
  obtain ⟨item, hloc, hitem⟩ := hfinds.located
  rw [locate_eq hg p] at hloc
  obtain ⟨rfl, hsPos, hqPos⟩ := Loc.mk.inj (Except.ok.inj hloc)
  refine ⟨t, dev₁, heap₁, hwrite, hfinds, ?_, hsPos.symm, hqPos.symm, ?_⟩
  · rw [hitem, toUInt32_item hp]
  · rw [hfinds.count_eq, ← hqPos, hcount]

/-- The bytes of a new quantum and those of a hole in the file are zero alike. -/
theorem WriteFinds.cells_getD {t : WriteTarget} {dev₁ : ScullcDev} {n : ℕ} {pos : ℤ}
    (h : WriteFinds m dev q s n pos t dev₁) (o : ℕ) :
    (t.mem.cells o).getD 0 =
      ((dev.quantumAt t.item t.sPos.toNat).bind fun mem => mem.cells o).getD 0 := by
  rcases h.mem_eq with hold | ⟨hnone, -, hcells⟩
  · rw [hold]
    rfl
  · simp only [hnone, hcells, Option.bind_none]
    split <;> rfl

theorem WriteFinds.toFile_fill {t : WriteTarget} {dev₁ : ScullcDev} {p n : ℕ}
    (hg : Geometry q s) (h : WriteFinds m dev q s n p t dev₁) (hitem : t.item = p / q / s)
    (hsPos : t.sPos = (p / q % s : ℕ)) (hqPos : t.qPos = (p % q : ℕ)) {bytes : List UInt8}
    (hfit : bytes.length ≤ room q p) (i : ℕ) :
    ((t.fill dev₁ (bytes.map some)).toFile q s).value i =
      overwrite (dev.toFile q s).value p bytes i := by
  have hsNat : t.sPos.toNat = p / q % s := by
    rw [hsPos, Int.toNat_natCast]
  have hqNat : t.qPos.toNat = p % q := by
    rw [hqPos, Int.toNat_natCast]
  have hvalue : ((t.fill dev₁ (bytes.map some)).toFile q s).value i =
      if i / q / s = t.item ∧ i / q % s = t.sPos.toNat then
        (overwrite t.mem.cells t.qPos.toNat (bytes.map some) (i % q)).getD 0
      else (dev.toFile q s).value i := by
    simp only [ScullcDev.toFile, h.quantumAt_fill]
    split <;> rfl
  rw [hvalue, hitem, hsNat, hqNat]
  by_cases hsame : i / q = p / q
  · rw [if_pos (slot_eq_iff.mpr hsame), overwrite_getD]
    have hi := Nat.div_add_mod i q
    have hp := Nat.div_add_mod p q
    rw [hsame] at hi
    rw [← overwrite_shift (c := q * (p / q)) (g := (dev.toFile q s).value), hi, hp]
    rw [hi, h.cells_getD, hitem, hsNat]
    simp only [ScullcDev.toFile, hsame]
  · rw [if_neg fun hslot => hsame (slot_eq_iff.mp hslot)]
    by_cases hlow : i < p
    · rw [overwrite_of_lt _ _ hlow]
    · refine (overwrite_of_ge _ ?_).symm
      by_contra hhigh
      apply hsame
      obtain ⟨j, rfl⟩ := Nat.exists_eq_add_of_le (Nat.not_lt.mp hlow)
      apply div_eq_of_lt_writeCount (n := bytes.length) hg.quantum_pos
      unfold writeCount
      omega

theorem ScullcDev.extend_size {p : ℕ} (hp : p < 9223372036854775808) (dev : ScullcDev) :
    (dev.extend p).size = max dev.size p := by
  unfold ScullcDev.extend
  rw [toUInt64_natCast (by omega)]
  split
  · next hlt => exact (Nat.max_eq_right (Nat.le_of_lt hlt)).symm
  · next hle => exact (Nat.max_eq_left (Nat.not_lt.mp hle)).symm

theorem WriteFinds.represents {f : File UInt8} {t : WriteTarget} {dev₁ : ScullcDev} {p : ℕ}
    {buf : List UInt8} (hg : Geometry q s) (hglobal : m.scullcQuantum = q)
    (hdev : Represents q s dev f) (hp : InRange q s p)
    (h : WriteFinds m dev q s buf.length p t dev₁) (hitem : t.item = p / q / s)
    (hsPos : t.sPos = (p / q % s : ℕ)) (hqPos : t.qPos = (p % q : ℕ))
    (hcount : t.count = writeCount q p buf.length) :
    Represents q s
      ((t.fill dev₁ ((buf.take t.count).map some)).extend ((p + t.count : ℕ) : ℤ)).unlock
      (SparseFile.write q f p buf) := by
  have hplt := hp.lt hg
  have hqle := hg.quantum_le
  have hmax := INT_MAX_eq
  have hle : writeCount q p buf.length ≤ room q p := Nat.min_le_right ..
  have hroomle := room_le q p
  have hafter : AfterWrite (t.fill dev₁ ((buf.take t.count).map some))
      ((t.fill dev₁ ((buf.take t.count).map some)).extend ((p + t.count : ℕ) : ℤ)).unlock :=
    ⟨fun i => by simp, by simp, by simp, ScullcDev.extend_vmas ..⟩
  have hclear : q ≤ toUInt64 m.scullcQuantum := by
    rw [hglobal, toUInt64_natCast (by omega)]
  have hsome : ∀ c ∈ (buf.take t.count).map some, c.isSome := by
    intro c hc
    obtain ⟨b, -, rfl⟩ := List.mem_map.mp hc
    rfl
  have hsize : ((t.fill dev₁ ((buf.take t.count).map some)).extend
      ((p + t.count : ℕ) : ℤ)).unlock.size = max f.size (p + t.count) := by
    rw [ScullcDev.unlock_size, ScullcDev.extend_size (by omega), WriteTarget.fill,
      ScullcDev.setDataAt_size, h.size, hdev.size_eq]
  have hlt := hdev.size_lt
  rw [hdev.size_eq] at hlt
  constructor
  · constructor
    · rw [hafter.quantum, WriteTarget.fill, ScullcDev.setDataAt_quantum, h.quantum]
      exact hdev.wellFormed.quantum_eq
    · rw [hafter.qset, WriteTarget.fill, ScullcDev.setDataAt_qset, h.qset]
      exact hdev.wellFormed.qset_eq
    · rw [← hdev.wellFormed.qset_eq] at h
      exact hafter.shaped (h.shaped_fill hdev.wellFormed.shaped _)
    · exact hafter.filled (h.filled_fill hdev.wellFormed.filled (fun _ => hclear) hsome)
  · rw [hsize]
    omega
  · apply File.ext_fields
    · rw [hcount] at hsize
      rw [hcount]
      exact hsize
    · intro i
      have hfit : (buf.take t.count).length ≤ room q p := by
        rw [List.length_take]
        omega
      have hvalue := h.toFile_fill hg hitem hsPos hqPos hfit i
      have hfile : (dev.toFile q s).value = f.value := congrArg File.value hdev.file
      simp only [ScullcDev.toFile, hafter.quantumAt] at hvalue hfile ⊢
      rw [hvalue, hfile, hcount]
      rfl
    · intro k
      have hpresent : (dev.toFile q s).present k = f.present k :=
        congrFun (congrArg File.present hdev.file) k
      have hsNat : t.sPos.toNat = p / q % s := by
        rw [hsPos, Int.toNat_natCast]
      simp only [ScullcDev.toFile, hafter.quantumAt, h.quantumAt_fill, hitem, hsNat,
        slot_eq_iff] at hpresent ⊢
      by_cases hk : k = p / q
      · simp [hk, SparseFile.write]
      · simp only [if_neg hk, hpresent, SparseFile.write, beq_eq_false_iff_ne.mpr hk,
          Bool.false_or]

theorem scullcDoWrite_refines {f : File UInt8} (hg : Geometry q s) (hroom : q ≤ m.objectSize)
    (hglobal : m.scullcQuantum = q) (heap : Heap) (hdev : Represents q s dev f) {p : ℕ}
    (hp : InRange q s p) (buf : List UInt8) :
    ∃ t, scullcDoWrite Env.calm m heap dev buf buf.length p false = .ok t ∧
      Moves t p (writeCount q p buf.length) ∧
        Represents q s t.dev (SparseFile.write q f p buf) := by
  have hplt := hp.lt hg
  have hqle := hg.quantum_le
  have hmax := INT_MAX_eq
  have hlocked : Represents q s dev.lock f := hdev.of_sameData (.lock dev)
  have hstart : scullcDoWrite Env.calm m heap dev buf buf.length p false =
      writeLocked Env.calm m heap dev.lock q s buf buf.length p false := by
    simp [scullcDoWrite, hdev.wellFormed.quantum_eq, hdev.wellFormed.qset_eq]
  obtain ⟨t, dev₁, heap₁, hwrite, hfinds, hitem, hsPos, hqPos, hcount⟩ :=
    hlocked.writeFinds hg hroom hglobal heap buf.length hp
  have hle : writeCount q p buf.length ≤ room q p := Nat.min_le_right ..
  have hroomle := room_le q p
  have hplus : toInt64 ((p : ℤ) + (t.count : ℕ)) = ((p + t.count : ℕ) : ℤ) := by
    rw [toInt64_of_mem (by omega) (by omega)]
    push_cast
    rfl
  have hcopy := writeCopy_calm dev₁ heap₁ t buf p
  rw [hplus] at hcopy
  have hafter := hfinds.represents hg hglobal hlocked hp hitem hsPos hqPos hcount
  have hmoves : Moves (writeCopy Env.calm dev₁ heap₁ t buf p false) p
      (writeCount q p buf.length) := by
    rw [hcopy, ← hcount]
    exact ⟨rfl, Int.natCast_add p t.count⟩
  refine ⟨_, hstart.trans (writeLocked_of_some hwrite), hmoves, ?_⟩
  rw [hcopy]
  exact hafter

/-! ## Histories of plain calls -/

inductive PlainOp
  | write (pos : ℕ) (buf : List UInt8)
  | read (pos count : ℕ)

def PlainOp.run (m : Module) (st : Heap × ScullcDev) : PlainOp → Except Fault Transfer
  | .write pos buf => scullcDoWrite Env.calm m st.1 st.2 buf buf.length pos false
  | .read pos count => scullcDoRead Env.calm m st.1 st.2 count pos false

def plainStep (m : Module) (st : Heap × ScullcDev) (op : PlainOp) :
    Except Fault (Heap × ScullcDev) :=
  (op.run m st).map fun t => (t.heap, t.dev)

def PlainOp.Admissible (q s : ℕ) : PlainOp → Prop
  | .write pos buf => InRange q s pos ∧ buf.length ≤ MAX_RW_COUNT
  | .read pos count => InRange q s pos ∧ count ≤ MAX_RW_COUNT

/-- The write requests of a history, newest first. -/
def writesOf (ops : List PlainOp) : List (ℕ × List UInt8) :=
  (ops.filterMap fun
    | .write pos buf => some (pos, buf)
    | .read _ _ => none).reverse

/-- What the call returns when the device stores the file `f`. -/
def PlainOp.Answers (q : ℕ) (f : File UInt8) (t : Transfer) : PlainOp → Prop
  | .write pos buf => Moves t pos (writeCount q pos buf.length)
  | .read pos count =>
      Moves t pos (readCount q f pos count) ∧ t.out = (SparseFile.read q f pos count).map some

def PlainOp.after (q : ℕ) (f : File UInt8) : PlainOp → File UInt8
  | .write pos buf => SparseFile.write q f pos buf
  | .read _ _ => f

/-- The file keeps, of every offset, the byte last stored there, its size is the largest
end of a stored stretch, and a quantum is there if a write started in it. -/
structure Keeps (q : ℕ) (log : List (ℕ × List UInt8)) (f : File UInt8) : Prop where
  value : f.value = lastStored (fun _ => 0) (stored q log)
  size : f.size = ((stored q log).map fun t => t.1 + t.2.length).foldr max 0
  present : ∀ k, f.present k = log.any fun t => k == t.1 / q

theorem keeps_ofLog (q : ℕ) (log : List (ℕ × List UInt8)) : Keeps q log (ofLog q 0 log) where
  value := ofLog_value q 0 log
  size := ofLog_size q 0 log
  present := ofLog_present q 0 log

/-- After every history of admissible calls on an emptied device, the device keeps
what was written, and every call is answered by the sparse file with that history. -/
def RefinesSparseFile (m : Module) (q s : ℕ) : Prop :=
  ∀ (heap : Heap) (ops : List PlainOp), (∀ op ∈ ops, op.Admissible q s) →
    ∃ st, Runs.exec (plainStep m) (heap, .fresh q s) ops = .ok st ∧
      Keeps q (writesOf ops) (st.2.toFile q s) ∧
      st.2.toFile q s = ofLog q 0 (writesOf ops) ∧
      ∀ op : PlainOp, op.Admissible q s →
        ∃ t, op.run m st = .ok t ∧ op.Answers q (ofLog q 0 (writesOf ops)) t ∧
          t.dev.toFile q s = op.after q (ofLog q 0 (writesOf ops))

theorem PlainOp.run_refines {f : File UInt8} (hg : Geometry q s) (hroom : q ≤ m.objectSize)
    (hglobal : m.scullcQuantum = q) (heap : Heap) (hdev : Represents q s dev f) {op : PlainOp}
    (hop : op.Admissible q s) :
    ∃ t, op.run m (heap, dev) = .ok t ∧ op.Answers q f t ∧
      Represents q s t.dev (op.after q f) := by
  cases op with
  | write pos buf => exact scullcDoWrite_refines hg hroom hglobal heap hdev hop.1 buf
  | read pos count =>
      have hcount : count < 4611686018427387904 := by
        have : count ≤ 2147479552 := hop.2
        omega
      obtain ⟨t, hrun, hmoves, hout, hkept⟩ :=
        scullcDoRead_refines hg hroom heap hdev hop.1 hcount
      exact ⟨t, hrun, ⟨hmoves, hout⟩, hkept⟩

theorem exec_refines (hg : Geometry q s) (hroom : q ≤ m.objectSize)
    (hglobal : m.scullcQuantum = q) (ops : List PlainOp) (hops : ∀ op ∈ ops, op.Admissible q s)
    {log : List (ℕ × List UInt8)} (hdev : Represents q s dev (ofLog q 0 log)) (heap : Heap) :
    ∃ st, Runs.exec (plainStep m) (heap, dev) ops = .ok st ∧
      Represents q s st.2 (ofLog q 0 (writesOf ops ++ log)) := by
  induction ops generalizing dev heap log with
  | nil => exact ⟨(heap, dev), rfl, hdev⟩
  | cons op ops ih =>
      obtain ⟨t, hrun, -, hafter⟩ :=
        op.run_refines hg hroom hglobal heap hdev (hops op List.mem_cons_self)
      have hrest : ∀ op ∈ ops, op.Admissible q s := fun o ho => hops o (List.mem_cons_of_mem _ ho)
      have hstep : plainStep m (heap, dev) op = .ok (t.heap, t.dev) := by
        rw [plainStep, hrun]
        rfl
      cases op with
      | write pos buf =>
          have hafter : Represents q s t.dev (ofLog q 0 ((pos, buf) :: log)) := hafter
          obtain ⟨st, hexec, hst⟩ := ih hrest hafter t.heap
          refine ⟨st, by rw [Runs.exec_cons, hstep]; exact hexec, ?_⟩
          simpa [writesOf] using hst
      | read pos count =>
          obtain ⟨st, hexec, hst⟩ := ih hrest hafter t.heap
          refine ⟨st, by rw [Runs.exec_cons, hstep]; exact hexec, ?_⟩
          simpa [writesOf] using hst

/-! ## Round trips -/

def writeCall (m : Module) (st : Heap × ScullcDev) (pos : ℕ) (buf : List UInt8) :
    Except Fault (ℕ × Heap × ScullcDev) :=
  ((PlainOp.write pos buf).run m st).map fun t => (t.ret.toNat, t.heap, t.dev)

def readCall (m : Module) (st : Heap × ScullcDev) (pos count : ℕ) :
    Except Fault (List Cell × Heap × ScullcDev) :=
  ((PlainOp.read pos count).run m st).map fun t => (t.out, t.heap, t.dev)

/-- After every history, data written by a retry loop and read back by another
one, each with requests of any positive sizes, is the data. -/
def RoundTrips (m : Module) (q s : ℕ) : Prop :=
  ∀ (heap : Heap) (ops : List PlainOp), (∀ op ∈ ops, op.Admissible q s) →
    ∀ (p : ℕ) (data : List UInt8), InRange q s (p + data.length - 1) →
    ∀ chunk chunk' : ℕ → ℕ, (∀ k, 0 < chunk k) → (∀ k, 0 < chunk' k) →
    ∃ st st₁ st₂, Runs.exec (plainStep m) (heap, .fresh q s) ops = .ok st ∧
      RetryLoop.writeLoop (writeCall m) chunk data.length st p data = .ok (st₁, []) ∧
      RetryLoop.readLoop (readCall m) chunk' data.length st₁ p data.length =
        .ok (data.map some, st₂)

theorem InRange.mono {x y : ℕ} (hy : InRange q s y) (hxy : x ≤ y) : InRange q s x := by
  have hle : x / q / s ≤ y / q / s := Nat.div_le_div_right (Nat.div_le_div_right hxy)
  unfold InRange at hy ⊢
  omega

def ReadyUpTo (q s lo p : ℕ) (st : Heap × ScullcDev) : Prop :=
  ∃ f, Represents q s st.2 f ∧ ∀ x, lo ≤ x → x < p → x < f.size ∧ f.present (x / q) = true

theorem writeCall_storesPrefix (hg : Geometry q s) (hroom : q ≤ m.objectSize)
    (hglobal : m.scullcQuantum = q) {lo hi : ℕ} (hhi : InRange q s (hi - 1)) :
    RetryLoop.StoresPrefix (writeCall m) (fun p st => ReadyUpTo q s lo p st)
      (fun st => (st.2.toFile q s).value) hi := by
  rintro ⟨heap, dev⟩ p data ⟨f, hdev, hready⟩ hne hfit
  have hpos : 0 < data.length := List.length_pos_iff.mpr hne
  have hp : InRange q s p := hhi.mono (by omega)
  obtain ⟨t, hrun, hmoves, hafter⟩ := scullcDoWrite_refines hg hroom hglobal heap hdev hp data
  refine ⟨writeCount q p data.length, (t.heap, t.dev), ?_, writeCount_pos hg.quantum_pos p hpos,
    writeCount_le .., ⟨_, hafter, ?_⟩, ?_⟩
  · simp only [writeCall, PlainOp.run, hrun, Except.map, hmoves.ret, Int.toNat_natCast]
  · intro x hlo hx
    by_cases hxp : x < p
    · obtain ⟨hsize, hpresent⟩ := hready x hlo hxp
      exact ⟨Nat.lt_of_lt_of_le hsize (Nat.le_max_left ..), by simp [SparseFile.write, hpresent]⟩
    · obtain ⟨i, rfl⟩ := Nat.exists_eq_add_of_le (Nat.not_lt.mp hxp)
      refine ⟨Nat.lt_of_lt_of_le hx (Nat.le_max_right ..), ?_⟩
      have hdiv := div_eq_of_lt_writeCount hg.quantum_pos (Nat.lt_of_add_lt_add_left hx)
      simp [SparseFile.write, hdiv]
  · simp only [hafter.file, hdev.file]
    rfl

theorem readCall_deliversPrefix (hg : Geometry q s) (hroom : q ≤ m.objectSize) {lo hi : ℕ}
    (hhi : InRange q s (hi - 1)) :
    RetryLoop.DeliversPrefix (readCall m) (ReadyUpTo q s lo hi)
      (fun st p => some ((st.2.toFile q s).value p)) lo hi := by
  rintro ⟨heap, dev⟩ p n ⟨f, hdev, hready⟩ hn hlo hfit
  have hbound := hhi.lt hg
  have hp : InRange q s p := hhi.mono (by omega)
  have hnlt : n < 4611686018427387904 := by omega
  obtain ⟨t, hrun, hmoves, hout, hafter⟩ := scullcDoRead_refines hg hroom heap hdev hp hnlt
  obtain ⟨hsize, hpresent⟩ := hready p hlo (by omega)
  refine ⟨readCount q f p n, (t.heap, t.dev), ?_, readCount_pos hg.quantum_pos hn hsize hpresent,
    readCount_le .., ⟨f, hafter, hready⟩, ?_⟩
  · simp only [readCall, PlainOp.run, hrun, Except.map, hout, SparseFile.read, window_map,
      hdev.file]
  · funext x
    simp only [hafter.file, hdev.file]

/-- The plain operations refine the sparse file, and data makes the round trip,
exactly when a quantum fits the objects of the cache. -/
theorem plain_refines_iff (m : Module) (q s : ℕ) (hg : Geometry q s)
    (hglobal : m.scullcQuantum = q) :
    (RefinesSparseFile m q s ∧ RoundTrips m q s) ↔ q ≤ m.objectSize := by
  constructor
  · rintro ⟨hrefines, -⟩
    -- one byte written to the emptied device: its quantum is cleared in full
    obtain ⟨st, hexec, -, -, hanswer⟩ := hrefines ⟨0, []⟩ [] (by simp)
    cases hexec
    obtain ⟨t, hrun, ⟨hret, -⟩, -⟩ := hanswer (.write 0 [0]) ⟨by simp [InRange, INT_MAX], by
      simp [MAX_RW_COUNT]⟩
    have hlocked : writeLocked Env.calm m ⟨0, []⟩ (ScullcDev.fresh q s).lock q s [0] 1 0 false =
        .ok t := hrun
    rcases writeLocked_ok hlocked with ⟨dev₁, heap₁, -, rfl⟩ | ⟨t₁, dev₁, heap₁, htarget, -⟩
    · have hnonneg := Int.natCast_nonneg (writeCount q 0 [(0 : UInt8)].length)
      rw [← hret] at hnonneg
      exact absurd hnonneg (by simp [ENOMEM])
    · have hqle := hg.quantum_le
      have hmax := INT_MAX_eq
      rcases (writeTarget_some htarget).mem_eq with hold | ⟨-, hroom, -⟩
      · have hnone := fresh_quantumAt q s t₁.item t₁.sPos.toNat
        rw [(SameData.lock _).quantumAt, hnone] at hold
        cases hold
      · rwa [hglobal, toUInt64_natCast (by omega)] at hroom
  · intro hroom
    have hstart : Represents q s (.fresh q s) (ofLog q 0 []) := represents_fresh q s
    refine ⟨fun heap ops hops => ?_, fun heap ops hops p data hp chunk chunk' hchunk hchunk' => ?_⟩
    · obtain ⟨⟨heap₁, dev₁⟩, hexec, hst⟩ := exec_refines hg hroom hglobal ops hops hstart heap
      rw [List.append_nil] at hst
      refine ⟨_, hexec, ?_, hst.file, fun op hop => ?_⟩
      · rw [hst.file]
        exact keeps_ofLog q (writesOf ops)
      obtain ⟨t, hrun, hanswer, hafter⟩ := op.run_refines hg hroom hglobal heap₁ hst hop
      exact ⟨t, hrun, hanswer, hafter.file⟩
    · obtain ⟨st, hexec, hst⟩ := exec_refines hg hroom hglobal ops hops hstart heap
      have hready : ReadyUpTo q s p p st := ⟨_, hst, fun x hlo hx => by omega⟩
      obtain ⟨st₁, hwrite, hready₁, hcontent⟩ :=
        RetryLoop.writeLoop_eq (writeCall_storesPrefix hg hroom hglobal hp) hchunk hready
          (Nat.le_refl _) (Nat.le_refl _)
      obtain ⟨st₂, hread, -, -⟩ :=
        RetryLoop.readLoop_eq (readCall_deliversPrefix hg hroom hp) hchunk' hready₁
          (Nat.le_refl _) (Nat.le_refl p) (Nat.le_refl _)
      refine ⟨st, st₁, st₂, hexec, hwrite, ?_⟩
      rw [hread, ← window_map, hcontent, window_overwrite]

theorem plain_refines_initial :
    RefinesSparseFile Module.initial 4000 500 ∧ RoundTrips Module.initial 4000 500 :=
  (plain_refines_iff Module.initial 4000 500 ⟨by decide, by decide, by decide⟩ rfl).mpr (by decide)

/-- After `SCULLC_IOCTQUANTUM` with 8000 and a write-only open, the first write
clears 8000 bytes of an object of 4000. -/
theorem first_write_after_growth :
    (scullcIoctl Module.initial SCULLC_IOCTQUANTUM 8000 ⟨none, true⟩).2 = ⟨8000, 500, 4000⟩ ∧
      scullcOpen Env.calm ⟨8000, 500, 4000⟩ ⟨0, []⟩ .initial O_WRONLY =
        .ok (0, .fresh 8000 500, ⟨0, []⟩) ∧
      Geometry 8000 500 ∧
      (PlainOp.write 0 [0]).run ⟨8000, 500, 4000⟩ (⟨0, []⟩, .fresh 8000 500) =
        .error .memsetOutOfBounds ∧
      ¬ RefinesSparseFile ⟨8000, 500, 4000⟩ 8000 500 := by
  have hfault : (PlainOp.write 0 [0]).run ⟨8000, 500, 4000⟩ (⟨0, []⟩, .fresh 8000 500) =
      .error .memsetOutOfBounds := by rfl
  refine ⟨rfl, rfl, ⟨by decide, by decide, by decide⟩, hfault, fun hrefines => ?_⟩
  obtain ⟨st, hexec, -, -, hanswer⟩ := hrefines ⟨0, []⟩ [] (by simp)
  cases hexec
  obtain ⟨t, hrun, -⟩ :=
    hanswer (.write 0 [0]) ⟨by simp [InRange, INT_MAX], by simp [MAX_RW_COUNT]⟩
  have hclash : Except.error Fault.memsetOutOfBounds = Except.ok t := hfault.symm.trans hrun
  cases hclash

end LddSamples.Scullc
