import LddSamples.Kernel.Basic
import LddSamples.Library.LittleEndian

/-!
# The structure behind chardrv_unlocked_ioctl

The number of bytes that an ioctl moves to or from `ioc_data` is a field of the command,
and the string in it is printed on every call. Offsets are those of a 64-bit target, and
bytes past `sizeof(struct ioctl_data)` belong to somebody else.
-/

namespace LddSamples.Char.IoctlData

open Kernel CArith Outcome ByteMap

/-! ## Commands -/

def LDDIOC_TYPE : ℕ := 107

def IOC_WRITE : ℕ := 1
def IOC_READ : ℕ := 2

def iocType (cmd : ℕ) : ℕ := cmd / 256 % 256
def iocSize (cmd : ℕ) : ℕ := cmd / 65536 % 16384
def iocDir (cmd : ℕ) : ℕ := cmd / 1073741824 % 4

/-- `_IOC`. -/
def ioc (dir type nr size : ℕ) : ℕ := dir * 1073741824 + size * 65536 + type * 256 + nr

/-! ## The driver -/

/-- `sizeof(struct ioctl_data)`: an `int`, a `long`, and the string behind them. -/
def IOCTL_DATA_SIZE : ℕ := 272

def S_OFFSET : ℕ := 16
def S_SIZE : ℕ := 256

/-- The bytes of a string constant of the source. -/
def ascii (s : String) : List UInt8 := s.toList.map fun c => UInt8.ofNat c.toNat

/-- `ioc_data` as the module is loaded. -/
def initial : ℕ → UInt8 :=
  overwrite (overwrite (overwrite (fun _ => 0) 0 (LittleEndian.bytes 4 (-25)))
    8 (LittleEndian.bytes 8 45)) S_OFFSET (ascii "ioctl string data")

/-- What the environment decides about a user copy: how many bytes of the user's are
accessible, and whether the kernel turns a copy away that is longer than the object. -/
structure UserCopy where
  copied : ℕ → ℕ
  checked : Bool

/-- `copy_from_user(&ioc_data, ..)` pads what it could not read with zeros. -/
def copyFromUser (c : UserCopy) (iocData user : ℕ → UInt8) (size : ℕ) :
    Except Fault (ℕ × (ℕ → UInt8)) :=
  if c.checked = true ∧ IOCTL_DATA_SIZE < size then .ok (size, iocData)
  else do
    require .copyOutOfBounds (size ≤ IOCTL_DATA_SIZE)
    let n := min size (c.copied size)
    .ok (size - n, overwrite iocData 0 (window user 0 n ++ List.replicate (size - n) 0))

def copyToUser (c : UserCopy) (iocData : ℕ → UInt8) (size : ℕ) :
    Except Fault (ℕ × List UInt8) :=
  if c.checked = true ∧ IOCTL_DATA_SIZE < size then .ok (size, [])
  else do
    require .copyOutOfBounds (size ≤ IOCTL_DATA_SIZE)
    let n := min size (c.copied size)
    .ok (size - n, window iocData 0 n)

/-- The string ends inside its array. -/
def Terminated (iocData : ℕ → UInt8) : Prop := ∃ i, i < S_SIZE ∧ iocData (S_OFFSET + i) = 0

instance (iocData : ℕ → UInt8) : Decidable (Terminated iocData) :=
  inferInstanceAs (Decidable (∃ i, i < S_SIZE ∧ _))

/-- The `pr_info` of the three members; `%s` goes on until it meets a zero. -/
def prInfo (iocData : ℕ → UInt8) : Except Fault Unit :=
  require .indexOutOfBounds (Terminated iocData)

/-- The value returned, `ioc_data` afterwards, and what the user received. -/
structure Reply where
  ret : ℤ
  iocData : ℕ → UInt8
  out : List UInt8

/-- The routine of lab3_char_ioctl.c and lab4_char_seek.c; `user` is the memory that the
argument points to. -/
def chardrvUnlockedIoctl (c : UserCopy) (iocData : ℕ → UInt8) (cmd : ℕ) (user : ℕ → UInt8) :
    Except Fault Reply :=
  if iocType cmd ≠ LDDIOC_TYPE then .ok ⟨-EINVAL, iocData, []⟩
  else if iocDir cmd = IOC_WRITE then do
    let (rc, iocData) ← copyFromUser c iocData user (iocSize cmd)
    prInfo iocData
    .ok ⟨rc, iocData, []⟩
  else if iocDir cmd = IOC_READ then do
    prInfo iocData
    let (rc, out) ← copyToUser c iocData (iocSize cmd)
    .ok ⟨rc, iocData, out⟩
  else .ok ⟨-EINVAL, iocData, []⟩

/-! ## The copies -/

variable {c c' : UserCopy} {iocData iocData' user : ℕ → UInt8} {size cmd rc : ℕ}

/-- The bytes of `ioc_data` behind a copy from the user. -/
def stored (c : UserCopy) (iocData user : ℕ → UInt8) (size : ℕ) (j : ℕ) : UInt8 :=
  if size ≤ j then iocData j else if j < c.copied size then user j else 0

theorem overwrite_eq_stored (c : UserCopy) (iocData user : ℕ → UInt8) (size : ℕ) :
    overwrite iocData 0 (window user 0 (min size (c.copied size)) ++
      List.replicate (size - min size (c.copied size)) 0) = stored c iocData user size := by
  funext j
  rw [overwrite_of_le _ _ (Nat.zero_le j), Nat.sub_zero, stored]
  by_cases hcopied : j < min size (c.copied size)
  · have hsize : ¬ size ≤ j := by omega
    have hj : j < c.copied size := by omega
    rw [if_neg hsize, if_pos hj, List.getElem?_append_left (by rwa [window_length]),
      List.getElem?_eq_getElem (by rwa [window_length]), window_getElem, Nat.zero_add]
    rfl
  · rw [List.getElem?_append_right (by rw [window_length]; omega), window_length]
    by_cases hsize : size ≤ j
    · rw [if_pos hsize, List.getElem?_eq_none (by rw [List.length_replicate]; omega)]
      rfl
    · have hj : ¬ j < c.copied size := by omega
      rw [if_neg hsize, if_neg hj, List.getElem?_replicate_of_lt (by omega)]
      rfl

theorem copyFromUser_of_le (hsize : size ≤ IOCTL_DATA_SIZE) :
    copyFromUser c iocData user size =
      .ok (size - min size (c.copied size), stored c iocData user size) := by
  have hlong : ¬ (c.checked = true ∧ IOCTL_DATA_SIZE < size) := fun h => absurd h.2 (by omega)
  rw [copyFromUser, if_neg hlong, require_of hsize, ok_bind, ← overwrite_eq_stored]

theorem copyToUser_of_le (hsize : size ≤ IOCTL_DATA_SIZE) :
    copyToUser c iocData size =
      .ok (size - min size (c.copied size), window iocData 0 (min size (c.copied size))) := by
  have hlong : ¬ (c.checked = true ∧ IOCTL_DATA_SIZE < size) := fun h => absurd h.2 (by omega)
  rw [copyToUser, if_neg hlong, require_of hsize, ok_bind]

theorem copyFromUser_of_gt (hsize : IOCTL_DATA_SIZE < size) :
    copyFromUser c iocData user size =
      if c.checked = true then .ok (size, iocData) else .error .copyOutOfBounds := by
  cases hchecked : c.checked <;>
    simp [copyFromUser, hchecked, hsize, require, Nat.not_le.mpr hsize]

theorem copyToUser_of_gt (hsize : IOCTL_DATA_SIZE < size) :
    copyToUser c iocData size =
      if c.checked = true then .ok (size, []) else .error .copyOutOfBounds := by
  cases hchecked : c.checked <;>
    simp [copyToUser, hchecked, hsize, require, Nat.not_le.mpr hsize]

/-! ## Staying inside the structure -/

/-- The call comes back without having touched a byte outside `ioc_data`. -/
def Contained (c : UserCopy) (iocData : ℕ → UInt8) (cmd : ℕ) (user : ℕ → UInt8) : Prop :=
  ∃ r, chardrvUnlockedIoctl c iocData cmd user = .ok r

/-- What `ioc_data` holds when it is printed: a write stores first. -/
def printed (c : UserCopy) (iocData : ℕ → UInt8) (cmd : ℕ) (user : ℕ → UInt8) : ℕ → UInt8 :=
  if iocDir cmd = IOC_WRITE ∧ iocSize cmd ≤ IOCTL_DATA_SIZE then
    stored c iocData user (iocSize cmd)
  else iocData

theorem write_contained_iff (htype : iocType cmd = LDDIOC_TYPE) (hdir : iocDir cmd = IOC_WRITE) :
    Contained c iocData cmd user ↔ (iocSize cmd ≤ IOCTL_DATA_SIZE ∨ c.checked = true) ∧
      Terminated (printed c iocData cmd user) := by
  have htype : ¬ iocType cmd ≠ LDDIOC_TYPE := not_not.mpr htype
  simp only [Contained, chardrvUnlockedIoctl, if_neg htype, if_pos hdir]
  by_cases hsize : iocSize cmd ≤ IOCTL_DATA_SIZE
  · rw [copyFromUser_of_le hsize, printed, if_pos ⟨hdir, hsize⟩]
    simp [hsize, prInfo]
  · have hprinted : printed c iocData cmd user = iocData := if_neg fun h => hsize h.2
    rw [copyFromUser_of_gt (Nat.not_le.mp hsize), hprinted]
    cases c.checked <;> simp [hsize, prInfo]

theorem read_contained_iff (htype : iocType cmd = LDDIOC_TYPE) (hdir : iocDir cmd = IOC_READ) :
    Contained c iocData cmd user ↔ (iocSize cmd ≤ IOCTL_DATA_SIZE ∨ c.checked = true) ∧
      Terminated (printed c iocData cmd user) := by
  have htype : ¬ iocType cmd ≠ LDDIOC_TYPE := not_not.mpr htype
  have hwrite : ¬ iocDir cmd = IOC_WRITE := by
    rw [hdir]
    decide
  have hprinted : printed c iocData cmd user = iocData := if_neg fun h => hwrite h.1
  simp only [Contained, chardrvUnlockedIoctl, if_neg htype, if_neg hwrite, if_pos hdir, hprinted]
  by_cases hsize : iocSize cmd ≤ IOCTL_DATA_SIZE
  · rw [copyToUser_of_le hsize]
    simp [hsize, prInfo]
  · rw [copyToUser_of_gt (Nat.not_le.mp hsize)]
    cases c.checked <;> simp [hsize, prInfo]

/-- A call stays inside the structure when it is turned away, or when neither its copy nor
the print of the string leaves it. -/
theorem staysInside_iff (c : UserCopy) (iocData : ℕ → UInt8) (cmd : ℕ) (user : ℕ → UInt8) :
    Contained c iocData cmd user ↔ iocType cmd ≠ LDDIOC_TYPE ∨
      (iocDir cmd ≠ IOC_WRITE ∧ iocDir cmd ≠ IOC_READ) ∨
      ((iocSize cmd ≤ IOCTL_DATA_SIZE ∨ c.checked = true) ∧
        Terminated (printed c iocData cmd user)) := by
  by_cases htype : iocType cmd = LDDIOC_TYPE
  · by_cases hwrite : iocDir cmd = IOC_WRITE
    · rw [write_contained_iff htype hwrite]
      simp [htype, hwrite]
    by_cases hread : iocDir cmd = IOC_READ
    · rw [read_contained_iff htype hread]
      simp [htype, hread]
    · refine iff_of_true ⟨⟨-EINVAL, iocData, []⟩, ?_⟩ (.inr (.inl ⟨hwrite, hread⟩))
      rw [chardrvUnlockedIoctl, if_neg (not_not.mpr htype), if_neg hwrite, if_neg hread]
  · exact iff_of_true ⟨⟨-EINVAL, iocData, []⟩, if_pos htype⟩ (.inl htype)

/-! ## Reading back -/

/-- A write command that stores all of its `n` bytes, and then a read command of the same
size, made by anybody. -/
def RoundTrips (c : UserCopy) (iocData : ℕ → UInt8) (n : ℕ) : Prop :=
  ∀ w r user, iocType w = LDDIOC_TYPE → iocDir w = IOC_WRITE → iocSize w = n →
    iocType r = LDDIOC_TYPE → iocDir r = IOC_READ → iocSize r = n →
    ∀ reply, chardrvUnlockedIoctl c iocData w user = .ok reply → reply.ret = 0 →
      (∀ j, n ≤ j → reply.iocData j = iocData j) ∧
      ∀ c' user', ∃ reply',
        chardrvUnlockedIoctl c' reply.iocData r user' = .ok reply' ∧
          reply'.iocData = reply.iocData ∧ (reply'.ret = 0 → reply'.out = window user 0 n)

/-- A write command that returns has stored its bytes, up to those that it could not get. -/
theorem write_reply {reply : Reply} (htype : iocType cmd = LDDIOC_TYPE)
    (hdir : iocDir cmd = IOC_WRITE) (h : chardrvUnlockedIoctl c iocData cmd user = .ok reply)
    (hret : reply.ret = 0) : iocSize cmd ≤ IOCTL_DATA_SIZE ∧
      iocSize cmd ≤ c.copied (iocSize cmd) ∧
      reply.iocData = stored c iocData user (iocSize cmd) ∧ Terminated reply.iocData := by
  rw [chardrvUnlockedIoctl, if_neg (not_not.mpr htype), if_pos hdir] at h
  by_cases hsize : iocSize cmd ≤ IOCTL_DATA_SIZE
  · rw [copyFromUser_of_le hsize] at h
    simp only [ok_bind, prInfo, bind_eq_ok, require_eq_ok, Except.ok.injEq] at h
    obtain ⟨_, hterm, rfl⟩ := h
    have hcopied : ((iocSize cmd - min (iocSize cmd) (c.copied (iocSize cmd)) : ℕ) : ℤ) = 0 := hret
    exact ⟨hsize, by omega, rfl, hterm⟩
  · exfalso
    rw [copyFromUser_of_gt (Nat.not_le.mp hsize)] at h
    cases hchecked : c.checked with
    | false => simp [hchecked] at h
    | true =>
        simp only [hchecked, if_true, ok_bind, bind_eq_ok, Except.ok.injEq] at h
        obtain ⟨_, -, rfl⟩ := h
        have hzero : (iocSize cmd : ℤ) = 0 := hret
        omega

theorem read_reply (c : UserCopy) (user : ℕ → UInt8) (htype : iocType cmd = LDDIOC_TYPE)
    (hdir : iocDir cmd = IOC_READ) (hsize : iocSize cmd ≤ IOCTL_DATA_SIZE)
    (hterm : Terminated iocData) :
    chardrvUnlockedIoctl c iocData cmd user =
      .ok ⟨(iocSize cmd - min (iocSize cmd) (c.copied (iocSize cmd)) : ℕ), iocData,
        window iocData 0 (min (iocSize cmd) (c.copied (iocSize cmd)))⟩ := by
  have hwrite : ¬ iocDir cmd = IOC_WRITE := by
    rw [hdir]
    decide
  simp only [chardrvUnlockedIoctl, if_neg (not_not.mpr htype), if_neg hwrite, if_pos hdir, prInfo,
    require_of hterm, ok_bind, copyToUser_of_le hsize]

theorem roundTrips (c : UserCopy) (iocData : ℕ → UInt8) (n : ℕ) : RoundTrips c iocData n := by
  intro w r user hwtype hwdir hwsize hrtype hrdir hrsize reply hwrite hret
  obtain ⟨hsize, hcopied, hdata, hterm⟩ := write_reply hwtype hwdir hwrite hret
  rw [hwsize] at hsize hcopied hdata
  refine ⟨fun j hj => ?_, fun c' user' =>
    ⟨_, read_reply c' user' hrtype hrdir (hrsize ▸ hsize) hterm, rfl, fun hret' => ?_⟩⟩
  · rw [hdata, stored, if_pos hj]
  simp only [hrsize] at hret' ⊢
  have hmin : min n (c'.copied n) = n := by omega
  rw [hmin, hdata]
  refine List.map_congr_left fun j hj => ?_
  have hlt : j < n := List.mem_range.mp hj
  rw [Nat.zero_add, stored, if_neg (Nat.not_le.mpr hlt), if_pos (by omega)]

/-- Every write that stores its bytes is read back, and a call stays inside the structure
exactly when it is turned away, or its size and the string that it prints fit. -/
theorem ioctl_right_iff (c : UserCopy) (iocData : ℕ → UInt8) :
    (∀ cmd user, Contained c iocData cmd user ↔ iocType cmd ≠ LDDIOC_TYPE ∨
      (iocDir cmd ≠ IOC_WRITE ∧ iocDir cmd ≠ IOC_READ) ∨
      ((iocSize cmd ≤ IOCTL_DATA_SIZE ∨ c.checked = true) ∧
        Terminated (printed c iocData cmd user))) ∧
    ∀ n, RoundTrips c iocData n :=
  ⟨staysInside_iff c iocData, roundTrips c iocData⟩

/-- The write command of the test, with a structure whose string fills its array, and a
read command of the largest size that can be encoded. -/
theorem unterminated_not_contained :
    ¬ Contained ⟨fun n => n, true⟩ initial (ioc IOC_WRITE LDDIOC_TYPE 1 IOCTL_DATA_SIZE)
        (fun _ => 36) ∧
      ¬ Contained ⟨fun n => n, false⟩ initial (ioc IOC_READ LDDIOC_TYPE 1 16383)
        (fun _ => 36) := by
  constructor
  · rw [write_contained_iff (by decide) (by decide)]
    rintro ⟨-, i, hi, hzero⟩
    have hsize : iocSize (ioc IOC_WRITE LDDIOC_TYPE 1 IOCTL_DATA_SIZE) = IOCTL_DATA_SIZE := by
      decide
    have hlt : S_OFFSET + i < IOCTL_DATA_SIZE := Nat.add_lt_add_left hi 16
    rw [printed, if_pos ⟨by decide, by decide⟩, hsize, stored, if_neg (Nat.not_le.mpr hlt),
      if_pos hlt] at hzero
    cases hzero
  · rw [read_contained_iff (by decide) (by decide)]
    rintro ⟨hsize | hchecked, -⟩
    · exact absurd hsize (by decide)
    · cases hchecked

end LddSamples.Char.IoctlData
