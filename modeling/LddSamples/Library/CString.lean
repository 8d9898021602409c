import LddSamples.Library.ByteMap

/-!
# Strings in buffers of a fixed size

A string is stored with a zero behind it and ends at the first zero. Every operation is
`none` where it would have to leave the buffer.
-/

namespace CString

open ByteMap

def strlen (size : ℕ) (buf : ℕ → UInt8) : Option ℕ := (window buf 0 size).findIdx? (· == 0)

/-- The text and its terminator are stored at `p`. -/
def store (size : ℕ) (buf : ℕ → UInt8) (p : ℕ) (text : List UInt8) : Option (ℕ → UInt8) :=
  if p + (text.length + 1) ≤ size then some (overwrite buf p (text ++ [0])) else none

def strcat (size : ℕ) (buf : ℕ → UInt8) (text : List UInt8) : Option (ℕ → UInt8) :=
  (strlen size buf).bind fun p => store size buf p text

/-- The text that `%s` takes from a buffer. -/
def contents (size : ℕ) (buf : ℕ → UInt8) : Option (List UInt8) :=
  (strlen size buf).map fun n => window buf 0 n

/-- The buffer holds this text, with its terminator. -/
structure Holds (size : ℕ) (buf : ℕ → UInt8) (text : List UInt8) : Prop where
  fits : text.length < size
  bytes : window buf 0 text.length = text
  terminated : buf text.length = 0
  clean : 0 ∉ text

variable {size p : ℕ} {buf : ℕ → UInt8} {text more : List UInt8}

theorem Holds.strlen_eq (h : Holds size buf text) : strlen size buf = some text.length := by
  rw [strlen, List.findIdx?_eq_some_iff_getElem]
  refine ⟨by simpa using h.fits, by simp [h.terminated], fun i hi hzero => h.clean ?_⟩
  rw [← h.bytes]
  refine List.mem_map.mpr ⟨i, List.mem_range.mpr hi, ?_⟩
  simpa using hzero

theorem Holds.contents_eq (h : Holds size buf text) : contents size buf = some text := by
  rw [contents, h.strlen_eq, Option.map_some, h.bytes]

theorem store_eq (buf : ℕ → UInt8) (hfit : p + text.length < size) :
    store size buf p text = some (overwrite buf p (text ++ [0])) :=
  if_pos hfit

theorem holds_stored (buf : ℕ → UInt8) (hfit : text.length < size) (hclean : 0 ∉ text) :
    Holds size (overwrite buf 0 (text ++ [0])) text where
  fits := hfit
  bytes := by
    rw [window_overwrite_take _ _ (by simp), List.take_left]
  terminated := by
    have hlast := overwrite_of_mem buf 0 (show text.length < (text ++ [0]).length by simp)
    simpa using hlast
  clean := hclean

/-- What is appended takes the place of the terminator. -/
theorem Holds.strcat_eq (h : Holds size buf text) (hfit : text.length + more.length < size)
    (hclean : 0 ∉ more) :
    ∃ after, strcat size buf more = some after ∧ Holds size after (text ++ more) := by
  refine ⟨overwrite buf text.length (more ++ [0]), ?_, ?_⟩
  · rw [strcat, h.strlen_eq, Option.bind_some, store_eq buf hfit]
  · exact {
      fits := by rwa [List.length_append]
      bytes := by
        rw [List.length_append, window_overwrite_end _ _ (by simp), h.bytes, List.take_left]
      terminated := by
        have hlast := overwrite_of_mem buf text.length
          (show more.length < (more ++ [0]).length by simp)
        simpa using hlast
      clean := by
        rw [List.mem_append]
        exact not_or.mpr ⟨h.clean, hclean⟩ }

end CString
