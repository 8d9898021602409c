import LddSamples.Dma.Generic

/-!
# lab2_usermap: transfer through pinned pages

`mycdrv_rw` maps the pages of a page-aligned user buffer one after the other and copies
each of them from or to the ram disk, from its beginning on, wherever the file stands.
-/

namespace LddSamples.Dma.UserMap

open Kernel CArith Outcome ByteMap

/-- The ram disk, and the user buffer by offset. -/
structure Memory where
  ramdisk : ℕ → UInt8
  user : ℕ → UInt8

structure Result where
  ret : ℤ
  pos : ℤ
  memory : Memory

/-- The `switch` of the loop, on `n` bytes at offset `a` of both sides. -/
def copyPage (rw : ℕ) (m : Memory) (a n : ℕ) : Memory :=
  match rw with
  | 0 => { m with user := overwrite m.user a (window m.ramdisk a n) }
  | 1 => { m with ramdisk := overwrite m.ramdisk a (window m.user a n) }
  | _ => m

/-- `lbuf - 1`, a `size_t`. -/
def lastIndex (lbuf : ℕ) : ℕ := toUInt64 ((lbuf : ℤ) - 1)

/-- The number of pages of a buffer. -/
def pagesOf (lbuf : ℕ) : ℕ := lastIndex lbuf / PAGE_SIZE + 1

/-- The loop over the pages from number `j` on, with `left` of them to come; `rc` is how
many have been pinned. -/
def pageLoop (rw lbuf npages rc : ℕ) : ℕ → ℕ → ℕ → Memory → Except Fault Memory
  | 0, _, _, m => .ok m
  | left + 1, j, nb, m => do
      require .indexOutOfBounds (j < rc)
      let nb := if j = npages - 1 then lastIndex lbuf % PAGE_SIZE + 1 else nb
      require .copyOutOfBounds (Inside RAMDISK_SIZE (j * PAGE_SIZE : ℕ) nb)
      pageLoop rw lbuf npages rc left (j + 1) nb (copyPage rw m (j * PAGE_SIZE) nb)

/-- `grant` says whether `kmalloc` finds room for the page pointers. -/
def mycdrvRw (rw : ℕ) (m : Memory) (lbuf : ℕ) (pos : ℤ) (grant : Bool) (rc : ℕ) :
    Except Fault Result :=
  let npages := toInt32 (pagesOf lbuf)
  if !grant then .ok ⟨-ENOMEM, pos, m⟩
  else do
    let m ← pageLoop rw lbuf npages.toNat rc npages.toNat 0 PAGE_SIZE m
    .ok ⟨toInt64 lbuf, pos, m⟩

def mycdrvRead := mycdrvRw 0

def mycdrvWrite := mycdrvRw 1

/-- With all pages pinned, the read through the pages agrees with the one that copies. -/
def ReadsAgree (m : Memory) (lbuf p : ℕ) : Prop :=
  ∃ r g, mycdrvRead m lbuf p true (pagesOf lbuf) = .ok r ∧
    mycdrvGenericRead m.ramdisk lbuf p lbuf = .ok g ∧
    r.ret = g.ret ∧ window r.memory.user 0 lbuf = g.out ∧ r.pos = g.pos

def WritesAgree (m : Memory) (lbuf p : ℕ) : Prop :=
  ∃ r g, mycdrvWrite m lbuf p true (pagesOf lbuf) = .ok r ∧
    mycdrvGenericWrite m.ramdisk (window m.user 0 lbuf) p lbuf = .ok g ∧
    r.ret = g.ret ∧ r.memory.ramdisk = g.ramdisk ∧ r.pos = g.pos

variable {rw lbuf npages rc left j p : ℕ} {m : Memory}

theorem copyPage_add (rw : ℕ) (m : Memory) (a n n' : ℕ) :
    copyPage rw (copyPage rw m a n) (a + n) n' = copyPage rw m a (n + n') := by
  match rw with
  | 0 =>
      simp only [copyPage]
      rw [window_add, ← overwrite_append, window_length]
  | 1 =>
      simp only [copyPage]
      rw [window_add, ← overwrite_append, window_length]
  | _ + 2 => rfl

theorem copyPage_zero (rw : ℕ) (m : Memory) (a : ℕ) : copyPage rw m a 0 = m := by
  match rw with
  | 0 => simp [copyPage]
  | 1 => simp [copyPage]
  | _ + 2 => rfl

theorem lastIndex_eq (hpos : 0 < lbuf) (hfit : lbuf ≤ RAMDISK_SIZE) :
    lastIndex lbuf = lbuf - 1 := by
  have hsize := RAMDISK_SIZE_eq
  unfold lastIndex toUInt64
  omega

theorem pagesOf_eq (hpos : 0 < lbuf) (hfit : lbuf ≤ RAMDISK_SIZE) :
    pagesOf lbuf = (lbuf - 1) / 4096 + 1 := by
  rw [pagesOf, lastIndex_eq hpos hfit]
  rfl

/-- Page by page the rest of the buffer is copied, the last page as far as it is used. -/
theorem pageLoop_eq (hpos : 0 < lbuf) (hfit : lbuf ≤ RAMDISK_SIZE) (hleft : j + left = pagesOf lbuf)
    (hrc : pagesOf lbuf ≤ rc) :
    pageLoop rw lbuf (pagesOf lbuf) rc left j PAGE_SIZE m =
      .ok (copyPage rw m (j * PAGE_SIZE) (lbuf - j * PAGE_SIZE)) := by
  have hpages := pagesOf_eq hpos hfit
  have hpage := PAGE_SIZE_eq
  induction left generalizing j m with
  | zero =>
      have hoffset : j * PAGE_SIZE = j * 4096 := by rw [hpage]
      have hend : lbuf - j * PAGE_SIZE = 0 := by omega
      rw [hend, copyPage_zero]
      rfl
  | succ left ih =>
      have hoffset : j * PAGE_SIZE = j * 4096 := by rw [hpage]
      rw [pageLoop, require_of (by omega), ok_bind]
      by_cases hlast : j = pagesOf lbuf - 1
      · have hnb : lastIndex lbuf % PAGE_SIZE + 1 = lbuf - j * PAGE_SIZE := by
          rw [lastIndex_eq hpos hfit, hoffset, hpage]
          omega
        have hinside : Inside RAMDISK_SIZE (j * PAGE_SIZE : ℕ) (lbuf - j * PAGE_SIZE) :=
          .inr ⟨Int.natCast_nonneg _, by omega⟩
        obtain rfl : left = 0 := by omega
        simp only [if_pos hlast, hnb, require_of hinside, ok_bind]
        rfl
      · have hinside : Inside RAMDISK_SIZE (j * PAGE_SIZE : ℕ) PAGE_SIZE :=
          .inr ⟨Int.natCast_nonneg _, by omega⟩
        have hnext : (j + 1) * PAGE_SIZE = j * PAGE_SIZE + PAGE_SIZE := Nat.succ_mul j PAGE_SIZE
        have hrest : PAGE_SIZE + (lbuf - (j * PAGE_SIZE + PAGE_SIZE)) = lbuf - j * PAGE_SIZE := by
          omega
        simp only [if_neg hlast, require_of hinside, ok_bind]
        rw [ih (by omega), hnext, copyPage_add, hrest]

/-- Pinned pages carry what one copy from the beginning of the ram disk would, and the
file position stays where it is. -/
theorem mycdrvRw_eq (rw : ℕ) (m : Memory) (hpos : 0 < lbuf) (hfit : lbuf ≤ RAMDISK_SIZE) (pos : ℤ) :
    mycdrvRw rw m lbuf pos true (pagesOf lbuf) = .ok ⟨lbuf, pos, copyPage rw m 0 lbuf⟩ := by
  have hsize := RAMDISK_SIZE_eq
  have hpages := pagesOf_eq hpos hfit
  have hint : toInt32 (pagesOf lbuf) = pagesOf lbuf :=
    toInt32_of_mem (by omega) (by unfold INT_MAX; omega)
  have hret : toInt64 lbuf = lbuf := toInt64_of_mem (by omega) (by omega)
  simp only [mycdrvRw, hint, Int.toNat_natCast, Bool.not_true, Bool.false_eq_true, if_false]
  rw [pageLoop_eq hpos hfit (Nat.zero_add _) (le_refl _), ok_bind, hret, Nat.zero_mul, Nat.sub_zero]

/-- The copy moves the file position, by at least 1. -/
theorem not_readsAgree (hpos : 0 < lbuf) (hfit : p + lbuf ≤ RAMDISK_SIZE) :
    ¬ ReadsAgree m lbuf p := by
  rintro ⟨r, g, hr, hg, -, -, hsame⟩
  rw [mycdrvRead, mycdrvRw_eq 0 m hpos (by omega)] at hr
  rw [mycdrvGenericRead_eq _ _ _ (by omega), Nat.min_eq_left (by omega)] at hg
  cases hr
  cases hg
  simp only at hsame
  omega

theorem not_writesAgree (hpos : 0 < lbuf) (hfit : p + lbuf ≤ RAMDISK_SIZE) :
    ¬ WritesAgree m lbuf p := by
  rintro ⟨r, g, hr, hg, -, -, hsame⟩
  rw [mycdrvWrite, mycdrvRw_eq 1 m hpos (by omega)] at hr
  rw [mycdrvGenericWrite_eq _ _ _ (by omega), window_length, Nat.min_eq_left (by omega)] at hg
  cases hr
  cases hg
  simp only at hsame
  omega

/-- At no position, for no length and no data does the transfer through pages agree with
the copy. -/
theorem never_agrees (m : Memory) (lbuf p : ℕ) (hpos : 0 < lbuf) (hfit : p + lbuf ≤ RAMDISK_SIZE) :
    ¬ ReadsAgree m lbuf p ∧ ¬ WritesAgree m lbuf p :=
  ⟨not_readsAgree hpos hfit, not_writesAgree hpos hfit⟩

theorem firstPage_never_agrees :
    ¬ ReadsAgree ⟨fun _ => 0, fun _ => 0⟩ 4096 0 ∧ ¬ WritesAgree ⟨fun _ => 0, fun _ => 0⟩ 4096 0 :=
  never_agrees ⟨fun _ => 0, fun _ => 0⟩ 4096 0 (by decide) (by decide)

/-- One byte, 7, stands at the beginning of the second page. -/
def marked : Memory := ⟨Function.update (fun _ => 0) 4096 7, fun _ => 0⟩

/-- Read at 4096, the byte is not delivered and the position does not move. -/
theorem marked_disagrees :
    (∃ r, mycdrvRead marked 1 4096 true 1 = .ok r ∧ r.ret = 1 ∧ r.pos = 4096 ∧
      window r.memory.user 0 1 = [0]) ∧
    mycdrvGenericRead marked.ramdisk 1 4096 1 = .ok ⟨1, 4097, [7]⟩ ∧
    ¬ ReadsAgree marked 1 4096 := by
  refine ⟨⟨_, mycdrvRw_eq 0 marked Nat.one_pos (by decide) 4096,
    rfl, rfl, rfl⟩, rfl, not_readsAgree (by decide) (by decide)⟩

end LddSamples.Dma.UserMap
