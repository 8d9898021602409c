import LddSamples.Dma.UserMap

/-!
# lab2_usermap: which pages are used, and what of the ram disk

`mycdrv_rw` asks `get_user_pages` for the pages of the user buffer and goes through as
many as it asked for, whatever it got. Here the pages are kept apart, with a record of
what was copied and of the pages that were released. lab2_usermap_fast differs in the call
that pins the pages only.
-/

namespace LddSamples.Dma.PinnedPages

open Kernel CArith Outcome ByteMap
open UserMap (lastIndex pagesOf lastIndex_eq pagesOf_eq)

/-- The ram disk, and the pages of the user buffer by number. -/
structure Memory where
  ramdisk : ℕ → UInt8
  page : ℕ → ℕ → UInt8

/-- A copy of `nb` bytes between the beginning of a page and `offset` in the ram disk. -/
structure Chunk where
  page : ℕ
  offset : ℕ
  nb : ℕ
deriving DecidableEq

structure Run where
  memory : Memory
  copied : List Chunk
  released : List ℕ

/-- The `switch` of the loop. -/
def Memory.copy (rw : ℕ) (m : Memory) (c : Chunk) : Memory :=
  match rw with
  | 0 =>
      let data := window m.ramdisk c.offset c.nb
      { m with page := Function.update m.page c.page (overwrite (m.page c.page) 0 data) }
  | 1 => { m with ramdisk := overwrite m.ramdisk c.offset (window (m.page c.page) 0 c.nb) }
  | _ => m

/-- Only a read or a write copies. -/
def Run.copy (rw : ℕ) (s : Run) (c : Chunk) : Run :=
  { s with
    memory := s.memory.copy rw c
    copied := s.copied ++ if rw ≤ 1 then [c] else [] }

/-- `page_cache_release`. -/
def Run.release (s : Run) (j : ℕ) : Run := { s with released := s.released ++ [j] }

/-- The loop over the pages from number `j` on, with `left` of them to come; `rc` is the
result of `get_user_pages`. -/
def pageLoop (rw lbuf npages : ℕ) (rc : ℤ) : ℕ → ℕ → ℕ → Run → Except Fault Run
  | 0, _, _, s => .ok s
  | left + 1, j, nb, s => do
      require .indexOutOfBounds ((j : ℤ) < rc)
      let nb := if j = npages - 1 then lastIndex lbuf % PAGE_SIZE + 1 else nb
      require .copyOutOfBounds (Inside RAMDISK_SIZE (j * PAGE_SIZE : ℕ) nb)
      let s := (s.copy rw ⟨j, j * PAGE_SIZE, nb⟩).release j
      pageLoop rw lbuf npages rc left (j + 1) nb s

structure Done where
  ret : ℤ
  pos : ℤ
  run : Run

/-- `grant` says whether `kmalloc` finds room for the page pointers. -/
def mycdrvRw (rw : ℕ) (m : Memory) (lbuf : ℕ) (pos : ℤ) (grant : Bool) (rc : ℤ) :
    Except Fault Done :=
  let npages := toInt32 (pagesOf lbuf)
  if !grant then .ok ⟨-ENOMEM, pos, ⟨m, [], []⟩⟩
  else do
    let run ← pageLoop rw lbuf npages.toNat rc npages.toNat 0 PAGE_SIZE ⟨m, [], []⟩
    .ok ⟨toInt64 lbuf, pos, run⟩

/-- Nothing is pinned before there is room for the pointers, nor by a call that fails. -/
def pinned (grant : Bool) (rc : ℤ) : ℕ := if grant then rc.toNat else 0

def Run.moved (s : Run) : ℕ := (s.copied.map Chunk.nb).sum

/-- The call gets to its end without a fault, has released every pinned page once and no
other page, and returns no more than it has moved. -/
def Accounted (pinned : ℕ) (call : Except Fault Done) : Prop :=
  ∃ done, call = .ok done ∧
    (∀ j, done.run.released.count j = if j < pinned then 1 else 0) ∧
    done.ret ≤ done.run.moved

variable {rw lbuf npages left j : ℕ} {rc pos : ℤ} {m : Memory} {s t : Run}

/-- The copy of round `j`. -/
def chunkAt (lbuf npages j : ℕ) : Chunk :=
  ⟨j, j * PAGE_SIZE, if j = npages - 1 then lastIndex lbuf % PAGE_SIZE + 1 else PAGE_SIZE⟩

/-- A round for a page that is pinned, of a part that is in the ram disk. -/
def visit (rw lbuf npages : ℕ) (s : Run) (j : ℕ) : Run :=
  (s.copy rw (chunkAt lbuf npages j)).release j

/-- Round `j` is possible. -/
def Possible (lbuf npages : ℕ) (rc : ℤ) (j : ℕ) : Prop :=
  (j : ℤ) < rc ∧ Inside RAMDISK_SIZE (j * PAGE_SIZE : ℕ) (chunkAt lbuf npages j).nb

/-- Behind the last page the loop does nothing more. -/
theorem pageLoop_end_iff (rw lbuf nb : ℕ) (rc : ℤ) (hend : npages ≤ j) :
    pageLoop rw lbuf npages rc 0 j nb s = .ok t ↔
      (∀ i, j ≤ i → i < npages → Possible lbuf npages rc i) ∧ t = s := by
  have hnone : ∀ i, j ≤ i → i < npages → Possible lbuf npages rc i := by
    intro i hi hlt
    omega
  rw [pageLoop, Except.ok.injEq, eq_comm]
  exact (and_iff_right hnone).symm

/-- The loop gets to its end exactly when every round is possible. -/
theorem pageLoop_ok_iff (hleft : j + left = npages) :
    pageLoop rw lbuf npages rc left j PAGE_SIZE s = .ok t ↔
      (∀ i, j ≤ i → i < npages → Possible lbuf npages rc i) ∧
        t = (List.range' j left).foldl (visit rw lbuf npages) s := by
  induction left generalizing j s with
  | zero => exact pageLoop_end_iff rw lbuf PAGE_SIZE rc hleft.ge
  | succ left ih =>
      have hsplit : (∀ i, j ≤ i → i < npages → Possible lbuf npages rc i) ↔
          Possible lbuf npages rc j ∧ ∀ i, j + 1 ≤ i → i < npages → Possible lbuf npages rc i := by
        constructor
        · intro hall
          exact ⟨hall j le_rfl (by omega), fun i hi => hall i (by omega)⟩
        · rintro ⟨hj, hall⟩ i hi hlt
          obtain rfl | hnext : i = j ∨ j + 1 ≤ i := by omega
          · exact hj
          · exact hall i hnext hlt
      rw [hsplit, and_assoc, List.range'_succ, List.foldl_cons]
      simp only [pageLoop, bind_eq_ok, require_eq_ok, exists_const]
      rw [Possible, and_assoc]
      refine and_congr_right fun _ => and_congr_right fun _ => ?_
      by_cases hlast : j = npages - 1
      · obtain rfl : left = 0 := by omega
        exact pageLoop_end_iff rw lbuf _ rc hleft.ge
      · have hnext := ih (s := visit rw lbuf npages s j) (j := j + 1) (by omega)
        simp only [visit, chunkAt, if_neg hlast] at hnext ⊢
        exact hnext

/-- A read or a write makes the copy of every round, in order, and releases its page. -/
theorem visits_eq (hrw : rw ≤ 1) (lbuf npages : ℕ) (js : List ℕ) (s : Run) :
    js.foldl (visit rw lbuf npages) s =
      ⟨(js.map (chunkAt lbuf npages)).foldl (Memory.copy rw) s.memory,
        s.copied ++ js.map (chunkAt lbuf npages), s.released ++ js⟩ := by
  induction js generalizing s with
  | nil => rw [List.map_nil, List.append_nil, List.append_nil, List.foldl_nil, List.foldl_nil]
  | cons j js ih =>
      rw [List.foldl_cons, ih, visit, Run.release, Run.copy, if_pos hrw, List.append_assoc,
        List.append_assoc]
      rfl

/-- What a call does that is granted the room for its pointers. -/
theorem mycdrvRw_ok_iff {done : Done} (hn : npages = (toInt32 (pagesOf lbuf)).toNat) :
    mycdrvRw rw m lbuf pos true rc = .ok done ↔
      (∀ i < npages, Possible lbuf npages rc i) ∧
        done = ⟨toInt64 lbuf, pos,
          (List.range npages).foldl (visit rw lbuf npages) ⟨m, [], []⟩⟩ := by
  simp only [mycdrvRw, Bool.not_true, Bool.false_eq_true, if_false, ← hn, bind_eq_ok,
    pageLoop_ok_iff (Nat.zero_add npages), Nat.zero_le, true_implies, List.range_eq_range']
  constructor
  · rintro ⟨run, ⟨hpossible, rfl⟩, hdone⟩
    exact ⟨hpossible, (Except.ok.inj hdone).symm⟩
  · rintro ⟨hpossible, rfl⟩
    exact ⟨_, ⟨hpossible, rfl⟩, rfl⟩

/-- All chunks but the last are whole pages. -/
theorem sum_chunks (lbuf k : ℕ) :
    (((List.range (k + 1)).map (chunkAt lbuf (k + 1))).map Chunk.nb).sum =
      k * PAGE_SIZE + (lastIndex lbuf % PAGE_SIZE + 1) := by
  have hwhole : ∀ j ∈ List.range k, (Chunk.nb ∘ chunkAt lbuf (k + 1)) j = PAGE_SIZE := by
    intro j hj
    exact if_neg (List.mem_range.mp hj).ne
  rw [List.map_map, List.range_succ, List.map_append, List.map_congr_left hwhole, List.map_const',
    List.length_range, List.sum_append, List.sum_replicate, smul_eq_mul]
  have hlast : (Chunk.nb ∘ chunkAt lbuf (k + 1)) k = lastIndex lbuf % PAGE_SIZE + 1 := if_pos rfl
  rw [List.map_singleton, List.sum_singleton, hlast]

theorem count_range_eq_iff (n k : ℕ) :
    (∀ j, (List.range n).count j = if j < k then 1 else 0) ↔ n = k := by
  have hcount : ∀ j, (List.range n).count j = if j < n then 1 else 0 := by
    intro j
    exact List.count_range
  constructor
  · intro hall
    have hn := hall n
    have hk := hall k
    rw [hcount] at hn hk
    simp only [lt_irrefl, if_false] at hn hk
    split at hn <;> split at hk <;> omega
  · rintro rfl
    exact hcount

theorem accounted_iff (hrw : rw ≤ 1) (hn : npages = (toInt32 (pagesOf lbuf)).toNat) :
    Accounted rc.toNat (mycdrvRw rw m lbuf pos true rc) ↔
      (∀ i < npages, Possible lbuf npages rc i) ∧ npages = rc.toNat ∧
        toInt64 lbuf ≤ (((List.range npages).map (chunkAt lbuf npages)).map Chunk.nb).sum := by
  rw [← count_range_eq_iff]
  constructor
  · rintro ⟨done, hdone, hcount, hret⟩
    obtain ⟨hpossible, rfl⟩ := (mycdrvRw_ok_iff hn).mp hdone
    simp only [Run.moved, visits_eq hrw, List.nil_append] at hcount hret
    exact ⟨hpossible, hcount, hret⟩
  · rintro ⟨hpossible, hcount, hret⟩
    refine ⟨_, (mycdrvRw_ok_iff hn).mpr ⟨hpossible, rfl⟩, ?_⟩
    simp only [Run.moved, visits_eq hrw, List.nil_append]
    exact ⟨hcount, hret⟩

/-- The number of pages, as an `int`, of a buffer that the ram disk has room for. -/
theorem npages_eq (hpos : 0 < lbuf) (hfit : lbuf ≤ RAMDISK_SIZE) :
    (toInt32 (pagesOf lbuf)).toNat = pagesOf lbuf := by
  have hpages := pagesOf_eq hpos hfit
  have hsize := RAMDISK_SIZE_eq
  have hmax := INT_MAX_eq
  rw [toInt32_of_mem (by omega) (by omega), Int.toNat_natCast]

/-- The last chunk ends where the buffer does. -/
theorem sum_chunks_eq (hpos : 0 < lbuf) (hfit : lbuf ≤ RAMDISK_SIZE) :
    (((List.range (pagesOf lbuf)).map (chunkAt lbuf (pagesOf lbuf))).map Chunk.nb).sum = lbuf := by
  have hlast := lastIndex_eq hpos hfit
  have hwhole := Nat.div_add_mod' (lastIndex lbuf) PAGE_SIZE
  rw [pagesOf, sum_chunks]
  omega

theorem chunkAt_nb_le (lbuf npages j : ℕ) : (chunkAt lbuf npages j).nb ≤ PAGE_SIZE := by
  have hrest : lastIndex lbuf % PAGE_SIZE < PAGE_SIZE := Nat.mod_lt _ (by decide)
  simp only [chunkAt]
  split <;> omega

theorem chunkAt_nb_pos (lbuf npages j : ℕ) : 0 < (chunkAt lbuf npages j).nb := by
  have hpage := PAGE_SIZE_eq
  simp only [chunkAt]
  split <;> omega

/-- The chunks end within the ram disk, since their pages lie below its end. -/
theorem possible_of_pinned (hpos : 0 < lbuf) (hfit : lbuf ≤ RAMDISK_SIZE) {i : ℕ}
    (hi : i < pagesOf lbuf) : Possible lbuf (pagesOf lbuf) (pagesOf lbuf) i := by
  have hpages := pagesOf_eq hpos hfit
  have hsize := RAMDISK_SIZE_eq
  have hnb := chunkAt_nb_le lbuf (pagesOf lbuf) i
  have hpage := PAGE_SIZE_eq
  have hoffset : i * PAGE_SIZE = i * 4096 := by rw [hpage]
  exact ⟨by omega, .inr ⟨Int.natCast_nonneg _, by omega⟩⟩

theorem npages_zero : (toInt32 (pagesOf 0)).toNat = 0 := rfl

/-- What it takes that the loop, driven by the pages asked for, meets only pinned ones,
all of them, and stays in the ram disk, and that the length which is returned is true. -/
theorem granted_accounted_iff (hrw : rw ≤ 1) (hlbuf : lbuf < 9223372036854775808) :
    Accounted rc.toNat (mycdrvRw rw m lbuf pos true rc) ↔
      (lbuf = 0 ∧ rc ≤ 0) ∨ (0 < lbuf ∧ lbuf ≤ RAMDISK_SIZE ∧ rc = pagesOf lbuf) := by
  have hret : toInt64 lbuf = lbuf := toInt64_of_mem (by omega) (by omega)
  rw [accounted_iff hrw rfl, hret]
  constructor
  · rintro ⟨hpossible, hall, hmoved⟩
    cases hn : (toInt32 (pagesOf lbuf)).toNat with
    | zero =>
        rw [hn] at hmoved hall
        have hempty : lbuf = 0 := by simpa using hmoved
        exact .inl ⟨hempty, by omega⟩
    | succ k =>
        rw [hn] at hpossible hall hmoved
        have hinside := (hpossible k (Nat.lt_succ_self k)).2
        rw [sum_chunks] at hmoved
        have hlast : (chunkAt lbuf (k + 1) k).nb = lastIndex lbuf % PAGE_SIZE + 1 := if_pos rfl
        rw [hlast, Inside] at hinside
        have hfit : lbuf ≤ RAMDISK_SIZE := by omega
        have hpos : 0 < lbuf := by
          by_contra hzero
          rw [Nat.eq_zero_of_not_pos hzero, npages_zero] at hn
          cases hn
        rw [npages_eq hpos hfit] at hn
        exact .inr ⟨hpos, hfit, by omega⟩
  · rintro (⟨rfl, hrc⟩ | ⟨hpos, hfit, rfl⟩)
    · rw [npages_zero]
      exact ⟨fun i hi => absurd hi (Nat.not_lt_zero i), by omega, le_rfl⟩
    · rw [npages_eq hpos hfit, sum_chunks_eq hpos hfit]
      exact ⟨fun i hi => possible_of_pinned hpos hfit hi, rfl, le_rfl⟩

/-- A call keeps its accounts exactly when it gets no memory for the pointers, has nothing
to do, or has all its pages pinned and stays within the ram disk. -/
theorem mycdrvRw_accounted_iff (rw : ℕ) (m : Memory) (lbuf : ℕ) (pos : ℤ) (grant : Bool) (rc : ℤ)
    (hrw : rw ≤ 1) (hlbuf : lbuf < 9223372036854775808) :
    Accounted (pinned grant rc) (mycdrvRw rw m lbuf pos grant rc) ↔
      grant = false ∨ (lbuf = 0 ∧ rc ≤ 0) ∨
        (0 < lbuf ∧ lbuf ≤ RAMDISK_SIZE ∧ rc = pagesOf lbuf) := by
  cases grant with
  | false =>
      have hdone : Accounted (pinned false rc) (mycdrvRw rw m lbuf pos false rc) :=
        ⟨_, rfl, fun _ => rfl, show -ENOMEM ≤ 0 by decide⟩
      exact iff_of_true hdone (.inl rfl)
  | true =>
      rw [pinned, if_pos rfl, granted_accounted_iff hrw hlbuf]
      simp

/-- All but the first page of the buffer are missing. -/
theorem shortPin_faults :
    mycdrvRw 0 ⟨fun _ => 0, fun _ _ => 0⟩ 4097 0 true 1 = .error .indexOutOfBounds ∧
      ¬ Accounted (pinned true 1) (mycdrvRw 0 ⟨fun _ => 0, fun _ _ => 0⟩ 4097 0 true 1) := by
  have hfault : mycdrvRw 0 ⟨fun _ => 0, fun _ _ => 0⟩ 4097 0 true 1 =
      .error .indexOutOfBounds := rfl
  refine ⟨hfault, ?_⟩
  rintro ⟨done, hdone, -, -⟩
  rw [hfault] at hdone
  cases hdone

theorem wholePin_accounted :
    Accounted (pinned true 2) (mycdrvRw 0 ⟨fun _ => 0, fun _ _ => 0⟩ 4097 0 true 2) :=
  (mycdrvRw_accounted_iff 0 _ 4097 0 true 2 (by decide) (by decide)).mpr (by decide)

/-! ## The partition of a buffer into pages -/

/-- The user buffer by offset. -/
def Memory.flatten (m : Memory) : UserMap.Memory :=
  ⟨m.ramdisk, fun i => m.page (i / PAGE_SIZE) (i % PAGE_SIZE)⟩

/-- A list of copies splits the first `lbuf` bytes: one for each page, whole pages and a
rest, each from where the last one ends. -/
structure Partitions (lbuf : ℕ) (chunks : List Chunk) : Prop where
  pages : chunks.map Chunk.page = List.range ((lbuf + PAGE_SIZE - 1) / PAGE_SIZE)
  offsets : ∀ c ∈ chunks, c.offset = c.page * PAGE_SIZE
  sizes : ∀ c ∈ chunks, 0 < c.nb ∧ c.nb ≤ PAGE_SIZE
  contiguous : chunks.IsChain fun c d => d.offset = c.offset + c.nb
  disjoint : chunks.Pairwise fun c d => c.offset + c.nb ≤ d.offset
  whole : (chunks.map Chunk.nb).sum = lbuf

theorem flatten_page (m : Memory) (j : ℕ) {i : ℕ} (hi : i < PAGE_SIZE) :
    m.flatten.user (j * PAGE_SIZE + i) = m.page j i := by
  have hdiv : (j * PAGE_SIZE + i) / PAGE_SIZE = j := by
    rw [Nat.mul_comm, Nat.mul_add_div (by decide), Nat.div_eq_of_lt hi, Nat.add_zero]
  have hmod : (j * PAGE_SIZE + i) % PAGE_SIZE = i := by
    rw [Nat.mul_comm, Nat.mul_add_mod, Nat.mod_eq_of_lt hi]
  show m.page ((j * PAGE_SIZE + i) / PAGE_SIZE) ((j * PAGE_SIZE + i) % PAGE_SIZE) = m.page j i
  rw [hdiv, hmod]

/-- To copy within a page is to copy at its place in the buffer. -/
theorem flatten_copy (rw : ℕ) (m : Memory) (j : ℕ) {nb : ℕ} (hnb : nb ≤ PAGE_SIZE) :
    (m.copy rw ⟨j, j * PAGE_SIZE, nb⟩).flatten =
      UserMap.copyPage rw m.flatten (j * PAGE_SIZE) nb := by
  match rw with
  | 0 =>
      refine congrArg (UserMap.Memory.mk m.ramdisk) (funext fun i => ?_)
      have hi := Nat.div_add_mod' i PAGE_SIZE
      have hrest : i % PAGE_SIZE < PAGE_SIZE := Nat.mod_lt _ (by decide)
      show Function.update m.page j _ (i / PAGE_SIZE) (i % PAGE_SIZE) = _
      by_cases hpage : i / PAGE_SIZE = j
      · rw [hpage] at hi ⊢
        have hshift := overwrite_shift (p := 0) (window m.ramdisk (j * PAGE_SIZE) nb)
          (flatten_page m j hrest)
        rw [Nat.add_zero, hi] at hshift
        rw [Function.update_self]
        exact hshift.symm
      · have hother : overwrite m.flatten.user (j * PAGE_SIZE)
            (window m.ramdisk (j * PAGE_SIZE) nb) i = m.flatten.user i := by
          rcases Nat.lt_or_gt_of_ne hpage with hlt | hgt
          · have hbefore : (i / PAGE_SIZE + 1) * PAGE_SIZE ≤ j * PAGE_SIZE :=
              Nat.mul_le_mul_right _ hlt
            rw [Nat.succ_mul] at hbefore
            rw [overwrite_of_lt _ _ (by omega)]
          · have hafter : (j + 1) * PAGE_SIZE ≤ i / PAGE_SIZE * PAGE_SIZE :=
              Nat.mul_le_mul_right _ hgt
            rw [Nat.succ_mul] at hafter
            rw [overwrite_of_ge _ (by rw [window_length]; omega)]
        rw [Function.update_of_ne hpage]
        exact hother.symm
  | 1 =>
      have hdata : window (m.page j) 0 nb = window m.flatten.user (j * PAGE_SIZE) nb := by
        refine List.map_congr_left fun i hi => ?_
        rw [flatten_page m j ((List.mem_range.mp hi).trans_le hnb), Nat.zero_add]
      show UserMap.Memory.mk (overwrite m.ramdisk _ (window (m.page j) 0 nb)) _ = _
      rw [hdata]
      rfl
  | _ + 2 => rfl

theorem pageLoop_flatten {nb : ℕ} (hnb : nb ≤ PAGE_SIZE) :
    (pageLoop rw lbuf npages rc left j nb s).map (fun t => t.memory.flatten) =
      UserMap.pageLoop rw lbuf npages rc.toNat left j nb s.memory.flatten := by
  induction left generalizing j nb s with
  | zero => rfl
  | succ left ih =>
      have hrest : lastIndex lbuf % PAGE_SIZE < PAGE_SIZE := Nat.mod_lt _ (by decide)
      have hnext : (if j = npages - 1 then lastIndex lbuf % PAGE_SIZE + 1 else nb) ≤ PAGE_SIZE := by
        split <;> omega
      simp only [pageLoop, UserMap.pageLoop, map_of_bind, ih hnext, Int.lt_toNat]
      simp only [Run.release, Run.copy, flatten_copy rw _ j hnext]

/-- The transfer through separate pages is the one into a buffer without pages. -/
theorem mycdrvRw_flatten (rw : ℕ) (m : Memory) (lbuf : ℕ) (pos : ℤ) (grant : Bool) (rc : ℤ) :
    (mycdrvRw rw m lbuf pos grant rc).map (fun d => ⟨d.ret, d.pos, d.run.memory.flatten⟩) =
      UserMap.mycdrvRw rw m.flatten lbuf pos grant rc.toNat := by
  cases grant with
  | false => rfl
  | true =>
      let npages := (toInt32 (pagesOf lbuf)).toNat
      let s : Run := ⟨m, [], []⟩
      have hloop : (pageLoop rw lbuf npages rc npages 0 PAGE_SIZE s).map _ =
          UserMap.pageLoop rw lbuf npages rc.toNat npages 0 PAGE_SIZE m.flatten :=
        pageLoop_flatten le_rfl
      simp only [mycdrvRw, UserMap.mycdrvRw, Bool.not_true, Bool.false_eq_true, if_false]
      rw [map_of_bind, ← hloop]
      cases pageLoop rw lbuf npages rc npages 0 PAGE_SIZE s <;> rfl

theorem chunks_partition (hpos : 0 < lbuf) (hfit : lbuf ≤ RAMDISK_SIZE) :
    Partitions lbuf ((List.range (pagesOf lbuf)).map (chunkAt lbuf (pagesOf lbuf))) where
  pages := by
    have hpages := pagesOf_eq hpos hfit
    have hpage := PAGE_SIZE_eq
    have hceil : pagesOf lbuf = (lbuf + PAGE_SIZE - 1) / PAGE_SIZE := by
      rw [hpage]
      omega
    rw [List.map_map, ← hceil]
    exact List.map_id _
  offsets := by
    intro c hc
    obtain ⟨j, -, rfl⟩ := List.mem_map.mp hc
    rfl
  sizes := by
    intro c hc
    obtain ⟨j, -, rfl⟩ := List.mem_map.mp hc
    exact ⟨chunkAt_nb_pos lbuf _ j, chunkAt_nb_le lbuf _ j⟩
  contiguous := by
    rw [List.isChain_map, List.isChain_range]
    intro j hj
    have hwhole : (chunkAt lbuf (pagesOf lbuf) j).nb = PAGE_SIZE := if_neg hj.ne
    rw [hwhole]
    exact Nat.succ_mul j PAGE_SIZE
  disjoint := by
    rw [List.pairwise_map]
    refine List.pairwise_lt_range.imp fun {i j} hij => ?_
    have hnb := chunkAt_nb_le lbuf (pagesOf lbuf) i
    have hnext : (i + 1) * PAGE_SIZE ≤ j * PAGE_SIZE := Nat.mul_le_mul_right _ hij
    rw [Nat.succ_mul] at hnext
    exact (Nat.add_le_add_left hnb _).trans hnext
  whole := sum_chunks_eq hpos hfit

/-- With all pages pinned, the loop copies page by page what one copy of the whole buffer
would. -/
theorem mycdrvRw_partitions (rw : ℕ) (m : Memory) (lbuf : ℕ) (pos : ℤ) (hrw : rw ≤ 1)
    (hpos : 0 < lbuf) (hfit : lbuf ≤ RAMDISK_SIZE) :
    ∃ done, mycdrvRw rw m lbuf pos true (toInt32 (pagesOf lbuf)) = .ok done ∧ done.ret = lbuf ∧
      Partitions lbuf done.run.copied ∧
      done.run.memory = done.run.copied.foldl (Memory.copy rw) m ∧
      done.run.memory.flatten = UserMap.copyPage rw m.flatten 0 lbuf := by
  have hcount := npages_eq hpos hfit
  have hrc : toInt32 (pagesOf lbuf) = pagesOf lbuf := by
    have hpages := pagesOf_eq hpos hfit
    omega
  obtain ⟨done, hrun, hcopied, hmemory⟩ :
      ∃ done, mycdrvRw rw m lbuf pos true (pagesOf lbuf) = .ok done ∧
        done.run.copied = (List.range (pagesOf lbuf)).map (chunkAt lbuf (pagesOf lbuf)) ∧
        done.run.memory = done.run.copied.foldl (Memory.copy rw) m := by
    refine ⟨_, (mycdrvRw_ok_iff hcount.symm).mpr ⟨fun i => possible_of_pinned hpos hfit, rfl⟩, ?_⟩
    rw [visits_eq hrw]
    exact ⟨rfl, rfl⟩
  have hflat := mycdrvRw_flatten rw m lbuf pos true (pagesOf lbuf)
  rw [hrun, Int.toNat_natCast, UserMap.mycdrvRw_eq rw m.flatten hpos hfit pos] at hflat
  have hresult := UserMap.Result.mk.inj (Except.ok.inj hflat)
  rw [hrc]
  refine ⟨done, hrun, hresult.1, ?_, hmemory, hresult.2.2⟩
  rw [hcopied]
  exact chunks_partition hpos hfit

/-- A page of fives and one of sevens. -/
def twoPages : Memory := ⟨fun _ => 0, fun j _ => if j = 0 then 5 else 7⟩

theorem oneByteMore_partitions :
    ∃ done, mycdrvRw 1 twoPages 4097 0 true (toInt32 (pagesOf 4097)) = .ok done ∧
      done.ret = (4097 : ℕ) ∧ Partitions 4097 done.run.copied ∧
      done.run.memory = done.run.copied.foldl (Memory.copy 1) twoPages ∧
      done.run.memory.flatten = UserMap.copyPage 1 twoPages.flatten 0 4097 :=
  mycdrvRw_partitions 1 twoPages 4097 0 le_rfl (by decide) (by decide)

end LddSamples.Dma.PinnedPages
