import LddSamples.Kernel.Basic
import LddSamples.Library.CString
import LddSamples.Library.WhileLoop

/-!
# lab3_transmit: the dump of a packet

`my_start_xmit` prints a packet in lines of 16 bytes. `printline` puts a line together in
an array of 256 bytes, from entries that are written to one of 16.
-/

namespace LddSamples.Network.Transmit

open Kernel CArith Outcome CString

/-- The arrays of `printline`; what is in them before is left open. -/
structure Arrays where
  line : ℕ → UInt8
  entry : ℕ → UInt8

def LINE_SIZE : ℕ := 256

def ENTRY_SIZE : ℕ := 16

/-- A digit of `%x`. -/
def hexDigit (d : ℕ) : UInt8 := UInt8.ofNat (if d < 10 then 48 + d else 87 + d)

/-- The output of `" %2x"` for a byte. -/
def entryText (b : UInt8) : List UInt8 :=
  [32, if b.toNat < 16 then 32 else hexDigit (b.toNat / 16), hexDigit (b.toNat % 16)]

/-- `data[j]`, for `data` that points to byte `i` of the packet. -/
def dataAt (skb : List UInt8) (i : ℤ) (j : ℕ) : Option UInt8 :=
  if 0 ≤ i + j then skb[(i + j).toNat]? else none

/-- The loop of `printline` from `j` on, with `left` bytes to come. -/
def printEntries (skb : List UInt8) (i : ℤ) : ℕ → ℕ → Arrays → Except Fault Arrays
  | 0, _, s => .ok s
  | left + 1, j, s => do
      let b ← ofOption .indexOutOfBounds (dataAt skb i j)
      let entry ← ofOption .copyOutOfBounds (store ENTRY_SIZE s.entry 0 (entryText b))
      let text ← ofOption .indexOutOfBounds (contents ENTRY_SIZE entry)
      let line ← ofOption .copyOutOfBounds (strcat LINE_SIZE s.line text)
      printEntries skb i left (j + 1) ⟨line, entry⟩

/-- `printline(&skb->data[i], n)`, with what it prints. -/
def printline (s : Arrays) (skb : List UInt8) (i : ℤ) (n : ℤ) : Except Fault (List UInt8) := do
  let line ← ofOption .copyOutOfBounds (store LINE_SIZE s.line 0 [])
  let s ← printEntries skb i n.toNat 0 ⟨line, s.entry⟩
  ofOption .indexOutOfBounds (contents LINE_SIZE s.line)

/-- The loop of `my_start_xmit`: its variable, and the lines so far. -/
structure Xmit where
  i : ℤ
  lines : List (List UInt8)

/-- `i < skb->len`, a comparison of unsigned numbers. -/
def before (skb : List UInt8) (s : Xmit) : Bool := decide (toUInt32 s.i < skb.length)

def xmitLine (arrays : ℤ → Arrays) (skb : List UInt8) (s : Xmit) : Except Fault Xmit := do
  let rest := toUInt32 (skb.length - s.i)
  let line ← printline (arrays s.i) skb s.i (if rest < 16 then rest else 16)
  .ok ⟨toInt32 (s.i + 16), s.lines ++ [line]⟩

structure Sent where
  ret : ℤ
  lines : List (List UInt8)
  txPackets : ℕ

/-- `my_start_xmit` of a packet comes to its end, with this effect. -/
def MyStartXmit (arrays : ℤ → Arrays) (skb : List UInt8) (txPackets : ℕ) (sent : Sent) : Prop :=
  ∃ t, WhileLoop.Ends (before skb) (xmitLine arrays skb) ⟨0, []⟩ t ∧
    sent = ⟨0, t.lines, toUInt64 (txPackets + 1 : ℕ)⟩

/-- The text of some bytes. -/
def dump (block : List UInt8) : List UInt8 := block.flatMap entryText

/-- Line `k` of a packet. -/
def block (skb : List UInt8) (k : ℕ) : List UInt8 := (skb.drop (16 * k)).take 16

/-- The lines are the dumps of blocks that make up the packet, each of them of 16 bytes but
for a last one that may be shorter. -/
def Dumps (skb : List UInt8) (lines : List (List UInt8)) : Prop :=
  ∃ blocks : List (List UInt8), lines = blocks.map dump ∧ blocks.flatten = skb ∧
    (∀ b ∈ blocks, 0 < b.length ∧ b.length ≤ 16) ∧ ∀ b ∈ blocks.dropLast, b.length = 16

variable {skb : List UInt8} {i : ℤ} {n left j : ℕ} {s : Arrays} {text : List UInt8}

/-! ## Entries -/

theorem hexDigit_toNat {d : ℕ} (hd : d < 16) :
    (hexDigit d).toNat = if d < 10 then 48 + d else 87 + d := by
  rw [hexDigit, UInt8.toNat_ofNat']
  split <;> omega

theorem hexDigit_inj {d e : ℕ} (hd : d < 16) (he : e < 16) (h : hexDigit d = hexDigit e) :
    d = e := by
  have hnat := congrArg UInt8.toNat h
  rw [hexDigit_toNat hd, hexDigit_toNat he] at hnat
  split at hnat <;> split at hnat <;> omega

theorem hexDigit_ne {d : ℕ} (hd : d < 16) {b : UInt8} (hb : b.toNat < 48) : hexDigit d ≠ b := by
  rintro rfl
  rw [hexDigit_toNat hd] at hb
  split at hb <;> omega

theorem entryText_clean (b : UInt8) : 0 ∉ entryText b := by
  have hlt := b.toNat_lt
  have hhigh := hexDigit_ne (d := b.toNat / 16) (b := 0) (by omega) (by decide)
  have hlow := hexDigit_ne (d := b.toNat % 16) (b := 0) (by omega) (by decide)
  unfold entryText
  split <;> simp [hhigh.symm, hlow.symm]

theorem entryText_injective : Function.Injective entryText := by
  intro b c h
  have hb := b.toNat_lt
  have hc := c.toNat_lt
  simp only [entryText, List.cons.injEq, true_and, and_true] at h
  obtain ⟨hhigh, hlow⟩ := h
  have hrest : b.toNat % 16 = c.toNat % 16 := hexDigit_inj (by omega) (by omega) hlow
  have hquot : b.toNat / 16 = c.toNat / 16 := by
    split at hhigh <;> split at hhigh
    · omega
    · exact absurd hhigh.symm (hexDigit_ne (by omega) (by decide))
    · exact absurd hhigh (hexDigit_ne (by omega) (by decide))
    · exact hexDigit_inj (by omega) (by omega) hhigh
  exact UInt8.toNat_inj.mp (by omega)

theorem dump_length (bytes : List UInt8) : (dump bytes).length = 3 * bytes.length := by
  induction bytes with
  | nil => rfl
  | cons b bytes ih =>
      rw [dump, List.flatMap_cons, List.length_append, ← dump, ih, List.length_cons, entryText]
      simp only [List.length_cons, List.length_nil]
      omega

/-- The entries all have the same length, so the text can be taken apart again. -/
theorem dump_injective : Function.Injective dump := by
  intro xs ys h
  induction xs generalizing ys with
  | nil =>
      have hlength := congrArg List.length h
      rw [dump_length, dump_length, List.length_nil] at hlength
      exact (List.length_eq_zero_iff.mp (by omega)).symm
  | cons x xs ih =>
      cases ys with
      | nil => cases h
      | cons y ys =>
          simp only [dump, List.flatMap_cons] at h
          obtain ⟨hentry, hrest⟩ := List.append_inj h rfl
          rw [entryText_injective hentry, ih hrest]

/-! ## Lines -/

theorem dataAt_eq {p : ℕ} (hp : i + j = p) (hlt : p < skb.length) :
    dataAt skb i j = some skb[p] := by
  rw [dataAt, hp, if_pos (Int.natCast_nonneg p), Int.toNat_natCast, List.getElem?_eq_getElem hlt]

/-- Sixteen entries have room in the line, and one in its array. -/
theorem printEntries_eq {p : ℕ} (hp : i + j = p) (hend : p + left ≤ skb.length)
    (hline : Holds LINE_SIZE s.line text) (hroom : text.length + 3 * left < LINE_SIZE) :
    ∃ s', printEntries skb i left j s = .ok s' ∧
      Holds LINE_SIZE s'.line (text ++ dump ((skb.drop p).take left)) := by
  induction left generalizing j p s text with
  | zero =>
      refine ⟨s, rfl, ?_⟩
      rw [List.take_zero, dump, List.flatMap_nil, List.append_nil]
      exact hline
  | succ left ih =>
      have hlt : p < skb.length := by omega
      have hclean := entryText_clean skb[p]
      have hsize : (entryText skb[p]).length = 3 := rfl
      have hentry : (entryText skb[p]).length < ENTRY_SIZE := show 3 < 16 by decide
      have hstored := store_eq s.entry (p := 0) (by rwa [Nat.zero_add])
      have htext := (holds_stored s.entry hentry hclean).contents_eq
      have hmore : text.length + (entryText skb[p]).length < LINE_SIZE := by omega
      obtain ⟨line, hcat, hheld⟩ := hline.strcat_eq hmore hclean
      have hnext : i + (j + 1 : ℕ) = (p + 1 : ℕ) := by omega
      have hrest : (text ++ entryText skb[p]).length + 3 * left < LINE_SIZE := by
        rw [List.length_append]
        omega
      obtain ⟨s', hrun, hholds⟩ := ih (s := ⟨line, _⟩) hnext (by omega) hheld hrest
      refine ⟨s', ?_, ?_⟩
      · rw [printEntries, dataAt_eq hp hlt, ofOption_some, ok_bind, hstored, ofOption_some, ok_bind,
          htext, ofOption_some, ok_bind, hcat, ofOption_some, ok_bind]
        exact hrun
      · rw [List.append_assoc] at hholds
        rw [List.drop_eq_getElem_cons hlt, List.take_succ_cons, dump, List.flatMap_cons]
        exact hholds

theorem printline_eq (s : Arrays) {p : ℕ} (hn : n ≤ 16) (hend : p + n ≤ skb.length) :
    printline s skb p n = .ok (dump ((skb.drop p).take n)) := by
  let start : Arrays := ⟨ByteMap.overwrite s.line 0 ([] ++ [0]), s.entry⟩
  have hsize : 0 + ([] : List UInt8).length < LINE_SIZE := by decide
  have hempty : Holds LINE_SIZE start.line [] := holds_stored s.line hsize List.not_mem_nil
  have hroom : ([] : List UInt8).length + 3 * n < LINE_SIZE := show 0 + 3 * n < 256 by omega
  obtain ⟨s', hentries, hline⟩ := printEntries_eq (add_zero (p : ℤ)) hend hempty hroom
  rw [printline, store_eq s.line hsize, ofOption_some, ok_bind, Int.toNat_natCast, hentries,
    ok_bind, hline.contents_eq]
  rfl

/-! ## The loop -/

def lineCount (skb : List UInt8) : ℕ := (skb.length + 15) / 16

theorem blocks_flatten (skb : List UInt8) (k : ℕ) :
    ((List.range k).map (block skb)).flatten = skb.take (16 * k) := by
  induction k with
  | zero => rfl
  | succ k ih =>
      rw [List.range_succ, List.map_append, List.flatten_append, ih, Nat.mul_succ, List.take_add]
      simp [block]

theorem block_length (skb : List UInt8) (k : ℕ) :
    (block skb k).length = min 16 (skb.length - 16 * k) := by
  rw [block, List.length_take, List.length_drop]

/-- Round `k` prints line `k`: up to the last one the variable is no larger than the
length. -/
theorem xmitLine_eq (arrays : ℤ → Arrays) (lines : List (List UInt8)) {k : ℕ}
    (hlen : skb.length < 2147483648) (hk : 16 * k < skb.length) :
    xmitLine arrays skb ⟨(16 * k : ℕ), lines⟩ =
      .ok ⟨toInt32 (16 * (k + 1) : ℕ), lines ++ [dump (block skb k)]⟩ := by
  have hrest : toUInt32 ((skb.length : ℤ) - (16 * k : ℕ)) = skb.length - 16 * k := by
    unfold toUInt32
    omega
  have hn : (if skb.length - 16 * k < 16 then skb.length - 16 * k else 16) =
      min 16 (skb.length - 16 * k) := by
    split <;> omega
  have hcast : (if skb.length - 16 * k < 16 then ((skb.length - 16 * k : ℕ) : ℤ) else 16) =
      (min 16 (skb.length - 16 * k) : ℕ) := by
    rw [← hn]
    split <;> rfl
  have hblock : (skb.drop (16 * k)).take (min 16 (skb.length - 16 * k)) = block skb k := by
    rw [block, ← List.length_drop, ← List.take_eq_take_min]
  simp only [xmitLine, hrest, hcast]
  rw [printline_eq _ (by omega) (by omega), ok_bind, hblock]
  rfl

/-- The loop ends, even where the variable is past the largest `int` at last. -/
theorem ends_iff (arrays : ℤ → Arrays) (lines : List (List UInt8)) {k : ℕ} {t : Xmit}
    (hlen : skb.length < 2147483648) (hleft : k + left = lineCount skb) :
    WhileLoop.Ends (before skb) (xmitLine arrays skb) ⟨toInt32 (16 * k : ℕ), lines⟩ t ↔
      t = ⟨toInt32 (16 * lineCount skb : ℕ),
        lines ++ (List.range' k left).map fun k => dump (block skb k)⟩ := by
  unfold lineCount at hleft
  induction left generalizing k lines with
  | zero =>
      have hexit : before skb ⟨toInt32 (16 * k : ℕ), lines⟩ = false := by
        refine decide_eq_false (show ¬ toUInt32 (toInt32 (16 * k : ℕ)) < skb.length from ?_)
        unfold toUInt32 toInt32
        omega
      obtain rfl : k = lineCount skb := hleft
      rw [WhileLoop.ends_of_exit hexit, List.range'_zero, List.map_nil, List.append_nil]
  | succ left ih =>
      have hk : 16 * k < skb.length := by omega
      have hint : toInt32 (16 * k : ℕ) = (16 * k : ℕ) :=
        toInt32_of_mem (by omega) (by unfold INT_MAX; omega)
      have hround : before skb ⟨(16 * k : ℕ), lines⟩ = true := by
        refine decide_eq_true (show toUInt32 (16 * k : ℕ) < skb.length from ?_)
        rwa [toUInt32_natCast (by omega)]
      rw [hint, WhileLoop.ends_of_round hround, xmitLine_eq arrays lines hlen hk]
      simp only [Except.ok.injEq, exists_eq_left']
      rw [ih _ (by omega), List.range'_succ, List.map_cons, List.append_assoc]
      rfl

theorem myStartXmit_iff (arrays : ℤ → Arrays) (txPackets : ℕ) {sent : Sent}
    (hlen : skb.length < 2147483648) :
    MyStartXmit arrays skb txPackets sent ↔
      sent = ⟨0, ((List.range (lineCount skb)).map (block skb)).map dump,
        toUInt64 (txPackets + 1 : ℕ)⟩ := by
  have hstart : toInt32 (16 * 0 : ℕ) = 0 := rfl
  have hends := fun t => ends_iff (t := t) arrays [] hlen (Nat.zero_add (lineCount skb))
  rw [hstart] at hends
  simp only [MyStartXmit, hends, exists_eq_left, List.nil_append, List.map_map,
    ← List.range_eq_range']
  rfl

theorem blocks_whole (skb : List UInt8) :
    ((List.range (lineCount skb)).map (block skb)).flatten = skb := by
  rw [blocks_flatten]
  apply List.take_of_length_le
  unfold lineCount
  omega

theorem dumps_blocks (skb : List UInt8) :
    Dumps skb (((List.range (lineCount skb)).map (block skb)).map dump) := by
  refine ⟨_, rfl, blocks_whole skb, fun b hb => ?_, fun b hb => ?_⟩
  · obtain ⟨k, hk, rfl⟩ := List.mem_map.mp hb
    rw [List.mem_range, lineCount] at hk
    rw [block_length]
    omega
  · cases hcount : lineCount skb with
    | zero =>
        rw [hcount] at hb
        cases hb
    | succ last =>
        rw [hcount, List.range_succ, List.map_append, List.map_singleton,
          List.dropLast_concat] at hb
        obtain ⟨k, hk, rfl⟩ := List.mem_map.mp hb
        rw [List.mem_range] at hk
        rw [lineCount] at hcount
        rw [block_length]
        omega

/-- The lines of a packet tell all its bytes. -/
theorem Dumps.unique {lines : List (List UInt8)} {other : List UInt8} (h : Dumps skb lines)
    (h' : Dumps other lines) : skb = other := by
  obtain ⟨blocks, rfl, hwhole, -⟩ := h
  obtain ⟨blocks', hlines, hwhole', -⟩ := h'
  have hblocks : blocks = blocks' := List.map_injective_iff.mpr dump_injective hlines
  rw [← hwhole, hblocks, hwhole']

/-- A packet is dumped without a fault, whatever was in the arrays; the dump is that of all
its bytes in lines of 16, and belongs to no other packet. -/
theorem myStartXmit_dumps (arrays : ℤ → Arrays) (skb : List UInt8) (txPackets : ℕ)
    (hlen : skb.length < 2147483648) :
    ∃ sent, MyStartXmit arrays skb txPackets sent ∧ Dumps skb sent.lines ∧
      ∀ arrays' other txPackets' sent', other.length = skb.length →
        MyStartXmit arrays' other txPackets' sent' → sent'.lines = sent.lines → other = skb := by
  refine ⟨_, (myStartXmit_iff arrays txPackets hlen).mpr rfl, dumps_blocks skb, ?_⟩
  intro arrays' other txPackets' sent' hother hsent' hlines
  rw [myStartXmit_iff arrays' txPackets' (hother ▸ hlen)] at hsent'
  have hdumps : Dumps other sent'.lines := hsent' ▸ dumps_blocks other
  rw [hlines] at hdumps
  exact hdumps.unique (dumps_blocks skb)

/-- A packet of 17 bytes. -/
theorem seventeen_dumped :
    ∃ sent, MyStartXmit (fun _ => ⟨fun _ => 1, fun _ => 1⟩) (List.replicate 17 10) 0 sent ∧
      Dumps (List.replicate 17 10) sent.lines ∧
      ∀ arrays' other txPackets' sent', other.length = (List.replicate 17 (10 : UInt8)).length →
        MyStartXmit arrays' other txPackets' sent' → sent'.lines = sent.lines →
          other = List.replicate 17 10 :=
  myStartXmit_dumps (fun _ => ⟨fun _ => 1, fun _ => 1⟩) (List.replicate 17 10) 0 (by decide)

end LddSamples.Network.Transmit
