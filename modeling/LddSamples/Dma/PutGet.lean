import LddSamples.Dma.Generic

/-!
# lab1_putget: the transfer byte by byte

`mycdrv_read` and `mycdrv_write` move one byte at a time with `put_user` and `get_user`,
and stop at the first one that fails. The user accesses at offset `k` and beyond fail.
-/

namespace LddSamples.Dma.PutGet

open Kernel CArith Outcome ByteMap

/-- `while ((nbytes < bytes_to_do) && !put_user(*tmp, (buf + nbytes)))`, with `left`
bytes still to do: what the user buffer receives. -/
def putLoop (size : ℕ) (ramdisk : ℕ → UInt8) (pos : ℤ) (k : ℕ) :
    ℕ → ℕ → Except Fault (List UInt8)
  | 0, _ => .ok []
  | left + 1, nbytes => do
      require .copyOutOfBounds (Inside size (pos + nbytes) 1)
      if nbytes < k then do
        let out ← putLoop size ramdisk pos k left (nbytes + 1)
        .ok (ramdisk (pos + nbytes).toNat :: out)
      else .ok []

/-- The loop with `get_user`, which stores 0 when it fails: the count and the ram disk. -/
def getLoop (size : ℕ) (buf : List UInt8) (pos : ℤ) (k : ℕ) :
    ℕ → ℕ → (ℕ → UInt8) → Except Fault (ℕ × (ℕ → UInt8))
  | 0, nbytes, ramdisk => .ok (nbytes, ramdisk)
  | left + 1, nbytes, ramdisk => do
      require .copyOutOfBounds (Inside size (pos + nbytes) 1)
      if nbytes < k then
        getLoop size buf pos k left (nbytes + 1)
          (Function.update ramdisk (pos + nbytes).toNat (buf.getD nbytes 0))
      else .ok (nbytes, Function.update ramdisk (pos + nbytes).toNat 0)

def mycdrvRead (ramdisk : ℕ → UInt8) (lbuf : ℕ) (pos : ℤ) (k : ℕ) : Except Fault ReadResult := do
  let out ← putLoop RAMDISK_SIZE ramdisk pos k (bytesToDo RAMDISK_SIZE lbuf pos).toNat 0
  .ok ⟨out.length, toInt64 (pos + out.length), out⟩

def mycdrvWrite (ramdisk : ℕ → UInt8) (buf : List UInt8) (pos : ℤ) (k : ℕ) :
    Except Fault WriteResult := do
  let (nbytes, ramdisk) ←
    getLoop RAMDISK_SIZE buf pos k (bytesToDo RAMDISK_SIZE buf.length pos).toNat 0 ramdisk
  .ok ⟨nbytes, toInt64 (pos + nbytes), ramdisk⟩

variable {size k left nbytes p : ℕ} {ramdisk : ℕ → UInt8} {buf : List UInt8}

/-- The loop puts the bytes before the fault, one after the other. -/
theorem putLoop_eq (hfit : p + nbytes + left ≤ size) :
    putLoop size ramdisk p k left nbytes =
      .ok (window ramdisk (p + nbytes) (min left (k - nbytes))) := by
  induction left generalizing nbytes with
  | zero => simp [putLoop]
  | succ left ih =>
      have hinside : Inside size ((p : ℤ) + nbytes) 1 := .inr ⟨by omega, by omega⟩
      have haddr : ((p : ℤ) + nbytes).toNat = p + nbytes := by omega
      rw [putLoop, require_of hinside, ok_bind, haddr]
      split
      · next hbefore =>
          have hmin : min (left + 1) (k - nbytes) = 1 + min left (k - (nbytes + 1)) := by omega
          rw [ih (by omega), ok_bind, hmin, window_add]
          rfl
      · next hfault =>
          have hzero : min (left + 1) (k - nbytes) = 0 := by omega
          rw [hzero, window_zero]

/-- The loop stores the bytes before the fault, and then the 0 of the access that fails. -/
theorem getLoop_eq (hfit : p + nbytes + left ≤ size) (hbuf : nbytes + left ≤ buf.length)
    (hk : nbytes ≤ k) :
    getLoop size buf p k left nbytes ramdisk =
      .ok (nbytes + min left (k - nbytes), overwrite ramdisk (p + nbytes)
        ((buf.drop nbytes).take (min left (k - nbytes)) ++
          if k < nbytes + left then [0] else [])) := by
  induction left generalizing nbytes ramdisk with
  | zero =>
      rw [getLoop, if_neg (by omega), Nat.zero_min, List.take_zero, List.append_nil, overwrite_nil,
        Nat.add_zero]
  | succ left ih =>
      have hinside : Inside size ((p : ℤ) + nbytes) 1 := .inr ⟨by omega, by omega⟩
      have haddr : ((p : ℤ) + nbytes).toNat = p + nbytes := by omega
      rw [getLoop, require_of hinside, ok_bind, haddr]
      split
      · next hbefore =>
          have hmin : min (left + 1) (k - nbytes) = min left (k - (nbytes + 1)) + 1 := by omega
          have hcount : nbytes + 1 + min left (k - (nbytes + 1)) =
              nbytes + (min left (k - (nbytes + 1)) + 1) := by omega
          have hswap : nbytes + 1 + left = nbytes + (left + 1) := by omega
          rw [ih (by omega) (by omega) (by omega), hmin, take_drop_succ buf 0 (by omega),
            ← overwrite_singleton, hcount, hswap, List.append_assoc]
          exact congrArg (fun f => Except.ok (_, f)) (overwrite_append ramdisk (p + nbytes) _ _)
      · next hfault =>
          have hzero : min (left + 1) (k - nbytes) = 0 := by omega
          rw [hzero, if_pos (by omega), List.take_zero, List.nil_append, overwrite_singleton,
            Nat.add_zero]

theorem mycdrvRead_eq (hp : p ≤ RAMDISK_SIZE) (lbuf : ℕ) :
    mycdrvRead ramdisk lbuf p k = mycdrvGenericRead ramdisk lbuf p k := by
  have hsize := RAMDISK_SIZE_eq
  rw [mycdrvRead, bytesToDo_inside hp (by decide), Int.toNat_natCast, putLoop_eq (by omega),
    ok_bind, window_length, Nat.sub_zero, toInt64_moved (by omega), mycdrvGenericRead_eq _ _ _ hp,
    Nat.add_zero, Nat.min_comm]

theorem mycdrvWrite_eq (hp : p ≤ RAMDISK_SIZE) (buf : List UInt8) :
    mycdrvWrite ramdisk buf p k =
      .ok ⟨(min k (min buf.length (RAMDISK_SIZE - p)) : ℕ),
        (p + min k (min buf.length (RAMDISK_SIZE - p)) : ℕ),
        overwrite ramdisk p (buf.take (min k (min buf.length (RAMDISK_SIZE - p))) ++
          if k < min buf.length (RAMDISK_SIZE - p) then [0] else [])⟩ := by
  have hsize := RAMDISK_SIZE_eq
  rw [mycdrvWrite, bytesToDo_inside hp (by decide), Int.toNat_natCast,
    getLoop_eq (by omega) (by omega) (Nat.zero_le k), ok_bind]
  simp only [Nat.zero_add, Nat.sub_zero, Nat.add_zero, List.drop_zero]
  rw [toInt64_moved (by omega), Nat.min_comm k]

/-- What two writes that transfer `n` of at most `m` bytes from `p` on have in common. -/
structure SameWrite (ramdisk : ℕ → UInt8) (buf : List UInt8) (p n m : ℕ) (r r' : WriteResult) :
    Prop where
  ret : r.ret = n ∧ r'.ret = n
  pos : r.pos = (p + n : ℕ) ∧ r'.pos = (p + n : ℕ)
  moved : ∀ i, i < n → r.ramdisk (p + i) = buf.getD i 0 ∧ r'.ramdisk (p + i) = buf.getD i 0
  frame : ∀ i, i < p ∨ p + m ≤ i → r.ramdisk i = ramdisk i ∧ r'.ramdisk i = ramdisk i

/-- Whatever a failed access leaves behind the `n` bytes that were moved. -/
theorem overwrite_moved {n i : ℕ} (rest : List UInt8) (hn : n ≤ buf.length) (hi : i < n) :
    overwrite ramdisk p (buf.take n ++ rest) (p + i) = buf.getD i 0 := by
  have hlen : i < (buf.take n).length := by
    rw [List.length_take]
    omega
  have htotal : i < (buf.take n ++ rest).length := by
    rw [List.length_append]
    omega
  rw [overwrite_of_mem ramdisk p htotal, List.getElem_append_left hlen, List.getElem_take,
    List.getD_eq_getElem?_getD, List.getElem?_eq_getElem (by omega), Option.getD_some]

theorem overwrite_frame {n m i : ℕ} {rest : List UInt8} (hm : n + rest.length ≤ m)
    (hi : i < p ∨ p + m ≤ i) : overwrite ramdisk p (buf.take n ++ rest) i = ramdisk i := by
  have hlen : (buf.take n ++ rest).length ≤ m := by
    rw [List.length_append, List.length_take]
    omega
  rcases hi with hbelow | habove
  · exact overwrite_of_lt ramdisk _ hbelow
  · exact overwrite_of_ge ramdisk (by omega)

/-- Byte by byte and in one copy, at every fault position, the same is transferred. -/
theorem putget_agrees (ramdisk : ℕ → UInt8) (p k : ℕ) (hp : p ≤ RAMDISK_SIZE) :
    (∀ lbuf, ∃ r, mycdrvRead ramdisk lbuf p k = .ok r ∧
        mycdrvGenericRead ramdisk lbuf p k = .ok r ∧
        r.out = window ramdisk p (min k (min lbuf (RAMDISK_SIZE - p)))) ∧
      ∀ buf : List UInt8, ∃ r r', mycdrvWrite ramdisk buf p k = .ok r ∧
        mycdrvGenericWrite ramdisk buf p k = .ok r' ∧
        SameWrite ramdisk buf p (min k (min buf.length (RAMDISK_SIZE - p)))
          (min buf.length (RAMDISK_SIZE - p)) r r' := by
  constructor
  · intro lbuf
    have hgeneric := mycdrvGenericRead_eq ramdisk lbuf k hp
    exact ⟨_, (mycdrvRead_eq hp lbuf).trans hgeneric, hgeneric, rfl⟩
  · intro buf
    refine ⟨_, _, mycdrvWrite_eq hp buf, mycdrvGenericWrite_eq _ _ _ hp, ?_⟩
    exact {
      ret := ⟨rfl, rfl⟩
      pos := ⟨rfl, rfl⟩
      moved := fun i hi =>
        ⟨overwrite_moved _ (by omega) hi, overwrite_moved _ (by omega) hi⟩
      frame := fun i hi => by
        refine ⟨overwrite_frame ?_ hi, overwrite_frame ?_ hi⟩
        · split
          · next hfault =>
              rw [List.length_singleton]
              omega
          · rw [List.length_nil]
            omega
        · rw [List.length_replicate]
          omega }

/-- Four bytes, two bytes before the end, with a fault at the second one. -/
theorem nearEnd_agrees :
    (∃ r, mycdrvRead (fun _ => 0) 4 65534 1 = .ok r ∧
        mycdrvGenericRead (fun _ => 0) 4 65534 1 = .ok r ∧ r.out = window (fun _ => 0) 65534 1) ∧
      ∃ r r', mycdrvWrite (fun _ => 0) [1, 2, 3, 4] 65534 1 = .ok r ∧
        mycdrvGenericWrite (fun _ => 0) [1, 2, 3, 4] 65534 1 = .ok r' ∧
        SameWrite (fun _ => 0) [1, 2, 3, 4] 65534 1 2 r r' := by
  obtain ⟨hread, hwrite⟩ := putget_agrees (fun _ => 0) 65534 1 (by decide)
  exact ⟨hread 4, hwrite [1, 2, 3, 4]⟩

end LddSamples.Dma.PutGet
