import LddSamples.Library.ByteMap
import LddSamples.Library.Outcome

/-!
# Transfers by a retry loop

A device call may transfer less than it is asked for. The caller asks again for
the rest, with requests of any positive sizes, until everything has moved. If
every call makes progress and stores what it was given, the loop stores
everything, however the transfer was cut.
-/

namespace RetryLoop

open ByteMap

universe u v

variable {φ : Type u} {σ α : Type v}

/-- Write `data` from offset `p` on. The `k`-th request asks for `chunk k`
values; the result carries what is left unwritten when the fuel is used up. -/
def writeLoop (write : σ → ℕ → List α → Except φ (ℕ × σ)) (chunk : ℕ → ℕ) :
    ℕ → σ → ℕ → List α → Except φ (σ × List α)
  | 0, s, _, data => .ok (s, data)
  | _ + 1, s, _, [] => .ok (s, [])
  | fuel + 1, s, p, a :: data => do
      let (n, s') ← write s p ((a :: data).take (chunk 0))
      writeLoop write (fun k => chunk (k + 1)) fuel s' (p + n) ((a :: data).drop n)

/-- Read `n` values from offset `p` on. A call that returns nothing ends the loop. -/
def readLoop (read : σ → ℕ → ℕ → Except φ (List α × σ)) (chunk : ℕ → ℕ) :
    ℕ → σ → ℕ → ℕ → Except φ (List α × σ)
  | 0, s, _, _ => .ok ([], s)
  | _ + 1, s, _, 0 => .ok ([], s)
  | fuel + 1, s, p, n + 1 => do
      let (got, s') ← read s p (min (n + 1) (chunk 0))
      if got = [] then .ok ([], s')
      else do
        let (rest, t) ← readLoop read (fun k => chunk (k + 1)) fuel s' (p + got.length)
          (n + 1 - got.length)
        .ok (got ++ rest, t)

/-- A write call that ends by `hi` stores a nonempty prefix of its request, and
carries an invariant of the offset reached so far. -/
def StoresPrefix (write : σ → ℕ → List α → Except φ (ℕ × σ)) (Inv : ℕ → σ → Prop)
    (content : σ → ℕ → α) (hi : ℕ) : Prop :=
  ∀ s p (data : List α), Inv p s → data ≠ [] → p + data.length ≤ hi →
    ∃ n s', write s p data = .ok (n, s') ∧ 0 < n ∧ n ≤ data.length ∧ Inv (p + n) s' ∧
      content s' = overwrite (content s) p (data.take n)

/-- With one unit of fuel for each value the write loop ends, nothing is left,
and the stored content does not depend on how the requests were cut. -/
theorem writeLoop_eq {write : σ → ℕ → List α → Except φ (ℕ × σ)} {Inv : ℕ → σ → Prop}
    {content : σ → ℕ → α} {hi : ℕ} (hwrite : StoresPrefix write Inv content hi)
    {fuel : ℕ} {chunk : ℕ → ℕ} (hchunk : ∀ k, 0 < chunk k)
    {s : σ} {p : ℕ} {data : List α} (hs : Inv p s) (hfuel : data.length ≤ fuel)
    (hhi : p + data.length ≤ hi) :
    ∃ s', writeLoop write chunk fuel s p data = .ok (s', []) ∧ Inv (p + data.length) s' ∧
      content s' = overwrite (content s) p data := by
  induction fuel generalizing chunk s p data with
  | zero =>
      obtain rfl : data = [] := List.length_eq_zero_iff.mp (by omega)
      exact ⟨s, rfl, hs, by simp⟩
  | succ fuel ih =>
      cases data with
      | nil => exact ⟨s, rfl, hs, by simp⟩
      | cons a data =>
          have htake : (a :: data).take (chunk 0) ≠ [] := by
            simp [Nat.pos_iff_ne_zero.mp (hchunk 0)]
          have hlen : ((a :: data).take (chunk 0)).length ≤ (a :: data).length :=
            List.length_take_le' ..
          obtain ⟨n, s₁, hcall, hn, hnle, hs₁, hcontent⟩ :=
            hwrite s p ((a :: data).take (chunk 0)) hs htake (by omega)
          have hnchunk : n ≤ chunk 0 := hnle.trans (List.length_take_le ..)
          have hdrop : ((a :: data).drop n).length = (a :: data).length - n := List.length_drop
          obtain ⟨s₂, hloop, hs₂, hstored⟩ : ∃ s₂,
              writeLoop write (fun k => chunk (k + 1)) fuel s₁ (p + n) ((a :: data).drop n) =
                .ok (s₂, []) ∧ Inv (p + n + ((a :: data).drop n).length) s₂ ∧
              content s₂ = overwrite (content s₁) (p + n) ((a :: data).drop n) := by
            apply ih (fun k => hchunk (k + 1)) hs₁
            · omega
            · omega
          have hend : p + n + ((a :: data).drop n).length = p + (a :: data).length := by omega
          refine ⟨s₂, ?_, hend ▸ hs₂, ?_⟩
          · simp only [writeLoop, hcall, Outcome.ok_bind, hloop]
          · have hpre : ((a :: data).take (chunk 0)).take n = (a :: data).take n := by
              rw [List.take_take, Nat.min_eq_left hnchunk]
            have hplen : p + n = p + ((a :: data).take n).length := by
              rw [List.length_take]
              omega
            rw [hstored, hcontent, hpre, hplen, overwrite_append, List.take_append_drop]

/-- A read call on a nonempty request inside `[lo, hi)` delivers a nonempty
prefix of the requested window and keeps the content. -/
def DeliversPrefix (read : σ → ℕ → ℕ → Except φ (List α × σ)) (Inv : σ → Prop)
    (content : σ → ℕ → α) (lo hi : ℕ) : Prop :=
  ∀ s p n, Inv s → 0 < n → lo ≤ p → p + n ≤ hi →
    ∃ k s', read s p n = .ok (window (content s) p k, s') ∧ 0 < k ∧ k ≤ n ∧ Inv s' ∧
      content s' = content s

theorem readLoop_eq {read : σ → ℕ → ℕ → Except φ (List α × σ)} {Inv : σ → Prop}
    {content : σ → ℕ → α} {lo hi : ℕ} (hread : DeliversPrefix read Inv content lo hi)
    {fuel : ℕ} {chunk : ℕ → ℕ} (hchunk : ∀ k, 0 < chunk k)
    {s : σ} {p n : ℕ} (hs : Inv s) (hfuel : n ≤ fuel) (hlo : lo ≤ p) (hhi : p + n ≤ hi) :
    ∃ s', readLoop read chunk fuel s p n = .ok (window (content s) p n, s') ∧ Inv s' ∧
      content s' = content s := by
  induction fuel generalizing chunk s p n with
  | zero =>
      obtain rfl : n = 0 := by omega
      exact ⟨s, rfl, hs, rfl⟩
  | succ fuel ih =>
      cases n with
      | zero => exact ⟨s, rfl, hs, rfl⟩
      | succ n =>
          have hask : 0 < min (n + 1) (chunk 0) := by
            have := hchunk 0
            omega
          obtain ⟨k, s₁, hcall, hk, hkle, hs₁, hsame⟩ :=
            hread s p (min (n + 1) (chunk 0)) hs hask hlo (by omega)
          obtain ⟨s₂, hloop, hs₂, hkept⟩ : ∃ s₂,
              readLoop read (fun j => chunk (j + 1)) fuel s₁ (p + k) (n + 1 - k) =
                .ok (window (content s₁) (p + k) (n + 1 - k), s₂) ∧ Inv s₂ ∧
              content s₂ = content s₁ := by
            apply ih (fun j => hchunk (j + 1)) hs₁
            · omega
            · omega
            · omega
          have hne : window (content s) p k ≠ [] := by
            intro h
            have := congrArg List.length h
            simp at this
            omega
          refine ⟨s₂, ?_, hs₂, hkept.trans hsame⟩
          simp only [readLoop, hcall, Outcome.ok_bind, if_neg hne, window_length, hloop, hsame]
          rw [← window_add, Nat.add_sub_cancel' (by omega)]

end RetryLoop
