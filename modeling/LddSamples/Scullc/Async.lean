import LddSamples.Scullc.DeferOp
import LddSamples.Scullc.Ownership
import LddSamples.Scullc.Returns

/-!
# Asynchronous requests on scullc

`scullc_defer_op` moves the data at once, and then leaves the completion of the request
to a work item that it allocates. Any number of requests are under way, and the work
items run in any order.
-/

namespace LddSamples.Scullc

open Kernel CArith Outcome

/-! ## Transfers of the iterator path -/

/-- The transfer gets as far as the walk along the list. -/
def IovIter.Reaches (dev : ScullcDev) (pos : ℤ) : IovIter → Prop
  | .source _ => True
  | .dest _ => toUInt64 pos ≤ dev.size

/-- Every list item that the transfer has to add is granted. -/
def WalkGranted (env : Env) (heap : Heap) (dev : ScullcDev) (pos : ℤ) (iter : IovIter) : Prop :=
  env.signalled = false → iter.Reaches dev pos →
    ∀ loc, locate dev.quantum dev.qset pos = .ok loc →
      Grants env heap (toUInt32 loc.item - dev.next.length)

section Bounce

variable {env : Env} {m : Module} {heap : Heap} {dev dev₁ : ScullcDev} {pos : ℤ} {c : IterCopy}
  {iter : IovIter}

/-- A transfer returns exactly when its walk is granted. -/
theorem Roomy.bounce_returns_iff (h : Roomy m dev) (hpos : 0 ≤ pos) :
    (∃ t, scullcBounce c env m heap dev pos iter = .ok t) ↔
      WalkGranted env heap dev pos iter := by
  have hlock : Roomy m dev.lock := h.of_sameData (SameData.lock dev)
  cases hsignal : env.signalled with
  | true => cases iter <;> simp [scullcBounce, scullcDoRead, scullcDoWrite, hsignal, WalkGranted]
  | false =>
      cases iter with
      | source data =>
          simp only [scullcBounce, exists_bind_ok, scullcDoWrite, hsignal, Bool.false_eq_true,
            if_false, WalkGranted, IovIter.Reaches, forall_const]
          exact hlock.writeLocked_returns_iff hpos _ _ _
      | dest total =>
          simp only [scullcBounce, exists_bind_ok, scullcDoRead, hsignal, Bool.false_eq_true,
            if_false, WalkGranted, IovIter.Reaches, forall_const]
          exact hlock.readLocked_returns_iff hpos _ _

/-- Transfers leave room, and all they do to the heap is to allocate. -/
theorem Roomy.bounce (h : Roomy m dev) {t : Transfer}
    (ht : scullcBounce c env m heap dev pos iter = .ok t) :
    Roomy m t.dev ∧ ∃ new, Gains env heap t.heap new := by
  have hlock : Roomy m dev.lock := h.of_sameData (SameData.lock dev)
  have hqset : 0 ≤ dev.qset := by
    obtain ⟨q, s, -, -, hs⟩ := h.regular.geometry
    omega
  cases iter with
  | source data =>
      simp only [scullcBounce, bind_eq_ok, Except.ok.injEq] at ht
      obtain ⟨r, hr, rfl⟩ := ht
      obtain ⟨new, hgains, -⟩ := scullcDoWrite_owned hqset hr
      refine ⟨?_, new, hgains⟩
      unfold scullcDoWrite at hr
      split at hr
      · cases hr
        exact h
      · obtain ⟨hquantum, hset, -⟩ := writeLocked_geometry hr
        obtain ⟨q, s, hg, hq, hs⟩ := hlock.regular.geometry
        have hshaped := writeLocked_shaped hr hlock.regular.shaped
        exact ⟨h.good, h.fits, ⟨⟨q, s, hg, hquantum.trans hq, hset.trans hs⟩, hshaped⟩,
          hquantum.le.trans h.room⟩
  | dest total =>
      simp only [scullcBounce, bind_eq_ok, Except.ok.injEq] at ht
      obtain ⟨r, hr, rfl⟩ := ht
      obtain ⟨new, hgains, -⟩ := scullcDoRead_owned hr
      have hsame : SameData dev r.dev := scullcDoRead_sameData hr
      exact ⟨h.of_sameData hsame, new, hgains⟩

/-- What a transfer of at most `MAX_RW_COUNT` bytes returns is never taken for a
request that has been queued. -/
theorem bounce_ret_ne {t : Transfer} (hcount : iter.count ≤ MAX_RW_COUNT)
    (ht : scullcBounce c env m heap dev pos iter = .ok t) : t.ret ≠ -EIOCBQUEUED := by
  cases iter with
  | source data =>
      simp only [scullcBounce, scullcDoWrite, bind_eq_ok, Except.ok.injEq] at ht
      obtain ⟨r, hr, rfl⟩ := ht
      have hret : r.ret = -ERESTARTSYS ∨ r.ret = -ENOMEM ∨ r.ret = -EFAULT := by
        split at hr
        · cases hr
          exact .inl rfl
        · exact .inr (writeLocked_aio hr)
      change toInt32 r.ret ≠ -EIOCBQUEUED
      rcases hret with hret | hret | hret <;> rw [hret] <;> decide
  | dest total =>
      simp only [scullcBounce, bind_eq_ok, Except.ok.injEq] at ht
      obtain ⟨r, -, rfl⟩ := ht
      have hle := c.toIter_le (toUInt64 (toInt32 r.ret)) total
      have hmax := MAX_RW_COUNT_eq
      have hint := INT_MAX_eq
      have hqueued : EIOCBQUEUED = 529 := rfl
      simp only [IovIter.count] at hcount
      change toInt32 (c.toIter (toUInt64 (toInt32 r.ret)) total : ℕ) ≠ -EIOCBQUEUED
      rw [toInt32_of_mem (by omega) (by omega)]
      omega

end Bounce

/-! ## Requests and work items -/

/-- A call of `read_iter` or `write_iter` with a kiocb that is not synchronous. -/
structure AsyncRequest where
  dev : Fin SCULLC_DEVS
  iter : IovIter
  pos : ℤ
  count_le : iter.count ≤ MAX_RW_COUNT
  pos_nonneg : 0 ≤ pos

/-- Where a request stands in `scullc_defer_op`. -/
inductive AsyncPc
  | out
  | allocated (r : AsyncRequest) (buf : ℕ)
  | moved (result : ℤ)
  | tracked (result : ℤ) (stuff : ℕ)
  | scheduled
  | returned (ret : ℤ)

/-- `struct async_work`, and whether its work item has called `ki_complete`. -/
structure AsyncWork (ι : Type) where
  iocb : ι
  result : ℤ
  called : Bool

/-- A request stands for its own kiocb. `works` holds the scheduled work items at the
addresses of their `async_work`. The last two fields are for the statements: what the
transfer of a request has come to, and the address of its `async_work`. -/
structure AsyncWorld (ι : Type) where
  module : Module
  devs : Fin SCULLC_DEVS → ScullcDev
  heap : Heap
  pc : ι → AsyncPc
  works : ℕ → Option (AsyncWork ι)
  completions : List (ι × ℤ)
  outcome : ι → Option ℤ
  stuff : ι → Option ℕ

inductive AsyncEvent (ι : Type)
  | submit (p : ι) (r : AsyncRequest) (env : Env)
  | transfer (p : ι) (env : Env) (c : IterCopy)
  | track (p : ι) (env : Env)
  | schedule (p : ι)
  | ret (p : ι)
  | kiComplete (a : ℕ)
  | free (a : ℕ)

namespace AsyncWorld

variable {ι : Type} [DecidableEq ι]

def goto (w : AsyncWorld ι) (p : ι) (pc : AsyncPc) : AsyncWorld ι :=
  { w with pc := Function.update w.pc p pc }

def step (w : AsyncWorld ι) : AsyncEvent ι → Except Stop (AsyncWorld ι)
  | .submit p r env =>
      match w.pc p with
      | .out =>
          match kmalloc env w.heap with
          | (none, heap) => .ok { w.goto p (.returned (-ENOMEM)) with heap := heap }
          | (some buf, heap) => .ok { w.goto p (.allocated r buf) with heap := heap }
      | _ => .error .disabled
  | .transfer p env c =>
      match w.pc p with
      | .allocated r buf => do
          let t ← crash (scullcBounce c env w.module w.heap (w.devs r.dev) r.pos r.iter)
          .ok { w.goto p (.moved t.ret) with
            devs := Function.update w.devs r.dev t.dev
            heap := kfree t.heap buf
            outcome := Function.update w.outcome p (some t.ret) }
      | _ => .error .disabled
  | .track p env =>
      match w.pc p with
      | .moved result =>
          match kmalloc env w.heap with
          | (none, heap) => .ok { w.goto p (.returned result) with heap := heap }
          | (some stuff, heap) =>
              .ok { w.goto p (.tracked result stuff) with
                heap := heap
                stuff := Function.update w.stuff p (some stuff) }
      | _ => .error .disabled
  | .schedule p =>
      match w.pc p with
      | .tracked result stuff =>
          .ok { w.goto p .scheduled with
            works := Function.update w.works stuff (some ⟨p, result, false⟩) }
      | _ => .error .disabled
  | .ret p =>
      match w.pc p with
      | .scheduled => .ok (w.goto p (.returned (-EIOCBQUEUED)))
      | _ => .error .disabled
  | .kiComplete a =>
      match w.works a with
      | some ⟨p, result, false⟩ =>
          .ok { w with
            works := Function.update w.works a (some ⟨p, result, true⟩)
            completions := w.completions ++ [(p, result)] }
      | _ => .error .disabled
  | .free a =>
      match w.works a with
      | some ⟨_, _, true⟩ =>
          .ok { w with works := Function.update w.works a none, heap := kfree w.heap a }
      | _ => .error .disabled

/-- The results that the `ki_complete` of `p` has been called with. -/
def completed (w : AsyncWorld ι) (p : ι) : List ℤ :=
  w.completions.filterMap fun c => if c.1 = p then some c.2 else none

/-- The three stages of the work item of `p`: to be run, called but not yet freed, and
done. -/
inductive Stage (w : AsyncWorld ι) (p : ι) (result : ℤ) (a : ℕ) : Prop
  | pending (work : w.works a = some ⟨p, result, false⟩) (calls : w.completed p = [])
      (frees : w.heap.freed.count a = 0)
  | called (work : w.works a = some ⟨p, result, true⟩) (calls : w.completed p = [result])
      (frees : w.heap.freed.count a = 0)
  | done (work : w.works a = none) (calls : w.completed p = [result])
      (frees : w.heap.freed.count a = 1)

/-- The request has one work item, with the result of its own transfer. -/
def Queued (w : AsyncWorld ι) (p : ι) : Prop :=
  ∃ result a, w.outcome p = some result ∧ w.stuff p = some a ∧ w.Stage p result a

/-- Nothing is to complete the request later, and nothing has. -/
def Unqueued (w : AsyncWorld ι) (p : ι) : Prop :=
  w.completed p = [] ∧ w.stuff p = none ∧ ∀ a work, w.works a = some work → work.iocb ≠ p

/-- A request that has returned was completed by its return value or is completed by
its work item, and not by both. -/
def ExactlyOnce (w : AsyncWorld ι) : Prop :=
  ∀ p ret, w.pc p = .returned ret →
    (ret ≠ -EIOCBQUEUED ∧ w.Unqueued p) ∨ (ret = -EIOCBQUEUED ∧ w.Queued p)

/-- The step does not crash the kernel, so that the request goes on to return. -/
def Returns (w : AsyncWorld ι) (e : AsyncEvent ι) : Prop := ∀ f, step w e ≠ .error (.fault f)

/-- The allocations of `scullc_follow`, the ones that are not tested, succeed. -/
def FollowGranted (w : AsyncWorld ι) (e : AsyncEvent ι) : Prop :=
  ∀ p env c r buf, e = .transfer p env c → w.pc p = .allocated r buf →
    WalkGranted env w.heap (w.devs r.dev) r.pos r.iter

/-- Devices with room, before any request is made of them. -/
structure Start where
  module : Module
  devs : Fin SCULLC_DEVS → ScullcDev
  heap : Heap
  roomy : ∀ i, Roomy module (devs i)
  freed_lt : ∀ a ∈ heap.freed, a < heap.requests

def start (s : Start) : AsyncWorld ι :=
  ⟨s.module, s.devs, s.heap, fun _ => .out, fun _ => none, [], fun _ => none, fun _ => none⟩

/-! ## Addresses -/

/-- The addresses in use have been handed out, an `async_work` belongs to one request,
and no buffer is at the address of one. -/
structure Addresses (w : AsyncWorld ι) : Prop where
  freed_lt : ∀ a ∈ w.heap.freed, a < w.heap.requests
  stuff_lt : ∀ p a, w.stuff p = some a → a < w.heap.requests
  stuff_inj : ∀ p q a, w.stuff p = some a → w.stuff q = some a → p = q
  owner : ∀ a work, w.works a = some work → w.stuff work.iocb = some a
  buf : ∀ p r buf, w.pc p = .allocated r buf →
    buf < w.heap.requests ∧ ∀ q, w.stuff q ≠ some buf

variable {w w' : AsyncWorld ι} {env : Env} {heap : Heap} {p : ι} {pc : AsyncPc} {a : ℕ}

theorem Addresses.goto (h : Addresses w)
    (hpc : ∀ r buf, pc = .allocated r buf → buf < w.heap.requests ∧ ∀ q, w.stuff q ≠ some buf) :
    Addresses (w.goto p pc) where
  freed_lt := h.freed_lt
  stuff_lt := h.stuff_lt
  stuff_inj := h.stuff_inj
  owner := h.owner
  buf q r buf hq := by
    by_cases hqp : q = p
    · subst hqp
      simp only [AsyncWorld.goto, Function.update_self] at hq
      exact hpc r buf hq
    · simp only [AsyncWorld.goto, Function.update_of_ne hqp] at hq
      exact h.buf q r buf hq

omit [DecidableEq ι] in
theorem Addresses.grow (h : Addresses w) {new : List ℕ} (hgains : Gains env w.heap heap new) :
    Addresses { w with heap := heap } where
  freed_lt b hb := by
    have hold : b ∈ w.heap.freed := hgains.freed ▸ hb
    exact (h.freed_lt b hold).trans_le hgains.le
  stuff_lt q b hq := (h.stuff_lt q b hq).trans_le hgains.le
  stuff_inj := h.stuff_inj
  owner := h.owner
  buf q r buf hq := ⟨(h.buf q r buf hq).1.trans_le hgains.le, (h.buf q r buf hq).2⟩

omit [DecidableEq ι] in
theorem Addresses.deliver (h : Addresses w) (devs : Fin SCULLC_DEVS → ScullcDev)
    (completions : List (ι × ℤ)) (outcome : ι → Option ℤ) :
    Addresses { w with devs := devs, completions := completions, outcome := outcome } :=
  ⟨h.freed_lt, h.stuff_lt, h.stuff_inj, h.owner, h.buf⟩

omit [DecidableEq ι] in
theorem Addresses.kfree (h : Addresses w) (ha : a < w.heap.requests) :
    Addresses { w with heap := Kernel.kfree w.heap a } where
  freed_lt b hb := by
    rcases List.mem_append.mp hb with hb | hb
    · exact h.freed_lt b hb
    · rw [List.mem_singleton.mp hb]
      exact ha
  stuff_lt := h.stuff_lt
  stuff_inj := h.stuff_inj
  owner := h.owner
  buf := h.buf

/-- A request that has no `async_work` gets one at the address handed out last. -/
theorem Addresses.assign (h : Addresses w) {new : List ℕ} (hnone : w.stuff p = none)
    (hgains : Gains env w.heap heap new) (hmem : w.heap.requests ∈ new) :
    Addresses { w with
      heap := heap
      stuff := Function.update w.stuff p (some w.heap.requests) } where
  freed_lt := (h.grow hgains).freed_lt
  stuff_lt q b hq := by
    by_cases hqp : q = p
    · subst hqp
      obtain rfl : w.heap.requests = b := by simpa using hq
      exact (hgains.mem hmem).2
    · exact (h.grow hgains).stuff_lt q b (by simpa [hqp] using hq)
  stuff_inj q q' b hq hq' := by
    -- the new address is larger than the addresses in use
    by_cases hqp : q = p <;> by_cases hqp' : q' = p
    · rw [hqp, hqp']
    · subst hqp
      obtain rfl : w.heap.requests = b := by simpa using hq
      exact absurd (h.stuff_lt q' _ (by simpa [hqp'] using hq')) (lt_irrefl _)
    · subst hqp'
      obtain rfl : w.heap.requests = b := by simpa using hq'
      exact absurd (h.stuff_lt q _ (by simpa [hqp] using hq)) (lt_irrefl _)
    · exact h.stuff_inj q q' b (by simpa [hqp] using hq) (by simpa [hqp'] using hq')
  owner b work hwork := by
    have hold := h.owner b work hwork
    have hne : work.iocb ≠ p := by
      rintro rfl
      rw [hnone] at hold
      cases hold
    simpa [hne] using hold
  buf q r buf hq := by
    obtain ⟨hlt, hbuf⟩ := h.buf q r buf hq
    refine ⟨hlt.trans_le hgains.le, fun q' hq' => ?_⟩
    by_cases hqp : q' = p
    · subst hqp
      obtain rfl : w.heap.requests = buf := by simpa using hq'
      exact lt_irrefl _ hlt
    · exact hbuf q' (by simpa [hqp] using hq')

omit [DecidableEq ι] in
theorem Addresses.setWork (h : Addresses w) {found : Option (AsyncWork ι)}
    (hfound : ∀ work, found = some work → w.stuff work.iocb = some a) :
    Addresses { w with works := Function.update w.works a found } where
  freed_lt := h.freed_lt
  stuff_lt := h.stuff_lt
  stuff_inj := h.stuff_inj
  owner b work hwork := by
    by_cases hb : b = a
    · subst hb
      exact hfound work (by simpa using hwork)
    · exact h.owner b work (by simpa [hb] using hwork)
  buf := h.buf

/-! ## What holds of a request at each place -/

/-- Nothing about the completion of `p` differs. -/
structure Same (w w' : AsyncWorld ι) (p : ι) : Prop where
  outcome : w'.outcome p = w.outcome p
  stuff : w'.stuff p = w.stuff p
  completed : w'.completed p = w.completed p
  work : ∀ a, w.stuff p = some a → w'.works a = w.works a
  frees : ∀ a, w.stuff p = some a → w'.heap.freed.count a = w.heap.freed.count a

def At (w : AsyncWorld ι) (p : ι) : AsyncPc → Prop
  | .out => w.completed p = [] ∧ w.stuff p = none
  | .allocated _ _ => w.completed p = [] ∧ w.stuff p = none
  | .moved result =>
      (w.completed p = [] ∧ w.stuff p = none) ∧ w.outcome p = some result ∧ result ≠ -EIOCBQUEUED
  | .tracked result a =>
      w.completed p = [] ∧ w.stuff p = some a ∧ w.outcome p = some result ∧ w.works a = none ∧
        w.heap.freed.count a = 0
  | .scheduled => w.Queued p
  | .returned ret =>
      (ret ≠ -EIOCBQUEUED ∧ w.completed p = [] ∧ w.stuff p = none) ∨
        (ret = -EIOCBQUEUED ∧ w.Queued p)

structure Inv (w : AsyncWorld ι) : Prop where
  roomy : ∀ i, Roomy w.module (w.devs i)
  addresses : Addresses w
  place : ∀ p, w.At p (w.pc p)

theorem Queued.frame (h : w.Queued p) (hsame : Same w w' p) : w'.Queued p := by
  obtain ⟨result, a, hout, hstuff, hstage⟩ := h
  refine ⟨result, a, hsame.outcome.trans hout, hsame.stuff.trans hstuff, ?_⟩
  have hwork := hsame.work a hstuff
  have hfrees := hsame.frees a hstuff
  cases hstage with
  | pending work calls frees =>
      exact .pending (hwork.trans work) (hsame.completed.trans calls) (hfrees.trans frees)
  | called work calls frees =>
      exact .called (hwork.trans work) (hsame.completed.trans calls) (hfrees.trans frees)
  | done work calls frees =>
      exact .done (hwork.trans work) (hsame.completed.trans calls) (hfrees.trans frees)

theorem At.frame (h : w.At p pc) (hsame : Same w w' p) : w'.At p pc := by
  cases pc with
  | out => exact ⟨hsame.completed.trans h.1, hsame.stuff.trans h.2⟩
  | allocated r buf => exact ⟨hsame.completed.trans h.1, hsame.stuff.trans h.2⟩
  | moved result =>
      obtain ⟨⟨hdone, hstuff⟩, hout, hret⟩ := h
      exact ⟨⟨hsame.completed.trans hdone, hsame.stuff.trans hstuff⟩, hsame.outcome.trans hout,
        hret⟩
  | tracked result a =>
      obtain ⟨hdone, hstuff, hout, hwork, hfrees⟩ := h
      exact ⟨hsame.completed.trans hdone, hsame.stuff.trans hstuff, hsame.outcome.trans hout,
        (hsame.work a hstuff).trans hwork, (hsame.frees a hstuff).trans hfrees⟩
  | scheduled => exact Queued.frame h hsame
  | returned ret =>
      rcases h with ⟨hret, hdone, hstuff⟩ | ⟨hret, hqueued⟩
      · exact .inl ⟨hret, hsame.completed.trans hdone, hsame.stuff.trans hstuff⟩
      · exact .inr ⟨hret, hqueued.frame hsame⟩

/-- A step of one request leaves the others where they are. -/
theorem place_of_same (h : ∀ q, w.At q (w.pc q)) (hpc : ∀ q, q ≠ p → w'.pc q = w.pc q)
    (hsame : ∀ q, q ≠ p → Same w w' q) (hself : w'.At p (w'.pc p)) (q : ι) :
    w'.At q (w'.pc q) := by
  by_cases hq : q = p
  · rw [hq]
    exact hself
  · rw [hpc q hq]
    exact (h q).frame (hsame q hq)

theorem place_of_goto (h : ∀ q, w.At q (w.pc q)) (hpc : w'.pc = Function.update w.pc p pc)
    (hsame : ∀ q, q ≠ p → Same w w' q) (hself : w'.At p pc) (q : ι) : w'.At q (w'.pc q) := by
  apply place_of_same (p := p) h ?_ hsame
  · rw [hpc, Function.update_self]
    exact hself
  · intro q' hq
    rw [hpc, Function.update_of_ne hq]

/-- A work item belongs to a request that has been queued. -/
theorem Inv.queued (h : Inv w) {work : AsyncWork ι} (hwork : w.works a = some work) :
    w.Queued work.iocb ∧ (w.pc work.iocb = .scheduled ∨
      w.pc work.iocb = .returned (-EIOCBQUEUED)) := by
  have hstuff := h.addresses.owner a work hwork
  have hplace := h.place work.iocb
  cases hpc : w.pc work.iocb with
  | out => simp [At, hpc, hstuff] at hplace
  | allocated r buf => simp [At, hpc, hstuff] at hplace
  | moved result => simp [At, hpc, hstuff] at hplace
  | tracked result b =>
      rw [hpc] at hplace
      obtain ⟨-, hb, -, hnone, -⟩ := hplace
      obtain rfl : b = a := Option.some.inj (hb.symm.trans hstuff)
      rw [hwork] at hnone
      cases hnone
  | scheduled =>
      rw [hpc] at hplace
      exact ⟨hplace, .inl rfl⟩
  | returned ret =>
      rw [hpc] at hplace
      rcases hplace with ⟨-, -, hnone⟩ | ⟨rfl, hqueued⟩
      · rw [hstuff] at hnone
        cases hnone
      · exact ⟨hqueued, .inr rfl⟩

theorem start_inv (s : Start) : Inv (start s : AsyncWorld ι) where
  roomy := s.roomy
  addresses := ⟨s.freed_lt, nofun, nofun, nofun, nofun⟩
  place _ := ⟨rfl, rfl⟩

theorem Inv.exactlyOnce (h : Inv w) : w.ExactlyOnce := by
  intro p ret hpc
  have hplace := h.place p
  rw [hpc] at hplace
  rcases hplace with ⟨hret, hdone, hstuff⟩ | hqueued
  · refine .inl ⟨hret, hdone, hstuff, ?_⟩
    rintro a work hwork rfl
    rw [h.addresses.owner a work hwork] at hstuff
    cases hstuff
  · exact .inr hqueued

/-! ## What a step keeps -/

theorem submit_inv (h : Inv w) {r : AsyncRequest} (hstep : step w (.submit p r env) = .ok w') :
    Inv w' := by
  simp only [step] at hstep
  split at hstep
  · next hpc =>
      have hfresh : w.completed p = [] ∧ w.stuff p = none := by
        have hplace := h.place p
        rwa [hpc] at hplace
      split at hstep
      · next heap halloc =>
          cases hstep
          have hgains := kmalloc_none halloc
          refine ⟨h.roomy, (h.addresses.grow hgains).goto nofun, ?_⟩
          apply place_of_goto h.place rfl
          · intro q _
            exact ⟨rfl, rfl, rfl, fun _ _ => rfl, fun b _ => by rw [hgains.freed]⟩
          · exact .inl ⟨by decide, hfresh⟩
      · next buf heap halloc =>
          cases hstep
          obtain ⟨hbuf, hgains⟩ := kmalloc_some halloc
          refine ⟨h.roomy, (h.addresses.grow hgains).goto ?_, ?_⟩
          · rintro _ _ ⟨⟩
            refine ⟨(hgains.mem (List.mem_singleton.mpr rfl)).2, fun q hq => ?_⟩
            exact absurd (h.addresses.stuff_lt q buf hq) (by omega)
          · apply place_of_goto h.place rfl
            · intro q _
              exact ⟨rfl, rfl, rfl, fun _ _ => rfl, fun b _ => by rw [hgains.freed]⟩
            · exact hfresh
  · cases hstep

theorem transfer_inv (h : Inv w) {c : IterCopy} (hstep : step w (.transfer p env c) = .ok w') :
    Inv w' := by
  simp only [step] at hstep
  split at hstep
  · next r buf hpc =>
      simp only [bind_eq_ok, crash_eq_ok, Except.ok.injEq] at hstep
      obtain ⟨t, ht, rfl⟩ := hstep
      obtain ⟨hlt, hbuf⟩ := h.addresses.buf p r buf hpc
      obtain ⟨hroomy, new, hgains⟩ := (h.roomy r.dev).bounce ht
      have hret := bounce_ret_ne r.count_le ht
      have haddr := (h.addresses.grow hgains).kfree (hlt.trans_le hgains.le)
      refine ⟨?_, (haddr.deliver _ _ _).goto ?_, ?_⟩
      · intro i
        by_cases hi : i = r.dev
        · subst hi
          simpa [goto] using hroomy
        · simpa [goto, hi] using h.roomy i
      · rintro _ _ ⟨⟩
      · have hplace := h.place p
        rw [hpc] at hplace
        apply place_of_goto h.place rfl
        · intro q hq
          refine ⟨Function.update_of_ne hq _ _, rfl, rfl, fun _ _ => rfl, fun b hb => ?_⟩
          -- the buffer that is freed is nobody's `async_work`
          have hne : b ≠ buf := by
            rintro rfl
            exact hbuf q hb
          simp [Kernel.kfree, hgains.freed, hne.symm]
        · exact ⟨hplace, Function.update_self .., hret⟩
  · cases hstep

theorem track_inv (h : Inv w) (hstep : step w (.track p env) = .ok w') : Inv w' := by
  simp only [step] at hstep
  split at hstep
  · next result hpc =>
      have hplace := h.place p
      rw [hpc] at hplace
      obtain ⟨⟨hdone, hstuff⟩, hout, hret⟩ := hplace
      split at hstep
      · next heap halloc =>
          cases hstep
          have hgains := kmalloc_none halloc
          refine ⟨h.roomy, (h.addresses.grow hgains).goto nofun, ?_⟩
          apply place_of_goto h.place rfl
          · intro q _
            exact ⟨rfl, rfl, rfl, fun _ _ => rfl, fun b _ => by rw [hgains.freed]⟩
          · exact .inl ⟨hret, hdone, hstuff⟩
      · next stuff heap halloc =>
          cases hstep
          obtain ⟨rfl, hgains⟩ := kmalloc_some halloc
          have haddr := h.addresses.assign hstuff hgains (List.mem_singleton.mpr rfl)
          refine ⟨h.roomy, haddr.goto nofun, ?_⟩
          apply place_of_goto h.place rfl
          · intro q hq
            exact ⟨rfl, Function.update_of_ne hq _ _, rfl, fun _ _ => rfl,
              fun b _ => by rw [hgains.freed]⟩
          · refine ⟨hdone, Function.update_self .., hout, ?_, ?_⟩
            · by_contra hsome
              obtain ⟨work, hwork⟩ := Option.ne_none_iff_exists'.mp hsome
              exact lt_irrefl _
                (h.addresses.stuff_lt _ _ (h.addresses.owner w.heap.requests work hwork))
            · rw [hgains.freed, List.count_eq_zero]
              exact fun hmem => lt_irrefl _ (h.addresses.freed_lt _ hmem)
  · cases hstep

theorem schedule_inv (h : Inv w) (hstep : step w (.schedule p) = .ok w') : Inv w' := by
  simp only [step] at hstep
  split at hstep
  · next result a hpc =>
      cases hstep
      have hplace := h.place p
      rw [hpc] at hplace
      obtain ⟨hdone, hstuff, hout, hnone, hfrees⟩ := hplace
      refine ⟨h.roomy, (h.addresses.setWork ?_).goto nofun, ?_⟩
      · rintro _ ⟨⟩
        exact hstuff
      · apply place_of_goto h.place rfl
        · intro q hq
          refine ⟨rfl, rfl, rfl, fun b hb => Function.update_of_ne ?_ _ _, fun _ _ => rfl⟩
          rintro rfl
          exact hq (h.addresses.stuff_inj q p b hb hstuff)
        · exact ⟨result, a, hout, hstuff, .pending (Function.update_self ..) hdone hfrees⟩
  · cases hstep

theorem ret_inv (h : Inv w) (hstep : step w (.ret p) = .ok w') : Inv w' := by
  simp only [step] at hstep
  split at hstep
  · next hpc =>
      cases hstep
      have hplace := h.place p
      rw [hpc] at hplace
      refine ⟨h.roomy, h.addresses.goto nofun, ?_⟩
      apply place_of_goto h.place rfl
      · intro q _
        exact ⟨rfl, rfl, rfl, fun _ _ => rfl, fun _ _ => rfl⟩
      · exact .inr ⟨rfl, Queued.frame hplace ⟨rfl, rfl, rfl, fun _ _ => rfl, fun _ _ => rfl⟩⟩
  · cases hstep

/-- A queued request goes on to its next stage and stays at its place. -/
theorem Inv.finish (h : Inv w) {work : AsyncWork ι} (hwork : w.works a = some work)
    (hroomy : ∀ i, Roomy w'.module (w'.devs i)) (haddr : Addresses w') (hpc : w'.pc = w.pc)
    (hsame : ∀ q, q ≠ work.iocb → Same w w' q) (hself : w'.Queued work.iocb) : Inv w' := by
  refine ⟨hroomy, haddr, place_of_same h.place (fun q _ => congrFun hpc q) hsame ?_⟩
  rw [hpc]
  rcases (h.queued hwork).2 with hat | hat
  · rw [hat]
    exact hself
  · rw [hat]
    exact .inr ⟨rfl, hself⟩

theorem kiComplete_inv (h : Inv w) (hstep : step w (.kiComplete a) = .ok w') : Inv w' := by
  simp only [step] at hstep
  split at hstep
  · next p result hwork =>
      cases hstep
      have hstuff : w.stuff p = some a := h.addresses.owner a _ hwork
      apply h.finish hwork
      · exact h.roomy
      · refine (h.addresses.setWork ?_).deliver _ _ _
        rintro _ ⟨⟩
        exact hstuff
      · rfl
      · intro q hq
        have hq : ¬ p = q := fun heq => hq heq.symm
        refine ⟨rfl, rfl, by simp [completed, hq], fun b hb => Function.update_of_ne ?_ _ _,
          fun _ _ => rfl⟩
        rintro rfl
        exact hq (h.addresses.stuff_inj p q b hstuff hb)
      · obtain ⟨result', b, hout, hb, hstage⟩ := (h.queued hwork).1
        obtain rfl : b = a := Option.some.inj (hb.symm.trans hstuff)
        cases hstage with
        | pending work calls frees =>
            rw [hwork] at work
            obtain rfl : result = result' := by simpa using work
            have hcalls : w.completed p = [] := calls
            refine ⟨result, b, hout, hstuff, .called (Function.update_self ..) ?_ frees⟩
            simp only [completed] at hcalls
            simp [completed, hcalls]
        | called work _ _ => simp [hwork] at work
        | done work _ _ => simp [hwork] at work
  · cases hstep

theorem free_inv (h : Inv w) (hstep : step w (.free a) = .ok w') : Inv w' := by
  simp only [step] at hstep
  split at hstep
  · next p result hwork =>
      cases hstep
      have hstuff : w.stuff p = some a := h.addresses.owner a _ hwork
      have hlt := h.addresses.stuff_lt p a hstuff
      apply h.finish hwork
      · exact h.roomy
      · refine (h.addresses.setWork ?_).kfree hlt
        rintro _ ⟨⟩
      · rfl
      · intro q hq
        have hne : ∀ b, w.stuff q = some b → b ≠ a := by
          rintro b hb rfl
          exact hq (h.addresses.stuff_inj q p b hb hstuff)
        refine ⟨rfl, rfl, rfl, fun b hb => Function.update_of_ne (hne b hb) _ _, fun b hb => ?_⟩
        simp [Kernel.kfree, (hne b hb).symm]
      · obtain ⟨result', b, hout, hb, hstage⟩ := (h.queued hwork).1
        obtain rfl : b = a := Option.some.inj (hb.symm.trans hstuff)
        cases hstage with
        | pending work _ _ => simp [hwork] at work
        | called work calls frees =>
            refine ⟨result', b, hout, hstuff, .done (Function.update_self ..) calls ?_⟩
            simp [Kernel.kfree, frees]
        | done work _ _ => simp [hwork] at work
  · cases hstep

theorem step_inv {e : AsyncEvent ι} (h : Inv w) (hstep : step w e = .ok w') : Inv w' := by
  cases e with
  | submit p r env => exact submit_inv h hstep
  | transfer p env c => exact transfer_inv h hstep
  | track p env => exact track_inv h hstep
  | schedule p => exact schedule_inv h hstep
  | ret p => exact ret_inv h hstep
  | kiComplete a => exact kiComplete_inv h hstep
  | free a => exact free_inv h hstep

/-- Of the steps only transfers can crash. -/
theorem step_fault {e : AsyncEvent ι} {f : Fault} (h : step w e = .error (.fault f)) :
    ∃ p env c r buf, e = .transfer p env c ∧ w.pc p = .allocated r buf ∧
      scullcBounce c env w.module w.heap (w.devs r.dev) r.pos r.iter = .error f := by
  cases e with
  | transfer p env c =>
      simp only [step] at h
      split at h
      · next r buf hpc =>
          refine ⟨p, env, c, r, buf, rfl, hpc, ?_⟩
          cases hrun : scullcBounce c env w.module w.heap (w.devs r.dev) r.pos r.iter with
          | ok t =>
              rw [hrun] at h
              cases h
          | error f' =>
              rw [hrun] at h
              cases h
              rfl
      · cases h
  | submit | track =>
      simp only [step] at h
      split at h
      · split at h <;> cases h
      · cases h
  | schedule | ret | kiComplete | free =>
      simp only [step] at h
      split at h <;> cases h

/-- A step crashes exactly when it is a transfer whose walk is not granted. -/
theorem returns_iff {e : AsyncEvent ι} (h : Inv w) : w.Returns e ↔ w.FollowGranted e := by
  constructor
  · rintro hreturns p env c r buf rfl hpc
    rw [← (h.roomy r.dev).bounce_returns_iff (c := c) r.pos_nonneg]
    cases hrun : scullcBounce c env w.module w.heap (w.devs r.dev) r.pos r.iter with
    | ok t => exact ⟨t, rfl⟩
    | error f =>
        exfalso
        apply hreturns f
        simp only [step, hpc, hrun]
        rfl
  · intro hgranted f hstep
    obtain ⟨p, env, c, r, buf, rfl, hpc, hrun⟩ := step_fault hstep
    have hwalk := hgranted p env c r buf rfl hpc
    rw [← (h.roomy r.dev).bounce_returns_iff (c := c) r.pos_nonneg] at hwalk
    obtain ⟨t, ht⟩ := hwalk
    rw [ht] at hrun
    cases hrun

/-- In every interleaving of any number of requests and work items, every request goes
on to return and is completed exactly once, exactly when the list items that
`scullc_follow` asks for are granted. -/
theorem completed_once_iff (s : Start) (es : List (AsyncEvent ι)) :
    (Runs.Always step ExactlyOnce (start s) es ∧ Runs.Along step Returns (start s) es) ↔
      Runs.Along step FollowGranted (start s) es := by
  have honce : Runs.Always step ExactlyOnce (start s : AsyncWorld ι) es :=
    Runs.always_of_inv (fun w hw => hw.exactlyOnce) (fun w e w' hw hstep => step_inv hw hstep)
      (start_inv s) es
  rw [and_iff_right honce]
  apply Runs.along_congr (I := Inv) ?_ ?_ (start_inv s)
  · intro w e hw
    exact returns_iff hw
  · intro w e w' hw _ hstep
    exact step_inv hw hstep

def Start.loaded : Start where
  module := .initial
  devs := fun _ => .initial
  heap := ⟨0, []⟩
  roomy _ := ⟨World.initial_good, by decide, (World.initial_steady (ι := ℕ)).regular, by decide⟩
  freed_lt := nofun

/-- A byte for the second list item of the first device. -/
def farWrite : AsyncRequest := ⟨0, .source [7], 2000000, by decide, by decide⟩

def onlyFirst : Env := ⟨false, fun n => n = 0, fun n => n⟩

/-- The buffer is granted and the list item is not: `scullc_follow` clears it through
a null pointer, and the request never returns. -/
theorem farWrite_crashes :
    ∃ w, Runs.exec step (start .loaded) [.submit 0 farWrite onlyFirst] = .ok w ∧
      step w (.transfer 0 onlyFirst IterCopy.checked) = .error (.fault .nullDereference) ∧
      ¬ (Runs.Always step ExactlyOnce (start .loaded)
          [.submit 0 farWrite onlyFirst, .transfer (0 : ℕ) onlyFirst IterCopy.checked] ∧
        Runs.Along step Returns (start .loaded)
          [.submit 0 farWrite onlyFirst, .transfer (0 : ℕ) onlyFirst IterCopy.checked]) := by
  refine ⟨_, rfl, rfl, fun hholds => ?_⟩
  have hlast := (hholds.2.2 _ rfl).1
  exact hlast .nullDereference rfl

/-- The steps of one request, taken without interruption, are `scullc_defer_op`. -/
theorem uninterrupted (w : AsyncWorld ι) (hpc : w.pc p = .out) {r : AsyncRequest} {c : IterCopy}
    {d : Scullc.Deferred}
    (hd : scullcDeferOp c env w.module w.heap (w.devs r.dev) r.iter r.pos false = .ok d) :
    ∃ es w', Runs.exec step w es = .ok w' ∧ w'.pc p = .returned d.ret ∧ w'.heap = d.heap ∧
      w'.devs = Function.update w.devs r.dev d.dev ∧
      ∀ result, d.queued = some result → ∃ a, w'.works a = some ⟨p, result, false⟩ := by
  unfold scullcDeferOp at hd
  split at hd
  · next heap halloc =>
      cases hd
      refine ⟨[.submit p r env], _, by simp only [Runs.exec_cons, step, hpc, halloc]; rfl, ?_⟩
      simp [goto]
  · next buf heap halloc =>
      simp only [bind_eq_ok, Bool.false_eq_true, if_false] at hd
      obtain ⟨t, ht, hd⟩ := hd
      have hmoved : Runs.exec step w [.submit p r env, .transfer p env c] =
          .ok { w.goto p (.moved t.ret) with
            devs := Function.update w.devs r.dev t.dev
            heap := kfree t.heap buf
            outcome := Function.update w.outcome p (some t.ret) } := by
        simp [Runs.exec_cons, step, hpc, halloc, goto, ht, crash]
      split at hd
      · next heap' halloc' =>
          cases hd
          refine ⟨[.submit p r env, .transfer p env c] ++ [.track p env], _,
            by rw [Runs.exec_append, hmoved]; simp [step, goto, halloc']; rfl, ?_⟩
          simp
      · next stuff heap' halloc' =>
          cases hd
          refine ⟨[.submit p r env, .transfer p env c] ++ [.track p env, .schedule p, .ret p], _,
            by rw [Runs.exec_append, hmoved]; simp [step, goto, halloc']; rfl, ?_⟩
          simp only [Function.update_self, Option.some.injEq, forall_eq', true_and]
          exact ⟨stuff, Function.update_self ..⟩

end AsyncWorld

end LddSamples.Scullc
