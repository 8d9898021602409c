import LddSamples.Library.Runs

/-!
# memory_lab2_cache and lab1_cache: an object of a cache for every open

An open allocates an object and stores its address in one global pointer, `membuff` or
`ramdisk`; reads and writes transfer from and to the object behind the pointer, and a
release frees it. Objects are named by the order of their allocation.
-/

namespace LddSamples.Memory.Cache

/-- `transfers` are the calls of read and write that have passed their check, by file, with
the pointer they have taken. `freed` are the objects handed to `kmem_cache_free`, in order,
and `stale` those that a transfer has touched after that. -/
structure State where
  membuff : Option ℕ
  objects : ℕ
  files : List ℕ
  transfers : List (ℕ × Option ℕ)
  freed : List ℕ
  stale : List ℕ

/-- `granted` is whether `kmem_cache_alloc` succeeds. A call of read or write that its
check refuses is no step. -/
inductive Event
  | openFile (f : ℕ) (granted : Bool)
  | release (f : ℕ)
  | transfer (f : ℕ)
  | touch (f : ℕ) (p : Option ℕ)

namespace State

def initial : State := ⟨none, 0, [], [], [], []⟩

/-- The object of an open, and the file that it returns. -/
def opened (s : State) (f : ℕ) : State :=
  { s with membuff := some s.objects, objects := s.objects + 1, files := f :: s.files }

/-- A file is released once, after the calls on it have returned. An open that fails has
stored the null pointer. -/
def step (s : State) : Event → Except Unit State
  | .openFile f granted =>
      if f ∈ s.files then .error ()
      else if granted then .ok (s.opened f)
      else .ok { s with membuff := none }
  | .release f =>
      if f ∈ s.files ∧ ∀ t ∈ s.transfers, t.1 ≠ f then .ok { s with
        files := s.files.erase f
        freed := s.freed ++ s.membuff.toList }
      else .error ()
  | .transfer f =>
      if f ∈ s.files then .ok { s with transfers := (f, s.membuff) :: s.transfers }
      else .error ()
  | .touch f p =>
      if (f, p) ∈ s.transfers then .ok { s with
        transfers := s.transfers.erase (f, p)
        stale := s.stale ++ p.toList.filter (· ∈ s.freed) }
      else .error ()

/-- No object is freed twice or touched after it has been freed, and once all files are
closed all objects have been freed. -/
structure Clean (s : State) : Prop where
  once : s.freed.Nodup
  untouched : s.stale = []
  complete : s.files = [] → ∀ a < s.objects, a ∈ s.freed

/-- No file is open when another one is opened. -/
def Alone (s : State) : Event → Prop
  | .openFile f _ => f ∉ s.files → s.files = []
  | _ => True

/-- One file at most is open, and the global pointer is to its object. -/
structure Inv (s : State) : Prop where
  clean : Clean s
  allocated : ∀ a ∈ s.freed, a < s.objects
  owned : ∀ f ∈ s.files, s.files = [f] ∧ ∃ a < s.objects, s.membuff = some a ∧ a ∉ s.freed ∧
    ∀ b < s.objects, b ≠ a → b ∈ s.freed
  taken : ∀ t ∈ s.transfers, t.1 ∈ s.files ∧ t.2 = s.membuff

theorem initial_inv : Inv initial where
  clean := ⟨List.nodup_nil, rfl, fun _ _ h => absurd h (Nat.not_lt_zero _)⟩
  allocated _ := nofun
  owned _ := nofun
  taken _ := nofun

variable {s s' : State} {e : Event}

theorem open_inv {f : ℕ} {granted : Bool} (hi : Inv s) (hC : Alone s (.openFile f granted))
    (h : step s (.openFile f granted) = .ok s') : Inv s' := by
  simp only [step] at h
  split at h
  case isTrue => cases h
  case isFalse hnew =>
    have hnone : s.files = [] := hC hnew
    have hidle : ∀ t ∈ s.transfers, False := fun t ht => by
      have htaken := (hi.taken t ht).1
      rw [hnone] at htaken
      cases htaken
    have hfreed := hi.clean.complete hnone
    cases granted with
    | true =>
        cases h
        refine ⟨⟨hi.clean.once, hi.clean.untouched,
            fun hempty => absurd hempty (List.cons_ne_nil _ _)⟩,
          fun a ha => Nat.lt_succ_of_lt (hi.allocated a ha), fun g hg => ?_,
          fun t ht => (hidle t ht).elim⟩
        simp only [opened, hnone, List.mem_singleton] at hg ⊢
        refine ⟨by rw [hg], s.objects, Nat.lt_succ_self _, rfl,
          fun hmem => lt_irrefl _ (hi.allocated _ hmem), fun b hb hne => ?_⟩
        exact hfreed b (lt_of_le_of_ne (Nat.le_of_lt_succ hb) hne)
    | false =>
        cases h
        refine ⟨⟨hi.clean.once, hi.clean.untouched, hi.clean.complete⟩, hi.allocated,
          fun g hg => ?_, fun t ht => (hidle t ht).elim⟩
        simp only [hnone] at hg
        cases hg

theorem release_inv {f : ℕ} (hi : Inv s) (h : step s (.release f) = .ok s') : Inv s' := by
  simp only [step] at h
  split at h
  case isFalse => cases h
  case isTrue hok =>
    cases h
    obtain ⟨hf, hidle⟩ := hok
    obtain ⟨hfiles, a, ha, hmembuff, hlive, hothers⟩ := hi.owned f hf
    have hempty : s.files.erase f = [] := by rw [hfiles, List.erase_cons_head]
    refine ⟨⟨?_, hi.clean.untouched, fun _ b hb => ?_⟩, fun b hb => ?_, fun g hg => ?_,
      fun t ht => ?_⟩
    · rw [hmembuff, Option.toList_some, ← List.concat_eq_append, List.nodup_concat]
      exact ⟨hlive, hi.clean.once⟩
    · rw [hmembuff]
      by_cases heq : b = a
      · exact List.mem_append_right _ (by simp [heq])
      · exact List.mem_append_left _ (hothers b hb heq)
    · rw [hmembuff] at hb
      rcases List.mem_append.mp hb with hold | hnew
      · exact hi.allocated b hold
      · rwa [List.mem_singleton.mp hnew]
    · rw [hempty] at hg
      cases hg
    · have htaken := (hi.taken t ht).1
      rw [hfiles] at htaken
      exact absurd (List.mem_singleton.mp htaken) (hidle t ht)

theorem transfer_inv {f : ℕ} (hi : Inv s) (h : step s (.transfer f) = .ok s') : Inv s' := by
  simp only [step] at h
  split at h
  case isFalse => cases h
  case isTrue hf =>
    cases h
    refine ⟨⟨hi.clean.once, hi.clean.untouched, hi.clean.complete⟩, hi.allocated, hi.owned,
      fun t ht => ?_⟩
    rcases List.mem_cons.mp ht with rfl | hold
    · exact ⟨hf, rfl⟩
    · exact hi.taken t hold

theorem touch_inv {f : ℕ} {p : Option ℕ} (hi : Inv s) (h : step s (.touch f p) = .ok s') :
    Inv s' := by
  simp only [step] at h
  split at h
  case isFalse => cases h
  case isTrue hmem =>
    cases h
    obtain ⟨hf, hp⟩ := hi.taken _ hmem
    obtain ⟨-, a, -, hmembuff, hlive, -⟩ := hi.owned _ hf
    have hp : p = some a := hp.trans hmembuff
    have hlive : p.toList.filter (· ∈ s.freed) = [] := by simp [hp, hlive]
    refine ⟨⟨hi.clean.once, ?_, hi.clean.complete⟩, hi.allocated, hi.owned,
      fun t ht => hi.taken t (List.mem_of_mem_erase ht)⟩
    rw [hlive, List.append_nil]
    exact hi.clean.untouched

theorem step_inv (hi : Inv s) (hC : Alone s e) (h : step s e = .ok s') : Inv s' := by
  cases e with
  | openFile f granted => exact open_inv hi hC h
  | release f => exact release_inv hi h
  | transfer f => exact transfer_inv hi h
  | touch f p => exact touch_inv hi h

/-- While a file is open, another one can be opened and released and leave the first one
with a freed object. -/
theorem goes_wrong {g : ℕ} (hg : g ∈ s.files) : ∃ es, ¬ Runs.Always step Clean s es := by
  obtain ⟨f, hf⟩ := Infinite.exists_notMem_finset (s.files ++ s.transfers.map Prod.fst).toFinset
  simp only [List.mem_toFinset, List.mem_append, List.mem_map, not_or, not_exists, not_and] at hf
  obtain ⟨hclosed, hidle⟩ := hf
  have hopen : step s (.openFile f true) = .ok (s.opened f) := by simp [step, hclosed]
  have hguard : f ∈ (s.opened f).files ∧ ∀ t ∈ (s.opened f).transfers, t.1 ≠ f :=
    ⟨List.mem_cons_self, fun t ht => hidle t ht⟩
  have hrelease : step (s.opened f) (.release f) =
      .ok { s.opened f with files := s.files, freed := s.freed ++ [s.objects] } := by
    rw [step, if_pos hguard]
    simp only [opened, List.erase_cons_head, Option.toList_some]
  have hrun : Runs.exec step s
      [.openFile f true, .release f, .transfer g, .touch g (some s.objects)] =
        .ok { s.opened f with
          files := s.files
          freed := s.freed ++ [s.objects]
          stale := s.stale ++ [s.objects] } := by
    rw [Runs.exec_cons, hopen, Outcome.ok_bind, Runs.exec_cons, hrelease, Outcome.ok_bind]
    simp [step, hg, opened]
  refine ⟨_, Runs.not_always_of_exec hrun fun hclean => ?_⟩
  exact List.append_ne_nil_of_right_ne_nil _ (List.cons_ne_nil _ _) hclean.untouched

theorem careless (hC : ¬ Alone s e) : ∃ es, ¬ Runs.Always step Clean s (e :: es) := by
  cases e with
  | openFile f granted =>
      simp only [Alone, not_forall] at hC
      obtain ⟨hnew, hfiles⟩ := hC
      obtain ⟨g, hg⟩ := List.exists_mem_of_ne_nil s.files hfiles
      cases granted with
      | true =>
          have hstep : step s (.openFile f true) = .ok (s.opened f) := by simp [step, hnew]
          obtain ⟨es, hes⟩ := goes_wrong (s := s.opened f) (List.mem_cons_of_mem _ hg)
          exact ⟨es, fun halways => hes (halways.2 _ hstep)⟩
      | false =>
          have hstep : step s (.openFile f false) = .ok { s with membuff := none } := by
            simp [step, hnew]
          obtain ⟨es, hes⟩ := goes_wrong (g := g) (s := { s with membuff := none }) hg
          exact ⟨es, fun halways => hes (halways.2 _ hstep)⟩
  | _ => exact absurd trivial hC

/-- Where every open finds no file open, every object is freed once and touched only before;
and a run in which one does not breaks at the first such open. -/
theorem clean_of_alone (es : List Event) :
    (Runs.Along step Alone initial es → Runs.Always step Clean initial es) ∧
      (¬ Runs.Along step Alone initial es → Runs.Breaks step Alone Clean initial es) :=
  Runs.always_or_breaks (I := Inv) (fun _ hi => hi.clean) (fun _ _ _ hi hC h => step_inv hi hC h)
    (fun _ _ _ hC => careless hC) es initial_inv

/-- Two files that are open at once: object 1 is freed twice and object 0 never; or the
second file is released, and the first one reads from what it has freed. -/
theorem two_files :
    (∃ s, Runs.exec step initial [.openFile 0 true, .openFile 1 true, .release 0, .release 1] =
        .ok s ∧ s.files = [] ∧ s.objects = 2 ∧ s.freed = [1, 1] ∧ ¬ Clean s) ∧
    ∃ s, Runs.exec step initial [.openFile 0 true, .openFile 1 true, .release 1, .transfer 0,
        .touch 0 (some 1)] = .ok s ∧ s.files = [0] ∧ s.stale = [1] ∧ ¬ Clean s := by
  refine ⟨⟨_, rfl, rfl, rfl, rfl, fun hclean => ?_⟩, ⟨_, rfl, rfl, rfl, fun hclean => ?_⟩⟩
  · exact absurd hclean.once (by decide)
  · cases hclean.untouched

end State

end LddSamples.Memory.Cache
