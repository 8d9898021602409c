import Mathlib.Data.List.Chain
import LddSamples.Library.WhileLoop

/-!
# Lists that are threaded through their entries

Each entry has a node that points at the nodes before and behind it, and the node of the
head closes the ring. An edit rewrites a few pointers; that the others still make a ring
is because no other node points at what was rewritten. Nodes come and go with the memory
they stand in, and to follow a pointer to one that has gone is a fault.
-/

namespace ListHead

open Outcome WhileLoop

universe u

@[ext] structure Node (N : Type u) where
  next : N
  prev : N

/-- The nodes whose memory is there. -/
abbrev Store (N : Type u) := N → Option (Node N)

inductive Fault
  | dangling

section Operations

variable {N : Type u} [DecidableEq N]

def load (m : Store N) (a : N) : Except Fault (Node N) := ofOption .dangling (m a)

def setNext (m : Store N) (a b : N) : Except Fault (Store N) := do
  let node ← load m a
  .ok (Function.update m a (some { node with next := b }))

def setPrev (m : Store N) (a b : N) : Except Fault (Store N) := do
  let node ← load m a
  .ok (Function.update m a (some { node with prev := b }))

def init (m : Store N) (head : N) : Store N := Function.update m head (some ⟨head, head⟩)

/-- `new` is put right behind the head. -/
def add (m : Store N) (new head : N) : Except Fault (Store N) := do
  let first ← load m head
  let m ← setPrev m first.next new
  let m ← setNext m new first.next
  let m ← setPrev m new head
  setNext m head new

/-- The neighbours are joined, and the entry's own pointers are poisoned. -/
def del (poison : Node N) (m : Store N) (entry : N) : Except Fault (Store N) := do
  let node ← load m entry
  let m ← setPrev m node.next node.prev
  let m ← setNext m node.prev node.next
  let m ← setNext m entry poison.next
  setPrev m entry poison.prev

def empty (m : Store N) (head : N) : Except Fault Bool :=
  (load m head).map fun node => decide (node.next = head)

/-! ## Walks -/

structure Walk (N σ : Type u) where
  pos : N
  state : σ

/-- `list_for_each`: the pointer to the next entry is read behind the body. -/
def forEachRound {σ : Type u} (links : σ → Store N) (body : N → σ → Except Fault σ)
    (w : Walk N σ) : Except Fault (Walk N σ) := do
  let state ← body w.pos w.state
  let node ← load (links state) w.pos
  .ok ⟨node.next, state⟩

/-- From `s` the walk over the list comes back to the head in `t`. -/
def ForEach {σ : Type u} (links : σ → Store N) (body : N → σ → Except Fault σ) (head : N)
    (s t : σ) : Prop :=
  ∃ node, load (links s) head = .ok node ∧
    Ends (fun w => decide (w.pos ≠ head)) (forEachRound links body) ⟨node.next, s⟩ ⟨head, t⟩

structure SafeWalk (N σ : Type u) where
  pos : N
  tmp : N
  state : σ

/-- `list_for_each_safe`: the pointer to the next entry has been read before the body. -/
def forEachSafeRound {σ : Type u} (links : σ → Store N) (body : N → σ → Except Fault σ)
    (w : SafeWalk N σ) : Except Fault (SafeWalk N σ) := do
  let state ← body w.pos w.state
  let node ← load (links state) w.tmp
  .ok ⟨w.tmp, node.next, state⟩

def ForEachSafe {σ : Type u} (links : σ → Store N) (body : N → σ → Except Fault σ) (head : N)
    (s t : σ) : Prop :=
  ∃ first second tmp, load (links s) head = .ok first ∧ load (links s) first.next = .ok second ∧
    Ends (fun w => decide (w.pos ≠ head)) (forEachSafeRound links body)
      ⟨first.next, second.next, s⟩ ⟨head, tmp, t⟩

end Operations

/-! ## Rings -/

section Rings

variable {N : Type u} {m m' : Store N} {head a b e new : N} {xs ys : List N}

def nextOf (m : Store N) (a : N) : Option N := (m a).map Node.next

def prevOf (m : Store N) (a : N) : Option N := (m a).map Node.prev

def Live (m : Store N) (a : N) : Prop := (m a).isSome

/-- `b` is next to `a`, both ways. -/
structure Linked (m : Store N) (a b : N) : Prop where
  next : nextOf m a = some b
  prev : prevOf m b = some a

/-- From the head on, the entries of the list point at each other and back at the head. -/
structure Threads (m : Store N) (head : N) (xs : List N) : Prop where
  nodup : (head :: xs).Nodup
  linked : (head :: (xs ++ [head])).IsChain (Linked m)

theorem Linked.live (h : Linked m a b) : Live m a := by
  obtain ⟨node, hnode, -⟩ := Option.map_eq_some_iff.mp h.next
  simp [Live, hnode]

theorem Linked.live_prev (h : Linked m a b) : Live m b := by
  obtain ⟨node, hnode, -⟩ := Option.map_eq_some_iff.mp h.prev
  simp [Live, hnode]

theorem Linked.load_eq (h : Linked m a b) : ∃ node, load m a = .ok node ∧ node.next = b := by
  obtain ⟨node, hnode, hnext⟩ := Option.map_eq_some_iff.mp h.next
  exact ⟨node, by rw [load, hnode, ofOption_some], hnext⟩

theorem Linked.congr (h : Linked m a b) (ha : m' a = m a) (hb : m' b = m b) : Linked m' a b :=
  ⟨by rw [nextOf, ha, ← h.next, nextOf], by rw [prevOf, hb, ← h.prev, prevOf]⟩

theorem eq_of_pointers {c : N} (hnext : nextOf m' c = nextOf m c)
    (hprev : prevOf m' c = prevOf m c) : m' c = m c := by
  unfold nextOf at hnext
  unfold prevOf at hprev
  cases hm' : m' c with
  | none =>
      rw [hm'] at hnext
      exact (Option.map_eq_none_iff.mp hnext.symm).symm
  | some node' =>
      rw [hm'] at hnext hprev
      obtain ⟨node, hm, hn⟩ := Option.map_eq_some_iff.mp hnext.symm
      rw [hm] at hprev ⊢
      exact congrArg some (Node.ext hn.symm (Option.some.inj hprev))

namespace Threads

/-- A ring is made by its own nodes alone. -/
theorem congr (h : Threads m head xs) (hsame : ∀ c ∈ head :: xs, m' c = m c) :
    Threads m' head xs where
  nodup := h.nodup
  linked := by
    have hmem : ∀ c ∈ head :: (xs ++ [head]), c ∈ head :: xs := by
      simp only [List.mem_cons, List.mem_append]
      tauto
    exact h.linked.imp_of_mem_imp fun a b ha hb hab =>
      hab.congr (hsame a (hmem a ha)) (hsame b (hmem b hb))

/-- Any entry can be taken for the head. -/
theorem rotate (h : Threads m head (xs ++ a :: ys)) : Threads m a (ys ++ head :: xs) where
  nodup := by
    have hnodup := h.nodup
    have hperm : (a :: (ys ++ head :: xs)).Perm (head :: (xs ++ a :: ys)) := by
      rw [← List.cons_append, ← List.cons_append]
      exact List.perm_append_comm
    exact hperm.nodup_iff.mpr hnodup
  linked := by
    have hlinked := h.linked
    rw [List.append_assoc, List.cons_append, List.isChain_cons_split] at hlinked
    rw [List.append_assoc, List.cons_append, List.isChain_cons_split]
    exact hlinked.symm

/-- Between two neighbours, of which either may be the head. -/
theorem linked_of_split (h : Threads m head xs) (before behind : List N)
    (hsplit : head :: (xs ++ [head]) = before ++ a :: b :: behind) : Linked m a b := by
  have hlinked := h.linked
  rw [hsplit, List.isChain_append_cons_cons] at hlinked
  exact hlinked.2.1

theorem head_next (h : Threads m head xs) : Linked m head ((xs ++ [head]).head (by simp)) := by
  have hlinked := h.linked
  rw [← List.cons_head_tail (l := xs ++ [head]) (by simp), List.isChain_cons_cons] at hlinked
  exact hlinked.1

theorem entry_next (h : Threads m head (xs ++ a :: ys)) :
    Linked m a ((ys ++ [head]).head (by simp)) := by
  refine h.linked_of_split (head :: xs) (ys ++ [head]).tail ?_
  simp [List.cons_head_tail]

theorem entry_ne_head (h : Threads m head (xs ++ a :: ys)) : a ≠ head := by
  rintro rfl
  exact (List.nodup_cons.mp h.nodup).1 (List.mem_append_right _ List.mem_cons_self)

theorem entry_prev (h : Threads m head (xs ++ a :: ys)) :
    Linked m ((head :: xs).getLast (by simp)) a := by
  refine h.linked_of_split (head :: xs).dropLast (ys ++ [head]) ?_
  calc
    head :: (xs ++ a :: ys ++ [head]) = (head :: xs) ++ a :: (ys ++ [head]) := by simp
    _ = (head :: xs).dropLast ++ [(head :: xs).getLast (by simp)] ++ a :: (ys ++ [head]) := by
      rw [List.dropLast_append_getLast]
    _ = _ := List.append_assoc ..

theorem live (h : Threads m head xs) (ha : a ∈ head :: xs) : Live m a := by
  rcases List.mem_cons.mp ha with rfl | hmem
  · exact h.head_next.live
  · obtain ⟨before, behind, rfl⟩ := List.append_of_mem hmem
    exact h.entry_next.live

/-- The node of an entry names its neighbours. -/
theorem load_entry (h : Threads m head (xs ++ a :: ys)) : ∃ node, load m a = .ok node ∧
    Linked m node.prev a ∧ Linked m a node.next ∧ node.prev ∈ head :: xs ∧
    node.next ∈ ys ++ [head] := by
  have hprevious := h.entry_prev
  have hfollowing := h.entry_next
  obtain ⟨node, hload, hnode⟩ := hfollowing.load_eq
  have hback : node.prev = (head :: xs).getLast (by simp) := by
    have hprev := hprevious.prev
    rw [prevOf, (ofOption_eq_ok.mp hload : m a = some node)] at hprev
    exact Option.some.inj hprev
  refine ⟨node, hload, hback ▸ hprevious, hnode ▸ hfollowing, ?_, ?_⟩
  · rw [hback]
    exact List.getLast_mem _
  · rw [hnode]
    exact List.head_mem _

end Threads

end Rings

/-! ## Edits -/

section Edits

variable {N : Type u} [DecidableEq N] {m m' : Store N} {head a b e new : N} {xs ys : List N}

theorem setNext_ok (hlive : Live m a) (b : N) : ∃ m', setNext m a b = .ok m' ∧
    (∀ c, nextOf m' c = if c = a then some b else nextOf m c) ∧
    (∀ c, prevOf m' c = prevOf m c) ∧ ∀ c, Live m' c ↔ Live m c := by
  obtain ⟨node, hnode⟩ := Option.isSome_iff_exists.mp hlive
  refine ⟨_, by rw [setNext, load, hnode, ofOption_some, ok_bind], ?_, ?_, ?_⟩ <;>
    · intro c
      by_cases hc : c = a
      · simp [hc, nextOf, prevOf, Live, hnode]
      · simp [hc, nextOf, prevOf, Live]

theorem setPrev_ok (hlive : Live m a) (b : N) : ∃ m', setPrev m a b = .ok m' ∧
    (∀ c, nextOf m' c = nextOf m c) ∧
    (∀ c, prevOf m' c = if c = a then some b else prevOf m c) ∧ ∀ c, Live m' c ↔ Live m c := by
  obtain ⟨node, hnode⟩ := Option.isSome_iff_exists.mp hlive
  refine ⟨_, by rw [setPrev, load, hnode, ofOption_some, ok_bind], ?_, ?_, ?_⟩ <;>
    · intro c
      by_cases hc : c = a
      · simp [hc, nextOf, prevOf, Live, hnode]
      · simp [hc, nextOf, prevOf, Live]

theorem threads_init (m : Store N) (head : N) : Threads (init m head) head [] where
  nodup := by simp
  linked := by
    rw [List.nil_append, List.isChain_pair]
    exact ⟨by simp [nextOf, init], by simp [prevOf, init]⟩

theorem Threads.empty_eq (h : Threads m head xs) : empty m head = .ok (decide (xs = [])) := by
  obtain ⟨node, hload, hnode⟩ := h.head_next.load_eq
  rw [empty, hload, Except.map, hnode]
  cases xs with
  | nil => simp
  | cons a xs =>
      have h : Threads m head ([] ++ a :: xs) := h
      simp [h.entry_ne_head]

/-- A node between the head and the first entry. -/
theorem Threads.insert {first : N} (h : Threads m head xs) (hout : new ∉ head :: xs)
    (hfirst : first = (xs ++ [head]).head (by simp))
    (hnext : ∀ c, nextOf m' c =
      if c = head then some new else if c = new then some first else nextOf m c)
    (hprev : ∀ c, prevOf m' c =
      if c = new then some head else if c = first then some new else prevOf m c) :
    Threads m' head (new :: xs) where
  nodup := by
    refine (List.Perm.swap new head xs).nodup_iff.mpr ?_
    exact List.nodup_cons.mpr ⟨hout, h.nodup⟩
  linked := by
    obtain ⟨rest, hrest⟩ : ∃ rest, xs ++ [head] = first :: rest := by
      refine ⟨(xs ++ [head]).tail, ?_⟩
      rw [hfirst, List.cons_head_tail]
    have hnodup : (first :: rest).Nodup := by
      rw [← hrest]
      exact (List.perm_append_singleton head xs).nodup_iff.mpr h.nodup
    have hmem : ∀ c ∈ first :: rest, c ≠ new := by
      rintro c hc rfl
      rw [← hrest] at hc
      exact hout ((List.perm_append_singleton head xs).mem_iff.mp hc)
    have hhead : head ≠ new := fun heq => hout (heq ▸ List.mem_cons_self)
    have hlinked := h.linked
    rw [hrest, List.isChain_cons_cons] at hlinked
    rw [List.cons_append, hrest, List.isChain_cons_cons, List.isChain_cons_cons]
    refine ⟨⟨by simp [hnext], by simp [hprev]⟩, ⟨?_, ?_⟩, ?_⟩
    · rw [hnext, if_neg hhead.symm, if_pos rfl]
    · rw [hprev, if_neg (hmem first List.mem_cons_self), if_pos rfl]
    · -- only the head points at the first entry
      refine hlinked.2.imp_of_mem_tail_imp fun a b ha hb hab => ⟨?_, ?_⟩
      · have hne : a ≠ head := by
          rintro rfl
          obtain rfl := Option.some.inj (hab.next.symm.trans hlinked.1.next)
          exact (List.nodup_cons.mp hnodup).1 hb
        rw [hnext, if_neg hne, if_neg (hmem a ha), hab.next]
      · have hne : b ≠ first := by
          rintro rfl
          exact (List.nodup_cons.mp hnodup).1 hb
        rw [hprev, if_neg (hmem b (List.mem_cons_of_mem _ hb)), if_neg hne, hab.prev]

theorem add_ok (h : Threads m head xs) (hnew : Live m new) (hout : new ∉ head :: xs) :
    ∃ m', add m new head = .ok m' ∧ Threads m' head (new :: xs) ∧
      (∀ c, c ∉ head :: new :: xs → m' c = m c) ∧ ∀ c, Live m' c ↔ Live m c := by
  obtain ⟨node, hload, hnode⟩ := h.head_next.load_eq
  have hfirst : Live m node.next := by
    rw [hnode]
    exact h.head_next.live_prev
  have hmem : node.next ∈ head :: xs := by
    rw [hnode]
    exact (List.perm_append_singleton head xs).mem_iff.mp (List.head_mem _)
  obtain ⟨m₁, h₁, hnext₁, hprev₁, hlive₁⟩ := setPrev_ok hfirst new
  obtain ⟨m₂, h₂, hnext₂, hprev₂, hlive₂⟩ := setNext_ok ((hlive₁ new).mpr hnew) node.next
  obtain ⟨m₃, h₃, hnext₃, hprev₃, hlive₃⟩ :=
    setPrev_ok ((hlive₂ new).mpr ((hlive₁ new).mpr hnew)) head
  have hhead : Live m₃ head := by
    rw [hlive₃, hlive₂, hlive₁]
    exact h.live List.mem_cons_self
  obtain ⟨m₄, h₄, hnext₄, hprev₄, hlive₄⟩ := setNext_ok hhead new
  have hnext : ∀ c, nextOf m₄ c =
      if c = head then some new else if c = new then some node.next else nextOf m c := by
    intro c
    rw [hnext₄, hnext₃, hnext₂, hnext₁]
  have hprev : ∀ c, prevOf m₄ c =
      if c = new then some head else if c = node.next then some new else prevOf m c := by
    intro c
    rw [hprev₄, hprev₃, hprev₂, hprev₁]
  refine ⟨m₄, ?_, h.insert hout hnode hnext hprev, ?_, ?_⟩
  · simp only [add, hload, h₁, h₂, h₃, h₄, ok_bind]
  · intro c hc
    simp only [List.mem_cons, not_or] at hc hmem
    have hne : c ≠ node.next := by
      rintro rfl
      exact hmem.elim hc.1 hc.2.2
    apply eq_of_pointers
    · rw [hnext, if_neg hc.1, if_neg hc.2.1]
    · rw [hprev, if_neg hc.2.1, if_neg hne]
  · intro c
    rw [hlive₄, hlive₃, hlive₂, hlive₁]

/-- The neighbours of an entry are joined. -/
theorem Threads.remove {before behind : N} (h : Threads m head (xs ++ e :: ys))
    (hbefore : Linked m before e) (hbehind : Linked m e behind)
    (hnext : ∀ c, c ≠ e → nextOf m' c = if c = before then some behind else nextOf m c)
    (hprev : ∀ c, c ≠ e → prevOf m' c = if c = behind then some before else prevOf m c) :
    Threads m' head (xs ++ ys) where
  nodup := h.nodup.sublist (((List.sublist_cons_self e ys).append_left xs).cons_cons head)
  linked := by
    have hout : e ∉ head :: xs ++ ys := by
      have hnodup := h.nodup
      rw [← List.cons_append, List.nodup_middle] at hnodup
      exact (List.nodup_cons.mp hnodup).1
    obtain ⟨front, hfront⟩ : ∃ front, head :: xs = front ++ [before] := by
      refine ⟨(head :: xs).dropLast, ?_⟩
      rw [Option.some.inj (hbefore.prev.symm.trans h.entry_prev.prev), List.dropLast_append_getLast]
    obtain ⟨back, hback⟩ : ∃ back, ys ++ [head] = behind :: back := by
      refine ⟨(ys ++ [head]).tail, ?_⟩
      rw [Option.some.inj (hbehind.next.symm.trans h.entry_next.next), List.cons_head_tail]
    have hmem : ∀ c, c ∈ front ++ [before] ∨ c ∈ behind :: back → c ≠ e := by
      rintro c hc rfl
      rw [← hfront, ← hback] at hc
      apply hout
      simp only [List.mem_append, List.mem_cons, List.not_mem_nil, or_false] at hc ⊢
      tauto
    have hne : ∀ c ∈ [before, behind], c ≠ e := by
      intro c hc
      apply hmem
      simp only [List.mem_cons, List.not_mem_nil, or_false] at hc
      rcases hc with rfl | rfl <;> simp
    -- what pointed at the entry were its neighbours only
    have hkeep : ∀ a b, a ≠ e → b ≠ e → Linked m a b → Linked m' a b := by
      intro a b ha hb hab
      refine ⟨?_, ?_⟩
      · rw [hnext a ha, if_neg, hab.next]
        rintro rfl
        exact hb (Option.some.inj (hab.next.symm.trans hbefore.next))
      · rw [hprev b hb, if_neg, hab.prev]
        rintro rfl
        exact ha (Option.some.inj (hab.prev.symm.trans hbehind.prev))
    have hlinked := h.linked
    rw [List.append_assoc, List.cons_append, hback, ← List.cons_append, hfront, ← List.append_cons,
      List.isChain_append_cons_cons, List.isChain_cons_cons] at hlinked
    rw [List.append_assoc, hback, ← List.cons_append, hfront, ← List.append_cons,
      List.isChain_append_cons_cons]
    refine ⟨?_, ⟨?_, ?_⟩, ?_⟩
    · exact hlinked.1.imp_of_mem_imp fun a b ha hb =>
        hkeep a b (hmem a (.inl ha)) (hmem b (.inl hb))
    · rw [hnext before (hne before (by simp)), if_pos rfl]
    · rw [hprev behind (hne behind (by simp)), if_pos rfl]
    · exact hlinked.2.2.2.imp_of_mem_imp fun a b ha hb =>
        hkeep a b (hmem a (.inr ha)) (hmem b (.inr hb))

theorem del_ok (poison : Node N) (h : Threads m head (xs ++ e :: ys)) :
    ∃ m', del poison m e = .ok m' ∧ Threads m' head (xs ++ ys) ∧
      (∀ c, c ∉ head :: (xs ++ e :: ys) → m' c = m c) ∧ ∀ c, Live m' c ↔ Live m c := by
  obtain ⟨node, hload, hbefore, hbehind, hback, hfront⟩ := h.load_entry
  obtain ⟨m₁, h₁, hnext₁, hprev₁, hlive₁⟩ := setPrev_ok hbehind.live_prev node.prev
  obtain ⟨m₂, h₂, hnext₂, hprev₂, hlive₂⟩ := setNext_ok ((hlive₁ _).mpr hbefore.live) node.next
  have hentry : Live m₂ e := by
    rw [hlive₂, hlive₁]
    exact hbehind.live
  obtain ⟨m₃, h₃, hnext₃, hprev₃, hlive₃⟩ := setNext_ok hentry poison.next
  obtain ⟨m₄, h₄, hnext₄, hprev₄, hlive₄⟩ := setPrev_ok ((hlive₃ e).mpr hentry) poison.prev
  have hnext : ∀ c, c ≠ e →
      nextOf m₄ c = if c = node.prev then some node.next else nextOf m c := by
    intro c hc
    rw [hnext₄, hnext₃, if_neg hc, hnext₂, hnext₁]
  have hprev : ∀ c, c ≠ e →
      prevOf m₄ c = if c = node.next then some node.prev else prevOf m c := by
    intro c hc
    rw [hprev₄, if_neg hc, hprev₃, hprev₂, hprev₁]
  refine ⟨m₄, ?_, h.remove hbefore hbehind hnext hprev, ?_, ?_⟩
  · simp only [del, hload, h₁, h₂, h₃, h₄, ok_bind]
  · intro c hc
    have hmem : ∀ d, d ∈ head :: xs ∨ d ∈ ys ++ [head] → c ≠ d := by
      rintro d hd rfl
      simp only [List.mem_append, List.mem_cons, List.not_mem_nil, or_false] at hc hd
      tauto
    have hne : c ≠ e := by
      rintro rfl
      simp at hc
    apply eq_of_pointers
    · rw [hnext c hne, if_neg (hmem _ (.inl hback))]
    · rw [hprev c hne, if_neg (hmem _ (.inr hfront))]
  · intro c
    rw [hlive₄, hlive₃, hlive₂, hlive₁]

/-! ## Walks -/

variable {σ : Type u} {links : σ → Store N} {body : N → σ → Except Fault σ} {s : σ}

/-- A body that keeps its entry in the list. `I rest` is what holds of the state when
`rest` is still to come. -/
theorem forEach_ends {I : List N → σ → Prop}
    (hbody : ∀ a rest s, I (a :: rest) s → ∃ s', body a s = .ok s' ∧ I rest s' ∧
      ∃ seen, Threads (links s') head (seen ++ a :: rest))
    (hs : I xs s) (hstart : Threads (links s) head xs) :
    ∃ t, ForEach links body head s t ∧ I [] t := by
  suffices ∀ rest s, I rest s → ∃ t, Ends (fun w => decide (w.pos ≠ head))
      (forEachRound links body) ⟨(rest ++ [head]).head (by simp), s⟩ ⟨head, t⟩ ∧ I [] t by
    obtain ⟨node, hload, hnode⟩ := hstart.head_next.load_eq
    obtain ⟨t, hends, ht⟩ := this xs s hs
    exact ⟨t, ⟨node, hload, hnode ▸ hends⟩, ht⟩
  intro rest
  induction rest with
  | nil =>
      intro s hs
      exact ⟨s, (ends_of_exit (by simp)).mpr rfl, hs⟩
  | cons a rest ih =>
      intro s hs
      obtain ⟨s', hok, hs', seen, hthreads⟩ := hbody a rest s hs
      obtain ⟨node, hload, hnode⟩ := hthreads.entry_next.load_eq
      obtain ⟨t, hends, ht⟩ := ih s' hs'
      refine ⟨t, (ends_of_round ?_).mpr ⟨_, ?_, hends⟩, ht⟩
      · exact decide_eq_true hthreads.entry_ne_head
      · simp only [forEachRound, List.cons_append, List.head_cons, hok, ok_bind, hload, hnode]

/-- A body that may take its own entry out of the list: the next one stays. -/
theorem forEachSafe_ends {I : List N → σ → Prop}
    (hring : ∀ rest s, I rest s → ∃ seen, Threads (links s) head (seen ++ rest))
    (hbody : ∀ a rest s, I (a :: rest) s → ∃ s', body a s = .ok s' ∧ I rest s')
    (hs : I xs s) (hstart : Threads (links s) head xs) :
    ∃ t, ForEachSafe links body head s t ∧ I [] t := by
  have hnext : ∀ rest s, I rest s → ∃ node,
      load (links s) ((rest ++ [head]).head (by simp)) = .ok node ∧
      nextOf (links s) ((rest ++ [head]).head (by simp)) = some node.next := by
    intro rest s hs
    obtain ⟨seen, hthreads⟩ := hring rest s hs
    have hmem : (rest ++ [head]).head (by simp) ∈ head :: (seen ++ rest) := by
      have hhead := List.head_mem (l := rest ++ [head]) (by simp)
      simp only [List.mem_append, List.mem_cons, List.not_mem_nil, or_false] at hhead ⊢
      tauto
    obtain ⟨node, hnode⟩ := Option.isSome_iff_exists.mp (hthreads.live hmem)
    exact ⟨node, by rw [load, hnode, ofOption_some], by rw [nextOf, hnode, Option.map_some]⟩
  suffices ∀ rest s tmp, I rest s →
      nextOf (links s) ((rest ++ [head]).head (by simp)) = some tmp →
      ∃ tmp' t, Ends (fun w => decide (w.pos ≠ head)) (forEachSafeRound links body)
        ⟨(rest ++ [head]).head (by simp), tmp, s⟩ ⟨head, tmp', t⟩ ∧ I [] t by
    obtain ⟨first, hfirst, hpos⟩ := hstart.head_next.load_eq
    obtain ⟨second, hsecond, htmp⟩ := hnext xs s hs
    obtain ⟨tmp', t, hends, ht⟩ := this xs s second.next hs htmp
    rw [← hpos] at hends hsecond
    exact ⟨t, ⟨first, second, tmp', hfirst, hsecond, hends⟩, ht⟩
  intro rest
  induction rest with
  | nil =>
      intro s tmp hs _
      exact ⟨tmp, s, (ends_of_exit (by simp)).mpr rfl, hs⟩
  | cons a rest ih =>
      intro s tmp hs htmp
      obtain ⟨seen, hthreads⟩ := hring (a :: rest) s hs
      obtain rfl := Option.some.inj (htmp.symm.trans hthreads.entry_next.next)
      obtain ⟨s', hok, hs'⟩ := hbody a rest s hs
      obtain ⟨node, hload, htmp'⟩ := hnext rest s' hs'
      obtain ⟨tmp', t, hends, ht⟩ := ih s' node.next hs' htmp'
      refine ⟨tmp', t, (ends_of_round ?_).mpr ⟨_, ?_, hends⟩, ht⟩
      · exact decide_eq_true hthreads.entry_ne_head
      · simp only [forEachSafeRound, List.cons_append, List.head_cons, hok, ok_bind, hload]

end Edits

end ListHead
