import Mathlib.Tactic

/-!
# Iterators that are stopped and started again

A reader with small buffers takes records from an iterator. When a buffer is full the
iterator is stopped, and the next read starts another one at the position that was saved.
Where position and iterator are kept in step, the records are those of one pass.
-/

namespace SeqIterator

variable {σ V P R : Type*}

/-- The four operations, on a state `σ`; `none` is an iterator that has ended. -/
structure Ops (σ V P R : Type*) where
  start : σ → P → Option V × P × σ
  next : σ → V → P → Option V × P × σ
  stop : σ → Option V → σ
  shown : σ → V → R

/-- The state, the saved position and all records so far; and whether the last iterator
had ended when it was stopped. -/
structure Session (σ P R : Type*) where
  state : σ
  pos : P
  output : List R
  ended : Bool

namespace Ops

variable (op : Ops σ V P R)

/-- A buffer with room for `k` records is filled: `shown` and `next` take turns until it is
full or the iterator has ended, and `stop` comes last. -/
def fill : ℕ → Option V → P → σ → Session σ P R
  | _, none, pos, s => ⟨op.stop s none, pos, [], true⟩
  | 0, some v, pos, s => ⟨op.stop s (some v), pos, [], false⟩
  | k + 1, some v, pos, s =>
      let (v', pos', s') := op.next s v pos
      let rest := fill k v' pos' s'
      { rest with output := op.shown s v :: rest.output }

def read (t : Session σ P R) (k : ℕ) : Session σ P R :=
  let (v, pos, s) := op.start t.state t.pos
  let filled := op.fill k v pos s
  { filled with output := t.output ++ filled.output }

/-- One read after the other, each with its own buffer. -/
def reads (sizes : List ℕ) (t : Session σ P R) : Session σ P R := sizes.foldl op.read t

end Ops

variable {succ : P → P} {Shows : P → R → Prop}

/-- These are the records from one position to another, with none left out. -/
def Trail (succ : P → P) (Shows : P → R → Prop) : P → List R → P → Prop
  | p, [], q => q = p
  | p, r :: records, q => Shows p r ∧ Trail succ Shows (succ p) records q

theorem trail_append {p q : P} {xs ys : List R} :
    Trail succ Shows p (xs ++ ys) q ↔
      ∃ m, Trail succ Shows p xs m ∧ Trail succ Shows m ys q := by
  induction xs generalizing p with
  | nil => simp [Trail]
  | cons x xs ih => simp [Trail, ih, and_assoc]

/-- Where the position says what the record is, a trail is determined by its length. -/
theorem trail_eq {f : P → R} {p q : P} {records : List R}
    (h : Trail succ (fun p r => r = f p) p records q) :
    records = (List.range records.length).map (fun i => f (succ^[i] p)) ∧
      q = succ^[records.length] p := by
  induction records generalizing p with
  | nil => exact ⟨rfl, h⟩
  | cons r records ih =>
      obtain ⟨rfl, hrest⟩ := h
      obtain ⟨hrecords, hq⟩ := ih hrest
      refine ⟨?_, hq⟩
      rw [List.length_cons, List.range_succ_eq_map, List.map_cons, List.map_map]
      exact congrArg _ hrecords

/-- Position and iterator are in step. Between two reads the state satisfies `I`, and while
an iterator is in use, `J`; `Ends` says what it means for the position that the iterator
has ended. -/
structure InStep (op : Ops σ V P R) (succ : P → P) (Shows : P → R → Prop)
    (I : σ → Prop) (J : σ → Option V → P → Prop) (Ends : P → Bool → Prop) : Prop where
  start : ∀ s p, I s → (op.start s p).2.1 = p ∧ J (op.start s p).2.2 (op.start s p).1 p
  next : ∀ s v p, J s (some v) p →
    (op.next s v p).2.1 = succ p ∧ J (op.next s v p).2.2 (op.next s v p).1 (succ p)
  shown : ∀ s v p, J s (some v) p → Shows p (op.shown s v)
  stop : ∀ s o p, J s o p → I (op.stop s o)
  ends : ∀ s o p, J s o p → Ends p o.isNone

variable {op : Ops σ V P R} {I : σ → Prop} {J : σ → Option V → P → Prop} {Ends : P → Bool → Prop}

/-- A buffer is filled, unless the iterator ends before. -/
theorem InStep.fill (h : InStep op succ Shows I J Ends) {s : σ} {o : Option V} {p : P}
    (hJ : J s o p) (k : ℕ) :
    I (op.fill k o p s).state ∧
      Trail succ Shows p (op.fill k o p s).output (op.fill k o p s).pos ∧
      Ends (op.fill k o p s).pos (op.fill k o p s).ended ∧
      (op.fill k o p s).output.length ≤ k ∧
      ((op.fill k o p s).ended = false → (op.fill k o p s).output.length = k) := by
  induction k generalizing s o p with
  | zero =>
      cases o with
      | none => exact ⟨h.stop s none p hJ, rfl, h.ends s none p hJ, le_rfl, fun _ => rfl⟩
      | some v => exact ⟨h.stop s (some v) p hJ, rfl, h.ends s (some v) p hJ, le_rfl, fun _ => rfl⟩
  | succ k ih =>
      cases o with
      | none =>
          exact ⟨h.stop s none p hJ, rfl, h.ends s none p hJ, Nat.zero_le _,
            fun hgoes => by cases hgoes⟩
      | some v =>
          obtain ⟨hpos, hnext⟩ := h.next s v p hJ
          obtain ⟨hI, htrail, hends, hle, hfull⟩ := ih hnext
          simp only [Ops.fill, hpos, List.length_cons]
          exact ⟨hI, ⟨h.shown s v p hJ, htrail⟩, hends, Nat.succ_le_succ hle,
            fun hgoes => congrArg Nat.succ (hfull hgoes)⟩

theorem InStep.read (h : InStep op succ Shows I J Ends) {t : Session σ P R} (hI : I t.state)
    (k : ℕ) :
    ∃ records, (op.read t k).output = t.output ++ records ∧
      Trail succ Shows t.pos records (op.read t k).pos ∧ I (op.read t k).state ∧
      Ends (op.read t k).pos (op.read t k).ended ∧ records.length ≤ k ∧
      ((op.read t k).ended = false → records.length = k) := by
  obtain ⟨hpos, hJ⟩ := h.start t.state t.pos hI
  obtain ⟨hstate, htrail, hends, hle, hfull⟩ := h.fill hJ k
  simp only [Ops.read, hpos]
  exact ⟨_, rfl, htrail, hstate, hends, hle, hfull⟩

/-- The restarts leave no trace: the records of all reads are those of one trail. -/
theorem InStep.reads (h : InStep op succ Shows I J Ends) {t : Session σ P R} (hI : I t.state)
    (sizes : List ℕ) :
    ∃ records, (op.reads sizes t).output = t.output ++ records ∧
      Trail succ Shows t.pos records (op.reads sizes t).pos ∧ I (op.reads sizes t).state := by
  induction sizes generalizing t with
  | nil => exact ⟨[], (List.append_nil _).symm, rfl, hI⟩
  | cons k sizes ih =>
      obtain ⟨records, houtput, htrail, hstate, -⟩ := h.read hI k
      obtain ⟨more, houtput', htrail', hstate'⟩ := ih hstate
      refine ⟨records ++ more, ?_, trail_append.mpr ⟨_, htrail, htrail'⟩, hstate'⟩
      rw [← List.append_assoc, ← houtput]
      exact houtput'

end SeqIterator
