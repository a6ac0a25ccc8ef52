/-
The rows that a statement returns. Its clauses act on the rows of the `FROM` list in the order WHERE,
GROUP BY, select list, DISTINCT, ORDER BY, OFFSET, LIMIT. What the texts of the clauses mean is left
open: a `Reading` gives their meaning over rows of any type.
-/
import RelSql.Proofs.Statement.Items
import Mathlib.Tactic

namespace RelSql

open List

/-! ## Lists of rows -/

section

variable {α β : Type} [DecidableEq β]

/-- The first item for each value of `f`, in order. -/
def distinctOn (f : α → β) : List α → List α
  | [] => []
  | a :: rest => a :: (distinctOn f rest).filter fun b => f b ≠ f a

theorem mem_of_mem_distinctOn {f : α → β} {l : List α} {a : α} (h : a ∈ distinctOn f l) : a ∈ l := by
  induction l with
  | nil => cases h
  | cons b l ih =>
    rcases mem_cons.1 h with rfl | h
    · exact mem_cons_self
    · exact mem_cons_of_mem _ (ih (mem_of_mem_filter h))

theorem filter_distinctOn {f : α → β} {p : α → Bool} (hp : ∀ a b, f a = f b → p a = p b) (l : List α) :
    (distinctOn f l).filter p = distinctOn f (l.filter p) := by
  induction l with
  | nil => rfl
  | cons a l ih =>
    rw [distinctOn, filter_cons, filter_cons]
    split
    · rw [distinctOn, ← ih, filter_filter, filter_filter]
      simp only [Bool.and_comm]
    · rename_i ha
      rw [← ih, filter_filter]
      -- what has the value of `a` fails the test like `a`
      refine filter_congr fun b _ => ?_
      by_cases hb : f b = f a
      · have hpa : p a = false := by simpa using ha
        rw [hp b a hb, hpa]; rfl
      · simp [hb]

theorem distinctOn_map {γ : Type} (f : α → β) (g : γ → α) (l : List γ) :
    distinctOn f (l.map g) = (distinctOn (f ∘ g) l).map g := by
  induction l with
  | nil => rfl
  | cons a l ih =>
    rw [map_cons, distinctOn, distinctOn, ih, map_cons, filter_map]
    rfl

theorem distinctOn_congr {γ : Type} [DecidableEq γ] {f : α → β} {g : α → γ} (h : ∀ a b, f a = f b ↔ g a = g b)
    (l : List α) : distinctOn f l = distinctOn g l := by
  induction l with
  | nil => rfl
  | cons a l ih => rw [distinctOn, distinctOn, ih]; simp only [ne_eq, h]

theorem distinctOn_eq_self {f : α → β} {l : List α} (h : (l.map f).Nodup) : distinctOn f l = l := by
  induction l with
  | nil => rfl
  | cons a l ih =>
    rw [map_cons, nodup_cons] at h
    rw [distinctOn, ih h.2, filter_eq_self.2]
    intro b hb
    simpa using fun hba : f b = f a => h.1 (hba ▸ mem_map_of_mem hb)

theorem distinctOn_distinctOn {γ : Type} [DecidableEq γ] {f : α → β} {g : α → γ} (h : ∀ a b, g a = g b → f a = f b)
    (l : List α) : distinctOn f (distinctOn g l) = distinctOn f l := by
  induction l with
  | nil => rfl
  | cons a l ih =>
    have hp : ∀ b c, f b = f c → decide (f b ≠ f a) = decide (f c ≠ f a) := fun b c hbc => by rw [hbc]
    -- What `f` tells apart from `a`, `g` does too, so the finer pass has dropped nothing of it.
    have hfiner : ∀ b, (decide (f b ≠ f a) && decide (g b ≠ g a)) = decide (f b ≠ f a) := by
      intro b
      by_cases hb : g b = g a
      · simp [h b a hb]
      · simp [hb]
    rw [distinctOn, distinctOn, distinctOn, ← ih, filter_distinctOn hp, filter_filter, filter_distinctOn hp]
    simp only [hfiner]

theorem distinctOn_append (f : α → β) (l l' : List α) :
    distinctOn f (l ++ l') = distinctOn f l ++ (distinctOn f l').filter fun b => ∀ a ∈ l, f b ≠ f a := by
  induction l with
  | nil => simp [distinctOn]
  | cons a l ih =>
    rw [cons_append, distinctOn, distinctOn, ih, filter_append, filter_filter, cons_append]
    simp

theorem distinctOn_of_forall_eq {f : α → β} {a : α} {l : List α} (h : ∀ b ∈ l, f b = f a) :
    distinctOn f (a :: l) = [a] := by
  rw [distinctOn, filter_eq_nil_iff.2]
  intro b hb
  simp [h b (mem_of_mem_distinctOn hb)]

theorem nodup_map_distinctOn (f : α → β) (l : List α) : ((distinctOn f l).map f).Nodup := by
  induction l with
  | nil => exact nodup_nil
  | cons a l ih =>
    rw [distinctOn, map_cons, nodup_cons]
    refine ⟨fun h => ?_, ih.sublist (filter_sublist.map f)⟩
    obtain ⟨b, hb, hba⟩ := mem_map.1 h
    simpa [hba] using (mem_filter.1 hb).2

/-- The rows with equal values of `f`, group by group in the order of their first rows. -/
def groupsOn (f : α → β) (l : List α) : List (List α) :=
  (distinctOn f l).map fun a => l.filter fun b => f b = f a

end

section

variable {α : Type} {r : α → α → Prop} [DecidableRel r] [IsTrans α r]

theorem filter_orderedInsert {p : α → Bool} (a : α) {l : List α} (hl : l.Pairwise r) :
    (l.orderedInsert r a).filter p = if p a then (l.filter p).orderedInsert r a else l.filter p := by
  induction l with
  | nil => cases hp : p a <;> simp [hp]
  | cons b l ih =>
    have ih := ih hl.of_cons
    rw [orderedInsert_cons]
    split
    · rename_i hab
      rw [filter_cons]
      split
      · -- all that is left comes behind `a`, as `b` does
        rw [orderedInsert_eq_take_drop]
        have hall : ∀ c ∈ (b :: l).filter p, r a c := by
          intro c hc
          rcases mem_cons.1 (mem_of_mem_filter hc) with rfl | hc
          · exact hab
          · exact trans_of r hab (rel_of_pairwise_cons hl hc)
        cases hf : (b :: l).filter p with
        | nil => rfl
        | cons c rest => simp [hall c (by rw [hf]; exact mem_cons_self)]
      · rfl
    · rename_i hab
      rw [filter_cons, ih, filter_cons]
      cases hb : p b <;> cases ha : p a <;> simp [hab]

/-- Sorting keeps the order of rows that are taken out. -/
theorem filter_insertionSort [Std.Total r] (p : α → Bool) (l : List α) :
    (l.insertionSort r).filter p = (l.filter p).insertionSort r := by
  induction l with
  | nil => rfl
  | cons a l ih =>
    rw [insertionSort_cons, filter_orderedInsert a (pairwise_insertionSort r l), ih, filter_cons]
    split <;> rfl

end

/-! ## The meaning of clauses -/

/-- What the texts of clauses mean over rows: whether a condition is true of a row, the value of an
expression, which functions are aggregates and what they make of the values of their argument (with
`DISTINCT` or without), which of two rows an `ORDER BY` clause puts first, and row counts. -/
structure Reading (Row Value : Type) where
  holds : List Part → Row → Bool
  value : List Part → Row → Value
  null : Value
  aggregate? : String → Option (Bool → List Value → Value)
  precedes : List Part → Row → Row → Bool
  precedes_total : ∀ ps a b, precedes ps a b = true ∨ precedes ps b a = true
  precedes_trans : ∀ ps a b c, precedes ps a b = true → precedes ps b c = true → precedes ps a c = true
  count : List Part → Nat

/-- A row of a result: a row of the `FROM` list with all its columns, or the fields of a select
list. -/
inductive Output (Row Value : Type) where
  | whole (row : Row)
  | record (fields : List (Option Part × Value))

namespace Output

variable {Row Value : Type}

/-- What `DISTINCT` compares. -/
def content : Output Row Value → Row ⊕ List Value
  | whole row => .inl row
  | record fields => .inr (fields.map Prod.snd)

def row? : Output Row Value → Option Row
  | whole row => some row
  | record _ => none

/-- A whole row that satisfies the condition. -/
def satisfies (p : Row → Bool) (o : Output Row Value) : Bool := o.row?.any p

end Output

namespace Statement

variable {α β : Type}

/-- `DISTINCT`, by a value of each item. -/
def distinctBy [DecidableEq β] (s : Statement) (f : α → β) (l : List α) : List α :=
  if s.distinct then distinctOn f l else l

/-- `ORDER BY`, by the order that the clause means. -/
def sortedBy (s : Statement) (precedes : List Part → α → α → Bool) (l : List α) : List α :=
  if s.ordering.isEmpty then l else l.insertionSort fun a b => precedes s.ordering a b = true

end Statement

/-- The function, the `DISTINCT` mark and the argument of a call with one argument. -/
def callOf? : List Part → Option (String × Bool × Part)
  | [.group [.text f, .text "(", p, .text ")"]] => some (f, false, p)
  | [.group [.text f, .text "(", .text "DISTINCT ", p, .text ")"]] => some (f, true, p)
  | _ => none

namespace Reading

variable {Row Value : Type} (R : Reading Row Value)

/-- The call of an aggregate function, as a function of the rows of a group. -/
def aggregation? (expr : List Part) : Option (List Row → Value) := do
  let (f, distinct, p) ← callOf? expr
  let fold ← R.aggregate? f
  return fun rows => fold distinct (rows.map (R.value [p]))

/-- The value of an item over a group of rows. What is no aggregate has its value at the first row. -/
def cell (expr : List Part) (group : List Row) : Value :=
  match R.aggregation? expr with
  | some aggregate => aggregate group
  | none => (group.head?.map (R.value expr)).getD R.null

/-- The rows that the `WHERE` clause keeps. -/
def kept (s : Statement) (rows : List Row) : List Row :=
  if s.condition.isEmpty then rows else rows.filter (R.holds s.condition)

/-- The values of the keys of a `GROUP BY` clause. -/
def keys (grouping : List Part) (row : Row) : List Value :=
  (SelectItem.read grouping).map fun key => R.value key.expr row

variable [DecidableEq Value]

/-- The groups that become one row each. Without keys, aggregates make one group of all rows. -/
def groups (s : Statement) (rows : List Row) : List (List Row) :=
  if s.grouping.isEmpty then
    if (SelectItem.read s.selectList).any fun item => (R.aggregation? item.expr).isSome then [rows]
    else rows.map fun row => [row]
  else groupsOn (R.keys s.grouping) rows

/-- The fields of a select list over a group. -/
def fields (selectList : List Part) (group : List Row) : List (Option Part × Value) :=
  (SelectItem.read selectList).map fun item => (item.name, R.cell item.expr group)

/-- The select list, each row of the result with the rows that it comes from. Without one all columns
are returned. -/
def selected (s : Statement) (rows : List Row) : List (List Row × Output Row Value) :=
  if s.selectList.isEmpty then rows.map fun row => ([row], .whole row)
  else (R.groups s rows).map fun group => (group, .record (R.fields s.selectList group))

/-- The order of two rows of a result is that of the rows they come from. -/
def orders (ordering : List Part) (a b : List Row × Output Row Value) : Bool :=
  match a.1.head?, b.1.head? with
  | some x, some y => R.precedes ordering x y
  | none, _ => true
  | some _, none => false

/-- `OFFSET`. -/
def skipped {α : Type} (s : Statement) (results : List α) : List α :=
  match s.skip with
  | some n => results.drop (R.count n)
  | none => results

/-- `LIMIT`. -/
def limited {α : Type} (s : Statement) (results : List α) : List α :=
  match s.top with
  | some n => results.take (R.count n)
  | none => results

/-- The rows that a statement returns over the rows of its `FROM` list. -/
def rows [DecidableEq Row] (s : Statement) (source : List Row) : List (Output Row Value) :=
  (R.limited s (R.skipped s (s.sortedBy R.orders (s.distinctBy (fun r => r.2.content)
    (R.selected s (R.kept s source)))))).map Prod.snd

end Reading

/-! ## Statements that return all columns -/

namespace Statement

variable {α β γ : Type}

theorem distinctBy_map [DecidableEq β] (s : Statement) (f : α → β) (g : γ → α) (l : List γ) :
    s.distinctBy f (l.map g) = (s.distinctBy (f ∘ g) l).map g := by
  unfold distinctBy
  split
  · exact distinctOn_map f g l
  · rfl

theorem distinctBy_congr [DecidableEq β] [DecidableEq γ] (s : Statement) {f : α → β} {g : α → γ}
    (h : ∀ a b, f a = f b ↔ g a = g b) (l : List α) : s.distinctBy f l = s.distinctBy g l := by
  unfold distinctBy; rw [distinctOn_congr h]

theorem filter_distinctBy [DecidableEq β] (s : Statement) {f : α → β} {p : α → Bool}
    (hp : ∀ a b, f a = f b → p a = p b) (l : List α) : (s.distinctBy f l).filter p = s.distinctBy f (l.filter p) := by
  unfold distinctBy
  split
  · exact filter_distinctOn hp l
  · rfl

theorem sortedBy_nil {s : Statement} (h : s.ordering = []) (precedes : List Part → α → α → Bool) (l : List α) :
    s.sortedBy precedes l = l := by
  unfold sortedBy; rw [h]; rfl

theorem sortedBy_map (s : Statement) (precedes : List Part → α → α → Bool) (g : γ → α) (l : List γ) :
    s.sortedBy precedes (l.map g) = (s.sortedBy (fun ps a b => precedes ps (g a) (g b)) l).map g := by
  unfold sortedBy
  split
  · rfl
  · exact (map_insertionSort _ _ g l fun _ _ _ _ => Iff.rfl).symm

theorem filter_sortedBy (s : Statement) {precedes : List Part → α → α → Bool}
    (htotal : ∀ ps a b, precedes ps a b = true ∨ precedes ps b a = true)
    (htrans : ∀ ps a b c, precedes ps a b = true → precedes ps b c = true → precedes ps a c = true)
    (p : α → Bool) (l : List α) : (s.sortedBy precedes l).filter p = s.sortedBy precedes (l.filter p) := by
  have : IsTrans α fun a b => precedes s.ordering a b = true := ⟨htrans s.ordering⟩
  have : Std.Total fun a b => precedes s.ordering a b = true := ⟨htotal s.ordering⟩
  unfold sortedBy
  split
  · rfl
  · exact filter_insertionSort p l

/-- The statements have the same clauses behind the `FROM` list. -/
structure SameClauses (s t : Statement) : Prop where
  distinct : t.distinct = s.distinct
  selectList : t.selectList = s.selectList
  condition : t.condition = s.condition
  grouping : t.grouping = s.grouping
  ordering : t.ordering = s.ordering
  top : t.top = s.top
  skip : t.skip = s.skip

theorem SameClauses.trans {s t u : Statement} (h : s.SameClauses t) (h' : t.SameClauses u) : s.SameClauses u :=
  ⟨h'.distinct.trans h.distinct, h'.selectList.trans h.selectList, h'.condition.trans h.condition,
    h'.grouping.trans h.grouping, h'.ordering.trans h.ordering, h'.top.trans h.top, h'.skip.trans h.skip⟩

theorem SameText.sameClauses {s t : Statement} (h : s.SameText t) : s.SameClauses t := by
  unfold SameText at h
  rw [h]
  exact ⟨rfl, rfl, rfl, rfl, rfl, rfl, rfl⟩

end Statement

namespace Reading

section

variable {Row Value : Type} (R : Reading Row Value)

theorem limited_map {α β : Type} (s : Statement) (f : α → β) (l : List α) :
    R.limited s (l.map f) = (R.limited s l).map f := by
  unfold limited
  split
  · rw [map_take]
  · rfl

theorem skipped_map {α β : Type} (s : Statement) (f : α → β) (l : List α) :
    R.skipped s (l.map f) = (R.skipped s l).map f := by
  unfold skipped
  split
  · rw [map_drop]
  · rfl

end

variable {Row Value : Type} [DecidableEq Row] [DecidableEq Value] (R : Reading Row Value)

theorem rows_congr {s t : Statement} (h : s.SameClauses t) (source : List Row) : R.rows t source = R.rows s source := by
  unfold rows limited skipped Statement.sortedBy Statement.distinctBy selected groups kept
  rw [h.distinct, h.selectList, h.condition, h.grouping, h.ordering, h.top, h.skip]

/-- The rows of the `FROM` list that a statement returns, if it returns all their columns. -/
def wholeRows (s : Statement) (source : List Row) : List Row :=
  R.limited s (R.skipped s (s.sortedBy R.precedes (s.distinctBy id (R.kept s source))))

theorem rows_eq_wholeRows {s : Statement} (h : s.selectList = []) (source : List Row) :
    R.rows s source = (R.wholeRows s source).map .whole := by
  have hselected : R.selected s (R.kept s source) =
      (R.kept s source).map fun row => (([row], .whole row) : List Row × Output Row Value) := by
    unfold selected; rw [h]; rfl
  have hdistinct := s.distinctBy_congr (f := fun row : Row => (Output.whole row : Output Row Value).content)
    (g := id) (fun a b => ⟨Sum.inl.inj, congrArg Sum.inl⟩) (R.kept s source)
  unfold rows wholeRows
  rw [hselected, s.distinctBy_map, s.sortedBy_map, skipped_map, limited_map, map_map]
  exact congrArg (fun l => (R.limited s (R.skipped s (s.sortedBy R.precedes l))).map Output.whole) hdistinct

end Reading

end RelSql
