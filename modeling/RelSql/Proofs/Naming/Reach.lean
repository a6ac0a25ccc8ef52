/-
How the table of symbols grows while a query is built, and which extents a symbol stands for. A
symbol keeps its name, type and join for good and only gains columns, so what a symbol reaches
through flat joins does not change once it is in the table.
-/
import RelSql.Naming.Symbol
import Mathlib.Tactic

namespace RelSql

open Ident List

variable {s : Symbol}

namespace Symbol

/-- A join whose inputs stand in the `FROM` list of its own statement. -/
def isFlat (s : Symbol) : Bool :=
  match s.join with
  | some join => !join.nested
  | none => false

/-- An extent that stands in a `FROM` list under its own alias. -/
def stands (s : Symbol) : Bool := s.type.isSome && !s.isFlat

/-- `t` is `s` later on: with more columns, or marked for renaming. -/
structure Grows (s t : Symbol) : Prop where
  name : t.name = s.name
  type : t.type = s.type
  join : t.join = s.join
  newName : t.newName = s.newName
  column : ∀ n c, s.column? n = some c → t.column? n = some c

theorem Grows.refl (s : Symbol) : s.Grows s := ⟨rfl, rfl, rfl, rfl, fun _ _ h => h⟩

theorem Grows.trans {t u : Symbol} (h : s.Grows t) (h' : t.Grows u) : s.Grows u :=
  ⟨h'.name.trans h.name, h'.type.trans h.type, h'.join.trans h.join, h'.newName.trans h.newName,
    fun n c hc => h'.column n c (h.column n c hc)⟩

theorem Grows.stands {t : Symbol} (h : s.Grows t) : t.stands = s.stands := by
  unfold Symbol.stands isFlat; rw [h.type, h.join]

theorem isFlat_of_stands (h : s.stands = true) : s.isFlat = false := by
  unfold stands at h
  simpa using (Bool.and_eq_true_iff.1 h).2

end Symbol

namespace Symbols

variable {symbols xs ys : Symbols} {e i : SymbolId} {join : JoinInfo}

/-! ## Growth -/

theorem get_push (symbols : Symbols) (s : Symbol) (i : SymbolId) :
    get (symbols.push s) i = if i = symbols.size then s else symbols.get i := by
  unfold get
  rw [Array.getD_eq_getD_getElem?, Array.getD_eq_getD_getElem?, Array.getElem?_push]
  split <;> rfl

theorem get_push_of_lt (h : i < symbols.size) (s : Symbol) :
    get (symbols.push s) i = symbols.get i := by
  rw [get_push, if_neg (Nat.ne_of_lt h)]

theorem get_modify (symbols : Symbols) (i k : SymbolId) (f : Symbol → Symbol) :
    get (symbols.modify i f) k = if i = k ∧ k < symbols.size then f (symbols.get k) else symbols.get k := by
  unfold get
  rw [Array.getD_eq_getD_getElem?, Array.getD_eq_getD_getElem?, Array.getElem?_modify]
  by_cases hik : i = k
  · by_cases hk : k < symbols.size
    · simp [hik, hk]
    · simp [hik, hk]
  · simp [hik]

theorem get_of_size_le (h : symbols.size ≤ i) :
    symbols.get i = default := by
  unfold get
  rw [Array.getD_eq_getD_getElem?, Array.getElem?_eq_none h]; rfl

/-- Only symbols of the table have a type. -/
theorem lt_of_stands (h : (symbols.get i).stands = true) :
    i < symbols.size := by
  by_contra hi
  rw [get_of_size_le (not_lt.1 hi)] at h
  cases h

/-- `ys` is the table `xs` later on. -/
structure Grows (xs ys : Symbols) : Prop where
  size : xs.size ≤ ys.size
  symbol : ∀ i < xs.size, (xs.get i).Grows (ys.get i)

theorem Grows.refl (xs : Symbols) : Grows xs xs := ⟨le_refl _, fun _ _ => .refl _⟩

theorem Grows.trans {zs : Symbols} (h : Grows xs ys) (h' : Grows ys zs) : Grows xs zs :=
  ⟨h.size.trans h'.size,
    fun i hi => (h.symbol i hi).trans (h'.symbol i (lt_of_lt_of_le hi h.size))⟩

theorem grows_push (xs : Symbols) (s : Symbol) : Grows xs (xs.push s) :=
  ⟨by simp, fun i hi => by rw [get_push_of_lt hi]; exact .refl _⟩

theorem grows_modify (xs : Symbols) (i : SymbolId) {f : Symbol → Symbol}
    (hf : (xs.get i).Grows (f (xs.get i))) : Grows xs (xs.modify i f) := by
  refine ⟨by simp, fun k _ => ?_⟩
  rw [get_modify]
  split
  · rename_i h; rw [← h.1]; exact hf
  · exact .refl _

theorem grows_setNeedsRenaming (xs : Symbols) (i : SymbolId) (flag : Bool) :
    Grows xs (xs.setNeedsRenaming i flag) :=
  grows_modify xs i ⟨rfl, rfl, rfl, rfl, fun _ _ h => h⟩

theorem grows_markClashes (columns : List SymbolId) :
    ∀ (xs : Symbols) (seen : List (String × SymbolId)), Grows xs (xs.markClashes seen columns) := by
  induction columns with
  | nil => intro xs seen; exact .refl xs
  | cons c rest ih =>
    intro xs seen
    unfold markClashes
    dsimp only
    split
    · exact ih _ _
    · split
      · exact ih _ _
      · exact ((grows_setNeedsRenaming _ _ _).trans (grows_setNeedsRenaming _ _ _)).trans (ih _ _)

/-- An extent of the table, whether it stands in a `FROM` list or is a flat join. -/
def IsExtent (symbols : Symbols) (i : SymbolId) : Prop := (symbols.get i).type.isSome = true

theorem IsExtent.lt (h : symbols.IsExtent i) : i < symbols.size := by
  by_contra hi
  rw [IsExtent, get_of_size_le (not_lt.1 hi)] at h
  cases h

theorem IsExtent.grows (hg : Grows xs ys) (h : xs.IsExtent i) : ys.IsExtent i := by
  rw [IsExtent, (hg.symbol i h.lt).type]; exact h

theorem isExtent_of_stands (h : (symbols.get i).stands = true) :
    symbols.IsExtent i := (Bool.and_eq_true_iff.1 h).1

/-! ## What a symbol stands for -/

/-- The extent `e` is written where `i` is meant: `i` itself, or an input of a flat join. -/
inductive Reaches (symbols : Symbols) : SymbolId → SymbolId → Prop where
  | self {i : SymbolId} (h : (symbols.get i).isFlat = false) : Reaches symbols i i
  | input {i y e : SymbolId} {join : JoinInfo} (hj : (symbols.get i).join = some join)
      (hn : join.nested = false) (hy : y ∈ join.extents) (h : Reaches symbols y e) :
      Reaches symbols i e

theorem reaches_of_not_flat (h : (symbols.get i).isFlat = false) : symbols.Reaches i e ↔ e = i := by
  constructor
  · intro hr
    cases hr with
    | self _ => rfl
    | input hj hn _ _ => rw [Symbol.isFlat, hj] at h; simp [hn] at h
  · rintro rfl; exact .self h

theorem reaches_of_flat (hj : (symbols.get i).join = some join) (hn : join.nested = false) :
    symbols.Reaches i e ↔ ∃ y ∈ join.extents, symbols.Reaches y e := by
  constructor
  · intro hr
    cases hr with
    | self h => rw [Symbol.isFlat, hj] at h; simp [hn] at h
    | input hj' _ hy h =>
      rw [hj] at hj'; cases hj'
      exact ⟨_, hy, h⟩
  · rintro ⟨y, hy, h⟩; exact .input hj hn hy h

/-- A join is younger than its inputs, and its columns are columns. -/
structure JoinOK (symbols : Symbols) (i : SymbolId) (join : JoinInfo) : Prop where
  extents : ∀ y ∈ join.extents, y < i
  flattened : ∀ y ∈ join.flattened, y < i ∧ (symbols.get y).stands = true
  columns : ∀ c ∈ join.columns, c < symbols.size ∧ (symbols.get c).type = none
  /-- A list of the extents of a flat join has all of them. -/
  complete : join.nested = false → join.flattened ≠ [] →
    ∀ y ∈ join.extents, ∀ e, symbols.Reaches y e → e ∈ join.flattened

/-- The invariant of the symbols of a query that is being built. -/
structure WF (symbols : Symbols) : Prop where
  typed : ∀ i join, (symbols.get i).join = some join → (symbols.get i).type.isSome
  joins : ∀ i join, (symbols.get i).join = some join → JoinOK symbols i join
  columns : ∀ i, ∀ p ∈ (symbols.get i).columns, p.2 < symbols.size ∧ (symbols.get p.2).type = none
  original : ∀ i, (symbols.get i).newName = none
  marked : ∀ i, (symbols.get i).needsRenaming = true → (symbols.get i).type = none

theorem wf_empty : WF #[] := by
  have h : ∀ i, get #[] i = default := fun i => get_of_size_le (by simp)
  refine ⟨?_, ?_, ?_, ?_, ?_⟩ <;> intro i <;> rw [h] <;> simp [default, instInhabitedSymbol.default]

theorem Reaches.of_grows (hw : WF xs) (hg : Grows xs ys) (hr : ys.Reaches i e) (hi : i < xs.size) : xs.Reaches i e := by
  induction hr with
  | self h =>
    refine .self ?_
    rw [Symbol.isFlat, ← (hg.symbol _ hi).join]; exact h
  | input hj hn hy _ ih =>
    rw [(hg.symbol _ hi).join] at hj
    exact .input hj hn hy (ih (lt_trans ((hw.joins _ _ hj).extents _ hy) hi))

theorem Reaches.grows (hw : WF xs) (hg : Grows xs ys) (hr : xs.Reaches i e) (hi : i < xs.size) : ys.Reaches i e := by
  induction hr with
  | self h =>
    refine .self ?_
    rw [Symbol.isFlat, (hg.symbol _ hi).join]; exact h
  | input hj hn hy _ ih =>
    refine .input (by rw [(hg.symbol _ hi).join]; exact hj) hn hy
      (ih (lt_trans ((hw.joins _ _ hj).extents _ hy) hi))

theorem Reaches.le (hw : WF xs) (hr : xs.Reaches i e) : e ≤ i := by
  induction hr with
  | self => exact le_refl _
  | input hj _ hy _ ih => exact ih.trans ((hw.joins _ _ hj).extents _ hy).le

theorem JoinOK.grows (hw : WF xs) (hg : Grows xs ys) (h : JoinOK xs i join) (hi : i ≤ xs.size) : JoinOK ys i join := by
  refine ⟨h.extents, fun y hy => ?_, fun c hc => ?_, fun hn hf y hy e he => ?_⟩
  · obtain ⟨hlt, hs⟩ := h.flattened y hy
    exact ⟨hlt, by rw [(hg.symbol y (lt_of_stands hs)).stands]; exact hs⟩
  · obtain ⟨hlt, ht⟩ := h.columns c hc
    exact ⟨lt_of_lt_of_le hlt hg.size, by rw [(hg.symbol c hlt).type]; exact ht⟩
  · exact h.complete hn hf y hy e (he.of_grows hw hg (lt_of_lt_of_le (h.extents y hy) hi))

/-- What `expand` finds is the same later on. -/
theorem expand_grows {xs ys : Symbols} (hw : WF xs) (hg : Grows xs ys) :
    ∀ (depth : Nat) {i : SymbolId}, i < xs.size → ys.expand depth i = xs.expand depth i
  | 0, _, _ => rfl
  | depth + 1, i, hi => by
    unfold expand
    rw [(hg.symbol i hi).join]
    cases hj : (xs.get i).join with
    | none => rfl
    | some join =>
      have hlt : ∀ y ∈ join.extents, y < xs.size := fun y hy => ((hw.joins i join hj).extents y hy).trans hi
      have hfilter : (join.extents.filter fun e => !(ys.get e).isPrimitive) =
          join.extents.filter fun e => !(xs.get e).isPrimitive :=
        filter_congr fun y hy => by unfold Symbol.isPrimitive; rw [(hg.symbol y (hlt y hy)).type]
      dsimp only
      rw [hfilter]
      congr 1
      exact flatMap_congr fun y hy => expand_grows hw hg depth (hlt y (mem_of_mem_filter hy))

theorem expand_sublist (symbols : Symbols) :
    ∀ (depth : Nat) (i : SymbolId), (symbols.expand depth i).Sublist (symbols.expand (depth + 1) i)
  | 0, _ => nil_sublist _
  | depth + 1, i => by
    rw [expand, expand]
    split
    · split
      · exact .refl _
      · exact .flatMap_right _ fun y _ => expand_sublist symbols depth y
    · exact .refl _

/-- A flat join stands for no more than its inputs do. -/
theorem expand_of_flat (hj : (symbols.get i).join = some join) (hn : join.nested = false) (depth : Nat) :
    (symbols.expand depth i).Sublist (join.extents.flatMap (symbols.expand depth)) := by
  cases depth with
  | zero => exact nil_sublist _
  | succ depth =>
    rw [expand, hj]
    simp only [hn, Bool.false_eq_true, if_false]
    exact (filter_sublist.flatMap _).trans (.flatMap_right _ fun y _ => expand_sublist symbols depth y)

/-- An extent that is no flat join is all that it stands for. -/
theorem expand_of_not_flat (h : (symbols.get i).isFlat = false) (depth : Nat) :
    (symbols.expand depth i).Sublist [i] := by
  cases depth with
  | zero => exact nil_sublist _
  | succ depth =>
    unfold expand
    unfold Symbol.isFlat at h
    split
    · rename_i join hj
      rw [hj] at h
      rw [if_pos (by simpa using h)]
    · exact .refl _

/-! ## The invariant is kept -/

/-- A new symbol keeps the invariant if its join is in order. -/
theorem wf_push (hw : WF xs) (hc : s.columns = []) (hn : s.newName = none) (hm : s.needsRenaming = false)
    (hj : ∀ join, s.join = some join → s.type.isSome ∧ JoinOK xs xs.size join) : WF (xs.push s) := by
  have hg := grows_push xs s
  have hcases : ∀ i, i = xs.size ∧ get (xs.push s) i = s ∨ get (xs.push s) i = xs.get i := by
    intro i
    rw [get_push]
    split
    · rename_i h; exact Or.inl ⟨h, rfl⟩
    · exact Or.inr rfl
  refine ⟨fun i join h => ?_, fun i join h => ?_, fun i p hp => ?_, fun i => ?_, fun i h => ?_⟩
  · rcases hcases i with ⟨-, he⟩ | he <;> rw [he] at h ⊢
    · exact (hj join h).1
    · exact hw.typed i join h
  · rcases hcases i with ⟨hi, he⟩ | he <;> rw [he] at h
    · rw [hi]; exact (hj join h).2.grows hw hg (le_refl _)
    · refine (hw.joins i join h).grows hw hg ?_
      by_contra hlt
      rw [get_of_size_le (not_le.1 hlt).le] at h
      cases h
  · rcases hcases i with ⟨-, he⟩ | he <;> rw [he] at hp
    · rw [hc] at hp; cases hp
    · obtain ⟨hlt, ht⟩ := hw.columns i p hp
      exact ⟨lt_of_lt_of_le hlt hg.size, by rw [get_push_of_lt hlt]; exact ht⟩
  · rcases hcases i with ⟨-, he⟩ | he <;> rw [he]
    · exact hn
    · exact hw.original i
  · rcases hcases i with ⟨-, he⟩ | he <;> rw [he] at h ⊢
    · rw [hm] at h; cases h
    · exact hw.marked i h

theorem wf_push_column (hw : WF xs) (name : String) : WF (xs.push (.column name)) :=
  wf_push hw rfl rfl rfl fun _ h => by cases h

theorem wf_push_extent (hw : WF xs) (name : String) (type : DataType) :
    WF (xs.push (.extent name type)) :=
  wf_push hw rfl rfl rfl fun _ h => by cases h

theorem wf_push_joined (hw : WF xs) (name : String) (type : DataType) (hj : JoinOK xs xs.size join) :
    WF (xs.push (.joined name type join)) :=
  wf_push hw rfl rfl rfl fun _ h => by cases h; exact ⟨rfl, hj⟩

/-- Changing the columns or the mark of a symbol keeps the invariant, if the columns are columns
and only a column is marked. -/
theorem wf_modify (hw : WF xs) (i : SymbolId) {f : Symbol → Symbol} (hf : (xs.get i).Grows (f (xs.get i)))
    (hc : ∀ p ∈ (f (xs.get i)).columns, p.2 < xs.size ∧ (xs.get p.2).type = none)
    (hm : (f (xs.get i)).needsRenaming = true → (xs.get i).type = none) : WF (xs.modify i f) := by
  have hg := grows_modify xs i hf
  have hsz : Array.size (xs.modify i f) = xs.size := by simp
  have hcases : ∀ k, k = i ∧ get (xs.modify i f) k = f (xs.get i) ∨ get (xs.modify i f) k = xs.get k := by
    intro k
    rw [get_modify]
    split
    · rename_i h; rw [← h.1]; exact Or.inl ⟨rfl, rfl⟩
    · exact Or.inr rfl
  have htype : ∀ k, (get (xs.modify i f) k).type = (xs.get k).type := by
    intro k
    rcases hcases k with ⟨hk, he⟩ | he <;> rw [he]
    rw [hk]; exact hf.type
  have hjoin : ∀ k, (get (xs.modify i f) k).join = (xs.get k).join := by
    intro k
    rcases hcases k with ⟨hk, he⟩ | he <;> rw [he]
    rw [hk]; exact hf.join
  refine ⟨fun k join h => ?_, fun k join h => ?_, fun k p hp => ?_, fun k => ?_, fun k h => ?_⟩
  · rw [hjoin] at h; rw [htype]; exact hw.typed k join h
  · rw [hjoin] at h
    refine (hw.joins k join h).grows hw hg ?_
    by_contra hlt
    rw [get_of_size_le (not_le.1 hlt).le] at h
    cases h
  · rw [hsz, htype]
    rcases hcases k with ⟨-, he⟩ | he <;> rw [he] at hp
    · exact hc p hp
    · exact hw.columns k p hp
  · rcases hcases k with ⟨hk, he⟩ | he <;> rw [he]
    · rw [hf.newName]; exact hw.original i
    · exact hw.original k
  · rw [htype]
    rcases hcases k with ⟨hk, he⟩ | he <;> rw [he] at h
    · rw [hk]; exact hm h
    · exact hw.marked k h

theorem wf_setNeedsRenaming (hw : WF xs) (flag : Bool) (hi : (xs.get i).type = none) :
    WF (xs.setNeedsRenaming i flag) :=
  wf_modify hw i ⟨rfl, rfl, rfl, rfl, fun _ _ h => h⟩ (hw.columns i) fun _ => hi

theorem type_setNeedsRenaming (xs : Symbols) (i k : SymbolId) (flag : Bool) :
    ((xs.setNeedsRenaming i flag).get k).type = (xs.get k).type := by
  unfold setNeedsRenaming
  rw [get_modify]
  split <;> rfl

/-- Marking columns that share a name keeps the invariant. -/
theorem wf_markClashes (columns : List SymbolId) :
    ∀ {xs : Symbols} {seen : List (String × SymbolId)}, WF xs → (∀ c ∈ columns, (xs.get c).type = none) →
      (∀ p ∈ seen, (xs.get p.2).type = none) → WF (xs.markClashes seen columns) := by
  induction columns with
  | nil => intro xs seen hw _ _; exact hw
  | cons c rest ih =>
    intro xs seen hw hc hs
    have hrest : ∀ c ∈ rest, (xs.get c).type = none := fun c h => hc c (mem_cons_of_mem _ h)
    have hhead := hc c mem_cons_self
    unfold markClashes
    dsimp only
    split
    · refine ih hw hrest fun p hp => ?_
      rcases mem_cons.1 hp with rfl | hp
      · exact hhead
      · exact hs p hp
    · rename_i first hfirst
      -- the column that was seen first is one of those before, and is marked as well
      have hfst : (xs.get first).type = none := by
        obtain ⟨l1, l2, hl, -⟩ := lookup_eq_some_iff.1 hfirst
        exact hs (key (xs.get c).name, first) (by rw [hl]; simp)
      split
      · exact ih hw hrest hs
      · have htype : ∀ k, (((xs.setNeedsRenaming first true).setNeedsRenaming c true).get k).type =
            (xs.get k).type := by
          intro k; rw [type_setNeedsRenaming, type_setNeedsRenaming]
        refine ih (wf_setNeedsRenaming (wf_setNeedsRenaming hw true hfst) true ?_) ?_ ?_
        · rw [type_setNeedsRenaming]; exact hhead
        · intro c h; rw [htype]; exact hrest c h
        · intro p h; rw [htype]; exact hs p h

/-! ## Columns of an extent -/

theorem mem_columns_of_column? {name : String} {c : SymbolId} (h : s.column? name = some c) :
    (key name, c) ∈ s.columns := by
  obtain ⟨l1, l2, hl, -⟩ := lookup_eq_some_iff.1 h
  rw [hl]; simp

/-- Asking an extent for a column gives a column, and keeps the table in order. -/
theorem columnOrInsert_spec {c : SymbolId} {name : String} (hw : WF xs) (h : xs.columnOrInsert i name = (c, ys)) :
    WF ys ∧ Grows xs ys ∧ c < ys.size ∧ (ys.get c).type = none := by
  unfold columnOrInsert at h
  split at h
  · rename_i c' hc
    cases h
    obtain ⟨hlt, ht⟩ := hw.columns i _ (mem_columns_of_column? hc)
    exact ⟨hw, .refl _, hlt, ht⟩
  · rename_i hnone
    unfold add at h
    cases h
    have hw' := wf_push_column hw name
    have hnew : get (xs.push (.column name)) xs.size = .column name := by rw [get_push, if_pos rfl]
    have hgrow : ∀ s : Symbol, s.Grows { s with columns := s.columns ++ [(key name, xs.size)] } := by
      intro s
      refine ⟨rfl, rfl, rfl, rfl, fun n d hd => ?_⟩
      unfold Symbol.column? at hd ⊢
      rw [lookup_append, hd]; rfl
    have hg : Grows (xs.push (.column name)) ((xs.push (.column name)).modify i fun s =>
        { s with columns := s.columns ++ [(key name, xs.size)] }) := grows_modify _ i (hgrow _)
    refine ⟨wf_modify hw' i (hgrow _) ?_ ?_, (grows_push xs _).trans hg, by simp, ?_⟩
    · intro p hp
      rcases mem_append.1 hp with hp | hp
      · exact hw'.columns i p hp
      · rw [mem_singleton] at hp
        subst hp
        exact ⟨by simp, by rw [hnew]; rfl⟩
    · intro hm; exact hw'.marked i hm
    · rw [(hg.symbol xs.size (by simp)).type, hnew]; rfl

/-- The column is filed with no other extent. -/
theorem columns_columnOrInsert (hne : e ≠ i) (name : String) (he : e < xs.size) :
    ((xs.columnOrInsert i name).2.get e).columns = (xs.get e).columns := by
  unfold columnOrInsert
  split
  · rfl
  · unfold add
    dsimp only
    rw [get_modify, if_neg fun h => hne h.1.symm, get_push_of_lt he]

end Symbols

end RelSql
