/-
The invariant of a query under construction. `Store.OK` holds of the statements and symbols made so
far, `Build.Good` adds that every variable in scope stands for an extent of a statement being
built, `Store.Grows` says what later steps leave alone, and `Store.Sound` is what is known of the
parts of a text: every reference in them is held, that is, some statement around it declares the
extent and each statement in between whose clauses it stands in has recorded it as an outer one.
-/
import RelSql.Proofs.Build.Selection

namespace RelSql

open RelSql.Part Statement List

namespace Store

variable {e : SymbolId} {v : View} {k : StatementId} {n : Nat}

variable {σ τ υ : Store}

/-! ## References that are held -/

/-- The statement has recorded an extent through which `e` is reached. -/
def Covers (σ : Store) (k : StatementId) (e : SymbolId) : Prop :=
  ∃ x ∈ (σ.get k).outerExtents, σ.symbols.Reaches x e

/-- Going out along the path a statement declares the extent, and each statement before it has
recorded the extent if the place stands in its clauses. -/
def Held (σ : Store) (e : SymbolId) : Path → Prop
  | [] => False
  | (k, v) :: rest => e ∈ (σ.get k).aliases ∨ (v = .body → σ.Covers k e) ∧ Held σ e rest

/-- A statement may stand anywhere on the way if the place is a source of it. -/
theorem Held.insert {q : Path} (k : StatementId) (hv : v ≠ .body) :
    ∀ {p : Path}, σ.Held e (p ++ q) → σ.Held e (p ++ (k, v) :: q)
  | [], h => Or.inr ⟨fun h => absurd h hv, h⟩
  | (_, _) :: _, Or.inl h => Or.inl h
  | (_, _) :: _, Or.inr ⟨hc, h⟩ => Or.inr ⟨hc, Held.insert k hv h⟩

theorem Held.weaken {q : Path} (hv : v ≠ .body) :
    ∀ {p : Path}, σ.Held e (p ++ (k, .body) :: q) → σ.Held e (p ++ (k, v) :: q)
  | [], Or.inl h => Or.inl h
  | [], Or.inr ⟨_, h⟩ => Or.inr ⟨fun h => absurd h hv, h⟩
  | (_, _) :: _, Or.inl h => Or.inl h
  | (_, _) :: _, Or.inr ⟨hc, h⟩ => Or.inr ⟨hc, Held.weaken hv h⟩

theorem Held.imp (ha : ∀ k, e ∈ (σ.get k).aliases → e ∈ (τ.get k).aliases) (hc : ∀ k, σ.Covers k e → τ.Covers k e) :
    ∀ {p : Path}, σ.Held e p → τ.Held e p
  | (_, _) :: _, Or.inl h => Or.inl (ha _ h)
  | (_, _) :: _, Or.inr ⟨hk, h⟩ => Or.inr ⟨fun hs => hc _ (hk hs), Held.imp ha hc h⟩

/-! ## The invariant of statements and symbols -/

/-- The extents of a statement: those of a join are listed apart, and any other statement has at
most one. A join of no inputs gets one all the same when it is read. -/
def Listed (s : Statement) : Prop :=
  s.joinExtents = some s.aliases ∨
    (s.joinExtents = none ∨ s.joinExtents = some []) ∧ s.aliases = s.fromExtents ∧ s.fromExtents.length ≤ 1

/-- A statement in order: what it refers to is there, the extents that its variables reach are
those that its `FROM` list declares, and their names are registered. -/
structure StatementOK (σ : Store) (s : Statement) : Prop where
  symbols : ∀ e, .symbol e ∈ atoms s.parts → e < σ.symbols.size
  statements : ∀ j, .statement j ∈ atoms s.parts → j < σ.size
  fromExtents : ∀ x ∈ s.fromExtents, σ.symbols.IsExtent x
  leaves : ∀ x ∈ s.fromExtents, ∀ e, σ.symbols.Reaches x e → e ∈ s.aliases
  inOrder : ∀ depth, (s.fromExtents.flatMap (σ.symbols.expand depth)).Sublist s.aliases
  outer : ∀ x ∈ s.outerExtents, σ.symbols.IsExtent x
  aliases : ∀ e ∈ s.aliases, (σ.symbols.get e).stands = true ∧
    σ.names.extents.contains (σ.symbols.get e).name = true
  nodup : s.aliases.Nodup
  listed : Listed s
  empty : s.fromExtents = [] → s.aliases = []

/-- The invariant of the statements and symbols made so far. -/
structure OK (σ : Store) : Prop where
  symbols : σ.symbols.WF
  statements : ∀ k < σ.size, StatementOK σ (σ.get k)
  unique : ∀ k l e, e ∈ (σ.get k).aliases → e ∈ (σ.get l).aliases → k = l
  acyclic : ∀ k, ¬ Occurs σ.statements (σ.get k).parts k
  tidy : σ.Tidy

theorem Covers.lt (h : σ.Covers k e) : k < σ.size := by
  by_contra hk
  obtain ⟨x, hx, -⟩ := h
  rw [get_of_size_le (not_lt.1 hk)] at hx
  cases hx

theorem OK.statement (h : σ.OK) (k : StatementId) : StatementOK σ (σ.get k) := by
  by_cases hk : k < σ.size
  · exact h.statements k hk
  · rw [get_of_size_le (not_lt.1 hk)]
    have hp : atoms ({} : Statement).parts = [] := by simp [parts]
    have ha : ({} : Statement).aliases = [] := rfl
    refine ⟨?_, ?_, ?_, ?_, fun _ => .slnil, ?_, ?_, ?_, Or.inr ⟨Or.inl rfl, rfl, by simp⟩, fun _ => ha⟩
    all_goals simp [hp, ha]

/-- What occurs in parts in range is in range. -/
theorem lt_of_occurs (hok : σ.OK) {ps : List Part} {j : StatementId} (h : Occurs σ.statements ps j)
    (hr : ∀ k, .statement k ∈ atoms ps → k < σ.size) : j < σ.size := by
  induction h with
  | here h => exact hr _ h
  | within hk _ ih => exact ih (hok.statement _).statements

theorem lt_of_refers (hok : σ.OK) {ps : List Part} {path : Path} (h : Refers σ.statements ps path e)
    (hr : ∀ x, .symbol x ∈ atoms ps → x < σ.symbols.size) :
    e < σ.symbols.size := by
  induction h with
  | here h => exact hr _ h
  | within v hj _ ih =>
    exact ih fun x hx => (hok.statement _).symbols x (atoms_place_subset _ v _ hx)

/-! ## Growth -/

/-- `τ` is `σ` later on. The statements before `n` keep their text and may only record more outer
extents. -/
structure Retains (n : Nat) (σ τ : Store) : Prop where
  size : σ.size ≤ τ.size
  text : ∀ k < n, (σ.get k).SameText (τ.get k)
  outer : ∀ k < n, ∀ x ∈ (σ.get k).outerExtents, x ∈ (τ.get k).outerExtents
  symbols : σ.symbols.Grows τ.symbols
  extents : ∀ name, σ.names.extents.contains name = true → τ.names.extents.contains name = true

/-- Nor have the extents of those statements got more columns. -/
structure Grows (n : Nat) (σ τ : Store) : Prop extends Retains n σ τ where
  columns : ∀ k < n, ∀ e ∈ (σ.get k).aliases, (τ.symbols.get e).columns = (σ.symbols.get e).columns

theorem Grows.refl (n : Nat) (σ : Store) : Grows n σ σ :=
  ⟨⟨le_refl _, fun _ _ => .refl _, fun _ _ _ h => h, .refl _, fun _ h => h⟩, fun _ _ _ _ => rfl⟩

theorem Grows.trans (h : Grows n σ τ) (h' : Grows n τ υ) : Grows n σ υ := by
  refine ⟨⟨h.size.trans h'.size, fun k hk => (h.text k hk).trans (h'.text k hk),
    fun k hk x hx => h'.outer k hk x (h.outer k hk x hx), h.symbols.trans h'.symbols,
    fun name hn => h'.extents name (h.extents name hn)⟩, fun k hk e he => ?_⟩
  rw [← h.columns k hk e he]
  exact h'.columns k hk e (by rw [(h.text k hk).aliases]; exact he)

theorem Grows.mono {m : Nat} (h : Grows n σ τ) (hmn : m ≤ n) : Grows m σ τ :=
  ⟨⟨h.size, fun k hk => h.text k (lt_of_lt_of_le hk hmn), fun k hk => h.outer k (lt_of_lt_of_le hk hmn),
    h.symbols, h.extents⟩, fun k hk => h.columns k (lt_of_lt_of_le hk hmn)⟩

theorem Covers.retained (hok : σ.OK) (hg : Retains σ.size σ τ) (h : σ.Covers k e) : τ.Covers k e := by
  have hk := h.lt
  obtain ⟨x, hx, hr⟩ := h
  exact ⟨x, hg.outer k hk x hx, hr.grows hok.symbols hg.symbols ((hok.statement k).outer x hx).lt⟩

theorem Held.retained (hok : σ.OK) (hg : Retains σ.size σ τ) {p : Path} (h : σ.Held e p) :
    τ.Held e p := by
  refine h.imp (fun k hk => ?_) fun k hk => hk.retained hok hg
  rw [(hg.text k (lt_of_mem_aliases hk)).aliases]; exact hk

/-! ## Sound parts -/

/-- The path of what is put into the innermost of the statements being built. -/
def around (building : List StatementId) : Path := building.map (·, .body)

/-- What is known of parts that stand at a place with the path: what they refer to is there, no
statement in them is older than `n`, and every reference is held. -/
structure Sound (σ : Store) (n : Nat) (path : Path) (ps : List Part) : Prop where
  symbols : ∀ e, .symbol e ∈ atoms ps → e < σ.symbols.size
  statements : ∀ j, .statement j ∈ atoms ps → j < σ.size
  recent : ∀ j, Occurs σ.statements ps j → n ≤ j
  held : ∀ inner e, Refers σ.statements ps inner e → (σ.symbols.get e).stands = true →
    σ.Held e (inner ++ path)

section

variable {n : Nat} {path : Path} {ps qs : List Part}

theorem Sound.retained (hok : σ.OK) (hg : Retains σ.size σ τ) (h : Sound σ n path ps) : Sound τ n path ps := by
  have hsame : ∀ k, Occurs σ.statements ps k → (σ.get k).SameText (τ.get k) :=
    fun k hk => hg.text k (lt_of_occurs hok hk h.statements)
  refine ⟨fun e he => lt_of_lt_of_le (h.symbols e he) hg.symbols.size,
    fun j hj => lt_of_lt_of_le (h.statements j hj) hg.size, fun j hj => h.recent j (hj.congr hsame), ?_⟩
  intro inner e hr hs
  have hr' := hr.congr hsame
  have he := lt_of_refers hok hr' h.symbols
  rw [(hg.symbols.symbol e he).stands] at hs
  exact (h.held inner e hr' hs).retained hok hg

theorem Sound.grows (hok : σ.OK) (hg : Grows σ.size σ τ) (h : Sound σ n path ps) : Sound τ n path ps :=
  h.retained hok hg.toRetains

theorem Sound.mono {m : Nat} (h : Sound σ n path ps) (hmn : m ≤ n) : Sound σ m path ps :=
  ⟨h.symbols, h.statements, fun j hj => hmn.trans (h.recent j hj), h.held⟩

theorem Sound.of_subset (h : Sound σ n path ps)
    (hs : ∀ p ∈ atoms qs, (∀ t, p ≠ .text t) → p ≠ .line → p ∈ atoms ps) :
    Sound σ n path qs := by
  have hsym : ∀ e, .symbol e ∈ atoms qs → .symbol e ∈ atoms ps :=
    fun e he => hs _ he nofun nofun
  have hstm : ∀ j, .statement j ∈ atoms qs → .statement j ∈ atoms ps :=
    fun j hj => hs _ hj nofun nofun
  refine ⟨fun e he => h.symbols e (hsym e he), fun j hj => h.statements j (hstm j hj),
    fun j hj => h.recent j (hj.of_subset hstm), fun inner e hr hst => h.held inner e ?_ hst⟩
  cases hr with
  | here he => exact .here (hsym e he)
  | within v hj hr => exact .within v (hstm _ hj) hr

@[simp] theorem sound_nil : Sound σ n path [] := by
  refine ⟨nofun, nofun, fun j hj => ?_, fun inner e hr _ => ?_⟩
  · cases hj with
    | here h => cases h
    | within h => cases h
  · cases hr with
    | here h => cases h
    | within v h => cases h

@[simp] theorem sound_append : Sound σ n path (ps ++ qs) ↔ Sound σ n path ps ∧ Sound σ n path qs := by
  constructor
  · intro h
    exact ⟨h.of_subset (by simp +contextual), h.of_subset (by simp +contextual)⟩
  · rintro ⟨hp, hq⟩
    refine ⟨fun e he => ?_, fun j hj => ?_, fun j hj => ?_, fun inner e hr hs => ?_⟩
    · rw [atoms_append, mem_append] at he
      exact he.elim (hp.symbols e) (hq.symbols e)
    · rw [atoms_append, mem_append] at hj
      exact hj.elim (hp.statements j) (hq.statements j)
    · exact (occurs_append.1 hj).elim (hp.recent j) (hq.recent j)
    · exact (refers_append.1 hr).elim (fun hr => hp.held inner e hr hs) fun hr => hq.held inner e hr hs

theorem sound_cons {p : Part} : Sound σ n path (p :: ps) ↔ Sound σ n path [p] ∧ Sound σ n path ps := by
  rw [← singleton_append, sound_append]

@[simp] theorem sound_cons_cons {p q : Part} :
    Sound σ n path (p :: q :: ps) ↔ Sound σ n path [p] ∧ Sound σ n path (q :: ps) :=
  sound_cons

@[simp] theorem sound_text {t : String} : Sound σ n path (.text t :: ps) ↔ Sound σ n path ps :=
  sound_cons.trans (and_iff_right (sound_nil.of_subset (by simp)))

@[simp] theorem sound_line : Sound σ n path (.line :: ps) ↔ Sound σ n path ps :=
  sound_cons.trans (and_iff_right (sound_nil.of_subset (by simp)))

@[simp] theorem sound_group :
    Sound σ n path (.group qs :: ps) ↔ Sound σ n path qs ∧ Sound σ n path ps := by
  rw [sound_cons]
  refine and_congr_left fun _ => ⟨fun h => h.of_subset ?_, fun h => h.of_subset ?_⟩ <;> simp +contextual

@[simp] theorem sound_flatMap {α : Type} {items : List α} {parts : α → List Part} :
    Sound σ n path (items.flatMap parts) ↔ ∀ item ∈ items, Sound σ n path (parts item) := by
  induction items with
  | nil => simp
  | cons item items ih => simp [ih]

@[simp] theorem sound_separated {separator : String} {items : List (List Part)} :
    Sound σ n path ([text separator].intercalate items) ↔ ∀ item ∈ items, Sound σ n path item := by
  induction items with
  | nil => simp [intercalate]
  | cons item items ih =>
    cases items with
    | nil => simp [intercalate]
    | cons next items => rw [intercalate_cons_cons]; simp [ih]

/-- A symbol stands where its extent is held. -/
theorem sound_symbol : Sound σ n path [.symbol e] ↔
    e < σ.symbols.size ∧ ((σ.symbols.get e).stands = true → σ.Held e path) := by
  constructor
  · intro h
    exact ⟨h.symbols e (by simp), fun hs => h.held [] e (.here (by simp)) hs⟩
  · rintro ⟨hlt, hh⟩
    refine ⟨fun x hx => ?_, fun j hj => ?_, fun j hj => ?_, fun inner x hr hs => ?_⟩
    · simp at hx; rw [hx]; exact hlt
    · simp at hj
    · cases hj with
      | here h | within h => simp at h
    · cases hr with
      | here h => simp at h; subst h; exact hh hs
      | within v h => simp at h

/-- What was made before a statement can be a source of it. -/
theorem Sound.insert (h : Sound σ n path ps) (k : StatementId) (hv : v ≠ .body) :
    Sound σ n ((k, v) :: path) ps :=
  ⟨h.symbols, h.statements, h.recent, fun inner e hr hs => (h.held inner e hr hs).insert k hv⟩

theorem Sound.weaken (h : Sound σ n ((k, .body) :: path) ps) (hv : v ≠ .body) :
    Sound σ n ((k, v) :: path) ps :=
  ⟨h.symbols, h.statements, h.recent, fun inner e hr hs => (h.held inner e hr hs).weaken hv⟩

/-- A statement is sound if everything that stands in it is, each in its way. -/
theorem sound_statement {i : StatementId} (hok : σ.OK) : Sound σ n path [.statement i] ↔
    i < σ.size ∧ n ≤ i ∧ ∀ v, Sound σ n ((i, v) :: path) ((σ.get i).place v) := by
  constructor
  · intro h
    have hi : .statement i ∈ atoms [statement i] := by simp
    refine ⟨h.statements i hi, h.recent i (.here hi), fun v => ?_⟩
    have hsub := atoms_place_subset (σ.get i) v
    refine ⟨fun e he => (hok.statement i).symbols e (hsub _ he),
      fun j hj => (hok.statement i).statements j (hsub _ hj),
      fun j hj => h.recent j (.within hi (hj.of_subset fun k hk => hsub _ hk)), fun inner e hr hs => ?_⟩
    have := h.held _ e (.within v hi hr) hs
    rwa [append_assoc] at this
  · rintro ⟨hlt, hn, hp⟩
    -- only aliases stand outside of all places
    have hsplit : ∀ k, statement k ∈ atoms (σ.get i).parts →
        ∃ v, .statement k ∈ atoms ((σ.get i).place v) := by
      intro k hk
      rcases mem_atoms_parts (p := .statement k) nofun nofun hk with h | ⟨e, -, h⟩
      · exact h
      · cases h
    refine ⟨fun e he => by simp at he, fun j hj => ?_, fun j hj => ?_, fun inner e hr hs => ?_⟩
    · simp at hj; rw [hj]; exact hlt
    · cases hj with
      | here h => simp at h; rw [h]; exact hn
      | within h hj =>
        simp at h; rw [h] at hj
        cases hj with
        | here h =>
          obtain ⟨v, h⟩ := hsplit _ h
          exact (hp v).recent j (.here h)
        | within h hj =>
          obtain ⟨v, h⟩ := hsplit _ h
          exact (hp v).recent j (.within h hj)
    · cases hr with
      | here h => simp at h
      | within v h hr =>
        simp at h; subst h
        rw [append_assoc]; exact (hp v).held _ e hr hs

end

/-! ## Sound fragments -/

/-- What is known of the text of an expression. A row variable stands for all extents that it
reaches. -/
def FragmentSound (σ : Store) (n : Nat) (path : Path) : Fragment → Prop
  | .parts ps => Sound σ n path ps
  | .statement i => Sound σ n path [.statement i]
  | .symbol x => x < σ.symbols.size ∧ ∀ e, σ.symbols.Reaches x e → σ.Held e path
  | .nested source input => input < σ.symbols.size ∧ Sound σ n path [.symbol source]

theorem FragmentSound.toPart {path : Path} {f : Fragment} (h : FragmentSound σ n path f) :
    Sound σ n path [f.toPart] := by
  cases f with
  | parts ps => exact sound_group.2 ⟨h, sound_nil⟩
  | statement i => exact h
  | symbol x =>
    exact sound_symbol.2 ⟨h.1, fun hs => h.2 x (.self (Symbol.isFlat_of_stands hs))⟩
  | nested source input => exact h.2

end Store

end RelSql
