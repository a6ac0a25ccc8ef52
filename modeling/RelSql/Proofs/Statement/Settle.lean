/-
How names change while a text is written. Only extents that a statement declares and columns
marked for it are renamed, each at most once, and a new name of an extent is none that any extent
had before. So an extent that is settled, as it has a new name or clashes with none of the names
taken before it, keeps its name from then on.
-/
import RelSql.Proofs.Statement.Renames

namespace RelSql

open Symbols Names Ident Store List

variable {k : StatementId} {e : SymbolId}

/-! ## Names that an extent must avoid -/

namespace Symbols

/-- The extents under whose names an extent is visible. -/
def visible (symbols : Symbols) (x : SymbolId) : List SymbolId :=
  match (symbols.get x).join with
  | some join => if join.flattened.isEmpty then [x] else join.flattened
  | none => [x]

theorem visibleNames_eq (symbols : Symbols) (x : SymbolId) :
    symbols.visibleNames x = (symbols.visible x).map fun y => (symbols.get y).currentName := by
  unfold visibleNames visible
  cases (symbols.get x).join with
  | none => rfl
  | some join =>
    dsimp only
    split <;> rfl

/-- The extents whose names are taken for an extent that the statement declares behind `pre`. -/
def takers (symbols : Symbols) (s : Statement) (pre : List SymbolId) : List SymbolId :=
  s.outerExtents.flatMap symbols.visible ++ pre

/-- The first name of `e` is none that one of the extents has now. -/
def Avoids (symbols : Symbols) (e : SymbolId) (others : List SymbolId) : Prop :=
  ∀ y ∈ others, same (symbols.get y).currentName (symbols.get e).name = false

/-- The symbol keeps its name whatever is written. -/
def Fixed (statements : Statements) (symbols : Symbols) (e : SymbolId) : Prop :=
  (symbols.get e).isRenamed = true ∨ (symbols.get e).needsRenaming = false ∧
    ∀ k pre post, (statements.get k).declaredExtents = pre ++ e :: post →
      symbols.Avoids e (symbols.takers (statements.get k) pre)

end Symbols

/-! ## New names -/

namespace Symbols

/-- The new names of the symbols with `p` are in the registry `r`, none of them was in `r₀`, and no two of
them are one name. -/
structure NewNames (symbols : Symbols) (p : SymbolId → Prop) (r0 r : Registry) : Prop where
  kept : ∀ name, r0.contains name = true → r.contains name = true
  registered : ∀ i n, p i → (symbols.get i).newName = some n → r.contains n = true
  fresh : ∀ i n, p i → (symbols.get i).newName = some n → r0.contains n = false
  distinct : ∀ i j m n, p i → p j → i ≠ j → (symbols.get i).newName = some m → (symbols.get j).newName = some n →
    same m n = false

variable {symbols symbols' : Symbols} {p : SymbolId → Prop} {r0 r : Registry} {e i : SymbolId}

theorem newNames_start (h : ∀ i, (symbols.get i).newName = none) : symbols.NewNames p r r := by
  have hnone : ∀ {i n}, (symbols.get i).newName ≠ some n := by simp [h]
  exact ⟨fun _ h => h, fun _ _ _ hn => absurd hn hnone, fun _ _ _ hn => absurd hn hnone,
    fun _ _ _ _ _ _ _ hn => absurd hn hnone⟩

theorem NewNames.congr (h : symbols.NewNames p r0 r)
    (hn : ∀ i, p i → (symbols'.get i).newName = (symbols.get i).newName) : symbols'.NewNames p r0 r := by
  refine ⟨h.kept, fun i n hi hs => h.registered i n hi ?_, fun i n hi hs => h.fresh i n hi ?_,
    fun i j m n hi hj hne hm hs => h.distinct i j m n hi hj hne ?_ ?_⟩
  · rw [← hn i hi]; exact hs
  · rw [← hn i hi]; exact hs
  · rw [← hn i hi]; exact hm
  · rw [← hn j hj]; exact hs

/-- One symbol gets a name that the registry does not have. -/
theorem NewNames.rename (h : symbols.NewNames p r0 r) {base : String}
    (hn : ∀ i n, (symbols'.get i).newName = some n → (symbols.get i).newName = some n ∨ i = e ∧ n = (r.fresh base).1) :
    symbols'.NewNames p r0 (r.fresh base).2 := by
  have hnot := Registry.contains_fresh r base
  have hkept : ∀ name, r.contains name = true → (r.fresh base).2.contains name = true := fun name hc => by
    rw [Registry.contains_snd_fresh, hc, Bool.or_true]
  -- a fresh name is none of the registered ones
  have hapart : ∀ i m, p i → (symbols.get i).newName = some m → same m (r.fresh base).1 = false := by
    intro i m hi hm
    by_contra hsame
    rw [Registry.contains_of_same (by simpa using hsame) (h.registered i m hi hm)] at hnot; cases hnot
  refine ⟨fun name hc => hkept name (h.kept name hc), fun i n hi hs => ?_, fun i n hi hs => ?_,
    fun i j m n hi hj hne hm hs => ?_⟩
  · rcases hn i n hs with hs | ⟨-, rfl⟩
    · exact hkept n (h.registered i n hi hs)
    · rw [Registry.contains_snd_fresh, same_refl, Bool.true_or, Bool.true_or]
  · rcases hn i n hs with hs | ⟨-, rfl⟩
    · exact h.fresh i n hi hs
    · by_contra hc
      rw [h.kept _ (by simpa using hc)] at hnot; cases hnot
  · rcases hn i m hm with hm1 | ⟨rfl, rfl⟩ <;> rcases hn j n hs with hs1 | ⟨rfl, rfl⟩
    · exact h.distinct i j m n hi hj hne hm1 hs1
    · exact hapart i m hi hm1
    · rw [same_comm]; exact hapart j n hj hs1
    · exact absurd rfl hne

/-- Two symbols have different names, if one of them has a new name or the current name of the other is not
its first one. -/
theorem NewNames.apart (h : symbols.NewNames p r0 r) (hi : p i) (he : p e) (hne : i ≠ e)
    (hreg : r0.contains (symbols.get e).name = true)
    (hfirst : (symbols.get i).isRenamed = true ∨ same (symbols.get e).currentName (symbols.get i).name = false) :
    same (symbols.get i).currentName (symbols.get e).currentName = false := by
  cases hni : (symbols.get i).newName with
  | some n =>
    have hcur : (symbols.get i).currentName = n := by unfold Symbol.currentName; rw [hni]; rfl
    rw [hcur]
    cases hne' : (symbols.get e).newName with
    | some m =>
      have hcur' : (symbols.get e).currentName = m := by unfold Symbol.currentName; rw [hne']; rfl
      rw [hcur']
      exact h.distinct i e n m hi he hne hni hne'
    | none =>
      have hcur' : (symbols.get e).currentName = (symbols.get e).name := by unfold Symbol.currentName; rw [hne']; rfl
      rw [hcur']
      -- a new name was free among the registered ones, and the first name of the other is registered
      by_contra hsame
      have := Registry.contains_of_same (same_symm (by simpa using hsame)) hreg
      rw [h.fresh i n hi hni] at this; cases this
  | none =>
    have hcur : (symbols.get i).currentName = (symbols.get i).name := by unfold Symbol.currentName; rw [hni]; rfl
    rw [hcur, same_comm]
    refine hfirst.resolve_left fun hrenamed => ?_
    unfold Symbol.isRenamed at hrenamed
    rw [hni] at hrenamed; cases hrenamed

end Symbols

/-! ## The names of a store, partly settled -/

/-- `ν` are the names of `σ` with some symbols renamed. -/
structure Store.Renaming (σ : Store) (ν : Names) : Prop where
  size : ν.symbols.size = σ.symbols.size
  name : ∀ i, (ν.symbols.get i).name = (σ.symbols.get i).name
  type : ∀ i, (ν.symbols.get i).type = (σ.symbols.get i).type
  join : ∀ i, (ν.symbols.get i).join = (σ.symbols.get i).join
  marked : ∀ i, (ν.symbols.get i).needsRenaming = true → (σ.symbols.get i).type = none
  extents : ν.symbols.NewNames σ.symbols.IsExtent σ.names.extents ν.extents
  columns : ν.symbols.NewNames (fun c => ¬ σ.symbols.IsExtent c) σ.names.columns ν.columns

/-- `ν'` is `ν` with more symbols renamed, the extents to names that were not registered. -/
structure Store.Extends (σ : Store) (ν ν' : Names) : Prop where
  kept : ∀ i n, (ν.symbols.get i).newName = some n → (ν'.symbols.get i).newName = some n
  fresh : ∀ i n, σ.symbols.IsExtent i → (ν.symbols.get i).newName = none →
    (ν'.symbols.get i).newName = some n → ν.extents.contains n = false
  extents : ∀ name, ν.extents.contains name = true → ν'.extents.contains name = true
  marked : ∀ i, (ν'.symbols.get i).needsRenaming = true → (ν.symbols.get i).needsRenaming = true

/-- `ν'` are the names `ν` later on: fixed symbols have kept their names. -/
structure Store.Later (σ : Store) (ν ν' : Names) : Prop extends σ.Extends ν ν' where
  fixed : ∀ i, ν.symbols.Fixed σ.statements i → (ν'.symbols.get i).newName = (ν.symbols.get i).newName

namespace Store

variable {i y : SymbolId}

variable {σ : Store} {ν ν' ν'' : Names}

theorem renaming_start (hok : σ.OK) : σ.Renaming σ.names :=
  ⟨rfl, fun _ => rfl, fun _ => rfl, fun _ => rfl, hok.symbols.marked, newNames_start hok.symbols.original,
    newNames_start hok.symbols.original⟩

theorem Extends.refl (ν : Names) : σ.Extends ν ν :=
  ⟨fun _ _ h => h, fun i n _ h h' => (by rw [h] at h'; cases h'), fun _ h => h, fun _ h => h⟩

theorem Extends.trans (h : σ.Extends ν ν') (h' : σ.Extends ν' ν'') : σ.Extends ν ν'' := by
  refine ⟨fun i n hn => h'.kept i n (h.kept i n hn), fun i n hi hn hn'' => ?_,
    fun name hc => h'.extents name (h.extents name hc), fun i hm => h.marked i (h'.marked i hm)⟩
  cases hn' : (ν'.symbols.get i).newName with
  | none =>
    by_contra hc
    have hfresh := h'.fresh i n hi hn' hn''
    rw [h.extents n (by simpa using hc)] at hfresh; cases hfresh
  | some m =>
    rw [h'.kept i m hn'] at hn''
    obtain rfl := Option.some.inj hn''
    exact h.fresh i m hi hn hn'

theorem Later.refl (ν : Names) : σ.Later ν ν := ⟨.refl ν, fun _ _ => rfl⟩

/-- The aliases of a statement are extents with registered names. -/
theorem declared_aliases (hok : σ.OK) (h : e ∈ (σ.get k).declaredExtents) :
    e ∈ (σ.get k).aliases := by
  unfold Statement.declaredExtents at h
  rcases (hok.statement k).listed with hl | ⟨hl | hl, ha, -⟩ <;> rw [hl] at h
  · exact h
  · rw [ha]; exact h
  · cases h

theorem isExtent_declared (hok : σ.OK) (h : i ∈ (σ.get k).declaredExtents) :
    σ.symbols.IsExtent i :=
  isExtent_of_stands ((hok.statement k).aliases i (declared_aliases hok h)).1

theorem nodup_declared (hok : σ.OK) (k : StatementId) : (σ.get k).declaredExtents.Nodup := by
  unfold Statement.declaredExtents
  rcases (hok.statement k).listed with hl | ⟨hl | hl, ha, -⟩ <;> rw [hl]
  · exact (hok.statement k).nodup
  · rw [Option.getD_none, ← ha]; exact (hok.statement k).nodup
  · exact nodup_nil

theorem visible_eq (hr : σ.Renaming ν) (x : SymbolId) : ν.symbols.visible x = σ.symbols.visible x := by
  unfold visible; rw [hr.join]

theorem takers_eq (hr : σ.Renaming ν) (s : Statement) (pre : List SymbolId) :
    ν.symbols.takers s pre = σ.symbols.takers s pre := by
  unfold takers
  rw [funext (visible_eq hr)]

/-- What is visible under an extent is an extent. -/
theorem isExtent_visible (hok : σ.OK) {x : SymbolId} (hx : σ.symbols.IsExtent x) (hy : y ∈ σ.symbols.visible x) :
    σ.symbols.IsExtent y := by
  unfold visible at hy
  split at hy
  · rename_i join hj
    split at hy
    · rw [mem_singleton.1 hy]; exact hx
    · exact isExtent_of_stands ((hok.symbols.joins x join hj).flattened y hy).2
  · rw [mem_singleton.1 hy]; exact hx

theorem isExtent_takers (hok : σ.OK) {pre post : List SymbolId} (hs : (σ.get k).declaredExtents = pre ++ e :: post)
    (hy : y ∈ σ.symbols.takers (σ.get k) pre) :
    σ.symbols.IsExtent y := by
  rcases mem_append.1 hy with hy | hy
  · obtain ⟨x, hx, hy⟩ := mem_flatMap.1 hy
    exact isExtent_visible hok ((hok.statement k).outer x hx) hy
  · exact isExtent_declared hok (by rw [hs]; exact mem_append_left _ hy)

/-- A later name of an extent is the name that it had, or one that was not registered. -/
theorem Extends.currentName (hr : σ.Renaming ν) (hr' : σ.Renaming ν') (hl : σ.Extends ν ν')
    (hy : σ.symbols.IsExtent y) : (ν'.symbols.get y).currentName = (ν.symbols.get y).currentName ∨
      ν.extents.contains (ν'.symbols.get y).currentName = false := by
  unfold Symbol.currentName
  cases h : (ν.symbols.get y).newName with
  | some n => rw [hl.kept y n h]; exact Or.inl rfl
  | none =>
    cases h' : (ν'.symbols.get y).newName with
    | none => left; rw [hr.name, hr'.name]
    | some n => exact Or.inr (hl.fresh y n hy h h')

/-- What avoids the names of some extents avoids their later names, if its own name is registered. -/
theorem Extends.avoids (hr : σ.Renaming ν) (hr' : σ.Renaming ν') (hl : σ.Extends ν ν') {others : List SymbolId}
    (hext : ∀ y ∈ others, σ.symbols.IsExtent y) (hname : ν.extents.contains (σ.symbols.get e).name = true)
    (h : ν.symbols.Avoids e others) :
    ν'.symbols.Avoids e others := by
  intro y hy
  rw [hr'.name]
  rcases hl.currentName hr hr' (hext y hy) with heq | hfresh
  · rw [heq, ← hr.name]; exact h y hy
  · by_contra hsame
    have := Registry.contains_of_same (same_symm (by simpa using hsame)) hname
    rw [this] at hfresh; cases hfresh

theorem registered_declared (hok : σ.OK) (hr : σ.Renaming ν) (h : e ∈ (σ.get k).declaredExtents) :
    ν.extents.contains (σ.symbols.get e).name = true :=
  hr.extents.kept _ ((hok.statement k).aliases e (declared_aliases hok h)).2

/-- What is fixed stays fixed. -/
theorem Later.fixed_later (hok : σ.OK) (hr : σ.Renaming ν) (hr' : σ.Renaming ν') (hl : σ.Later ν ν')
    (h : ν.symbols.Fixed σ.statements i) : ν'.symbols.Fixed σ.statements i := by
  have hsame := hl.fixed i h
  rcases h with h | ⟨hm, havoid⟩
  · left
    unfold Symbol.isRenamed at h ⊢
    rw [hsame]; exact h
  · refine Or.inr ⟨?_, fun k pre post hs => ?_⟩
    · by_contra hm'
      rw [hl.marked i (by simpa using hm')] at hm; cases hm
    · have hmem : i ∈ (σ.get k).declaredExtents := by
        unfold get; rw [hs]; exact mem_append_right _ mem_cons_self
      have h0 := havoid k pre post hs
      rw [takers_eq hr] at h0
      rw [takers_eq hr']
      exact hl.toExtends.avoids hr hr' (fun y hy => isExtent_takers hok hs hy) (registered_declared hok hr hmem) h0

theorem Later.trans (hok : σ.OK) (hr : σ.Renaming ν) (hr' : σ.Renaming ν') (hl : σ.Later ν ν')
    (hl' : σ.Later ν' ν'') : σ.Later ν ν'' :=
  ⟨hl.toExtends.trans hl'.toExtends, fun i h => by rw [hl'.fixed i (hl.fixed_later hok hr hr' h), hl.fixed i h]⟩

/-- A fixed symbol is written under one name. -/
theorem Later.currentName_fixed (hr : σ.Renaming ν) (hr' : σ.Renaming ν') (hl : σ.Later ν ν')
    (h : ν.symbols.Fixed σ.statements i) : (ν'.symbols.get i).currentName = (ν.symbols.get i).currentName := by
  unfold Symbol.currentName
  rw [hl.fixed i h, hr.name, hr'.name]

/-! ## A new name -/

section

variable {e : SymbolId}

theorem newName_freshened_of_ne (h : i ≠ e) :
    ((freshened ν e).symbols.get i).newName = (ν.symbols.get i).newName := by
  rcases get_freshened (ν := ν) (e := e) i with hi | ⟨hi, -⟩
  · rw [hi]
  · exact absurd hi h

/-- A symbol has its old new name, or it is the one that got a fresh name. -/
theorem newName_freshened_cases {n : String} (h : ((freshened ν e).symbols.get i).newName = some n) :
    (ν.symbols.get i).newName = some n ∨ i = e ∧ n = (ν.extents.fresh (ν.symbols.get e).name).1 := by
  rcases get_freshened (ν := ν) (e := e) i with hi | ⟨rfl, hi⟩ <;> rw [hi] at h
  · exact Or.inl h
  · exact Or.inr ⟨rfl, (Option.some.inj h).symm⟩

theorem contains_freshened {name : String} (h : ν.extents.contains name = true) :
    (freshened ν e).extents.contains name = true := by
  unfold freshened
  rw [Registry.contains_snd_fresh, h, Bool.or_true]

theorem extends_freshened (hn : (ν.symbols.get e).newName = none) : σ.Extends ν (freshened ν e) := by
  refine ⟨fun i n h => ?_, fun i n _ h h' => ?_, fun name h => contains_freshened h, fun i h => ?_⟩
  · by_cases hi : i = e
    · subst hi; rw [hn] at h; cases h
    · rw [newName_freshened_of_ne hi]; exact h
  · rcases newName_freshened_cases h' with h' | ⟨rfl, rfl⟩
    · rw [h] at h'; cases h'
    · exact Registry.contains_fresh _ _
  · rcases get_freshened (ν := ν) (e := e) i with hi | ⟨rfl, hi⟩ <;> rw [hi] at h <;> exact h

theorem renaming_freshened (hr : σ.Renaming ν) (he : σ.symbols.IsExtent e) : σ.Renaming (freshened ν e) := by
  have hsymbol : ∀ i, ((freshened ν e).symbols.get i).name = (ν.symbols.get i).name ∧
      ((freshened ν e).symbols.get i).type = (ν.symbols.get i).type ∧
      ((freshened ν e).symbols.get i).join = (ν.symbols.get i).join ∧
      ((freshened ν e).symbols.get i).needsRenaming = (ν.symbols.get i).needsRenaming := by
    intro i
    rcases get_freshened (ν := ν) (e := e) i with hi | ⟨rfl, hi⟩ <;> rw [hi] <;> exact ⟨rfl, rfl, rfl, rfl⟩
  refine ⟨by rw [← hr.size]; exact Array.size_modify .., fun i => (hsymbol i).1.trans (hr.name i),
    fun i => (hsymbol i).2.1.trans (hr.type i), fun i => (hsymbol i).2.2.1.trans (hr.join i),
    fun i h => hr.marked i (by rw [← (hsymbol i).2.2.2]; exact h), hr.extents.rename fun i n => newName_freshened_cases,
    hr.columns.congr fun i hi => newName_freshened_of_ne ?_⟩
  rintro rfl
  exact hi he

end

end Store

/-! ## Steps that settle names -/

namespace Render

variable {u : PUnit}

/-- The step succeeds with `a` and turns the names `ν` into `ν'`. -/
def Runs {α : Type} (m : Render α) (ν : Names) (a : α) (ν' : Names) : Prop := m.run ν = (.ok a, ν')

section

variable {α β : Type} {ν ν' : Names}

@[simp] theorem runs_pure {a c : α} : Runs (pure a) ν c ν' ↔ c = a ∧ ν' = ν := by
  constructor
  · intro h; cases h; exact ⟨rfl, rfl⟩
  · rintro ⟨rfl, rfl⟩; rfl

theorem runs_bind {m : Render α} {f : α → Render β} {c : β} :
    Runs (m >>= f) ν c ν' ↔ ∃ a ν1, Runs m ν a ν1 ∧ Runs (f a) ν1 c ν' := by
  have hrun : (m >>= f).run ν = ExceptT.bindCont f (m.run ν).1 (m.run ν).2 := rfl
  unfold Runs
  rw [hrun]
  rcases m.run ν with ⟨e | a, ν1⟩
  · constructor
    · intro h; cases h
    · rintro ⟨a, ν1', h, -⟩; cases h
  · constructor
    · intro h; exact ⟨a, ν1, rfl, h⟩
    · rintro ⟨a', ν1', h, h'⟩; cases h; exact h'

@[simp] theorem runs_throw {e : Error} {a : α} : ¬ Runs (throw e : Render α) ν a ν' := by
  intro h; cases h

@[simp] theorem runs_get {a : Names} : Runs get ν a ν' ↔ a = ν ∧ ν' = ν := by
  constructor
  · intro h; cases h; exact ⟨rfl, rfl⟩
  · rintro ⟨rfl, rfl⟩; rfl

@[simp] theorem runs_set {μ : Names} : Runs (set μ) ν u ν' ↔ ν' = μ := by
  constructor
  · intro h; cases h; rfl
  · rintro rfl; rfl

theorem runs_ite {c : Prop} [Decidable c] {m m' : Render α} {a : α} :
    Runs (if c then m else m') ν a ν' ↔ c ∧ Runs m ν a ν' ∨ ¬ c ∧ Runs m' ν a ν' := by
  by_cases hc : c <;> simp [hc]

end

/-! ## Settling the aliases of a statement -/

/-- One extent is settled against the names `taken`. -/
def SettlesOne (taken : List String) (e : SymbolId) (ν ν' : Names) : Prop :=
  taken.any (same · (ν.symbols.get e).name) = true ∧ (ν.symbols.get e).newName = none ∧
    ν' = freshened ν e ∨
  taken.any (same · (ν.symbols.get e).name) = false ∧ ν' = ν

theorem runs_settleAliases_cons {taken : List String} {rest : List SymbolId} {ν ν' : Names}
    (h : Runs (settleAliases taken (e :: rest)) ν u ν') :
    ∃ ν1, SettlesOne taken e ν ν1 ∧ Runs (settleAliases (taken ++ [(ν1.symbols.get e).currentName]) rest) ν1 u ν' := by
  unfold settleAliases at h
  simp only [runs_bind, runs_get, runs_ite, runs_set, and_assoc, exists_and_left, exists_eq_left] at h
  rcases h with ⟨hc, a, h⟩ | ⟨hc, h⟩
  · unfold rename? at h
    by_cases hr : (ν.symbols.get e).isRenamed = true
    · rw [if_pos hr] at h
      simp only [runs_bind, runs_throw, false_and, exists_false] at h
    · rw [if_neg hr] at h
      simp only [runs_bind, runs_set, runs_get, and_assoc, exists_and_left, exists_eq_left, exists_const] at h
      exact ⟨_, Or.inl ⟨hc, by simpa [Symbol.isRenamed] using hr, rfl⟩, h⟩
  · exact ⟨ν, Or.inr ⟨by simpa using hc, rfl⟩, h⟩

/-- The extents are settled one after the other: those that clash with a name taken before them get
a fresh name, and nothing else changes. -/
structure Settles (σ : Store) (taken : List String) (es : List SymbolId) (ν ν' : Names) : Prop where
  names : σ.Renaming ν'
  extended : σ.Extends ν ν'
  traced : ν.Traced ν' []
  changed : ∀ i, (ν'.symbols.get i).newName ≠ (ν.symbols.get i).newName → ∃ pre post, es = pre ++ i :: post ∧
    (ν.symbols.get i).newName = none ∧
    ∃ t ∈ taken ++ pre.map (fun y => (ν'.symbols.get y).currentName), same t (σ.symbols.get i).name = true
  settled : ∀ pre e post, es = pre ++ e :: post → (ν'.symbols.get e).isRenamed = true ∨
    ∀ t ∈ taken ++ pre.map (fun y => (ν'.symbols.get y).currentName), same t (σ.symbols.get e).name = false

theorem settleAliases_spec {σ : Store} {es : List SymbolId} : ∀ {taken : List String} {ν ν' : Names} {u : PUnit},
    σ.Renaming ν → es.Nodup → (∀ e ∈ es, σ.symbols.IsExtent e) → Runs (settleAliases taken es) ν u ν' →
    Settles σ taken es ν ν' := by
  induction es with
  | nil =>
    intro taken ν ν' u hr _ _ h
    unfold settleAliases at h
    obtain ⟨-, rfl⟩ := runs_pure.1 h
    exact ⟨hr, .refl _, .refl rfl, fun i hi => absurd rfl hi, fun pre e post h => by cases pre <;> cases h⟩
  | cons e rest ih =>
    intro taken ν ν' u hr hnodup hext h
    obtain ⟨ν1, hone, hrest⟩ := runs_settleAliases_cons h
    obtain ⟨hnot, hnodup'⟩ := nodup_cons.1 hnodup
    have hlt : e < ν.symbols.size := by
      rw [hr.size]; exact (hext e mem_cons_self).lt
    have hstep : σ.Renaming ν1 ∧ σ.Extends ν ν1 ∧ ν.Traced ν1 [] ∧
        (∀ i, (ν1.symbols.get i).newName ≠ (ν.symbols.get i).newName → i = e ∧
          (ν.symbols.get e).newName = none ∧ ∃ t ∈ taken, same t (σ.symbols.get e).name = true) ∧
        ((ν1.symbols.get e).isRenamed = true ∨ ∀ t ∈ taken, same t (σ.symbols.get e).name = false) := by
      rcases hone with ⟨hc, hn, rfl⟩ | ⟨hc, rfl⟩
      · have htype : (ν.symbols.get e).type.isSome = true := by rw [hr.type]; exact hext e mem_cons_self
        refine ⟨renaming_freshened hr (hext e mem_cons_self), extends_freshened hn, traced_freshened htype hn,
          fun i hi => ?_, Or.inl ?_⟩
        · have hie : i = e := by
            by_contra hne
            exact hi (newName_freshened_of_ne hne)
          rw [hr.name] at hc
          exact ⟨hie, hn, by simpa using hc⟩
        · unfold Symbol.isRenamed
          rw [newName_freshened hlt]; rfl
      · rw [hr.name] at hc
        exact ⟨hr, .refl _, .refl rfl, fun i hi => absurd rfl hi, Or.inr (by simpa using hc)⟩
    obtain ⟨hr1, hext1, htraced, hchanged, hsettled⟩ := hstep
    have hs := ih hr1 hnodup' (fun y hy => hext y (mem_cons_of_mem _ hy)) hrest
    -- the first extent keeps its name while the others are settled
    have hkeep : (ν'.symbols.get e).newName = (ν1.symbols.get e).newName := by
      by_contra hne
      obtain ⟨pre, post, hes, -⟩ := hs.changed e hne
      exact hnot (by rw [hes]; exact mem_append_right _ mem_cons_self)
    have hcur : (ν'.symbols.get e).currentName = (ν1.symbols.get e).currentName := by
      unfold Symbol.currentName; rw [hkeep, hs.names.name, hr1.name]
    have htaken : ∀ pre : List SymbolId,
        taken ++ [(ν1.symbols.get e).currentName] ++ pre.map (fun y => (ν'.symbols.get y).currentName) =
          taken ++ (e :: pre).map (fun y => (ν'.symbols.get y).currentName) := by
      intro pre; rw [map_cons, hcur, append_assoc]; rfl
    refine ⟨hs.names, hext1.trans hs.extended, htraced.append hs.traced, fun i hi => ?_, fun pre e' post hes => ?_⟩
    · by_cases hie : i = e
      · subst hie
        rw [hkeep] at hi
        obtain ⟨-, hn, hclash⟩ := hchanged i hi
        exact ⟨[], rest, rfl, hn, by simpa using hclash⟩
      · have hsame : (ν1.symbols.get i).newName = (ν.symbols.get i).newName := by
          by_contra hne; exact hie (hchanged i hne).1
        obtain ⟨pre, post, hes, hn, hclash⟩ := hs.changed i (by rw [hsame]; exact hi)
        exact ⟨e :: pre, post, by rw [hes]; rfl, by rw [← hsame]; exact hn, by rw [← htaken]; exact hclash⟩
    · cases pre with
      | nil =>
        obtain ⟨rfl, -⟩ := cons.inj hes
        refine hsettled.imp (fun h => ?_) fun h => by simpa using h
        unfold Symbol.isRenamed at h ⊢
        rw [hkeep]; exact h
      | cons y pre =>
        obtain ⟨rfl, hrest⟩ := cons.inj hes
        rw [← htaken]
        exact hs.settled pre e' post hrest

/-- After its aliases are resolved, the extents of a statement are fixed. -/
theorem resolveAliases_spec {σ : Store} (hok : σ.OK) {ν ν' : Names} (hr : σ.Renaming ν)
    (h : Runs (resolveAliases (σ.get k)) ν u ν') :
    σ.Renaming ν' ∧ σ.Later ν ν' ∧ ν.Traced ν' [] ∧
      ∀ e ∈ (σ.get k).declaredExtents, ν'.symbols.Fixed σ.statements e := by
  have hext : ∀ e ∈ (σ.get k).declaredExtents, σ.symbols.IsExtent e := fun e => Store.isExtent_declared hok
  simp only [resolveAliases, runs_bind, runs_get, and_assoc, exists_and_left, exists_eq_left] at h
  have hs := settleAliases_spec hr (Store.nodup_declared hok k) hext h
  -- the names taken by enclosing statements, as they are before and after
  have htaken : (σ.get k).outerExtents.flatMap ν.symbols.visibleNames =
      ((σ.get k).outerExtents.flatMap σ.symbols.visible).map fun y => (ν.symbols.get y).currentName := by
    rw [map_flatMap]
    refine flatMap_congr fun x _ => ?_
    rw [Symbols.visibleNames_eq, Store.visible_eq hr]
  rw [htaken] at hs
  have houter : ∀ y ∈ (σ.get k).outerExtents.flatMap σ.symbols.visible, σ.symbols.IsExtent y := by
    intro y hy
    obtain ⟨x, hx, hy⟩ := mem_flatMap.1 hy
    exact Store.isExtent_visible hok ((hok.statement k).outer x hx) hy
  refine ⟨hs.names, ⟨hs.extended, fun i hfixed => ?_⟩, hs.traced, fun e he => ?_⟩
  · by_contra hne
    obtain ⟨pre, post, hes, hn, t, ht, hsame⟩ := hs.changed i hne
    rcases hfixed with hfixed | ⟨-, hfixed⟩
    · unfold Symbol.isRenamed at hfixed
      rw [hn] at hfixed; cases hfixed
    · have havoid := hfixed k pre post hes
      rw [Store.takers_eq hr] at havoid
      have hmem : i ∈ (σ.get k).declaredExtents := by rw [hes]; exact mem_append_right _ mem_cons_self
      have havoid' := hs.extended.avoids hr hs.names (fun y hy => Store.isExtent_takers hok hes hy)
        (Store.registered_declared hok hr hmem) havoid
      rcases mem_append.1 ht with ht | ht <;> obtain ⟨y, hy, rfl⟩ := mem_map.1 ht
      · have := havoid y (mem_append_left _ hy)
        rw [hr.name] at this; rw [this] at hsame; cases hsame
      · have := havoid' y (mem_append_right _ hy)
        rw [hs.names.name] at this; rw [this] at hsame; cases hsame
  · by_cases hrenamed : (ν'.symbols.get e).isRenamed = true
    · exact Or.inl hrenamed
    · refine Or.inr ⟨?_, fun k' pre post hes => ?_⟩
      · by_contra hm
        have := hs.names.marked e (by simpa using hm)
        have hx := hext e he
        unfold Symbols.IsExtent at hx
        rw [this] at hx; cases hx
      · have hmem' : e ∈ (σ.get k').declaredExtents := by
          unfold Store.get; rw [hes]; exact mem_append_right _ mem_cons_self
        obtain rfl := hok.unique k k' e (Store.declared_aliases hok he) (Store.declared_aliases hok hmem')
        have hsettled := (hs.settled pre e post hes).resolve_left hrenamed
        have hbefore : ν.symbols.Avoids e ((σ.get k).outerExtents.flatMap σ.symbols.visible) := by
          intro y hy
          rw [hr.name]
          exact hsettled _ (mem_append_left _ (mem_map_of_mem hy))
        have hafter := hs.extended.avoids hr hs.names houter (Store.registered_declared hok hr he) hbefore
        rw [Store.takers_eq hs.names]
        intro y hy
        rcases mem_append.1 hy with hy | hy
        · exact hafter y hy
        · rw [hs.names.name]
          exact hsettled _ (mem_append_right _ (mem_map_of_mem hy))

end Render

end RelSql
