/-
Which `FROM` item a qualifier in the text of a query means. A name is looked up from the innermost
statement outwards, among the aliases of each `FROM` list that the place sees. Every extent that
the text names is declared by a statement around the place, and a statement that recorded it under
the name it is written with has no other alias of that name. What is left are the places where a
reference was not recorded so; the main statement says that a text captures a name there or not at
all.
-/
import RelSql.Proofs.Build.Expressions
import RelSql.Proofs.Outcomes
import RelSql.Proofs.Statement.Written

namespace RelSql

open RelSql.Part Statement Symbols Ident List Store

variable {after before path : Path} {k : StatementId} {v : View} {e : SymbolId} {config : Config} {query : Expr}

/-! ## Looking up a name -/

/-- The extent that a name means at a place: of the statements around it that see it, the innermost
one with an alias of that name decides. -/
def resolve (statements : Statements) (symbols : Symbols) (name : String) : Path → Option SymbolId
  | [] => none
  | (k, v) :: rest =>
    if v.sees then
      match (statements.get k).aliases.find? fun e => same (symbols.get e).currentName name with
      | some e => some e
      | none => resolve statements symbols name rest
    else resolve statements symbols name rest

section

variable {statements : Statements} {symbols : Symbols} {name : String}

/-- No statement of the path that sees the place has an alias of that name. -/
def Unnamed (statements : Statements) (symbols : Symbols) (name : String) (path : Path) : Prop :=
  ∀ q ∈ path, q.2.sees = true → ∀ e ∈ (statements.get q.1).aliases, same (symbols.get e).currentName name = false

theorem resolve_append (h : Unnamed statements symbols name before) :
    resolve statements symbols name (before ++ path) = resolve statements symbols name path := by
  induction before with
  | nil => rfl
  | cons q before ih =>
    obtain ⟨k, v⟩ := q
    have hrest := ih fun q hq => h q (mem_cons_of_mem _ hq)
    rw [cons_append, resolve]
    split
    · rename_i hsees
      have hnone : (statements.get k).aliases.find? (fun e => same (symbols.get e).currentName name) = none :=
        find?_eq_none.2 fun e he => by simp [h (k, v) mem_cons_self hsees e he]
      rw [hnone]; exact hrest
    · exact hrest

theorem exists_of_resolve {e : SymbolId} : ∀ {path : Path}, resolve statements symbols name path = some e →
    ∃ before k v after, path = before ++ (k, v) :: after ∧ v.sees = true ∧ e ∈ (statements.get k).aliases ∧
      Unnamed statements symbols name before
  | (k, v) :: rest, h => by
    unfold resolve at h
    have hrec : resolve statements symbols name rest = some e → (v.sees = true → ∀ x ∈ (statements.get k).aliases,
        same (symbols.get x).currentName name = false) → ∃ before l w after,
        (k, v) :: rest = before ++ (l, w) :: after ∧ w.sees = true ∧ e ∈ (statements.get l).aliases ∧
          Unnamed statements symbols name before := by
      intro h hno
      obtain ⟨before, l, w, after, rfl, hw, he, hun⟩ := exists_of_resolve h
      refine ⟨(k, v) :: before, l, w, after, rfl, hw, he, fun q hq => ?_⟩
      rcases mem_cons.1 hq with rfl | hq
      · exact hno
      · exact hun q hq
    split at h
    · rename_i hsees
      split at h
      · rename_i x hx
        obtain rfl := Option.some.inj h
        exact ⟨[], k, v, rest, rfl, hsees, mem_of_find?_eq_some hx, nofun⟩
      · rename_i hnone
        exact hrec h fun _ x hx => by simpa using find?_eq_none.1 hnone x hx
    · rename_i hsees
      exact hrec h fun hv => absurd hv hsees

/-- The extent itself is found where it is declared, if no other alias there has its name. -/
theorem resolve_declared (hv : v.sees = true) (he : e ∈ (statements.get k).aliases)
    (hname : same (symbols.get e).currentName name = true)
    (hothers : ∀ x ∈ (statements.get k).aliases, x ≠ e → same (symbols.get x).currentName name = false) :
    resolve statements symbols name ((k, v) :: after) = some e := by
  rw [resolve, if_pos hv]
  cases hf : (statements.get k).aliases.find? fun x => same (symbols.get x).currentName name with
  | none => exact absurd hname (find?_eq_none.1 hf e he)
  | some x =>
    have hx := find?_some hf
    by_contra hne
    have := hothers x (mem_of_find?_eq_some hf) fun h => hne (by rw [h])
    rw [this] at hx; cases hx

end

/-! ## The places of a text -/

theorem Statement.place_written (s : Statement) (v : View) : ∀ p ∈ atoms (s.written.place v),
    p ∈ atoms (s.place v) := by
  intro p hp
  unfold written at hp
  split at hp
  · exact hp
  · cases v with
    | body =>
      unfold place body at hp ⊢
      simp only [atoms_append, mem_append, atoms_nil, not_mem_nil, or_false] at hp ⊢
      have hc : ({ s with ordering := [] } : Statement).conditions = s.conditions := rfl
      rw [hc] at hp
      tauto
    | source => exact hp
    | enclosed => exact hp

theorem Refers.of_written {statements : Statements} {ps : List Part} (h : Refers statements.written ps path e) :
    Refers statements ps path e := by
  induction h with
  | here h => exact .here h
  | within v hj _ ih =>
    refine .within v hj (ih.of_subset fun p hp => ?_)
    rw [Statements.get_written] at hp
    exact place_written _ v p hp

/-- No statement stands around a place twice. -/
theorem Refers.nodup {σ : Store} (hok : σ.OK) {ps : List Part} (h : Refers σ.statements ps path e) :
    (path.map Prod.fst).Nodup := by
  induction h with
  | here _ => exact nodup_nil
  | within v hj h ih =>
    rw [map_append, nodup_append]
    refine ⟨ih, nodup_singleton _, fun k hk l hl => ?_⟩
    obtain ⟨q, hq, rfl⟩ := mem_map.1 hk
    obtain rfl := mem_singleton.1 hl
    rintro heq
    have hocc := (h.occurs q hq).of_subset fun k hk => atoms_place_subset _ v _ hk
    rw [heq] at hocc
    exact hok.acyclic _ hocc

/-! ## Names that are kept apart -/

/-- The extent shows the names under which what it stands for is written. A flat join shows them
if it lists its extents; a nested join that lists extents shows those of its subselect instead. -/
def Symbol.showsNames (s : Symbol) : Bool :=
  match s.join with
  | none => true
  | some join => join.nested == join.flattened.isEmpty

namespace Store

variable {x : SymbolId}

variable {σ : Store} {ν : Names}

theorem mem_visible (hok : σ.OK) (hx : (σ.symbols.get x).showsNames = true) (hr : σ.symbols.Reaches x e) :
    e ∈ σ.symbols.visible x := by
  unfold Symbol.showsNames at hx
  unfold visible
  cases hj : (σ.symbols.get x).join with
  | none =>
    obtain rfl := (reaches_of_not_flat (by simp [Symbol.isFlat, hj])).1 hr
    exact mem_singleton_self e
  | some join =>
    rw [hj] at hx
    dsimp only at hx ⊢
    cases hn : join.nested with
    | true =>
      obtain rfl := (reaches_of_not_flat (by simp [Symbol.isFlat, hj, hn])).1 hr
      rw [hn] at hx
      rw [if_pos (by simpa using hx)]
      exact mem_singleton_self e
    | false =>
      rw [hn] at hx
      have hne : join.flattened ≠ [] := by simpa using hx
      rw [if_neg (by simpa using hne)]
      obtain ⟨y, hy, hr⟩ := (reaches_of_flat hj hn).1 hr
      exact (hok.symbols.joins x join hj).complete hn hne y hy e hr

/-- Two extents have different names in the end, if one of them was renamed or avoids the other. -/
theorem Renaming.apart (hr : σ.Renaming ν) (he : σ.symbols.IsExtent e) (hx : σ.symbols.IsExtent x) (hne : x ≠ e)
    (hreg : σ.names.extents.contains (σ.symbols.get e).name = true)
    (h : (ν.symbols.get x).isRenamed = true ∨ ν.symbols.Avoids x [e]) :
    same (ν.symbols.get x).currentName (ν.symbols.get e).currentName = false :=
  hr.extents.apart hx he hne (by rw [hr.name]; exact hreg) (h.imp id fun h => h e (mem_singleton_self e))

/-- An alias of a statement is one of its declared extents, unless it is a join without inputs. -/
theorem mem_declaredExtents (hok : σ.OK) (hk : (σ.get k).joinExtents ≠ some []) (hx : x ∈ (σ.get k).aliases) :
    x ∈ (σ.get k).declaredExtents := by
  unfold declaredExtents
  rcases (hok.statement k).listed with hl | ⟨hl | hl, ha, -⟩
  · rw [hl]; exact hx
  · rw [hl, Option.getD_none, ← ha]; exact hx
  · exact absurd hl hk

/-- The name of an extent that a settled statement has recorded, and shows, is no alias of it. -/
theorem apart_of_recorded (hok : σ.OK) (hr : σ.Renaming ν) {l : StatementId} {y : SymbolId} (hk : σ.Settled ν k)
    (hjoin : (σ.get k).joinExtents ≠ some []) (he : e ∈ (σ.get l).aliases) (hx : x ∈ (σ.get k).outerExtents)
    (hreach : σ.symbols.Reaches x e) (hshows : (σ.symbols.get x).showsNames = true) (hy : y ∈ (σ.get k).aliases)
    (hne : y ≠ e) :
    same (ν.symbols.get y).currentName (ν.symbols.get e).currentName = false := by
  have hst := (hok.statement l).aliases e he
  refine hr.apart (isExtent_of_stands hst.1)
    (isExtent_of_stands ((hok.statement k).aliases y hy).1) hne hst.2 ?_
  have hdecl := mem_declaredExtents hok hjoin hy
  refine (hk y hdecl).imp id fun h => ?_
  obtain ⟨-, havoid⟩ := h
  obtain ⟨pre, post, hsplit⟩ := append_of_mem hdecl
  have hall := havoid k pre post hsplit
  rw [takers_eq hr] at hall
  intro z hz
  obtain rfl := mem_singleton.1 hz
  exact hall z (mem_append_left _ (mem_flatMap.2 ⟨x, hx, mem_visible hok hshows hreach⟩))

/-- The aliases of one settled statement are different names. -/
theorem apart_of_declared (hok : σ.OK) (hr : σ.Renaming ν) {y : SymbolId} (hk : σ.Settled ν k)
    (he : e ∈ (σ.get k).aliases) (hy : y ∈ (σ.get k).aliases) (hne : y ≠ e) :
    same (ν.symbols.get y).currentName (ν.symbols.get e).currentName = false := by
  -- of two extents the one that is declared later avoids the other
  have hlater : ∀ {x z : SymbolId} {pre mid post : List SymbolId},
      (σ.get k).declaredExtents = pre ++ z :: (mid ++ x :: post) → x ≠ z →
      same (ν.symbols.get x).currentName (ν.symbols.get z).currentName = false := by
    intro x z pre mid post hsplit hxz
    have hx : x ∈ (σ.get k).declaredExtents := by rw [hsplit]; simp
    have hz : z ∈ (σ.get k).declaredExtents := by rw [hsplit]; simp
    refine hr.apart (isExtent_declared hok hz) (isExtent_declared hok hx) hxz
      ((hok.statement k).aliases z (declared_aliases hok hz)).2 ((hk x hx).imp id fun h => ?_)
    obtain ⟨-, havoid⟩ := h
    have hall := havoid k (pre ++ z :: mid) post (by
      change (σ.get k).declaredExtents = _
      rw [hsplit]; simp)
    rw [takers_eq hr] at hall
    intro w hw
    obtain rfl := mem_singleton.1 hw
    exact hall w (mem_append_right _ (by simp))
  by_cases hjoin : (σ.get k).joinExtents = some []
  · -- at most one alias
    have hlen : (σ.get k).aliases.length ≤ 1 := by
      rcases (hok.statement k).listed with hl | ⟨-, ha, hlen⟩
      · rw [hjoin] at hl
        rw [← Option.some.inj hl]; simp
      · rw [ha]; exact hlen
    obtain ⟨x, hx⟩ := length_eq_one_iff.1 (le_antisymm hlen (length_pos_of_mem he))
    rw [hx, mem_singleton] at he hy
    exact absurd (hy.trans he.symm) hne
  · obtain ⟨pre, post, hsplit⟩ := append_of_mem (mem_declaredExtents hok hjoin hy)
    have he' := mem_declaredExtents hok hjoin he
    rw [hsplit] at he'
    rcases mem_append.1 he' with hpre | hpost
    · obtain ⟨a, c, rfl⟩ := append_of_mem hpre
      rw [append_assoc] at hsplit
      exact hlater hsplit hne
    · obtain ⟨a, c, rfl⟩ := append_of_mem ((mem_cons.1 hpost).resolve_left hne.symm)
      rw [same_comm]
      exact hlater hsplit hne.symm

end Store

/-! ## Qualifiers of a query -/

/-- The text of the query names the extent `e` at a place. -/
def Qualifies (b : Build) (f : Fragment) (path : Path) (e : SymbolId) : Prop :=
  Refers b.statements.written [f.toPart] path e ∧ (b.names.symbols.get e).stands = true

/-- The statement may have an alias with the name of `e`, though `e` is named inside it: the place
is a call in its `FROM` list, it is a join without inputs, or it has recorded `e` only through
joins that do not show its name. -/
inductive Unguarded (b : Build) (e : SymbolId) : StatementId × View → Prop where
  | source (k : StatementId) : Unguarded b e (k, .source)
  | noInputs (k : StatementId) (h : (b.statements.get k).joinExtents = some []) : Unguarded b e (k, .body)
  | hidden (k : StatementId) (x : SymbolId) (hx : x ∈ (b.statements.get k).outerExtents)
      (hr : b.names.symbols.Reaches x e)
      (h : ∀ y ∈ (b.statements.get k).outerExtents, b.names.symbols.Reaches y e →
        (b.names.symbols.get y).showsNames = false) : Unguarded b e (k, .body)

/-- The name of `e` is kept free on the way out to the statement that declares it, which the place
has the view `v` of: that statement sees the place, and no unguarded statement before it has an
alias of that name. -/
def KeptFree (b : Build) (names : Names) (e : SymbolId) (before : Path) (v : View) : Prop :=
  v ≠ .enclosed ∧ ∀ q ∈ before, q.2.sees = true → Unguarded b e q → ∀ x ∈ (b.statements.get q.1).aliases,
    same (names.symbols.get x).currentName (names.symbols.get e).currentName = false

section

variable {b : Build} {f : Fragment} {names : Names}

/-- Statements that stand between a place and the one that declares the extent have recorded it. -/
theorem covers_of_held {σ : Store} (hok : σ.OK) {e : SymbolId} {k : StatementId} {v : View} {after : Path}
    (he : e ∈ (σ.get k).aliases) : ∀ {before : Path}, ((before ++ (k, v) :: after).map Prod.fst).Nodup →
      σ.Held e (before ++ (k, v) :: after) → ∀ q ∈ before, q.2 = .body → σ.Covers q.1 e
  | (l, w) :: before, hnodup, hheld, q, hq, hv => by
    rw [cons_append, map_cons, nodup_cons] at hnodup
    rcases hheld with hl | ⟨hcov, hheld⟩
    · obtain rfl := hok.unique l k e hl he
      exact absurd (mem_map_of_mem (mem_append_right _ mem_cons_self)) hnodup.1
    · rcases mem_cons.1 hq with rfl | hq
      · exact hcov hv
      · exact covers_of_held hok he hnodup.2 hheld q hq hv

theorem exists_declared {σ : Store} {e : SymbolId} : ∀ {path : Path}, σ.Held e path →
    ∃ before k v after, path = before ++ (k, v) :: after ∧ e ∈ (σ.get k).aliases
  | (k, v) :: rest, Or.inl h => ⟨[], k, v, rest, rfl, h⟩
  | (k, v) :: rest, Or.inr ⟨_, h⟩ => by
    obtain ⟨before, l, w, after, rfl, he⟩ := exists_declared h
    exact ⟨(k, v) :: before, l, w, after, rfl, he⟩

/-- A statement in between either keeps its aliases apart from the name, or is unguarded. -/
theorem unnamed_of_unguarded (hok : b.store.OK) (hr : b.store.Renaming names) (he : e ∈ (b.statements.get k).aliases)
    {q : StatementId × View} (hq : b.store.Settled names q.1) (hne : q.1 ≠ k)
    (hcov : q.2 = .body → b.store.Covers q.1 e) (hsees : q.2.sees = true)
    (h : Unguarded b e q → ∀ x ∈ (b.statements.get q.1).aliases,
      same (names.symbols.get x).currentName (names.symbols.get e).currentName = false) :
    ∀ x ∈ (b.statements.get q.1).aliases,
      same (names.symbols.get x).currentName (names.symbols.get e).currentName = false := by
  obtain ⟨l, v⟩ := q
  cases v with
  | enclosed => cases hsees
  | source => exact h (.source l)
  | body =>
    by_cases hjoin : (b.statements.get l).joinExtents = some []
    · exact h (.noInputs l hjoin)
    · obtain ⟨x, hx, hreach⟩ := hcov rfl
      by_cases hall : ∀ y ∈ (b.statements.get l).outerExtents, b.names.symbols.Reaches y e →
          (b.names.symbols.get y).showsNames = false
      · exact h (.hidden l x hx hreach hall)
      · push Not at hall
        obtain ⟨y, hy, hreach, hshows⟩ := hall
        intro z hz
        have hshows : (b.names.symbols.get y).showsNames = true := by simpa using hshows
        refine apart_of_recorded hok hr hq hjoin he hy hreach hshows hz ?_
        rintro rfl
        exact hne (hok.unique l k z hz he)

theorem append_cons_inj_of_nodup {before' after' : Path} {v' : View}
    (hnodup : ((before ++ (k, v) :: after).map Prod.fst).Nodup)
    (h : before ++ (k, v) :: after = before' ++ (k, v') :: after') : before = before' ∧ v = v' := by
  induction before generalizing before' with
  | nil =>
    cases before' with
    | nil => exact ⟨rfl, by injection h with h; injection h⟩
    | cons q before' =>
      injection h with hq hrest
      rw [hrest] at hnodup
      simp at hnodup
  | cons q before ih =>
    cases before' with
    | nil =>
      injection h with hq hrest
      rw [hq] at hnodup
      simp at hnodup
    | cons q' before' =>
      injection h with hq hrest
      obtain ⟨hb, hv⟩ := ih (nodup_cons.1 hnodup).2 hrest
      exact ⟨by rw [hq, hb], hv⟩

/-- A qualifier means the extent that it was written for if and only if the name is kept free on the
way out to the statement that declares the extent. -/
theorem resolve_iff (hok : b.store.OK) (hr : b.store.Renaming names) (hheld : b.store.Held e path)
    (hnodup : (path.map Prod.fst).Nodup) (hsettled : ∀ q ∈ path, b.store.Settled names q.1)
    (hpath : path = before ++ (k, v) :: after) (he : e ∈ (b.statements.get k).aliases) :
    resolve b.statements names.symbols (names.symbols.get e).currentName path = some e ↔
      KeptFree b names e before v := by
  subst hpath
  constructor
  · intro h
    obtain ⟨before', k', v', after', hpath, hsees, he', hun⟩ := exists_of_resolve h
    obtain rfl := hok.unique k k' e he he'
    obtain ⟨rfl, rfl⟩ := append_cons_inj_of_nodup hnodup hpath
    refine ⟨?_, fun q hq hs _ => hun q hq hs⟩
    rintro rfl
    cases hsees
  · rintro ⟨hv, h⟩
    have hsees : v.sees = true := by cases v <;> [rfl; rfl; exact absurd rfl hv]
    have hapart := fun q (hq : q ∈ before) (hs : q.2.sees = true) =>
      unnamed_of_unguarded hok hr he (hsettled q (mem_append_left _ hq)) (fun hqk => by
        rw [map_append, nodup_append] at hnodup
        exact hnodup.2.2 q.1 (mem_map_of_mem hq) k (by simp) hqk)
        (covers_of_held hok he hnodup hheld q hq) hs (h q hq hs)
    rw [resolve_append hapart]
    exact resolve_declared hsees he (same_refl _) fun x hx hne =>
      apart_of_declared hok hr (hsettled (k, v) (by simp)) he hx hne

/-- What a compiled query was written from: the plan of the query and the names that were settled
while its text was written. -/
structure WrittenFrom (config : Config) (query : Expr) (compiled : CompiledQuery) (f : Fragment) (b : Build)
    (names : Names) : Prop where
  plan : Query.plan config query = .ok (f, b)
  settled : (renderParts b.statements b.names [f.toPart]).2 = names
  text : compiled.text = Layout.render config.pretty (Writing.text b.statements.written names.symbols [f.toPart])

theorem exists_of_compile {compiled : CompiledQuery} (h : Query.compile config query = .ok compiled) :
    ∃ f b pieces names, Query.plan config query = .ok (f, b) ∧
      renderParts b.statements b.names [f.toPart] = (.ok pieces, names) ∧
      compiled = ⟨Layout.render config.pretty pieces, Query.columns b.statements names.symbols f⟩ := by
  unfold Query.compile at h
  cases hp : Query.plan config query with
  | error e => rw [hp] at h; cases h
  | ok r =>
    obtain ⟨f, b⟩ := r
    rw [hp] at h
    cases hr : renderParts b.statements b.names [f.toPart] with
    | mk pieces names =>
      cases pieces with
      | error e => simp only [bind, Except.bind, hr] at h; cases h
      | ok pieces =>
        simp only [bind, Except.bind, hr] at h
        exact ⟨f, b, pieces, names, rfl, hr, (Except.ok.inj h).symm⟩

theorem writtenFrom_of_compile {compiled : CompiledQuery} (h : Query.compile config query = .ok compiled) :
    ∃ f b names, WrittenFrom config query compiled f b names ∧ b.store.OK ∧ b.store.Renaming names ∧
      Sound b.store 0 [] [f.toPart] ∧
      ∀ j, Occurs b.statements.written [f.toPart] j → b.store.Settled names j := by
  obtain ⟨f, b, pieces, names, hp, hr, rfl⟩ := exists_of_compile h
  obtain ⟨hok, hs⟩ := Query.plan_sound hp
  obtain ⟨hn, htext, hsettled, -⟩ := Render.renderParts_spec hok hs hr
  exact ⟨f, b, names, ⟨hp, by rw [hr], by rw [htext]; rfl⟩, hok, hn, hs, hsettled⟩

end

/-! ## References that can be listed -/

/-- The references of parts, down to a depth of nested statements. -/
def references (statements : Statements) : Nat → List Part → List (Path × SymbolId)
  | 0, _ => []
  | depth + 1, ps => (atoms ps).flatMap fun
    | .symbol e => [([], e)]
    | .statement j => [View.body, View.source, View.enclosed].flatMap fun v =>
      (references statements depth ((statements.get j).place v)).map fun r => (r.1 ++ [(j, v)], r.2)
    | _ => []

theorem refers_of_mem_references {statements : Statements} : ∀ {depth : Nat} {ps : List Part} {path : Path}
    {e : SymbolId}, (path, e) ∈ references statements depth ps → Refers statements ps path e
  | depth + 1, ps, path, e, h => by
    obtain ⟨p, hp, h⟩ := mem_flatMap.1 h
    cases p with
    | symbol x =>
      injection mem_singleton.1 h with hpath he
      rw [hpath, he]; exact .here hp
    | statement j =>
      obtain ⟨v, -, h⟩ := mem_flatMap.1 h
      obtain ⟨⟨inner, x⟩, hr, hx⟩ := mem_map.1 h
      injection hx with hpath he
      rw [← hpath, ← he]
      exact .within v hp (refers_of_mem_references hr)
    | text t => cases h
    | line => cases h
    | group qs => cases h

/-- The qualifiers of a query that mean another extent than the one that they were written for. -/
def captures (config : Config) (query : Expr) (depth : Nat) : List (Path × SymbolId) :=
  match Query.plan config query with
  | .error _ => []
  | .ok (f, b) =>
    let symbols := (renderParts b.statements b.names [f.toPart]).2.symbols
    (references b.statements.written depth [f.toPart]).filter fun r =>
      (b.names.symbols.get r.2).stands && resolve b.statements symbols (symbols.get r.2).currentName r.1 != some r.2

theorem exists_of_captures {depth : Nat} (h : captures config query depth ≠ []) :
    ∃ f b, Query.plan config query = .ok (f, b) ∧ ∃ path e, Qualifies b f path e ∧
      resolve b.statements (renderParts b.statements b.names [f.toPart]).2.symbols
        ((renderParts b.statements b.names [f.toPart]).2.symbols.get e).currentName path ≠ some e := by
  obtain ⟨⟨path, e⟩, hmem⟩ := exists_mem_of_ne_nil _ h
  unfold captures at hmem
  cases hp : Query.plan config query with
  | error err => rw [hp] at hmem; cases hmem
  | ok r =>
    obtain ⟨f, b⟩ := r
    rw [hp] at hmem
    obtain ⟨href, hc⟩ := mem_filter.1 hmem
    rw [Bool.and_eq_true, bne_iff_ne] at hc
    exact ⟨f, b, rfl, path, e, ⟨refers_of_mem_references href, hc.1⟩, hc.2⟩

/-! ## Queries and their qualifiers -/

/-- Every qualifier in the text of a query stands inside the statement that declares its extent, and
it means that extent if and only if the name is kept free on the way there. -/
theorem compile_qualifier_resolves_iff {config : Config} {query : Expr} {compiled : CompiledQuery}
    (h : Query.compile config query = .ok compiled) :
    ∃ f b names, WrittenFrom config query compiled f b names ∧
      ∀ path e, Qualifies b f path e →
        ∃ before k v after, path = before ++ (k, v) :: after ∧ e ∈ (b.statements.get k).aliases ∧
          (resolve b.statements names.symbols (names.symbols.get e).currentName path = some e ↔
            KeptFree b names e before v) := by
  obtain ⟨f, b, names, hwritten, hok, hn, hs, hsettled⟩ := writtenFrom_of_compile h
  refine ⟨f, b, names, hwritten, fun path e ⟨href, hstands⟩ => ?_⟩
  have href' := href.of_written
  have hheld := hs.held path e href' hstands
  rw [List.append_nil] at hheld
  obtain ⟨before, k, v, after, hpath, he⟩ := exists_declared hheld
  exact ⟨before, k, v, after, hpath, he, resolve_iff hok hn hheld (href'.nodup hok)
    (fun q hq => hsettled q.1 (href.occurs q hq)) hpath he⟩

/-- A table with one column. -/
def keyed (name : String) : Expr := .scan { name, members := [("k", .scalar .int32)] }

/-- Two rows of such tables have the same key. -/
def sameKey (left right : Expr) : Expr := .compare .eq (.property left "k") (.property right "k")

/-- The rows of two tables that have the same key. -/
def keyPairs : Expr :=
  .join .inner ((keyed "p").bind "a") ((keyed "t").bind "b")
    (sameKey (.var "a" (keyed "p").rowType) (.var "b" (keyed "t").rowType))

/-- No row of `t`, here called `a` like the left side of the pair, has the key of that side. -/
def noSuchKey : Expr :=
  .isEmpty (.filter ((keyed "t").bind "a")
    (sameKey (.var "a" (keyed "t").rowType) (.property (.var "j" keyPairs.rowType) "a")))

def filteredPairs : Expr := .filter (keyPairs.bind "j") noSuchKey

def joinedPairs : Expr := .join .inner (keyPairs.bind "j") ((keyed "v").bind "c") noSuchKey

theorem filteredPairs_compiled : Query.compile {} filteredPairs = .ok
    ⟨"SELECT a.k AS k1, b.k AS k2 FROM p AS a INNER JOIN t AS b ON a.k = b.k " ++
      "WHERE NOT EXISTS (SELECT a1.k AS k FROM t AS a1 WHERE a1.k = a.k)", ["k1", "k2"]⟩ :=
  ok_of_toOption (by decide +kernel)

/-- In a filter over the join the inner alias is renamed, and each qualifier finds its extent. -/
theorem filteredPairs_qualifiers :
    ∃ compiled, Query.compile {} filteredPairs = .ok compiled ∧
      compiled.text = "SELECT a.k AS k1, b.k AS k2 FROM p AS a INNER JOIN t AS b ON a.k = b.k " ++
        "WHERE NOT EXISTS (SELECT a1.k AS k FROM t AS a1 WHERE a1.k = a.k)" ∧
      ∃ f b names, WrittenFrom {} filteredPairs compiled f b names ∧
        ∀ path e, Qualifies b f path e → ∃ before k v after, path = before ++ (k, v) :: after ∧
          (resolve b.statements names.symbols (names.symbols.get e).currentName path = some e ↔
            KeptFree b names e before v) := by
  obtain ⟨f, b, names, hwritten, hall⟩ := compile_qualifier_resolves_iff filteredPairs_compiled
  refine ⟨_, filteredPairs_compiled, rfl, f, b, names, hwritten, fun path e hq => ?_⟩
  obtain ⟨before, k, v, after, hpath, -, hiff⟩ := hall path e hq
  exact ⟨before, k, v, after, hpath, hiff⟩

/-- In the condition of a join around the join the alias stays, and hides the extent that the
condition refers to. -/
theorem joinedPairs_captures :
    Query.compile {} joinedPairs = .ok
      ⟨"SELECT a.k AS k1, b.k AS k2, c.k AS k3 FROM p AS a INNER JOIN t AS b ON a.k = b.k " ++
        "INNER JOIN v AS c ON NOT EXISTS (SELECT a.k AS k FROM t AS a WHERE a.k = a.k)", ["k1", "k2", "k3"]⟩ ∧
    ∃ f b, Query.plan {} joinedPairs = .ok (f, b) ∧ ∃ path e, Qualifies b f path e ∧
      resolve b.statements (renderParts b.statements b.names [f.toPart]).2.symbols
        ((renderParts b.statements b.names [f.toPart]).2.symbols.get e).currentName path ≠ some e := by
  have hcaptures : captures {} joinedPairs 4 ≠ [] := by decide +kernel
  exact ⟨ok_of_toOption (by decide +kernel), exists_of_captures hcaptures⟩

/-! ## Listed extents -/

/-- The extents that are listed for a join stand in `FROM` lists, each under its own alias: a join among them is nested.
A list that a flat join has is complete. -/
theorem flattened_stand {config : Config} {query : Expr} {f : Fragment} {b : Build} {i : SymbolId} {join : JoinInfo}
    (h : Query.plan config query = .ok (f, b)) (hj : (b.names.symbols.get i).join = some join) :
    (∀ y ∈ join.flattened, (b.names.symbols.get y).isJoin = (b.names.symbols.get y).join.any JoinInfo.nested) ∧
    (join.nested = false → join.flattened ≠ [] → ∀ e, b.names.symbols.Reaches i e → e ∈ join.flattened) := by
  have hok := (Query.plan_sound h).1.symbols.joins i join hj
  refine ⟨fun y hy => ?_, fun hn hne e he => ?_⟩
  · have hflat : (b.names.symbols.get y).isFlat = false := Symbol.isFlat_of_stands (hok.flattened y hy).2
    cases hinner : (b.names.symbols.get y).join <;> simp_all [Symbol.isFlat, Symbol.isJoin]
  · obtain ⟨z, hz, he⟩ := (reaches_of_flat hj hn).1 he
    exact hok.complete hn hne z hz e he

/-- The two tables are listed for the join of the pairs. -/
theorem filteredPairs_flattened : ∃ f b join, Query.plan {} filteredPairs = .ok (f, b) ∧
    (b.names.symbols.get 2).join = some join ∧ join.flattened = [0, 1] ∧
    ∀ e, b.names.symbols.Reaches 2 e → e ∈ join.flattened := by
  have h : (Query.plan {} filteredPairs).toOption.any (fun r => (r.2.names.symbols.get 2).join ==
      some { extents := [0, 1], flattened := [0, 1] }) = true := by decide +kernel
  obtain ⟨⟨f, b⟩, hplan, hjoin⟩ := (Option.any_eq_true _ _).1 h
  have hjoin := beq_iff_eq.1 hjoin
  exact ⟨f, b, _, ok_of_toOption hplan, hjoin, rfl, (flattened_stand (ok_of_toOption hplan) hjoin).2 rfl (by simp)⟩

/-- A table beside the pairs, where no row of `t`, here called like the pairs, has the key of that table. -/
def besidePairs : Expr :=
  let rows : Expr := .crossJoin [(keyed "v").bind "c", keyPairs.bind "n"]
  .filter (rows.bind "j") (.isEmpty (.filter ((keyed "t").bind "n")
    (sameKey (.var "n" (keyed "t").rowType) (.property (.var "j" rows.rowType) "c"))))

/-- The pairs are a nested join and are listed beside the table. -/
theorem besidePairs_list_join : ∃ f b join y, Query.plan {} besidePairs = .ok (f, b) ∧
    (b.names.symbols.get 6).join = some join ∧ y ∈ join.flattened ∧ (b.names.symbols.get y).isJoin = true := by
  have h : (Query.plan {} besidePairs).toOption.any (fun r => (r.2.names.symbols.get 6).join ==
      some { extents := [0, 5], flattened := [0, 5] } && (r.2.names.symbols.get 5).isJoin) = true := by decide +kernel
  obtain ⟨⟨f, b⟩, hplan, hb⟩ := (Option.any_eq_true _ _).1 h
  obtain ⟨hjoin, hnested⟩ := Bool.and_eq_true_iff.1 hb
  exact ⟨f, b, _, 5, ok_of_toOption hplan, beq_iff_eq.1 hjoin, by simp, hnested⟩

end RelSql
