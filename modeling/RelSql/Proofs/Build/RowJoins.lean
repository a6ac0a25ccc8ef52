/-
Joins keep columns within reach. While a join is built, each of its inputs so far is an extent that
shows the rows of the input, under the name of its variable, and is in scope for the inputs that
follow and for the condition. A join in first place leaves its inputs behind as one flat join.
-/
import RelSql.Proofs.Build.Joins
import RelSql.Proofs.Build.RowOperators
import RelSql.Proofs.Build.Variables

namespace RelSql

open RelSql.Part Statement Ident List

open Build (SourceFollows withInput)

/-- The variable of an input with its type. -/
def Binding.member {ε : Type} (b : Binding ε) : Member := (b.var, b.type)

namespace Store

variable {σ τ : Store} {i : StatementId} {x : SymbolId} {m : Member} {inputs : List Member}

/-! ## Inputs of a join -/

/-- The extent shows the rows of an input under the name of its variable. -/
structure ShowsInput (σ : Store) (m : Member) (x : SymbolId) : Prop where
  name : (σ.symbols.get x).name = m.1
  row : (σ.symbols.get x).isPrimitive = false
  views : σ.Views x m.2
  starred : ∀ e, σ.symbols.Reaches x e → σ.Starred e

theorem ShowsInput.lasts (h : σ.ShowsInput m x) (hok : σ.OK) (hok' : τ.OK) (hl : Lasts σ τ) : τ.ShowsInput m x := by
  have hg := hl.symbols.symbol x h.views.lt
  refine ⟨by rw [hg.name]; exact h.name, ?_, h.views.lasts hok hok' hl, fun e he => ?_⟩
  · have hrow := h.row
    unfold Symbol.isPrimitive at hrow ⊢
    rw [hg.type]; exact hrow
  · have he' := he.of_grows hok.symbols hl.symbols h.views.lt
    exact (h.starred e he').lasts (lt_of_le_of_lt (he'.le hok.symbols) h.views.lt) hok hok' hl

theorem shown_input {xs : List SymbolId} (h : List.Forall₂ σ.ShowsInput inputs xs) (hx : x ∈ xs) :
    ∃ m ∈ inputs, σ.ShowsInput m x := by
  induction h with
  | nil => cases hx
  | @cons a y inputs xs ha _ ih =>
    rcases mem_cons.1 hx with rfl | hx
    · exact ⟨a, mem_cons_self, ha⟩
    · obtain ⟨m, hm, hshow⟩ := ih hx
      exact ⟨m, mem_cons_of_mem _ hm, hshow⟩

/-- Inputs with different names are found by them, from either end. -/
theorem joinInput?_of_inputs {xs : List SymbolId} (h : List.Forall₂ σ.ShowsInput inputs xs)
    (hd : inputs.Pairwise fun a b => same a.1 b.1 = false) {n : String} (hm : findMember? inputs n = some m) :
    ∃ x, σ.symbols.joinInput? { extents := xs } n = some x ∧ σ.ShowsInput m x := by
  unfold Symbols.joinInput?
  change ∃ x, xs.reverse.find? _ = some x ∧ _
  induction h with
  | nil => cases hm
  | @cons a x inputs xs ha hrest ih =>
    obtain ⟨hhead, htail⟩ := pairwise_cons.1 hd
    rw [reverse_cons, find?_append]
    rw [findMember?, find?_cons] at hm
    split at hm
    · rename_i hsame
      obtain rfl := Option.some.inj hm
      -- no later input has the name
      have hnone : xs.reverse.find? (fun e => same (σ.symbols.get e).name n) = none := by
        rw [find?_eq_none]
        intro e he hsame'
        obtain ⟨b, hb, hshow⟩ := shown_input hrest (mem_reverse.1 he)
        rw [hshow.name] at hsame'
        have hboth : same a.1 b.1 = true :=
          same_iff.2 ((same_iff.1 hsame).trans (same_iff.1 hsame').symm)
        rw [hhead b hb] at hboth; cases hboth
      refine ⟨x, ?_, ha⟩
      rw [hnone, find?_cons, ha.name, hsame]; rfl
    · obtain ⟨y, hy, hshow⟩ := ih htail hm
      exact ⟨y, by rw [hy]; rfl, hshow⟩

/-- A statement whose extents show the inputs of a join shows its rows. -/
theorem joinRows_of_inputs (hs : (σ.get i).selectList = []) (h : List.Forall₂ σ.ShowsInput inputs (σ.get i).fromExtents)
    (hd : inputs.Pairwise fun a b => same a.1 b.1 = false) (htwo : 2 ≤ inputs.length) :
    σ.JoinRows i (.row inputs) := by
  refine ⟨hs, by rw [← h.length_eq]; exact htwo, fun x hx => ?_, ?_⟩
  · obtain ⟨m, -, hshow⟩ := shown_input h hx
    exact hshow.starred
  · refine ⟨fun n => (σ.symbols.joinInput? { extents := (σ.get i).fromExtents } n).getD 0, fun n m hm => ?_⟩
    obtain ⟨x, hx, hshow⟩ := joinInput?_of_inputs h hd hm
    simp only [hx, Option.getD_some]
    exact ⟨trivial, hshow.row, hshow.views⟩

/-- More text behind the `FROM` list keeps the invariant, if it declares no alias. -/
theorem ColumnsOK.append_from {f : Statement → Statement} {new : List Part} (hc : σ.ColumnsOK) (hok : σ.OK)
    (hok' : (σ.modify i f).OK) (hi : i < σ.size) (hf : f (σ.get i) = { σ.get i with fromList := (σ.get i).fromList ++ new })
    (hs : (σ.get i).selectList = []) (ha : (f (σ.get i)).aliases = (σ.get i).aliases)
    (hnew : σ.Legible ((σ.get i).fromList ++ new)) : (σ.modify i f).ColumnsOK ∧ Lasts σ (σ.modify i f) := by
  have hl : Lasts σ (σ.modify i f) :=
    lasts_modify (fun hne => absurd hs hne) (by rw [hf]; exact prefix_append _ _)
  have hreads : ∀ ps ∈ (f (σ.get i)).clauses, σ.Legible ps := by
    obtain ⟨hselect, -, hrest⟩ := forall_mem_clauses.1 (hc.reads i)
    rw [hf]
    exact forall_mem_clauses.2 ⟨hselect, hnew, hrest⟩
  refine ⟨hc.modify hok hok' hi hl (fun c hmem => ?_) (fun y hy hno => ?_) (fun l hfrom => Or.inl ?_)
    fun ps hps => (hreads ps hps).lasts hok hok' hl, hl⟩
  · rw [exposed_of_select_nil (by rw [hf]; exact hs)] at hmem; cases hmem
  · rw [ha] at hy; exact absurd hy hno
  · rw [hf] at hfrom; exact hfrom

end Store

namespace Build

open Store

/-! ## Sources -/

section

variable {σ : Store} {path : Path} {b b' b1 : Build} {i sub : StatementId} {e : Expr} {ty : DataType}
  {join : Option JoinInfo} {pending pending' : StatementId → Prop}

theorem Bridges.appended {τ : Store} (h : Bridges σ pending ty join) (hl : Lasts σ τ) (hs : τ.symbols = σ.symbols)
    (hx : ∀ k, (τ.get k).fromExtents = (σ.get k).fromExtents) (hp : ∀ j, pending' j → pending j) :
    Bridges τ pending' ty join := by
  cases join with
  | none => exact ⟨h.1, fun j hj => (h.2 j (hp j hj)).lasts hl⟩
  | some join =>
    obtain ⟨hn, hap, hin, hcols⟩ := h
    refine ⟨hn, fun c hc k l key hf => ?_, by rw [hs]; exact hin, fun j hj c hc => hl.exposed (hcols j (hp j hj) c hc)⟩
    rw [hx] at hf
    rw [hs]; exact hap c hc k l key hf

/-- A join with a statement of its own, nested now: its inputs are found in the columns of its star. -/
theorem joinRows_bridges {columns : List SymbolId} (h : Owns σ path b.store sub) (hc : b.store.ColumnsOK)
    (hrows : b.store.JoinRows sub ty) (hsel : Runs (selectAll sub) b columns b') : b'.store.ColumnsOK ∧
      Bridges b'.store (· = sub) ty (some { extents := (b'.store.get sub).fromExtents, columns, nested := true }) := by
  obtain ⟨h', -, -, hfrom, -⟩ := selectAll_spec h hrows.select hsel
  obtain ⟨hc', hl, hne, hexp, hcov⟩ := selectAll_columns h hc hrows.select hrows.starred hsel
  have hmem : ∀ c ∈ columns, .symbol c ∈ (b'.store.get sub).exposed :=
    fun c hc => by rw [hexp]; exact mem_map_of_mem hc
  have hlt : ∀ y ∈ (b.store.get sub).fromExtents, y < b.store.symbols.size :=
    fun y hy => ((h.ok.statement sub).fromExtents y hy).lt
  obtain ⟨input, hin⟩ := hrows.inputs
  refine ⟨hc', rfl, apart_of_exposed hc' h'.ok (fun l hl' => ?_) hmem, ⟨input, fun n m hm => ?_⟩,
    fun j hj c hc => by rw [hj]; exact hmem c hc⟩
  · have htwo := hrows.several
    rw [← hfrom, hl'] at htwo
    simp at htwo
  · obtain ⟨hfound, -, hv⟩ := hin n m hm
    have hy : input n ∈ (b.store.get sub).fromExtents := mem_reverse.1 (mem_of_find?_eq_some hfound)
    refine ⟨?_, hv.through h.ok.symbols hl.symbols hv.lt fun e he => hcov e (mem_flatMap.2 ⟨input n, hy, he⟩)⟩
    rw [hfrom]
    exact (Symbols.joinInput?_eq hl.symbols hlt).trans hfound

/-- An input with a statement of its own becomes a subselect that exposes its rows. -/
theorem subselectJoin?_bridges (h : Owns σ path b.store sub) (hc : b.store.ColumnsOK) (hrow : ty.isRow = true)
    (ha : e.isApply = false) (hd : b.store.Delivers e ty (.statement sub)) (hr : Runs (subselectJoin? sub e) b join b') :
    b'.store.ColumnsOK ∧ Bridges b'.store (· = sub) ty join := by
  simp only [subselectJoin?, runs_bind, runs_statement, runs_ite, runs_pure, and_assoc, exists_and_left,
    exists_eq_left, ha, Bool.or_false] at hr
  rcases hr with ⟨hempty, columns, b1, hsel, hr⟩ | ⟨hne, rfl, rfl⟩
  · obtain ⟨h1, -, hcol, -, hu⟩ := selectAll_spec h (isEmpty_iff.1 hempty) hsel
    cases hd with
    | rows hrows hj =>
      obtain ⟨-, hr⟩ := hr.resolve_left fun hh => by rw [hj] at hh; cases hh.1
      cases hrows with
      | closed _ hs _ => exact absurd (isEmpty_iff.1 hempty) hs
      | opened hx hs hv hstar =>
        obtain ⟨hc1, -, hne, hx1, hexp, ht⟩ := selectAll_through h hc hx hs hv hstar hsel
        obtain ⟨rfl, -⟩ := nestedJoin?_spec h1.ok hcol hu hr
        exact ⟨hc1, nestedJoin?_bridges h1.ok hc1 hrow hx1 hne hexp ht hr⟩
    | source hx _ _ _ _ => exact absurd hsel (not_runs_selectAll hx)
    | joined hrows hj =>
      obtain ⟨-, rfl, rfl⟩ := hr.resolve_right fun hh => hh.1 hj
      exact joinRows_bridges h hc hrows hsel
  -- with a select list of its own the subselect supplies its rows already
  · have hs : (b'.store.get sub).selectList ≠ [] := fun hs => hne (isEmpty_iff.2 hs)
    refine ⟨hc, hrow, fun j hj => ?_⟩
    rw [hj]
    cases hd with
    | rows hrows _ =>
      cases hrows with
      | closed _ _ hsup => exact hsup
      | opened _ hs' _ _ => exact absurd hs' hs
    | source _ hs' _ _ _ => exact absurd hs' hs
    | joined hrows _ => exact absurd hrows.select hs

theorem SourceFollows.legible {s : Statement} {ps : List Part} (h : SourceFollows s) (hs : σ.Legible s.fromList)
    (hp : σ.Legible ps) : σ.Legible (s.fromList ++ ps) := by
  rcases h with h | ⟨qs, h⟩
  · rw [h]; exact hp
  · rw [h] at hs ⊢; exact Part.ReadsOnly.append_after hs hp

/-- The source of an input, written behind the `FROM` list of the join. -/
theorem source_columns {item : FromItem} {new : List Part} (hok : b.store.OK) (hok' : b'.store.OK) (hi : i < b.store.size)
    (hc : b.store.ColumnsOK) (hs : (b.store.get i).selectList = []) (hend : SourceFollows (b.store.get i))
    (hb' : b' = { b with statements := b.statements.modify i fun s => { s with fromList := s.fromList ++ new } })
    (hitems : ({ b.store.get i with fromList := (b.store.get i).fromList ++ new } : Statement).fromItems =
      (b.store.get i).fromItems ++ [item]) (hitem : item.named? = none) (hnew : b.store.Legible new)
    (hbridge : Bridges b.store (fun j => ∃ p : Part, item = .enclosed p ∧ p.subselect? = some j) ty join) :
    b'.store.ColumnsOK ∧ Lasts b.store b'.store ∧ Bridges b'.store (b'.store.get i).Pending ty join ∧
      (b'.store.get i).selectList = [] ∧ (b'.store.get i).fromExtents = (b.store.get i).fromExtents := by
  rw [store_update hb'] at hok' ⊢
  have halias : ({ b.store.get i with fromList := (b.store.get i).fromList ++ new } : Statement).aliases =
      (b.store.get i).aliases := by
    unfold aliases
    rw [hitems, filterMap_append, filterMap_cons, hitem]
    exact append_nil _
  obtain ⟨hc', hl⟩ := hc.append_from hok hok' hi rfl hs halias
    (hend.legible (forall_mem_clauses.1 (hc.reads i)).2.1 hnew)
  refine ⟨hc', hl, hbridge.appended hl rfl (fun k => ?_) (fun j hj => ?_), ?_, ?_⟩
  · rw [get_modify]
    split <;> rfl
  · obtain ⟨p, hsub, hsuf⟩ := hj
    rw [get_modify_self hi] at hsuf
    exact ⟨p, endsWith_concat hitems hsuf, hsub⟩
  · rw [get_modify_self hi]; exact hs
  · rw [get_modify_self hi]

/-- A text that is written as a source is one item of the list, with parentheses or without. -/
theorem exists_sourceItem {s : Statement} (e : Expr) (f : Fragment) (hopen : SourceFollows s) : ∃ item : FromItem,
    ({ s with fromList := s.fromList ++
        (if e.isScan then [f.toPart] else sourceParts e.isCall f) } : Statement).fromItems =
      s.fromItems ++ [item] ∧ item.named? = none ∧ ∀ p, item = .enclosed p → p = f.toPart ∧ e.isCall = false := by
  obtain ⟨ht, hl⟩ := toPart_ne f
  unfold sourceParts
  split
  · exact ⟨_, fromItems_plain _ _ ht hl hopen.lastText, rfl, nofun⟩
  · split
    · exact ⟨_, fromItems_plain _ _ ht hl hopen.lastText, rfl, nofun⟩
    · rename_i hcall
      exact ⟨_, fromItems_enclosed _ _ ht hl, rfl,
        fun p hp => ⟨(FromItem.enclosed.inj hp).symm, Bool.eq_false_iff.2 hcall⟩⟩

theorem writeSource_columns {outer : List StatementId} {frames : List (List (String × SymbolId))} {f : Fragment}
    (h : Joining σ outer frames b i) (hopen : SourceFollows (b.store.get i)) (hs : Step b b1)
    (hf : FragmentSound b1.store b.store.size (around b.building) f) (hsel : (b.store.get i).selectList = [])
    (hc : b1.store.ColumnsOK) (hrow : ty.isRow = true)
    (ha : e.isApply = false) (hd : b1.store.Delivers e ty f) (hr : Runs (writeSource i e f) b1 join b') :
    b'.store.ColumnsOK ∧ Lasts b.store b'.store ∧ Bridges b'.store (b'.store.get i).Pending ty join ∧
      (b'.store.get i).selectList = [] ∧ (b'.store.get i).fromExtents = (b.store.get i).fromExtents := by
  have hok' := (writeSource_spec h hopen hs hf hr).1.owns.ok
  have hlt : ∀ {b2 : Build}, Store.Grows b.store.size b.store b2.store → i < b2.store.size :=
    fun hg => lt_of_lt_of_le h.owns.lt hg.size
  rcases writeSource_cases hr with ⟨sub, b2, rfl, hsub, hb'⟩ | ⟨rfl, hne, hb'⟩
  · have ho : Owns b.store (around b.building) b1.store sub := ⟨hs.store, hs.grows, hf⟩
    obtain ⟨ho2, -, -⟩ := subselectJoin?_spec ho hsub
    obtain ⟨hc2, hbridge⟩ := subselectJoin?_bridges ho hc hrow ha hd hsub
    have hsame := ho2.grows.text i h.owns.lt
    have hsub' : ∀ j, (∃ p : Part, FromItem.enclosed (.statement sub) = .enclosed p ∧ p.subselect? = some j) → j = sub := by
      rintro j ⟨p, hp, hj⟩
      obtain rfl := FromItem.enclosed.inj hp
      exact (Option.some.inj hj).symm
    obtain ⟨hc', hl, hbridge', hsel', hx'⟩ := source_columns ho2.ok hok' (hlt ho2.grows) hc2
      (hsame.selectList.trans hsel) (hopen.grows h.owns.lt ho2.grows) hb'
      (fromItems_enclosed _ _ (by simp) (by simp)) rfl
      (readsOnly_text.2 (readsOnly_statement.2 (readsOnly_text.2 readsOnly_nil)))
      (hbridge.appended (.refl _) rfl (fun _ => rfl) hsub')
    exact ⟨hc', ho2.grows.lasts.trans hl, hbridge', hsel', hx'.trans hsame.fromExtents⟩
  · have hsame := hs.grows.text i h.owns.lt
    have hopen1 := hopen.grows h.owns.lt hs.grows
    cases hd with
    | @parts ps hl hp _ _ =>
      obtain ⟨item, hitems, hnone, henclosed⟩ := exists_sourceItem e (.parts ps) hopen1
      have hlegible : b1.store.Legible
          (if e.isScan then [(Fragment.parts ps).toPart] else sourceParts e.isCall (.parts ps)) := by
        split
        · exact legible_group.2 hl
        · exact legible_sourceParts _ hl
      have hbridge : Bridges b1.store (fun j => ∃ p : Part, item = .enclosed p ∧ p.subselect? = some j) ty none :=
        ⟨hrow, fun j hj => by obtain ⟨p, hitem, hj⟩ := hj; rw [(henclosed p hitem).1] at hj; exact hp j hj⟩
      obtain ⟨hc', hl', hrest⟩ := source_columns hs.store hok' (hlt hs.grows) hc (hsame.selectList.trans hsel)
        hopen1 hb' hitems hnone hlegible hbridge
      exact ⟨hc', hs.grows.lasts.trans hl', hrest.1, hrest.2.1, hrest.2.2.trans hsame.fromExtents⟩
    | _ => exact absurd rfl (hne _)

end

/-! ## One input -/

section

variable {σ start : Store} {outer : List StatementId} {frames : List (List (String × SymbolId))} {vars shown : List Member}
  {b b' b1 : Build} {i : StatementId} {input : Binding Operand} {f : Fragment} {u : PUnit}

/-- The extents of the join show the inputs that it has so far, and their variables are in scope. What
was there at the start lasts. -/
structure JoinShows (start : Store) (vars shown : List Member) (b : Build) (i : StatementId) : Prop where
  later : Lasts start b.store
  columns : b.store.ColumnsOK
  select : (b.store.get i).selectList = []
  inputs : List.Forall₂ b.store.ShowsInput shown (b.store.get i).fromExtents
  bound : Scoped (shown.reverse ++ vars) b

/-- An input with an extent of its own is shown by it. -/
theorem adjoin_columns (h : Joining σ outer frames b i) (hopen : SourceFollows (b.store.get i))
    (hshows : JoinShows start vars shown b i) (hs : Step b b1)
    (hf : FragmentSound b1.store b.store.size (around b.building) f) (hc : b1.store.ColumnsOK)
    (hrow : input.type.isRow = true) (ha : input.expr.expr.isApply = false)
    (hd : b1.store.Delivers input.expr.expr input.type f) (hr : Runs (adjoin i input f) b1 u b') :
    JoinShows start vars (shown ++ [input.member]) b' i := by
  have hok' := (adjoin_spec h hopen hs hf hr).1.owns.ok
  simp only [adjoin, runs_bind, runs_bindVariable, runs_updateStatement] at hr
  obtain ⟨join, b2, hwrite, x, b3, hx, _, b4, hdecl, -, b5, rfl, hb'⟩ := hr
  obtain ⟨h2, -, hjoin⟩ := writeSource_spec h hopen hs hf hwrite
  obtain ⟨hc2, hl2, hbridge, hsel2, hx2⟩ := writeSource_columns h hopen hs hf hshows.select hc hrow ha hd hwrite
  obtain ⟨hn, hfresh⟩ := newExtent_spec hx h2.owns.ok hjoin
  obtain ⟨hc3, hl3, hunused, hpros⟩ := newExtent_columns hc2 h2.owns.ok hjoin hbridge hx
  obtain ⟨hname, htype⟩ : (b3.store.symbols.get x).name = input.var ∧ (b3.store.symbols.get x).type = some input.type := by
    rw [newExtent_symbol hx]
    cases join <;> exact ⟨rfl, rfl⟩
  obtain ⟨hstore, hscopes, -, -⟩ := declareInput_store hn.store hfresh hdecl hb'
  have hreg := (registered_spec hn.store x).1
  have hget : (b3.registered x).store.get i = b2.store.get i := (hreg.get i).trans (hn.get i)
  have hlt : i < (b3.registered x).store.size := lt_of_lt_of_le h2.owns.lt (hn.grows.size.trans hreg.grows.size)
  have hpros' : (b3.registered x).store.Prospect ((b3.registered x).store.get i).Pending x input.type := by
    rw [hget]; exact prospect_registered hpros
  rw [hstore] at hok'
  obtain ⟨hc', hl'⟩ := (registered_columns hc3 hn.store x).declare hreg.store hok' hlt rfl (by rw [hget]; exact hsel2)
    (unused_registered hunused) hpros'.columns
  -- what the new extent promised before it was declared, it shows now
  obtain ⟨hv, hstar⟩ := hpros'.views hlt rfl (unused_registered hunused) hl'
  have hlast := hl2.trans (hl3.trans (hreg.grows.lasts.trans hl'))
  rw [← hstore] at hok' hc' hv hstar hlast
  have hgi : b'.store.get i = withInput x (b2.store.get i) := by
    rw [hstore, get_modify_self hlt, hget]
  refine ⟨hshows.later.trans hlast, hc', by rw [hgi]; exact hsel2, ?_, ?_⟩
  · rw [hgi]
    change List.Forall₂ _ _ ((b2.store.get i).fromExtents ++ [x])
    rw [hx2]
    have hnew : b'.store.ShowsInput input.member x := by
      rw [hstore] at hv hstar ⊢
      exact ⟨hname, isPrimitive_of_row htype hrow, hv, hstar⟩
    exact rel_append (hshows.inputs.imp fun _ _ hm => hm.lasts h.owns.ok hok' hlast) (.cons hnew .nil)
  · have hsame : b3.scopes = b.scopes := by
      rw [hn.same.scopes, quietStatements.writeSource i _ f hwrite]
      exact hs.same.scopes
    have hbound : Scoped (shown.reverse ++ vars) { b' with scopes := b.scopes } :=
      hshows.bound.lasts h.owns.ok hok' hlast rfl
    have hadd : Scoped (input.member :: (shown.reverse ++ vars)) { b' with scopes := b.scopes.add input.var x } :=
      hbound.add hv
    rw [← hsame, ← hscopes] at hadd
    rw [reverse_append]; exact hadd

/-- The inputs of a join in first place become one flat join, which shows its rows. -/
theorem absorb_columns (h : Joining σ outer frames b i) (hframe : b.scopes.frames = [] :: frames)
    (hc : b.store.ColumnsOK) (hrows : b.store.JoinRows i input.type) (hrow : input.type.isRow = true)
    (hlater : Lasts start b.store) (hbound : Scoped vars b) (hr : Runs (absorb i input 0) b u b') :
    JoinShows start vars [input.member] b' i := by
  have hok' := (absorb_spec h hframe hr).1.owns.ok
  obtain ⟨b1, hb1, hb', hstore⟩ := absorb_cases hr
  rw [hstore] at hok'
  obtain ⟨hc1, hl, hrows1⟩ := merge_columns h.owns.ok hok' h.owns.lt hc hrows rfl (fun s => rfl) hb1
  have hselect : (b1.store.get i).selectList = [] := by
    have hget := get_modify_self (σ := b.store) h.owns.lt fun s => s.relisted [b.names.symbols.size] s.joinExtents
    rw [hb1]; exact (congrArg selectList hget).trans hrows.select
  obtain ⟨hv, hstar⟩ := hrows1.views hselect
  have hnew : b1.store.symbols.get b.names.symbols.size = .joined input.var input.type
      { extents := (b.store.get i).fromExtents } := by
    rw [hb1]; exact (Symbols.get_push _ _ _).trans (if_pos rfl)
  have hshow : b1.store.ShowsInput input.member b.names.symbols.size :=
    ⟨by rw [hnew]; rfl, isPrimitive_of_row (by rw [hnew]; rfl) hrow, hv, hstar⟩
  refine ⟨by rw [hstore]; exact hlater.trans hl, by rw [hstore]; exact hc1, by rw [hstore]; exact hselect, ?_, ?_⟩
  · rw [hstore, hrows1.extents]; exact .cons hshow .nil
  · have hold : Scoped vars { b1 with scopes := b.scopes } := hbound.lasts h.owns.ok hok' hl rfl
    rw [hb']; exact hold.add hv

/-- The operand continues the statement of the join around it, and leaves the extents of its own
inputs there. -/
def TakenRows (vars : List Member) (operand : Operand) : Prop :=
  ∀ ⦃σ : Store⦄ ⦃outer : List StatementId⦄ ⦃frames : List (List (String × SymbolId))⦄ ⦃b b' : Build⦄
    ⦃i : StatementId⦄ ⦃f : Fragment⦄, Joining σ outer frames b i → Unjoined frames b i → b.inJoin = true →
    b.store.ColumnsOK → Scoped vars b → Runs operand.build b f b' →
    b'.store.ColumnsOK ∧ Lasts b.store b'.store ∧ b'.store.JoinRows i operand.expr.rowType

/-- What a join may assume of an input that is built where the variables are in scope. -/
structure InputReads (vars : List Member) (input : Binding Operand) : Prop where
  ok : JoinInputOK input.expr
  rows : RowsRead vars input.expr
  type : input.type = input.expr.expr.rowType
  unapplied : input.expr.expr.isApply = false
  taken : input.expr.expr.isJoin = true → TakenRows vars input.expr

theorem InputReads.row (h : InputReads vars input) : input.type.isRow = true := by
  rw [h.type]; exact h.rows.row

/-- A scan in a join is a source without columns to expose. -/
theorem delivers_scan {e : Expr} {ty : DataType} (he : e.isScan = true) (t : String) (σ : Store) :
    σ.Delivers e ty (.text t) := by
  cases e with
  | scan set => exact .parts (readsOnly_text.2 readsOnly_nil) (fun j hj => by simp [subselect?] at hj) rfl rfl
  | _ => cases he

theorem buildInput_columns (hv : InputReads vars input) (hb : Good b) (hc : b.store.ColumnsOK) (hbound : Scoped vars b)
    (hr : Runs (underJoin input.expr.expr.isScan input.expr.build) b f b') :
    b'.store.ColumnsOK ∧ b'.store.Delivers input.expr.expr input.type f := by
  obtain ⟨b1, hrun, rfl⟩ := runs_underJoin.1 hr
  cases hscan : input.expr.expr.isScan <;> rw [hscan] at hrun
  · have hready : Ready vars { b with joins := false :: b.joins } :=
      ⟨⟨hb.store, hb.building, hb.scopes⟩, rfl, hc, hbound⟩
    obtain ⟨-, hc1, hd⟩ := hv.rows.reads hready allLegible_nil hrun
    rw [hv.type]; exact ⟨hc1, hd⟩
  · obtain ⟨rfl, t, rfl⟩ := hv.ok.scan hscan rfl hrun
    exact ⟨hc, delivers_scan hscan t _⟩

theorem joinInput_columns {first : Bool} (h : Joining σ outer frames b i) (hopen : SourceFollows (b.store.get i))
    (hshows : JoinShows start vars shown b i)
    (hv : InputReads (shown.reverse ++ vars) input) (hfirst : first = true → shown = [] ∧ Unjoined frames b i)
    (hr : Runs (joinInput i first input) b u b') : JoinShows start vars (shown ++ [input.member]) b' i := by
  rcases joinInput_cases h hv.ok (fun hf => (hfirst hf).2) hr with
    ⟨rfl, hjoin, b1, hrun, hj1, hscopes, habsorb⟩ | ⟨-, f, b1, hbuild, hs, hf, hadjoin⟩
  · -- a join in first place
    obtain ⟨rfl, hun⟩ := hfirst rfl
    rw [hv.unapplied, Bool.or_false] at hjoin
    obtain ⟨hc1, hl, hrows⟩ := hv.taken hjoin (h.under (true :: b.joins)) (hun.under _) rfl hshows.columns hshows.bound hrun
    have hbound : Scoped vars { b1 with joins := b.joins } :=
      hshows.bound.lasts h.owns.ok hj1.owns.ok hl hscopes
    rw [← hv.type] at hrows
    exact absorb_columns hj1 (by change b1.scopes.frames = _; rw [hscopes]; exact hun.scopes) hc1 hrows hv.row
      (hshows.later.trans hl) hbound habsorb
  · obtain ⟨hc, hd⟩ := buildInput_columns hv h.good hshows.columns hshows.bound hbuild
    exact adjoin_columns h hopen hshows hs hf hc hv.row hv.unapplied hd hadjoin

/-! ## The whole join -/

/-- What a join may assume of its inputs: each is built where those before it are in scope. -/
def InputsRead : List Member → List (Binding Operand) → Prop
  | _, [] => True
  | vars, input :: rest => InputReads vars input ∧ InputsRead (input.member :: vars) rest

theorem InputsRead.ok : ∀ {inputs : List (Binding Operand)} {vars : List Member}, InputsRead vars inputs →
    ∀ input ∈ inputs, JoinInputOK input.expr
  | _ :: _, _, h, input, hm => by
    rcases mem_cons.1 hm with rfl | hm
    · exact h.1.ok
    · exact h.2.ok input hm

/-- An input is built where those before it are in scope. -/
theorem InputsRead.at : ∀ {done rest : List (Binding Operand)} {vars : List Member},
    InputsRead vars (done ++ input :: rest) → InputReads ((done.map Binding.member).reverse ++ vars) input
  | [], _, _, h => h.1
  | d :: done, _, vars, h => by
    have hat := h.2.at
    rw [map_cons, reverse_cons, append_assoc]
    exact hat

theorem JoinShows.lasts (hshows : JoinShows start vars shown b i) (hok : b.store.OK) (hok' : b'.store.OK)
    (hl : Lasts b.store b'.store) (hc : b'.store.ColumnsOK)
    (hsel : (b'.store.get i).selectList = (b.store.get i).selectList)
    (hx : (b'.store.get i).fromExtents = (b.store.get i).fromExtents) (hs : b'.scopes = b.scopes) :
    JoinShows start vars shown b' i :=
  ⟨hshows.later.trans hl, hc, hsel.trans hshows.select, by rw [hx]; exact hshows.inputs.imp fun _ _ hm => hm.lasts hok hok' hl,
    hshows.bound.lasts hok hok' hl hs⟩

/-- Text behind the `FROM` list that declares no alias. -/
theorem JoinShows.append_from {new : List Part} (hshows : JoinShows start vars shown b i) (h : Joining σ outer frames b i)
    (hok' : b'.store.OK)
    (hb' : b' = { b with statements := b.statements.modify i fun s => { s with fromList := s.fromList ++ new } })
    (ha : ({ b.store.get i with fromList := (b.store.get i).fromList ++ new } : Statement).aliases =
      (b.store.get i).aliases) (hnew : b.store.Legible ((b.store.get i).fromList ++ new)) :
    JoinShows start vars shown b' i := by
  have hstore := store_update hb'
  rw [hstore] at hok'
  obtain ⟨hc, hl⟩ := hshows.columns.append_from h.owns.ok hok' h.owns.lt rfl hshows.select ha hnew
  rw [← hstore] at hok' hc hl
  have hget : b'.store.get i = { b.store.get i with fromList := (b.store.get i).fromList ++ new } := by
    rw [hstore]; exact get_modify_self h.owns.lt _
  exact hshows.lasts h.owns.ok hok' hl hc (by rw [hget]) (by rw [hget]) (by rw [hb'])

variable {inputs : List (Binding Operand)} {keyword : String} {condition : Option Operand}

theorem joinKeeps_columns (hv : InputsRead vars inputs) : JoinKeeps σ outer frames i keyword inputs fun done b =>
    JoinShows start vars (done.map Binding.member) b i where
  first input rest b b' u hin h hopen hun hshows hr := by
    rw [hin] at hv
    exact joinInput_columns h hopen hshows hv.1 (fun _ => ⟨rfl, hun⟩) hr
  next before input rest b b1 b' u hin h hshows hb1 h1 hopen hr := by
    have hadds := adds_texts (b.store.get i) [.line, .text keyword, .text " "] fun _ => rfl
    have hlegible := (forall_mem_clauses.1 (hshows.columns.reads i)).2.1
    have hshows1 := hshows.append_from h h1.owns.ok hb1 hadds.aliases
      (hlegible.append_line (readsOnly_text.2 (readsOnly_text.2 readsOnly_nil)))
    rw [hin] at hv
    rw [map_append]
    exact joinInput_columns h1 hopen hshows1 hv.at (by simp) hr

theorem joinCondition_columns (hok : ∀ c ∈ condition, ValueOK c)
    (hv : ∀ c ∈ condition, ValueReads (shown.reverse ++ vars) c) (h : Joining σ outer frames b i)
    (hshows : JoinShows start vars shown b i) (hr : Runs (joinCondition i condition) b u b') : JoinShows start vars shown b' i := by
  rcases joinCondition_cases hok h hr with ⟨-, rfl⟩ | ⟨c, f, b1, rfl, hrun, hs, h1, h', hb'⟩
  · exact hshows
  · have hready : Ready (shown.reverse ++ vars) { b with joins := false :: b.joins } :=
      ⟨⟨h.good.store, h.good.building, h.good.scopes⟩, rfl, hshows.columns, hshows.bound⟩
    obtain ⟨-, hc1, hsql⟩ := hv c rfl hready allLegible_nil hrun
    have hsame := hs.grows.text i h.owns.lt
    have hshows1 : JoinShows start vars shown { b1 with joins := b.joins } i :=
      hshows.lasts h.owns.ok hs.store hs.grows.lasts hc1 hsame.selectList hsame.fromExtents hs.same.scopes
    obtain ⟨ht, hl⟩ := toPart_ne f
    have hlegible := (forall_mem_clauses.1 (hshows1.columns.reads i)).2.1
    exact hshows1.append_from h1 h'.owns.ok hb' (adds_on _ _ ht hl).aliases
      (hlegible.append_text (hsql _ (mem_singleton_self _)) (by decide))

theorem joinBody_columns (hv : InputsRead vars inputs) (hok : ∀ c ∈ condition, ValueOK c)
    (hcond : ∀ c ∈ condition, ValueReads ((inputs.map Binding.member).reverse ++ vars) c)
    (h : Joining σ outer frames b i) (hun : Unjoined frames b i) (hc : b.store.ColumnsOK) (hbound : Scoped vars b)
    (hr : Runs (joinBody i keyword inputs condition) b u b') : JoinShows b.store vars (inputs.map Binding.member) b' i := by
  have hshows : JoinShows b.store vars [] b i := ⟨.refl _, hc, by rw [hun.get], by rw [hun.get]; exact .nil, hbound⟩
  exact (joinBody_keeps hv.ok hok (joinKeeps_columns hv) (fun _ _ _ => joinCondition_columns hok hcond) h hun hshows hr).2.2

variable (hv : InputsRead vars inputs) (hok : ∀ c ∈ condition, ValueOK c)
  (hcond : ∀ c ∈ condition, ValueReads ((inputs.map Binding.member).reverse ++ vars) c)
  (hd : (inputs.map Binding.member).Pairwise fun a b => same a.1 b.1 = false) (htwo : 2 ≤ inputs.length)

include hv hok hcond hd htwo

/-- A join shows rows with a member for each input. -/
theorem joined_reads : Reads vars (AllLegible []) (joined keyword inputs condition) fun i σ =>
    σ.JoinRows i (.row (inputs.map Binding.member)) := by
  intro b b' i hb _ hr
  obtain ⟨ho, hs⟩ := joined_makes hv.ok hok hb.good hb.free hr
  obtain ⟨rfl, u, b1, hbody, rfl⟩ := runs_joined_new hb.free hr
  generalize hb0 : ({ b with
    statements := b.statements.push { joinExtents := some [] }
    building := b.statements.size :: b.building, scopes := b.scopes.enter } : Build) = b0 at hbody
  obtain ⟨hjoining, hun⟩ := joining_start hb.good hb0.symm
  have hstore : b0.store = b.store.push { joinExtents := some [] } := by rw [← hb0]; rfl
  have hc0 : b0.store.ColumnsOK := by
    have hok0 := hjoining.owns.ok
    rw [hstore] at hok0 ⊢
    have hnil : b.store.Legible [] := readsOnly_nil
    exact hb.columns.push hb.good.store hok0 rfl rfl rfl
      (forall_mem_clauses.2 ⟨hnil, hnil, hnil, hnil, hnil, hnil, hnil⟩)
  have hbound0 : Scoped vars b0 := by
    refine hb.bound.enter.lasts hb.good.store hjoining.owns.ok ?_ (by rw [← hb0])
    rw [hstore]; exact lasts_push b.store _
  have hshows := joinBody_columns hv hok hcond hjoining hun hc0 hbound0 hbody
  refine ⟨⟨ho.ok, hs, ho.grows⟩, hshows.columns, joinRows_of_inputs hshows.select hshows.inputs hd ?_⟩
  rw [length_map]; exact htwo

/-- A join in first place leaves the extents of its inputs in the statement of the join around it. -/
theorem joined_taken (h : Joining σ outer frames b i) (hun : Unjoined frames b i) (hj : b.inJoin = true)
    (hc : b.store.ColumnsOK) (hbound : Scoped vars b) {j : StatementId} (hr : Runs (joined keyword inputs condition) b j b') :
    b'.store.ColumnsOK ∧ Lasts b.store b'.store ∧ b'.store.JoinRows i (.row (inputs.map Binding.member)) := by
  obtain ⟨rfl, u, b1, hbody, rfl⟩ := runs_joined_continued h.building hj hr
  generalize hb0 : ({ b with scopes := b.scopes.enter } : Build) = b0 at hbody
  obtain ⟨hjoining, hun0⟩ := joining_continued h hun hb0.symm
  have hstore : b0.store = b.store := by rw [← hb0]; rfl
  have hbound0 : Scoped vars b0 := by rw [← hb0]; exact hbound.enter
  have hshows := joinBody_columns hv hok hcond hjoining hun0 (by rw [hstore]; exact hc) hbound0 hbody
  have hlater := hshows.later
  rw [hstore] at hlater
  refine ⟨hshows.columns, hlater, joinRows_of_inputs hshows.select hshows.inputs hd ?_⟩
  rw [length_map]; exact htwo

end

end Build

end RelSql
