/-
Operators over scalar rows. What an expression with scalar rows builds is a statement about them or a
source of them. An operator over it reads them from an extent of their own, and where it needs a
subselect for that, the subselect shows them.
-/
import Mathlib.Data.Set.List
import RelSql.Proofs.Build.Placing
import RelSql.Proofs.Build.RowGroups
import RelSql.Proofs.Build.ScalarSources

namespace RelSql

open RelSql.Part Statement List

namespace Expr

/-- The nodes that stand for rows. -/
def isRelational : Expr → Bool
  | scan _ | filter .. | project .. | join .. | crossJoin _ | groupBy .. | sort .. | skip .. | limit .. | distinct _
  | setOp .. | newCollection .. | call .. => true
  | _ => false

/-- The expression stands for rows that are scalars. -/
def hasScalarRows (e : Expr) : Bool := e.isRelational && e.rowType.isPrimitive

end Expr

namespace Build

open Store

variable {f : Statement → Statement} {k : StatementId} {op : Operator}

variable {loose : Prop} {exempt : List StatementId} {σ : Store} {path : Path} {b b' b1 b2 : Build} {i : StatementId}
  {x : SymbolId} {ty : DataType} {name : String}

/-! ## Steps that keep scalar rows -/

/-- The step keeps sources of scalar rows in order, and leaves what it made with the property. -/
def Carries {α : Type} (loose : Prop) (m : BuildM α) (post : α → Store → Prop) : Prop :=
  ∀ ⦃exempt : List StatementId⦄ ⦃b b' : Build⦄ ⦃a : α⦄, Good b → b.inJoin = false → b.store.ScalarsOK loose exempt →
    Runs m b a b' → Step b b' ∧ b'.store.ScalarsOK loose exempt ∧ post a b'.store

/-- What the text of an expression with scalar rows is: a statement about them, or a source of them. -/
def YieldsScalars (loose : Prop) (e : Expr) (f : Fragment) (σ : Store) : Prop :=
  e.hasScalarRows = true →
    match f with
    | .statement i => σ.ScalarRows loose i
    | f => e.isCall = false → σ.ScalarSource loose f.toPart

/-- What constructs may assume of an operand. -/
structure Carried (loose : Prop) (operand : Operand) : Prop where
  sound : ValueOK operand
  carries : Carries loose operand.build (YieldsScalars loose operand.expr)

/-- The operand is an input with rows of the type. -/
structure CarriedRows (loose : Prop) (operand : Operand) (ty : DataType) : Prop extends Carried loose operand where
  scalars : ty.isPrimitive = true → operand.expr.hasScalarRows = true

theorem Carries.imp {α : Type} {m : BuildM α} {post post' : α → Store → Prop} (h : Carries loose m post)
    (hp : ∀ a σ, post a σ → post' a σ) : Carries loose m post' := by
  intro exempt b b' a hb hj hc hr
  obtain ⟨hs, hc', ha⟩ := h hb hj hc hr
  exact ⟨hs, hc', hp a _ ha⟩

theorem Carried.value {operand : Operand} (h : Carried loose operand) : Carries loose operand.build fun _ _ => True :=
  h.carries.imp fun _ _ _ => trivial

theorem carriesKind (loose : Prop) : ValueKind fun _ m => Carries loose m fun _ _ => True where
  still h _ := by
    intro exempt b b' a hb hj hc hr
    obtain rfl := h b a b' hr
    exact ⟨⟨hb.store, ⟨rfl, rfl, rfl⟩, .refl _ _⟩, hc, trivial⟩
  bind h h' := by
    intro exempt b b' a hb hj hc hr
    obtain ⟨c, b1, hm, hf⟩ := runs_bind.1 hr
    obtain ⟨hs, hc1, -⟩ := h hb hj hc hm
    obtain ⟨hs', hc', -⟩ := h' c (hb.step hs) (by rw [hs.inJoin]; exact hj) hc1 hf
    exact ⟨hs.trans hs', hc', trivial⟩
  setPending flag := by
    intro exempt b b' a hb hj hc hr
    rw [runs_setPending.1 hr]
    exact ⟨⟨hb.store, ⟨rfl, rfl, rfl⟩, .refl _ _⟩, hc, trivial⟩
  rowVariable name := by
    intro exempt b b' f hb hj hc hr
    obtain ⟨x, -, -, hnames, hsame⟩ := rowVariable_text hb hr
    refine ⟨(rowVariable_builds name hb hj (le_refl _) Store.sound_nil hr).1, hc.sameText ?_ hsame, trivial⟩
    change b'.names.symbols = b.names.symbols
    rw [hnames]

/-- A statement about scalar rows, where the expression has such rows. -/
theorem Carries.asFragment {m : BuildM StatementId} {e : Expr}
    (h : Carries loose m fun i σ => ty.isPrimitive = true → σ.ScalarRows loose i)
    (he : e.hasScalarRows = true → ty.isPrimitive = true) : Carries loose (asFragment m) (YieldsScalars loose e) := by
  intro exempt b b' f hb hj hc hr
  obtain ⟨i, rfl, hm⟩ := runs_asFragment.1 hr
  obtain ⟨hs, hc', hrows⟩ := h hb hj hc hm
  exact ⟨hs, hc', fun hscalar => hrows (he hscalar)⟩

/-! ## Inputs -/

section

variable {operand : Operand}

theorem sourceStatement_scalars (hv : Carried loose operand) (hb : Good b) (hj : b.inJoin = false)
    (hc : b.store.ScalarsOK loose exempt) (hr : Runs (sourceStatement operand) b i b') :
    b'.store.ScalarsOK loose exempt ∧ (operand.expr.hasScalarRows = true → b'.store.ScalarRows loose i) := by
  obtain ⟨f, b1, hf, ⟨rfl, rfl⟩ | ⟨hother, rfl, hb'⟩⟩ := sourceStatement_cases hr
  · exact (hv.carries hb hj hc hf).2
  · -- a text becomes the source of a new statement
    obtain ⟨hs, hc1, hyields⟩ := hv.carries hb hj hc hf
    have hsource : operand.expr.hasScalarRows = true → operand.expr.isCall = false →
        b1.store.ScalarSource loose f.toPart := by
      cases f with
      | statement j => exact absurd rfl (hother j)
      | _ => exact hyields
    have hitems := fromItems_source operand.expr.isCall f
    generalize hs' : ({ fromList := sourceParts operand.expr.isCall f } : Statement) = s at hb' hitems
    have hstore : b'.store = b1.store.push s := by rw [hb']; rfl
    have hal : s.aliases = [] := by
      unfold aliases
      rw [hitems]
      cases operand.expr.isCall <;> rfl
    have hget : (b1.store.push s).get b1.store.size = s := get_push_size _ _
    rw [hstore]
    refine ⟨hc1.push (by rw [← hs']) hal, fun hscalar => ?_⟩
    refine .source (by rw [hget, ← hs']) (by rw [hget, ← hs']) (by rw [hget, ← hs']) fun p hend => ?_
    unfold Statement.EndsWith at hend
    rw [hget, hitems] at hend
    have heq := singleton_inj.1 (hend.eq_of_length rfl)
    split at heq
    · cases heq
    · rename_i hcall
      obtain rfl := FromItem.enclosed.inj heq
      exact (hsource hscalar (Bool.eq_false_iff.2 hcall)).settles (settles_push _ _)

/-- Several extents become the inputs of one flat join. -/
theorem merge_scalars {join : JoinInfo} (hok : b.store.OK) (hok' : b'.store.OK) (hi : i < b.store.size)
    (hc : b.store.ScalarsOK loose exempt)
    (hs : (b.store.get i).selectList = [] ∨ 1 < (b.store.get i).fromExtents.length) (hj : join.columns = [])
    (hf : ∀ s, f s = s.relisted [b.names.symbols.size] s.joinExtents) (hb' : b' = { b with
      names := { b.names with symbols := b.names.symbols.push (.joined name ty join) }
      statements := b.statements.modify i f }) : b'.store.ScalarsOK loose exempt := by
  generalize hb1 : ({ b with
    names := { b.names with symbols := b.names.symbols.push (.joined name ty join) } } : Build) = b1
  have hc1 : b1.store.ScalarsOK loose exempt := newSymbol_scalars hc hok hb1.symm rfl (by
    rintro _ ⟨rfl⟩ k l key c - -
    rw [hj]; exact not_mem_nil)
  have hjoin : (b1.store.symbols.get b.names.symbols.size).join ≠ none := by
    have hnew : b1.store.symbols.get b.names.symbols.size = .joined name ty join := by
      rw [← hb1]; exact (Symbols.get_push _ _ _).trans (if_pos rfl)
    rw [hnew]; exact nofun
  have hget : b1.store.get i = b.store.get i := by rw [← hb1]; rfl
  have hstore : b'.store = b1.store.modify i f := by rw [hb', ← hb1]; rfl
  rw [hstore] at hok' ⊢
  exact hc1.relist hok' (by rw [← hb1]; exact hi) (by rw [hget]; exact hs) hjoin hf

theorem variableExtent_scalars (h : Owns σ path b.store k) (hc : b.store.ScalarsOK loose exempt)
    (hrows : ty.isPrimitive = true → b.store.ScalarRows loose k) (hr : Runs (variableExtent name ty k) b (i, x) b') :
    b'.store.ScalarsOK loose exempt ∧ b'.store.ScalarInput loose i x ty := by
  have hok' := (variableExtent_spec h hr).1.ok
  obtain ⟨rfl, ⟨hf, hnew⟩ | ⟨hf, rfl⟩ | ⟨hlen, rfl, hb'⟩⟩ := variableExtent_cases hr
  · obtain ⟨hn, -⟩ := newExtent_spec hnew h.ok (by simp)
    obtain ⟨hc', hunused, hplain, hscalar⟩ := newExtent_scalars hc h.ok (by simp) (by simp) hnew
    have hget := hn.get i
    have hsource : ty.isPrimitive = true → (b.store.get i).selectList = [] ∧ (b.store.get i).joinExtents = none ∧
        ∀ p, (b.store.get i).EndsWith p → b.store.ScalarSource loose p := by
      intro hp
      cases hrows hp with
      | source hs _ hj h => exact ⟨hs, hj, h⟩
      | bare hbare _ _ => rw [hbare.extents] at hf; cases hf
      | shows hshows =>
        obtain ⟨y, hy⟩ := hshows.extents
        rw [hy] at hf; cases hf
    refine ⟨hc', .source (by rw [hget]; exact hf) hunused fun p hend hx => ?_, fun hp => Or.inl ?_⟩
    · rw [hget] at hend
      exact ((hsource (hscalar hx).2).2.2 p hend).settles hn.grows.settles
    · rw [hget]
      exact ⟨(hsource hp).1, (hsource hp).2.1, ty, hp, hplain rfl⟩
  · refine ⟨hc, .declared hf, fun hp => ?_⟩
    cases hrows hp with
    | source _ hx _ _ => rw [hx] at hf; cases hf
    | shows hshows => exact Or.inr hshows
    | @bare y ty' hbare hp' hj =>
      obtain rfl := singleton_inj.1 (hbare.extents.symm.trans hf)
      exact Or.inl ⟨hbare.select, hj, ty', hp', hbare.plain⟩
  · have hextents : (b'.store.get i).fromExtents = [b.names.symbols.size] := by
      have hget := get_modify_self (σ := b.store) h.lt fun s => { s with fromExtents := [b.names.symbols.size] }
      rw [hb']; exact congrArg fromExtents hget
    refine ⟨merge_scalars h.ok hok' h.lt hc (Or.inr hlen) rfl (fun s => rfl) hb', .declared hextents, fun hp => ?_⟩
    -- a statement about scalar rows has no more than one extent
    cases hrows hp with
    | source _ hx _ _ => rw [hx] at hlen; cases hlen
    | bare hbare _ _ => rw [hbare.extents] at hlen; exact absurd hlen (lt_irrefl 1)
    | shows hshows =>
      obtain ⟨y, hy⟩ := hshows.extents
      rw [hy] at hlen; exact absurd hlen (lt_irrefl 1)

/-- A statement with another clause. -/
theorem update_scalars (h : Owns σ path b.store i) (hok' : b'.store.OK) (hc : b.store.ScalarsOK loose exempt)
    (hb' : b' = { b with statements := b.statements.modify i f })
    (hs : (f (b.store.get i)).selectList = (b.store.get i).selectList)
    (hf : (f (b.store.get i)).fromList = (b.store.get i).fromList)
    (hx : (f (b.store.get i)).fromExtents = (b.store.get i).fromExtents)
    (hj : (f (b.store.get i)).joinExtents = (b.store.get i).joinExtents)
    (hunread : ∀ x, (b.store.get i).LeavesUnread x → (f (b.store.get i)).LeavesUnread x) :
    b'.store.ScalarsOK loose exempt ∧ (b.store.ScalarRows loose i → b'.store.ScalarRows loose i) := by
  rw [store_update hb'] at hok' ⊢
  exact ⟨hc.clauses hok' h.lt (fun _ => hs) hf hx hj hunread, fun hrows => hrows.modify h.ok h.lt hs hf hx hj⟩

end

/-- Scalar rows, if the type is that of a scalar. -/
def scalarPass (loose : Prop) (exempt : List StatementId) (ty : DataType) : RowPass ty where
  Ready b := Good b ∧ b.inJoin = false ∧ b.store.ScalarsOK loose exempt
  Inv σ := σ.ScalarsOK loose exempt
  Source σ i := ty.isPrimitive = true → σ.ScalarRows loose i
  Input σ i x := σ.ScalarInput loose i x ty
  Rows σ i := ty.isPrimitive = true → σ.ScalarRows loose i
  Shown σ i := ty.isPrimitive = true → σ.ShowsScalar loose i

theorem scalarPass_lawful : (scalarPass loose exempt ty).Lawful where
  good _ hb := ⟨hb.1, hb.2.1⟩
  enter _ hb := ⟨hb.1.enter, hb.2⟩
  extent _ _ _ _ _ _ _ _ := variableExtent_scalars
  rows _ _ _ _ h := Or.inl h.scalarRows
  wrap _ _ _ _ _ _ _ _ := subselect_scalars
  declare _ _ _ _ _ _ _ ho _ := declareExtent_scalars ho
  complete _ _ _ _ _ _ ho hc hrows hr :=
    have ⟨hc', hshows⟩ := selectAllIfNone_scalars ho hc hr
    ⟨hc', fun hp => .shows (hshows (hrows hp)), fun hp => hshows (hrows hp)⟩
  cut _ _ _ _ _ _ ho hok' hc hrows hb' hcut :=
    have ⟨hs, hf, hx, hj, _⟩ := hcut.kept
    have ⟨hc', hkept⟩ := update_scalars ho hok' hc hb' hs hf hx hj fun _ hu => hu.cuts hcut
    ⟨hc', fun hp => hkept (hrows hp)⟩

theorem CarriedRows.feeds {operand : Operand} (hv : CarriedRows loose operand ty) :
    (scalarPass loose exempt ty).Feeds operand where
  sound := hv.sound
  source _ _ _ hb hr :=
    have ⟨hc, hrows⟩ := sourceStatement_scalars hv.toCarried hb.1 hb.2.1 hb.2.2 hr
    ⟨hc, fun hp => hrows (hv.scalars hp)⟩
  declared _ _ _ _ hb hr :=
    have ⟨_, hc, hyields⟩ := hv.carries hb.1 hb.2.1 hb.2.2 hr
    ⟨hc, fun hp => hyields (hv.scalars hp)⟩

theorem carries_of_keeps {m : BuildM StatementId} (h : ∀ exempt, (scalarPass loose exempt ty).Keeps m) :
    Carries loose m fun i σ => ty.isPrimitive = true → σ.ScalarRows loose i :=
  fun exempt _ _ _ hb hj hc hr => h exempt ⟨hb, hj, hc⟩ hr

/-! ## Filter, projection and order -/

section

variable {keys : List (SortKey Operand)}

variable {input : Binding Operand}

/-- What is built over the rows of an input leaves its statement as it is. -/
theorem overRows_scalars {α : Type} {body : BuildM α} {post : α → List Part} {a : α} (hop : op.isEarly = true)
    (hv : CarriedRows loose input.expr input.type) (hsound : Builds (Made []) body fun a => Made (post a))
    (hbody : Carries loose body fun _ _ => True) (hb : Good b) (hj : b.inJoin = false)
    (hc : b.store.ScalarsOK loose exempt) (hr : Runs (overRows op input body) b (i, a) b') :
    b'.store.ScalarsOK loose exempt ∧ (b'.store.get i).selectList = [] ∧ (∃ x, (b'.store.get i).fromExtents = [x]) ∧
      (input.type.isPrimitive = true → b'.store.ScalarRows loose i) := by
  have hselect := overRows_selectList hop hv.sound hsound hb hj hr
  obtain ⟨x, b1, _, b2, b3, hin, ho, -, hi, hdecl, hopen, hbody', rfl⟩ := overRows_cases hv.sound hb hj hr
  obtain ⟨hc1, hinput⟩ := scalarPass_lawful.inputFor hv.feeds ⟨hb, hj, hc⟩ hin
  have hextents := (declareExtent_spec (b := { b1 with
    building := i :: b1.building, scopes := b1.scopes.enter }) ho hi hdecl).2.2
  obtain ⟨hc5, hrows⟩ := declareExtent_scalars (b := { b1 with
    building := i :: b1.building, scopes := b1.scopes.enter }) ho hc1 hinput hdecl
  obtain ⟨hstep, hc', -⟩ := hbody hopen.good (by rw [hopen.inJoin]; exact hj) hc5 hbody'
  refine ⟨hc', hselect, ⟨x, (hstep.grows.text i hopen.owns.lt).fromExtents.trans hextents⟩, fun hp => ?_⟩
  exact (hrows hp).grows hopen.owns.ok hopen.owns.lt hstep.grows

theorem filter_carries {negated : Bool} {predicate : Operand} (hv : CarriedRows loose input.expr input.type)
    (hp : Carried loose predicate) : Carries loose (filter negated input predicate) fun i σ =>
      input.type.isPrimitive = true → σ.ScalarRows loose i := by
  intro exempt b b' i hb hj hc hr
  obtain ⟨ho', hs'⟩ := filter_makes hv.sound hp.sound hb hj hr
  obtain ⟨sql, b1, hover, hb2⟩ := filter_cases hr
  obtain ⟨ho, -, -⟩ := overRows_spec hv.sound hp.sound.toPart hb hj hover
  obtain ⟨hc1, hselect, -, hrows⟩ := overRows_scalars rfl hv hp.sound.toPart hp.value hb hj hc hover
  obtain ⟨hc', hkept⟩ := update_scalars ho ho'.ok hc1 hb2 rfl rfl rfl rfl fun _ hu => absurd hselect hu.selects
  exact ⟨⟨ho'.ok, hs', ho'.grows⟩, hc', fun hprimitive => hkept (hrows hprimitive)⟩

/-- A statement that selected nothing may get a select list. -/
theorem open_scalars (hc : b.store.ScalarsOK loose exempt) (hok' : b'.store.OK) (hi : i < b.store.size)
    (hs : (b.store.get i).selectList = []) (hb' : b' = { b with statements := b.statements.modify i f })
    (hf : (f (b.store.get i)).fromList = (b.store.get i).fromList)
    (hx : (f (b.store.get i)).fromExtents = (b.store.get i).fromExtents)
    (hj : (f (b.store.get i)).joinExtents = (b.store.get i).joinExtents) : b'.store.ScalarsOK loose exempt := by
  rw [store_update hb'] at hok' ⊢
  exact hc.open hok' hi hs hf hx hj

theorem projectRecord_carries {fields : List (String × Operand)} (hv : CarriedRows loose input.expr input.type)
    (hf : ∀ f ∈ fields, Carried loose f.2) : Carries loose (projectRecord input fields) fun _ _ => True := by
  intro exempt b b' i hb hj hc hr
  obtain ⟨ho', hs'⟩ := projectRecord_makes hv.sound (fun f hm => (hf f hm).sound) hb hj hr
  obtain ⟨items, b1, hover, hb'⟩ := projectRecord_cases hr
  have hsound := builds_mapM fun f h => projectField_builds (hf f h).sound
  have hbody : Carries loose (fields.mapM projectField) fun _ _ => True := by
    refine (carriesKind loose).mapM fun f hm => ?_
    unfold projectField
    dsimp only
    split
    · exact (carriesKind loose).throw id
    · exact (carriesKind loose).bind (hf f hm).value fun _ => (carriesKind loose).pure _
  obtain ⟨ho, -, -⟩ := overRows_spec hv.sound hsound hb hj hover
  obtain ⟨hc1, hselect, -, -⟩ := overRows_scalars rfl hv hsound hbody hb hj hc hover
  exact ⟨⟨ho'.ok, hs', ho'.grows⟩, open_scalars hc1 ho'.ok ho.lt hselect hb' rfl rfl rfl, trivial⟩

/-- A projection on one value shows it as a column without a name. -/
theorem projectValue_carries {value : Operand} (hv : CarriedRows loose input.expr input.type)
    (hval : Carried loose value) : Carries loose (projectValue input value) fun i σ => loose → σ.ShowsScalar loose i := by
  intro exempt b b' i hb hj hc hr
  obtain ⟨ho', hs'⟩ := projectValue_makes hv.sound hval.sound hb hj hr
  obtain ⟨sql, output, b1, hover, hb'⟩ := projectValue_cases hr
  obtain ⟨ho, -, -⟩ := overRows_spec hv.sound hval.sound.toPart hb hj hover
  obtain ⟨hc1, hselect, ⟨x, hx⟩, -⟩ := overRows_scalars rfl hv hval.sound.toPart hval.value hb hj hc hover
  have hget := (get_update hb' ho.lt).1
  refine ⟨⟨ho'.ok, hs', ho'.grows⟩, open_scalars hc1 ho'.ok ho.lt hselect hb' rfl rfl rfl,
    fun hl => .value (v := sql.toPart) hl (x := x) (by rw [hget]; exact hx) (toPart_ne sql) ?_⟩
  rw [hget]
  change (b1.store.get i).selectList ++ _ = _
  rw [hselect]; rfl

theorem ordered_carries (hop : op.isEarly = true) (hv : CarriedRows loose input.expr input.type)
    (hk : ∀ k ∈ keys, Carried loose k.expr) :
    Carries loose (ordered op input keys) fun i σ => input.type.isPrimitive = true → σ.ScalarRows loose i := by
  intro exempt b b' i hb hj hc hr
  obtain ⟨ho', hs'⟩ := ordered_makes hv.sound (fun k hm => (hk k hm).sound) hb hj hr
  obtain ⟨items, b1, hover, hb2⟩ := ordered_cases hr
  have hsound := builds_mapM fun k h => sortItem_builds (hk k h).sound
  have hbody : Carries loose (keys.mapM sortItem) fun _ _ => True := (carriesKind loose).mapM fun k hm =>
    (carriesKind loose).bind (hk k hm).value fun _ => (carriesKind loose).pure _
  obtain ⟨ho, -, -⟩ := overRows_spec hv.sound hsound hb hj hover
  obtain ⟨hc1, hselect, -, hrows⟩ := overRows_scalars hop hv hsound hbody hb hj hc hover
  obtain ⟨hc', hkept⟩ := update_scalars ho ho'.ok hc1 hb2 rfl rfl rfl rfl fun _ hu => absurd hselect hu.selects
  exact ⟨⟨ho'.ok, hs', ho'.grows⟩, hc', fun hprimitive => hkept (hrows hprimitive)⟩

theorem sort_carries (hv : CarriedRows loose input.expr input.type) (hk : ∀ k ∈ keys, Carried loose k.expr) :
    Carries loose (sort input keys) fun i σ => input.type.isPrimitive = true → σ.ScalarRows loose i :=
  ordered_carries rfl hv hk

theorem skip_carries {count : Operand} (hv : CarriedRows loose input.expr input.type)
    (hk : ∀ k ∈ keys, Carried loose k.expr) (hcount : CountOK count) : Carries loose (skip input keys count) fun i σ =>
      input.type.isPrimitive = true → σ.ScalarRows loose i :=
  carries_of_keeps fun _ => scalarPass_lawful.skip hv.sound (fun k hm => (hk k hm).sound) hcount
    fun _ _ _ hb hr => ordered_carries rfl hv hk hb.1 hb.2.1 hb.2.2 hr

end

section

variable {operand : Operand}

/-! ## Whole statements inside text -/

/-- An operand as a statement that shows its rows. -/
theorem asStatement_carries (hv : CarriedRows loose operand operand.expr.rowType) :
    Carries loose (asStatement operand true) fun i σ =>
      operand.expr.rowType.isPrimitive = true → σ.ShowsScalar loose i := by
  intro exempt b b' i hb hj hc hr
  obtain ⟨hs, hc', -, hshown⟩ := scalarPass_lawful.asStatement hv.feeds ⟨hb, hj, hc⟩ hr
  exact ⟨hs, hc', hshown rfl⟩

/-- Whatever is made of the statement of an operand. -/
theorem statement_carries {f : StatementId → Fragment} (hv : CarriedRows loose operand operand.expr.rowType) :
    Carries loose (asStatement operand true >>= fun i => pure (f i)) fun _ _ => True :=
  (carriesKind loose).bind ((asStatement_carries hv).imp fun _ _ _ => trivial) fun _ => (carriesKind loose).pure _

theorem quantified_carries {q : Quantifier} {input : Binding Operand} {predicate : Operand}
    (hv : CarriedRows loose input.expr input.type) (hp : Carried loose predicate) :
    Carries loose (quantified q input predicate) fun _ _ => True := by
  intro exempt b b' f hb hj hc hr
  have hstep := (quantified_builds hv.sound hp.sound hb hj (le_refl _) Store.sound_nil hr).1
  simp only [quantified, runs_bind, runs_pure] at hr
  obtain ⟨i, b1, hf, _, b2, hsel, rfl, rfl⟩ := hr
  obtain ⟨ho, -⟩ := filter_makes hv.sound hp.sound hb hj hf
  obtain ⟨-, hc1, -⟩ := filter_carries hv hp hb hj hc hf
  exact ⟨hstep, (selectAllIfNone_scalars ho hc1 hsel).1, trivial⟩

/-- A set operation is a source of the rows of its left side. -/
theorem setOperation_carries {op : SetOp} {left right : Operand} (hl : CarriedRows loose left left.expr.rowType)
    (hr : CarriedRows loose right right.expr.rowType) : Carries loose (setOperation op left right) fun f σ =>
      ∃ ps, f = .parts ps ∧ (left.expr.rowType.isPrimitive = true → σ.ScalarSource loose (.group ps)) := by
  intro exempt b b' f hb hj hc hrun
  simp only [setOperation, runs_bind, runs_pure] at hrun
  obtain ⟨l, b1, hl', r, b2, hr', ls, b3, hls, rs, b4, hrs, rfl, rfl⟩ := hrun
  obtain ⟨hs1, hc1, hshows⟩ := asStatement_carries hl hb hj hc hl'
  obtain ⟨hs2, hc2, -⟩ := asStatement_carries hr (hb.step hs1) (by rw [hs1.inJoin]; exact hj) hc1 hr'
  obtain ⟨rfl, hleft⟩ := setSide_parts hls
  obtain ⟨rfl, -⟩ := setSide_parts hrs
  refine ⟨hs1.trans hs2, hc2, _, rfl, fun hp => ?_⟩
  refine .subselect (i := l) ?_ ((hshows hp).settles hs2.grows.settles)
  rcases hleft with rfl | rfl <;> simp [subselect?]

/-! ## Collections -/

/-- A collection of listed scalars is a source of them. -/
theorem collection_carries {items : List Operand} (h : ∀ item ∈ items, Carried loose item) :
    Carries loose (collection ty items) fun f σ =>
      ∃ ps, f = .parts ps ∧ (ty.isPrimitive = true → σ.ScalarSource loose (.group ps)) := by
  intro exempt b b' f hb hj hc hr
  have hrows : Carries loose (items.mapM (collectionItem ty.isPrimitive)) fun _ _ => True :=
    (carriesKind loose).mapM fun item hm =>
      (carriesKind loose).bind (h item hm).value fun _ => (carriesKind loose).pure _
  simp only [collection, runs_ite, runs_bind, runs_pure] at hr
  rcases hr with ⟨-, rfl, rfl⟩ | ⟨hne, rows, b1, hr, rfl, rfl⟩
  · exact ⟨.refl hb, hc, _, rfl, fun _ => .empty⟩
  · obtain ⟨hs, hc', -⟩ := hrows hb hj hc hr
    refine ⟨hs, hc', _, rfl, fun hp => ?_⟩
    have hitem : ∀ row ∈ rows, row ∈ Set.range scalarItem := by
      refine forall_of_runs_mapM (fun item b1 row b2 hitem => ?_) hr
      simp only [collectionItem, hp, runs_bind, runs_pure] at hitem
      obtain ⟨sql, _, -, rfl, -⟩ := hitem
      exact ⟨sql, rfl⟩
    obtain ⟨values, rfl⟩ : rows ∈ Set.range (map scalarItem) := by
      rw [Set.range_list_map]; exact hitem
    refine .values ?_
    rintro rfl
    have hlength := List.Forall₂.length_eq (forall₂_of_runs_mapM hr)
    exact hne (isEmpty_iff.2 (length_eq_zero_iff.1 hlength))

end

/-! ## Grouping -/

section

variable {keys : List (String × Operand)} {aggregates : List (String × Aggregate Operand)} {ks : List (String × Part)}
  {as : List (String × Aggregate Operand × Part)} {outer : StatementId}
  (hk : ∀ k ∈ keys, Carried loose k.2) (ha : ∀ a ∈ aggregates, Carried loose a.2.argument)

include hk ha

theorem groupTexts_scalars (hb : Good b) (hj : b.inJoin = false) (hc : b.store.ScalarsOK loose exempt)
    (hks : Runs (keys.mapM buildKey) b ks b1) (has : Runs (aggregates.mapM buildArgument) b1 as b') :
    Step b b' ∧ b'.store.ScalarsOK loose exempt := by
  have hkeys : Carries loose (keys.mapM buildKey) fun _ _ => True := (carriesKind loose).mapM fun k hm =>
    (carriesKind loose).bind (hk k hm).value fun _ => (carriesKind loose).pure _
  have harguments : Carries loose (aggregates.mapM buildArgument) fun _ _ => True :=
    (carriesKind loose).mapM fun a hm =>
      (carriesKind loose).bind (ha a hm).value fun _ => (carriesKind loose).pure _
  obtain ⟨hs, hc1, -⟩ := hkeys hb hj hc hks
  obtain ⟨hs', hc', -⟩ := harguments (hb.step hs) (by rw [hs.inJoin]; exact hj) hc1 has
  exact ⟨hs.trans hs', hc'⟩

theorem groupInPlace_scalars (h : Opened b b1 i) (hj : b.inJoin = false) (hc : b1.store.ScalarsOK loose exempt)
    (hselect : (b1.store.get i).selectList = []) (hr : Runs (groupInPlace i keys aggregates) b1 k b') :
    b'.store.ScalarsOK loose exempt := by
  have ho' := (groupInPlace_spec (fun k hm => (hk k hm).sound) (fun a hm => (ha a hm).sound) h hselect hj hr).1
  obtain ⟨ks, as, b2, b3, rfl, hks, has, hb'⟩ := groupInPlace_cases hr
  obtain ⟨hs, hc3⟩ := groupTexts_scalars hk ha h.good (by rw [h.inJoin]; exact hj) hc hks has
  exact open_scalars hc3 ho'.ok (lt_of_lt_of_le h.owns.lt hs.grows.size)
    ((hs.grows.text k h.owns.lt).selectList.trans hselect) hb' rfl rfl rfl

omit hk ha in
theorem innerName_ne {stem : String} (h : 1 < stem.length) (n : Nat) : innerName stem n ≠ scalarColumn := by
  intro heq
  have hlength := congrArg String.length heq
  rw [innerName, String.length_append] at hlength
  have hone : scalarColumn.length = 1 := rfl
  omega

omit hk ha in
theorem ne_of_mem_innerNames {n : String} {stem : String} {count : Nat} (h : 1 < stem.length)
    (hn : n ∈ innerNames stem count) : text n ≠ .text scalarColumn := by
  obtain ⟨k, -, rfl⟩ := mem_map.1 hn
  exact fun heq => innerName_ne h k (text.inj heq)

omit hk ha in
/-- The outer statement is written over the columns of keys and arguments alone. -/
theorem outerItems_unread {output : List OutputColumn} {s : Statement} (hsame : ((overSubselect i).withExtent x).SameText s)
    (hne : as ≠ []) (y : SymbolId) : (withItems (outerItems x ks as) (outerGrouping x ks) output s).LeavesUnread y := by
  have hnames : ∀ n ∈ innerNames "key_" ks.length ++ innerNames "agg_" as.length, Part.text n ≠ .text scalarColumn :=
    forall_mem_append.2 ⟨fun n hn => ne_of_mem_innerNames (by decide) hn, fun n hn => ne_of_mem_innerNames (by decide) hn⟩
  constructor
  · obtain ⟨a, ha⟩ := exists_mem_of_ne_nil (as.zip (innerNames "agg_" as.length)) fun hnil =>
      hne (eq_nil_of_zip_innerNames hnil)
    refine select_ne_nil_of_exposed (c := .text a.1.1) ?_
    rw [exposed_named named_outerItems (by simp [withItems, hsame.selectList]; rfl)]
    exact mem_map.2 ⟨_, mem_append_right _ (mem_map_of_mem ha), rfl⟩
  · have hinput : ∀ ps ∈ s.clauses, Part.ReadsOnly (fun _ c => c ≠ .text scalarColumn) ps := by
      rw [hsame.clauses, forall_mem_clauses]
      simp [overSubselect, withExtent, Part.readsOnly_symbol]
    obtain ⟨-, hfrom, hcondition, -, hrest⟩ := forall_mem_clauses.1 hinput
    have hreads : ∀ ps ∈ (withItems (outerItems x ks as) (outerGrouping x ks) output s).clauses,
        Part.ReadsOnly (fun _ c => c ≠ .text scalarColumn) ps := by
      refine forall_mem_clauses.2 ⟨?_, hfrom, hcondition, ?_, hrest⟩
      · rw [withItems, hsame.selectList]
        exact Part.readsOnly_separated (by decide) (forall_mem_map.2 (readsOnly_outerItems hnames))
      · rw [withItems, hsame.sameClauses.grouping]
        exact readsOnly_outerGrouping fun n hn => hnames n (mem_append_left _ hn)
    exact fun ps hps hread => (hreads ps hps).columns y _ hread rfl
  · intro v hv
    have hinput : Part.statements (s.place v) = [] := by
      rw [hsame.place, place_overSubselect, if_neg (by rintro rfl; cases hv)]; rfl
    cases v with
    | body =>
      simp only [withItems, place, body, Part.statements_append, append_eq_nil_iff] at hinput ⊢
      obtain ⟨⟨⟨⟨⟨⟨hselect, hconditions⟩, hcondition⟩, hgrouping⟩, hordering⟩, htop⟩, hskip⟩ := hinput
      refine ⟨⟨⟨⟨⟨⟨⟨hselect, ?_⟩, hconditions⟩, hcondition⟩, hgrouping, ?_⟩, hordering⟩, htop⟩, hskip⟩
      · rw [Part.separated, Part.statements_intercalate, outerItems, map_append, flatMap_append]
        simp [flatMap_map, outerKey, outerAggregate, statements_selectItem, statements_aggregateParts, innerColumn]
      · rw [outerGrouping, Part.separated, Part.statements_intercalate]
        simp [flatMap_map, statements_innerColumn]
    | source => exact hinput
    | enclosed => cases hv

theorem groupOverInner_scalars (h : Opened b b1 i) (hj : b.inJoin = false) (hc : b1.store.ScalarsOK loose exempt)
    (hselect : (b1.store.get i).selectList = []) (hne : aggregates ≠ [])
    (hr : Runs (groupOverInner i name ty keys aggregates) b1 outer b') : b'.store.ScalarsOK loose exempt := by
  have hsk : ∀ k ∈ keys, ValueOK k.2 := fun k hm => (hk k hm).sound
  have hsa : ∀ a ∈ aggregates, ValueOK a.2.argument := fun a hm => (ha a hm).sound
  have ho' := (groupOverInner_spec hsk hsa h hselect hj hr).1
  obtain ⟨x, ks, as, _, b2, b3, b4, b5, b6, hsub, hdecl, hks, has, hb6, hb'⟩ := groupOverInner_cases hr
  obtain ⟨hok6, -, hout, -, hsame⟩ := innerSelect_spec hsk hsa h hselect hj hsub hdecl hks has hb6
  obtain ⟨hstep, -, -, -⟩ := overInput_spec h.owns hsub hdecl
  -- the inner statement does not show its rows, so that the outer one waits until it is done
  have hc3 : b3.store.ScalarsOK loose (outer :: exempt) := by
    obtain ⟨ho2, -, -⟩ := subselect_spec h.owns hsub
    obtain ⟨-, b1, b0, ⟨⟨⟩, -⟩ | ⟨-, rfl, rfl⟩, hy, rfl, hb2⟩ := subselect_cases hsub
    obtain ⟨hc2, hunused, hget, -⟩ := newSubselect_scalars hc h.good.store (by simp) (by simp) hy hb2
    exact (declareFirst_scalars ho2 (hc2.exempting b0.store.size) (by rw [hget]; rfl) hunused
      (fun hno => absurd mem_cons_self hno) hdecl).1
  obtain ⟨hs, hc5⟩ := groupTexts_scalars hk ha (h.good.step hstep) (by rw [hstep.inJoin, h.inJoin]; exact hj) hc3 hks has
  have hinner := (hstep.trans hs).grows.text i h.owns.lt
  have hc6 := open_scalars hc5 hok6 (lt_of_lt_of_le h.owns.lt (hstep.trans hs).grows.size)
    (hinner.selectList.trans hselect) hb6 rfl rfl rfl
  have hempty : as ≠ [] := by
    rintro rfl
    exact hne (length_eq_zero_iff.1 (List.Forall₂.length_eq (forall₂_of_runs_mapM has)))
  refine (open_scalars hc6 ho'.ok hout.lt hsame.selectList hb' rfl rfl rfl).done fun y _ => ?_
  rw [(get_update hb' hout.lt).1]
  exact outerItems_unread hsame hempty y

theorem group_carries {input : GroupBinding Operand} (hv : CarriedRows loose input.expr input.type) :
    Carries loose (group input keys aggregates) fun _ _ => True := by
  intro exempt b b' i hb hj hc hr
  obtain ⟨ho', hs'⟩ := group_makes hv.sound (fun k hm => (hk k hm).sound) (fun a hm => (ha a hm).sound) hb hj hr
  refine ⟨⟨ho'.ok, hs', ho'.grows⟩, ?_, trivial⟩
  obtain ⟨k, x, b1, _, b2, b3, b4, hin, ho, hdecl, hb3, hopen, hselect, hbody, rfl⟩ := group_cases hv.sound hb hj hr
  obtain ⟨hc1, hinput⟩ := scalarPass_lawful.inputFor hv.feeds ⟨hb, hj, hc⟩ hin
  obtain ⟨hc2, -⟩ := declareExtent_scalars (b := { b1 with
    building := k :: b1.building, scopes := b1.scopes.enter }) ho hc1 hinput hdecl
  have hstore : b3.store = b2.store := by rw [hb3]; rfl
  rw [← hstore] at hc2
  change b4.store.ScalarsOK loose exempt
  rcases runs_ite.1 hbody with ⟨hneeds, hbody⟩ | ⟨-, hbody⟩
  · have hne : aggregates ≠ [] := by rintro rfl; cases hneeds
    exact groupOverInner_scalars hk ha hopen hj hc2 hselect hne hbody
  · exact groupInPlace_scalars hk ha hopen hj hc2 hselect hbody

end

end Build

end RelSql
