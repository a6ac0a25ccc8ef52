/-
Joins over scalar rows. An input with scalar rows gets an extent of its own in the join, and if it has a
statement, that becomes a subselect that shows the rows. A join has no single extent, so that its star
takes nothing over from one.
-/
import RelSql.Proofs.Build.RowJoins
import RelSql.Proofs.Build.ScalarOperators

namespace RelSql

open Statement List

namespace Store

variable {loose : Prop} {exempt : List StatementId} {σ : Store} {i : StatementId}

/-- More text behind the `FROM` list of a statement that selects nothing yet, if it declares no alias. -/
theorem ScalarsOK.append_from {f : Statement → Statement} {new : List Part} (h : σ.ScalarsOK loose exempt)
    (hok' : (σ.modify i f).OK) (hi : i < σ.size) (hs : (σ.get i).selectList = [])
    (hf : f (σ.get i) = { σ.get i with fromList := (σ.get i).fromList ++ new })
    (ha : (f (σ.get i)).aliases = (σ.get i).aliases) : (σ.modify i f).ScalarsOK loose exempt := by
  refine h.modify hok' hi (fun hne => absurd hs hne) (by rw [hf]; exact fromItems_append _ _)
    (fun l hl hnone hplain => Or.inl ?_) (fun _ p x hn hno => ?_) fun _ hu => absurd hs hu.selects
  · rw [hf] at hl hnone
    exact ⟨hl, hnone, hplain⟩
  · rw [← ha] at hno
    exact absurd hn.alias hno

theorem Single.of_modify {f : Statement → Statement} {k : StatementId} {l : SymbolId} (h : (σ.modify i f).Single k l)
    (hx : ∀ s, (f s).fromExtents = s.fromExtents) (hj : ∀ s, (f s).joinExtents = s.joinExtents) : σ.Single k l := by
  obtain ⟨hextents, hnone, hplain⟩ := h
  rw [get_modify] at hextents hnone
  split at hextents
  · rename_i hk
    rw [if_pos hk, hj] at hnone
    exact ⟨(hx _).symm.trans hextents, hnone, hplain⟩
  · rename_i hk
    rw [if_neg hk] at hnone
    exact ⟨hextents, hnone, hplain⟩

end Store

namespace Build

open Store

variable {loose : Prop} {exempt : List StatementId} {σ : Store} {path : Path} {b b' b1 : Build} {i sub : StatementId}
  {e : Expr} {f : Fragment} {join : Option JoinInfo} {u : PUnit} {outer : List StatementId}
  {frames : List (List (String × SymbolId))} {input : Binding Operand}

/-! ## Sources -/

/-- An input with a statement of its own becomes a subselect that shows its rows. -/
theorem subselectJoin?_scalars (h : Owns σ path b.store sub) (hc : b.store.ScalarsOK loose exempt)
    (hjoin : (e.isJoin || e.isApply) = true → (b.store.get sub).joinExtents ≠ none)
    (hr : Runs (subselectJoin? sub e) b join b') :
    b'.store.ScalarsOK loose exempt ∧ (∀ info ∈ join, ∀ k l key c, b'.store.Single k l →
      b'.store.symbols.Files l key c → c ∉ info.columns) ∧
      (b.store.ScalarRows loose sub → b'.store.ShowsScalar loose sub) := by
  simp only [subselectJoin?, runs_bind, runs_statement, runs_ite, runs_pure, and_assoc, exists_and_left,
    exists_eq_left] at hr
  rcases hr with ⟨hempty, columns, b1, hsel, hr⟩ | ⟨hne, rfl, rfl⟩
  · have hs := isEmpty_iff.1 hempty
    obtain ⟨hc1, hstar⟩ := selectAll_scalars h hc hs hsel
    have hshows : b.store.ScalarRows loose sub → b1.store.ShowsScalar loose sub := by
      intro hrows
      cases hrows with
      | source _ hx _ _ => exact absurd hsel (not_runs_selectAll hx)
      | bare hbare hp hj => exact selectAll_shows h hbare hp hj hsel
      | shows hshows => exact absurd hs hshows.select
    rcases hr with ⟨hnested, rfl, rfl⟩ | ⟨-, hr⟩
    · refine ⟨hc1, fun info hmem k l key c hsingle hf hin => ?_, hshows⟩
      obtain rfl := Option.some.inj hmem
      exact absurd (hstar k l key c hsingle hf hin).2 (hjoin hnested)
    · have hapart := nestedJoin?_apart (fun j l key c hl hf hin => (hstar j l key c hl hf hin).1) hr
      obtain ⟨-, rfl⟩ := runs_nestedJoin?.1 hr
      exact ⟨hc1, hapart, hshows⟩
  · refine ⟨hc, by simp, fun hrows => ?_⟩
    cases hrows with
    | source hs _ _ _ => exact absurd (isEmpty_iff.2 hs) hne
    | bare hbare _ _ => exact absurd (isEmpty_iff.2 hbare.select) hne
    | shows hshows => exact hshows

/-- The source of an input, written behind the `FROM` list of the join. -/
theorem appendSource_scalars {item : FromItem} {new : List Part} (hok' : b'.store.OK) (hi : i < b.store.size)
    (hc : b.store.ScalarsOK loose exempt) (hs : (b.store.get i).selectList = [])
    (hb' : b' = { b with statements := b.statements.modify i fun s => { s with fromList := s.fromList ++ new } })
    (hitems : ({ b.store.get i with fromList := (b.store.get i).fromList ++ new } : Statement).fromItems =
      (b.store.get i).fromItems ++ [item]) (hitem : item.named? = none)
    (hsource : e.hasScalarRows = true → ∀ p, item = .enclosed p → b.store.ScalarSource loose p) :
    b'.store.ScalarsOK loose exempt ∧ (b'.store.get i).selectList = [] ∧
      (e.hasScalarRows = true → ∀ p, (b'.store.get i).EndsWith p → b'.store.ScalarSource loose p) := by
  rw [store_update hb'] at hok' ⊢
  rw [get_modify_self hi]
  refine ⟨hc.append_from hok' hi hs rfl ?_, hs, fun he p hend => ?_⟩
  · unfold aliases
    rw [hitems, filterMap_append, filterMap_cons, hitem]
    exact append_nil _
  · refine (hsource he p (endsWith_concat hitems hend)).settles (settles_modify fun hne => ?_)
    exact absurd hs hne

theorem writeSource_scalars (h : Joining σ outer frames b i) (hopen : SourceFollows (b.store.get i)) (hs : Step b b1)
    (hf : FragmentSound b1.store b.store.size (around b.building) f) (hsel : (b.store.get i).selectList = [])
    (hc : b1.store.ScalarsOK loose exempt) (hy : YieldsScalars loose e f b1.store)
    (hjoin : (e.isJoin || e.isApply) = true → ∀ sub, f = .statement sub → (b1.store.get sub).joinExtents ≠ none)
    (hr : Runs (writeSource i e f) b1 join b') :
    (b'.store.ScalarsOK loose exempt ∧ (b'.store.get i).selectList = [] ∧
      (e.hasScalarRows = true → ∀ p, (b'.store.get i).EndsWith p → b'.store.ScalarSource loose p)) ∧
      ∀ info ∈ join, ∀ k l key c, b'.store.Single k l → b'.store.symbols.Files l key c → c ∉ info.columns := by
  have hok' := (writeSource_spec h hopen hs hf hr).1.owns.ok
  have hlt : ∀ {b2 : Build}, Store.Grows b.store.size b.store b2.store → i < b2.store.size :=
    fun hg => lt_of_lt_of_le h.owns.lt hg.size
  rcases writeSource_cases hr with ⟨sub, b2, rfl, hsub, hb'⟩ | ⟨rfl, hne, hb'⟩
  · have ho : Owns b.store (around b.building) b1.store sub := ⟨hs.store, hs.grows, hf⟩
    obtain ⟨ho2, -, -⟩ := subselectJoin?_spec ho hsub
    obtain ⟨hc2, hapart, hshows⟩ := subselectJoin?_scalars ho hc (fun he => hjoin he sub rfl) hsub
    have hsame := ho2.grows.text i h.owns.lt
    obtain ⟨hc', hsel', hend⟩ := appendSource_scalars (e := e) hok' (hlt ho2.grows) hc2 (hsame.selectList.trans hsel) hb'
      (fromItems_enclosed _ _ (by simp) (by simp)) rfl fun he p hp => by
        obtain rfl := FromItem.enclosed.inj hp
        exact .subselect rfl (hshows (hy he))
    refine ⟨⟨hc', hsel', hend⟩, fun info hmem k l key c hsingle hfile => ?_⟩
    rw [store_update hb'] at hsingle hfile
    exact hapart info hmem k l key c (hsingle.of_modify (fun _ => rfl) fun _ => rfl) hfile
  · -- a text keeps what it was as a source
    have hsource : e.hasScalarRows = true → e.isCall = false → b1.store.ScalarSource loose f.toPart := by
      cases f with
      | statement sub => exact absurd rfl (hne sub)
      | _ => exact hy
    have hsame := hs.grows.text i h.owns.lt
    obtain ⟨item, hitems, hnone, henclosed⟩ := exists_sourceItem e f (hopen.grows h.owns.lt hs.grows)
    refine ⟨appendSource_scalars hok' (hlt hs.grows) hc (hsame.selectList.trans hsel) hb' hitems hnone fun he p hp => ?_,
      nofun⟩
    obtain ⟨rfl, hcall⟩ := henclosed p hp
    exact hsource he hcall

/-! ## One input -/

/-- The join keeps sources of scalar rows in order, and selects nothing yet. -/
structure JoinScalars (loose : Prop) (exempt : List StatementId) (b : Build) (i : StatementId) : Prop where
  scalars : b.store.ScalarsOK loose exempt
  select : (b.store.get i).selectList = []

/-- The operand continues the statement of the join around it, and keeps sources of scalar rows in order. -/
def TakenScalars (loose : Prop) (operand : Operand) : Prop :=
  ∀ ⦃exempt : List StatementId⦄ ⦃σ : Store⦄ ⦃outer : List StatementId⦄ ⦃frames : List (List (String × SymbolId))⦄
    ⦃b b' : Build⦄ ⦃i : StatementId⦄ ⦃f : Fragment⦄, Joining σ outer frames b i → Unjoined frames b i →
    b.inJoin = true → b.store.ScalarsOK loose exempt → Runs operand.build b f b' → JoinScalars loose exempt b' i

/-- What a join may assume of an input. -/
structure CarriedInput (loose : Prop) (input : Binding Operand) : Prop extends
    CarriedRows loose input.expr input.type where
  ok : JoinInputOK input.expr
  listed : (input.expr.expr.isJoin || input.expr.expr.isApply) = true → ∀ ⦃b b' : Build⦄ ⦃sub : StatementId⦄, Good b →
    b.inJoin = false → Runs input.expr.build b (.statement sub) b' → (b'.store.get sub).joinExtents ≠ none
  taken : (input.expr.expr.isJoin || input.expr.expr.isApply) = true → TakenScalars loose input.expr

theorem adjoin_scalars (h : Joining σ outer frames b i) (hopen : SourceFollows (b.store.get i)) (hs : Step b b1)
    (hf : FragmentSound b1.store b.store.size (around b.building) f) (hsel : (b.store.get i).selectList = [])
    (hc : b1.store.ScalarsOK loose exempt) (hy : YieldsScalars loose input.expr.expr f b1.store)
    (hscalars : input.type.isPrimitive = true → input.expr.expr.hasScalarRows = true)
    (hjoin : (input.expr.expr.isJoin || input.expr.expr.isApply) = true → ∀ sub, f = .statement sub →
      (b1.store.get sub).joinExtents ≠ none)
    (hr : Runs (adjoin i input f) b1 u b') : JoinScalars loose exempt b' i := by
  have hok' := (adjoin_spec h hopen hs hf hr).1.owns.ok
  simp only [adjoin, runs_bind, runs_bindVariable, runs_updateStatement] at hr
  obtain ⟨join, b2, hwrite, x, b3, hx, _, b4, hdecl, -, b5, rfl, hb'⟩ := hr
  obtain ⟨h2, -, hnested⟩ := writeSource_spec h hopen hs hf hwrite
  obtain ⟨⟨hc2, hsel2, hsource⟩, hapart⟩ := writeSource_scalars h hopen hs hf hsel hc hy hjoin hwrite
  obtain ⟨hn, hfresh⟩ := newExtent_spec hx h2.owns.ok hnested
  obtain ⟨hc3, hunused, -, hscalar⟩ := newExtent_scalars hc2 h2.owns.ok hnested hapart hx
  obtain ⟨hstore, -, -, -⟩ := declareInput_store hn.store hfresh hdecl hb'
  have hreg := (registered_spec hn.store x).1
  have hget : (b3.registered x).store.get i = b2.store.get i := (hreg.get i).trans (hn.get i)
  have hlt : i < (b3.registered x).store.size := lt_of_lt_of_le h2.owns.lt (hn.grows.size.trans hreg.grows.size)
  have hsel3 : ((b3.registered x).store.get i).selectList = [] := by rw [hget]; exact hsel2
  rw [hstore] at hok'
  have hc' := (scalars_registered hc3 x).declare hok' hlt (fun hne => absurd hsel3 hne) rfl (unused_registered hunused)
    fun _ p hend hx => by
      rw [hget] at hend
      have he := hscalars (hscalar ⟨hx.plain, hx.primitive⟩).2
      exact (hsource he p hend).settles (hn.grows.settles.trans hreg.grows.settles)
  rw [← hstore] at hc'
  refine ⟨hc', ?_⟩
  rw [hstore, get_modify_self hlt]
  exact hsel3

/-- The inputs of a join in first place become one flat join. -/
theorem absorb_scalars (h : Joining σ outer frames b i) (hframe : b.scopes.frames = [] :: frames)
    (hj : JoinScalars loose exempt b i) (hr : Runs (absorb i input 0) b u b') : JoinScalars loose exempt b' i := by
  have hok' := (absorb_spec h hframe hr).1.owns.ok
  obtain ⟨b1, hb1, -, hstore⟩ := absorb_cases hr
  rw [hstore] at hok'
  have hc1 := merge_scalars h.owns.ok hok' h.owns.lt hj.scalars (Or.inl hj.select) rfl (fun s => rfl) hb1
  refine ⟨by rw [hstore]; exact hc1, ?_⟩
  have hget := get_modify_self (σ := b.store) h.owns.lt fun s => s.relisted [b.names.symbols.size] s.joinExtents
  rw [hstore, hb1]
  exact (congrArg selectList hget).trans hj.select

theorem hasScalarRows_scan (he : e.isScan = true) : e.hasScalarRows = false := by
  cases e with
  | scan set => rfl
  | _ => cases he

/-- An input that the join does not take in. -/
theorem buildInput_scalars (hv : CarriedInput loose input) (hb : Good b) (hc : b.store.ScalarsOK loose exempt)
    (hr : Runs (underJoin input.expr.expr.isScan input.expr.build) b f b') :
    b'.store.ScalarsOK loose exempt ∧ YieldsScalars loose input.expr.expr f b'.store ∧
      ((input.expr.expr.isJoin || input.expr.expr.isApply) = true → ∀ sub, f = .statement sub →
        (b'.store.get sub).joinExtents ≠ none) := by
  obtain ⟨b1, hrun, rfl⟩ := runs_underJoin.1 hr
  cases hscan : input.expr.expr.isScan <;> rw [hscan] at hrun
  · have hb0 : Good { b with joins := false :: b.joins } := ⟨hb.store, hb.building, hb.scopes⟩
    obtain ⟨-, hc1, hy⟩ := hv.carries hb0 rfl hc hrun
    refine ⟨hc1, hy, fun he sub hf => ?_⟩
    subst hf
    change (b1.store.get sub).joinExtents ≠ none
    exact hv.listed he hb0 rfl hrun
  · obtain ⟨rfl, t, rfl⟩ := hv.ok.scan hscan rfl hrun
    refine ⟨hc, fun he => ?_, fun _ sub hf => nomatch hf⟩
    rw [hasScalarRows_scan hscan] at he; cases he

theorem joinInput_scalars {first : Bool} (h : Joining σ outer frames b i) (hopen : SourceFollows (b.store.get i))
    (hj : JoinScalars loose exempt b i) (hv : CarriedInput loose input) (hfirst : first = true → Unjoined frames b i)
    (hr : Runs (joinInput i first input) b u b') : JoinScalars loose exempt b' i := by
  rcases joinInput_cases h hv.ok hfirst hr with
    ⟨rfl, hjoin, b1, hrun, hj1, hscopes, habsorb⟩ | ⟨-, f, b1, hbuild, hs, hf, hadjoin⟩
  · -- a join in first place
    have hun := hfirst rfl
    obtain ⟨hc1, hsel1⟩ := hv.taken hjoin (h.under (true :: b.joins)) (hun.under _) rfl hj.scalars hrun
    exact absorb_scalars hj1 (by change b1.scopes.frames = _; rw [hscopes]; exact hun.scopes) ⟨hc1, hsel1⟩ habsorb
  · obtain ⟨hc, hy, hlisted⟩ := buildInput_scalars hv h.good hj.scalars hbuild
    exact adjoin_scalars h hopen hs hf hj.select hc hy hv.scalars hlisted hadjoin

/-! ## The whole join -/

section

variable {inputs : List (Binding Operand)} {keyword : String} {condition : Option Operand}

/-- Text behind the `FROM` list that declares no alias. -/
theorem JoinScalars.append_from {new : List Part} (hj : JoinScalars loose exempt b i) (hi : i < b.store.size)
    (hok' : b'.store.OK)
    (hb' : b' = { b with statements := b.statements.modify i fun s => { s with fromList := s.fromList ++ new } })
    (ha : ({ b.store.get i with fromList := (b.store.get i).fromList ++ new } : Statement).aliases =
      (b.store.get i).aliases) : JoinScalars loose exempt b' i := by
  have hstore := store_update hb'
  rw [hstore] at hok'
  have hc := hj.scalars.append_from hok' hi hj.select rfl ha
  refine ⟨by rw [hstore]; exact hc, ?_⟩
  rw [hstore, get_modify_self hi]
  exact hj.select

theorem joinKeeps_scalars (hv : ∀ input ∈ inputs, CarriedInput loose input) :
    JoinKeeps σ outer frames i keyword inputs fun _ b => JoinScalars loose exempt b i where
  first input _ _ _ _ hin h hopen hun hj hr :=
    joinInput_scalars h hopen hj (hv input (by rw [hin]; simp)) (fun _ => hun) hr
  next _ input _ b _ _ _ hin h hj hb1 h1 hopen hr := by
    have hj1 := hj.append_from h.owns.lt h1.owns.ok hb1
      (adds_texts (b.store.get i) [.line, .text keyword, .text " "] fun _ => rfl).aliases
    exact joinInput_scalars h1 hopen hj1 (hv input (by rw [hin]; simp)) (by simp) hr

theorem joinCondition_scalars (hv : ∀ c ∈ condition, Carried loose c) (h : Joining σ outer frames b i)
    (hj : JoinScalars loose exempt b i) (hr : Runs (joinCondition i condition) b u b') : JoinScalars loose exempt b' i := by
  rcases joinCondition_cases (fun c hc => (hv c hc).sound) h hr with ⟨-, rfl⟩ | ⟨c, f, b1, rfl, hrun, hs, h1, h', hb'⟩
  · exact hj
  · have hgood : Good { b with joins := false :: b.joins } := ⟨h.good.store, h.good.building, h.good.scopes⟩
    obtain ⟨-, hc1, -⟩ := (hv c rfl).carries hgood rfl hj.scalars hrun
    have hj1 : JoinScalars loose exempt { b1 with joins := b.joins } i :=
      ⟨hc1, (hs.grows.text i h.owns.lt).selectList.trans hj.select⟩
    obtain ⟨ht, hl⟩ := toPart_ne f
    exact hj1.append_from (lt_of_lt_of_le h.owns.lt hs.grows.size) h'.owns.ok hb' (adds_on _ _ ht hl).aliases

variable (hv : ∀ input ∈ inputs, CarriedInput loose input) (hcond : ∀ c ∈ condition, Carried loose c)

include hv hcond

theorem joinBody_scalars (h : Joining σ outer frames b i) (hun : Unjoined frames b i)
    (hc : b.store.ScalarsOK loose exempt) (hr : Runs (joinBody i keyword inputs condition) b u b') :
    JoinScalars loose exempt b' i :=
  (joinBody_keeps (fun input hm => (hv input hm).ok) (fun c hm => (hcond c hm).sound) (joinKeeps_scalars hv)
    (fun _ _ _ => joinCondition_scalars hcond) h hun ⟨hc, by rw [hun.get]⟩ hr).2.2

theorem joined_carries : Carries loose (joined keyword inputs condition) fun _ _ => True := by
  intro exempt b b' i hb hj hc hr
  obtain ⟨ho, hs⟩ := joined_makes (fun input hm => (hv input hm).ok) (fun c hm => (hcond c hm).sound) hb hj hr
  refine ⟨⟨ho.ok, hs, ho.grows⟩, ?_, trivial⟩
  obtain ⟨rfl, u, b1, hbody, rfl⟩ := runs_joined_new hj hr
  obtain ⟨hjoining, hun⟩ := joining_start hb rfl
  exact (joinBody_scalars hv hcond hjoining hun (hc.push rfl rfl) hbody).scalars

/-- A join in first place keeps sources of scalar rows in order where the join around it takes it in. -/
theorem joined_takenScalars (h : Joining σ outer frames b i) (hun : Unjoined frames b i) (hj : b.inJoin = true)
    (hc : b.store.ScalarsOK loose exempt) {j : StatementId} (hr : Runs (joined keyword inputs condition) b j b') :
    JoinScalars loose exempt b' i := by
  obtain ⟨rfl, u, b1, hbody, rfl⟩ := runs_joined_continued h.building hj hr
  obtain ⟨hjoining, hun0⟩ := joining_continued h hun rfl
  obtain ⟨hc1, hsel1⟩ := joinBody_scalars hv hcond hjoining hun0 hc hbody
  exact ⟨hc1, hsel1⟩

end

end Build

end RelSql
