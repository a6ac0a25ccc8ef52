/-
Joins make sound statements. While a join is built its own statement is the innermost one and
grows: each input is written as a source, gets an extent and binds its variable. A join that is the
first input of another one continues the statement of that one.
-/
import RelSql.Proofs.Build.Operators

namespace RelSql.Build

open Store List Statement

open Store (Sound FragmentSound Fresh Owns around)

/-- The join `i` is being built on top of the statements `outer`, which were there in `σ`, inside
the scopes `frames`. -/
structure Joining (σ : Store) (outer : List StatementId) (frames : List (List (String × SymbolId)))
    (b : Build) (i : StatementId) : Prop where
  owns : Owns σ (around outer) b.store i
  building : b.building = i :: outer
  older : ∀ k ∈ outer, k < σ.size
  listed : (b.store.get i).joinExtents = some (b.store.get i).aliases
  frame : ∃ frame, b.scopes.frames = frame :: frames ∧ ∀ v ∈ frame, v.2 ∈ (b.store.get i).fromExtents
  bound : ∀ frame ∈ frames, ∀ v ∈ frame, ∃ k ∈ outer, v.2 ∈ (σ.get k).fromExtents

section

variable {f : Fragment} {join : Option JoinInfo} {b1 : Build} {u : PUnit} {e : Expr} {input : Binding Operand}

variable {σ : Store} {outer : List StatementId} {frames : List (List (String × SymbolId))} {b b' : Build}
  {i : StatementId}

theorem Joining.good (h : Joining σ outer frames b i) : Good b := by
  refine ⟨h.owns.ok, fun k hk => ?_, fun fr hf v hv => ?_⟩
  · rw [h.building] at hk
    rcases mem_cons.1 hk with rfl | hk
    · exact h.owns.lt
    · exact lt_of_lt_of_le (h.older k hk) h.owns.grows.size
  · rw [h.building]
    obtain ⟨frame, hframes, hframe⟩ := h.frame
    rw [hframes] at hf
    rcases mem_cons.1 hf with rfl | hf
    · exact ⟨i, mem_cons_self, hframe v hv⟩
    · obtain ⟨k, hk, hx⟩ := h.bound fr hf v hv
      refine ⟨k, mem_cons_of_mem _ hk, ?_⟩
      rw [(h.owns.grows.text k (h.older k hk)).fromExtents]; exact hx

/-- A step that leaves the statements as they are. -/
theorem Joining.step (h : Joining σ outer frames b i) (hok : b'.store.OK)
    (hg : Store.Grows b.store.size b.store b'.store) (hbuilding : b'.building = b.building)
    (hscopes : b'.scopes = b.scopes) : Joining σ outer frames b' i := by
  have hsame := hg.text i h.owns.lt
  refine ⟨h.owns.step hok hg, hbuilding.trans h.building, h.older, ?_, ?_, h.bound⟩
  · rw [hsame.joinExtents, hsame.aliases]; exact h.listed
  · obtain ⟨frame, hframes, hframe⟩ := h.frame
    exact ⟨frame, by rw [hscopes]; exact hframes, by rw [hsame.fromExtents]; exact hframe⟩

/-- The join gains text or sound parts. -/
theorem Joining.adds (h : Joining σ outer frames b i) {f : Statement → Statement} {v : View} {new : List Part}
    {m : Nat} (hb' : b' = { b with statements := b.statements.modify i f })
    (ha : (b.store.get i).Adds v new (f (b.store.get i))) (hs : Sound b.store m ((i, v) :: around outer) new)
    (him : i < m) : Joining σ outer frames b' i := by
  obtain ⟨ho, hsame⟩ := update_spec h.owns hb' ha hs him
  have hget : b'.store.get i = f (b.store.get i) := by
    rw [hb']; exact get_modify_self h.owns.lt f
  refine ⟨ho, hsame.building.trans h.building, h.older, ?_, ?_, h.bound⟩
  · rw [hget, ha.joinExtents, ha.aliases]; exact h.listed
  · obtain ⟨frame, hframes, hframe⟩ := h.frame
    exact ⟨frame, by rw [hsame.scopes]; exact hframes, by rw [hget, ha.fromExtents]; exact hframe⟩

/-- The parts of a join still have no place when a statement gains more. -/
theorem Nests.adds {join : JoinInfo} {f : Statement → Statement} {v : View} {new : List Part} (h : Nests b.store join)
    (hb' : b' = { b with statements := b.statements.modify i f })
    (ha : (b.store.get i).Adds v new (f (b.store.get i))) : Nests b'.store join := by
  have hget : ∀ k < b.store.size, b'.store.get k = b.store.get k ∨ k = i ∧ b'.store.get k = f (b.store.get i) := by
    intro k hk
    by_cases hki : k = i
    · exact Or.inr ⟨hki, by rw [hki, hb']; exact get_modify_self (σ := b.store) (hki ▸ hk) f⟩
    · exact Or.inl (by rw [hb']; exact get_modify_of_ne (σ := b.store) hki f)
  refine ⟨h.nested, by rw [hb']; exact h.ok, h.unplaced.mono (by rw [hb']; rfl) fun e he => he.mono (fun k hk p hp => ?_)
    fun k hk hne => ?_⟩
  · rcases hget k hk with h | ⟨rfl, h⟩ <;> rw [h]
    · exact hp
    · exact ha.items p hp
  · rcases hget k hk with h | ⟨rfl, h⟩ <;> rw [h]
    · exact hne
    · rw [ha.select.1]; exact hne

/-! ## An input with an extent of its own -/

/-- The `FROM` list so far ends where a source may follow. -/
def SourceFollows (s : Statement) : Prop := s.fromList = [] ∨ ∃ ps, s.fromList = ps ++ [.text " "]

theorem SourceFollows.lastText {s : Statement} (h : SourceFollows s) :
    FromItem.lastText "" s.fromList = "" ∨ FromItem.lastText "" s.fromList = " " := by
  rcases h with h | ⟨ps, h⟩
  · exact Or.inl (by rw [h]; rfl)
  · exact Or.inr (by rw [h, FromItem.lastText_append_text])

theorem SourceFollows.grows (h : SourceFollows (b.store.get i)) (hi : i < b.store.size)
    (hg : Store.Grows b.store.size b.store b'.store) : SourceFollows (b'.store.get i) := by
  unfold SourceFollows
  rw [(hg.text i hi).fromList]; exact h

/-- The join with one more input. -/
def withInput (x : SymbolId) (s : Statement) : Statement :=
  { s.withExtent x with joinExtents := some (s.joinExtents.getD [] ++ [x]) }

/-- Writing a new extent, binding its variable and listing it. -/
theorem declareInput_store {x : SymbolId} {name : String} (hok : b.store.OK) (hx : Fresh b.store x)
    (hdecl : Runs (declareExtent i x) b u b1) (hb' : b' = { b1 with
      scopes := b1.scopes.add name x
      statements := b1.statements.modify i fun s =>
        { s with joinExtents := some (s.joinExtents.getD [] ++ [x]) } }) :
    b'.store = (b.registered x).store.modify i (withInput x) ∧ b'.scopes = b.scopes.add name x ∧
      b'.building = b.building ∧ b'.joins = b.joins := by
  -- a new extent is none of those that the join has
  have hnot : (b.store.get i).fromExtents.head? ≠ some x := by
    intro hh
    exact hx.undeclared i ((hok.statement i).leaves x (mem_of_mem_head? hh) x
      (.self (Symbol.isFlat_of_stands hx.stands)))
  rw [runs_declareExtent] at hdecl
  obtain ⟨-, hb1⟩ := hdecl.resolve_left fun hh => hnot hh.1
  refine ⟨?_, by rw [hb', hb1]; rfl, by rw [hb', hb1]; rfl, by rw [hb', hb1]; rfl⟩
  rw [hb', hb1]
  exact modify_modify (b.registered x).store i (·.withExtent x)
    fun s => { s with joinExtents := some (s.joinExtents.getD [] ++ [x]) }

theorem declareInput_spec {x : SymbolId} {name : String} (h : Joining σ outer frames b i) (hx : Fresh b.store x)
    (hdecl : Runs (declareExtent i x) b u b1) (hb' : b' = { b1 with
      scopes := b1.scopes.add name x
      statements := b1.statements.modify i fun s =>
        { s with joinExtents := some (s.joinExtents.getD [] ++ [x]) } }) :
    Joining σ outer frames b' i ∧ b'.joins = b.joins := by
  obtain ⟨hstore, hscopes, hbuilding, hjoins⟩ := declareInput_store h.owns.ok hx hdecl hb'
  obtain ⟨hn, hname⟩ := registered_spec h.owns.ok x
  have ho := hn.owns h.owns
  have hget := hn.get i
  have hx' : Fresh (b.registered x).store x :=
    ⟨hx.stands, fun k => by rw [hn.get]; exact hx.undeclared k⟩
  have hal : (withInput x ((b.registered x).store.get i)).aliases = ((b.registered x).store.get i).aliases ++ [x] := by
    exact aliases_withExtent _ x
  have hlist : (withInput x ((b.registered x).store.get i)).joinExtents =
      some (withInput x ((b.registered x).store.get i)).aliases := by
    rw [hal, hget, withInput, h.listed]; rfl
  have hgi : b'.store.get i = withInput x ((b.registered x).store.get i) := by
    rw [hstore]; exact get_modify_self ho.lt _
  have hfrom : (b'.store.get i).fromExtents = (b.store.get i).fromExtents ++ [x] := by
    rw [hgi, hget]; rfl
  refine ⟨⟨?_, hbuilding.trans h.building, h.older, ?_, ?_, h.bound⟩, hjoins⟩
  · rw [hstore]
    exact ho.declare hx' hname rfl (Or.inl hlist)
  · rw [hgi]; exact hlist
  · obtain ⟨frame, hframes, hframe⟩ := h.frame
    refine ⟨(Ident.key name, x) :: frame, ?_, fun v hv => ?_⟩
    · rw [hscopes]
      unfold Scopes.add; rw [hframes]
    · rw [hfrom, mem_append, mem_singleton]
      rcases mem_cons.1 hv with rfl | hv
      · exact Or.inr rfl
      · exact Or.inl (hframe v hv)

theorem Joining.stepped (h : Joining σ outer frames b i) (hs : Step b b') : Joining σ outer frames b' i :=
  h.step hs.store hs.grows hs.same.building hs.same.scopes

/-- A join with a statement of its own stays a join, nested now. -/
theorem subselectJoin?_spec {τ : Store} {path : Path} {sub : StatementId} (h : Owns τ path b.store sub)
    (hr : Runs (subselectJoin? sub e) b join b') :
    Owns τ path b'.store sub ∧ SameStacks b b' ∧
      ∀ j ∈ join, Nests b'.store j := by
  simp only [subselectJoin?, runs_bind, runs_statement, runs_ite, runs_pure, and_assoc, exists_and_left,
    exists_eq_left] at hr
  rcases hr with ⟨hnil, columns, b1, hsel, hr⟩ | ⟨-, rfl, rfl⟩
  · obtain ⟨ho, hs, hc, -, hu⟩ := selectAll_spec h (isEmpty_iff.1 hnil) hsel
    rcases hr with ⟨-, rfl, rfl⟩ | ⟨-, hr⟩
    · refine ⟨ho, hs, fun j hj => ?_⟩
      obtain rfl := Option.some.inj hj
      exact ⟨rfl, ⟨fun y hy => ((ho.ok.statement sub).fromExtents y hy).lt, by simp, hc, fun hn => by cases hn⟩, hu⟩
    · obtain ⟨rfl, hj⟩ := nestedJoin?_spec ho.ok hc hu hr
      exact ⟨ho, hs, hj⟩
  · exact ⟨h, .refl _, by simp⟩

/-- An input with a statement of its own is written as a subselect, any other one as it is. -/
theorem writeSource_cases (hr : Runs (writeSource i e f) b join b') :
    (∃ sub b1, f = .statement sub ∧ Runs (subselectJoin? sub e) b join b1 ∧
      b' = { b1 with statements := b1.statements.modify i fun s =>
        { s with fromList := s.fromList ++ [.text "(", .statement sub, .text ")"] } }) ∨
    join = none ∧ (∀ sub, f ≠ .statement sub) ∧ b' = { b with statements := b.statements.modify i fun s =>
      { s with fromList := s.fromList ++ (if e.isScan then [f.toPart] else sourceParts e.isCall f) } } := by
  cases f <;> simp only [writeSource, appendFrom, runs_bind, runs_updateStatement, runs_pure] at hr
  case statement sub =>
    obtain ⟨_, b1, hsub, -, _, rfl, rfl, rfl⟩ := hr
    exact Or.inl ⟨sub, b1, rfl, hsub, rfl⟩
  all_goals
    obtain ⟨-, _, rfl, rfl, rfl⟩ := hr
    exact Or.inr ⟨rfl, by simp, rfl⟩

/-- Writing the source of an input that was built inside the join. -/
theorem writeSource_spec (h : Joining σ outer frames b i) (hopen : SourceFollows (b.store.get i)) (hs : Step b b1)
    (hf : FragmentSound b1.store b.store.size (around b.building) f) (hr : Runs (writeSource i e f) b1 join b') :
    Joining σ outer frames b' i ∧ b'.joins = b.joins ∧
      ∀ j ∈ join, Nests b'.store j := by
  have him : i < b.store.size := h.owns.lt
  rcases writeSource_cases hr with ⟨sub, b2, rfl, hsub, hb'⟩ | ⟨rfl, -, hb'⟩
  · have ho : Owns b.store (around b.building) b1.store sub := ⟨hs.store, hs.grows, hf⟩
    obtain ⟨ho2, hs2, hj⟩ := subselectJoin?_spec ho hsub
    have h2 := h.step ho2.ok ho2.grows (hs2.building.trans hs.same.building) (hs2.scopes.trans hs.same.scopes)
    have hsound := ho2.sound
    rw [h.building] at hsound
    have hadds := adds_enclosed (b2.store.get i) (.statement sub) (by simp) (by simp)
    refine ⟨h2.adds hb' hadds (hsound.weaken (v := .enclosed) (by simp)) him, ?_, fun j hmem => (hj j hmem).adds hb' hadds⟩
    rw [hb']; exact hs2.joins.trans hs.same.joins
  · rw [h.building] at hf
    obtain ⟨ht, hl⟩ := toPart_ne f
    refine ⟨?_, by rw [hb']; exact hs.same.joins, nofun⟩
    have hplain : b' = { b1 with statements := b1.statements.modify i fun s =>
        { s with fromList := s.fromList ++ [f.toPart] } } → Joining σ outer frames b' i := fun hb' =>
      (h.stepped hs).adds hb' (adds_plain _ _ ht hl (hopen.grows him hs.grows).lastText)
        (hf.toPart.weaken (v := .source) (by simp)) him
    by_cases hscan : e.isScan = true
    · rw [if_pos hscan] at hb'; exact hplain hb'
    · rw [if_neg hscan] at hb'
      cases hcall : e.isCall with
      | true => rw [hcall] at hb'; exact hplain hb'
      | false =>
        rw [hcall] at hb'
        exact (h.stepped hs).adds hb' (adds_enclosed _ _ ht hl) (hf.toPart.weaken (v := .enclosed) (by simp)) him

theorem adjoin_spec (h : Joining σ outer frames b i) (hopen : SourceFollows (b.store.get i)) (hs : Step b b1)
    (hf : FragmentSound b1.store b.store.size (around b.building) f) (hr : Runs (adjoin i input f) b1 u b') :
    Joining σ outer frames b' i ∧ b'.joins = b.joins := by
  simp only [adjoin, runs_bind, runs_bindVariable, runs_updateStatement] at hr
  obtain ⟨join, b2, hwrite, x, b3, hx, _, b4, hdecl, -, b5, rfl, hb'⟩ := hr
  obtain ⟨h2, hj2, hjoin⟩ := writeSource_spec h hopen hs hf hwrite
  obtain ⟨hn, hfresh⟩ := newExtent_spec hx h2.owns.ok hjoin
  obtain ⟨h4, hj4⟩ := declareInput_spec (h2.stepped hn.toStep) hfresh hdecl hb'
  exact ⟨h4, hj4.trans (hn.same.joins.trans hj2)⟩

/-! ## Inputs that the join takes in -/

/-- The first input was written into the statement of the join: its extents become one flat join, to which its
variable is bound. -/
theorem absorb_cases (hr : Runs (absorb i input 0) b u b') :
    ∃ b1 : Build, b1 = { b with
        names := { b.names with symbols := b.names.symbols.push (.joined input.var input.type
          { extents := (b.store.get i).fromExtents }) }
        statements := b.statements.modify i fun s => s.relisted [b.names.symbols.size] s.joinExtents } ∧
      b' = { b1 with scopes := b.scopes.add input.var b.names.symbols.size } ∧ b'.store = b1.store := by
  simp only [absorb, runs_bind, runs_statement, runs_newSymbol, runs_updateStatement, runs_bindVariable,
    and_assoc, exists_and_left, exists_eq_left, exists_const, drop_zero] at hr
  exact ⟨_, rfl, hr, by rw [hr]; rfl⟩

theorem absorb_spec (h : Joining σ outer frames b i) (hframe : b.scopes.frames = [] :: frames)
    (hr : Runs (absorb i input 0) b u b') :
    Joining σ outer frames b' i ∧ b'.joins = b.joins := by
  obtain ⟨b1, hb1, hb', hstore⟩ := absorb_cases hr
  obtain ⟨ho, hfrom, hlisted⟩ := merge_spec h.owns h.listed rfl (Or.inl rfl) (fun s => rfl) hb1
  refine ⟨⟨by rw [hstore]; exact ho, ?_, h.older, by rw [hstore]; exact hlisted, ?_, h.bound⟩, ?_⟩
  · rw [hb', hb1]; exact h.building
  · refine ⟨[(Ident.key input.var, b.names.symbols.size)], ?_, fun v hv => ?_⟩
    · rw [hb']
      change (b.scopes.add _ _).frames = _
      unfold Scopes.add; rw [hframe]
    · rw [mem_singleton] at hv
      subst hv
      rw [hstore, hfrom]; exact mem_singleton_self _
  · rw [hb', hb1]

/-- The state of a join that has no input yet. -/
structure Unjoined (frames : List (List (String × SymbolId))) (b : Build) (i : StatementId) : Prop where
  get : b.store.get i = { joinExtents := some [] }
  scopes : b.scopes.frames = [] :: frames

/-- The operand continues the statement of the join around it. -/
def TakenIn (operand : Operand) : Prop :=
  ∀ ⦃σ : Store⦄ ⦃outer : List StatementId⦄ ⦃frames : List (List (String × SymbolId))⦄ ⦃b b' : Build⦄
    ⦃i : StatementId⦄ ⦃f : Fragment⦄, Joining σ outer frames b i → Unjoined frames b i → b.inJoin = true →
    Runs operand.build b f b' → f = .statement i ∧ Joining σ outer frames b' i ∧ SameStacks b b'

/-- What a join may assume of its inputs. -/
structure JoinInputOK (operand : Operand) : Prop where
  value : ValueOK operand
  scan : operand.expr.isScan = true → ∀ ⦃b b' : Build⦄ ⦃f : Fragment⦄, b.inJoin = true →
    Runs operand.build b f b' → b' = b ∧ ∃ t, f = .text t
  join : (operand.expr.isJoin || operand.expr.isApply) = true → TakenIn operand

/-- An input that the join does not take in. -/
theorem buildInput_spec {operand : Operand} {flag : Bool} (hv : JoinInputOK operand) (hb : Good b)
    (hflag : flag = true → operand.expr.isScan = true) (hr : Runs (underJoin flag operand.build) b f b') :
    Step b b' ∧ FragmentSound b'.store b.store.size (around b.building) f := by
  obtain ⟨b1, hrun, rfl⟩ := runs_underJoin.1 hr
  have hb1 : Good { b with joins := flag :: b.joins } := ⟨hb.store, hb.building, hb.scopes⟩
  cases flag with
  | false =>
    obtain ⟨hs, hf⟩ := hv.value hb1 rfl (le_refl _) sound_nil hrun
    refine ⟨⟨hs.store, ⟨hs.same.building, ?_, hs.same.scopes⟩, hs.grows⟩, hf⟩
    change b1.joins.drop 1 = b.joins
    rw [hs.same.joins]; rfl
  | true =>
    obtain ⟨rfl, t, rfl⟩ := hv.scan (hflag rfl) rfl hrun
    exact ⟨⟨hb.store, ⟨rfl, rfl, rfl⟩, .refl _ _⟩, sound_text.2 sound_nil⟩

theorem Joining.under (h : Joining σ outer frames b i) (joins : List Bool) :
    Joining σ outer frames { b with joins } i :=
  ⟨h.owns, h.building, h.older, h.listed, h.frame, h.bound⟩

theorem Unjoined.under (h : Unjoined frames b i) (joins : List Bool) : Unjoined frames { b with joins } i :=
  ⟨h.get, h.scopes⟩

theorem takesIn_cases (first : Bool) (e : Expr) : takesIn first e = e.isScan ∨
    e.isScan = false ∧ first = true ∧ (e.isJoin || e.isApply) = true ∧ takesIn first e = true := by
  unfold takesIn
  cases e.isScan <;> cases first <;> cases e.isJoin || e.isApply <;> simp

/-- An input is a join in first place, which continues the statement, or it gets an extent of its own. -/
theorem joinInput_cases {first : Bool} (h : Joining σ outer frames b i) (hv : JoinInputOK input.expr)
    (hfirst : first = true → Unjoined frames b i) (hr : Runs (joinInput i first input) b u b') :
    (first = true ∧ (input.expr.expr.isJoin || input.expr.expr.isApply) = true ∧ ∃ b1,
      Runs input.expr.build { b with joins := true :: b.joins } (.statement i) b1 ∧
      Joining σ outer frames { b1 with joins := b.joins } i ∧ b1.scopes = b.scopes ∧
      Runs (absorb i input 0) { b1 with joins := b.joins } u b') ∨
    takesIn first input.expr.expr = input.expr.expr.isScan ∧ ∃ f b1,
      Runs (underJoin input.expr.expr.isScan input.expr.build) b f b1 ∧ Step b b1 ∧
      FragmentSound b1.store b.store.size (around b.building) f ∧ Runs (adjoin i input f) b1 u b' := by
  simp only [joinInput, runs_bind, runs_statement, and_assoc, exists_and_left, exists_eq_left] at hr
  obtain ⟨f, b1, hbuild, hr⟩ := hr
  rcases takesIn_cases first input.expr.expr with hscan | ⟨-, rfl, hjoin, htakes⟩
  · rw [hscan] at hbuild
    obtain ⟨hs, hf⟩ := buildInput_spec hv h.good id hbuild
    refine Or.inr ⟨hscan, f, b1, hbuild, hs, hf, ?_⟩
    cases f with
    | statement sub =>
      dsimp only at hr
      have hne : sub ≠ i := Nat.ne_of_gt (lt_of_lt_of_le h.owns.lt (hf.recent sub (.here (by simp))))
      rwa [if_neg hne] at hr
    | parts ps => exact hr
    | symbol x => exact hr
    | nested x y => exact hr
  · have hun := hfirst rfl
    rw [htakes] at hbuild
    obtain ⟨b2, hrun, rfl⟩ := runs_underJoin.1 hbuild
    obtain ⟨rfl, hj, hs⟩ := hv.join hjoin (h.under _) (hun.under _) rfl hrun
    have hlen : (b.statements.get i).fromExtents.length = 0 := by
      have := hun.get
      unfold Store.get store at this
      rw [this]; rfl
    rw [hlen] at hr
    dsimp only at hr
    rw [if_pos rfl, hs.joins] at hr
    exact Or.inl ⟨rfl, hjoin, b2, hrun, hj.under _, hs.scopes, hr⟩

theorem joinInput_spec {first : Bool} (h : Joining σ outer frames b i) (hopen : SourceFollows (b.store.get i))
    (hv : JoinInputOK input.expr) (hfirst : first = true → Unjoined frames b i)
    (hr : Runs (joinInput i first input) b u b') :
    Joining σ outer frames b' i ∧ b'.joins = b.joins := by
  rcases joinInput_cases h hv hfirst hr with ⟨rfl, -, b1, -, hj, hscopes, habsorb⟩ | ⟨-, f, b1, -, hs, hf, hadjoin⟩
  · have hspec := absorb_spec hj (by change b1.scopes.frames = _; rw [hscopes]; exact (hfirst rfl).scopes) habsorb
    exact hspec
  · exact adjoin_spec h hopen hs hf hadjoin

/-- Behind the keyword of a join a source may follow. -/
theorem joinKeyword_spec {keyword : String} (h : Joining σ outer frames b i)
    (hb' : b' = { b with statements := b.statements.modify i fun s =>
      { s with fromList := s.fromList ++ [.line, .text keyword, .text " "] } }) :
    Joining σ outer frames b' i ∧ SourceFollows (b'.store.get i) := by
  refine ⟨h.adds hb' (adds_texts _ _ fun _ => rfl) (m := i + 1) sound_nil (Nat.lt_succ_self i), ?_⟩
  have hfrom : (b'.store.get i).fromList = ((b.store.get i).fromList ++ [.line, .text keyword]) ++ [.text " "] := by
    rw [(get_update hb' h.owns.lt).1, append_assoc]; rfl
  exact Or.inr ⟨_, hfrom⟩

/-! ## The whole join -/

/-- What a join keeps up while it is built: `P` holds of the inputs so far and the state after them. -/
structure JoinKeeps (σ : Store) (outer : List StatementId) (frames : List (List (String × SymbolId))) (i : StatementId)
    (keyword : String) (inputs : List (Binding Operand)) (P : List (Binding Operand) → Build → Prop) : Prop where
  first : ∀ ⦃input : Binding Operand⦄ ⦃rest : List (Binding Operand)⦄ ⦃b b' : Build⦄ ⦃u : PUnit⦄,
    inputs = input :: rest → Joining σ outer frames b i → SourceFollows (b.store.get i) → Unjoined frames b i → P [] b →
    Runs (joinInput i true input) b u b' → P [input] b'
  next : ∀ ⦃before : List (Binding Operand)⦄ ⦃input : Binding Operand⦄ ⦃rest : List (Binding Operand)⦄ ⦃b b1 b' : Build⦄
    ⦃u : PUnit⦄, inputs = before ++ input :: rest → Joining σ outer frames b i → P before b →
    b1 = { b with statements := b.statements.modify i fun s =>
      { s with fromList := s.fromList ++ [.line, .text keyword, .text " "] } } →
    Joining σ outer frames b1 i → SourceFollows (b1.store.get i) → Runs (joinInput i false input) b1 u b' →
    P (before ++ [input]) b'

section

variable {keyword : String} {inputs : List (Binding Operand)} {condition : Option Operand} {u : PUnit}
  {P : List (Binding Operand) → Build → Prop}

theorem joinRest_keeps (hv : ∀ input ∈ inputs, JoinInputOK input.expr) (hp : JoinKeeps σ outer frames i keyword inputs P) :
    ∀ {rest before : List (Binding Operand)} {b b' : Build} {u : PUnit}, inputs = before ++ rest →
      Joining σ outer frames b i → P before b → Runs (joinRest i keyword rest) b u b' →
      Joining σ outer frames b' i ∧ b'.joins = b.joins ∧ P inputs b'
  | [], before, b, b', u, hin, h, hd, hr => by
    simp only [joinRest, runs_pure] at hr
    obtain ⟨-, rfl⟩ := hr
    rw [hin, append_nil]
    exact ⟨h, rfl, hd⟩
  | input :: rest, before, b, b', u, hin, h, hd, hr => by
    simp only [joinRest, appendFrom, runs_bind, runs_updateStatement] at hr
    obtain ⟨-, b1, hb1, _, b2, hinput, hr⟩ := hr
    obtain ⟨h1, hopen⟩ := joinKeyword_spec h hb1
    have hmem : input ∈ inputs := by rw [hin]; simp
    obtain ⟨h2, hj2⟩ := joinInput_spec h1 hopen (hv input hmem) (by simp) hinput
    have hd2 := hp.next hin h hd hb1 h1 hopen hinput
    obtain ⟨h3, hj3, hd3⟩ := joinRest_keeps hv hp (by rw [hin, append_assoc]; rfl) h2 hd2 hr
    exact ⟨h3, by rw [hj3, hj2, hb1], hd3⟩

theorem joinInputs_keeps (hv : ∀ input ∈ inputs, JoinInputOK input.expr) (hp : JoinKeeps σ outer frames i keyword inputs P)
    (h : Joining σ outer frames b i) (hun : Unjoined frames b i) (hd : P [] b)
    (hr : Runs (joinInputs i keyword inputs) b u b') :
    Joining σ outer frames b' i ∧ b'.joins = b.joins ∧ P inputs b' := by
  cases inputs with
  | nil =>
    simp only [joinInputs, runs_pure] at hr
    obtain ⟨-, rfl⟩ := hr
    exact ⟨h, rfl, hd⟩
  | cons first rest =>
    simp only [joinInputs, runs_bind] at hr
    obtain ⟨_, b1, hfirst, hr⟩ := hr
    have hopen : SourceFollows (b.store.get i) := Or.inl (by rw [hun.get])
    obtain ⟨h1, hj1⟩ := joinInput_spec h hopen (hv first mem_cons_self) (fun _ => hun) hfirst
    have hd1 := hp.first rfl h hopen hun hd hfirst
    obtain ⟨h2, hj2, hd2⟩ := joinRest_keeps hv hp rfl h1 hd1 hr
    exact ⟨h2, hj2.trans hj1, hd2⟩

/-- A condition is built where all inputs are in scope, and written behind them. -/
theorem joinCondition_cases (hv : ∀ c ∈ condition, ValueOK c) (h : Joining σ outer frames b i)
    (hr : Runs (joinCondition i condition) b u b') : condition = none ∧ b' = b ∨ ∃ c f b1, condition = some c ∧
      Runs c.build { b with joins := false :: b.joins } f b1 ∧ Step { b with joins := false :: b.joins } b1 ∧
      Joining σ outer frames { b1 with joins := b.joins } i ∧ Joining σ outer frames b' i ∧
      b' = { b1 with
        joins := b.joins
        statements := b1.statements.modify i fun s => { s with fromList := s.fromList ++ [.text " ON ", f.toPart] } } := by
  cases condition with
  | none =>
    simp only [joinCondition, runs_pure] at hr
    exact Or.inl ⟨rfl, hr.2⟩
  | some c =>
    simp only [joinCondition, appendFrom, runs_bind, runs_underJoin, runs_updateStatement] at hr
    obtain ⟨f, _, ⟨b1, hrun, rfl⟩, rfl⟩ := hr
    have hgood := h.good
    obtain ⟨hs, hf⟩ := hv c rfl (b := { b with joins := false :: b.joins }) ⟨hgood.store, hgood.building, hgood.scopes⟩ rfl
      (le_refl _) sound_nil hrun
    have h1 : Joining σ outer frames { b1 with joins := b.joins } i :=
      h.step hs.store hs.grows hs.same.building hs.same.scopes
    have hdrop : b1.joins.drop 1 = b.joins := by rw [hs.same.joins]; rfl
    obtain ⟨ht, hl⟩ := toPart_ne f
    rw [MadeFragment] at hf
    change FragmentSound _ _ (around b.building) f at hf
    rw [h.building] at hf
    rw [hdrop]
    exact Or.inr ⟨c, f, b1, rfl, hrun, hs, h1, h1.adds rfl (adds_on _ _ ht hl) hf.toPart h.owns.lt, rfl⟩

theorem joinBody_keeps (hv : ∀ input ∈ inputs, JoinInputOK input.expr) (hc : ∀ c ∈ condition, ValueOK c)
    (hp : JoinKeeps σ outer frames i keyword inputs P)
    (hcondition : ∀ ⦃b b' : Build⦄ ⦃u : PUnit⦄, Joining σ outer frames b i → P inputs b →
      Runs (joinCondition i condition) b u b' → P inputs b')
    (h : Joining σ outer frames b i) (hun : Unjoined frames b i) (hd : P [] b)
    (hr : Runs (joinBody i keyword inputs condition) b u b') :
    Joining σ outer frames b' i ∧ b'.joins = b.joins ∧ P inputs b' := by
  simp only [joinBody, runs_bind] at hr
  obtain ⟨_, b1, hin, hcond⟩ := hr
  obtain ⟨h1, hj1, hd1⟩ := joinInputs_keeps hv hp h hun hd hin
  have hd2 := hcondition h1 hd1 hcond
  rcases joinCondition_cases hc h1 hcond with ⟨-, rfl⟩ | ⟨c, f, b2, -, -, -, -, h2, rfl⟩
  · exact ⟨h1, hj1, hd2⟩
  · exact ⟨h2, hj1, hd2⟩

theorem joinBody_spec (hv : ∀ input ∈ inputs, JoinInputOK input.expr) (hc : ∀ c ∈ condition, ValueOK c)
    (h : Joining σ outer frames b i) (hun : Unjoined frames b i)
    (hr : Runs (joinBody i keyword inputs condition) b u b') : Joining σ outer frames b' i ∧ b'.joins = b.joins := by
  have hp : JoinKeeps σ outer frames i keyword inputs fun _ _ => True := ⟨by simp, by simp⟩
  obtain ⟨h', hj, -⟩ := joinBody_keeps hv hc hp (by simp) h hun trivial hr
  exact ⟨h', hj⟩

end

theorem owns_emptyJoin {path : Path} (hok : σ.OK) :
    Owns σ path (σ.push { joinExtents := some [] }) σ.size := by
  refine .of_new hok (.refl _ _) ⟨nofun, nofun, nofun, nofun, fun _ => .slnil, nofun, nofun, nodup_nil, Or.inl rfl,
    fun _ => rfl⟩ rfl ⟨rfl, rfl⟩ fun v => ?_
  cases v <;> exact sound_nil

/-- A new statement for a join, on top of the others and in a scope of its own. -/
theorem joining_start {b0 : Build} (hb : Good b) (hb0 : b0 = { b with
      statements := b.statements.push { joinExtents := some [] }
      building := b.statements.size :: b.building, scopes := b.scopes.enter }) :
    Joining b.store b.building b.scopes.frames b0 b.statements.size ∧ Unjoined b.scopes.frames b0 b.statements.size := by
  have hstore : b0.store = b.store.push { joinExtents := some [] } := by rw [hb0]; rfl
  have hget : b0.store.get b.statements.size = { joinExtents := some [] } := by
    rw [hstore]; exact get_push_size _ _
  refine ⟨⟨by rw [hstore]; exact owns_emptyJoin hb.store, by rw [hb0], hb.building, by rw [hget]; rfl, ?_,
    hb.scopes⟩, hget, by rw [hb0]; rfl⟩
  exact ⟨[], by rw [hb0]; rfl, nofun⟩

/-- The statement of the join around, in a further scope. -/
theorem joining_continued {b0 : Build} (h : Joining σ outer frames b i) (hun : Unjoined frames b i)
    (hb0 : b0 = { b with scopes := b.scopes.enter }) :
    Joining σ outer ([] :: frames) b0 i ∧ Unjoined ([] :: frames) b0 i := by
  have hstore : b0.store = b.store := by rw [hb0]; rfl
  have hscopes : b0.scopes.frames = [] :: [] :: frames := by rw [hb0, ← hun.scopes]; rfl
  refine ⟨⟨by rw [hstore]; exact h.owns, by rw [hb0]; exact h.building, h.older, by rw [hstore]; exact h.listed,
    ⟨[], hscopes, nofun⟩, fun frame hf v hv => ?_⟩, by rw [hstore]; exact hun.get, hscopes⟩
  rcases mem_cons.1 hf with rfl | hf
  · cases hv
  · exact h.bound frame hf v hv

variable {keyword : String} {inputs : List (Binding Operand)} {condition : Option Operand}

/-- A join where none takes it in has a new statement. -/
theorem runs_joined_new {b b' : Build} {i : StatementId} (hj : b.inJoin = false)
    (hr : Runs (joined keyword inputs condition) b i b') : i = b.statements.size ∧ ∃ u b1,
      Runs (joinBody i keyword inputs condition) { b with
        statements := b.statements.push { joinExtents := some [] }
        building := b.statements.size :: b.building, scopes := b.scopes.enter } u b1 ∧
      b' = { b1 with scopes := b1.scopes.leave, building := b1.building.drop 1 } := by
  simp only [joined, runs_bind, runs_parentTakesIn, runs_ite, runs_newStatement, runs_within, runs_inScope,
    runs_pure, and_assoc, exists_and_left, exists_eq_left] at hr
  unfold inJoin at hj
  rw [hj] at hr
  obtain ⟨-, u, _, ⟨_, ⟨b1, hbody, rfl⟩, rfl⟩, rfl, rfl⟩ := hr.resolve_left fun h => by simp at h
  exact ⟨rfl, u, b1, hbody, rfl⟩

/-- A join that the one around it takes in continues its statement. -/
theorem runs_joined_continued {b b' : Build} {i j : StatementId} (h : b.building = i :: outer)
    (hj : b.inJoin = true) (hr : Runs (joined keyword inputs condition) b j b') : j = i ∧ ∃ u b1,
      Runs (joinBody i keyword inputs condition) { b with scopes := b.scopes.enter } u b1 ∧
      b' = { b1 with scopes := b1.scopes.leave } := by
  simp only [joined, runs_bind, runs_parentTakesIn, runs_ite, runs_current, runs_newStatement, runs_within,
    runs_inScope, runs_pure, and_assoc, exists_and_left, exists_eq_left] at hr
  unfold inJoin at hj
  rw [hj] at hr
  obtain ⟨-, j', b2, ⟨rest, hbuilding, hb2⟩, u, _, ⟨b1, hbody, rfl⟩, rfl, rfl⟩ :=
    hr.resolve_right fun h => h.1 rfl
  subst b2
  rw [h] at hbuilding
  obtain ⟨rfl, -⟩ := cons.inj hbuilding
  exact ⟨rfl, u, b1, hbody, rfl⟩

theorem joined_makes (hv : ∀ input ∈ inputs, JoinInputOK input.expr) (hc : ∀ c ∈ condition, ValueOK c) :
    MakesStatement (joined keyword inputs condition) := by
  intro b b' i hb hj hr
  obtain ⟨rfl, u, b1, hbody, rfl⟩ := runs_joined_new hj hr
  generalize hb0 : ({ b with
    statements := b.statements.push { joinExtents := some [] }
    building := b.statements.size :: b.building, scopes := b.scopes.enter } : Build) = b0 at hbody
  obtain ⟨hjoining, hun⟩ := joining_start hb hb0.symm
  obtain ⟨h, hjs⟩ := joinBody_spec hv hc hjoining hun hbody
  refine ⟨h.owns, ?_, ?_, ?_⟩
  · change b1.building.drop 1 = _
    rw [h.building]; rfl
  · change b1.joins = b.joins
    rw [hjs, ← hb0]
  · obtain ⟨frame, hframes, -⟩ := h.frame
    change b1.scopes.leave = b.scopes
    unfold Scopes.leave
    rw [hframes]; rfl

/-- The statement of a join lists the extents that it joins. -/
theorem joined_listed (hv : ∀ input ∈ inputs, JoinInputOK input.expr) (hc : ∀ c ∈ condition, ValueOK c)
    {b b' : Build} {i : StatementId} (hb : Good b) (hj : b.inJoin = false)
    (hr : Runs (joined keyword inputs condition) b i b') : (b'.store.get i).joinExtents ≠ none := by
  obtain ⟨rfl, u, b1, hbody, rfl⟩ := runs_joined_new hj hr
  obtain ⟨hjoining, hun⟩ := joining_start hb rfl
  have hlisted := (joinBody_spec hv hc hjoining hun hbody).1.listed
  change (b1.store.get b.statements.size).joinExtents ≠ none
  rw [hlisted]; exact nofun

theorem joined_takenIn (hv : ∀ input ∈ inputs, JoinInputOK input.expr) (hc : ∀ c ∈ condition, ValueOK c)
    {b b' : Build} {i j : StatementId} (h : Joining σ outer frames b i) (hun : Unjoined frames b i)
    (hj : b.inJoin = true) (hr : Runs (joined keyword inputs condition) b j b') :
    j = i ∧ Joining σ outer frames b' i ∧ SameStacks b b' := by
  obtain ⟨rfl, u, b1, hbody, rfl⟩ := runs_joined_continued h.building hj hr
  generalize hb0 : ({ b with scopes := b.scopes.enter } : Build) = b0 at hbody
  obtain ⟨hjoining, hun0⟩ := joining_continued h hun hb0.symm
  obtain ⟨h1, hjs⟩ := joinBody_spec hv hc hjoining hun0 hbody
  have hleave : b1.scopes.leave.frames = [] :: frames := by
    obtain ⟨frame, hframes, -⟩ := h1.frame
    unfold Scopes.leave; rw [hframes]; rfl
  refine ⟨rfl, ⟨h1.owns, h1.building, h.older, h1.listed, ⟨[], hleave, by simp⟩, h.bound⟩, ?_, ?_, ?_⟩
  · exact h1.building.trans h.building.symm
  · change b1.joins = b.joins
    rw [hjs, ← hb0]
  · exact congrArg Scopes.mk (hleave.trans hun.scopes.symm)

end

end RelSql.Build
