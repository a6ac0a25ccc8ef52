/-
The single changes that the construction of a query makes to its statements and symbols: new names,
a new statement, a clause that grows, an outer extent that is recorded and an extent that is
declared. Each keeps the invariant, and says what stays sound.
-/
import RelSql.Proofs.Build.Invariant

namespace RelSql.Store

open RelSql.Part FromItem Statement Symbols List

variable {σ τ : Store}

/-! ## A statement in a store that has grown -/

theorem StatementOK.grows {s : Statement} (h : StatementOK σ s) (hw : σ.symbols.WF) (hsize : σ.size ≤ τ.size)
    (hg : σ.symbols.Grows τ.symbols)
    (he : ∀ name, σ.names.extents.contains name = true → τ.names.extents.contains name = true) :
    StatementOK τ s := by
  refine ⟨fun e hs => lt_of_lt_of_le (h.symbols e hs) hg.size,
    fun j hj => lt_of_lt_of_le (h.statements j hj) hsize,
    fun x hx => (h.fromExtents x hx).grows hg,
    fun x hx e hr => h.leaves x hx e (hr.of_grows hw hg (h.fromExtents x hx).lt), fun depth => ?_,
    fun x hx => (h.outer x hx).grows hg, fun e ha => ?_, h.nodup, h.listed, h.empty⟩
  · rw [flatMap_congr fun x hx => expand_grows hw hg depth (h.fromExtents x hx).lt]
    exact h.inOrder depth
  · obtain ⟨hst, hname⟩ := h.aliases e ha
    have hgrow := hg.symbol e (lt_of_stands hst)
    rw [hgrow.stands, hgrow.name]
    exact ⟨hst, he _ hname⟩

/-! ## New names -/

section

variable {names : Names}

theorem OK.withNames (hok : σ.OK) (hw : names.symbols.WF) (hg : σ.symbols.Grows names.symbols)
    (he : ∀ name, σ.names.extents.contains name = true → names.extents.contains name = true)
    (ht : (σ.withNames names).Tidy) : (σ.withNames names).OK :=
  ⟨hw, fun k hk => (hok.statements k hk).grows hok.symbols (le_refl _) hg he, hok.unique, hok.acyclic, ht⟩

theorem retains_withNames (n : Nat) (hg : σ.symbols.Grows names.symbols)
    (he : ∀ name, σ.names.extents.contains name = true → names.extents.contains name = true) :
    Retains n σ (σ.withNames names) :=
  ⟨le_refl _, fun _ _ => .refl _, fun _ _ _ h => h, hg, he⟩

end

/-! ## A new statement -/

/-- A new statement that declares nothing yet keeps the invariant. -/
theorem OK.push (hok : σ.OK) {s : Statement} (hs : StatementOK σ s) (ha : s.aliases = [])
    (hsel : s.selectList = [] ∧ s.output = []) : (σ.push s).OK := by
  have hcases : ∀ k, (k = σ.size ∧ (σ.push s).get k = s) ∨ (σ.push s).get k = σ.get k := by
    intro k
    rw [get_push]
    split
    · rename_i h; exact Or.inl ⟨h, rfl⟩
    · exact Or.inr rfl
  have hgrow : ∀ {t : Statement}, StatementOK σ t → StatementOK (σ.push s) t :=
    fun h => h.grows hok.symbols (by simp) (.refl _) fun _ h => h
  refine ⟨hok.symbols, fun k _ => ?_, fun k l e hk hl => ?_, fun k hk => ?_,
    hok.tidy.of_statements rfl (fun k hk p hp => by rwa [get_push_of_lt hk])
      (fun k hk hs => by rwa [get_push_of_lt hk]) fun k => ?_⟩
  · rcases hcases k with ⟨-, h⟩ | h <;> rw [h]
    · exact hgrow hs
    · exact hgrow (hok.statement k)
  · rcases hcases k with ⟨-, h⟩ | h <;> rw [h] at hk
    · rw [ha] at hk; cases hk
    · rcases hcases l with ⟨-, h'⟩ | h' <;> rw [h'] at hl
      · rw [ha] at hl; cases hl
      · exact hok.unique k l e hk hl
  · -- the parts of every statement are in range, so the new one occurs nowhere
    have hrange : ∀ j, Part.statement j ∈ Part.atoms ((σ.push s).get k).parts → j < σ.size := by
      rcases hcases k with ⟨-, h⟩ | h <;> rw [h]
      · exact hs.statements
      · exact (hok.statement k).statements
    have hold : Occurs σ.statements ((σ.push s).get k).parts k := by
      refine hk.congr fun j hj => ?_
      have := get_push_of_lt (lt_of_occurs hok hj hrange) s
      unfold get at this
      rw [this]; exact .refl _
    have hlt := lt_of_occurs hok hold hrange
    rw [get_push_of_lt hlt] at hold
    exact hok.acyclic k hold
  · rcases hcases k with ⟨-, h⟩ | h
    · rw [h]; exact Or.inr (selects_nil hsel.1 hsel.2)
    · exact Or.inl h

theorem grows_push (n : Nat) (hn : n ≤ σ.size) (s : Statement) : Grows n σ (σ.push s) := by
  refine ⟨⟨by simp, fun k hk => ?_, fun k hk x hx => ?_, .refl _, fun _ h => h⟩, fun _ _ _ _ => rfl⟩
  · rw [get_push_of_lt (lt_of_lt_of_le hk hn)]; exact .refl _
  · rw [get_push_of_lt (lt_of_lt_of_le hk hn)]; exact hx

/-! ## A changed statement -/

section

variable {i : StatementId} {f : Statement → Statement}

/-- In a store that differs only in `i`, an occurrence is an old one or goes through `i`. -/
theorem occurs_modify {ps : List Part} {k : StatementId} (h : Occurs (σ.modify i f).statements ps k) :
    Occurs σ.statements ps k ∨ Occurs (σ.modify i f).statements ps i ∧
      Occurs (σ.modify i f).statements ((σ.modify i f).get i).parts k := by
  induction h with
  | here h => exact Or.inl (.here h)
  | @within ps j k hj h ih =>
    by_cases hij : j = i
    · subst hij; exact Or.inr ⟨.here hj, h⟩
    · have hsame : (σ.modify i f).statements.get j = σ.statements.get j := get_modify_of_ne hij f
      rw [hsame] at ih
      rcases ih with ih | ⟨ih, ih'⟩
      · exact Or.inl (.within hj ih)
      · exact Or.inr ⟨.within hj (by rw [hsame]; exact ih), ih'⟩

/-- The changed statement itself occurs only where it did before. -/
theorem occurs_modify_self {ps : List Part} {k : StatementId}
    (h : Occurs (σ.modify i f).statements ps k) (hk : k = i) : Occurs σ.statements ps i := by
  induction h with
  | here h => rw [← hk]; exact .here h
  | @within ps j k hj h ih =>
    by_cases hij : j = i
    · rw [← hij]; exact .here hj
    · have hsame : (σ.modify i f).statements.get j = σ.statements.get j := get_modify_of_ne hij f
      rw [hsame] at ih
      exact .within hj (ih hk)

/-- The statement keeps its select list, or gets one for the first time. -/
def Reselects (σ : Store) (i : StatementId) (t : Statement) : Prop :=
  t.selectList = (σ.get i).selectList ∧ t.output = (σ.get i).output ∨ (σ.get i).selectList = [] ∧ σ.Selects i t

/-- A changed statement keeps the invariant if it is in order, keeps its sources, declares only extents
that no other one declares, and gets no statement that contains it. -/
theorem OK.modify (hok : σ.OK) (hi : i < σ.size) (hs : StatementOK σ (f (σ.get i)))
    (hitems : ∀ p ∈ (σ.get i).fromItems, p ∈ (f (σ.get i)).fromItems) (hsel : σ.Reselects i (f (σ.get i)))
    (ha : ∀ e ∈ (f (σ.get i)).aliases, e ∈ (σ.get i).aliases ∨ ∀ k, e ∉ (σ.get k).aliases)
    (hst : ∀ j, .statement j ∈ atoms (f (σ.get i)).parts →
      .statement j ∈ atoms (σ.get i).parts ∨ j ≠ i ∧ ¬ Occurs σ.statements (σ.get j).parts i) :
    (σ.modify i f).OK := by
  have hcases : ∀ k, (k = i ∧ (σ.modify i f).get k = f (σ.get i)) ∨
      (k ≠ i ∧ (σ.modify i f).get k = σ.get k) := by
    intro k
    by_cases hk : k = i
    · subst hk; exact Or.inl ⟨rfl, get_modify_self hi f⟩
    · exact Or.inr ⟨hk, get_modify_of_ne hk f⟩
  have hgrow : ∀ {t : Statement}, StatementOK σ t → StatementOK (σ.modify i f) t :=
    fun h => h.grows hok.symbols (by simp) (.refl _) fun _ h => h
  -- a cycle that is new would go through the statement that changes
  have hself : ¬ Occurs (σ.modify i f).statements ((σ.modify i f).get i).parts i := by
    intro h
    have h := occurs_modify_self h rfl
    rw [get_modify_self hi] at h
    cases h with
    | here h =>
      rcases hst _ h with h | ⟨h, -⟩
      · exact hok.acyclic i (.here h)
      · exact h rfl
    | within hj h =>
      rcases hst _ hj with hj | ⟨-, hj⟩
      · exact hok.acyclic i (.within hj h)
      · exact hj h
  refine ⟨hok.symbols, fun k _ => ?_, fun k l e hk hl => ?_, fun k hk => ?_,
    hok.tidy.of_statements rfl (fun k _ p hp => ?_) (fun k _ hne => ?_) fun k => ?_⟩
  · rcases hcases k with ⟨-, h⟩ | ⟨-, h⟩ <;> rw [h]
    · exact hgrow hs
    · exact hgrow (hok.statement k)
  · rcases hcases k with ⟨hki, h⟩ | ⟨-, h⟩ <;> rw [h] at hk <;>
      rcases hcases l with ⟨hli, h'⟩ | ⟨-, h'⟩ <;> rw [h'] at hl
    · rw [hki, hli]
    · rw [hki]
      exact hok.unique i l e ((ha e hk).resolve_right fun hn => hn l hl) hl
    · rw [hli]
      exact hok.unique k i e hk ((ha e hl).resolve_right fun hn => hn k hk)
    · exact hok.unique k l e hk hl
  · rcases hcases k with ⟨hki, h⟩ | ⟨hki, h⟩
    · rw [hki] at hk; exact hself hk
    · rcases occurs_modify hk with hold | ⟨hin, hout⟩
      · rw [h] at hold; exact hok.acyclic k hold
      · exact hself (hout.trans hin)
  · rcases hcases k with ⟨rfl, h⟩ | ⟨-, h⟩ <;> rw [h]
    · exact hitems p hp
    · exact hp
  · rcases hcases k with ⟨rfl, h⟩ | ⟨-, h⟩ <;> rw [h]
    · rcases hsel with ⟨hsame, -⟩ | ⟨hnil, -⟩
      · rw [hsame]; exact hne
      · exact absurd hnil hne
    · exact hne
  · rcases hcases k with ⟨rfl, h⟩ | ⟨-, h⟩
    · rw [h]
      exact Or.inr (hsel.elim (fun hsame => (hok.tidy.selects k).congr hsame.1 hsame.2) And.right)
    · exact Or.inl h

theorem grows_modify {n : Nat} (hi : n ≤ i) : Grows n σ (σ.modify i f) := by
  have hne : ∀ k < n, (σ.modify i f).get k = σ.get k :=
    fun k hk => get_modify_of_ne (Nat.ne_of_lt (lt_of_lt_of_le hk hi)) f
  refine ⟨⟨by simp, fun k hk => ?_, fun k hk x hx => ?_, .refl _, fun _ h => h⟩, fun _ _ _ _ => rfl⟩
  · rw [hne k hk]; exact .refl _
  · rw [hne k hk]; exact hx

/-- Parts in which the changed statement does not occur stay sound, if it keeps what it declares
and what it has recorded. -/
theorem Sound.modify {n : Nat} {path : Path} {ps : List Part} (h : Sound σ n path ps)
    (hno : ¬ Occurs σ.statements ps i) (ha : ∀ e ∈ (σ.get i).aliases, e ∈ (f (σ.get i)).aliases)
    (ho : ∀ x ∈ (σ.get i).outerExtents, x ∈ (f (σ.get i)).outerExtents) :
    Sound (σ.modify i f) n path ps := by
  have hsame : ∀ k, Occurs σ.statements ps k → (σ.get k).SameText ((σ.modify i f).get k) := by
    intro k hk
    rw [get_modify_of_ne (by rintro rfl; exact hno hk)]; exact .refl _
  refine ⟨h.symbols, fun j hj => by rw [size_modify]; exact h.statements j hj,
    fun j hj => h.recent j (hj.congr hsame), fun inner e hr hs => ?_⟩
  refine (h.held inner e (hr.congr hsame) hs).imp (fun k hk => ?_) fun k => ?_
  · rw [get_modify]
    split
    · rename_i hik; rw [← hik.1] at hk ⊢; exact ha e hk
    · exact hk
  · rintro ⟨x, hx, hr⟩
    refine ⟨x, ?_, hr⟩
    rw [get_modify]
    split
    · rename_i hik; rw [← hik.1] at hx ⊢; exact ho x hx
    · exact hx

end

end RelSql.Store

/-! ## A statement that grows -/

namespace RelSql

/-- `t` is `s` with the parts `new`, which stand in it in one way. -/
structure Statement.Gains (s : Statement) (v : View) (new : List Part) (t : Statement) : Prop where
  here : ∀ p ∈ Part.atoms (t.place v), p ∈ Part.atoms (s.place v) ∨ p ∈ Part.atoms new
  elsewhere : ∀ w, w ≠ v → t.place w = s.place w
  items : ∀ p ∈ s.fromItems, p ∈ t.fromItems
  aliases : t.aliases = s.aliases
  fromExtents : t.fromExtents = s.fromExtents
  joinExtents : t.joinExtents = s.joinExtents
  outerExtents : t.outerExtents = s.outerExtents

/-- None of the new parts are selected. -/
structure Statement.Adds (s : Statement) (v : View) (new : List Part) (t : Statement) : Prop extends
    Statement.Gains s v new t where
  select : t.selectList = s.selectList ∧ t.output = s.output

namespace Statement

/-- New parts of a clause. -/
theorem gains_body {s t : Statement} {ps : List Part} (hf : t.fromList = s.fromList)
    (hx : t.fromExtents = s.fromExtents) (hj : t.joinExtents = s.joinExtents)
    (ho : t.outerExtents = s.outerExtents)
    (h : ∀ p ∈ Part.atoms (t.selectList ++ t.condition ++ t.grouping ++ t.ordering ++ t.top.getD [] ++
        t.skip.getD []),
      p ∈ Part.atoms (s.selectList ++ s.condition ++ s.grouping ++ s.ordering ++ s.top.getD [] ++
        s.skip.getD []) ∨ p ∈ Part.atoms ps) :
    s.Gains .body ps t := by
  have hitems : t.fromItems = s.fromItems := by unfold fromItems; rw [hf]
  refine ⟨fun p hp => ?_, fun w hw => ?_, fun p hp => hitems ▸ hp, by unfold aliases; rw [hitems], hx, hj, ho⟩
  · have hp' := h p
    have hc : t.conditions = s.conditions := by unfold conditions; rw [hitems]
    simp only [place, body, Part.atoms_append, List.mem_append, hc] at hp hp' ⊢
    by_cases hcond : p ∈ Part.atoms s.conditions
    · simp [hcond]
    · simp only [hcond, or_false] at hp ⊢
      exact hp' hp
  · cases w with
    | body => exact absurd rfl hw
    | source => simp only [place, sources, hitems]
    | enclosed => simp only [place, enclosed, hitems]

variable (s : Statement) (ps : List Part)

/-- Items that are selected, and the columns that they return. -/
theorem gains_select (output : List OutputColumn) :
    s.Gains .body ps { s with selectList := s.selectList ++ ps, output } := by
  refine gains_body rfl rfl rfl rfl fun p hp => ?_
  simp only [Part.atoms_append, List.mem_append] at hp ⊢
  tauto

/-- Items that are selected from groups. -/
theorem gains_groups (grouping : List Part) (output : List OutputColumn) : s.Gains .body (ps ++ grouping)
    { s with selectList := s.selectList ++ ps, grouping := s.grouping ++ grouping, output } := by
  refine gains_body rfl rfl rfl rfl fun p hp => ?_
  simp only [Part.atoms_append, List.mem_append] at hp ⊢
  tauto

theorem adds_condition : s.Adds .body ps { s with condition := s.condition ++ ps } := by
  refine ⟨gains_body rfl rfl rfl rfl fun p hp => ?_, rfl, rfl⟩
  simp only [Part.atoms_append, List.mem_append] at hp ⊢
  tauto

theorem adds_ordering : s.Adds .body ps { s with ordering := s.ordering ++ ps } := by
  refine ⟨gains_body rfl rfl rfl rfl fun p hp => ?_, rfl, rfl⟩
  simp only [Part.atoms_append, List.mem_append] at hp ⊢
  tauto

theorem adds_top : s.Adds .body ps { s with top := some ps } := by
  refine ⟨gains_body rfl rfl rfl rfl fun p hp => ?_, rfl, rfl⟩
  simp only [Part.atoms_append, List.mem_append, Option.getD_some] at hp ⊢
  tauto

theorem adds_skip : s.Adds .body ps { s with skip := some ps } := by
  refine ⟨gains_body rfl rfl rfl rfl fun p hp => ?_, rfl, rfl⟩
  simp only [Part.atoms_append, List.mem_append, Option.getD_some] at hp ⊢
  tauto

/-- A mark is no text. -/
theorem adds_marks (distinct topMost : Bool) : s.Adds .body [] { s with distinct, topMost } :=
  ⟨gains_body rfl rfl rfl rfl fun _ hp => Or.inl hp, rfl, rfl⟩

/-- A new item of the `FROM` list that is no alias stands in the statement in its own way. -/
theorem adds_item {s t : Statement} {v : View} {p : Part} (item : FromItem)
    (ht : t = { s with fromList := t.fromList }) (hitems : t.fromItems = s.fromItems ++ [item])
    (hi : item = match v with
      | .body => .condition p
      | .source => .plain p
      | .enclosed => .enclosed p) : s.Adds v [p] t := by
  have hparts : t.selectList = s.selectList ∧ t.condition = s.condition ∧ t.grouping = s.grouping ∧
      t.ordering = s.ordering ∧ t.top = s.top ∧ t.skip = s.skip := by rw [ht]; simp
  obtain ⟨h1, h2, h3, h4, h5, h6⟩ := hparts
  refine ⟨⟨fun q hq => ?_, fun w hw => ?_, fun p hp => by rw [hitems]; exact List.mem_append_left _ hp, ?_,
    by rw [ht], by rw [ht], by rw [ht]⟩, h1, by rw [ht]⟩
  · cases v <;> subst hi <;>
      simp only [place, body, conditions, sources, enclosed, hitems, h1, h2, h3, h4, h5, h6,
        List.filterMap_append, List.filterMap_cons, List.filterMap_nil, FromItem.condition?, FromItem.plain?,
        FromItem.enclosed?, Part.atoms_append, List.mem_append] at hq ⊢ <;> tauto
  · cases v <;> subst hi <;> cases w <;> first
      | exact absurd rfl hw
      | simp only [place, body, conditions, sources, enclosed, hitems, h1, h2, h3, h4, h5, h6,
          List.filterMap_append, List.filterMap_cons, List.filterMap_nil, FromItem.condition?,
          FromItem.plain?, FromItem.enclosed?, List.append_nil]
  · cases v <;> subst hi <;> simp [aliases, hitems, FromItem.named?]

/-- A part that is more than text becomes an item of the `FROM` list. -/
theorem readAll_single {p : Part} (hp : ∀ t, p ≠ .text t) (hl : p ≠ .line) {last : String}
    (hlast : last ≠ " AS ") (rest : List Part) :
    FromItem.readAll last (p :: rest) = FromItem.readSource last p :: FromItem.readAll "" rest := by
  cases p with
  | text t => exact absurd rfl (hp t)
  | line => exact absurd rfl hl
  | symbol e => simp [FromItem.readAll, FromItem.read, hlast]
  | group ps => rfl
  | statement j => rfl

/-- Text behind the `FROM` list opens no item. -/
theorem adds_texts (h : ∀ last, FromItem.readAll last ps = []) :
    s.Adds .body [] { s with fromList := s.fromList ++ ps } := by
  have hitems : ({ s with fromList := s.fromList ++ ps } : Statement).fromItems = s.fromItems := by
    unfold fromItems; rw [FromItem.readAll_append, h, List.append_nil]
  have hplace : ∀ v, ({ s with fromList := s.fromList ++ ps } : Statement).place v = s.place v := by
    intro v
    cases v with
    | body => unfold place body conditions; rw [hitems]
    | source => unfold place sources; rw [hitems]
    | enclosed => unfold place enclosed; rw [hitems]
  refine ⟨⟨fun p hp => Or.inl ?_, fun w _ => hplace w, fun p hp => hitems.symm ▸ hp, ?_, rfl, rfl, rfl⟩, rfl, rfl⟩
  · rw [hplace] at hp; exact hp
  · unfold aliases; rw [hitems]

variable (p : Part) (hp : ∀ t, p ≠ .text t) (hl : p ≠ .line)

include hp hl

theorem fromItems_enclosed : ({ s with fromList := s.fromList ++ [.text "(", p, .text ")"] } : Statement).fromItems =
    s.fromItems ++ [.enclosed p] := by
  unfold fromItems
  rw [FromItem.readAll_append_text, readAll_single hp hl (by decide)]
  rfl

/-- A source in parentheses. -/
theorem adds_enclosed :
    s.Adds .enclosed [p] { s with fromList := s.fromList ++ [.text "(", p, .text ")"] } :=
  adds_item (.enclosed p) rfl (fromItems_enclosed s p hp hl) rfl

/-- A condition of a join. -/
theorem adds_on : s.Adds .body [p] { s with fromList := s.fromList ++ [.text " ON ", p] } := by
  refine adds_item (.condition p) rfl ?_ rfl
  unfold fromItems
  rw [FromItem.readAll_append_text, readAll_single hp hl (by decide)]
  rfl

theorem fromItems_plain (h : FromItem.lastText "" s.fromList = "" ∨ FromItem.lastText "" s.fromList = " ") :
    ({ s with fromList := s.fromList ++ [p] } : Statement).fromItems = s.fromItems ++ [.plain p] := by
  unfold fromItems
  rw [FromItem.readAll_append]
  rcases h with h | h <;> rw [h, readAll_single hp hl (by decide)] <;> rfl

/-- A source without parentheses, behind text that opens none of the other items. -/
theorem adds_plain (h : FromItem.lastText "" s.fromList = "" ∨ FromItem.lastText "" s.fromList = " ") :
    s.Adds .source [p] { s with fromList := s.fromList ++ [p] } :=
  adds_item (.plain p) rfl (fromItems_plain s p hp hl h) rfl

omit hp hl

/-- The statement with an extent behind its `FROM` list. -/
def withExtent (x : SymbolId) : Statement :=
  { s with fromExtents := s.fromExtents ++ [x], fromList := s.fromList ++ [.text " AS ", .symbol x] }

theorem fromItems_withExtent (x : SymbolId) : (s.withExtent x).fromItems = s.fromItems ++ [.named x] := by
  unfold fromItems withExtent
  rw [FromItem.readAll_append_text]
  simp [FromItem.readAll, FromItem.read]

@[simp] theorem aliases_withExtent (x : SymbolId) : (s.withExtent x).aliases = s.aliases ++ [x] := by
  simp [aliases, fromItems_withExtent, FromItem.named?]

@[simp] theorem place_withExtent (x : SymbolId) (v : View) : (s.withExtent x).place v = s.place v := by
  have hc : (s.withExtent x).conditions = s.conditions := by
    simp [conditions, fromItems_withExtent, FromItem.condition?]
  cases v with
  | body => unfold place body; rw [hc]; rfl
  | source => simp [place, sources, fromItems_withExtent, FromItem.plain?]
  | enclosed => simp [place, enclosed, fromItems_withExtent, FromItem.enclosed?]

/-- The statement with other lists of its extents. -/
def relisted (xs : List SymbolId) (j : Option (List SymbolId)) : Statement :=
  { s with fromExtents := xs, joinExtents := j }

end Statement

namespace Store

section

variable {σ : Store} {s t : Statement} {new : List Part} {m n : Nat} {path : Path} {v : View}

/-- What a statement has gained comes from the new parts. -/
theorem gains_parts (h : s.Gains v new t) {p : Part} (ht : ∀ x, p ≠ .text x) (hl : p ≠ .line)
    (hp : p ∈ Part.atoms t.parts) :
    p ∈ Part.atoms s.parts ∨ p ∈ Part.atoms new ∨ ∃ e ∈ s.aliases, p = .symbol e := by
  rcases Statement.mem_atoms_parts ht hl hp with ⟨w, hp⟩ | hp
  · by_cases hw : w = v
    · subst hw
      rcases h.here p hp with hp | hp
      · exact Or.inl (Statement.atoms_place_subset _ w _ hp)
      · exact Or.inr (Or.inl hp)
    · rw [h.elsewhere w hw] at hp
      exact Or.inl (Statement.atoms_place_subset _ w _ hp)
  · rw [h.aliases] at hp; exact Or.inr (Or.inr hp)

theorem StatementOK.gains (h : StatementOK σ s) (ha : s.Gains v new t) (hs : Sound σ m path new) :
    StatementOK σ t := by
  refine ⟨fun e he => ?_, fun j hj => ?_, ?_, ?_, ?_, ?_, ?_, ?_, ?_, ?_⟩
  · rcases gains_parts ha (p := .symbol e) nofun nofun he with he | he | ⟨e', he', heq⟩
    · exact h.symbols e he
    · exact hs.symbols e he
    · cases heq; exact Symbols.lt_of_stands (h.aliases e he').1
  · rcases gains_parts ha (p := .statement j) nofun nofun hj with hj | hj | ⟨e', he', heq⟩
    · exact h.statements j hj
    · exact hs.statements j hj
    · cases heq
  · rw [ha.fromExtents]; exact h.fromExtents
  · rw [ha.fromExtents, ha.aliases]; exact h.leaves
  · rw [ha.fromExtents, ha.aliases]; exact h.inOrder
  · rw [ha.outerExtents]; exact h.outer
  · rw [ha.aliases]; exact h.aliases
  · rw [ha.aliases]; exact h.nodup
  · have := h.listed
    unfold Listed at this ⊢
    rwa [ha.joinExtents, ha.aliases, ha.fromExtents]
  · rw [ha.fromExtents, ha.aliases]; exact h.empty

variable {i : StatementId} {f : Statement → Statement}

/-- A statement that gains parts made after it keeps the invariant. -/
theorem OK.gains (hok : σ.OK) (hi : i < σ.size) (ha : (σ.get i).Gains v new (f (σ.get i)))
    (hsel : σ.Reselects i (f (σ.get i))) (hs : Sound σ m path new) (him : i < m) : (σ.modify i f).OK := by
  refine hok.modify hi ((hok.statement i).gains ha hs) ha.items hsel (fun e he => ?_) fun j hj => ?_
  · rw [ha.aliases] at he; exact Or.inl he
  · rcases gains_parts ha (p := .statement j) nofun nofun hj with hj | hj | ⟨e', he', heq⟩
    · exact Or.inl hj
    · exact Or.inr ⟨Nat.ne_of_gt (lt_of_lt_of_le him (hs.recent j (.here hj))),
        fun ho => absurd (hs.recent i (.within hj ho)) (not_le.2 him)⟩
    · cases heq

/-- A sound statement that gains sound parts is sound. -/
theorem sound_gains (hok : σ.OK) (hok' : (σ.modify i f).OK) (hsnd : Sound σ n path [.statement i])
    (ha : (σ.get i).Gains v new (f (σ.get i))) (hs : Sound σ m ((i, v) :: path) new) (him : i < m) :
    Sound (σ.modify i f) n path [.statement i] := by
  obtain ⟨hi, hn, hp⟩ := (sound_statement hok).1 hsnd
  have hkeep : ∀ {q : Path} {ps : List Part} {l : Nat}, Sound σ l q ps → ¬ Occurs σ.statements ps i →
      Sound (σ.modify i f) l q ps := fun h hno =>
    h.modify hno (by rw [ha.aliases]; exact fun _ h => h) (by rw [ha.outerExtents]; exact fun _ h => h)
  have hno : ∀ w, ¬ Occurs σ.statements ((σ.get i).place w) i := fun w h =>
    hok.acyclic i (h.of_subset fun k hk => Statement.atoms_place_subset _ w _ hk)
  have hnew : ¬ Occurs σ.statements new i := fun ho => absurd (hs.recent i ho) (not_le.2 him)
  rw [sound_statement hok', get_modify_self hi]
  refine ⟨by simpa using hi, hn, fun w => ?_⟩
  by_cases hw : w = v
  · subst hw
    have := sound_append.2 ⟨hkeep (hp w) (hno w), hkeep (hs.mono (hn.trans him.le)) hnew⟩
    refine this.of_subset fun p hp _ _ => ?_
    rw [Part.atoms_append, List.mem_append]; exact ha.here p hp
  · rw [ha.elsewhere w hw]; exact hkeep (hp w) (hno w)

/-! ## Outer extents -/

/-- Recording an extent leaves the text as it is. -/
theorem sameText_addOuterExtent (s : Statement) (x : SymbolId) :
    s.SameText (s.addOuterExtent x) ∧ x ∈ (s.addOuterExtent x).outerExtents ∧
      ∀ y ∈ (s.addOuterExtent x).outerExtents, y ∈ s.outerExtents ∨ y = x := by
  unfold Statement.addOuterExtent
  split
  · rename_i h
    exact ⟨.refl s, by simpa using h, fun y hy => Or.inl hy⟩
  · exact ⟨rfl, by simp, fun y hy => by simpa using hy⟩

theorem mem_addOuterExtent {s : Statement} {x y : SymbolId} (h : y ∈ s.outerExtents) :
    y ∈ (s.addOuterExtent x).outerExtents := by
  unfold Statement.addOuterExtent
  split
  · exact h
  · exact List.mem_append_left _ h

variable {x : SymbolId}

theorem OK.mark (hok : σ.OK) (hi : i < σ.size) (hx : σ.symbols.IsExtent x) :
    (σ.modify i (·.addOuterExtent x)).OK := by
  obtain ⟨hsame, -, hnew⟩ := sameText_addOuterExtent (σ.get i) x
  have h := hok.statement i
  refine hok.modify hi ⟨?_, ?_, ?_, ?_, ?_, fun y hy => ?_, ?_, ?_, ?_, ?_⟩ (by rw [hsame.fromItems]; simp)
    (Or.inl ⟨hsame.selectList, hsame.output⟩) (fun e he => ?_) fun j hj => ?_
  · rw [hsame.parts]; exact h.symbols
  · rw [hsame.parts]; exact h.statements
  · rw [hsame.fromExtents]; exact h.fromExtents
  · rw [hsame.fromExtents, hsame.aliases]; exact h.leaves
  · rw [hsame.fromExtents, hsame.aliases]; exact h.inOrder
  · rcases hnew y hy with hy | rfl
    · exact h.outer y hy
    · exact hx
  · rw [hsame.aliases]; exact h.aliases
  · rw [hsame.aliases]; exact h.nodup
  · have := h.listed
    unfold Listed at this ⊢
    rwa [hsame.joinExtents, hsame.aliases, hsame.fromExtents]
  · rw [hsame.fromExtents, hsame.aliases]; exact h.empty
  · rw [hsame.aliases] at he; exact Or.inl he
  · rw [hsame.parts] at hj; exact Or.inl hj

theorem grows_mark (σ : Store) (i : StatementId) (x : SymbolId) (n : Nat) :
    Grows n σ (σ.modify i (·.addOuterExtent x)) := by
  refine ⟨⟨by simp, fun k _ => ?_, fun k _ y hy => ?_, .refl _, fun _ h => h⟩, fun _ _ _ _ => rfl⟩
  · rw [get_modify]
    split
    · exact (sameText_addOuterExtent _ x).1
    · exact .refl _
  · rw [get_modify]
    split
    · exact mem_addOuterExtent hy
    · exact hy

/-! ## Extents of a statement -/

/-- A statement may list its extents otherwise, if they reach what it declares. -/
theorem OK.relist (hok : σ.OK) (hi : i < σ.size) {xs : List SymbolId} {j : Option (List SymbolId)}
    (hf : f (σ.get i) = (σ.get i).relisted xs j)
    (hx : ∀ x ∈ xs, σ.symbols.IsExtent x ∧ ∀ e, σ.symbols.Reaches x e → e ∈ (σ.get i).aliases)
    (ho : ∀ depth, (xs.flatMap (σ.symbols.expand depth)).Sublist (σ.get i).aliases)
    (hl : Listed ((σ.get i).relisted xs j)) (he : xs = [] → (σ.get i).aliases = []) : (σ.modify i f).OK := by
  have h := hok.statement i
  refine hok.modify hi ?_ (by rw [hf]; exact fun _ hp => hp) (by rw [hf]; exact Or.inl ⟨rfl, rfl⟩) (fun e he => ?_) fun j hj => ?_
  · rw [hf]
    exact ⟨h.symbols, h.statements, fun x hm => (hx x hm).1, fun x hm => (hx x hm).2, ho, h.outer, h.aliases,
      h.nodup, hl, he⟩
  · rw [hf] at he; exact Or.inl he
  · rw [hf] at hj; exact Or.inl hj

/-- An extent is new if no statement declares it yet. -/
structure Fresh (σ : Store) (x : SymbolId) : Prop where
  stands : (σ.symbols.get x).stands = true
  undeclared : ∀ k, x ∉ (σ.get k).aliases

/-- A statement may declare a new extent. -/
theorem OK.declare (hok : σ.OK) (hi : i < σ.size) {j : Option (List SymbolId)} (hx : Fresh σ x)
    (hname : σ.names.extents.contains (σ.symbols.get x).name = true)
    (hf : f (σ.get i) = { (σ.get i).withExtent x with joinExtents := j })
    (hl : Listed (f (σ.get i))) : (σ.modify i f).OK := by
  have h := hok.statement i
  have hfrom : (f (σ.get i)).fromExtents = (σ.get i).fromExtents ++ [x] := by rw [hf]; rfl
  have houter : (f (σ.get i)).outerExtents = (σ.get i).outerExtents := by rw [hf]; rfl
  have haliases : (f (σ.get i)).aliases = (σ.get i).aliases ++ [x] := by
    rw [hf]; exact (σ.get i).aliases_withExtent x
  -- but for texts the alias is all that is new
  have hparts : ∀ p ∈ Part.atoms (f (σ.get i)).parts, (∀ t, p ≠ .text t) →
      p ∈ Part.atoms (σ.get i).parts ∨ p = .symbol x := by
    intro p hp ht
    rw [hf] at hp
    simp only [Statement.parts, Statement.withExtent, Part.atoms_append, Part.atoms_cons, Part.atomsOf_text,
      Part.atomsOf_symbol, Part.atoms_nil, List.append_nil, List.mem_append, List.mem_singleton] at hp ⊢
    have := ht " AS "
    tauto
  have hlt := Symbols.lt_of_stands hx.stands
  refine hok.modify hi ⟨fun e he => ?_, fun j hj => ?_, fun y hy => ?_, fun y hy e hr => ?_, fun depth => ?_, ?_,
    fun e he => ?_, ?_, hl, ?_⟩ (fun p hp => ?_) (by rw [hf]; exact Or.inl ⟨rfl, rfl⟩) (fun e he => ?_) fun j hj => ?_
  · rcases hparts _ he (by simp) with he | he
    · exact h.symbols e he
    · cases he; exact hlt
  · rcases hparts _ hj (by simp) with hj | hj
    · exact h.statements j hj
    · cases hj
  · rw [hfrom, List.mem_append, List.mem_singleton] at hy
    rcases hy with hy | rfl
    · exact h.fromExtents y hy
    · exact Symbols.isExtent_of_stands hx.stands
  · rw [hfrom, List.mem_append, List.mem_singleton] at hy
    rw [haliases, List.mem_append, List.mem_singleton]
    rcases hy with hy | rfl
    · exact Or.inl (h.leaves y hy e hr)
    · exact Or.inr ((Symbols.reaches_of_not_flat (Symbol.isFlat_of_stands hx.stands)).1 hr)
  · rw [hfrom, haliases, List.flatMap_append, List.flatMap_cons, List.flatMap_nil, List.append_nil]
    exact (h.inOrder depth).append (Symbols.expand_of_not_flat (Symbol.isFlat_of_stands hx.stands) depth)
  · rw [houter]; exact h.outer
  · rw [haliases, List.mem_append, List.mem_singleton] at he
    rcases he with he | rfl
    · exact h.aliases e he
    · exact ⟨hx.stands, hname⟩
  · rw [haliases]
    refine List.nodup_append.2 ⟨h.nodup, by simp, fun a ha b hb => ?_⟩
    rw [List.mem_singleton] at hb
    rintro rfl
    exact hx.undeclared i (hb ▸ ha)
  · rw [hfrom]; simp
  · rw [hf]
    change p ∈ ((σ.get i).withExtent x).fromItems
    rw [Statement.fromItems_withExtent]; exact List.mem_append_left _ hp
  · rw [haliases, List.mem_append, List.mem_singleton] at he
    rcases he with he | rfl
    · exact Or.inl he
    · exact Or.inr hx.undeclared
  · rcases hparts _ hj (by simp) with hj | hj
    · exact Or.inl hj
    · cases hj

/-- A sound statement stays sound when it declares more, or lists its extents otherwise. -/
theorem sound_same (hok : σ.OK) (hok' : (σ.modify i f).OK) (hsnd : Sound σ n path [.statement i])
    (hp : ∀ v, (f (σ.get i)).place v = (σ.get i).place v)
    (ha : ∀ e ∈ (σ.get i).aliases, e ∈ (f (σ.get i)).aliases)
    (ho : ∀ x ∈ (σ.get i).outerExtents, x ∈ (f (σ.get i)).outerExtents) :
    Sound (σ.modify i f) n path [.statement i] := by
  obtain ⟨hi, hn, hps⟩ := (sound_statement hok).1 hsnd
  rw [sound_statement hok', get_modify_self hi]
  refine ⟨by simpa using hi, hn, fun v => ?_⟩
  rw [hp v]
  exact (hps v).modify (fun h =>
    hok.acyclic i (h.of_subset fun k hk => Statement.atoms_place_subset _ v _ hk)) ha ho

end

/-! ## Statements made by a step -/

/-- The statement `i` was made since `σ`, while the statements of the path were being built, and is
sound in `τ`. -/
structure Owns (σ : Store) (path : Path) (τ : Store) (i : StatementId) : Prop where
  ok : τ.OK
  grows : Grows σ.size σ τ
  sound : Sound τ σ.size path [.statement i]

section

variable {σ τ υ : Store} {path : Path} {i : StatementId} {f : Statement → Statement}

theorem Owns.lt (h : Owns σ path τ i) : i < τ.size := ((sound_statement h.ok).1 h.sound).1

theorem Owns.le (h : Owns σ path τ i) : σ.size ≤ i := ((sound_statement h.ok).1 h.sound).2.1

theorem Owns.step (h : Owns σ path τ i) (hok : υ.OK) (hg : Grows τ.size τ υ) : Owns σ path υ i :=
  ⟨hok, h.grows.trans (hg.mono h.grows.size), h.sound.grows h.ok hg⟩

/-- New columns of the extents of the statement itself are none of those of an older one. -/
theorem Owns.retained (h : Owns σ path τ i) (hok : υ.OK) (hg : Retains τ.size τ υ)
    (hc : ∀ e, e ∉ (τ.get i).aliases → e < τ.symbols.size → (υ.symbols.get e).columns = (τ.symbols.get e).columns) :
    Owns σ path υ i := by
  refine ⟨hok, h.grows.trans ⟨⟨hg.size, fun k hk => hg.text k (lt_of_lt_of_le hk h.grows.size),
    fun k hk => hg.outer k (lt_of_lt_of_le hk h.grows.size), hg.symbols, hg.extents⟩, fun k hk e he => hc e ?_ ?_⟩,
    h.sound.retained h.ok hg⟩
  · intro hi
    exact absurd (h.ok.unique k i e he hi) (Nat.ne_of_lt (lt_of_lt_of_le hk h.le))
  · exact Symbols.lt_of_stands ((h.ok.statement k).aliases e he).1

/-- The statement gains sound parts that were made after it. -/
theorem Owns.gains (h : Owns σ path τ i) {v : View} {new : List Part} {m : Nat}
    (ha : (τ.get i).Gains v new (f (τ.get i))) (hsel : τ.Reselects i (f (τ.get i)))
    (hs : Sound τ m ((i, v) :: path) new) (him : i < m) : Owns σ path (τ.modify i f) i :=
  have hok := h.ok.gains h.lt ha hsel hs him
  ⟨hok, h.grows.trans (grows_modify h.le), sound_gains h.ok hok h.sound ha hs him⟩

/-- The statement lists its extents otherwise. -/
theorem Owns.relist (h : Owns σ path τ i) {xs : List SymbolId} {j : Option (List SymbolId)}
    (hf : f (τ.get i) = (τ.get i).relisted xs j)
    (hx : ∀ x ∈ xs, τ.symbols.IsExtent x ∧ ∀ e, τ.symbols.Reaches x e → e ∈ (τ.get i).aliases)
    (hd : ∀ depth, (xs.flatMap (τ.symbols.expand depth)).Sublist (τ.get i).aliases)
    (hl : Listed ((τ.get i).relisted xs j)) (he : xs = [] → (τ.get i).aliases = []) :
    Owns σ path (τ.modify i f) i := by
  have hok := h.ok.relist h.lt hf hx hd hl he
  refine ⟨hok, h.grows.trans (grows_modify h.le), sound_same h.ok hok h.sound (fun v => ?_) ?_ ?_⟩ <;> rw [hf]
  · rfl
  · exact fun _ h => h
  · exact fun _ h => h

/-- The statement declares a new extent. -/
theorem Owns.declare (h : Owns σ path τ i) {x : SymbolId} {j : Option (List SymbolId)} (hx : Fresh τ x)
    (hname : τ.names.extents.contains (τ.symbols.get x).name = true)
    (hf : f (τ.get i) = { (τ.get i).withExtent x with joinExtents := j })
    (hl : Listed (f (τ.get i))) : Owns σ path (τ.modify i f) i := by
  have hok := h.ok.declare h.lt hx hname hf hl
  refine ⟨hok, h.grows.trans (grows_modify h.le), sound_same h.ok hok h.sound (fun v => ?_) ?_ ?_⟩ <;> rw [hf]
  · exact (τ.get i).place_withExtent x v
  · intro e he
    change e ∈ ((τ.get i).withExtent x).aliases
    rw [Statement.aliases_withExtent]; exact List.mem_append_left _ he
  · exact fun _ h => h

/-- A new statement, all of whose parts were made since `σ`. -/
theorem Owns.of_new (hok : τ.OK) (hg : Grows σ.size σ τ) {s : Statement} (hs : StatementOK τ s)
    (ha : s.aliases = []) (hsel : s.selectList = [] ∧ s.output = [])
    (hp : ∀ v, Sound τ σ.size ((τ.size, v) :: path) (s.place v)) : Owns σ path (τ.push s) τ.size := by
  have hok' := hok.push hs ha hsel
  have hg' : Grows τ.size τ (τ.push s) := grows_push _ (le_refl _) s
  refine ⟨hok', hg.trans (hg'.mono hg.size), (sound_statement hok').2 ⟨by simp, hg.size, fun v => ?_⟩⟩
  rw [get_push_size]
  exact (hp v).grows hok hg'

end

end Store

end RelSql
