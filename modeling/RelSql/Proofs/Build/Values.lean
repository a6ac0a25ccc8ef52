/-
Scalar expressions make sound text. A variable marks its extent in every statement up to the one
that has it, so a reference to an extent that the variable reaches is held; every other construct
only puts together what its operands made.
-/
import RelSql.Proofs.Build.Progress
import RelSql.Proofs.Build.TextKinds

namespace RelSql

open Store List

open Store (Sound around)

variable {name : String}

/-- A variable in scope is bound in one of the frames. -/
theorem Scopes.mem_of_lookup? {α : Type} {s : Scopes α} {a : α} (h : s.lookup? name = some a) :
    ∃ frame ∈ s.frames, ∃ v ∈ frame, v.2 = a := by
  obtain ⟨frame, hf, hl⟩ := exists_of_findSome?_eq_some h
  obtain ⟨l1, l2, rfl, -⟩ := lookup_eq_some_iff.1 hl
  exact ⟨_, hf, (Ident.key name, a), by simp, rfl⟩

namespace Build

variable {b b' : Build} {y : SymbolId} {sql : Fragment} {operand : Operand}

/-! ## Variables and members -/

/-- The statements with the extent recorded in each on the way to the first that has it. -/
def markedOuter (x : SymbolId) : List StatementId → Statements → Statements
  | [], statements => statements
  | i :: rest, statements =>
    if (statements.get i).hasFromExtent x then statements else markedOuter x rest (statements.modify i (·.addOuterExtent x))

theorem runs_markOuter {x : SymbolId} {u : PUnit} {path : List StatementId} :
    Runs (markOuter x path) b u b' ↔ b' = { b with statements := markedOuter x path b.statements } := by
  induction path generalizing b with
  | nil => exact runs_pure.trans (and_iff_right rfl)
  | cons i rest ih => by_cases hx : (b.statements.get i).hasFromExtent x = true <;> simp [markOuter, markedOuter, hx, ih]

/-- Marking an extent on the way to the statement that has it makes all that it reaches held. -/
theorem markedOuter_spec {x : SymbolId} : ∀ (path : List StatementId) {σ : Store}, σ.OK → (∀ k ∈ path, k < σ.size) →
    σ.symbols.IsExtent x → OK ⟨markedOuter x path σ.statements, σ.names⟩ ∧
      (∀ n, Grows n σ ⟨markedOuter x path σ.statements, σ.names⟩) ∧
      ((∃ k ∈ path, x ∈ (σ.get k).fromExtents) →
        ∀ e, σ.symbols.Reaches x e → Held ⟨markedOuter x path σ.statements, σ.names⟩ e (around path))
  | [], σ, hok, _, _ => ⟨hok, fun n => .refl n _, by rintro ⟨k, hk, -⟩; cases hk⟩
  | i :: rest, σ, hok, hlt, hx => by
    unfold markedOuter
    split
    · rename_i hhas
      change (σ.get i).hasFromExtent x = true at hhas
      refine ⟨hok, fun n => .refl n _, fun _ e he => Or.inl ?_⟩
      exact (hok.statement i).leaves x (by simpa [Statement.hasFromExtent] using hhas) e he
    · rename_i hhas
      change ¬ (σ.get i).hasFromExtent x = true at hhas
      have hi := hlt i mem_cons_self
      have hg1 : ∀ n, Grows n σ (σ.modify i (·.addOuterExtent x)) := fun n => grows_mark _ _ _ _
      obtain ⟨hok', hg, hheld⟩ := markedOuter_spec rest (hok.mark hi hx)
        (fun k hk => lt_of_lt_of_le (hlt k (mem_cons_of_mem _ hk)) (hg1 0).size) (hx.grows (hg1 0).symbols)
      refine ⟨hok', fun n => (hg1 n).trans (hg n), fun hex e he => Or.inr ⟨fun _ => ?_, ?_⟩⟩
      · have hmem : x ∈ ((σ.modify i (·.addOuterExtent x)).get i).outerExtents := by
          rw [get_modify_self hi]; exact (sameText_addOuterExtent _ x).2.1
        refine ⟨x, (hg (i + 1)).outer i (Nat.lt_succ_self i) x hmem, ?_⟩
        exact he.grows hok.symbols ((hg1 0).trans (hg 0)).symbols hx.lt
      -- the extent is none of the innermost statement, so that one further out has it
      · refine hheld ?_ e (he.grows hok.symbols (hg1 0).symbols hx.lt)
        obtain ⟨k, hk, hkx⟩ := hex
        rcases mem_cons.1 hk with rfl | hk
        · exact absurd (by simpa [Statement.hasFromExtent] using hkx) hhas
        · exact ⟨k, hk, by rw [((hg1 (k + 1)).text k (Nat.lt_succ_self k)).fromExtents]; exact hkx⟩

/-- A variable stands for the extent in scope, and only where no other is pending. -/
theorem rowVariable_cases {f : Fragment} (hr : Runs (rowVariable name) b f b') :
    b.pendingVariable = false ∧ ∃ x, b.scopes.lookup? name = some x ∧ f = .symbol x ∧
      b' = { b with statements := markedOuter x b.building b.statements, pendingVariable := true } := by
  simp only [rowVariable, runs_bind, runs_get, runs_ite, runs_throw, runs_setPending, and_assoc,
    exists_and_left, exists_eq_left, exists_false, false_and, and_false, false_or] at hr
  obtain ⟨hpending, -, hr⟩ := hr
  cases hl : b.scopes.lookup? name with
  | none => rw [hl] at hr; exact absurd hr runs_throw
  | some x =>
    simp only [hl, runs_bind, runs_current, runs_pure] at hr
    obtain ⟨_, _, ⟨_, -, rfl⟩, u, _, hmark, rfl, rfl⟩ := hr
    exact ⟨by simpa using hpending, x, rfl, rfl, runs_markOuter.1 hmark⟩

theorem rowVariable_builds (name : String) : Builds (Made []) (rowVariable name) MadeFragment := by
  intro n b b' f hb _ _ _ hr
  obtain ⟨-, x, hl, rfl, rfl⟩ := rowVariable_cases hr
  obtain ⟨frame, hf, v, hv, rfl⟩ := Scopes.mem_of_lookup? hl
  obtain ⟨k, hk, hx⟩ := hb.scopes frame hf v hv
  have hextent := (hb.store.statement k).fromExtents v.2 hx
  obtain ⟨hok, hg, hheld⟩ := markedOuter_spec b.building hb.store hb.building hextent
  refine ⟨⟨hok, ⟨rfl, rfl, rfl⟩, hg _⟩, lt_of_lt_of_le hextent.lt (hg 0).symbols.size, fun e he => ?_⟩
  exact hheld ⟨k, hk, hx⟩ e (he.of_grows hb.store.symbols (hg 0).symbols hextent.lt)

theorem runs_joinInputNamed {join : JoinInfo} :
    Runs (joinInputNamed join name) b y b' ↔ b.names.symbols.joinInput? join name = some y ∧ b' = b := by
  simp only [joinInputNamed, runs_bind, runs_get, and_assoc, exists_and_left, exists_eq_left]
  cases b.names.symbols.joinInput? join name with
  | none => simp
  | some x => simp [eq_comm]

/-- An input of a join is one of its extents. -/
theorem mem_of_joinInput? {symbols : Symbols} {join : JoinInfo} (h : symbols.joinInput? join name = some y) :
    y ∈ join.extents :=
  mem_reverse.1 (mem_of_find?_eq_some h)

/-- The text of a member, from the text of the row that it is read off. -/
inductive MemberOf (symbols : Symbols) (name : String) : Fragment → Fragment → Prop where
  | column {x : SymbolId} : (symbols.get x).join = none →
      MemberOf symbols name (.symbol x) (.parts [.symbol x, .text ".", .text name])
  | input {x y : SymbolId} {join : JoinInfo} : (symbols.get x).join = some join →
      symbols.joinInput? join name = some y →
      MemberOf symbols name (.symbol x) (if join.nested then .nested x y else .symbol y)
  | nestedInput {x y z : SymbolId} {join : JoinInfo} : (symbols.get y).join = some join →
      symbols.joinInput? join name = some z → MemberOf symbols name (.nested x y) (.nested x z)
  | nestedColumn {x y : SymbolId} : (symbols.get y).join = none →
      MemberOf symbols name (.nested x y)
        (.parts [.symbol x, .text ".", match (symbols.get y).column? name with | some c => .symbol c | none => .text name])
  | text {f : Fragment} : (∀ x, f ≠ .symbol x) → (∀ x y, f ≠ .nested x y) →
      MemberOf symbols name f (.parts [f.toPart, .text ".", .text name])

theorem memberOfSymbol_cases {x : SymbolId} (hr : Runs (memberOfSymbol x name) b sql b') :
    MemberOf b.names.symbols name (.symbol x) sql ∧ b' = b := by
  simp only [memberOfSymbol, runs_bind, runs_symbol, and_assoc, exists_and_left, exists_eq_left] at hr
  cases hj : (b.names.symbols.get x).join with
  | none =>
    rw [hj] at hr
    obtain ⟨rfl, rfl⟩ := runs_pure.1 hr
    exact ⟨.column hj, rfl⟩
  | some join =>
    rw [hj] at hr
    simp only [runs_bind, runs_joinInputNamed, runs_pure] at hr
    obtain ⟨y, b1, ⟨hy, rfl⟩, rfl, rfl⟩ := hr
    exact ⟨.input hj hy, rfl⟩

theorem memberOfNested_cases {x : SymbolId} (hr : Runs (memberOfNested x y name) b sql b') :
    MemberOf b.names.symbols name (.nested x y) sql ∧ b' = b := by
  simp only [memberOfNested, runs_bind, runs_symbol, and_assoc, exists_and_left, exists_eq_left] at hr
  cases hj : (b.names.symbols.get y).join with
  | none =>
    rw [hj] at hr
    obtain ⟨rfl, rfl⟩ := runs_pure.1 hr
    exact ⟨.nestedColumn hj, rfl⟩
  | some join =>
    rw [hj] at hr
    simp only [runs_bind, runs_joinInputNamed, runs_pure] at hr
    obtain ⟨z, b1, ⟨hz, rfl⟩, rfl, rfl⟩ := hr
    exact ⟨.nestedInput hj hz, rfl⟩

/-- The member of what an owner is. -/
def memberOf (name : String) : Fragment → BuildM Fragment
  | .symbol extent => memberOfSymbol extent name
  | .nested source inner => memberOfNested source inner name
  | other => return .parts [other.toPart, .text ".", .text name]

theorem member_eq (owner : Operand) (name : String) : member owner name =
    (do
      let sql ← owner.build
      if owner.expr.isVariable then setPending false
      memberOf name sql) := rfl

theorem member_cases {owner : Operand} (hr : Runs (member owner name) b sql b') :
    ∃ f b1 pending, Runs owner.build b f b1 ∧
      MemberOf b1.names.symbols name f sql ∧ b' = { b1 with pendingVariable := pending } := by
  have hread : ∀ (f : Fragment) (b1 : Build), Runs (memberOf name f) b1 sql b' →
      MemberOf b1.names.symbols name f sql ∧ b' = b1 := by
    intro f b1 hr
    cases f with
    | symbol x => exact memberOfSymbol_cases hr
    | nested x y => exact memberOfNested_cases hr
    | parts ps | statement i =>
      obtain ⟨rfl, rfl⟩ := runs_pure.1 hr
      exact ⟨.text (by simp) (by simp), rfl⟩
  simp only [member_eq, runs_bind] at hr
  obtain ⟨f, b1, hf, hr⟩ := hr
  rcases runs_ite.1 hr with ⟨-, hr⟩ | ⟨-, hr⟩
  · simp only [runs_bind, runs_setPending] at hr
    obtain ⟨-, b2, rfl, hr⟩ := hr
    obtain ⟨hm, rfl⟩ := hread f _ hr
    exact ⟨f, b1, false, hf, hm, rfl⟩
  · obtain ⟨hm, rfl⟩ := hread f _ hr
    exact ⟨f, b', b'.pendingVariable, hf, hm, rfl⟩

/-- The member of a sound row is sound. -/
theorem MemberOf.sound {n : Nat} {path : Path} {f : Fragment} (h : MemberOf b.names.symbols name f sql)
    (hok : b.store.OK) (hf : MadeFragment f b.store n path) :
    MadeFragment sql b.store n path := by
  have hself : ∀ {x}, MadeFragment (.symbol x) b.store n path → (b.store.symbols.get x).isFlat = false →
      Sound b.store n path [.symbol x] :=
    fun hx hflat => sound_symbol.2 ⟨hx.1, fun _ => hx.2 _ (.self hflat)⟩
  cases h with
  | column hj =>
    rw [MadeFragment, Store.FragmentSound, sound_cons, sound_text, sound_text]
    exact ⟨hself hf (by simp only [Symbol.isFlat, symbols, store, hj]), sound_nil⟩
  | @input x y join hj hy =>
    have hmem := mem_of_joinInput? hy
    have hyx : y < x := (hok.symbols.joins x join hj).extents y hmem
    cases hn : join.nested with
    | true =>
      exact ⟨hyx.trans hf.1, hself hf (by simp only [Symbol.isFlat, symbols, store, hj, hn]; rfl)⟩
    | false => exact ⟨hyx.trans hf.1, fun e he => hf.2 e (.input hj hn hmem he)⟩
  | @nestedInput x y z join hj hz =>
    exact ⟨((hok.symbols.joins y join hj).extents z (mem_of_joinInput? hz)).trans hf.1, hf.2⟩
  | @nestedColumn x y hj =>
    rw [MadeFragment, Store.FragmentSound, sound_cons, sound_text]
    refine ⟨hf.2, ?_⟩
    cases hc : (b.names.symbols.get y).column? name with
    | none => exact sound_text.2 sound_nil
    | some c =>
      obtain ⟨hclt, ht⟩ := hok.symbols.columns y _ (Symbols.mem_columns_of_column? hc)
      refine sound_symbol.2 ⟨hclt, fun hs => ?_⟩
      simp [Symbol.stands, ht] at hs
  | text _ _ =>
    rw [MadeFragment, Store.FragmentSound, sound_cons]
    exact ⟨hf.toPart, by simp⟩

theorem member_builds {owner : Operand} (h : Builds (Made []) owner.build MadeFragment) (name : String) :
    Builds (Made []) (member owner name) MadeFragment := by
  intro n b b' sql hb hj hn hpre hr
  obtain ⟨f, b1, pending, hf, hm, rfl⟩ := member_cases hr
  obtain ⟨hs, hmade⟩ := h hb hj hn hpre hf
  exact ⟨⟨hs.store, ⟨hs.same.building, hs.same.joins, hs.same.scopes⟩, hs.grows⟩, hm.sound hs.store hmade⟩

/-! ## Texts put together -/

/-- The operand makes a sound fragment. -/
def ValueOK (operand : Operand) : Prop := Builds (Made []) operand.build MadeFragment

theorem ValueOK.toPart (h : ValueOK operand) :
    Builds (Made []) operand.build fun f => Made [f.toPart] :=
  Builds.toPart h

theorem sound_woven {σ : Store} {n : Nat} {path : Path} {pss : List (List Part)} {ps : List Part}
    (h : Part.Woven pss ps) (hs : Sound σ n path pss.flatten) : Sound σ n path ps := by
  induction h with
  | nil => exact hs
  | skip ps _ ih => exact ih (sound_append.1 hs).2
  | text t _ ih => exact sound_text.2 (ih hs)
  | line _ ih => exact sound_line.2 (ih hs)
  | last ps => exact (sound_append.1 hs).1
  | next ps p hp _ ih =>
    obtain ⟨hps, hrest⟩ := sound_append.1 hs
    refine sound_append.2 ⟨hps, sound_cons.2 ⟨?_, ih hrest⟩⟩
    cases p with
    | text t => exact sound_text.2 sound_nil
    | line => exact sound_line.2 sound_nil
    | _ => cases hp
  | group _ ih => exact sound_group.2 ⟨ih hs, sound_nil⟩

/-- Steps that make sound texts of sound texts. -/
theorem madeKind : TextKind (fun taken m left => Builds (Made taken.flatten) m fun a => Made (left a).flatten)
    fun taken m => Builds (Made taken.flatten) m MadeFragment where
  still h _ := by
    intro n b b' a hb _ _ hpre hr
    cases h b a b' hr
    exact ⟨.refl hb, hpre⟩
  chain := Builds.chain
  finish := Builds.chain
  frame taken h := by simpa only [flatten_append] using h.frame taken.flatten
  done hleft := builds_pure fun _ _ _ hs => by rw [hleft]; exact hs
  weave hleft hw := builds_pure fun _ _ _ hs => by
    rw [hleft, flatten_singleton]
    exact sound_woven hw hs
  parts hw := builds_pure fun _ _ _ hs => sound_woven hw hs
  refuse _ := builds_throw
  operand h := h.toPart

end Build

end RelSql
