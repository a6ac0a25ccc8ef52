/-
Every statement that the construction makes is put into one place. The account is kept for each
statement: a step may put into clauses what it is handed and what it makes itself, once each, and what
it does neither it hands on. A `GROUP BY` list does not count, since it repeats keys that the select
list has; if the keys of all groups are without statements, then so are all these lists. If every `Skip`
has sort keys, rows are skipped only in an order.
-/
import RelSql.Proofs.Build.Offsets

namespace RelSql

open RelSql.Part Statement List

variable {i : StatementId}

namespace Build

/-! ## Where a step runs -/

/-- Where a step runs: where no join takes it in, in the statement of a join, or as an input that the join takes in. -/
inductive Spot where
  | apart
  | inside (i : StatementId)
  | takenIn (i : StatementId)

namespace Spot

def Holds : Spot → Build → Prop
  | apart, b => b.inJoin = false
  | inside i, b => b.building.head? = some i
  | takenIn i, b => b.building.head? = some i ∧ b.inJoin = true

/-- Where an operand of a join is built, which takes it in or not. -/
def under (i : StatementId) : Bool → Spot
  | true => takenIn i
  | false => apart

theorem Holds.of_eq {spot : Spot} {b b' : Build} (h : spot.Holds b) (hb : b'.building = b.building)
    (hj : b'.joins = b.joins) : spot.Holds b' := by
  cases spot <;> simpa only [Holds, inJoin, hb, hj] using h

end Spot

/-! ## The account -/

/-- How often the statement stands in a clause other than `GROUP BY`. -/
def used (b : Build) (j : Nat) : Nat := (b.statements.toList.flatMap nested).count j

/-- One if the statement is there. -/
def made (b : Build) (j : Nat) : Nat := if j < b.statements.size then 1 else 0

/-- No `GROUP BY` list has statements in it. -/
def FlatGroups (b : Build) : Prop := ∀ k, Part.statements (b.statements.get k).grouping = []

/-- What a step may rely on: `flat` if the keys of groups are without statements, `quiet` if the step makes no
statement, and `keyed` if rows are skipped by sort keys only. -/
structure Setting where
  flat : Prop
  quiet : Prop
  keyed : Prop

/-- What holds of every statement in the setting. -/
def Setting.Allows (S : Setting) (s : Statement) : Prop :=
  (S.flat → Part.statements s.grouping = []) ∧ (S.keyed → s.ordering = [] → s.skip = none)

theorem Calm.allows {S : Setting} {f : Statement → Statement} (hf : Calm f) {s : Statement} (h : S.Allows s) : S.Allows (f s) :=
  ⟨fun hflat => (hf s).1 (h.1 hflat), fun hkeyed ho => (hf s).2.1.trans (h.2 hkeyed ((hf s).2.2 ho))⟩

/-- From `b` with the statements `taken` in hand to `b'` with the statements `left`. -/
structure Balanced (S : Setting) (taken left : List StatementId) (b b' : Build) : Prop where
  building : b'.building = b.building
  joins : b'.joins = b.joins
  count : ∀ j, left.count j + b'.used j + b.made j ≤ taken.count j + b.used j + b'.made j
  kept : ∀ k, S.Allows (b.statements.get k) → S.Allows (b'.statements.get k)
  quiet : S.quiet → ∀ j, left.count j ≤ taken.count j

section

variable {S : Setting} {spot : Spot} {α β : Type} {b b' b1 : Build} {taken left mid : List StatementId}

theorem Balanced.refl (h : ∀ j, left.count j ≤ taken.count j) : Balanced S taken left b b :=
  ⟨rfl, rfl, fun j => by have := h j; omega, fun _ => id, fun _ => h⟩

theorem Balanced.trans (h : Balanced S taken mid b b1) (h' : Balanced S mid left b1 b') : Balanced S taken left b b' :=
  ⟨h'.building.trans h.building, h'.joins.trans h.joins, fun j => by have := h.count j; have := h'.count j; omega,
    fun k hk => h'.kept k (h.kept k hk), fun hq j => (h'.quiet hq j).trans (h.quiet hq j)⟩

/-- A step that changes neither statements nor stacks. -/
theorem Balanced.of_same (hs : b'.statements = b.statements) (hb : b'.building = b.building) (hj : b'.joins = b.joins) :
    Balanced S taken taken b b' := by
  refine ⟨hb, hj, fun j => ?_, fun k hk => ?_, fun _ _ => le_refl _⟩
  · unfold used made; rw [hs]
  · rw [hs]; exact hk

/-- What a new item of a list adds to the counts over it. -/
theorem count_flatMap_modify {σ : Type} {g : σ → List StatementId} {f : σ → σ} {j c : Nat} :
    ∀ {l : List σ} {i : Nat}, (∀ s, l[i]? = some s → (g (f s)).count j ≤ (g s).count j + c) →
      ((l.modify i f).flatMap g).count j ≤ (l.flatMap g).count j + c
  | [], i, _ => by simp
  | s :: l, 0, h => by
    have := h s rfl
    simp only [modify_zero_cons, flatMap_cons, count_append]
    omega
  | s :: l, i + 1, h => by
    have := count_flatMap_modify (l := l) (i := i) fun t ht => h t (by simpa using ht)
    simp only [modify_succ_cons, flatMap_cons, count_append]
    omega

theorem Balanced.modify {added : List StatementId} {f : Statement → Statement}
    (hb' : b' = { b with statements := b.statements.modify i f })
    (hnested : ∀ j, (f (b.statements.get i)).nested.count j ≤ (b.statements.get i).nested.count j + added.count j)
    (hkept : i < b.store.size → S.Allows (b.statements.get i) → S.Allows (f (b.statements.get i))) (h : left ++ added = taken) :
    Balanced S taken left b b' := by
  subst hb' h
  refine ⟨rfl, rfl, fun j => ?_, fun k => ?_, fun _ j => by rw [count_append]; omega⟩
  · have hused : used { b with statements := b.statements.modify i f } j ≤ b.used j + added.count j := by
      unfold used
      rw [Array.toList_modify]
      refine count_flatMap_modify fun s hs => ?_
      have hget : b.statements.get i = s := by
        unfold Statements.get
        rw [Array.getD_eq_getD_getElem?, ← Array.getElem?_toList, hs]; rfl
      rw [← hget]
      exact hnested j
    have hmade : made { b with statements := b.statements.modify i f } j = b.made j := by
      unfold made; rw [Array.size_modify]
    rw [count_append]
    omega
  · have hget : Statements.get (b.statements.modify i f) k = _ := Store.get_modify b.store i k f
    change _ → S.Allows (Statements.get (b.statements.modify i f) k)
    rw [hget]
    split
    · rename_i hk
      obtain ⟨rfl, hlt⟩ := hk
      exact hkept hlt
    · exact id

theorem made_push (b : Build) (s : Statement) (j : Nat) :
    made { b with statements := b.statements.push s } j = b.made j + if b.statements.size = j then 1 else 0 := by
  simp only [made, Array.size_push]
  split <;> split <;> split <;> omega

theorem Balanced.push {s : Statement} (hq : ¬ S.quiet) (hgrouping : s.grouping = []) (hskip : s.skip = none) :
    Balanced S s.nested [b.statements.size] b { b with statements := b.statements.push s } := by
  refine ⟨rfl, rfl, fun j => ?_, fun k => ?_, fun hquiet => absurd hquiet hq⟩
  · have hused : used { b with statements := b.statements.push s } j = b.used j + s.nested.count j := by
      unfold used
      rw [Array.toList_push, flatMap_append, count_append]; simp
    rw [count_singleton, hused, made_push]
    simp only [beq_iff_eq]
    omega
  · have hget : Statements.get (b.statements.push s) k = _ := Store.get_push b.store s k
    change _ → S.Allows (Statements.get (b.statements.push s) k)
    rw [hget]
    split
    · exact fun _ => ⟨fun _ => by rw [hgrouping]; rfl, fun _ _ => hskip⟩
    · exact id

/-! ## Steps -/

/-- In the setting the step puts the statements in hand and those that it makes into one place each, or
hands them on. -/
def Places (S : Setting) (spot : Spot) (taken : List StatementId) (m : BuildM α) (left : α → List StatementId) : Prop :=
  ∀ ⦃b a b'⦄, Runs m b a b' → spot.Holds b → Balanced S taken (left a) b b'

/-- The second step may use what a run of the first one shows. -/
theorem Places.chain {m : BuildM α} {f : α → BuildM β} {mid : α → List StatementId} {left : β → List StatementId}
    (hm : Places S spot taken m mid)
    (hf : ∀ a, (∃ b b', Runs m b a b' ∧ spot.Holds b) → Places S spot (mid a) (f a) left) : Places S spot taken (m >>= f) left := by
  intro b c b' hr hS
  obtain ⟨a, b1, h1, h2⟩ := runs_bind.1 hr
  exact (hm h1 hS).trans (hf a ⟨b, b1, h1, hS⟩ h2 (hS.of_eq (hm h1 hS).building (hm h1 hS).joins))

/-- In a setting where the step may make statements. -/
theorem Places.weaken {flat keyed quiet quiet' : Prop} {m : BuildM α} {left : α → List StatementId}
    (h : Places ⟨flat, quiet, keyed⟩ spot taken m left) (hq : quiet' → quiet) :
    Places ⟨flat, quiet', keyed⟩ spot taken m left := by
  intro b a b' hr hS
  have hm := h hr hS
  exact ⟨hm.building, hm.joins, hm.count, hm.kept, fun h => hm.quiet (hq h)⟩

/-- Where rows are skipped by keys, they are skipped in an order. -/
theorem Places.offsetsOrdered {m : BuildM α} {a : α} {left : α → List StatementId}
    (h : Places ⟨False, False, True⟩ .apart taken m left) (hr : Runs m b a b') (hj : b.inJoin = false)
    (hb : OffsetsOrdered b) : OffsetsOrdered b' :=
  fun k => ((h hr hj).kept k ⟨False.elim, fun _ => hb k⟩).2 trivial

theorem places_idle {m : BuildM α}
    (hm : ∀ b a b', Runs m b a b' → b'.statements = b.statements ∧ b'.building = b.building ∧ b'.joins = b.joins) :
    Places S spot taken m fun _ => taken := by
  intro b a b' hr _
  obtain ⟨hs, hb, hj⟩ := hm b a b' hr
  exact .of_same hs hb hj

theorem Places.hands : HandKind (Places S spot) where
  still h _ := places_idle fun b a b' hr => by rw [h b a b' hr]; exact ⟨rfl, rfl, rfl⟩
  names h _ := places_idle fun b a b' hr => by
    obtain ⟨_, rfl⟩ := h b a b' hr
    exact ⟨rfl, rfl, rfl⟩
  update i f _ _ _ hn hf h _ _ _ hr _ := .modify (runs_updateStatement.1 hr) (hn _) (fun _ => hf.allows) h
  chain hm hf := hm.chain fun a ha => by
    obtain ⟨b, b', hr, -⟩ := ha
    exact hf a ⟨b, b', hr⟩
  frame taken h b a b' hr hS := by
    have hm := h hr hS
    refine ⟨hm.building, hm.joins, fun j => ?_, hm.kept, fun hq j => ?_⟩
    · have := hm.count j
      simp only [count_append, count_nil] at this ⊢
      omega
    · have := hm.quiet hq j
      simp only [count_append, count_nil] at this ⊢
      omega
  pure h b a b' hr _ := by
    obtain ⟨rfl, rfl⟩ := runs_pure.1 hr
    exact .refl h
  throw _ _ _ _ hr := absurd hr runs_throw

/-! ## Stacks -/

theorem places_within {m : BuildM α} {left : α → List StatementId} {spot' : Spot} (h : Places S spot' taken m left)
    (hs : ∀ b, spot.Holds b → spot'.Holds { b with building := i :: b.building }) :
    Places S spot taken (within i m) left := by
  intro b a b' hr hS
  obtain ⟨b1, hm, rfl⟩ := runs_within.1 hr
  have hb := h hm (hs _ hS)
  refine ⟨?_, hb.joins, hb.count, hb.kept, hb.quiet⟩
  change b1.building.drop 1 = _
  rw [hb.building]; rfl

theorem places_inScope {m : BuildM α} {left : α → List StatementId} {spot' : Spot} (h : Places S spot' taken m left)
    (hs : ∀ b, spot.Holds b → spot'.Holds b) : Places S spot taken (inScope m) left := by
  intro b a b' hr hS
  obtain ⟨b1, hm, rfl⟩ := runs_inScope.1 hr
  have hb := h hm ((hs b hS).of_eq rfl rfl)
  exact ⟨hb.building, hb.joins, hb.count, hb.kept, hb.quiet⟩

theorem places_underJoin {m : BuildM α} {left : α → List StatementId} {spot' : Spot} {flag : Bool}
    (h : Places S spot' taken m left) (hs : ∀ b, spot.Holds b → spot'.Holds { b with joins := flag :: b.joins }) :
    Places S spot taken (underJoin flag m) left := by
  intro b a b' hr hS
  obtain ⟨b1, hm, rfl⟩ := runs_underJoin.1 hr
  have hb := h hm (hs _ hS)
  refine ⟨hb.building, ?_, hb.count, hb.kept, hb.quiet⟩
  change b1.joins.drop 1 = _
  rw [hb.joins]; rfl

theorem places_setPending (flag : Bool) : Places S spot taken (setPending flag) fun _ => taken :=
  places_idle fun _ _ _ hr => by rw [runs_setPending.1 hr]; exact ⟨rfl, rfl, rfl⟩

theorem places_rowVariable (name : String) : Places S spot [] (rowVariable name) Fragment.statements := by
  intro b f b' hr hS
  obtain ⟨-, x, -, rfl, rfl⟩ := rowVariable_cases hr
  have hset : Balanced S [] [] b { b with pendingVariable := true } := .of_same rfl rfl rfl
  rw [Fragment.statements_symbol]
  exact hset.trans ((Places.hands.extents []).markOuter x b.building ((runs_markOuter (u := ⟨⟩)).2 rfl) (hS.of_eq rfl rfl))

theorem places_bindVariable (name : String) (x : SymbolId) : Places S spot taken (bindVariable name x) fun _ => taken :=
  places_idle fun _ _ _ hr => by rw [runs_bindVariable.1 hr]; exact ⟨rfl, rfl, rfl⟩

/-- The row count is new in the statement. -/
theorem places_setTop {n : List Part} :
    Places S spot ([i] ++ Part.statements n) (tryUpdateStatement i (·.setTop n)) fun _ => [i] := by
  intro b u b' hr _
  obtain ⟨s, hs, hb'⟩ := runs_tryUpdateStatement.1 hr
  obtain rfl := setTop_eq hs
  exact .modify hb' (fun j => by simp [nested]; omega) (fun _ h => h) rfl

theorem placesStatements (hq : ¬ S.quiet) : StatementKind (Places S spot) :=
  { Places.hands with
    newStatement := fun hgrouping hskip hnested b i b' hr _ => by
      obtain ⟨rfl, rfl⟩ := runs_newStatement.1 hr
      rw [← hnested]
      exact .push hq hgrouping hskip }

/-- A step that asks whether a join takes it in. -/
theorem places_parent {f : Bool → BuildM α} {left : α → List StatementId} {left' : StatementId → α → List StatementId}
    (h : Places S .apart taken (f false) left) (h' : ∀ i, Places S (.takenIn i) taken (f true) (left' i)) :
    Places S .apart taken (parentTakesIn >>= f) left ∧ ∀ i, Places S (.takenIn i) taken (parentTakesIn >>= f) (left' i) := by
  refine ⟨fun b c b' hr hS => ?_, fun i b c b' hr hS => ?_⟩
  all_goals obtain ⟨flag, b1, hflag, hf⟩ := runs_bind.1 hr
  all_goals obtain ⟨rfl, rfl⟩ := runs_parentTakesIn.1 hflag
  · rw [show b1.joins.head?.getD false = false from hS] at hf
    exact h hf hS
  · rw [show b1.joins.head?.getD false = true from hS.2] at hf
    exact h' i hf hS

theorem places_current {f : StatementId → BuildM α} {left : α → List StatementId} (h : Places S (.takenIn i) taken (f i) left) :
    Places S (.takenIn i) taken (current >>= f) left := by
  intro b c b' hr hS
  obtain ⟨j, b1, hj, hf⟩ := runs_bind.1 hr
  obtain ⟨rest, hrest, rfl⟩ := runs_current.1 hj
  obtain rfl : j = i := Option.some.inj (by rw [← hS.1, hrest]; rfl)
  exact h hf hS

/-- An operand of the join that is being built. -/
theorem places_under {flag : Bool} {m : BuildM α} {left : α → List StatementId} (h : Places S (.under i flag) taken m left) :
    Places S (.inside i) taken (underJoin flag m) left :=
  places_underJoin h fun _ hS => by cases flag; exacts [rfl, ⟨hS, rfl⟩]

theorem places_opened {m : BuildM α} {left : α → List StatementId} (h : Places S .apart taken m left) :
    Places S .apart taken (within i (inScope m)) left :=
  places_within (places_inScope h fun _ h => h) fun _ h => h

/-- What the constructs expect of an operand: one that a join takes in may write into the statement of the join. -/
structure Fits (S : Setting) (operand : Operand) : Prop where
  text : Places S .apart [] operand.build Fragment.statements
  taken : takesIn true operand.expr = true → ∀ i, Places S (.takenIn i) [] operand.build (Fragment.besides i)
  statement : declaresExtent operand.expr = true → ∀ f, Returns operand.build f → ∃ i, f = .statement i
  count : CountOK operand

end

namespace Places

variable {S : Setting} {operand count : Operand}

theorem absorb (input : Binding Operand) (before : Nat) : Places S (.inside i) [] (absorb i input before) fun _ => [] := by
  exact hands.bind ((hands.extents _).statement i) fun _ => hands.bind ((hands.extents _).newSymbol _) fun x =>
    hands.bind (hands.mark i) fun _ => places_bindVariable _ x

/-- What an input leaves is what it does not write into the statement itself. -/
theorem joinSource (first : Bool) {input : Binding Operand} (h : Fits S input.expr) :
    Places S (.inside i) [] (underJoin (takesIn first input.expr.expr) input.expr.build) (Fragment.besides i) := by
  by_cases ht : takesIn first input.expr.expr = true
  · have htrue : takesIn true input.expr.expr = true := by
      unfold takesIn at ht ⊢
      cases first
      · simp only [Bool.false_and, Bool.or_false] at ht
        rw [ht]; rfl
      · exact ht
    rw [ht]
    exact places_under (h.taken htrue i)
  · rw [Bool.not_eq_true] at ht
    rw [ht]
    exact hands.leaving (places_under h.text) fun f _ j => Fragment.count_besides_le i j f

/-- The keys stand in the select list; the `GROUP BY` list repeats them. -/
theorem groupInPlace {flat keyed : Prop} {keys : List (String × Operand)} {aggregates : List (String × Aggregate Operand)}
    (i : StatementId) (hk : ∀ k ∈ keys, Places ⟨flat, flat, keyed⟩ .apart [] k.2.build Fragment.statements)
    (ha : ∀ a ∈ aggregates, Places ⟨flat, False, keyed⟩ .apart [] a.2.argument.build Fragment.statements) :
    Places ⟨flat, False, keyed⟩ .apart [i] (groupInPlace i keys aggregates) fun k => [k] := by
  have hkeys : Places ⟨flat, flat, keyed⟩ .apart [] (keys.mapM buildKey) fun ks =>
      Part.statements (ks.map fun k => [k.2]).flatten :=
    hands.texts.mapM fun k hm => hands.texts.buildKey (hk k hm)
  have hloud : Places ⟨flat, False, keyed⟩ .apart [] (keys.mapM buildKey) fun ks =>
      Part.statements (ks.map fun k => [k.2]).flatten :=
    hkeys.weaken False.elim
  refine (hands.frame [i] hloud).chain fun ks hks => ?_
  have hnone : flat → Part.statements (ks.map fun k => [k.2]).flatten = [] := by
    obtain ⟨b, b', hr, hS⟩ := hks
    intro hf
    have hcount := (hkeys hr hS).quiet hf
    exact eq_nil_iff_forall_not_mem.2 fun j hj => absurd (count_pos_iff.2 hj) (not_lt.2 (hcount j))
  refine hands.bind (hands.frame _ (hands.texts.mapM fun a hm => hands.texts.buildArgument (ha a hm))) fun as => ?_
  have hgrouping : Places ⟨flat, False, keyed⟩ .apart [i] (appendGrouping i (Part.separated ", " (ks.map fun k => [k.2])))
      fun _ => [i] := by
    refine fun b u b' hr _ => .modify (runs_updateStatement.1 hr) (fun j => ?_) (fun _ hs => ⟨fun hf => ?_, hs.2⟩) (append_nil [i])
    · simp [nested]
    · simpa [Part.separated, flatMap_map, hs.1 hf] using hnone hf
  refine hands.bind (hands.appendSelect i [i] ?_) fun _ => hands.bind hgrouping fun _ =>
    hands.bind (hands.addOutput i _) fun _ => hands.done rfl
  simp [Part.separated, flatMap_map, statements_selectItem, statements_aggregateParts]

variable (hq : ¬ S.quiet)

include hq

theorem asStatement (h : Fits S operand) (complete : Bool) :
    Places S .apart [] (asStatement operand complete) fun k => [k] := by
  rw [asStatement_eq]
  refine hands.bind (hands.ite (fun hd => ?_) fun _ => ?_) fun i =>
    hands.ite (fun _ => hands.bind ((hands.extents _).selectAllIfNone i) fun _ => hands.done rfl) fun _ => hands.done rfl
  · refine hands.chain h.text fun f hf => ?_
    obtain ⟨i, rfl⟩ := h.statement hd f hf
    exact hands.pure fun j => by simp
  · have hdeclared : Places S .apart [] (do
        let r ← Build.input operand defaultVariable operand.expr.rowType
        declareExtent r.1 r.2
        return r) fun r => [r.1] :=
      hands.bind ((placesStatements hq).input h.text _ _) fun r =>
        hands.bind ((hands.extents _).declareExtent r.1 r.2) fun _ => hands.done rfl
    refine places_inScope ?_ fun _ h => h
    simpa only [bind_assoc, pure_bind] using
      hands.bind hdeclared fun r => hands.bind (places_bindVariable _ r.2) fun _ => hands.done rfl

/-! ## Operators -/

theorem overRows {α : Type} {op : Operator} {input : Binding Operand} {body : BuildM α} {left : α → List StatementId}
    (hi : Fits S input.expr) (hbody : Places S .apart [] body left) :
    Places S .apart [] (overRows op input body) fun r => [r.1] ++ left r.2 := by
  refine hands.bind ((placesStatements hq).inputFor hi.text op input.var input.type) fun r => ?_
  refine hands.bind (places_opened ?_) fun a => hands.done rfl
  exact hands.bind ((hands.extents _).declareExtent r.1 r.2) fun _ =>
    hands.bind (places_bindVariable _ _) fun _ => hands.frame [r.1] hbody

section

variable {input : Binding Operand} (hi : Fits S input.expr)

include hi

theorem filter (negated : Bool) {predicate : Operand} (hp : Fits S predicate) :
    Places S .apart [] (filter negated input predicate) fun i => [i] := by
  refine hands.bind (overRows hq hi hp.text) fun r => hands.bind (hands.appendCondition r.1 [r.1] ?_) fun _ => hands.done rfl
  cases negated <;> simp

theorem projectRecord {fields : List (String × Operand)} (hf : ∀ f ∈ fields, Fits S f.2) :
    Places S .apart [] (projectRecord input fields) fun i => [i] := by
  refine hands.bind (overRows hq hi (hands.texts.mapM fun f hm => hands.texts.projectField (hf f hm).text)) fun r => ?_
  refine hands.bind (hands.appendSelect r.1 [r.1] ?_) fun _ => hands.bind (hands.addOutput r.1 _) fun _ => hands.done rfl
  simp [Part.separated, selectItem, flatMap_map]

theorem projectValue {value : Operand} (hv : Fits S value) :
    Places S .apart [] (projectValue input value) fun i => [i] := by
  refine hands.bind (overRows hq hi hv.text) fun r => hands.bind (hands.appendSelect r.1 [r.1] (by simp)) fun _ => ?_
  split
  · exact hands.bind (hands.addOutput r.1 _) fun _ => hands.done rfl
  · exact hands.done rfl

theorem ordered (op : Operator) {keys : List (SortKey Operand)} (hs : ∀ k ∈ keys, Fits S k.expr) :
    Places S .apart [] (ordered op input keys) fun i => [i] := by
  refine hands.bind (overRows hq hi (hands.texts.mapM fun k hm => hands.texts.sortItem (hs k hm).text)) fun r => ?_
  refine hands.bind (hands.appendOrdering r.1 [r.1] ?_) fun _ => hands.done rfl
  simp [Part.separated]

/-- The offset stands in a statement that has got keys. -/
theorem skip {keys : List (SortKey Operand)} (hs : ∀ k ∈ keys, Fits S k.expr) (hc : Fits S count)
    (hne : S.keyed → keys ≠ []) : Places S .apart [] (skip input keys count) fun i => [i] := by
  intro b i b' hr hS
  simp only [Build.skip, runs_bind, runs_pure] at hr
  obtain ⟨_, b1, hord, n, b2, hcount, _, b3, hset, rfl, rfl⟩ := hr
  obtain ⟨rfl, -⟩ := rowCount_spec hc.count hcount
  have hb := ordered hq hi _ hs hord hS
  have hn := hb.trans (hands.frame [i] (hands.rowCount hc.text) hcount (hS.of_eq hb.building hb.joins))
  obtain ⟨s, hset, hb'⟩ := runs_tryUpdateStatement.1 hset
  obtain rfl := setSkip_eq hset
  refine hn.trans (.modify hb' (fun j => by simp [nested]; omega) (fun hlt h => ?_) rfl)
  exact ⟨h.1, fun hkeyed hnone => absurd hnone (ordering_ne_nil hord (hne hkeyed) hlt)⟩

theorem quantified (q : Quantifier) {predicate : Operand} (hp : Fits S predicate) :
    Places S .apart [] (quantified q input predicate) Fragment.statements := by
  refine hands.bind (filter hq hi _ hp) fun i => hands.bind ((hands.extents _).selectAllIfNone i) fun _ => hands.pure fun j => ?_
  unfold existsParts
  cases q == .all <;> simp

end

/-- The statement, or one around it, gets a row count. -/
theorem top {op : Operator} {name : String} {type : DataType} (i : StatementId) {m : BuildM (List Part)}
    (hm : Places S .apart [] m Part.statements) : Places S .apart [i] (do
      let k ← wrapUnless op name type i
      let n ← m
      tryUpdateStatement k (·.setTop n)
      return k) fun k => [k] :=
  hands.bind ((placesStatements hq).wrapUnless _ _ _ _) fun k => hands.bind (hands.frame [k] hm) fun _ =>
    hands.bind places_setTop fun _ => hands.done rfl

section

variable (h : Fits S operand)

include h

theorem limit (withTies : Bool) (hc : Fits S count) : Places S .apart [] (limit withTies operand count) fun i => [i] := by
  have hcut : Places S .apart [] (do
      let i ← Build.asStatement operand false
      let k ← wrapUnless .limit "top" operand.expr.rowType i
      let n ← Build.rowCount count
      tryUpdateStatement k (·.setTop n)
      return k) fun i => [i] :=
    hands.bind (asStatement hq h false) fun i => top hq i (hands.rowCount hc.text)
  exact hands.ite (fun _ => hands.bind (hands.throw id) fun _ => hcut) fun _ => hcut

theorem distinct : Places S .apart [] (distinct operand) fun i => [i] :=
  hands.bind (asStatement hq h true) fun i => hands.bind ((placesStatements hq).wrapUnless .distinct _ _ i)
    fun k => hands.bind (hands.mark k)
      fun _ => hands.done rfl

theorem singleton : Places S .apart [] (singleton operand) fun i => [i] :=
  hands.bind (asStatement hq h true) fun i => top hq (m := pure [.text "1"]) i (hands.pure fun j => by simp)

end

/-! ## Joins -/

section

theorem adjoin (input : Binding Operand) (f : Fragment) :
    Places S (.inside i) f.statements (adjoin i input f) fun _ => [] := by
  exact hands.bind ((placesStatements hq).writeSource i _ f) fun join => hands.bind ((hands.extents _).newExtent _ _ join) fun x =>
    hands.bind ((hands.extents _).declareExtent i x) fun _ => hands.bind (places_bindVariable _ x) fun _ =>
      hands.mark i

theorem joinInput (first : Bool) {input : Binding Operand} (h : Fits S input.expr) :
    Places S (.inside i) [] (joinInput i first input) fun _ => [] := by
  refine hands.bind ((hands.extents _).statement i) fun s => hands.bind (joinSource first h) fun f => ?_
  cases f with
  | statement sub =>
    refine hands.ite (fun hsub => ?_) fun hsub => ?_
    · rw [Fragment.besides, if_pos hsub]; exact absorb input _
    · rw [Fragment.besides, if_neg hsub, ← Fragment.statements_statement]; exact adjoin hq input _
  | parts ps | symbol x | nested x y => exact adjoin hq input _

theorem joinRest (keyword : String) : ∀ {inputs : List (Binding Operand)}, (∀ input ∈ inputs, Fits S input.expr) →
    Places S (.inside i) [] (joinRest i keyword inputs) fun _ => []
  | [], _ => hands.done rfl
  | input :: _, h =>
    hands.bind (hands.appendFrom i [] (by simp)) fun _ => hands.bind (joinInput hq false (h input mem_cons_self))
      fun _ => joinRest keyword fun input hm => h input (mem_cons_of_mem _ hm)

theorem joinInputs (keyword : String) {inputs : List (Binding Operand)} (h : ∀ input ∈ inputs, Fits S input.expr) :
    Places S (.inside i) [] (joinInputs i keyword inputs) fun _ => [] := by
  cases inputs with
  | nil => exact hands.done rfl
  | cons first rest =>
    obtain ⟨hfirst, hrest⟩ := forall_mem_cons.1 h
    exact hands.bind (joinInput hq true hfirst) fun _ => joinRest hq keyword hrest

variable {inputs : List (Binding Operand)} {condition : Option Operand} (hi : ∀ input ∈ inputs, Fits S input.expr)
  (hc : ∀ c ∈ condition, Fits S c)

include hi hc

theorem joinBody (keyword : String) : Places S (.inside i) [] (joinBody i keyword inputs condition) fun _ => [] := by
  refine hands.bind (joinInputs hq keyword hi) fun _ => ?_
  cases condition with
  | none => exact hands.done rfl
  | some c => exact hands.bind (places_under (hc c rfl).text) fun sql => hands.appendFrom i [] (by simp)

/-- A join by itself has a new statement; one that is taken in returns that of the join around it. -/
theorem joined (keyword : String) : Places S .apart [] (joined keyword inputs condition) (fun k => [k]) ∧
    ∀ i, Places S (.takenIn i) [] (joined keyword inputs condition) fun k => if k = i then [] else [k] := by
  refine places_parent ?_ fun i => places_current ?_
  · exact hands.bind ((placesStatements hq).newStatement rfl rfl rfl) fun k =>
      hands.bind (hands.frame [k] (places_within (places_inScope (joinBody hq hi hc keyword) fun _ h => h) fun _ _ => rfl)) fun _ =>
        hands.pure fun j => by simp
  · exact hands.bind (places_inScope (joinBody hq hi hc keyword) fun _ h => h.1) fun _ => hands.done (if_pos rfl)

end

theorem scan (set : EntitySet) : Places S .apart [] (scan set) Fragment.statements ∧
    ∀ i, Places S (.takenIn i) [] (scan set) (Fragment.besides i) := by
  refine places_parent ?_ fun i => hands.pure fun j => by simp [Fragment.text, Fragment.besides]
  exact hands.bind ((placesStatements hq).newStatement rfl rfl (by simp [nested])) fun i => hands.pure fun j => by simp

/-! ## Groups -/

section

variable {keys : List (String × Operand)} {aggregates : List (String × Aggregate Operand)}
  (ha : ∀ a ∈ aggregates, Fits S a.2.argument)

include ha

/-- The keys stand in the select list of the inner statement, which is a source of the outer one. -/
theorem groupOverInner (inner : StatementId) (var : String) (type : DataType) (hs : ∀ k ∈ keys, Fits S k.2) :
    Places S .apart [inner] (groupOverInner inner var type keys aggregates) fun k => [k] := by
  refine hands.bind ((placesStatements hq).subselect inner var type false) fun r =>
    hands.bind ((hands.extents _).declareExtent r.1 r.2) fun _ => ?_
  refine hands.bind (hands.frame [r.1] (hands.texts.mapM fun k hm => hands.texts.buildKey (hs k hm).text)) fun ks =>
    hands.bind (hands.frame _ (hands.texts.mapM fun a hm => hands.texts.buildArgument (ha a hm).text)) fun as => ?_
  refine hands.bind (hands.appendSelect inner [r.1] ?_) fun _ => hands.bind (hands.appendSelect r.1 [r.1] ?_)
    fun _ => hands.bind (hands.appendGrouping r.1 ?_) fun _ => hands.bind (hands.addOutput r.1 _) fun _ =>
      hands.done rfl
  · have hks := flatMap_zip_innerNames (fun k : String × Part => Part.statements [k.2]) "key_" ks
    have has := flatMap_zip_innerNames (fun a : String × Aggregate Operand × Part => Part.statements [a.2.2]) "agg_" as
    simp [Part.separated, flatMap_map, statements_selectItem, hks, has]
  · simp [Part.separated, flatMap_map, statements_selectItem, statements_aggregateParts, statements_innerColumn]
  · simp [Part.separated, flatMap_map, statements_innerColumn]

theorem group {input : GroupBinding Operand} (hi : Fits S input.expr) (hs : ∀ k ∈ keys, Fits S k.2)
    (hplace : needsInner aggregates = false → ∀ i, Places S .apart [i] (Build.groupInPlace i keys aggregates) fun k => [k]) :
    Places S .apart [] (group input keys aggregates) fun k => [k] := by
  refine hands.bind ((placesStatements hq).inputFor hi.text _ _ _) fun r => ?_
  have hgroup := hands.ite (c := needsInner aggregates = true)
    (fun _ => groupOverInner hq ha r.1 input.var input.type hs) fun hn => hplace (by simpa using hn) r.1
  exact places_opened (hands.bind ((hands.extents _).declareExtent r.1 r.2) fun _ =>
    hands.bind (places_bindVariable _ _) fun _ => hands.bind (places_bindVariable _ _) fun _ => hgroup)

end

end Places

end Build

/-! ## Every expression -/

namespace Expr

open Build

variable {e : Expr}

/-- The node makes no statement. -/
def isValue : Expr → Bool
  | scan _ | filter .. | project .. | join .. | crossJoin _ | groupBy .. | sort .. | skip .. | limit .. | distinct _
  | setOp .. | element _ | isEmpty _ | quantifier .. => false
  | _ => true

/-- The keys of a group that is written in place are without statements. -/
def KeysFlat : Expr → Prop
  | groupBy _ keys aggregates => (∀ a ∈ aggregates, a.2.argument.isPlainColumn = true) →
    ∀ k ∈ keys, All (fun e => e.isValue = true) k.2
  | _ => True

/-- What is known of the step that builds an expression. It makes no statement if no part of the
expression does. -/
structure PlacesAll (config : Config) (flat keyed : Prop) (e : Expr) : Prop where
  text : ∀ quiet : Prop, (quiet → All (fun e => e.isValue = true) e) →
    Places ⟨flat, quiet, keyed⟩ .apart [] (build config e) Fragment.statements
  taken : takesIn true e = true → ∀ i, Places ⟨flat, False, keyed⟩ (.takenIn i) [] (build config e) (Fragment.besides i)

variable {config : Config} {flat keyed : Prop}

theorem PlacesAll.loud (h : PlacesAll config flat keyed e) :
    Places ⟨flat, False, keyed⟩ .apart [] (build config e) Fragment.statements :=
  h.text False False.elim

theorem PlacesAll.fits (h : PlacesAll config flat keyed e) : Fits ⟨flat, False, keyed⟩ (toOperand config e) := by
  refine ⟨h.loud, h.taken, fun hd f hf => ?_, (buildsSound e).count⟩
  have hc : Construct config (fun _ => True) e (e.build config) := build_construct fun _ _ => trivial
  exact statement_of_declaresExtent hc hd hf

theorem Construct.places {m : BuildM Fragment} (h : Construct config (PlacesAll config flat keyed) e m) (hs : flat → KeysFlat e)
    (ho : keyed → SkipsByKeys e) : Places ⟨flat, False, keyed⟩ .apart [] m Fragment.statements := by
  by_cases hrows : e.isRowless = true
  · exact Places.hands.texts.value h (fun _ hc => hc.loud) places_rowVariable
      (Places.hands.member fun _ => places_setPending false) hrows
  have hfragment : ∀ {step : BuildM StatementId}, Places ⟨flat, False, keyed⟩ .apart [] step (fun i => [i]) →
      Places ⟨flat, False, keyed⟩ .apart [] (asFragment step) Fragment.statements := fun h =>
    Places.hands.bind h fun i => Places.hands.pure fun j => by simp
  cases h with
  | scan set => exact (Places.scan id set).1
  | filter hi hq => exact hfragment (Places.filter id hi.fits _ hq.fits)
  | record hi hf => exact hfragment (Places.projectRecord id hi.fits (forall_mem_map.2 fun f hm => (hf f hm).fits))
  | value hi hv _ => exact hfragment (Places.projectValue id hi.fits hv.fits)
  | join hl hr hc =>
    refine hfragment (Places.joined id (forall_mem_map.2 ?_) ?_ _).1
    · simpa using ⟨hl.fits, hr.fits⟩
    · rintro c ⟨⟩
      exact hc.fits
  | crossJoin hi => exact hfragment (Places.joined id (forall_mem_map.2 fun b hm => (hi b hm).fits) (by simp) _).1
  | group hi hk ha =>
    refine hfragment (Places.group id (forall_mem_map.2 fun a hm => (ha a hm).fits) hi.fits
      (forall_mem_map.2 fun k hm => (hk k hm).fits) fun hplain i => ?_)
    refine Places.groupInPlace i (forall_mem_map.2 fun k hm => (hk k hm).text flat fun hf => ?_)
      (forall_mem_map.2 fun a hm => (ha a hm).loud)
    refine hs hf (fun a ham => ?_) k hm
    simp only [needsInner, any_map, any_eq_false] at hplain
    simpa [Aggregate.with, Expr.toOperand] using hplain a ham
  | sort hi hk => exact hfragment (Places.ordered id hi.fits _ (forall_mem_map.2 fun k hm => (hk k hm).fits))
  | skip hi hk hc =>
    refine hfragment (Places.skip id hi.fits (forall_mem_map.2 fun k hm => (hk k hm).fits) hc.fits fun hkeyed => ?_)
    rw [ne_eq, map_eq_nil_iff]
    exact ho hkeyed
  | limit hi hc => exact hfragment (Places.limit id hi.fits _ hc.fits)
  | distinct hi => exact hfragment (Places.distinct id hi.fits)
  | setOp hl hr => exact Places.hands.texts.setOperation (Places.asStatement id hl.fits true) _ (Places.asStatement id hr.fits true)
  | element hi => exact Places.hands.texts.element (Places.asStatement id hi.fits true)
  | isEmpty hi | notEmpty hi => exact Places.hands.texts.emptiness (Places.asStatement id hi.fits true) _
  | quantifier hi hq => exact Places.quantified id hi.fits _ hq.fits
  | singleton hi => exact hfragment (Places.singleton id hi.fits)
  | collection hi _ => exact Places.hands.texts.collection _ (forall_mem_map.2 fun item hm => (hi item hm).loud)
  | not h => exact Places.hands.texts.negation h.loud
  | refused e cause => exact Places.hands.throw id
  | _ => exact absurd rfl hrows

theorem Construct.places_takenIn {m : BuildM Fragment} (h : Construct config (PlacesAll config flat keyed) e m)
    (ht : takesIn true e = true) (i : StatementId) : Places ⟨flat, False, keyed⟩ (.takenIn i) [] m (Fragment.besides i) := by
  have hfragment : ∀ {step : BuildM StatementId},
      Places ⟨flat, False, keyed⟩ (.takenIn i) [] step (fun k => if k = i then [] else [k]) →
      Places ⟨flat, False, keyed⟩ (.takenIn i) [] (asFragment step) (Fragment.besides i) := fun h =>
    Places.hands.bind h fun k => Places.hands.done rfl
  cases h with
  | scan set => exact (Places.scan id set).2 i
  | join hl hr hc =>
    refine hfragment ((Places.joined id (forall_mem_map.2 ?_) ?_ _).2 i)
    · simpa using ⟨hl.fits, hr.fits⟩
    · rintro c ⟨⟩
      exact hc.fits
  | crossJoin hi => exact hfragment ((Places.joined id (forall_mem_map.2 fun b hm => (hi b hm).fits) (by simp) _).2 i)
  | refused e cause => exact Places.hands.throw id
  | _ => cases ht

/-- What makes no statement is built quietly if its parts are. -/
theorem Construct.places_quiet {m : BuildM Fragment} {quiet : Prop}
    (h : Construct config (fun c => Places ⟨flat, quiet, keyed⟩ .apart [] (build config c) Fragment.statements) e m)
    (hv : All (fun e => e.isValue = true) e) : Places ⟨flat, quiet, keyed⟩ .apart [] m Fragment.statements := by
  by_cases hrows : e.isRowless = true
  · exact Places.hands.texts.value h (fun _ hc => hc) places_rowVariable
      (Places.hands.member fun _ => places_setPending false) hrows
  cases h with
  | collection hi _ => exact Places.hands.texts.collection _ (forall_mem_map.2 hi)
  | not ho => exact Places.hands.texts.negation ho
  | refused e cause => exact Places.hands.throw id
  | @singleton _ input _ => exact absurd (hv.child (c := .element input) (by simp [children])).here (by simp [isValue])
  | @notEmpty input _ => exact absurd (hv.child (c := .isEmpty input) (by simp [children])).here (by simp [isValue])
  | _ => first
    | exact absurd rfl hrows
    | exact absurd hv.here (by simp [isValue])

theorem placesAll (hs : flat → All KeysFlat e) (ho : keyed → All SkipsByKeys e) : PlacesAll config flat keyed e := by
  induction e using within_induction with
  | step e ih =>
    have hc : ∀ c, Within c e → PlacesAll config flat keyed c := fun c hc =>
      ih c hc (fun hf => (hs hf).within hc) fun hk => (ho hk).within hc
    refine ⟨fun quiet hv => ?_, Construct.places_takenIn (build_construct hc)⟩
    by_cases hq : quiet
    · exact Construct.places_quiet (build_construct fun c hw => (hc c hw).text quiet fun _ => (hv hq).within hw) (hv hq)
    · exact (Construct.places (build_construct hc) (fun hf => (hs hf).here) fun hk => (ho hk).here).weaken hq

end Expr

end RelSql
