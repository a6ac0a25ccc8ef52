/-
Kinds of steps that put texts together. Most constructs build the texts of their operands, one after the other,
and return these with words between them. A property of steps with texts that passes to what is woven of texts in
this way holds of all such constructs. A step may fail, but with none of the errors by which the construction
reports a broken rule of its own.
-/
import RelSql.Proofs.Build.Runs
import RelSql.Proofs.Query.Constructs

namespace RelSql

open RelSql.Part Build List

/-- The nodes that neither are relations nor read one. -/
def Expr.isRowless : Expr → Bool
  | scan _ | filter .. | project .. | join .. | crossJoin _ | apply .. | groupBy .. | sort .. | skip .. | limit ..
  | distinct _ | setOp .. | newCollection .. | element _ | isEmpty _ | quantifier .. | not (isEmpty _) => false
  | _ => true

/-- Reports that a rule of the compiler was broken. An offset set twice counts as such if `keyed` says
that rows are skipped by sort keys only. -/
def Error.Internal (keyed : Prop) : Error → Prop
  | badState .noStatement | badState .limitTwice | badState .expectedStatement | badState (.columnRenamedTwice _)
  | badState (.aliasBound _) => True
  | badState .offsetTwice => keyed
  | _ => False

theorem Error.Internal.always {keyed : Prop} {e : Error} (h : e.Internal keyed) : e.Internal True := by
  unfold Error.Internal at h ⊢
  split at h <;> trivial

theorem Constant.literal_error {value : Constant} {e : Error} (h : value.literal = .error e) (keyed : Prop) :
    ¬ e.Internal keyed := by
  have hfloat : ∀ {format width bits}, Literal.ofFloat format width bits = .error e → ¬ e.Internal keyed := by
    intro format width bits h
    unfold Literal.ofFloat at h
    split at h <;> cases h <;> exact id
  cases value with
  | double bits | single bits => exact hfloat h
  | _ => cases h <;> exact id

/-! ## Woven texts -/

namespace Part

/-- A part that is no name of a member of what stands before it. -/
def isWord : Part → Bool
  | .line => true
  | .text t => t != "."
  | _ => false

/-- The text is made of the given texts, each taken at most once and in their order, with words between two of
them. -/
inductive Woven : List (List Part) → List Part → Prop where
  | nil : Woven [] []
  | skip {pss : List (List Part)} {qs : List Part} (ps : List Part) (h : Woven pss qs) : Woven (ps :: pss) qs
  | text {pss : List (List Part)} {qs : List Part} (t : String) (h : Woven pss qs) : Woven pss (.text t :: qs)
  | line {pss : List (List Part)} {qs : List Part} (h : Woven pss qs) : Woven pss (.line :: qs)
  | last (ps : List Part) : Woven [ps] ps
  | next {pss : List (List Part)} {qs : List Part} (ps : List Part) (p : Part) (hp : p.isWord = true)
    (h : Woven pss qs) : Woven (ps :: pss) (ps ++ p :: qs)
  | group {pss : List (List Part)} {ps : List Part} (h : Woven pss ps) : Woven pss [.group ps]

variable {pss : List (List Part)} {qs : List Part} {p : Part} {separator : String}

theorem woven_separated (hs : separator ≠ ".") : ∀ items : List (List Part),
    Woven items ([.text separator].intercalate items)
  | [] => .nil
  | [item] => by
    rw [intercalate_singleton]
    exact .last item
  | item :: item' :: rest => by
    rw [intercalate_cons_cons, append_assoc]
    exact .next item _ (by simpa [isWord] using hs) (woven_separated hs (item' :: rest))

theorem woven_enclosed (hs : separator ≠ ".") (t : String) (ht : t ≠ ".") : ∀ items : List (List Part),
    Woven items ([.text separator].intercalate items ++ [.text t])
  | [] => .text t .nil
  | [item] => by
    rw [intercalate_singleton]
    exact .next item _ (by simpa [isWord] using ht) .nil
  | item :: item' :: rest => by
    rw [intercalate_cons_cons, append_assoc, append_assoc]
    exact .next item _ (by simpa [isWord] using hs) (woven_enclosed hs t ht (item' :: rest))

/-- Texts that start with words, one behind the other. Without the first word they are woven of the rest. -/
theorem woven_flatten {t : String} (ht : t ≠ ".") (h : Woven pss qs) : ∀ {items : List (List Part)},
    (∀ ps ∈ items, ∃ s, s ≠ "." ∧ ps = .text s :: ps.tail) →
      ∃ s rs, items.flatten ++ .text t :: qs = .text s :: rs ∧ s ≠ "." ∧ Woven (items.map tail ++ pss) rs
  | [], _ => ⟨t, qs, rfl, ht, h⟩
  | ps :: items, hitems => by
    obtain ⟨⟨s, hs, hps⟩, hrest⟩ := forall_mem_cons.1 hitems
    obtain ⟨s', rs, heq, hs', hwoven⟩ := woven_flatten ht h hrest
    refine ⟨s, ps.tail ++ .text s' :: rs, ?_, hs, .next ps.tail _ (by simpa [isWord] using hs') hwoven⟩
    rw [flatten_cons, append_assoc, heq, ← cons_append, ← hps]

end Part

namespace Build

/-! ## Failing steps -/

/-- The step fails with the error. -/
def Fails {α : Type} (m : BuildM α) (b : Build) (e : Error) : Prop := m.run b = .error e

theorem fails_bind {α β : Type} {b : Build} {e : Error} {m : BuildM α} {f : α → BuildM β} :
    Fails (m >>= f) b e ↔ Fails m b e ∨ ∃ a b1, Runs m b a b1 ∧ Fails (f a) b1 e := by
  unfold Fails Runs
  rw [StateT.run_bind]
  cases hm : m.run b with
  | error e' =>
    constructor
    · intro h; cases h; exact Or.inl rfl
    · rintro (h | ⟨a, b1, h, -⟩)
      · cases h; rfl
      · cases h
  | ok r =>
    constructor
    · intro h; exact Or.inr ⟨r.1, r.2, rfl, h⟩
    · rintro (h | ⟨a, b1, h, hf⟩)
      · cases h
      · cases h; exact hf

/-- One side of a set operation is a statement, or all of what a subselect shows. -/
theorem setSide_parts {b b' : Build} {side : List Part} {k : StatementId} (hr : Runs (setSide k) b side b') :
    b' = b ∧ (side = [.text "SELECT * FROM (", .statement k, .text ")"] ∨ side = [.statement k]) := by
  simp only [setSide, runs_bind, runs_statement, runs_ite, runs_pure, and_assoc, exists_and_left, exists_eq_left] at hr
  rcases hr with ⟨-, rfl, rfl⟩ | ⟨-, rfl, rfl⟩
  · exact ⟨rfl, Or.inl rfl⟩
  · exact ⟨rfl, Or.inr rfl⟩

/-! ## Kinds of steps with texts -/

/-- A kind of steps with texts: it has a step with the texts at hand before and the texts at hand behind it, of
which the last are those of what it returns. Of the steps that return the text of an expression it has those in
`made`. -/
structure TextKind (kind : {α : Type} → List (List Part) → BuildM α → (α → List (List Part)) → Prop)
    (made : List (List Part) → BuildM Fragment → Prop) : Prop where
  still : ∀ {α : Type} {m : BuildM α} {taken : List (List Part)}, (∀ b a b', Runs m b a b' → b' = b) →
    (∀ b e, Fails m b e → ¬ e.Internal True) → kind taken m fun _ => taken
  chain : ∀ {α β : Type} {m : BuildM α} {f : α → BuildM β} {taken : List (List Part)} {mid : α → List (List Part)}
    {left : β → List (List Part)}, kind taken m mid → (∀ a, Returns m a → kind (mid a) (f a) left) →
    kind taken (m >>= f) left
  finish : ∀ {α : Type} {m : BuildM α} {f : α → BuildM Fragment} {taken : List (List Part)}
    {mid : α → List (List Part)}, kind taken m mid → (∀ a, Returns m a → made (mid a) (f a)) → made taken (m >>= f)
  frame : ∀ {α : Type} {m : BuildM α} {left : α → List (List Part)} (taken : List (List Part)), kind [] m left →
    kind taken m fun a => taken ++ left a
  done : ∀ {α : Type} {a : α} {taken : List (List Part)} {left : α → List (List Part)}, left a = taken →
    kind taken (pure a) left
  weave : ∀ {α : Type} {a : α} {taken : List (List Part)} {left : α → List (List Part)} {ps : List Part},
    left a = [ps] → Part.Woven taken ps → kind taken (pure a) left
  parts : ∀ {taken : List (List Part)} {ps : List Part}, Part.Woven taken ps → made taken (pure (.parts ps))
  refuse : ∀ {α : Type} {e : Error} {taken : List (List Part)} {left : α → List (List Part)}, ¬ e.Internal True →
    kind taken (throw e) left
  operand : ∀ {m : BuildM Fragment}, made [] m → kind [] m fun f => [[f.toPart]]

namespace TextKind

variable {kind : {α : Type} → List (List Part) → BuildM α → (α → List (List Part)) → Prop}
  {made : List (List Part) → BuildM Fragment → Prop} {α β : Type} {operand left right : Operand}
  {taken : List (List Part)} (hk : TextKind kind made)

include hk

theorem mapM {f : α → BuildM β} {text : β → List Part} : ∀ {xs : List α}, (∀ x ∈ xs, kind [] (f x) fun y => [text y]) →
    kind [] (xs.mapM f) fun ys => ys.map text
  | [], _ => by
    rw [mapM_nil]
    exact hk.done rfl
  | x :: rest, h => by
    rw [mapM_cons]
    refine hk.chain (h x mem_cons_self) fun y _ => ?_
    exact hk.chain (hk.frame _ (mapM fun z hz => h z (mem_cons_of_mem _ hz))) fun ys _ => hk.done rfl

theorem refused {e : Error} (he : ¬ e.Internal True) : made taken (throw e) := by
  change made taken ((throw e : BuildM PUnit) >>= fun _ => throw e)
  have hthrow : kind taken (throw e : BuildM PUnit) fun _ => [] := hk.refuse he
  refine hk.finish hthrow ?_
  rintro _ ⟨_, _, hr⟩
  exact absurd hr runs_throw

/-- The text of an operand behind those at hand. -/
theorem framed {m : BuildM Fragment} (h : made [] m) (taken : List (List Part)) :
    kind taken m fun f => taken ++ [[f.toPart]] :=
  hk.frame taken (hk.operand h)

theorem constant (value : Constant) : made [] (constant value) := by
  refine hk.finish (hk.still (fun _ _ _ hr => (runs_lift.1 hr).2) fun b e h => ?_) fun t _ => hk.parts (.text t .nil)
  unfold Fails at h
  cases hl : value.literal with
  | error e' => rw [hl] at h; cases h; exact Constant.literal_error hl True
  | ok text => rw [hl] at h; cases h

theorem call (f : Function) {arguments : List Operand} (h : ∀ a ∈ arguments, made [] a.build) :
    made [] (call f arguments) := by
  unfold Build.call
  split
  · split
    · exact hk.parts (.text _ .nil)
    · exact hk.refused id
  · exact hk.finish (hk.mapM fun a ha => hk.operand (h a ha)) fun args _ =>
      hk.parts (.text _ (.text _ (woven_enclosed (by decide) _ (by decide) _)))

theorem caseBranch {branch : Operand × Operand} (h : made [] branch.1.build) (h' : made [] branch.2.build) :
    kind [] (caseBranch branch) fun ps => [ps.tail] :=
  hk.chain (hk.operand h) fun c _ => hk.chain (hk.framed h' _) fun v _ =>
    hk.weave rfl (.next [c.toPart] _ (by decide) (.last [v.toPart]))

/-- What is put behind the texts at hand may be missing. -/
theorem optionalParts {keyword : String} {o : Option Operand} (h : ∀ operand ∈ o, made [] operand.build)
    {g : List Part → BuildM Fragment} (hnone : made taken (g [])) (hsome : ∀ p, made (taken ++ [[p]]) (g [.text keyword, p])) :
    made taken (optionalParts keyword o >>= g) := by
  cases o with
  | none =>
    rw [Build.optionalParts, pure_bind]
    exact hnone
  | some operand =>
    rw [Build.optionalParts]
    split
    · rw [pure_bind]
      exact hnone
    · rw [bind_assoc]
      refine hk.finish (hk.framed (h operand rfl) taken) fun f _ => ?_
      rw [pure_bind]
      exact hsome f.toPart

theorem caseOf {branches : List (Operand × Operand)} {otherwise : Option Operand}
    (hb : ∀ b ∈ branches, made [] b.1.build ∧ made [] b.2.build) (ho : ∀ o ∈ otherwise, made [] o.build) :
    made [] (caseOf branches otherwise) := by
  refine hk.finish (hk.mapM fun b hm => hk.caseBranch (hb b hm).1 (hb b hm).2) fun bs hbs => ?_
  have hwords : ∀ ps ∈ bs, ∃ s, s ≠ "." ∧ ps = .text s :: ps.tail := by
    obtain ⟨b, b', hr⟩ := hbs
    refine forall_of_runs_mapM (fun branch b1 ps b2 hps => ⟨" WHEN (", by decide, ?_⟩) hr
    simp only [Build.caseBranch, runs_bind, runs_pure] at hps
    obtain ⟨c, _, -, v, _, -, rfl, -⟩ := hps
    rfl
  have hcase : ∀ {t pss qs}, t ≠ "." → Part.Woven pss qs →
      Part.Woven (bs.map tail ++ pss) (.text "CASE" :: (bs.flatten ++ .text t :: qs)) := by
    intro t pss qs ht h
    obtain ⟨s, rs, heq, -, hwoven⟩ := woven_flatten ht h hwords
    rw [heq]
    exact .text _ (.text s hwoven)
  refine hk.optionalParts ho (hk.parts ?_) fun p => hk.parts ?_
  · simpa using hcase (by decide : " END" ≠ ".") .nil
  · simpa using hcase (by decide : " ELSE " ≠ ".") (.next [p] (.text " END") (by decide) .nil)

theorem negate (h : made [] operand.build) : made [] (negate operand) :=
  hk.finish (hk.operand h) fun f _ => hk.parts (.text _ (.next [f.toPart] _ (by decide) .nil))

theorem negation (h : made [] operand.build) : made [] (negation operand) :=
  hk.finish (hk.operand h) fun f _ => hk.parts (.text _ (.next [f.toPart] _ (by decide) .nil))

theorem nullTest (negated : Bool) (h : made [] operand.build) : made [] (nullTest negated operand) :=
  hk.finish (hk.operand h) fun f _ => hk.parts (.next [f.toPart] _ (by cases negated <;> decide) .nil)

theorem like {pattern : Operand} {escape : Option Operand} (h : made [] operand.build) (hp : made [] pattern.build)
    (he : ∀ o ∈ escape, made [] o.build) : made [] (like operand pattern escape) :=
  hk.finish (hk.operand h) fun f _ => hk.finish (hk.framed hp _) fun g _ => hk.optionalParts he
    (hk.parts (.next [f.toPart] _ (by decide) (.last [g.toPart])))
    fun p => hk.parts (.next [f.toPart] _ (by decide) (.next [g.toPart] _ (by decide) (.last [p])))

theorem parenthesized (h : made [] operand.build) : kind [] (parenthesized operand) fun p => [[p]] := by
  refine hk.chain (hk.operand h) fun f _ => ?_
  split
  · exact hk.weave rfl (.group (.text _ (.next [f.toPart] _ (by decide) .nil)))
  · exact hk.weave rfl (.group (.last [f.toPart]))

theorem binary {op : String} (hop : op ≠ ".") (hl : made [] left.build) (hr : made [] right.build) :
    made [] (binary op left right) :=
  hk.finish (hk.parenthesized hl) fun l _ => hk.finish (hk.frame _ (hk.parenthesized hr)) fun r _ =>
    hk.parts (.next [l] _ (by simpa [isWord] using hop) (.last [r]))

theorem valueTest {key : Operand} {values : List Operand} (h : made [] key.build) (hv : ∀ v ∈ values, made [] v.build) :
    kind [] (valueTest key values) fun ps => [ps] := by
  match values with
  | [] => exact hk.weave rfl .nil
  | [value] =>
    exact hk.chain (hk.parenthesized h) fun k _ =>
      hk.chain (hk.frame _ (hk.parenthesized (hv value mem_cons_self))) fun v _ =>
        hk.weave rfl (.next [k] _ (by decide) (.last [v]))
  | value :: value' :: rest =>
    exact hk.chain (hk.parenthesized h) fun k _ =>
      hk.chain (hk.frame _ (hk.mapM fun v hm => hk.parenthesized (hv v hm))) fun vs _ =>
        hk.weave rfl (.next [k] _ (by decide) (woven_enclosed (by decide) _ (by decide) _))

theorem keyTest {entry : Operand × List Operand} (h : made [] entry.1.build) (hv : ∀ v ∈ entry.2, made [] v.build) :
    kind [] (keyTest entry) fun ps => [ps] := by
  refine hk.chain (hk.valueTest h fun v hm => hv v (mem_of_mem_filter hm)) fun tested _ => ?_
  split
  · exact hk.done rfl
  · rename_i test hfind
    refine hk.chain (hk.framed (hv test (mem_of_find?_eq_some hfind)) _) fun f _ => hk.weave rfl ?_
    split
    · exact .skip _ (.last _)
    · rw [append_assoc]
      exact .next tested _ (by decide) (.last _)

theorem membership {groups : KeyedLists Operand Operand}
    (h : ∀ entry ∈ groups, made [] entry.1.build ∧ ∀ v ∈ entry.2, made [] v.build) : made [] (membership groups) := by
  refine hk.finish (hk.mapM fun entry hm => hk.keyTest (h entry hm).1 (h entry hm).2) fun tests _ => hk.parts ?_
  rw [map_id']
  split
  · exact .text _ (woven_enclosed (by decide) _ (by decide) tests)
  · exact woven_separated (by decide) tests

/-- The step of a value is of the kind if those of the expressions in it are. -/
theorem value [Variables] {config : Config} {P : Expr → Prop} {e : Expr} {m : BuildM Fragment} (h : Expr.Construct config P e m)
    (hp : ∀ c, P c → made [] (c.build config)) (hvar : ∀ name, made [] (Variables.visit name))
    (hmember : ∀ {owner : Operand} (name : String), made [] owner.build → made [] (member owner name))
    (hv : e.isRowless = true) : made [] m := by
  have hoption : ∀ {o : Option Expr}, (∀ c ∈ o, P c) → ∀ operand ∈ o.map (Expr.toOperand config), made [] operand.build := by
    intro o ho operand hm
    obtain ⟨c, hc, rfl⟩ := Option.map_eq_some_iff.1 hm
    exact hp c (ho c hc)
  cases h with
  | constant value => exact hk.constant value
  | null type | parameter name type => exact hk.parts (.text _ .nil)
  | member ho => exact hmember _ (hp _ ho)
  | var name type => exact hvar name
  | call ha => exact hk.call _ (forall_mem_map.2 fun a hm => hp _ (ha a hm))
  | case hb ho =>
    exact hk.caseOf (forall_mem_map.2 fun b hm => ⟨hp _ (hb b hm).1, hp _ (hb b hm).2⟩) (hoption ho)
  | cast ho | notNot ho => exact hp _ ho
  | @arith op _ _ hl hr | @compare op _ _ hl hr => exact hk.binary (by cases op <;> decide) (hp _ hl) (hp _ hr)
  | and hl hr | or hl hr | notEqual hl hr => exact hk.binary (by decide) (hp _ hl) (hp _ hr)
  | negate ho => exact hk.negate (hp _ ho)
  | membership hterms ht =>
    refine hk.membership (KeyedLists.forall_ofPairs (R := fun o : Operand => made [] o.build)
      (S := fun o : Operand => made [] o.build) fun p hm => ?_)
    rw [map_map] at hm
    obtain ⟨t, htm, rfl⟩ := mem_map.1 hm
    exact ⟨hp _ (ht t htm).1, hp _ (ht t htm).2⟩
  | notNull ho | isNull ho => exact hk.nullTest _ (hp _ ho)
  | not ho => exact hk.negation (hp _ ho)
  | like ho hpat he => exact hk.like (hp _ ho) (hp _ hpat) (hoption he)
  | refused e cause => exact hk.refused id
  | _ => cases hv

/-! ## Items of lists -/

theorem projectField {field : String × Operand} (h : made [] field.2.build) :
    kind [] (projectField field) fun item => [[item.2.toPart]] := by
  unfold Build.projectField
  dsimp only
  split
  · exact hk.refuse id
  · exact hk.chain (hk.operand h) fun f _ => hk.done rfl

theorem sortItem {key : SortKey Operand} (h : made [] key.expr.build) : kind [] (sortItem key) fun ps => [ps] := by
  refine hk.chain (hk.operand h) fun f _ => hk.weave rfl ?_
  have hdirection : (text (if key.ascending then " ASC" else " DESC")).isWord = true := by
    cases key.ascending <;> decide
  unfold collationParts
  split
  · split
    · exact .next [f.toPart] _ hdirection .nil
    · exact .next [f.toPart] _ (by decide) (.text _ (.text _ .nil))
  · exact .next [f.toPart] _ hdirection .nil

theorem buildKey {key : String × Operand} (h : made [] key.2.build) : kind [] (buildKey key) fun k => [[k.2]] :=
  hk.chain (hk.operand h) fun _ _ => hk.done rfl

theorem buildArgument {aggregate : String × Aggregate Operand} (h : made [] aggregate.2.argument.build) :
    kind [] (buildArgument aggregate) fun a => [[a.2.2]] :=
  hk.chain (hk.operand h) fun _ _ => hk.done rfl

theorem collectionItem (scalar : Bool) (h : made [] operand.build) :
    kind [] (collectionItem scalar operand) fun ps => [ps] := by
  refine hk.chain (hk.operand h) fun f _ => hk.weave rfl ?_
  cases scalar with
  | false => exact .text _ (.last [f.toPart])
  | true => exact .text _ (.next [f.toPart] _ (by decide) .nil)

theorem collection (elementType : DataType) {items : List Operand} (h : ∀ item ∈ items, made [] item.build) :
    made [] (collection elementType items) := by
  unfold Build.collection
  split
  · exact hk.parts (.text _ .nil)
  · refine hk.finish (hk.mapM fun item hm => hk.collectionItem _ (h item hm)) fun rows _ => hk.parts ?_
    rw [map_id']
    exact woven_separated (by decide) rows

/-! ## Whole statements inside text -/

variable (h : kind [] (asStatement operand true) fun i => [[.statement i]])

include h

theorem element : made [] (element operand) :=
  hk.finish h fun i _ => hk.parts (.text _ (.next [.statement i] _ (by decide) .nil))

theorem emptiness (negated : Bool) : made [] (emptiness negated operand) := by
  refine hk.finish h fun i _ => hk.parts ?_
  cases negated with
  | true => exact .text _ (.next [.statement i] _ (by decide) .nil)
  | false => exact .text _ (.text _ (.next [.statement i] _ (by decide) .nil))

theorem setOperation (op : SetOp) (h' : kind [] (asStatement right true) fun i => [[.statement i]]) :
    made [] (setOperation op operand right) := by
  have hside : ∀ (i : StatementId) {taken : List (List Part)}, kind taken (setSide i) fun _ => taken := by
    intro i taken
    refine hk.chain (hk.still (fun _ _ _ hr => (runs_statement.1 hr).2) fun _ _ h => by cases h) fun s _ => ?_
    split <;> exact hk.done rfl
  refine hk.finish h fun l _ => hk.finish (hk.frame _ h') fun r _ => ?_
  refine hk.finish (hside l) fun ls hls => hk.finish (hside r) fun rs hrs => hk.parts ?_
  obtain ⟨_, _, hls⟩ := hls
  obtain ⟨_, _, hrs⟩ := hrs
  have hright : Part.Woven [[.statement r]] rs := by
    rcases (setSide_parts hrs).2 with rfl | rfl
    · exact .text _ (.next [.statement r] _ (by decide) .nil)
    · exact .last _
  rcases (setSide_parts hls).2 with rfl | rfl
  · exact .text _ (.next [.statement l] _ (by decide) (.line (.text _ (.line hright))))
  · exact .next [.statement l] _ (by decide) (.text _ (.line hright))

end TextKind

end Build

end RelSql
