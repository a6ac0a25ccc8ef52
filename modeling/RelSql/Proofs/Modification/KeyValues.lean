/-
The keys by which a modified row is read back. The select behind a modification compares each key with
the parameter of the constant that was bound to it last. A row just inserted may also be found by the
number that the store gave it; otherwise a key without a constant is an error, and the only one that
names a missing key.
-/
import RelSql.Proofs.Modification.ReadBack

namespace RelSql.Modification

open List

variable {config : Config} {m : Modification}

/-! ## Conditions of the select -/

/-- Conditions that find the row of a modification again. -/
inductive FindsRow (config : Config) (set : EntitySet) (m : Modification) (parameters : List ParameterRecord) :
    List (String × String) → Prop where
  /-- Each key has the constant that is bound to it last. -/
  | byKeys {conditions : List (String × String)} (hne : set.keyMembers ≠ [])
    (hvalues : List.Forall₂ (fun key condition => condition.1 = key.1 ∧ ∃ c,
      lastBinding? key.1 m.bindings = some c ∧ parameterValue? parameters condition.2 = some c)
      set.keyMembers conditions) : FindsRow config set m parameters conditions
  /-- The store gave out the only key, a number of 64 bits. -/
  | byGeneratedKey {key : String} {type : DataType} (hinsert : m.isInsert = true) (hkey : set.keyMembers = [(key, type)])
    (hkind : type.kind? = some .int64) (hunbound : lastBinding? key m.bindings = none) :
    FindsRow config set m parameters [(key, config.lastInsertId)]
  | byRowNumber (hinsert : m.isInsert = true)
    (hunbound : set.keyMembers = [] ∨ ∃ key ∈ set.keyMembers, lastBinding? key.1 m.bindings = none)
    (hother : ∀ key, set.keyMembers = [key] → key.2.kind? ≠ some .int64) :
    FindsRow config set m parameters [(config.rowidColumn, config.lastInsertId)]

theorem isNone_boundName? {n : Numbered} {bs : List (String × Constant)} (h : n.Filed config bs) (member : String) :
    (n.boundName? member).isNone = (lastBinding? member bs).isNone := by
  rcases h.boundName?_spec member with ⟨hnone, hlast⟩ | ⟨p, c, hsome, -, hlast⟩
  · rw [hnone, hlast]; rfl
  · rw [hsome, hlast]; rfl

theorem forall₂_filterMap {α β : Type} {R : α → β → Prop} {f : α → Option β} {as : List α}
    (h : ∀ a ∈ as, ∃ b, f a = some b ∧ R a b) : List.Forall₂ R as (as.filterMap f) := by
  induction as with
  | nil => exact .nil
  | cons a as ih =>
    obtain ⟨⟨b, hb, hR⟩, hrest⟩ := forall_mem_cons.1 h
    rw [filterMap_cons, hb]
    exact .cons hR (ih hrest)

/-- Keys that do not all have a constant. -/
theorem not_all_bound_iff {set : EntitySet} {n : Numbered} (h : n.Filed config m.bindings) :
    ¬ (set.keyMembers.map Prod.fst ≠ [] ∧ ∀ k ∈ set.keyMembers.map Prod.fst, (n.boundName? k).isSome = true) ↔
      set.keyMembers = [] ∨ ∃ key ∈ set.keyMembers, lastBinding? key.1 m.bindings = none := by
  have hbound : ∀ k, (n.boundName? k).isSome = true ↔ lastBinding? k m.bindings ≠ none := by
    intro k
    rw [← Option.not_isNone, isNone_boundName? h, Option.not_isNone, Option.isSome_iff_ne_none]
  rw [not_and_or, not_not, map_eq_nil_iff, forall_mem_map]
  simp [hbound]

theorem findsRow_of_keyConditions {set : EntitySet} {n : Numbered} {conditions : List (String × String)}
    (h : n.Filed config m.bindings) (hc : keyConditions config set m.isInsert n.boundName? = .ok conditions) :
    FindsRow config set m n.parameters conditions := by
  rw [keyConditions_eq] at hc
  dsimp only at hc
  split at hc
  · rename_i hall
    cases hc
    refine .byKeys (fun hnil => hall.1 (by rw [hnil]; rfl)) ?_
    rw [filterMap_map]
    refine forall₂_filterMap fun key hkey => ?_
    have hsome := hall.2 key.1 (mem_map_of_mem hkey)
    rcases h.boundName?_spec key.1 with ⟨hnone, -⟩ | ⟨p, c, hp, hvalue, hlast⟩
    · rw [hnone] at hsome; cases hsome
    · exact ⟨(key.1, p), by simp [hp], rfl, c, hlast, hvalue⟩
  · rename_i hall
    have hunbound := (not_all_bound_iff h).1 hall
    split at hc
    · rename_i hinsert
      cases hc
      cases hgenerated : keyConditions.generatedKey? set with
      | some key =>
        obtain ⟨type, hkey, hkind⟩ := generatedKey?_eq_some_iff.1 hgenerated
        refine .byGeneratedKey hinsert hkey hkind ?_
        simpa [hkey] using hunbound
      | none =>
        refine .byRowNumber hinsert hunbound fun key hkey hkind => ?_
        rw [generatedKey?_eq_some_iff.2 ⟨key.2, hkey, hkind⟩] at hgenerated
        cases hgenerated
    · cases hc

/-- If members are read back, the select behind a modification has one condition for each key, in the order
of the keys. The parameter in it holds the constant bound last to the key, whatever the case of its name,
where a value is set or where an equality compares the key with a constant. Only an inserted row whose keys
do not all have a constant is found by its number: under its key, if that is the only one and of 64 bits,
and else under the column for row numbers. -/
theorem compile_readBack_conditions {r : CompiledModification} (hreturning : m.returning ≠ [])
    (h : compile config m = .ok r) :
    ∃ set name ws conditions, targetSet m.target = .ok set ∧ targetName set = .ok name ∧ statementWords name m = .ok ws ∧
      r.text = (Numbered.ofWords config ws).text ++ readBackText config set m.returning conditions ∧
      FindsRow config set m r.parameters conditions := by
  simp only [compile, bind_eq_ok] at h
  obtain ⟨set, hset, name, hname, ws, hws, rest, hrest, h⟩ := h
  cases h
  unfold readBack at hrest
  rw [if_neg (by simpa using hreturning)] at hrest
  obtain ⟨conditions, hconditions, hrest⟩ := bind_eq_ok.1 hrest
  cases hrest
  have hfiled := filed_ofWords config (binds_statementWords hws)
  exact ⟨set, name, ws, conditions, hset, hname, hws, rfl, findsRow_of_keyConditions hfiled hconditions⟩

/-- Both keys of a place have constants, the one that is set in another case. -/
theorem moveToSlot_conditions :
    let m := Modification.update ((Expr.scan places).bind "p") [⟨"Slot", .constant (.int32 7)⟩]
      (isMember places "shelf" (.int32 1)) ["item"]
    m.returning ≠ [] ∧ ∃ r set name ws conditions, compile {} m = .ok r ∧ r.text =
        "UPDATE place\nSET Slot = @p0\nWHERE (shelf = @p1);\n" ++
          "SELECT item\nFROM place\nWHERE changes() > 0 AND shelf = @p1 AND slot = @p0;\n" ∧
      targetSet m.target = .ok set ∧ targetName set = .ok name ∧ statementWords name m = .ok ws ∧
      r.text = (Numbered.ofWords {} ws).text ++ readBackText {} set m.returning conditions ∧
      FindsRow {} set m r.parameters conditions := by
  intro m
  have htext : (compile {} m).toOption.map CompiledModification.text =
      some ("UPDATE place\nSET Slot = @p0\nWHERE (shelf = @p1);\n" ++
        "SELECT item\nFROM place\nWHERE changes() > 0 AND shelf = @p1 AND slot = @p0;\n") := by decide +kernel
  have hreturning : m.returning ≠ [] := List.cons_ne_nil _ _
  cases hr : compile {} m with
  | error e => rw [hr] at htext; cases htext
  | ok r =>
    rw [hr] at htext
    obtain ⟨set, name, ws, conditions, hrow⟩ := compile_readBack_conditions hreturning hr
    exact ⟨hreturning, r, set, name, ws, conditions, rfl, Option.some.inj htext, hrow⟩

/-! ## Missing keys -/

/-- The step does not fail for want of a key. -/
def NeedsNoKey {α : Type} (x : Except Error α) : Prop := ∀ table member, x ≠ .error (.missingKeyValue table member)

section

variable {α β : Type}

theorem needsNoKey_ok (a : α) : NeedsNoKey (.ok a : Except Error α) := nofun

theorem NeedsNoKey.bind {x : Except Error α} {f : α → Except Error β} (hx : NeedsNoKey x) (hf : ∀ a, NeedsNoKey (f a)) :
    NeedsNoKey (x >>= f) := by
  cases x with
  | error e => exact fun table member h => hx table member (congrArg Except.error (Except.error.inj h))
  | ok a => exact hf a

theorem NeedsNoKey.bind_eq {x : Except Error α} {f : α → Except Error β} {table member : String} (hx : NeedsNoKey x) :
    x >>= f = .error (.missingKeyValue table member) ↔
      ∃ a, x = .ok a ∧ f a = .error (.missingKeyValue table member) := by
  cases x with
  | error e => exact ⟨fun h => absurd (congrArg Except.error (Except.error.inj h)) (hx table member), nofun⟩
  | ok a => exact ⟨fun h => ⟨a, rfl, h⟩, fun ⟨_, ha, h⟩ => by cases ha; exact h⟩

theorem NeedsNoKey.map {x : Except Error α} (hx : NeedsNoKey x) (f : α → β) : NeedsNoKey (x >>= fun a => pure (f a)) :=
  hx.bind fun a => needsNoKey_ok (f a)

theorem needsNoKey_mapM {f : α → Except Error β} (hf : ∀ a, NeedsNoKey (f a)) (as : List α) : NeedsNoKey (as.mapM f) := by
  induction as with
  | nil => exact needsNoKey_ok []
  | cons a as ih =>
    rw [mapM_cons]
    exact (hf a).bind fun b => ih.map (b :: ·)

end

theorem needsNoKey_targetSet (target : Binding Expr) : NeedsNoKey (targetSet target) := by
  unfold targetSet
  split <;> exact nofun

theorem needsNoKey_targetName (set : EntitySet) : NeedsNoKey (targetName set) := by
  unfold targetName
  split
  · exact nofun
  · split <;> exact nofun

mutual

theorem needsNoKey_words (e : Expr) : NeedsNoKey (words e) := by
  cases e with
  | and left right | or left right | compare op left right =>
    exact (needsNoKey_words left).bind fun ls => (needsNoKey_words right).map _
  | isNull operand | not operand => exact (needsNoKey_words operand).map _
  | scan set => exact (needsNoKey_targetName set).map _
  | newRecord fields => exact (needsNoKey_fieldWords fields).map _
  | _ => exact nofun

theorem needsNoKey_fieldWords (fields : List (String × Expr)) : NeedsNoKey (fieldWords fields) := by
  match fields with
  | [] => exact needsNoKey_ok []
  | (_, e) :: rest => exact (needsNoKey_words e).bind fun ws => (needsNoKey_fieldWords rest).map _

end

theorem needsNoKey_statementWords (name : String) (m : Modification) : NeedsNoKey (statementWords name m) := by
  have hassignment : ∀ a, NeedsNoKey (assignmentWords a) := fun a => (needsNoKey_words a.value).map _
  have hwhere : ∀ predicate, NeedsNoKey (whereWords predicate) := fun predicate => (needsNoKey_words predicate).map _
  cases m with
  | insert target assignments returning =>
    refine NeedsNoKey.map ?_ _
    unfold insertWords
    split
    · exact needsNoKey_ok _
    · exact (needsNoKey_mapM hassignment assignments).map _
  | update target assignments predicate returning =>
    refine NeedsNoKey.bind ?_ fun sets => (hwhere predicate).map _
    unfold setWords
    split
    · exact needsNoKey_ok _
    · exact (needsNoKey_mapM (fun a => (hassignment a).map _) assignments).map _
  | delete target predicate returning => exact (hwhere predicate).map _

/-- A row that is read back but not found by its keys, unless it was inserted. -/
theorem readBack_missingKeyValue_iff {set : EntitySet} {n : Numbered} {table member : String}
    (h : n.Filed config m.bindings) : readBack config set m n = .error (.missingKeyValue table member) ↔
      m.isInsert = false ∧ m.returning ≠ [] ∧
        (set.keyMembers = [] ∨ ∃ key ∈ set.keyMembers, lastBinding? key.1 m.bindings = none) ∧ table = set.storeName ∧
        member = ((set.keyMembers.map Prod.fst).find? fun k => (lastBinding? k m.bindings).isNone).getD "<key>" := by
  rw [← not_all_bound_iff h]
  unfold readBack
  by_cases hreturning : m.returning = []
  · rw [if_pos (by simpa using hreturning)]
    exact ⟨nofun, fun h => absurd hreturning h.2.1⟩
  rw [if_neg (by simpa using hreturning), keyConditions_eq]
  dsimp only
  simp only [isNone_boundName? h]
  split
  · rename_i hall
    exact ⟨nofun, fun h => absurd hall h.2.2.1⟩
  · rename_i hall
    split
    · rename_i hinsert
      exact ⟨nofun, fun h => by rw [hinsert] at h; cases h.1⟩
    · rename_i hinsert
      constructor
      · intro h
        cases h
        exact ⟨Bool.eq_false_of_not_eq_true hinsert, hreturning, hall, rfl, rfl⟩
      · rintro ⟨-, -, -, rfl, rfl⟩
        rfl

/-- A key is reported as missing just if a modification that can be written, and is no insert, reads members
back although there are no keys or one of them has no constant. The first such key is named. -/
theorem compile_missingKeyValue_iff {table member : String} :
    compile config m = .error (.missingKeyValue table member) ↔
      ∃ set name ws, targetSet m.target = .ok set ∧ targetName set = .ok name ∧ statementWords name m = .ok ws ∧
        m.isInsert = false ∧ m.returning ≠ [] ∧
        (set.keyMembers = [] ∨ ∃ key ∈ set.keyMembers, lastBinding? key.1 m.bindings = none) ∧ table = set.storeName ∧
        member = ((set.keyMembers.map Prod.fst).find? fun k => (lastBinding? k m.bindings).isNone).getD "<key>" := by
  have hfiled : ∀ {name ws}, statementWords name m = .ok ws → (Numbered.ofWords config ws).Filed config m.bindings :=
    fun hws => filed_ofWords config (binds_statementWords hws)
  unfold compile
  constructor
  · intro h
    obtain ⟨set, hset, h⟩ := (needsNoKey_targetSet m.target).bind_eq.1 h
    obtain ⟨name, hname, h⟩ := (needsNoKey_targetName set).bind_eq.1 h
    obtain ⟨ws, hws, h⟩ := (needsNoKey_statementWords name m).bind_eq.1 h
    exact ⟨set, name, ws, hset, hname, hws, (readBack_missingKeyValue_iff (hfiled hws)).1 (map_eq_error.1 h)⟩
  · rintro ⟨set, name, ws, hset, hname, hws, h⟩
    rw [(needsNoKey_targetSet m.target).bind_eq]
    refine ⟨set, hset, (needsNoKey_targetName set).bind_eq.2 ⟨name, hname, ?_⟩⟩
    exact (needsNoKey_statementWords name m).bind_eq.2
      ⟨ws, hws, map_eq_error.2 ((readBack_missingKeyValue_iff (hfiled hws)).2 h)⟩

end RelSql.Modification
