/-
The names of the parameters of a command. A declared name is written behind the configured mark unless
it has the mark already, so a command has two parameters of one name just if a name is declared both
with the mark and without it. The parameters made up for the constants of a modification never share a
name, whatever the mark.
-/
import RelSql.Command.Basic
import RelSql.Proofs.Modification.Bindings

namespace RelSql

open List

variable {name : String} {p : Parameter}

/-! ## Declared names -/

namespace Config

variable {config : Config}

/-- The name has the mark of a parameter already. -/
def marks (config : Config) (name : String) : Prop := config.parameterPrefix.toList <+: name.toList

theorem parameterName_of_marks (h : config.marks name) :
    config.parameterName name = name :=
  if_pos ( isPrefixOf_iff_prefix.2 h)

theorem parameterName_of_not_marks (h : ¬ config.marks name) :
    config.parameterName name = config.parameterPrefix ++ name :=
  if_neg fun hp => h ( isPrefixOf_iff_prefix.1 hp)

/-- No name stands among the names both without the mark and with it. -/
def Separates (config : Config) (names : List String) : Prop :=
  ∀ name ∈ names, ¬ config.marks name → config.parameterPrefix ++ name ∉ names

/-- Names that are not told apart by the mark alone stay different behind it. -/
theorem separates_iff {names : List String} :
    config.Separates names ↔ ∀ x ∈ names, ∀ y ∈ names, config.parameterName x = config.parameterName y → x = y := by
  constructor
  · intro h x hx y hy heq
    by_cases hmx : config.marks x <;> by_cases hmy : config.marks y
    · rwa [parameterName_of_marks hmx, parameterName_of_marks hmy] at heq
    · rw [parameterName_of_marks hmx, parameterName_of_not_marks hmy] at heq
      exact absurd (heq ▸ hx) (h y hy hmy)
    · rw [parameterName_of_not_marks hmx, parameterName_of_marks hmy] at heq
      exact absurd (heq ▸ hy) (h x hx hmx)
    · rw [parameterName_of_not_marks hmx, parameterName_of_not_marks hmy] at heq
      exact String.append_right_inj _ |>.1 heq
  · intro h name hname hno hmarked
    have hmarks : config.marks (config.parameterPrefix ++ name) := by
      unfold marks
      rw [String.toList_append]
      exact prefix_append _ _
    have heq := h name hname _ hmarked
      ((parameterName_of_not_marks hno).trans (parameterName_of_marks hmarks).symm)
    exact hno (heq ▸ hmarks)

end Config

/-- Declaring a parameter adds its name, or leaves the names as they are. -/
theorem Declared.names_declare (name : String) (type : DataType) : ∀ declared : Declared,
    (declared.declare name type).map Prod.fst =
      if name ∈ declared.map Prod.fst then declared.map Prod.fst else declared.map Prod.fst ++ [name]
  | [] => rfl
  | (n, t) :: rest => by
    unfold declare
    split
    · rename_i h
      simp [h]
    · rename_i h
      rw [map_cons, names_declare name type rest]
      have hmem : name ∈ ((n, t) :: rest).map Prod.fst ↔ name ∈ rest.map Prod.fst := by
        rw [map_cons, mem_cons, or_iff_right (Ne.symm h)]
      split
      · rename_i hr
        rw [if_pos (hmem.2 hr)]; rfl
      · rename_i hr
        rw [if_neg fun hr' => hr (hmem.1 hr')]; rfl

namespace CommandTree

def declaredNames (tree : CommandTree) : List String := (tree.parameters?.getD []).map Prod.fst

/-- The tree declares each name once, as it does if its parameters were declared one by one. -/
def DeclaresOnce (tree : CommandTree) : Prop := tree.declaredNames.Nodup

theorem DeclaresOnce.declare {tree : CommandTree} (h : tree.DeclaresOnce) (name : String) (type : DataType) :
    (tree.declare name type).DeclaresOnce := by
  have hnames : ∀ declared : Declared, (declared.map Prod.fst).Nodup →
      ((declared.declare name type).map Prod.fst).Nodup := by
    intro declared hd
    rw [Declared.names_declare]
    split
    · exact hd
    · rename_i hno
      rw [← concat_eq_append]
      exact hd.concat hno
  cases tree with
  | query q parameters | function f text parameters => exact hnames parameters h
  | modification m => exact h

end CommandTree

/-! ## Parameters of a command -/

namespace Parameter

theorem name_of_ofType {type : DataType} {mode : ParameterMode} (h : ofType name type mode = .ok p) :
    p.name = name := by
  unfold ofType at h
  cases hvalid : isValidName name with
  | false => rw [hvalid] at h; cases h
  | true =>
    rw [hvalid] at h
    cases type with
    | primitive kind facets => cases h; rfl
    | _ => cases h

theorem name_of_ofRecord {record : ParameterRecord} (h : ofRecord record = .ok p) :
    p.name = record.name := by
  obtain ⟨q, hq, h⟩ := bind_eq_ok.1 h
  cases h
  exact (name_of_ofType hq :)

end Parameter

namespace CommandTree

variable {config : Config} {tree : CommandTree} {command : Command}

theorem name_of_declaredParameter {function? : Option Function} {declared : String × DataType}
    (h : declaredParameter config function? declared = .ok p) : p.name = config.parameterName declared.1 := by
  unfold declaredParameter at h
  split at h <;> exact Parameter.name_of_ofType h

/-- A command has the parameters that its tree declares, or those made up for a modification. -/
theorem command_names (h : tree.command config = .ok command) :
    command.parameters.map Parameter.name = tree.declaredNames.map config.parameterName ∨
      tree.declaredNames = [] ∧ (command.parameters.map Parameter.name).Nodup := by
  simp only [CommandTree.command, bind_eq_ok] at h
  obtain ⟨generated, hgenerated, declared, hdeclared, made, hmade, h⟩ := h
  cases h
  have hnames : declared.map Parameter.name = tree.declaredNames.map config.parameterName := by
    rw [declaredNames, map_map]
    exact map_of_mapM (fun _ _ hp => name_of_declaredParameter hp) hdeclared
  have hrecords : made.map Parameter.name = generated.parameters.map ParameterRecord.name :=
    map_of_mapM (fun _ _ hp => Parameter.name_of_ofRecord hp) hmade
  rw [map_append, hnames, hrecords]
  cases tree with
  | query q parameters =>
    obtain ⟨compiled, -, h⟩ := bind_eq_ok.1 hgenerated
    cases h
    exact Or.inl (append_nil _)
  | function f text parameters =>
    cases text <;> cases hgenerated <;> exact Or.inl (append_nil _)
  | modification m =>
    obtain ⟨compiled, hcompiled, h⟩ := bind_eq_ok.1 hgenerated
    cases h
    exact Or.inr ⟨rfl, Modification.parameters_nodup hcompiled⟩

/-- The parameters of a command have different names just if its tree declares no name both with the mark
of a parameter and without it. -/
theorem command_parameters_distinct_iff (hd : tree.DeclaresOnce) (h : tree.command config = .ok command) :
    (command.parameters.map Parameter.name).Nodup ↔ config.Separates tree.declaredNames := by
  rcases command_names h with hnames | ⟨hnone, hmade⟩
  · rw [hnames, List.nodup_map_iff_inj_on hd, Config.separates_iff]
  · rw [hnone]
    exact iff_of_true hmade (by rintro name hname; cases hname)

theorem exists_of_names (names : List String)
    (h : (tree.command config).toOption.map (fun c => c.parameters.map Parameter.name) = some names) :
    ∃ command, tree.command config = .ok command ∧ command.parameters.map Parameter.name = names := by
  cases hc : tree.command config with
  | error e => rw [hc] at h; cases h
  | ok command =>
    rw [hc] at h
    exact ⟨command, rfl, Option.some.inj h⟩

/-- A query for a parameter, which declares one name without the mark and one with it. -/
def declaring (name marked : String) : CommandTree :=
  ((query (.parameter name (.scalar .int32)) []).declare name (.scalar .int32)).declare marked (.scalar .int32)

theorem declaresOnce_declaring (name marked : String) : (declaring name marked).DeclaresOnce := by
  have h : (query (.parameter name (.scalar .int32)) []).DeclaresOnce := nodup_nil
  exact (h.declare _ _).declare _ _

/-- Different names stay different behind the mark. -/
theorem declaring_distinct :
    (declaring "a" "@b").DeclaresOnce ∧ ∃ command, (declaring "a" "@b").command {} = .ok command ∧
      command.parameters.map Parameter.name = ["@a", "@b"] ∧
      ((command.parameters.map Parameter.name).Nodup ↔ Config.Separates {} (declaring "a" "@b").declaredNames) := by
  have hd := declaresOnce_declaring "a" "@b"
  obtain ⟨command, h, hnames⟩ := exists_of_names ["@a", "@b"]
    (show ((declaring "a" "@b").command {}).toOption.map _ = _ by decide +kernel)
  exact ⟨hd, command, h, hnames, command_parameters_distinct_iff hd h⟩

/-- One name, declared with the mark and without it, gives two parameters of that name. -/
theorem declaring_twice :
    (declaring "a" "@a").DeclaresOnce ∧ ∃ command, (declaring "a" "@a").command {} = .ok command ∧
      command.parameters.map Parameter.name = ["@a", "@a"] ∧ ¬ (command.parameters.map Parameter.name).Nodup := by
  obtain ⟨command, h, hnames⟩ := exists_of_names ["@a", "@a"]
    (show ((declaring "a" "@a").command {}).toOption.map _ = _ by decide +kernel)
  refine ⟨declaresOnce_declaring "a" "@a", command, h, hnames, ?_⟩
  rw [hnames]
  decide

end CommandTree

end RelSql
