/-
The command of a modification. The names that number its constants are marked before they are checked.
A mark that is empty, `@` or a valid name itself leaves every such name valid, so the command is made
whenever the text is, with one input parameter for each constant.
-/
import RelSql.Proofs.Command.ParameterNames

namespace RelSql

open Digits List

/-! ## Valid names -/

namespace Parameter

variable {cs rest : List Char} {name : String}

theorem isNameChar_of_isDigit {c : Char} (h : c.isDigit = true) : isNameChar c = true := by
  simp [isNameChar, Char.isAlphanum, h]

theorem isIdentifier_append (h : isIdentifier cs = true) (hrest : ∀ c ∈ rest, isNameChar c = true) :
    isIdentifier (cs ++ rest) = true := by
  cases cs with
  | nil => cases h
  | cons c cs =>
    obtain ⟨hstart, hall⟩ := Bool.and_eq_true_iff.1 h
    have happend : (cs ++ rest).all isNameChar = true := by rw [all_append, hall, all_eq_true.2 hrest]; rfl
    exact Bool.and_eq_true_iff.2 ⟨hstart, happend⟩

/-- The mark `@` starts no identifier, so that a name has it in front of one or not at all. -/
theorem isValidName_iff : isValidName name = true ↔
    isIdentifier name.toList = true ∨ ∃ cs, name.toList = '@' :: cs ∧ isIdentifier cs = true := by
  unfold isValidName
  split
  · rename_i cs hcs
    rw [hcs]
    refine ⟨fun h => Or.inr ⟨cs, rfl, h⟩, ?_⟩
    rintro (h | ⟨cs', hcs', h⟩)
    · cases h
    · cases hcs'; exact h
  · rename_i hno
    refine ⟨Or.inl, ?_⟩
    rintro (h | ⟨cs, hcs, -⟩)
    · exact h
    · exact absurd hcs (hno cs)

end Parameter

namespace Config

open Parameter

variable {config : Config}

/-- A mark that leaves names valid. -/
def MarksValid (config : Config) : Prop :=
  config.parameterPrefix = "" ∨ config.parameterPrefix = "@" ∨ isValidName config.parameterPrefix = true

theorem isValidName_parameterName (h : config.MarksValid) (n : Nat) :
    isValidName (config.parameterName ("p" ++ ofNat n)) = true := by
  have htext : ("p" ++ ofNat n).toList = 'p' :: decimal n := by simp [ofNat]
  have hchars : ∀ c ∈ 'p' :: decimal n, isNameChar c = true :=
    forall_mem_cons.2 ⟨rfl, fun c hc => isNameChar_of_isDigit (isDigit_decimal hc)⟩
  have hname : isIdentifier ('p' :: decimal n) = true :=
    Bool.and_eq_true_iff.2 ⟨rfl, all_eq_true.2 (forall_mem_cons.1 hchars).2⟩
  by_cases hmarks : config.marks ("p" ++ ofNat n)
  · rw [parameterName_of_marks hmarks, isValidName_iff, htext]
    exact Or.inl hname
  · rw [parameterName_of_not_marks hmarks, isValidName_iff, String.toList_append, htext]
    rcases h with h | h | h
    · rw [h]
      exact Or.inl hname
    · rw [h]
      exact Or.inr ⟨_, rfl, hname⟩
    · rcases isValidName_iff.1 h with h | ⟨cs, hcs, hvalid⟩
      · exact Or.inl (isIdentifier_append h hchars)
      · exact Or.inr ⟨_, by rw [hcs]; rfl, isIdentifier_append hvalid hchars⟩

end Config

/-! ## Parameters of the constants -/

/-- The parameter passes the value of the record in. -/
structure Parameter.Passes (record : ParameterRecord) (p : Parameter) : Prop where
  name : p.name = record.name
  value : p.value = record.value
  direction : p.direction = .input
  nullable : p.nullable = true ↔ record.value = none

theorem Parameter.exists_ofRecord {record : ParameterRecord} (h : isValidName record.name = true) :
    ∃ p, ofRecord record = .ok p ∧ Passes record p := by
  unfold ofRecord ofType
  rw [h]
  exact ⟨_, rfl, rfl, rfl, rfl, Option.isNone_iff_eq_none⟩

/-- The command of generated text, with a parameter for each of its records. -/
structure Command.Carries (c : Command) (g : Generated) : Prop where
  text : c.text = g.text
  kind : c.kind = g.kind
  columns : c.columns = g.columns
  parameters : List.Forall₂ Parameter.Passes g.parameters c.parameters

namespace CommandTree

variable {config : Config} {m : Modification}

theorem exists_command {g : Generated} (hmark : config.MarksValid) (h : (modification m).generate config = .ok g) :
    ∃ c, (modification m).command config = .ok c ∧ c.Carries g := by
  obtain ⟨r, hr, hg⟩ := bind_eq_ok.1 h
  cases hg
  have hrecords : ∀ record ∈ r.parameters, ∃ p, Parameter.ofRecord record = .ok p ∧ Parameter.Passes record p := by
    intro record hrecord
    rw [Modification.parameters_of_compile hr] at hrecord
    obtain ⟨i, hi, rfl⟩ := mem_mapIdx.1 hrecord
    exact Parameter.exists_ofRecord (Config.isValidName_parameterName hmark i)
  obtain ⟨made, hmade, hpasses⟩ := exists_of_forall_mapM hrecords
  refine ⟨⟨r.text, .text, [], made⟩, ?_, rfl, rfl, rfl, hpasses⟩
  exact bind_eq_ok.2 ⟨_, h, bind_eq_ok.2 ⟨[], rfl, bind_eq_ok.2 ⟨made, hmade, rfl⟩⟩⟩

/-- Where the mark leaves names valid, a modification has a command just if it has a text. The command
has that text, and an input parameter for each constant in the order of the text, with the name and the
value of its record; only a parameter without a value is nullable. -/
theorem modification_command_iff (hmark : config.MarksValid) (m : Modification) :
    ((∃ c, (modification m).command config = .ok c) ↔ ∃ g, (modification m).generate config = .ok g) ∧
      ∀ c g, (modification m).command config = .ok c → (modification m).generate config = .ok g → c.Carries g := by
  refine ⟨⟨?_, ?_⟩, fun c g hc hg => ?_⟩
  · rintro ⟨c, hc⟩
    obtain ⟨g, hg, -⟩ := bind_eq_ok.1 hc
    exact ⟨g, hg⟩
  · rintro ⟨g, hg⟩
    obtain ⟨c, hc, -⟩ := exists_command hmark hg
    exact ⟨c, hc⟩
  · obtain ⟨c', hc', hcarries⟩ := exists_command hmark hg
    cases hc.symm.trans hc'
    exact hcarries

/-- A mark that is a name of its own, and that the second parameter has already. -/
theorem renameProcess_command :
    let tree := modification (.renameProcess (.string "svc") (.int64 4))
    let config : Config := { parameterPrefix := "p1" }
    config.MarksValid ∧ ∃ c g, tree.command config = .ok c ∧ tree.generate config = .ok g ∧ c.Carries g ∧
      g.parameters.map ParameterRecord.name = ["p1p0", "p1"] := by
  intro tree config
  have hmark : config.MarksValid := Or.inr (Or.inr (by decide))
  obtain ⟨hiff, hcarries⟩ := modification_command_iff hmark (.renameProcess (.string "svc") (.int64 4))
  have hnames : (tree.generate config).toOption.map (fun g => g.parameters.map ParameterRecord.name) =
      some ["p1p0", "p1"] := by decide +kernel
  cases hg : tree.generate config with
  | error e => rw [hg] at hnames; cases hnames
  | ok g =>
    rw [hg] at hnames
    obtain ⟨c, hc⟩ := hiff.2 ⟨g, hg⟩
    exact ⟨hmark, c, g, hc, rfl, hcarries c g hc hg, Option.some.inj hnames⟩

end CommandTree

end RelSql
