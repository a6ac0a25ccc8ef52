/-
Store types read back. The type that a store type gives is of the kind that the store type was made
for, and has that very store type again, but for binary types of a fixed length: coming back
from the store, every binary type is of varying length.
-/
import RelSql.Data.StoreType
import Mathlib.Tactic

namespace RelSql.StoreType

variable {kind : Kind} {facets : Facets} {st : StoreType}

theorem characterFacets?_characterName (unicode fixed : Bool) :
    characterFacets? (Ident.key (characterName unicode fixed)) =
      some { unicode := some unicode, fixedLength := some fixed } := by
  cases unicode <;> cases fixed <;> decide +kernel

theorem toType_character (unicode fixed : Bool) (facets : Facets) :
    toType ⟨characterName unicode fixed, facets⟩ =
      .ok (.primitive .string
        { unicode := some unicode, fixedLength := some fixed, maxLength := facets.maxLength }) := by
  have hname : plainKind? (Ident.key (characterName unicode fixed)) = none ∧
      Ident.key (characterName unicode fixed) ≠ "decimal" ∧ Ident.key (characterName unicode fixed) ≠ "blob" := by
    cases unicode <;> cases fixed <;> decide +kernel
  simp [toType, hname, characterFacets?_characterName]

theorem toType_decimal (p s : Nat) :
    toType ⟨"decimal", { precision := some p, scale := some s }⟩ =
      .ok (.primitive .decimal { precision := some p, scale := some s }) := by
  have hkey : Ident.key "decimal" = "decimal" := by decide +kernel
  simp [toType, hkey, plainKind?, decimalFacets]

theorem toType_blob (facets : Facets) :
    toType ⟨"blob", facets⟩ =
      .ok (.primitive .binary { fixedLength := some false, maxLength := facets.maxLength }) := by
  have hkey : Ident.key "blob" = "blob" := by decide +kernel
  simp [toType, hkey, plainKind?]

theorem toType_plain {name : String} (h : plainKind? (Ident.key name) = some kind) :
    toType ⟨name, facets⟩ = .ok (.scalar kind) := by
  simp [toType, h]

theorem ofType_eq_ok_iff : ofType (.primitive kind facets) = .ok st ↔ ofKind? facets kind = some st := by
  unfold ofType
  cases hk : ofKind? facets kind <;> simp [hk]

/-- A store type is read back as a type of the same kind, which has the same store type if and only if it
is no binary type of a fixed length. -/
theorem toType_restores_iff (h : ofType (.primitive kind facets) = .ok st) :
    ∃ restored, st.toType = .ok (.primitive kind restored) ∧
      (ofType (.primitive kind restored) = .ok st ↔ ¬ (kind = .binary ∧ facets.isFixedLength = true)) := by
  rw [ofType_eq_ok_iff] at h
  simp only [ofType_eq_ok_iff]
  cases kind with
  | string =>
    cases h
    exact ⟨_, toType_character .., by simp [ofKind?, Facets.isUnicode, Facets.isFixedLength]⟩
  | decimal =>
    cases h
    exact ⟨_, toType_decimal .., by simp [ofKind?, Facets.precisionOrDefault, Facets.scaleOrZero]⟩
  | binary =>
    cases h
    exact ⟨_, toType_blob _, by simp [ofKind?, Facets.isFixedLength]⟩
  | sbyte | dateTimeOffset | time => cases h
  | boolean | byte | dateTime | double | single | guid | int16 | int32 | int64 =>
    cases h
    exact ⟨{}, toType_plain (by decide +kernel), by simp [ofKind?]⟩

theorem fixed_text_restored :
    ∃ restored, toType ⟨"char", { unicode := some false, fixedLength := some true, maxLength := some 8 }⟩ =
        .ok (.primitive .string restored) ∧
      (ofType (.primitive .string restored) =
          .ok ⟨"char", { unicode := some false, fixedLength := some true, maxLength := some 8 }⟩ ↔
        ¬ (Kind.string = .binary ∧
          Facets.isFixedLength { unicode := some false, fixedLength := some true, maxLength := some 8 } = true)) :=
  toType_restores_iff rfl

/-- The fixed length of a binary type is lost on the way back. -/
theorem fixed_binary_not_restored :
    ∃ st restored, ofType (.primitive .binary { fixedLength := some true }) = .ok st ∧
      st.toType = .ok (.primitive .binary restored) ∧ ofType (.primitive .binary restored) ≠ .ok st :=
  ⟨_, _, rfl, toType_blob _, by simp [ofType, ofKind?, Facets.isFixedLength]⟩

end RelSql.StoreType
