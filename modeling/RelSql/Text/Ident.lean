/-
Names as the store compares them: two spellings are one name when they differ only in the case
of ASCII letters. Every table keyed by names files a name under `Ident.key`.
-/
namespace RelSql.Ident

/-- The spelling under which a name is filed: ASCII letters in lower case, all else as it is. -/
def key (name : String) : String := name.map Char.toLower

/-- The two spellings name one thing. -/
def same (a b : String) : Bool := key a == key b

theorem same_iff {a b : String} : same a b = true ↔ key a = key b := by
  simp [same]

theorem same_refl (a : String) : same a a = true := same_iff.2 rfl

theorem same_symm {a b : String} (h : same a b = true) : same b a = true :=
  same_iff.2 (same_iff.1 h).symm

theorem same_trans {a b c : String} (hab : same a b = true) (hbc : same b c = true) :
    same a c = true :=
  same_iff.2 ((same_iff.1 hab).trans (same_iff.1 hbc))

end RelSql.Ident
