/-
The case of variables. A variable is found under every spelling of its name, and the keys of a
disjunction are compared whatever their case. So queries that differ only in how they spell references
to variables compile to the same text, or fail alike.
-/
import RelSql.Proofs.Query.Scoping
import RelSql.Proofs.Query.TextTemplate

namespace RelSql

open Ident

namespace Ident

theorem key_key (name : String) : key (key name) = key name := by
  have hchar : ∀ c : Char, c.toLower.toLower = c.toLower := by
    intro c
    by_cases h : c.val ≥ 'A'.val ∧ c.val ≤ 'Z'.val
    · have hlower : c.toLower.val = c.val + ('a'.val - 'A'.val) := congrArg Char.val (dif_pos h)
      have hno : ¬ (c.toLower.val ≥ 'A'.val ∧ c.toLower.val ≤ 'Z'.val) := by
        rw [hlower]; grind
      exact dif_neg hno
    · rw [show c.toLower = c from dif_neg h, show c.toLower = c from dif_neg h]
  unfold key
  rw [String.map_map]
  exact congrArg (String.map · name) (funext hchar)

end Ident

/-- Variables are in lower case, and strings as they are. -/
def Wording.lower : Wording := { Wording.plain with name := key, key_name := key_key }

/-- The expression with every reference to a variable in lower case. -/
def Expr.foldCase (e : Expr) : Expr := e.reword .lower

/-- The errors are the same, or one variable is unbound under two spellings of its name. -/
def Error.Alike (e e' : Error) : Prop :=
  e' = e ∨ ∃ n n', same n n' = true ∧ e = .badArgument (.unboundVariable n) ∧ e' = .badArgument (.unboundVariable n')

theorem Error.alike_of_reword {e e' : Error} (h : e.reword .lower = e'.reword .lower) : e.Alike e' := by
  have hother : ∀ {e : Error}, (∀ n, e ≠ .badArgument (.unboundVariable n)) → e.reword .lower = e := by
    intro e he
    cases e with
    | badArgument cause => cases cause <;> first | rfl | exact (he _ rfl).elim
    | _ => rfl
  by_cases he : ∃ n, e = .badArgument (.unboundVariable n)
  · obtain ⟨n, rfl⟩ := he
    by_cases he' : ∃ n', e' = .badArgument (.unboundVariable n')
    · obtain ⟨n', rfl⟩ := he'
      injection h with h
      injection h with h
      exact .inr ⟨n, n', same_iff.2 h, rfl, rfl⟩
    · rw [hother fun n' hn => he' ⟨n', hn⟩] at h
      exact (he' ⟨_, h.symm⟩).elim
  · rw [hother fun n hn => he ⟨n, hn⟩] at h
    by_cases he' : ∃ n', e' = .badArgument (.unboundVariable n')
    · obtain ⟨n', rfl⟩ := he'
      exact (he ⟨_, h⟩).elim
    · rw [hother fun n' hn => he' ⟨n', hn⟩] at h
      exact .inl h.symm

/-- In lower case a query compiles to the same text, or fails with the same error in lower case. -/
theorem Query.compile_foldCase (config : Config) (query : Expr) :
    compile config query.foldCase = (compile config query).mapError (Error.reword .lower) :=
  (compile_reword rfl config query).resolve_right fun h => h.1 rfl

/-- Queries that differ only in the case of references to variables compile to the same text and columns, or fail
alike. -/
theorem compile_of_foldCase_eq (config : Config) {query query' : Expr} (h : query.foldCase = query'.foldCase) :
    (∀ compiled, Query.compile config query = .ok compiled ↔ Query.compile config query' = .ok compiled) ∧
      ∀ e, Query.compile config query = .error e → ∃ e', Query.compile config query' = .error e' ∧ e.Alike e' := by
  have hfold : (Query.compile config query).mapError (Error.reword .lower) =
      (Query.compile config query').mapError (Error.reword .lower) := by
    rw [← Query.compile_foldCase, ← Query.compile_foldCase, h]
  cases hq : Query.compile config query with
  | ok c =>
    cases hq' : Query.compile config query' with
    | ok c' =>
      rw [hq, hq'] at hfold
      injection hfold with hfold
      exact ⟨fun compiled => by rw [hfold], nofun⟩
    | error e' => rw [hq, hq'] at hfold; cases hfold
  | error e =>
    cases hq' : Query.compile config query' with
    | ok c' => rw [hq, hq'] at hfold; cases hfold
    | error e' =>
      rw [hq, hq'] at hfold
      injection hfold with hfold
      exact ⟨fun compiled => by simp, fun _ he => by cases he; exact ⟨e', rfl, Error.alike_of_reword hfold⟩⟩

/-- The rows of a table whose key is one of two values, with the variable in two spellings. -/
def oneOrTwo (first second : String) : Expr :=
  let keyIs (var : String) (n : Int32) : Expr :=
    .compare .eq (.property (.var var (keyed "t").rowType) "k") (.constant (.int32 n))
  .filter ((keyed "t").bind "Row") (.or (keyIs first 1) (keyIs second 2))

theorem oneOrTwo_foldCase {first second first' second' : String} (h : key first = key first')
    (h' : key second = key second') : (oneOrTwo first second).foldCase = (oneOrTwo first' second').foldCase :=
  congrArg₂ oneOrTwo h h'

/-- The two spellings are one variable and one key; another name is unbound in every spelling. -/
theorem oneOrTwo_spellings :
    Query.compile {} (oneOrTwo "row" "ROW") = .ok ⟨"SELECT Row.k AS k FROM t AS Row WHERE Row.k IN (1,2)", ["k"]⟩ ∧
      ∃ e e', Query.compile {} (oneOrTwo "line" "line") = .error e ∧
        Query.compile {} (oneOrTwo "LINE" "Line") = .error e' ∧ e.Alike e' := by
  have hkeys : Ident.key "row" = Ident.key "ROW" ∧ Ident.key "line" = Ident.key "LINE" ∧
      Ident.key "line" = Ident.key "Line" := by simp [Ident.key, ← String.toList_inj]
  have hrow : (oneOrTwo "row" "row").foldCase = (oneOrTwo "row" "ROW").foldCase := oneOrTwo_foldCase rfl hkeys.1
  have hline : (oneOrTwo "line" "line").foldCase = (oneOrTwo "LINE" "Line").foldCase :=
    oneOrTwo_foldCase hkeys.2.1 hkeys.2.2
  have hcompile : Query.compile {} (oneOrTwo "row" "row") =
      .ok ⟨"SELECT Row.k AS k FROM t AS Row WHERE Row.k IN (1,2)", ["k"]⟩ := ok_of_toOption (by decide +kernel)
  refine ⟨((compile_of_foldCase_eq {} hrow).1 _).1 hcompile, ?_⟩
  have hnone : (Query.compile {} (oneOrTwo "line" "line")).toOption = none := by decide +kernel
  cases hfail : Query.compile {} (oneOrTwo "line" "line") with
  | ok c => rw [hfail] at hnone; cases hnone
  | error e =>
    obtain ⟨e', he', halike⟩ := (compile_of_foldCase_eq {} hline).2 e hfail
    exact ⟨e, e', rfl, he', halike⟩

end RelSql
