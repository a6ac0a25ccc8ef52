/-
The statements and names of a query under construction, and what single changes make of them.
-/
import RelSql.Query.State
import RelSql.Proofs.Statement.References

namespace RelSql

/-- The statements and names of a query under construction. -/
structure Store where
  statements : Statements
  names : Names

namespace Store

variable {σ : Store}

def symbols (σ : Store) : Symbols := σ.names.symbols

def get (σ : Store) (k : StatementId) : Statement := σ.statements.get k

def size (σ : Store) : Nat := σ.statements.size

theorem get_of_size_le {k : StatementId} (h : σ.size ≤ k) : σ.get k = {} := by
  unfold get Statements.get
  rw [Array.getD_eq_getD_getElem?, Array.getElem?_eq_none h]; rfl

theorem lt_of_mem_aliases {k : StatementId} {e : SymbolId} (h : e ∈ (σ.get k).aliases) : k < σ.size := by
  by_contra hk
  rw [get_of_size_le (not_lt.1 hk)] at h
  cases h

def withNames (σ : Store) (names : Names) : Store := ⟨σ.statements, names⟩

def push (σ : Store) (s : Statement) : Store := ⟨σ.statements.push s, σ.names⟩

def modify (σ : Store) (i : StatementId) (f : Statement → Statement) : Store :=
  ⟨σ.statements.modify i f, σ.names⟩

theorem get_push (σ : Store) (s : Statement) (k : StatementId) :
    (σ.push s).get k = if k = σ.size then s else σ.get k := by
  unfold get push Statements.get size
  rw [Array.getD_eq_getD_getElem?, Array.getD_eq_getD_getElem?, Array.getElem?_push]
  by_cases hk : k = σ.statements.size
  · simp [hk]
  · simp [hk]

theorem get_push_of_lt {k : StatementId} (h : k < σ.size) (s : Statement) : (σ.push s).get k = σ.get k := by
  rw [get_push, if_neg (Nat.ne_of_lt h)]

@[simp] theorem get_push_size (σ : Store) (s : Statement) : (σ.push s).get σ.size = s := by
  rw [get_push, if_pos rfl]

@[simp] theorem size_push (σ : Store) (s : Statement) : (σ.push s).size = σ.size + 1 := by
  simp [size, push]

@[simp] theorem size_modify (σ : Store) (i : StatementId) (f : Statement → Statement) :
    (σ.modify i f).size = σ.size := by
  simp [size, modify]

theorem get_modify (σ : Store) (i k : StatementId) (f : Statement → Statement) :
    (σ.modify i f).get k = if i = k ∧ k < σ.size then f (σ.get k) else σ.get k := by
  unfold get modify Statements.get
  rw [Array.getD_eq_getD_getElem?, Array.getD_eq_getD_getElem?, Array.getElem?_modify]
  by_cases hik : i = k
  · by_cases hk : k < σ.size
    · simp only [size] at hk
      simp [hik, hk, size]
    · simp only [size] at hk
      simp [hik, hk, size]
  · simp [hik]

theorem get_modify_self {i : StatementId} (h : i < σ.size) (f : Statement → Statement) :
    (σ.modify i f).get i = f (σ.get i) := by
  rw [get_modify, if_pos ⟨rfl, h⟩]

theorem get_modify_of_ne {i k : StatementId} (h : k ≠ i) (f : Statement → Statement) :
    (σ.modify i f).get k = σ.get k := by
  rw [get_modify, if_neg fun hk => h hk.1.symm]

theorem modify_modify (σ : Store) (i : StatementId) (f g : Statement → Statement) :
    (σ.modify i f).modify i g = σ.modify i (g ∘ f) := by
  unfold modify
  congr 1
  refine Array.ext (by simp) fun k hk _ => ?_
  simp only [Array.getElem_modify]
  by_cases h : i = k
  · simp [h]
  · simp [h]

end Store

end RelSql
