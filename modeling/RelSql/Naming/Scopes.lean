/-
Nested scopes of variables. A name is looked up from the innermost scope outwards, whatever its
case.
-/
import RelSql.Text.Ident

namespace RelSql

/-- The open scopes, the innermost first; in a scope a later binding hides an earlier one. -/
structure Scopes (α : Type) where
  frames : List (List (String × α)) := []
deriving Repr, DecidableEq, Inhabited

namespace Scopes

variable {α : Type}

def enter (s : Scopes α) : Scopes α := ⟨[] :: s.frames⟩

def leave (s : Scopes α) : Scopes α := ⟨s.frames.drop 1⟩

/-- Binds a name in the innermost scope, which is opened if there is none. -/
def add (s : Scopes α) (name : String) (value : α) : Scopes α :=
  match s.frames with
  | [] => ⟨[[(Ident.key name, value)]]⟩
  | frame :: rest => ⟨((Ident.key name, value) :: frame) :: rest⟩

def lookup? (s : Scopes α) (name : String) : Option α :=
  s.frames.findSome? fun frame => frame.lookup (Ident.key name)

def depth (s : Scopes α) : Nat := s.frames.length

/-- A binding is seen under every spelling of its name, and hides no other name. -/
theorem lookup?_add (s : Scopes α) (name other : String) (value : α) :
    (s.add name value).lookup? other =
      if Ident.key other = Ident.key name then some value else s.lookup? other := by
  obtain ⟨frames⟩ := s
  by_cases h : Ident.key other = Ident.key name
  · cases frames <;> simp [add, lookup?, h]
  · cases frames <;>
      simp [add, lookup?, List.findSome?_cons, List.lookup_cons, h, beq_false_of_ne h]

@[simp] theorem leave_enter (s : Scopes α) : s.enter.leave = s := rfl

@[simp] theorem leave_add_enter (s : Scopes α) (name : String) (value : α) :
    (s.enter.add name value).leave = s := rfl

end Scopes

end RelSql
