/-
A registry in use: names are noted and drawn in any order. What is in use stays in use, so a name
that is drawn is none of those before it, and no later draw gives it again.
-/
import RelSql.Proofs.Naming.Fresh

namespace RelSql.Registry

open Ident List

/-- A name is noted, or a fresh one is drawn for a base. -/
inductive Call where
  | note (name : String)
  | draw (base : String)

/-- The name that a call puts in use, and the registry with it. -/
def call (r : Registry) : Call → String × Registry
  | .note name => (name, r.register name)
  | .draw base => r.fresh base

/-- The registry after some calls. -/
def after (r : Registry) (calls : List Call) : Registry := calls.foldl (fun r c => (r.call c).2) r

/-- The calls, each with the name that it puts in use. -/
def uses (r : Registry) : List Call → List (Call × String)
  | [] => []
  | c :: rest => (c, (r.call c).1) :: uses (r.call c).2 rest

variable {r : Registry} {name other : String}

/-! ## One call -/

theorem contains_name_call (c : Call) : (r.call c).2.contains (r.call c).1 = true := by
  cases c with
  | note name =>
    change (r.register name).contains name = true
    unfold register
    split
    · assumption
    · simp [contains_set, same_refl]
  | draw base => simp [call, contains_snd_fresh, same_refl]

theorem contains_call (c : Call) (h : r.contains name = true) : (r.call c).2.contains name = true := by
  cases c with
  | note other =>
    change (r.register other).contains name = true
    unfold register
    split
    · exact h
    · simp [contains_set, h]
  | draw base => simp [call, contains_snd_fresh, h]

/-! ## Many calls -/

theorem contains_after (calls : List Call) (h : r.contains name = true) :
    (r.after calls).contains name = true := by
  induction calls generalizing r with
  | nil => exact h
  | cons c rest ih => exact ih (contains_call c h)

theorem contains_of_mem_uses {calls : List Call} {u : Call × String} (h : u ∈ r.uses calls) :
    (r.after calls).contains u.2 = true := by
  induction calls generalizing r with
  | nil => cases h
  | cons c rest ih =>
    rcases mem_cons.1 h with rfl | h
    · exact contains_after rest (contains_name_call c)
    · exact ih h

/-- What is in use is not drawn. -/
theorem draw_ne_of_contains {calls : List Call} {base : String} (hd : (.draw base, name) ∈ r.uses calls)
    (h : r.contains other = true) : same other name = false := by
  induction calls generalizing r with
  | nil => cases hd
  | cons c rest ih =>
    rcases mem_cons.1 hd with heq | hd
    · obtain ⟨rfl, rfl⟩ := Prod.mk.inj heq
      refine Bool.eq_false_iff.2 fun hs => ?_
      have hused := contains_of_same hs h
      rw [show (r.call (.draw base)).1 = (r.fresh base).1 from rfl, contains_fresh] at hused
      cases hused
    · exact ih hd (contains_call c h)

/-- A name that is drawn is its base with a positive number. At most as many candidates as there are
names in use were passed over, all of them in use. Every name put in use before is still in use
and is another one, and every later draw gives another one. -/
theorem drawn_name_never_again (before later : List Call) (base : String) :
    let r := ({} : Registry).after before
    let candidate k := numbered base ((r.lastNumber? base).getD 0 + k + 1)
    (∃ passed ≤ r.size, (r.fresh base).1 = candidate passed ∧
      (∀ k < passed, r.contains (candidate k) = true) ∧ r.contains (candidate passed) = false) ∧
    (∀ u ∈ ({} : Registry).uses before, r.contains u.2 = true ∧ same (r.fresh base).1 u.2 = false) ∧
    ∀ base' name, (.draw base', name) ∈ (r.fresh base).2.uses later → same (r.fresh base).1 name = false := by
  intro r candidate
  have hfree : r.contains (r.fresh base).1 = false := r.contains_fresh base
  refine ⟨?_, fun u hu => ?_, fun base' name hd => ?_⟩
  · obtain ⟨passed, hle, heq, hbefore, -⟩ := r.firstFree_spec base r.size ((r.lastNumber? base).getD 0)
    simp only [Nat.add_right_comm _ 1] at heq hbefore
    have hname : (r.fresh base).1 = candidate passed := congrArg (numbered base) heq
    exact ⟨passed, hle, hname, hbefore, hname ▸ hfree⟩
  · have hused : r.contains u.2 = true := contains_of_mem_uses hu
    refine ⟨hused, Bool.eq_false_iff.2 fun hs => ?_⟩
    rw [contains_of_same (same_symm hs) hused] at hfree
    cases hfree
  · exact draw_ne_of_contains hd (contains_name_call (.draw base))

end RelSql.Registry
