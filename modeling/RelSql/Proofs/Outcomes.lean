/-
Outcomes of computations that may fail, one by one and over a list. A list is computed just if each of its
entries is.
-/
import Mathlib.Data.List.Forall2

namespace RelSql

open List

variable {ε α β γ : Type}

theorem ok_of_toOption {x : Except ε α} {a : α} (h : x.toOption = some a) : x = .ok a := by
  cases x with
  | error e => cases h
  | ok b => exact congrArg Except.ok (Option.some.inj h)

theorem bind_eq_ok {x : Except ε α} {g : α → Except ε β} {b : β} :
    x >>= g = .ok b ↔ ∃ a, x = .ok a ∧ g a = .ok b := by
  cases x with
  | error e => exact ⟨nofun, fun ⟨_, h, _⟩ => by cases h⟩
  | ok a => exact ⟨fun h => ⟨a, rfl, h⟩, fun ⟨_, ha, h⟩ => by cases ha; exact h⟩

theorem map_eq_error {x : Except ε α} {f : α → β} {e : ε} :
    (x >>= fun a => pure (f a)) = .error e ↔ x = .error e := by
  cases x with
  | error e' => exact ⟨fun h => by cases h; rfl, fun h => by cases h; rfl⟩
  | ok a => exact ⟨nofun, nofun⟩

theorem mapM_map_comm {g : β → γ} {h : α → Except ε β} {h' : α → Except ε γ}
    (hh : ∀ a, h' a = g <$> h a) (as : List α) : as.mapM h' = map g <$> as.mapM h := by
  induction as with
  | nil => rfl
  | cons a as ih => simp [mapM_cons, hh, ih]

theorem mapM_eq_ok_iff {g : α → Except ε β} {as : List α} {bs : List β} :
    as.mapM g = .ok bs ↔ Forall₂ (fun a b => g a = .ok b) as bs := by
  induction as generalizing bs with
  | nil =>
    rw [forall₂_nil_left_iff]
    exact ⟨fun h => by cases h; rfl, fun h => by cases h; rfl⟩
  | cons a as ih =>
    simp only [mapM_cons, bind_eq_ok, forall₂_cons_left_iff, ih]
    refine exists_congr fun b => ⟨?_, ?_⟩
    · rintro ⟨hb, more, hm, h⟩
      cases h
      exact ⟨more, hb, hm, rfl⟩
    · rintro ⟨more, hb, hm, rfl⟩
      exact ⟨hb, more, hm, rfl⟩

theorem forall₂_of_mapM {g : α → Except ε β} {f : α → γ} {R : β → γ → Prop}
    (hg : ∀ a b, g a = .ok b → R b (f a)) {as : List α} {bs : List β} (h : as.mapM g = .ok bs) :
    Forall₂ R bs (as.map f) := by
  rw [forall₂_map_right_iff]
  exact ((mapM_eq_ok_iff.1 h).imp hg).flip

theorem map_of_mapM {g : α → Except ε β} {f : α → γ} {f' : β → γ} (hg : ∀ a b, g a = .ok b → f' b = f a)
    {as : List α} {bs : List β} (h : as.mapM g = .ok bs) : bs.map f' = as.map f := by
  rw [← forall₂_eq_eq_eq, forall₂_map_left_iff]
  exact forall₂_of_mapM hg h

theorem exists_of_forall_mapM {g : α → Except ε β} {R : α → β → Prop} {as : List α}
    (h : ∀ a ∈ as, ∃ b, g a = .ok b ∧ R a b) : ∃ bs, as.mapM g = .ok bs ∧ Forall₂ R as bs := by
  induction as with
  | nil => exact ⟨[], rfl, .nil⟩
  | cons a as ih =>
    obtain ⟨⟨b, hb, hR⟩, hrest⟩ := forall_mem_cons.1 h
    obtain ⟨bs, hbs, hall⟩ := ih hrest
    exact ⟨b :: bs, by rw [mapM_cons, hb, hbs]; rfl, .cons hR hall⟩

end RelSql
