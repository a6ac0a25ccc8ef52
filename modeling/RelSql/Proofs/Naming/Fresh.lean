/-
A fresh name is fresh: the registry does not have it before, in any spelling, and has it
afterwards. Of the candidates of one base no two are one name, so a registry of `n` names cannot
have `n + 1` of them.
-/
import RelSql.Naming.Registry
import Mathlib.Tactic

namespace RelSql

open Digits Ident List

theorem Ident.same_comm (a b : String) : same a b = same b a := by
  rw [Bool.eq_iff_iff, same_iff, same_iff]; exact eq_comm

/-! ## Numbered names -/

namespace Digits

theorem toLower_of_isDigit {c : Char} (h : c.isDigit = true) : c.toLower = c := by
  unfold Char.isDigit at h
  simp only [ge_iff_le, Bool.and_eq_true, decide_eq_true_eq] at h
  exact dif_neg fun hu => absurd (UInt32.le_trans hu.1 h.2) (by decide)

theorem decimal_injective {m n : Nat} (h : decimal m = decimal n) : m = n := by
  have hm : Nat.ofDigitChars 10 (decimal m) 0 = m := Nat.ofDigitChars_toDigits (by decide) (by decide)
  have hn : Nat.ofDigitChars 10 (decimal n) 0 = n := Nat.ofDigitChars_toDigits (by decide) (by decide)
  rw [← hm, ← hn, h]

theorem map_toLower_decimal (n : Nat) : (decimal n).map Char.toLower = decimal n := by
  conv_rhs => rw [← map_id (decimal n)]
  exact map_congr_left fun c hc => toLower_of_isDigit (isDigit_decimal hc)

end Digits

namespace Registry

theorem toList_key_numbered (base : String) (n : Nat) :
    (key (numbered base n)).toList = (key base).toList ++ decimal n := by
  unfold key numbered ofNat
  rw [String.toList_map, String.toList_append, map_append, String.toList_map, String.toList_ofList,
    map_toLower_decimal]

/-- Two numbers behind one base give two names. -/
theorem key_numbered_injective (base : String) : Function.Injective fun n => key (numbered base n) := by
  intro m n h
  have hl := congrArg String.toList h
  simp only [toList_key_numbered] at hl
  exact decimal_injective (append_cancel_left hl)

/-! ## The search for a free number -/

theorem contains_iff {r : Registry} {name : String} :
    r.contains name = true ↔ key name ∈ r.entries.map Prod.fst := by
  unfold contains lastNumber?
  rw [lookup_isSome_iff, mem_map]
  simp only [beq_iff_eq]
  exact ⟨fun ⟨p, hp, h⟩ => ⟨p, hp, h.symm⟩, fun ⟨p, hp, h⟩ => ⟨p, hp, h.symm⟩⟩

/-- Names compared without case are registered together. -/
theorem contains_of_same {r : Registry} {a b : String} (h : same a b = true) (ha : r.contains a = true) :
    r.contains b = true := by
  unfold contains lastNumber? at ha ⊢
  rwa [← same_iff.1 h]

/-- The candidates before the number that is found are in use, and that one is not, unless the
search ran out of tries. -/
theorem firstFree_spec (r : Registry) (base : String) : ∀ tries last, ∃ skipped ≤ tries,
    r.firstFree base tries last = last + 1 + skipped ∧
      (∀ k < skipped, r.contains (numbered base (last + 1 + k)) = true) ∧
      (skipped < tries → r.contains (numbered base (last + 1 + skipped)) = false)
  | 0, last => ⟨0, le_refl _, rfl, nofun, nofun⟩
  | tries + 1, last => by
    unfold firstFree
    split
    · rename_i hused
      obtain ⟨skipped, hle, heq, hbefore, hfree⟩ := firstFree_spec r base tries (last + 1)
      refine ⟨skipped + 1, by omega, by rw [heq]; omega, fun k hk => ?_, fun hlt => ?_⟩
      · cases k with
        | zero => exact hused
        | succ k =>
          have := hbefore k (by omega)
          rwa [show last + 1 + 1 + k = last + 1 + (k + 1) by omega] at this
      · have := hfree (by omega)
        rwa [show last + 1 + 1 + skipped = last + 1 + (skipped + 1) by omega] at this
    · rename_i hfree
      exact ⟨0, Nat.zero_le _, rfl, nofun, fun _ => by simpa using hfree⟩

/-- A registry does not have as many candidates in a row as it has names, and one more. -/
theorem exists_unused (r : Registry) (base : String) (start : Nat) :
    ∃ k ≤ r.size, r.contains (numbered base (start + k)) = false := by
  by_contra hall
  push Not at hall
  have hnodup : ((range (r.size + 1)).map fun k => key (numbered base (start + k))).Nodup :=
    nodup_range.map fun m n h => Nat.add_left_cancel (key_numbered_injective base h)
  have hsub : ((range (r.size + 1)).map fun k => key (numbered base (start + k))) ⊆
      r.entries.map Prod.fst := by
    intro key hk
    obtain ⟨k, hmem, rfl⟩ := mem_map.1 hk
    have hle : k ≤ r.size := by have := mem_range.1 hmem; omega
    exact contains_iff.1 (by simpa using hall k hle)
  have hlen := (subperm_of_subset hnodup hsub).length_le
  simp only [length_map, length_range] at hlen
  exact absurd hlen (by unfold size; omega)

theorem contains_firstFree (r : Registry) (base : String) (last : Nat) :
    r.contains (numbered base (r.firstFree base r.size last)) = false := by
  obtain ⟨skipped, hle, heq, hbefore, hfree⟩ := r.firstFree_spec base r.size last
  rw [heq]
  rcases Nat.lt_or_eq_of_le hle with hlt | rfl
  · exact hfree hlt
  · -- all but the last candidate are in use, so that one is free
    obtain ⟨k, hk, hunused⟩ := r.exists_unused base (last + 1)
    rcases Nat.lt_or_eq_of_le hk with hlt | rfl
    · rw [hbefore k hlt] at hunused; cases hunused
    · exact hunused

/-! ## Fresh names -/

theorem contains_fresh (r : Registry) (base : String) : r.contains (r.fresh base).1 = false :=
  r.contains_firstFree base _

/-- The registry afterwards has the fresh name, its base and what it had. -/
theorem contains_snd_fresh (r : Registry) (base other : String) :
    (r.fresh base).2.contains other =
      (same other (r.fresh base).1 || same other base || r.contains other) := by
  unfold fresh
  dsimp only
  rw [contains_set, contains_set, Bool.or_assoc]

end Registry

end RelSql
