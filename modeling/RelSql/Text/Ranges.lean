/-
Sets of characters as tables of closed ranges of code points, in ascending order and apart.
-/
namespace RelSql

/-- Closed ranges of code points. -/
abbrev Ranges := List (Nat × Nat)

namespace Ranges

/-- Ranges that are given by their first code points and how many follow each of these. -/
def ofCounts (counts : List (Nat × Nat)) : Ranges := counts.map fun c => (c.1, c.1 + c.2)

/-- Every range starts behind the one before it. -/
def ascending : Ranges → Bool
  | [] => true
  | [(lo, hi)] => lo ≤ hi
  | (lo, hi) :: (lo', hi') :: rest => lo ≤ hi && hi < lo' && ascending ((lo', hi') :: rest)

/-- The code point lies in one of the ranges. The search ends at the first range beyond it. -/
def has (n : Nat) : Ranges → Bool
  | [] => false
  | (lo, hi) :: rest => lo ≤ n && (n ≤ hi || has n rest)

/-- In an ascending table all later ranges lie beyond the first. -/
theorem lt_of_ascending {lo hi : Nat} {rest : Ranges} (h : ascending ((lo, hi) :: rest) = true) :
    lo ≤ hi ∧ ascending rest = true ∧ ∀ r ∈ rest, hi < r.1 := by
  induction rest generalizing lo hi with
  | nil => simpa [ascending] using h
  | cons r rest ih =>
    obtain ⟨lo', hi'⟩ := r
    simp only [ascending, Bool.and_eq_true, decide_eq_true_eq] at h
    obtain ⟨⟨hle, hlt⟩, hrest⟩ := h
    obtain ⟨hle', _, hall⟩ := ih hrest
    refine ⟨hle, hrest, fun r hr => ?_⟩
    rcases List.mem_cons.1 hr with rfl | hr
    · exact hlt
    · have := hall r hr
      omega

/-- Ending the search early loses nothing. -/
theorem has_iff {n : Nat} {rs : Ranges} (h : ascending rs = true) :
    has n rs = true ↔ ∃ r ∈ rs, r.1 ≤ n ∧ n ≤ r.2 := by
  induction rs with
  | nil => simp [has]
  | cons r rest ih =>
    obtain ⟨lo, hi⟩ := r
    obtain ⟨hle, hrest, hall⟩ := lt_of_ascending h
    simp only [has, Bool.and_eq_true, Bool.or_eq_true, decide_eq_true_eq, ih hrest,
      List.mem_cons]
    constructor
    · rintro ⟨hlo, hhi | ⟨r, hr, hr'⟩⟩
      · exact ⟨_, .inl rfl, hlo, hhi⟩
      · exact ⟨r, .inr hr, hr'⟩
    · rintro ⟨r, rfl | hr, h1, h2⟩
      · exact ⟨h1, .inl h2⟩
      · have := hall r hr
        exact ⟨by omega, .inr ⟨r, hr, h1, h2⟩⟩

end Ranges

end RelSql
