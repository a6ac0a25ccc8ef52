/-
Parts that stand on one line. A part without breaks and without statements, all of whose names are
settled, is written without changing any name, and laid out it is the same text in every place, behind
whatever was written before.
-/
import RelSql.Proofs.Statement.Settle

namespace RelSql

open RelSql.Part

namespace Part

variable (ν : Names)

mutual

/-- The text of a part that has no breaks and no statements in it, and whose names are settled. -/
def flat? : Part → Option String
  | text s => some s
  | symbol i =>
    if (ν.symbols.get i).needsRenaming && !(ν.symbols.get i).isRenamed then none
    else some (ν.symbols.get i).currentName
  | group ps => flats? ps
  | line | statement _ => none

def flats? : List Part → Option String
  | [] => some ""
  | p :: rest => do
    let first ← flat? p
    let more ← flats? rest
    return first ++ more

end

variable {ν}

theorem flats?_singleton {p : Part} {s : String} (h : flat? ν p = some s) : flats? ν [p] = some s := by
  simp [flats?, h]

theorem flats?_text (s : String) : flats? ν [text s] = some s := flats?_singleton rfl

theorem flats?_group (ps : List Part) : flats? ν [group ps] = flats? ν ps := by
  cases h : flats? ν ps <;> simp [flats?, flat?, h]

theorem flats?_append {ps qs : List Part} {s t : String} (hs : flats? ν ps = some s) (ht : flats? ν qs = some t) :
    flats? ν (ps ++ qs) = some (s ++ t) := by
  induction ps generalizing s with
  | nil => cases hs; simpa using ht
  | cons p ps ih =>
    simp only [flats?, Option.bind_eq_bind, Option.bind_eq_some_iff, Option.pure_def, Option.some.injEq] at hs
    obtain ⟨first, hfirst, more, hmore, rfl⟩ := hs
    simp [flats?, hfirst, ih hmore, String.append_assoc]

end Part

namespace Layout

/-- The layout with text behind it on the same line. -/
def behind (l : Layout) (s : String) : Layout := { l with reversed := s.toList.reverse ++ l.reversed }

theorem text_behind (l : Layout) (s : String) : (l.behind s).text = l.text ++ s := by
  simp [text, behind]

theorem behind_append (l : Layout) (s t : String) : l.behind (s ++ t) = (l.behind s).behind t := by
  simp [behind]

theorem write_eq_behind {l : Layout} (h : l.atLineStart = false) (s : String) : l.write s = l.behind s := by
  unfold write behind
  split
  · rename_i hs
    rw [String.isEmpty_iff.1 hs]
    rfl
  · rw [h]
    obtain ⟨pretty, reversed, indent, atLineStart⟩ := l
    cases h
    rfl

/-- The pieces are this text, wherever they stand on a line. -/
def Flat (pieces : List Piece) (s : String) : Prop :=
  ∀ l : Layout, l.atLineStart = false → pieces.foldl put l = l.behind s

theorem Flat.append {ps qs : List Piece} {s t : String} (hs : Flat ps s) (ht : Flat qs t) : Flat (ps ++ qs) (s ++ t) := by
  intro l hl
  rw [List.foldl_append, hs l hl, ht (l.behind s) hl, behind_append]

end Layout

namespace Render

open Layout

variable {nested : StatementId → Render (List Piece)} {ν : Names}

mutual

theorem part_flat {p : Part} {s : String} (h : flat? ν p = some s) :
    ∃ pieces, Runs (part nested p) ν pieces ν ∧ Flat pieces s := by
  cases p with
  | text t =>
    cases h
    exact ⟨[.text s], runs_pure.2 ⟨rfl, rfl⟩, fun l hl => write_eq_behind hl s⟩
  | symbol i =>
    unfold flat? at h
    split at h
    · cases h
    · rename_i hsettled
      cases h
      refine ⟨[.name i (ν.symbols.get i).currentName], ?_, fun l hl => write_eq_behind hl _⟩
      simp only [part, symbol, runs_bind, runs_get, runs_ite, and_assoc, exists_and_left, exists_eq_left]
      exact Or.inr ⟨hsettled, runs_pure.2 ⟨rfl, rfl⟩⟩
  | group ps =>
    have h : flats? ν ps = some s := h
    exact parts_flat h
  | line => cases h
  | statement i => cases h

theorem parts_flat {ps : List Part} {s : String} (h : flats? ν ps = some s) :
    ∃ pieces, Runs (parts nested ps) ν pieces ν ∧ Flat pieces s := by
  match ps with
  | [] =>
    cases h
    exact ⟨[], runs_pure.2 ⟨rfl, rfl⟩, fun l _ => rfl⟩
  | p :: rest =>
    simp only [flats?, Option.bind_eq_bind, Option.bind_eq_some_iff, Option.pure_def, Option.some.injEq] at h
    obtain ⟨first, hfirst, more, hmore, rfl⟩ := h
    obtain ⟨pieces, hrun, hflat⟩ := part_flat hfirst
    obtain ⟨pieces', hrun', hflat'⟩ := parts_flat hmore
    refine ⟨pieces ++ pieces', ?_, hflat.append hflat'⟩
    simp only [parts, runs_bind, runs_pure]
    exact ⟨pieces, ν, hrun, pieces', ν, hrun', rfl, rfl⟩

end

end Render

end RelSql
