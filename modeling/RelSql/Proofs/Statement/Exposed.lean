/-
Columns of subselects and the places that read them. A text reads a column where a symbol is followed
by a dot and the column. An alias stands for a subselect if the source in parentheses before it is a
statement, or a set operation, which counts as its left side.
-/
import RelSql.Proofs.Statement.Items
import RelSql.Proofs.Build.Steps

namespace RelSql

open RelSql.Part FromItem List

/-! ## Reading columns -/

namespace Part

/-- The text reads the column `c` of the extent `x`. -/
def Reads (ps : List Part) (x : SymbolId) (c : Part) : Prop := [.symbol x, .text ".", c] <:+: atoms ps

/-- The text reads only columns with the property, and breaks off behind no dot. -/
structure ReadsOnly (p : SymbolId → Part → Prop) (ps : List Part) : Prop where
  columns : ∀ x c, Reads ps x c → p x c
  done : ∀ x, ¬ [.symbol x, .text "."] <:+ atoms ps

section

variable {p q : SymbolId → Part → Prop} {ps qs : List Part}

theorem ReadsOnly.mono (h : ReadsOnly p ps) (hpq : ∀ x c, p x c → q x c) : ReadsOnly q ps :=
  ⟨fun x c hc => hpq x c (h.columns x c hc), h.done⟩

theorem ReadsOnly.of_atoms (h : ReadsOnly p ps) (he : atoms qs = atoms ps) : ReadsOnly p qs := by
  obtain ⟨hc, hd⟩ := h
  unfold Reads at hc
  rw [← he] at hc hd
  exact ⟨hc, hd⟩

/-- A text of at most one atom reads nothing. -/
theorem readsOnly_of_length (h : (atoms ps).length ≤ 1) : ReadsOnly p ps := by
  refine ⟨fun x c hc => ?_, fun x hx => ?_⟩
  · have := List.IsInfix.length_le hc
    simp only [length_cons, length_nil] at this; omega
  · have := List.IsSuffix.length_le hx
    simp only [length_cons, length_nil] at this; omega

@[simp] theorem readsOnly_nil : ReadsOnly p [] := readsOnly_of_length (by simp)

theorem readsOnly_symbol (x : SymbolId) : ReadsOnly p [.symbol x] := readsOnly_of_length (by simp)

/-- Two atoms at the end of a text that is put together. -/
theorem pair_suffix_append {a b : Part} {as bs : List Part} (h : [a, b] <:+ as ++ bs) :
    [a, b] <:+ bs ∨ bs = [b] ∧ [a] <:+ as ∨ bs = [] ∧ [a, b] <:+ as := by
  obtain ⟨pre, h⟩ := h
  rcases append_eq_append_iff.1 h with ⟨mid, rfl, heq⟩ | ⟨mid, -, rfl⟩
  · match mid, heq with
    | [], heq => exact Or.inl (by rw [heq]; exact suffix_refl _)
    | [_], heq => cases heq; exact Or.inr (Or.inl ⟨rfl, suffix_append _ _⟩)
    | [_, _], heq => cases heq; exact Or.inr (Or.inr ⟨rfl, suffix_append _ _⟩)
    | _ :: _ :: _ :: _, heq => simp at heq
  · exact Or.inl (suffix_append _ _)

/-- Two texts one behind the other read what they read alone, unless the first ends in a symbol and
the second starts with a dot. -/
theorem ReadsOnly.append (h : ReadsOnly p ps) (h' : ReadsOnly p qs)
    (hmeet : ∀ x, [.symbol x] <:+ atoms ps → ¬ [.text "."] <+: atoms qs) : ReadsOnly p (ps ++ qs) := by
  refine ⟨fun x c hc => ?_, fun x hx => ?_⟩
  · rw [Reads, atoms_append, infix_append_iff] at hc
    rcases hc with hc | hc | ⟨l1, l2, heq, hl1, hl2⟩
    · exact h.columns x c hc
    · exact h'.columns x c hc
    · -- where the two texts meet inside the three atoms
      match l1, heq with
      | [], heq => cases heq; exact h'.columns x c hl2.isInfix
      | [_], heq =>
        cases heq
        exact absurd (List.IsPrefix.trans ⟨[c], rfl⟩ hl2) (hmeet x hl1)
      | [_, _], heq => cases heq; exact absurd hl1 (h.done x)
      | [_, _, _], heq => cases heq; exact h.columns x c hl1.isInfix
      | _ :: _ :: _ :: _ :: _, heq => simp at heq
  · rw [atoms_append] at hx
    rcases pair_suffix_append hx with hx | ⟨hq, hx⟩ | ⟨-, hx⟩
    · exact h'.done x hx
    · exact hmeet x hx (by rw [hq])
    · exact h.done x hx

/-- A part that starts with no symbol changes nothing in front of a text. -/
theorem readsOnly_cons {r : Part} (hr : atomsOf r = [r]) (hs : ∀ x, r ≠ .symbol x) :
    ReadsOnly p (r :: ps) ↔ ReadsOnly p ps := by
  constructor
  · intro h
    have hatoms : atoms (r :: ps) = r :: atoms ps := by rw [atoms_cons, hr]; rfl
    refine ⟨fun x c hc => h.columns x c ?_, fun x hx => h.done x ?_⟩
    · rw [Reads, hatoms]; exact infix_cons_iff.2 (Or.inr hc)
    · rw [hatoms]; exact suffix_cons_iff.2 (Or.inr hx)
  · intro h
    have hone : atoms [r] = [r] := by rw [atoms_cons, hr, atoms_nil, append_nil]
    have hhead : ReadsOnly p [r] := readsOnly_of_length (by rw [hone]; simp)
    refine hhead.append h fun x hx => ?_
    rw [hone] at hx
    exact absurd (cons.inj (hx.eq_of_length rfl)).1.symm (hs x)

@[simp] theorem readsOnly_text {t : String} : ReadsOnly p (.text t :: ps) ↔ ReadsOnly p ps :=
  readsOnly_cons (by simp) nofun

@[simp] theorem readsOnly_line : ReadsOnly p (.line :: ps) ↔ ReadsOnly p ps := readsOnly_cons (by simp) nofun

@[simp] theorem readsOnly_statement {i : StatementId} : ReadsOnly p (.statement i :: ps) ↔ ReadsOnly p ps :=
  readsOnly_cons (by simp) nofun

theorem readsOnly_group : ReadsOnly p (.group ps :: qs) ↔ ReadsOnly p (ps ++ qs) :=
  ⟨fun h => h.of_atoms (by simp), fun h => h.of_atoms (by simp)⟩

/-- What follows starts with a text that is no dot. -/
theorem ReadsOnly.append_text {t : String} (h : ReadsOnly p ps) (h' : ReadsOnly p qs) (ht : t ≠ ".") :
    ReadsOnly p (ps ++ .text t :: qs) := by
  refine h.append (readsOnly_text.2 h') fun _ _ hq => ?_
  rw [atoms_cons, atomsOf_text, singleton_append, cons_prefix_cons] at hq
  exact ht (by cases hq.1; rfl)

theorem ReadsOnly.append_line (h : ReadsOnly p ps) (h' : ReadsOnly p qs) : ReadsOnly p (ps ++ .line :: qs) := by
  refine h.append (readsOnly_line.2 h') fun _ _ hq => ?_
  rw [atoms_cons, atomsOf_line, singleton_append, cons_prefix_cons] at hq
  cases hq.1

/-- A part before a text that is no dot. -/
theorem ReadsOnly.cons_text {r : Part} {t : String} (h : ReadsOnly p [r]) (h' : ReadsOnly p ps) (ht : t ≠ ".") :
    ReadsOnly p (r :: .text t :: ps) :=
  ReadsOnly.append_text h h' ht

/-- What ends with a text ends with no symbol. -/
theorem not_suffix_symbol (ps : List Part) (t : String) (x : SymbolId) : ¬ [.symbol x] <:+ atoms (ps ++ [.text t]) := by
  intro hx
  rw [atoms_append, atoms_cons, atomsOf_text, atoms_nil, append_nil] at hx
  rcases suffix_concat_iff.1 hx with hx | ⟨init, hx, -⟩
  · cases hx
  · cases init with
    | nil => cases hx
    | cons a as => simp at hx

/-- What stands before ends with a text. -/
theorem ReadsOnly.append_after {t : String} (h : ReadsOnly p (ps ++ [.text t])) (h' : ReadsOnly p qs) :
    ReadsOnly p (ps ++ [.text t] ++ qs) :=
  h.append h' fun x hx => absurd hx (not_suffix_symbol ps t x)

/-- Items between a text that is no dot. -/
theorem readsOnly_separated {separator : String} {items : List (List Part)} (hs : separator ≠ ".")
    (h : ∀ item ∈ items, ReadsOnly p item) : ReadsOnly p ([.text separator].intercalate items) := by
  induction items with
  | nil => simp [intercalate]
  | cons item items ih =>
    have hitem := h item mem_cons_self
    cases items with
    | nil => simpa [intercalate] using hitem
    | cons next items =>
      rw [intercalate_cons_cons, append_assoc]
      exact hitem.append_text (ih fun i hi => h i (mem_cons_of_mem _ hi)) hs

/-- A column of an extent. -/
theorem readsOnly_column {x : SymbolId} {c : Part} (hc : atomsOf c = [c]) (h : p x c) :
    ReadsOnly p [.symbol x, .text ".", c] := by
  have hatoms : atoms [.symbol x, .text ".", c] = [.symbol x, .text ".", c] := by simp [hc]
  refine ⟨fun y d hd => ?_, fun y hy => ?_⟩
  · rw [Reads, hatoms] at hd
    cases List.IsInfix.eq_of_length hd rfl
    exact h
  · rw [hatoms] at hy
    obtain ⟨pre, hy⟩ := hy
    match pre, hy with
    | [_], hy => cases hy
    | [], hy => simp at hy
    | _ :: _ :: _, hy =>
      have := congrArg length hy
      simp at this

/-- A member of what stands before, which reads a column if that ends in a symbol. -/
theorem ReadsOnly.member {r : Part} {n : String} (h : ReadsOnly p [r])
    (hx : ∀ x, [.symbol x] <:+ atomsOf r → p x (.text n)) : ReadsOnly p [r, .text ".", .text n] := by
  have hatoms : atoms [r, .text ".", .text n] = atoms [r] ++ [.text ".", .text n] := by simp
  have hr : atoms [r] = atomsOf r := by simp
  refine ⟨fun x c hc => ?_, fun x hx => ?_⟩
  · rw [Reads, hatoms, infix_append_iff] at hc
    rcases hc with hc | hc | ⟨l1, l2, heq, hl1, hl2⟩
    · exact h.columns x c hc
    · simpa using List.IsInfix.length_le hc
    -- across the border a reference has just its extent before it, for none is left open there
    · match l1, heq with
      | [], heq => cases heq; simpa using List.IsPrefix.length_le hl2
      | [_], heq =>
        cases heq
        cases hl2.eq_of_length rfl
        exact hx x (by rw [← hr]; exact hl1)
      | [_, _], heq => cases heq; exact absurd hl1 (h.done x)
      | [_, _, _], heq => cases heq; exact h.columns x c hl1.isInfix
      | _ :: _ :: _ :: _ :: _, heq => simp at heq
  · rw [hatoms] at hx
    rcases pair_suffix_append hx with hx | ⟨hx, -⟩ | ⟨hx, -⟩
    · cases hx.eq_of_length rfl
    · cases hx
    · cases hx

end

end Part

/-! ## Subselects in a `FROM` list -/

/-- The statement whose columns a source in parentheses has: the source itself, or its left side, in
parentheses of its own or not. -/
def Part.subselect? (p : Part) : Option StatementId :=
  match atomsOf p with
  | .statement i :: _ => some i
  | .text "SELECT * FROM (" :: .statement i :: _ => some i
  | .text "(" :: .statement i :: _ => some i
  | _ => none

/-- A source that starts with a text is no subselect, unless the text opens one. -/
theorem Part.subselect?_text {t : String} {ps : List Part}
    (h : t = "SELECT * FROM (" ∨ t = "(" → ∀ i rest, atoms ps ≠ .statement i :: rest) :
    (group (.text t :: ps)).subselect? = none := by
  have hatoms : atomsOf (.group (.text t :: ps)) = .text t :: atoms ps := by simp
  unfold subselect?
  rw [hatoms]
  split
  · rename_i heq; cases heq
  · rename_i i rest heq
    obtain ⟨ht, hps⟩ := cons.inj heq
    exact absurd hps (h (Or.inl (text.inj ht)) i rest)
  · rename_i i rest heq
    obtain ⟨ht, hps⟩ := cons.inj heq
    exact absurd hps (h (Or.inr (text.inj ht)) i rest)
  · rfl

namespace Statement

variable {s t : Statement} {p : Part} {i : StatementId} {x y : SymbolId}

/-- The extent is the alias of the source `p`, which stands in parentheses. -/
def Names (s : Statement) (p : Part) (x : SymbolId) : Prop := [FromItem.enclosed p, .named x] <:+: s.fromItems

/-- The `FROM` list ends with the source `p` in parentheses, which has no alias yet. -/
def EndsWith (s : Statement) (p : Part) : Prop := [FromItem.enclosed p] <:+ s.fromItems

theorem Names.alias (h : s.Names p x) : x ∈ s.aliases :=
  mem_filterMap.2 ⟨.named x, h.subset (by simp), rfl⟩

/-- More text adds items behind. -/
theorem fromItems_append (s : Statement) (new : List Part) :
    s.fromItems <+: ({ s with fromList := s.fromList ++ new } : Statement).fromItems := by
  unfold fromItems
  rw [readAll_append]
  exact prefix_append _ _

/-- Only the last item may be the source that an alias follows. -/
theorem endsWith_concat {items : List FromItem} {item : FromItem} (h : s.fromItems = items ++ [item])
    (hp : s.EndsWith p) : item = .enclosed p := by
  unfold EndsWith at hp
  rw [h] at hp
  exact (singleton_inj.1 ((suffix_of_suffix_length_le hp (suffix_append items [item])
    (le_refl 1)).eq_of_length rfl)).symm

theorem names_withExtent : (s.withExtent x).Names p y ↔ s.Names p y ∨ y = x ∧ s.EndsWith p := by
  unfold Names EndsWith
  rw [fromItems_withExtent]
  constructor
  · intro h
    rcases infix_concat_iff.1 h with h | h
    · rcases suffix_concat_iff.1 h with h | ⟨init, heq, hend⟩
      · cases h
      · match init, heq with
        | [_], heq => cases heq; exact Or.inr ⟨rfl, hend⟩
        | [], heq => simp at heq
        | _ :: _ :: _, heq => simp at heq
    · exact Or.inl h
  · rintro (h | ⟨rfl, pre, h⟩)
    · exact infix_concat_iff.2 (Or.inr h)
    · exact infix_concat_iff.2 (Or.inl ⟨pre, by rw [← h, append_assoc]; rfl⟩)

/-- An alias keeps its source while the `FROM` list grows. -/
theorem Names.of_prefix (h : t.Names p x) (hp : s.fromItems <+: t.fromItems) (hn : t.aliases.Nodup)
    (hx : x ∈ s.aliases) : s.Names p x := by
  obtain ⟨pre, post, h⟩ := h
  obtain ⟨more, hp⟩ := hp
  -- the alias stands in the old part, and nowhere else
  have hnot : named x ∉ more := by
    intro hm
    have hal : t.aliases = s.aliases ++ more.filterMap named? := by
      unfold aliases; rw [← hp, filterMap_append]
    rw [hal, nodup_append] at hn
    exact hn.2.2 x hx x (mem_filterMap.2 ⟨_, hm, rfl⟩) rfl
  rw [← hp, append_assoc] at h
  rcases append_eq_append_iff.1 h with ⟨mid, hs, hmid⟩ | ⟨mid, -, hmid⟩
  · match mid, hmid with
    | [], hmid => exact absurd (by rw [← nil_append more, ← hmid]; simp) hnot
    | [_], hmid =>
      rw [singleton_append, cons_append, cons_append] at hmid
      exact absurd (by rw [← (cons.inj hmid).2]; simp) hnot
    | _ :: _ :: mid, hmid =>
      simp only [cons_append, nil_append, cons.injEq] at hmid
      obtain ⟨rfl, rfl, -⟩ := hmid
      exact ⟨pre, mid, by rw [hs]; simp⟩
  · exact absurd (by rw [hmid]; simp) hnot

/-- The extent is the alias of the subselect `i`. -/
def Wraps (s : Statement) (i : StatementId) (x : SymbolId) : Prop :=
  ∃ p : Part, p.subselect? = some i ∧ [FromItem.enclosed p, .named x] <:+: s.fromItems

/-- The `FROM` list ends with the subselect `i`, which has no alias yet. -/
def Pending (s : Statement) (i : StatementId) : Prop :=
  ∃ p : Part, p.subselect? = some i ∧ [FromItem.enclosed p] <:+ s.fromItems

theorem Wraps.alias (h : s.Wraps i x) : x ∈ s.aliases := by
  obtain ⟨p, -, h⟩ := h
  exact Names.alias h

theorem wraps_withExtent : (s.withExtent x).Wraps i y ↔ s.Wraps i y ∨ y = x ∧ s.Pending i := by
  constructor
  · rintro ⟨p, hp, h⟩
    rcases names_withExtent.1 h with hold | ⟨rfl, hend⟩
    · exact Or.inl ⟨p, hp, hold⟩
    · exact Or.inr ⟨rfl, p, hp, hend⟩
  · rintro (⟨p, hp, h⟩ | ⟨rfl, p, hp, h⟩)
    · exact ⟨p, hp, names_withExtent.2 (Or.inl h)⟩
    · exact ⟨p, hp, names_withExtent.2 (Or.inr ⟨rfl, h⟩)⟩

theorem Wraps.of_prefix (h : t.Wraps i x) (hp : s.fromItems <+: t.fromItems) (hn : t.aliases.Nodup)
    (hx : x ∈ s.aliases) : s.Wraps i x := by
  obtain ⟨p, hsub, h⟩ := h
  exact ⟨p, hsub, Names.of_prefix h hp hn hx⟩

/-- The clauses of a statement, each by itself. -/
def clauses (s : Statement) : List (List Part) :=
  [s.selectList, s.fromList, s.condition, s.grouping, s.ordering, s.top.getD [], s.skip.getD []]

theorem forall_mem_clauses {p : List Part → Prop} : (∀ ps ∈ s.clauses, p ps) ↔ p s.selectList ∧ p s.fromList ∧
    p s.condition ∧ p s.grouping ∧ p s.ordering ∧ p (s.top.getD []) ∧ p (s.skip.getD []) := by
  simp [clauses]

end Statement

end RelSql
