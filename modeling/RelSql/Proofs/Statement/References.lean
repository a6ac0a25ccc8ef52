/-
Where a statement refers to extents, and which statements stand around such a place. The `FROM`
list is read as aliases, conditions, sources in parentheses and other sources; a source in
parentheses does not see the aliases of the list that it stands in. A reference has a path: the
statements around it, the innermost first, each with the view that the place has of it.
-/
import RelSql.Statement.Basic
import RelSql.Proofs.Naming.Reach

namespace RelSql

open RelSql.Part Statement List

variable {p : Part} {ps qs : List Part} {statements : Statements} {e : SymbolId} {j : StatementId}

/-! ## Atoms -/

namespace Part

mutual

/-- The parts of a text with all groups opened. -/
def atoms : List Part → List Part
  | [] => []
  | p :: rest => atomsOf p ++ atoms rest

def atomsOf : Part → List Part
  | .text s => [.text s]
  | .line => [.line]
  | .symbol e => [.symbol e]
  | .statement j => [.statement j]
  | .group ps => atoms ps

end

@[simp] theorem atoms_nil : atoms [] = [] := by simp [atoms]

@[simp] theorem atoms_cons (p : Part) (ps : List Part) : atoms (p :: ps) = atomsOf p ++ atoms ps := by
  simp [atoms]

@[simp] theorem atomsOf_text (s : String) : atomsOf (.text s) = [.text s] := by simp [atomsOf]

@[simp] theorem atomsOf_line : atomsOf .line = [.line] := by simp [atomsOf]

@[simp] theorem atomsOf_symbol (e : SymbolId) : atomsOf (.symbol e) = [.symbol e] := by simp [atomsOf]

@[simp] theorem atomsOf_statement (j : StatementId) : atomsOf (.statement j) = [.statement j] := by
  simp [atomsOf]

@[simp] theorem atomsOf_group (ps : List Part) : atomsOf (.group ps) = atoms ps := by simp [atomsOf]

@[simp] theorem atoms_append (ps qs : List Part) : atoms (ps ++ qs) = atoms ps ++ atoms qs := by
  induction ps with
  | nil => rfl
  | cons p ps ih => simp [ih]

theorem mem_atoms_of_mem {q : Part} (hq : q ∈ ps) (hp : p ∈ atomsOf q) : p ∈ atoms ps := by
  induction ps with
  | nil => cases hq
  | cons r ps ih =>
    rw [atoms_cons]
    rcases mem_cons.1 hq with rfl | hq
    · exact mem_append_left _ hp
    · exact mem_append_right _ (ih hq)

theorem mem_atoms : p ∈ atoms ps ↔ ∃ q ∈ ps, p ∈ atomsOf q := by
  constructor
  · intro h
    induction ps with
    | nil => cases h
    | cons r ps ih =>
      rw [atoms_cons] at h
      rcases mem_append.1 h with h | h
      · exact ⟨r, mem_cons_self, h⟩
      · obtain ⟨q, hq, hp⟩ := ih h
        exact ⟨q, mem_cons_of_mem _ hq, hp⟩
  · rintro ⟨q, hq, hp⟩; exact mem_atoms_of_mem hq hp

end Part

/-! ## Reading a `FROM` list -/

/-- An item of a `FROM` list: an alias, a condition behind `ON`, a source in parentheses, or a
table or call without them. -/
inductive FromItem where
  | named (extent : SymbolId)
  | condition (condition : Part)
  | enclosed (source : Part)
  | plain (source : Part)

namespace FromItem

/-- A source or condition behind the text `last`. -/
def readSource (last : String) (p : Part) : FromItem :=
  if last = " ON " then condition p else if last = "(" then enclosed p else plain p

/-- A part read behind the text `last`. -/
def read (last : String) : Part → FromItem
  | .symbol e => if last = " AS " then named e else readSource last (.symbol e)
  | p => readSource last p

/-- The items of a list of parts that stands behind the text `last`. -/
def readAll : String → List Part → List FromItem
  | _, [] => []
  | _, .text t :: rest => readAll t rest
  | _, .line :: rest => readAll "" rest
  | last, p :: rest => read last p :: readAll "" rest

/-- The text that directly precedes what follows the parts. -/
def lastText : String → List Part → String
  | last, [] => last
  | _, .text t :: rest => lastText t rest
  | _, _ :: rest => lastText "" rest

def named? : FromItem → Option SymbolId
  | named e => some e
  | _ => none

def enclosed? : FromItem → Option Part
  | enclosed p => some p
  | _ => none

def plain? : FromItem → Option Part
  | plain p => some p
  | _ => none

def condition? : FromItem → Option Part
  | condition p => some p
  | _ => none

theorem readAll_append (ps qs : List Part) :
    ∀ last, readAll last (ps ++ qs) = readAll last ps ++ readAll (lastText last ps) qs := by
  induction ps with
  | nil => intro last; simp [readAll, lastText]
  | cons p ps ih => intro last; cases p <;> simp [readAll, lastText, ih]

theorem lastText_append_text {t : String} :
    ∀ {last}, lastText last (ps ++ [.text t]) = t := by
  induction ps with
  | nil => intro last; rfl
  | cons p ps ih => intro last; cases p <;> exact ih

/-- A text starts a new item, whatever stands before it. -/
theorem readAll_append_text (last : String) (ps : List Part) (t : String) (qs : List Part) :
    readAll last (ps ++ .text t :: qs) = readAll last ps ++ readAll t qs := by
  rw [readAll_append, readAll]

/-- The atoms of what an item stands for. -/
def atoms : FromItem → List Part
  | named e => [.symbol e]
  | condition p => atomsOf p
  | enclosed p => atomsOf p
  | plain p => atomsOf p

theorem atoms_readSource (last : String) (p : Part) : (readSource last p).atoms = atomsOf p := by
  unfold readSource
  split
  · rfl
  · split <;> rfl

theorem atoms_read (last : String) (p : Part) : (read last p).atoms = atomsOf p := by
  cases p with
  | symbol e =>
    simp only [read]
    split
    · simp [atoms]
    · exact atoms_readSource _ _
  | text t | line | group ps | statement j => exact atoms_readSource _ _

/-- Every atom of a list that is more than text belongs to an item. -/
theorem exists_item (ht : ∀ t, p ≠ .text t) (hl : p ≠ .line) (ps : List Part) :
    ∀ last, p ∈ Part.atoms ps → ∃ item ∈ readAll last ps, p ∈ item.atoms := by
  induction ps with
  | nil => intro last h; cases h
  | cons q ps ih =>
    intro last h
    rw [Part.atoms_cons, mem_append] at h
    by_cases hq : (∃ t, q = .text t) ∨ q = .line
    · have hp : p ∉ Part.atomsOf q := by
        rcases hq with ⟨t, rfl⟩ | rfl
        · simpa using ht t
        · simpa using hl
      rcases hq with ⟨t, rfl⟩ | rfl
      · exact ih t (h.resolve_left hp)
      · exact ih "" (h.resolve_left hp)
    · have hr : readAll last (q :: ps) = read last q :: readAll "" ps := by
        cases q with
        | text t => exact absurd (Or.inl ⟨t, rfl⟩) hq
        | line => exact absurd (Or.inr rfl) hq
        | symbol e => rfl
        | group ps => rfl
        | statement j => rfl
      rw [hr]
      rcases h with h | h
      · exact ⟨read last q, mem_cons_self, by rw [atoms_read]; exact h⟩
      · obtain ⟨item, hi, hp⟩ := ih "" h
        exact ⟨item, mem_cons_of_mem _ hi, hp⟩

/-- An item has only atoms of the list. -/
theorem atoms_subset {item : FromItem} (ps : List Part) :
    ∀ last, item ∈ readAll last ps → ∀ p ∈ item.atoms, p ∈ Part.atoms ps := by
  induction ps with
  | nil => intro last h; cases h
  | cons q ps ih =>
    intro last h p hp
    rw [Part.atoms_cons, mem_append]
    cases q with
    | text t => exact Or.inr (ih t h p hp)
    | line => exact Or.inr (ih "" h p hp)
    | symbol e | group qs | statement j =>
      rcases mem_cons.1 h with rfl | h
      · exact Or.inl (by rwa [atoms_read] at hp)
      · exact Or.inr (ih "" h p hp)

end FromItem

/-! ## The clauses of a statement -/

namespace Statement

/-- All parts of a statement. -/
def parts (s : Statement) : List Part :=
  s.selectList ++ s.fromList ++ s.condition ++ s.grouping ++ s.ordering ++ s.top.getD [] ++ s.skip.getD []

def fromItems (s : Statement) : List FromItem := FromItem.readAll "" s.fromList

/-- The extents whose aliases the text of the `FROM` list declares. -/
def aliases (s : Statement) : List SymbolId := s.fromItems.filterMap FromItem.named?

/-- The sources in parentheses: what stands in them does not see the aliases of the list. -/
def enclosed (s : Statement) : List Part := s.fromItems.filterMap FromItem.enclosed?

/-- The tables and calls in the `FROM` list. -/
def sources (s : Statement) : List Part := s.fromItems.filterMap FromItem.plain?

/-- The conditions of joins. -/
def conditions (s : Statement) : List Part := s.fromItems.filterMap FromItem.condition?

/-- The clauses of a statement, with the conditions of its joins. -/
def body (s : Statement) : List Part :=
  s.selectList ++ s.conditions ++ s.condition ++ s.grouping ++ s.ordering ++ s.top.getD [] ++ s.skip.getD []

end Statement

/-- How a place stands in a statement. A source in parentheses does not see its aliases. -/
inductive View where
  | body
  | source
  | enclosed
deriving DecidableEq

def View.sees : View → Bool
  | body => true
  | source => true
  | enclosed => false

namespace Statement

variable {s t : Statement}

/-- The parts of a statement that stand in it in one way. -/
def place (s : Statement) : View → List Part
  | .body => s.body
  | .source => s.sources
  | .enclosed => s.enclosed

theorem mem_atoms_fromList (ht : ∀ t, p ≠ .text t) (hl : p ≠ .line) (h : p ∈ atoms s.fromList) :
    p ∈ atoms s.conditions ∨ p ∈ atoms s.sources ∨ p ∈ atoms s.enclosed ∨
      ∃ e ∈ s.aliases, p = .symbol e := by
  obtain ⟨item, hi, hp⟩ := FromItem.exists_item ht hl s.fromList "" h
  cases item with
  | named e =>
    exact Or.inr (Or.inr (Or.inr
      ⟨e, mem_filterMap.2 ⟨_, hi, rfl⟩, by simpa [FromItem.atoms] using hp⟩))
  | condition q => exact Or.inl (mem_atoms_of_mem (mem_filterMap.2 ⟨_, hi, rfl⟩) hp)
  | enclosed q =>
    exact Or.inr (Or.inr (Or.inl (mem_atoms_of_mem (mem_filterMap.2 ⟨_, hi, rfl⟩) hp)))
  | plain q => exact Or.inr (Or.inl (mem_atoms_of_mem (mem_filterMap.2 ⟨_, hi, rfl⟩) hp))

/-- What a choice of items selects stands in the `FROM` list. -/
theorem atoms_items_subset (s : Statement) {choose : FromItem → Option Part}
    (hc : ∀ item p, choose item = some p → item.atoms = atomsOf p) :
    ∀ p ∈ atoms (s.fromItems.filterMap choose), p ∈ atoms s.fromList := by
  intro p hp
  obtain ⟨q, hq, hp⟩ := mem_atoms.1 hp
  obtain ⟨item, hi, he⟩ := mem_filterMap.1 hq
  exact FromItem.atoms_subset s.fromList "" hi p (by rw [hc item q he]; exact hp)

theorem atoms_conditions_subset (s : Statement) :
    ∀ p ∈ atoms s.conditions, p ∈ atoms s.fromList :=
  s.atoms_items_subset fun item p h => by cases item <;> cases h; rfl

theorem atoms_sources_subset (s : Statement) : ∀ p ∈ atoms s.sources, p ∈ atoms s.fromList :=
  s.atoms_items_subset fun item p h => by cases item <;> cases h; rfl

theorem atoms_enclosed_subset (s : Statement) :
    ∀ p ∈ atoms s.enclosed, p ∈ atoms s.fromList :=
  s.atoms_items_subset fun item p h => by cases item <;> cases h; rfl

theorem atoms_place_subset (s : Statement) (v : View) :
    ∀ p ∈ atoms (s.place v), p ∈ atoms s.parts := by
  intro p
  have hc := atoms_conditions_subset s p
  have hs := atoms_sources_subset s p
  have he := atoms_enclosed_subset s p
  unfold parts
  cases v with
  | body => simp only [place, body, atoms_append, mem_append]; tauto
  | source | enclosed => simp only [place, atoms_append, mem_append]; tauto

/-- What stands in a statement stands in it in one of the ways, or is an alias. -/
theorem mem_atoms_parts (ht : ∀ t, p ≠ .text t) (hl : p ≠ .line) (h : p ∈ atoms s.parts) :
    (∃ v, p ∈ atoms (s.place v)) ∨ ∃ e ∈ s.aliases, p = .symbol e := by
  have hbody : p ∈ atoms s.body → ∃ v, p ∈ atoms (s.place v) := fun h => ⟨.body, h⟩
  unfold parts at h
  unfold body at hbody
  simp only [atoms_append, mem_append] at h hbody
  rcases h with (((((h | h) | h) | h) | h) | h) | h
  · exact Or.inl (hbody (by simp [h]))
  · rcases mem_atoms_fromList ht hl h with h | h | h | h
    · exact Or.inl (hbody (by simp [h]))
    · exact Or.inl ⟨.source, h⟩
    · exact Or.inl ⟨.enclosed, h⟩
    · exact Or.inr h
  all_goals exact Or.inl (hbody (by simp [h]))

/-- `t` is `s` with other outer extents. -/
def SameText (s t : Statement) : Prop := t = { s with outerExtents := t.outerExtents }

theorem SameText.refl (s : Statement) : s.SameText s := rfl

theorem SameText.trans {u : Statement} (h : s.SameText t) (h' : t.SameText u) : s.SameText u := by
  unfold SameText at h h' ⊢
  rw [h', h]

theorem SameText.parts (h : s.SameText t) : t.parts = s.parts := by
  unfold SameText at h; rw [h]; rfl

theorem SameText.place (h : s.SameText t) (v : View) : t.place v = s.place v := by
  unfold SameText at h; rw [h]; rfl

theorem SameText.aliases (h : s.SameText t) : t.aliases = s.aliases := by
  unfold SameText at h; rw [h]; rfl

theorem SameText.selectList (h : s.SameText t) : t.selectList = s.selectList := by
  unfold SameText at h; rw [h]

theorem SameText.output (h : s.SameText t) : t.output = s.output := by
  unfold SameText at h; rw [h]

theorem SameText.fromList (h : s.SameText t) : t.fromList = s.fromList := by
  unfold SameText at h; rw [h]

theorem SameText.fromItems (h : s.SameText t) : t.fromItems = s.fromItems := by
  unfold Statement.fromItems; rw [h.fromList]

theorem SameText.fromExtents (h : s.SameText t) : t.fromExtents = s.fromExtents := by
  unfold SameText at h; rw [h]

theorem SameText.joinExtents (h : s.SameText t) : t.joinExtents = s.joinExtents := by
  unfold SameText at h; rw [h]

end Statement

/-! ## References -/

/-- The statements around a place, the innermost first, each with how the place stands in it. -/
abbrev Path := List (StatementId × View)

/-- The parts refer to the symbol at a place with the path. -/
inductive Refers (statements : Statements) : List Part → Path → SymbolId → Prop where
  | here {ps : List Part} {e : SymbolId} (h : .symbol e ∈ atoms ps) : Refers statements ps [] e
  | within {ps : List Part} {j : StatementId} {path : Path} {e : SymbolId} (v : View)
      (hj : .statement j ∈ atoms ps) (h : Refers statements ((statements.get j).place v) path e) :
      Refers statements ps (path ++ [(j, v)]) e

/-- The statement stands in the parts, at any depth. -/
inductive Occurs (statements : Statements) : List Part → StatementId → Prop where
  | here {ps : List Part} {j : StatementId} (h : .statement j ∈ atoms ps) : Occurs statements ps j
  | within {ps : List Part} {k j : StatementId} (hk : .statement k ∈ atoms ps)
      (h : Occurs statements (statements.get k).parts j) : Occurs statements ps j

theorem Refers.of_subset {path : Path} (h : Refers statements ps path e) (hs : ∀ p ∈ atoms ps, p ∈ atoms qs) :
    Refers statements qs path e := by
  cases h with
  | here h => exact .here (hs _ h)
  | within v hj h => exact .within v (hs _ hj) h

theorem Occurs.of_subset (h : Occurs statements ps j)
    (hs : ∀ k, .statement k ∈ atoms ps → .statement k ∈ atoms qs) :
    Occurs statements qs j := by
  cases h with
  | here h => exact .here (hs _ h)
  | within hk h => exact .within (hs _ hk) h

theorem refers_append {path : Path} :
    Refers statements (ps ++ qs) path e ↔ Refers statements ps path e ∨ Refers statements qs path e := by
  constructor
  · intro h
    cases h with
    | here h =>
      rw [atoms_append, mem_append] at h
      exact h.imp .here .here
    | within v hj h =>
      rw [atoms_append, mem_append] at hj
      exact hj.imp (fun hj => .within v hj h) fun hj => .within v hj h
  · rintro (h | h)
    · exact h.of_subset (by simp +contextual)
    · exact h.of_subset (by simp +contextual)

theorem occurs_append :
    Occurs statements (ps ++ qs) j ↔ Occurs statements ps j ∨ Occurs statements qs j := by
  constructor
  · intro h
    cases h with
    | here h =>
      rw [atoms_append, mem_append] at h
      exact h.imp .here .here
    | within hk h =>
      rw [atoms_append, mem_append] at hk
      exact hk.imp (fun hk => .within hk h) fun hk => .within hk h
  · rintro (h | h)
    · exact h.of_subset (by simp +contextual)
    · exact h.of_subset (by simp +contextual)

theorem Occurs.trans {k : StatementId} (h : Occurs statements ps k)
    (h' : Occurs statements (statements.get k).parts j) :
    Occurs statements ps j := by
  induction h with
  | here h => exact .within h h'
  | within hk _ ih => exact .within hk (ih h')

theorem Refers.occurs {path : Path} (h : Refers statements ps path e) : ∀ q ∈ path, Occurs statements ps q.1 := by
  induction h with
  | here _ => intro q hq; cases hq
  | within v hj _ ih =>
    intro q hq
    rcases mem_append.1 hq with hq | hq
    · exact .within hj ((ih q hq).of_subset fun k hk => atoms_place_subset _ v _ hk)
    · rw [mem_singleton] at hq; subst hq; exact .here hj

/-! ## Statements whose text does not change -/

/-- Occurrences depend only on the text of the statements that occur. -/
theorem Occurs.congr {S T : Statements} (h : Occurs T ps j) (hs : ∀ k, Occurs S ps k → (S.get k).SameText (T.get k)) :
    Occurs S ps j := by
  induction h with
  | here h => exact .here h
  | within hk _ ih =>
    have hsame := hs _ (.here hk)
    rw [hsame.parts] at ih
    exact .within hk (ih fun i hi => hs i (.within hk hi))

theorem Refers.congr {S T : Statements} {path : Path} (h : Refers T ps path e)
    (hs : ∀ k, Occurs S ps k → (S.get k).SameText (T.get k)) :
    Refers S ps path e := by
  induction h with
  | here h => exact .here h
  | within v hj _ ih =>
    have hsame := hs _ (.here hj)
    rw [hsame.place] at ih
    exact .within v hj (ih fun i hi =>
      hs i (.within hj (hi.of_subset fun k hk => atoms_place_subset _ v _ hk)))

end RelSql
