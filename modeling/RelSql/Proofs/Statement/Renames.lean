/-
What happens to names while a text is written, event by event. A symbol is renamed or it is written
under the name that it has, and the events lead from the names at the start to those at the end. A
symbol is renamed only if it has its first name still, to that name with a number behind it, which
the registry of its sort does not have at that time. A column marked for renaming is renamed directly
before it is written first.
-/
import RelSql.Proofs.Build.Invariant
import RelSql.Proofs.Naming.Fresh
import RelSql.Statement.Render

namespace RelSql

open List

variable {i : SymbolId}

/-! ## New names -/

namespace Names

variable {ν : Names} {e : SymbolId}

/-- The names with a fresh one for an extent. -/
def freshened (ν : Names) (e : SymbolId) : Names :=
  { ν with
    extents := (ν.extents.fresh (ν.symbols.get e).name).2
    symbols := ν.symbols.modify e fun s =>
      { s with newName := some (ν.extents.fresh (ν.symbols.get e).name).1 } }

theorem get_freshened (i : SymbolId) : (freshened ν e).symbols.get i = ν.symbols.get i ∨
    i = e ∧ (freshened ν e).symbols.get i =
      { ν.symbols.get i with newName := some (ν.extents.fresh (ν.symbols.get e).name).1 } := by
  unfold freshened
  rw [Symbols.get_modify]
  split
  · rename_i h; exact Or.inr ⟨h.1.symm, rfl⟩
  · exact Or.inl rfl

theorem newName_freshened (he : e < ν.symbols.size) :
    ((freshened ν e).symbols.get e).newName = some (ν.extents.fresh (ν.symbols.get e).name).1 := by
  unfold freshened
  rw [Symbols.get_modify, if_pos ⟨rfl, he⟩]

/-- The names with a fresh one for a column that is marked for it. -/
def recolumned (ν : Names) (i : SymbolId) : Names :=
  { ν with
    columns := (ν.columns.fresh (ν.symbols.get i).name).2
    symbols := Symbols.setNeedsRenaming (ν.symbols.modify i fun s =>
      { s with newName := some (ν.columns.fresh (ν.symbols.get i).name).1 }) i false }

theorem get_recolumned (i k : SymbolId) : (recolumned ν i).symbols.get k = ν.symbols.get k ∨
    k = i ∧ (recolumned ν i).symbols.get k = { ν.symbols.get k with
      newName := some (ν.columns.fresh (ν.symbols.get i).name).1, needsRenaming := false } := by
  unfold recolumned Symbols.setNeedsRenaming
  dsimp only
  rw [Symbols.get_modify, Symbols.get_modify]
  by_cases h : i = k ∧ k < ν.symbols.size
  · refine Or.inr ⟨h.1.symm, ?_⟩
    rw [if_pos h, if_pos ⟨h.1, by simpa using h.2⟩]
  · left
    rw [if_neg h, if_neg fun hk => h ⟨hk.1, by simpa using hk.2⟩]

theorem newName_recolumned (hi : i < ν.symbols.size) :
    ((recolumned ν i).symbols.get i).newName = some (ν.columns.fresh (ν.symbols.get i).name).1 := by
  unfold recolumned Symbols.setNeedsRenaming
  dsimp only
  rw [Symbols.get_modify, if_pos ⟨rfl, by simpa using hi⟩, Symbols.get_modify, if_pos ⟨rfl, hi⟩]

end Names

/-! ## Events -/

/-- What happens to a symbol while a text is written. -/
inductive NameEvent where
  | renamed (symbol : SymbolId) (name : String)
  | written (symbol : SymbolId) (name : String)

namespace NameEvent

/-- The symbol that the event renames. -/
def renames? : NameEvent → Option SymbolId
  | renamed i _ => some i
  | written .. => none

def isWritten : NameEvent → Bool
  | renamed .. => false
  | written .. => true

end NameEvent

/-- The event that a piece of the text records. -/
def Piece.event? : Piece → Option NameEvent
  | name i n => some (.written i n)
  | _ => none

namespace Names

variable {n : String}

/-- The registry that the names of symbols of its sort are in. -/
def registry (ν : Names) (i : SymbolId) : Registry :=
  if (ν.symbols.get i).type.isSome then ν.extents else ν.columns

/-- The names with a fresh one for the symbol `i`. -/
def renamed (ν : Names) (i : SymbolId) : Names :=
  if (ν.symbols.get i).type.isSome then freshened ν i else recolumned ν i

/-- The symbol `i` gets its new name, fresh in the registry of its sort, which has it from then on. Nothing
changes for another symbol or in the other registry. -/
structure Renames (ν : Names) (i : SymbolId) (name : String) : Prop where
  first : (ν.symbols.get i).newName = none
  drawn : name = ((ν.registry i).fresh (ν.symbols.get i).name).1
  free : (ν.registry i).contains name = false
  renamed : ((ν.renamed i).symbols.get i).newName = some name
  others : ∀ j, j ≠ i → (ν.renamed i).symbols.get j = ν.symbols.get j
  extents : (ν.renamed i).extents =
    if (ν.symbols.get i).type.isSome then (ν.extents.fresh (ν.symbols.get i).name).2 else ν.extents
  columns : (ν.renamed i).columns =
    if (ν.symbols.get i).type.isSome then ν.columns else (ν.columns.fresh (ν.symbols.get i).name).2

/-- The names that the events lead to: a renaming takes a name from its registry, and writing changes
nothing. -/
def after (ν : Names) : List NameEvent → Names
  | [] => ν
  | .renamed i _ :: events => (ν.renamed i).after events
  | .written .. :: events => ν.after events

/-- The symbol `i` has `name` as its current one, and does not wait for another. -/
structure Writes (ν : Names) (i : SymbolId) (name : String) : Prop where
  current : name = (ν.symbols.get i).currentName
  settled : (ν.symbols.get i).needsRenaming = true → (ν.symbols.get i).isRenamed = true

/-- The events lead from the names `ν` to the names `ν'`. A column is written as soon as it is
renamed. -/
inductive Trace : Names → List NameEvent → Names → Prop
  | nil (ν : Names) : Trace ν [] ν
  | extent {ν ν' : Names} {e : SymbolId} {name : String} {events : List NameEvent}
      (he : (ν.symbols.get e).type.isSome = true) (h : ν.Renames e name)
      (rest : Trace (ν.renamed e) events ν') : Trace ν (.renamed e name :: events) ν'
  | column {ν ν' : Names} {c : SymbolId} {name : String} {events : List NameEvent}
      (hc : (ν.symbols.get c).type = none) (h : ν.Renames c name) (rest : Trace (ν.renamed c) events ν') :
      Trace ν (.renamed c name :: .written c name :: events) ν'
  | written {ν ν' : Names} {i : SymbolId} {name : String} {events : List NameEvent} (h : ν.Writes i name)
      (rest : Trace ν events ν') : Trace ν (.written i name :: events) ν'

variable {ν ν1 ν' : Names} {events events' : List NameEvent}

theorem Trace.append (h : Trace ν events ν1) (h' : Trace ν1 events' ν') : Trace ν (events ++ events') ν' := by
  induction h with
  | nil => exact h'
  | extent he h _ ih => exact .extent he h (ih h')
  | column hc h _ ih => exact .column hc h (ih h')
  | written h _ ih => exact .written h (ih h')

/-- The events lead to the names that they give. -/
theorem Trace.eq_after (h : Trace ν events ν') : ν' = ν.after events := by
  induction h with
  | nil => rfl
  | extent _ _ _ ih | column _ _ _ ih | written _ _ ih => exact ih

theorem Renames.kept {j : SymbolId} {name : String} (h : ν.Renames i name)
    (hj : (ν.symbols.get j).newName = some n) : ((ν.renamed i).symbols.get j).newName = some n := by
  have hne : j ≠ i := by
    rintro rfl
    rw [h.first] at hj; cases hj
  rw [h.others j hne]; exact hj

/-- A new name is kept. -/
theorem Trace.kept (h : Trace ν events ν') (hi : (ν.symbols.get i).newName = some n) :
    (ν'.symbols.get i).newName = some n := by
  induction h with
  | nil => exact hi
  | extent _ h _ ih | column _ h _ ih => exact ih (h.kept hi)
  | written _ _ ih => exact ih hi

/-- A symbol that has a new name is not renamed. -/
theorem Trace.not_renamed (h : Trace ν events ν') (hi : (ν.symbols.get i).newName = some n) :
    i ∉ events.filterMap NameEvent.renames? := by
  have hne : ∀ {ν1 : Names} {j : SymbolId} {m : String}, ν1.Renames j m →
      (ν1.symbols.get i).newName = some n → i ≠ j := by
    rintro ν1 j m hr hn rfl
    rw [hr.first] at hn; cases hn
  induction h with
  | nil => exact not_mem_nil
  | extent _ h _ ih | column _ h _ ih => exact not_mem_cons_of_ne_of_not_mem (hne h hi) (ih (h.kept hi))
  | written _ _ ih => exact ih hi

/-- No symbol is renamed twice. -/
theorem Trace.nodup (h : Trace ν events ν') : (events.filterMap NameEvent.renames?).Nodup := by
  induction h with
  | nil => exact nodup_nil
  | extent _ h rest ih | column _ h rest ih => exact nodup_cons.2 ⟨rest.not_renamed h.renamed, ih⟩
  | written _ _ ih => exact ih

/-- A renaming among the events is done at the names that the events before it lead to, and it stays. A
column is written directly behind it. -/
theorem Trace.split : ∀ (before : List NameEvent) {later : List NameEvent} {i : SymbolId} {name : String} {ν : Names},
    Trace ν (before ++ .renamed i name :: later) ν' → (ν'.symbols.get i).newName = some name ∧
      Trace ν before (ν.after before) ∧ (ν.after before).Renames i name ∧
        (((ν.after before).symbols.get i).type = none → ∃ rest, later = .written i name :: rest)
  | [], later, i, name, ν, h => by
    cases h with
    | extent he h rest =>
      exact ⟨rest.kept h.renamed, .nil ν, h, fun (hc : (ν.symbols.get i).type = none) => by rw [hc] at he; cases he⟩
    | column _ h rest => exact ⟨rest.kept h.renamed, .nil ν, h, fun _ => ⟨_, rfl⟩⟩
  | [event], later, i, name, ν, h => by
    cases h with
    | extent he h rest =>
      obtain ⟨hn, ht, hr⟩ := Trace.split [] rest
      exact ⟨hn, .extent he h ht, hr⟩
    | written h rest =>
      obtain ⟨hn, ht, hr⟩ := Trace.split [] rest
      exact ⟨hn, .written h ht, hr⟩
  | event :: next :: before, later, i, name, ν, h => by
    cases h with
    | extent he h rest =>
      obtain ⟨hn, ht, hr⟩ := Trace.split (next :: before) rest
      exact ⟨hn, .extent he h ht, hr⟩
    | column hcol h rest =>
      obtain ⟨hn, ht, hr⟩ := Trace.split before rest
      exact ⟨hn, .column hcol h ht, hr⟩
    | written h rest =>
      obtain ⟨hn, ht, hr⟩ := Trace.split (next :: before) rest
      exact ⟨hn, .written h ht, hr⟩

theorem currentName_of_newName (h : (ν.symbols.get i).newName = some n) :
    (ν.symbols.get i).currentName = n := by
  unfold Symbol.currentName; rw [h]; rfl

/-- A renamed symbol is written under its new name. -/
theorem Trace.written_of_renamed (h : Trace ν events ν') {m : String} (hi : (ν.symbols.get i).newName = some n)
    (hm : .written i m ∈ events) : m = n := by
  induction h with
  | nil => cases hm
  | extent _ h _ ih => exact ih (h.kept hi) ((mem_cons.1 hm).resolve_left nofun)
  | column _ h _ ih =>
    rcases mem_cons.1 ((mem_cons.1 hm).resolve_left nofun) with hm | hm
    · cases hm
      rw [h.first] at hi; cases hi
    · exact ih (h.kept hi) hm
  | written h _ ih =>
    rcases mem_cons.1 hm with hm | hm
    · cases hm
      rw [h.current, currentName_of_newName hi]
    · exact ih hi hm

/-- A symbol that has its first name in the end is as it was, and was written under that name. -/
theorem Trace.of_first (h : Trace ν events ν') (hi : (ν'.symbols.get i).newName = none) :
    ν'.symbols.get i = ν.symbols.get i ∧ ∀ m, .written i m ∈ events → m = (ν'.symbols.get i).name := by
  -- the symbol is none of those that are renamed on the way
  have hne : ∀ {ν1 : Names} {j : SymbolId} {m : String} {es : List NameEvent}, ν1.Renames j m →
      Trace (ν1.renamed j) es ν' → i ≠ j := by
    rintro ν1 j m es hr hrest rfl
    rw [hrest.kept hr.renamed] at hi; cases hi
  induction h with
  | nil => exact ⟨rfl, nofun⟩
  | extent _ h rest ih =>
    obtain ⟨hsame, hwritten⟩ := ih hi hne
    exact ⟨hsame.trans (h.others i (hne h rest)), fun m hm => hwritten m ((mem_cons.1 hm).resolve_left nofun)⟩
  | column _ h rest ih =>
    obtain ⟨hsame, hwritten⟩ := ih hi hne
    refine ⟨hsame.trans (h.others i (hne h rest)), fun m hm => ?_⟩
    rcases mem_cons.1 ((mem_cons.1 hm).resolve_left nofun) with hm | hm
    · cases hm
      exact absurd rfl (hne h rest)
    · exact hwritten m hm
  | written h rest ih =>
    obtain ⟨hsame, hwritten⟩ := ih hi hne
    refine ⟨hsame, fun m hm => ?_⟩
    rcases mem_cons.1 hm with hm | hm
    · cases hm
      rw [h.current, ← hsame]
      unfold Symbol.currentName; rw [hi]; rfl
    · exact hwritten m hm

/-- A symbol marked for renaming has its new name when it is written. -/
theorem Trace.renamed_of_marked (h : Trace ν events ν') {m : String} (hi : (ν.symbols.get i).newName = none)
    (hmark : (ν.symbols.get i).needsRenaming = true) (hm : .written i m ∈ events) : .renamed i m ∈ events := by
  induction h with
  | nil => cases hm
  | @extent ν ν' e name events _ h rest ih =>
    have hlater := (mem_cons.1 hm).resolve_left nofun
    by_cases hie : i = e
    · subst hie
      rw [rest.written_of_renamed h.renamed hlater]
      exact mem_cons_self
    · rw [← h.others i hie] at hi hmark
      exact mem_cons_of_mem _ (ih hi hmark hlater)
  | @column ν ν' c name events _ h rest ih =>
    have hcases := mem_cons.1 ((mem_cons.1 hm).resolve_left nofun)
    by_cases hic : i = c
    · subst hic
      have hname : m = name := hcases.elim (fun heq => by cases heq; rfl) (rest.written_of_renamed h.renamed)
      rw [hname]
      exact mem_cons_self
    · rw [← h.others i hic] at hi hmark
      have hlater := hcases.resolve_left fun heq => hic (by cases heq; rfl)
      exact mem_cons_of_mem _ (mem_cons_of_mem _ (ih hi hmark hlater))
  | @written ν ν' j name events h rest ih =>
    rcases mem_cons.1 hm with hm | hm
    -- a marked column is not written before it has its new name
    · cases hm
      have hrenamed := h.settled hmark
      unfold Symbol.isRenamed at hrenamed
      rw [hi] at hrenamed; cases hrenamed
    · exact mem_cons_of_mem _ (ih hi hmark hm)

/-- A symbol that has its first name can be renamed. -/
theorem renames (hi : i < ν.symbols.size) (hn : (ν.symbols.get i).newName = none) :
    ν.Renames i ((ν.registry i).fresh (ν.symbols.get i).name).1 := by
  refine ⟨hn, rfl, Registry.contains_fresh _ _, ?_, fun j hj => ?_, ?_, ?_⟩
  · unfold renamed registry
    split
    · exact newName_freshened hi
    · exact newName_recolumned hi
  · unfold renamed
    split
    · exact (get_freshened j).resolve_right fun h => hj h.1
    · exact (get_recolumned i j).resolve_right fun h => hj h.1
  all_goals
    unfold renamed
    split <;> rfl

/-! ## The events of writing -/

/-- Writing the pieces led from the names `ν` to `ν'`, by events that the pieces record. -/
def Traced (ν ν' : Names) (pieces : List Piece) : Prop :=
  ∃ events, ν.Trace events ν' ∧ events.filter NameEvent.isWritten = pieces.filterMap Piece.event?

variable {pieces more : List Piece}

theorem Traced.refl (h : pieces.filterMap Piece.event? = []) : Traced ν ν pieces := ⟨[], .nil ν, h.symm⟩

theorem Traced.append (h : Traced ν ν1 pieces) (h' : Traced ν1 ν' more) : Traced ν ν' (pieces ++ more) := by
  obtain ⟨events, ht, hw⟩ := h
  obtain ⟨events', ht', hw'⟩ := h'
  exact ⟨events ++ events', ht.append ht', by rw [filter_append, filterMap_append, hw, hw']⟩

theorem Traced.of_events (h : Traced ν ν' pieces) (he : more.filterMap Piece.event? = pieces.filterMap Piece.event?) :
    Traced ν ν' more := by
  obtain ⟨events, ht, hw⟩ := h
  exact ⟨events, ht, hw.trans he.symm⟩

theorem traced_freshened (hi : (ν.symbols.get i).type.isSome = true) (hn : (ν.symbols.get i).newName = none) :
    Traced ν (freshened ν i) [] := by
  have hnext : ν.renamed i = freshened ν i := if_pos hi
  exact ⟨_, .extent hi (renames (Symbols.IsExtent.lt hi) hn) (by rw [hnext]; exact .nil _), rfl⟩

theorem traced_recolumned (hi : (ν.symbols.get i).type = none) (hlt : i < ν.symbols.size)
    (hn : (ν.symbols.get i).newName = none) :
    Traced ν (recolumned ν i) [.name i (ν.columns.fresh (ν.symbols.get i).name).1] := by
  have hcolumn : ¬ (ν.symbols.get i).type.isSome = true := by rw [hi]; exact Bool.false_ne_true
  have hrenames := renames hlt hn
  rw [registry, if_neg hcolumn] at hrenames
  have hnext : ν.renamed i = recolumned ν i := if_neg hcolumn
  exact ⟨_, .column hi hrenames (by rw [hnext]; exact .nil _), rfl⟩

end Names

end RelSql
