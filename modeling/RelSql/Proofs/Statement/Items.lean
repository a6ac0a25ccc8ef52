/-
Reading a select list or a list of keys back into its items. Items stand between commas; the part
behind `AS` is the name of an item, and the part behind a dot belongs to it whatever it is. A statement
exposes the names of its select list.
-/
import RelSql.Proofs.Statement.References
import RelSql.Query.Grouping

namespace RelSql

open RelSql.Part List

/-- An item of a select list: the parts of its expression, and its name if it has one. -/
structure SelectItem where
  expr : List Part := []
  name : Option Part := none

/-- A list of items that are not empty is empty only if it has none. -/
theorem Part.isEmpty_separated {α : Type} {separator : String} {parts : α → List Part} {as : List α}
    (hne : ∀ a ∈ as, parts a ≠ []) : (separated separator (as.map parts)).isEmpty = as.isEmpty := by
  match as, hne with
  | [], _ => rfl
  | [a], hne => simpa [separated] using hne a mem_cons_self
  | a :: a' :: as, hne => simp [separated, intercalate_cons_cons]

/-- The part is more than a text. -/
def Part.IsOperand (p : Part) : Prop := (∀ t, p ≠ .text t) ∧ p ≠ .line

theorem Part.isOperand_group (ps : List Part) : (group ps).IsOperand := ⟨nofun, nofun⟩

namespace SelectItem

/-- The item with one more part of its expression. -/
def add (item : SelectItem) (p : Part) : SelectItem := { item with expr := item.expr ++ [p] }

/-- The items of a list behind the text `last`, where `item` has been read so far. -/
def readAll (last : String) (item : SelectItem) : List Part → List SelectItem
  | [] => [item]
  | p :: rest =>
    if last = "." then readAll "" (item.add p) rest
    else if last = " AS " then readAll "" { item with name := some p } rest
    else
      match p with
      | .line => readAll "" item rest
      | .text t =>
        if t = ", " then item :: readAll "" {} rest
        else if t = " AS " then readAll t item rest
        else readAll t (item.add p) rest
      | p => readAll "" (item.add p) rest

/-- The items of a list. -/
def read (ps : List Part) : List SelectItem := if ps.isEmpty then [] else readAll "" {} ps

theorem readAll_comma (item : SelectItem) (rest : List Part) :
    readAll "" item (.text ", " :: rest) = item :: readAll "" {} rest := by
  simp [readAll]

/-- The items of a list are read one by one. -/
theorem read_separated {α : Type} {parts : α → List Part} {item : α → SelectItem} {as : List α}
    (hne : ∀ a ∈ as, parts a ≠ [])
    (hread : ∀ a ∈ as, ∀ rest, readAll "" {} (parts a ++ rest) = readAll "" (item a) rest) :
    read (separated ", " (as.map parts)) = as.map item := by
  have hall : ∀ (as : List α) a, (∀ x ∈ a :: as, ∀ rest, readAll "" {} (parts x ++ rest) = readAll "" (item x) rest) →
      readAll "" {} (separated ", " ((a :: as).map parts)) = (a :: as).map item := by
    intro as
    induction as with
    | nil =>
      intro a hread
      have := hread a mem_cons_self []
      rw [append_nil] at this
      rw [map_singleton, separated, intercalate_singleton, this]
      rfl
    | cons a' as ih =>
      intro a hread
      have hrest := ih a' fun x hx => hread x (mem_cons_of_mem _ hx)
      rw [map_cons, separated] at hrest
      rw [map_cons, map_cons, separated, intercalate_cons_cons, append_assoc,
        singleton_append, hread a mem_cons_self, readAll_comma, hrest]
      rfl
  cases as with
  | nil => rfl
  | cons a as =>
    unfold read
    rw [isEmpty_separated hne, if_neg (by simp)]
    exact hall as a hread

/-- What stands alone between commas: an operand that is more than text. -/
theorem readAll_operand {p : Part} (hp : p.IsOperand) (item : SelectItem) (rest : List Part) :
    readAll "" item (p :: rest) = readAll "" (item.add p) rest := by
  cases p with
  | text t => exact absurd rfl (hp.1 t)
  | line => exact absurd rfl hp.2
  | symbol e | group ps | statement j => simp [readAll]

theorem readAll_line (item : SelectItem) (rest : List Part) :
    readAll "" item (.line :: rest) = readAll "" item rest := by
  simp [readAll]

theorem readAll_name (item : SelectItem) (name : Part) (rest : List Part) :
    readAll "" item (.text " AS " :: name :: rest) = readAll "" { item with name := some name } rest := by
  cases name <;> simp [readAll]

/-- The items that the compiler writes for fields, keys and aggregates. -/
theorem readAll_selectItem {p : Part} (hp : p.IsOperand) (name : String) (rest : List Part) :
    readAll "" {} (Build.selectItem p name ++ rest) = readAll "" { expr := [p], name := some (.text name) } rest := by
  change readAll "" {} (.line :: p :: .text " AS " :: .text name :: rest) = _
  rw [readAll_line, readAll_operand hp, readAll_name]
  rfl

theorem read_selectItems {items : List (Part × String)} (h : ∀ i ∈ items, i.1.IsOperand) :
    read (separated ", " (items.map fun i => Build.selectItem i.1 i.2)) =
      items.map fun i => { expr := [i.1], name := some (.text i.2) } :=
  read_separated (fun _ _ => cons_ne_nil _ _) fun i hi rest => readAll_selectItem (h i hi) i.2 rest

theorem read_operands {ps : List Part} (h : ∀ p ∈ ps, p.IsOperand) :
    read (separated ", " (ps.map fun p => [p])) = ps.map fun p => { expr := [p] } :=
  read_separated (fun _ _ => cons_ne_nil _ _) fun p hp rest => readAll_operand (h p hp) {} rest

end SelectItem

/-! ## Exposed columns -/

/-- The name under which an item is known outside: the one behind `AS`, or the column if the item is
nothing but a column of an extent. -/
def SelectItem.exposed? (item : SelectItem) : Option Part :=
  match item.name with
  | some name => some name
  | none =>
    match atoms item.expr with
    | [.symbol _, .text ".", column] => some column
    | _ => none

namespace Statement

/-- The columns that a statement exposes as a subselect. -/
def exposed (s : Statement) : List Part := (SelectItem.read s.selectList).filterMap SelectItem.exposed?

theorem exposed_of_select_nil {s : Statement} (h : s.selectList = []) : s.exposed = [] := by
  unfold exposed; rw [h]; rfl

theorem exposed_congr {s t : Statement} (h : t.selectList = s.selectList) : t.exposed = s.exposed := by
  unfold exposed; rw [h]

/-- A statement that exposes a column has a select list. -/
theorem select_ne_nil_of_exposed {s : Statement} {c : Part} (h : c ∈ s.exposed) : s.selectList ≠ [] := by
  intro hs
  rw [exposed_of_select_nil hs] at h
  cases h

end Statement

/-- The item that selects a column of an extent. -/
def Build.StarColumn.item (c : StarColumn) : SelectItem :=
  match c.member with
  | some member => { expr := [.symbol c.source, .text ".", .text member], name := some (.symbol c.column) }
  | none => { expr := [.symbol c.source, .text ".", .symbol c.column] }

theorem SelectItem.readAll_star (c : Build.StarColumn) (rest : List Part) :
    readAll "" {} (c.parts ++ rest) = readAll "" c.item rest := by
  obtain ⟨source, member, column⟩ := c
  cases member <;> simp [Build.StarColumn.parts, Build.StarColumn.item, readAll, add]

theorem SelectItem.exposed?_star (c : Build.StarColumn) : c.item.exposed? = some (.symbol c.column) := by
  obtain ⟨source, member, column⟩ := c
  cases member <;> simp [Build.StarColumn.item, exposed?]

theorem SelectItem.read_stars (stars : List Build.StarColumn) :
    read (separated ", " (stars.map Build.StarColumn.parts)) = stars.map Build.StarColumn.item :=
  read_separated (fun _ _ => cons_ne_nil _ _) fun c _ => readAll_star c

/-- A star exposes its columns. -/
theorem Statement.exposed_stars {s : Statement} {stars : List Build.StarColumn}
    (hs : s.selectList = separated ", " (stars.map Build.StarColumn.parts)) :
    s.exposed = stars.map fun c => .symbol c.column := by
  unfold exposed
  rw [hs, SelectItem.read_stars, filterMap_map]
  have hsome : SelectItem.exposed? ∘ Build.StarColumn.item = fun c => some (.symbol c.column) :=
    funext SelectItem.exposed?_star
  rw [hsome]
  exact congrFun filterMap_eq_map' _

end RelSql
