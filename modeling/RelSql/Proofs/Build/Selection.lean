/-
What the statements of a query select. Every column is filed by one extent, under a name that is
registered. A nested join brings along columns that were filed for the statement it stands for, and no
two joins that nothing was selected from yet have one in common. So the columns of a star are all
different, if the members of each extent are, and those that share a name are marked for renaming. The
columns that a statement returns are the ones that its select list exposes, item by item.
-/
import RelSql.Proofs.Build.Store
import RelSql.Proofs.Naming.Filed
import RelSql.Proofs.Statement.Items

namespace RelSql

open RelSql.Part Statement Symbols SelectItem Ident List

open Build (memberNames StarColumn)

variable {c e : SymbolId} {entries : List (List Part × String)}

/-- The columns of an extent in a star: those of its members, or the ones that a nested join brings
along. -/
def Symbols.shown (symbols : Symbols) (e : SymbolId) : List SymbolId :=
  match (symbols.get e).join with
  | some join => join.columns
  | none => (memberNames (symbols.get e)).filterMap (symbols.get e).column?

theorem Symbols.mem_shown {symbols : Symbols} (h : c ∈ symbols.shown e) :
    (∃ key, symbols.Files e key c) ∨ ∃ join, (symbols.get e).join = some join ∧ c ∈ join.columns := by
  unfold shown at h
  split at h
  · rename_i join hj
    exact Or.inr ⟨join, hj, h⟩
  · obtain ⟨m, -, hm⟩ := mem_filterMap.1 h
    exact Or.inl ⟨_, files_of_column? hm⟩

theorem Symbols.shown_markClashes (symbols : Symbols) (seen : List (String × SymbolId)) (columns : List SymbolId)
    (e : SymbolId) : (symbols.markClashes seen columns).shown e = symbols.shown e := by
  obtain ⟨f, hf⟩ := get_markClashes columns symbols seen e
  unfold shown
  rw [hf]
  rfl

/-- Every extent that has filed one of the columns has members of different names. -/
def Symbols.Proper (symbols : Symbols) (columns : List SymbolId) : Prop :=
  ∀ c ∈ columns, ∀ e key, symbols.Files e key c →
    (memberNames (symbols.get e)).Pairwise fun m n => same m n = false

/-- The symbol is a column under a registered name. -/
structure Names.Known (ν : Names) (c : SymbolId) : Prop where
  lt : c < ν.symbols.size
  type : (ν.symbols.get c).type = none
  name : ν.columns.contains (ν.symbols.get c).name = true

/-- The two columns can be told apart once those that are marked have new names. -/
structure Names.TellsApart (ν : Names) (c d : SymbolId) : Prop where
  ne : c ≠ d
  left : ν.Known c
  right : ν.Known d
  marked : same (ν.symbols.get c).name (ν.symbols.get d).name = true →
    (ν.symbols.get c).needsRenaming = true ∧ (ν.symbols.get d).needsRenaming = true

/-- Columns are told apart in more names, if marks stay. -/
theorem Names.TellsApart.grows {ν μ : Names} {d : SymbolId} (h : ν.TellsApart c d) (hg : ν.symbols.Grows μ.symbols)
    (hr : ∀ name, ν.columns.contains name = true → μ.columns.contains name = true)
    (hm : ∀ c, (ν.symbols.get c).needsRenaming = true → (μ.symbols.get c).needsRenaming = true) : μ.TellsApart c d := by
  have hknown : ∀ {c}, ν.Known c → μ.Known c := by
    rintro c ⟨hlt, htype, hname⟩
    have hc := hg.symbol c hlt
    exact ⟨lt_of_lt_of_le hlt hg.size, hc.type.trans htype, hr _ (by rw [hc.name]; exact hname)⟩
  refine ⟨h.ne, hknown h.left, hknown h.right, fun hs => ?_⟩
  rw [(hg.symbol c h.left.lt).name, (hg.symbol d h.right.lt).name] at hs
  exact ⟨hm c (h.marked hs).1, hm d (h.marked hs).2⟩

/-- Columns that are all different and marked where they share a name can be told apart. -/
theorem Names.pairwise_tellsApart {ν : Names} {columns : List SymbolId} (hk : ∀ c ∈ columns, ν.Known c)
    (hne : columns.Nodup)
    (hm : ∀ c ∈ columns, ∀ d ∈ columns, c ≠ d → key (ν.symbols.get c).name = key (ν.symbols.get d).name →
      (ν.symbols.get c).needsRenaming = true) : columns.Pairwise ν.TellsApart := by
  refine hne.imp_of_mem fun {c d} hc hd hcd => ⟨hcd, hk c hc, hk d hd, fun hs => ?_⟩
  have hkey : key (ν.symbols.get c).name = key (ν.symbols.get d).name := by simpa [same] using hs
  exact ⟨hm c hc d hd hcd hkey, hm d hd c hc hcd.symm hkey.symm⟩

/-! ## Items with names -/

/-- The part that names the column. -/
def OutputColumn.part : OutputColumn → Part
  | named name => .text name
  | symbol c => .symbol c

/-- The statement returns the columns that its select list exposes, one for each item. -/
def Statement.Reports (s : Statement) : Prop :=
  (read s.selectList).map exposed? = s.output.map fun c => some c.part

namespace SelectItem

/-- The parts are an item under the name. -/
def Named (ps : List Part) (name : String) : Prop :=
  ps ≠ [] ∧ ∃ expr, ∀ rest, readAll "" {} (ps ++ rest) = readAll "" { expr, name := some (.text name) } rest

theorem named_selectItem {p : Part} (hp : p.IsOperand) (name : String) : Named (Build.selectItem p name) name :=
  ⟨cons_ne_nil _ _, [p], readAll_selectItem hp name⟩

theorem exposed?_named (h : ∀ e ∈ entries, Named e.1 e.2) :
    (read (separated ", " (entries.map Prod.fst))).map exposed? = entries.map fun e => some (.text e.2) := by
  choose! expr hexpr using fun e he => (h e he).2
  rw [read_separated (fun e he => (h e he).1) hexpr, map_map]
  rfl

end SelectItem

theorem Statement.exposed_named {s : Statement} (h : ∀ e ∈ entries, SelectItem.Named e.1 e.2)
    (hs : s.selectList = separated ", " (entries.map Prod.fst)) :
    s.exposed = entries.map fun e => .text e.2 := by
  have hid : s.exposed = ((read s.selectList).map exposed?).filterMap id := by
    rw [filterMap_map]; rfl
  rw [hid, hs, exposed?_named h, filterMap_map]
  exact congrFun filterMap_eq_map' _

namespace Store

variable {σ τ : Store} {k : StatementId} {s t : Statement}

/-! ## Select lists -/

/-- The statement is the source of another one. -/
def Wrapped (σ : Store) (k : StatementId) : Prop := ∃ l, .enclosed (.statement k) ∈ (σ.get l).fromItems

/-- What the statement selects: the columns of a star can be told apart, and what is returned is what is
exposed, unless the list is one value without a name or the statement is the inner one of a group. -/
structure Selects (σ : Store) (k : StatementId) (s : Statement) : Prop where
  stars : ∀ columns, s.exposed = columns.map symbol → σ.symbols.Proper columns → columns.Pairwise σ.names.TellsApart
  reports : (∃ p, s.selectList = [p]) ∨ s.Reports ∨ s.output = [] ∧ σ.Wrapped k

theorem Selects.output (h : σ.Selects k s) (hs : s.selectList = []) : s.output = [] := by
  rcases h.reports with ⟨p, hp⟩ | hr | ⟨ho, -⟩
  · rw [hs] at hp; cases hp
  · rw [Statement.Reports, hs] at hr
    exact map_eq_nil_iff.1 hr.symm
  · exact ho

theorem Selects.congr (h : σ.Selects k s) (hs : t.selectList = s.selectList) (ho : t.output = s.output) :
    σ.Selects k t := by
  refine ⟨fun columns he => h.stars columns (by rw [← exposed_congr hs]; exact he), ?_⟩
  unfold Statement.Reports
  rw [hs, ho]; exact h.reports

theorem selects_nil (hs : s.selectList = []) (ho : s.output = []) : σ.Selects k s := by
  refine ⟨fun columns he _ => ?_, Or.inr (Or.inl ?_)⟩
  · rw [exposed_of_select_nil hs] at he
    rw [map_eq_nil_iff.1 he.symm]; exact .nil
  · unfold Statement.Reports
    rw [hs, ho]; rfl

/-- A list of one item has nothing to be told apart. -/
theorem selects_value {p : Part} (hp : p.IsOperand) (hs : s.selectList = [p]) : σ.Selects k s := by
  refine ⟨fun columns he _ => ?_, Or.inl ⟨p, hs⟩⟩
  have hread : read s.selectList = [{ expr := [p] }] := by
    rw [hs]; exact readAll_operand hp {} []
  have hlength : columns.length ≤ 1 := by
    have hle : s.exposed.length ≤ 1 := by rw [exposed, hread]; exact length_filterMap_le _ _
    rwa [he, length_map] at hle
  match columns, hlength with
  | [], _ => exact .nil
  | [c], _ => exact pairwise_singleton _ c

/-- Items with names of their own are exposed under these. -/
theorem selects_named (hn : ∀ e ∈ entries, SelectItem.Named e.1 e.2)
    (hs : s.selectList = separated ", " (entries.map Prod.fst))
    (h : s.output = entries.map (fun e => .named e.2) ∨ s.output = [] ∧ σ.Wrapped k) : σ.Selects k s := by
  refine ⟨fun columns he _ => ?_, Or.inr (h.imp (fun ho => ?_) id)⟩
  · rw [exposed_named hn hs] at he
    cases columns with
    | nil => exact .nil
    | cons c columns =>
      obtain ⟨e, -, hc⟩ := mem_map.1 (he ▸ mem_cons_self : symbol c ∈ entries.map fun e => .text e.2)
      cases hc
  · unfold Statement.Reports
    rw [hs, exposed?_named hn, ho, map_map]; rfl

/-- A star exposes its columns. -/
theorem selects_stars {stars : List StarColumn} (hs : s.selectList = separated ", " (stars.map StarColumn.parts))
    (ho : s.output = (stars.map StarColumn.column).map OutputColumn.symbol)
    (h : σ.symbols.Proper (stars.map StarColumn.column) → (stars.map StarColumn.column).Pairwise σ.names.TellsApart) :
    σ.Selects k s := by
  refine ⟨fun columns he hp => ?_, Or.inr (Or.inl ?_)⟩
  · have hexposed : (stars.map StarColumn.column).map symbol = columns.map symbol := by
      rw [map_map, ← he, exposed_stars hs]; rfl
    obtain rfl := map_injective_iff.2 (fun _ _ => symbol.inj) hexposed
    exact h hp
  · unfold Statement.Reports
    rw [hs, read_stars, ho, map_map, map_map, map_map]
    exact map_congr_left fun c _ => exposed?_star c

theorem Selects.mono (h : σ.Selects k s) (hp : ∀ columns, τ.symbols.Proper columns → σ.symbols.Proper columns)
    (ht : ∀ c d, σ.names.TellsApart c d → τ.names.TellsApart c d) (hw : σ.Wrapped k → τ.Wrapped k) : τ.Selects k s :=
  ⟨fun columns he hproper => (h.stars columns he (hp columns hproper)).imp fun hcd => ht _ _ hcd,
    h.reports.imp id (Or.imp id (And.imp id hw))⟩

/-! ## Columns and joins -/

/-- The extent stands in a statement that has a select list. -/
def Spent (σ : Store) (e : SymbolId) : Prop := ∃ k, e ∈ (σ.get k).aliases ∧ (σ.get k).selectList ≠ []

theorem Spent.mono (h : σ.Spent e) (hitems : ∀ k < σ.size, ∀ p ∈ (σ.get k).fromItems, p ∈ (τ.get k).fromItems)
    (hne : ∀ k < σ.size, (σ.get k).selectList ≠ [] → (τ.get k).selectList ≠ []) : τ.Spent e := by
  obtain ⟨k, he, hsel⟩ := h
  have hk := lt_of_mem_aliases he
  obtain ⟨p, hp, hname⟩ := mem_filterMap.1 he
  exact ⟨k, mem_filterMap.2 ⟨p, hitems k hk p hp, hname⟩, hne k hk hsel⟩

/-- The columns come from statements with select lists, and no join has one of them that can still be read. -/
structure Unplaced (σ : Store) (columns : List SymbolId) : Prop where
  brought : ∀ c ∈ columns, ∃ e key, σ.symbols.Files e key c ∧ σ.Spent e
  apart : ∀ y join, (σ.symbols.get y).join = some join → ¬ σ.Spent y → ∀ c ∈ join.columns, c ∉ columns
  nodup : σ.symbols.Proper columns → columns.Nodup

theorem Unplaced.mono {columns : List SymbolId} (h : σ.Unplaced columns) (hn : τ.names = σ.names)
    (hs : ∀ e, σ.Spent e → τ.Spent e) : τ.Unplaced columns := by
  have hsymbols : τ.symbols = σ.symbols := congrArg Names.symbols hn
  refine ⟨fun c hc => ?_, fun y join hj hy => ?_, fun hp => h.nodup (hsymbols ▸ hp)⟩
  · obtain ⟨e, key, hf, he⟩ := h.brought c hc
    exact ⟨e, key, hsymbols.symm ▸ hf, hs e he⟩
  · exact h.apart y join (hsymbols ▸ hj) fun he => hy (hs y he)

/-- Columns are filed and registered, joins bring along columns of their own, and every statement selects
what it returns. -/
structure Tidy (σ : Store) : Prop where
  once : σ.symbols.FiledOnce
  registered : ∀ ⦃e key c⦄, σ.symbols.Files e key c → σ.names.columns.contains (σ.symbols.get c).name = true
  brought : ∀ ⦃y join⦄, (σ.symbols.get y).join = some join → ∀ c ∈ join.columns,
    ∃ e key, σ.symbols.Files e key c ∧ σ.Spent e
  apart : ∀ ⦃y z join join'⦄, (σ.symbols.get y).join = some join → (σ.symbols.get z).join = some join' →
    y ≠ z → ¬ σ.Spent y → ¬ σ.Spent z → ∀ c ∈ join.columns, c ∉ join'.columns
  nodup : ∀ ⦃y join⦄, (σ.symbols.get y).join = some join → σ.symbols.Proper join.columns → join.columns.Nodup
  selects : ∀ k, σ.Selects k (σ.get k)

theorem Tidy.known (h : σ.Tidy) (hw : σ.symbols.WF) {key : String} (hf : σ.symbols.Files e key c) :
    σ.names.Known c :=
  ⟨(hw.columns e _ hf).1, (hw.columns e _ hf).2, h.registered hf⟩

/-- The columns of extents that nothing was selected from belong to no join yet. -/
theorem Tidy.unplaced (h : σ.Tidy) {es : List SymbolId} (hes : es.Nodup) (hopen : ∀ e ∈ es, ¬ σ.Spent e)
    (hn : τ.names = σ.names) (hspent : ∀ e, σ.Spent e → τ.Spent e) (hall : ∀ e ∈ es, τ.Spent e) :
    τ.Unplaced (es.flatMap σ.symbols.shown) := by
  have hsymbols : τ.symbols = σ.symbols := congrArg Names.symbols hn
  -- a column that an open extent has filed is in no join
  have hfiled : ∀ {e key c y join}, e ∈ es → σ.symbols.Files e key c → (σ.symbols.get y).join = some join →
      c ∉ join.columns := by
    intro e key c y join he hf hj hc
    obtain ⟨e', key', hf', hs⟩ := h.brought hj c hc
    exact hopen e he (h.once.extent hf hf' ▸ hs)
  refine ⟨fun c hc => ?_, fun y join hj hy c hc hmem => ?_, fun hp => nodup_flatMap.2 ⟨fun e he => ?_, ?_⟩⟩
  · obtain ⟨e, he, hc⟩ := mem_flatMap.1 hc
    rw [hsymbols]
    rcases mem_shown hc with ⟨key, hf⟩ | ⟨join, hj, hc⟩
    · exact ⟨e, key, hf, hall e he⟩
    · obtain ⟨e', key, hf, hs⟩ := h.brought hj c hc
      exact ⟨e', key, hf, hspent e' hs⟩
  · rw [hsymbols] at hj
    obtain ⟨e, he, hmem⟩ := mem_flatMap.1 hmem
    rcases mem_shown hmem with ⟨key, hf⟩ | ⟨join', hj', hc'⟩
    · exact hfiled he hf hj hc
    · refine h.apart hj hj' ?_ (fun hs => hy (hspent y hs)) (hopen e he) c hc hc'
      rintro rfl
      exact hy (hall y he)
  · have hsub : ∀ c ∈ σ.symbols.shown e, c ∈ es.flatMap σ.symbols.shown := fun c hc => mem_flatMap.2 ⟨e, he, hc⟩
    cases hcols : σ.symbols.shown e with
    | nil => exact nodup_nil
    | cons d _ =>
      have hd : d ∈ σ.symbols.shown e := by rw [hcols]; exact mem_cons_self
      rw [← hcols]
      cases hj : (σ.symbols.get e).join with
      | some join =>
        rw [shown, hj] at hsub ⊢
        exact h.nodup hj fun c hc e' key hf => hsymbols ▸ hp c (hsub c hc) e' key (by rw [hsymbols]; exact hf)
      | none =>
        obtain ⟨key, hf⟩ := (mem_shown hd).resolve_right fun ⟨_, hj', _⟩ => by rw [hj] at hj'; cases hj'
        have hmembers := hp d (hsub d hd) e key (by rw [hsymbols]; exact hf)
        rw [hsymbols] at hmembers
        rw [shown, hj]
        refine pairwise_filterMap.2 (hmembers.imp fun hne c hc c' hc' => ?_)
        rintro rfl
        have hkey := (h.once.key (files_of_column? hc)).symm.trans (h.once.key (files_of_column? hc'))
        simp [same, hkey] at hne
  · refine hes.imp_of_mem fun {e e'} he he' hne c hc hc' => ?_
    rcases mem_shown hc with ⟨key, hf⟩ | ⟨join, hj, hc⟩ <;>
      rcases mem_shown hc' with ⟨key', hf'⟩ | ⟨join', hj', hc'⟩
    · exact hne (h.once.extent hf hf')
    · exact hfiled he hf hj' hc'
    · exact hfiled he' hf' hj hc
    · exact h.apart hj hj' hne (hopen e he) (hopen e' he') c hc hc'

/-! ## Later stores -/

/-- New symbols: columns are registered, marks stay, and a join is old, has no columns or is the next
symbol, with columns that have no place yet. -/
theorem Tidy.withNames (h : σ.Tidy) (hw : σ.symbols.WF) {names : Names} {es : List SymbolId}
    (hf : Symbols.Filing es σ.symbols names.symbols)
    (hr : ∀ name, σ.names.columns.contains name = true → names.columns.contains name = true)
    (hnew : ∀ ⦃e key c⦄, names.symbols.Files e key c → σ.symbols.Files e key c ∨
      names.columns.contains (names.symbols.get c).name = true)
    (hm : ∀ c, (σ.symbols.get c).needsRenaming = true → (names.symbols.get c).needsRenaming = true)
    (hj : ∀ y join, (names.symbols.get y).join = some join → (σ.symbols.get y).join = some join ∨
      join.columns = [] ∨ y = σ.symbols.size ∧ σ.Unplaced join.columns) : (σ.withNames names).Tidy := by
  have hproper : ∀ columns, names.symbols.Proper columns → σ.symbols.Proper columns := by
    intro columns hp c hc e key hfile
    have hmembers := hp c hc e key (hf.old hfile)
    have htype := (hf.grows.symbol e hfile.lt).type
    unfold memberNames at hmembers ⊢
    rwa [← htype]
  have hbrought : ∀ {c}, (∃ e key, σ.symbols.Files e key c ∧ σ.Spent e) →
      ∃ e key, names.symbols.Files e key c ∧ (σ.withNames names).Spent e := by
    rintro c ⟨e, key, hfile, hs⟩
    exact ⟨e, key, hf.old hfile, hs⟩
  refine ⟨hf.once, fun e key c hfile => ?_, fun y join hy c hc => ?_, fun y z join join' hy hz hne hsy hsz c hc hc' => ?_,
    fun y join hy hp => ?_, fun k => ?_⟩
  · rcases hnew hfile with hold | hname
    · have hname : (names.symbols.get c).name = (σ.symbols.get c).name := (hf.grows.symbol c (hw.columns e _ hold).1).name
      exact hr _ (hname ▸ h.registered hold)
    · exact hname
  · rcases hj y join hy with hold | hnil | ⟨-, hu⟩
    · exact hbrought (h.brought hold c hc)
    · rw [hnil] at hc; cases hc
    · exact hbrought (hu.brought c hc)
  · rcases hj y join hy with hold | hnil | ⟨hys, hu⟩
    · rcases hj z join' hz with hold' | hnil | ⟨-, hu⟩
      · exact h.apart hold hold' hne hsy hsz c hc hc'
      · rw [hnil] at hc'; cases hc'
      · exact hu.apart y join hold hsy c hc hc'
    · rw [hnil] at hc; cases hc
    · rcases hj z join' hz with hold' | hnil | ⟨hzs, -⟩
      · exact hu.apart z join' hold' hsz c hc' hc
      · rw [hnil] at hc'; cases hc'
      · exact hne (hys.trans hzs.symm)
  · rcases hj y join hy with hold | hnil | ⟨-, hu⟩
    · exact h.nodup hold (hproper _ hp)
    · rw [hnil]; exact nodup_nil
    · exact hu.nodup (hproper _ hp)
  · exact (h.selects k).mono hproper (fun c d hcd => hcd.grows hf.grows hr hm) id

/-- A new symbol that has no columns, or those of a statement that was just selected. -/
theorem Tidy.pushSymbol (h : σ.Tidy) (hw : σ.symbols.WF) {s : Symbol} (hs : s.columns = [])
    (hj : ∀ join, s.join = some join → join.columns = [] ∨ σ.Unplaced join.columns) :
    (σ.withNames { σ.names with symbols := σ.symbols.push s }).Tidy := by
  have hf : Symbols.Filing [] σ.symbols (σ.symbols.push s) := Symbols.filing_push hw h.once hs
  refine h.withNames hw hf (fun _ hn => hn)
    (fun e key c hf => Or.inl ((Symbols.files_push hs).1 hf)) (fun c hm => ?_) fun y join hy => ?_
  · rw [Symbols.get_push_of_lt]
    · exact hm
    · by_contra hc
      rw [Symbols.get_of_size_le (not_lt.1 hc)] at hm
      cases hm
  · rw [Symbols.get_push] at hy
    split at hy
    · exact Or.inr ((hj join hy).imp id fun hu => ⟨by assumption, hu⟩)
    · exact Or.inl hy

theorem tidy_empty : Tidy ⟨#[], {}⟩ := by
  have hget : ∀ y, (Symbols.get #[] y).join = none := fun y => by rw [Symbols.get_of_size_le (Nat.zero_le _)]; rfl
  refine ⟨Symbols.filedOnce_empty, fun e key c hf => absurd hf.lt (Nat.not_lt_zero _), fun y join hj => ?_,
    fun y z join join' hj => ?_, fun y join hj => ?_, fun k => ?_⟩
  · exact absurd ((hget y).symm.trans hj) nofun
  · exact absurd ((hget y).symm.trans hj) nofun
  · exact absurd ((hget y).symm.trans hj) nofun
  · rw [get_of_size_le (Nat.zero_le _)]; exact selects_nil rfl rfl

/-- Statements that keep their sources and stay selected, where those that change select what they return. -/
theorem Tidy.of_statements (h : σ.Tidy) (hn : τ.names = σ.names)
    (hitems : ∀ k < σ.size, ∀ p ∈ (σ.get k).fromItems, p ∈ (τ.get k).fromItems)
    (hne : ∀ k < σ.size, (σ.get k).selectList ≠ [] → (τ.get k).selectList ≠ [])
    (hs : ∀ k, τ.get k = σ.get k ∨ σ.Selects k (τ.get k)) : τ.Tidy := by
  obtain ⟨statements, names⟩ := τ
  obtain rfl : names = σ.names := hn
  have hspent : ∀ e, σ.Spent e → Spent ⟨statements, σ.names⟩ e := fun e he => he.mono hitems hne
  have hwrapped : ∀ k, σ.Wrapped k → Wrapped ⟨statements, σ.names⟩ k := by
    rintro k ⟨l, hl⟩
    refine ⟨l, hitems l ?_ _ hl⟩
    by_contra hlt
    rw [get_of_size_le (not_lt.1 hlt)] at hl
    cases hl
  refine ⟨h.once, h.registered, fun y join hj c hc => ?_, fun y z join join' hj hj' hyz hy hz =>
    h.apart hj hj' hyz (fun hs => hy (hspent y hs)) fun hs => hz (hspent z hs), h.nodup, fun k => ?_⟩
  · obtain ⟨e, key, hf, he⟩ := h.brought hj c hc
    exact ⟨e, key, hf, hspent e he⟩
  · have hk : σ.Selects k (Store.get ⟨statements, σ.names⟩ k) := (hs k).elim (fun he => he ▸ h.selects k) id
    exact hk.mono (fun _ hp => hp) (fun _ _ hcd => hcd) (hwrapped k)

end Store

end RelSql
