/-
The rows that a statement shows. An open statement shows the rows of its extent, or of several extents
that are about to be one join; one with a select list exposes the members of its rows; and a source
that has no extent yet gets one. Every step between them keeps the members within reach.
-/
import RelSql.Proofs.Build.Stars

namespace RelSql

open RelSql.Part List

open Build (memberNames)

variable {pending : StatementId → Prop}

/-! ## Members of row types -/

namespace DataType

variable {ty : DataType} {n : String} {m : Member}

theorem exists_of_member? (h : ty.member? n = some m) : ∃ name ∈ ty.properties.map Prod.fst, Ident.same name n = true := by
  have hsame := find?_some h
  exact ⟨m.1, mem_map_of_mem (mem_of_find?_eq_some h), hsame⟩

theorem member?_of_mem (h : n ∈ ty.properties.map Prod.fst) : ∃ m, ty.member? n = some m := by
  obtain ⟨m, hm, rfl⟩ := mem_map.1 h
  refine Option.isSome_iff_exists.1 ?_
  rw [member?, findMember?, find?_isSome]
  exact ⟨m, hm, Ident.same_refl _⟩

end DataType

namespace Store

variable {σ τ : Store} {i j : StatementId} {x y : SymbolId} {ty : DataType}

/-! ## What statements show -/

/-- The statement exposes the members of rows of the type. -/
def Supplies (σ : Store) (i : StatementId) (ty : DataType) : Prop := ∀ n m, ty.member? n = some m → σ.Offers i n

theorem Supplies.lasts (h : σ.Supplies i ty) (hl : Lasts σ τ) : τ.Supplies i ty := fun n m hm => (h n m hm).lasts hl

/-- The statement, whose extent is `x`, shows rows of the type: it has a select list that exposes their
members, or its extent shows them. -/
inductive RowsOf (σ : Store) (i : StatementId) (x : SymbolId) (ty : DataType) : Prop where
  | closed (hx : (σ.get i).fromExtents = [x]) (hs : (σ.get i).selectList ≠ []) (h : σ.Supplies i ty)
  | opened (hx : (σ.get i).fromExtents = [x]) (hs : (σ.get i).selectList = []) (hv : σ.Views x ty)
      (hl : ∀ e, σ.symbols.Reaches x e → σ.Starred e)

theorem RowsOf.extents (h : σ.RowsOf i x ty) : (σ.get i).fromExtents = [x] := by
  cases h with
  | closed hx _ _ => exact hx
  | opened hx _ _ _ => exact hx

/-- The extent is to show rows of the type once it is declared behind one of the subselects. -/
inductive Prospect (σ : Store) (pending : StatementId → Prop) (x : SymbolId) (ty : DataType) : Prop where
  | plain (hj : (σ.symbols.get x).join = none) (ht : (σ.symbols.get x).type = some ty) (hr : ty.isRow = true)
      (hp : ∀ j, pending j → σ.Supplies j ty)
  | nested {join : JoinInfo} (input : String → SymbolId) (hj : (σ.symbols.get x).join = some join)
      (hn : join.nested = true) (hi : ∀ n m, ty.member? n = some m → σ.symbols.joinInput? join n = some (input n))
      (h : ∀ n m, ty.member? n = some m → σ.symbols.Through join.columns (input n) m.2)
      (hp : ∀ j, pending j → ∀ c ∈ join.columns, .symbol c ∈ (σ.get j).exposed)

/-- A new extent that has filed nothing and that no statement has declared. -/
structure Unused (σ : Store) (x : SymbolId) : Prop extends Fresh σ x where
  unfiled : ∀ key c, ¬ σ.symbols.Files x key c

/-- The statement declares no extent yet, and `x` is to be the one of its rows. -/
structure Undeclared (σ : Store) (i : StatementId) (x : SymbolId) (ty : DataType) : Prop where
  extents : (σ.get i).fromExtents = []
  select : (σ.get i).selectList = []
  unused : σ.Unused x
  prospect : σ.Prospect (σ.get i).Pending x ty

/-- The statement has several extents, the inputs of a join with rows of the type. -/
structure JoinRows (σ : Store) (i : StatementId) (ty : DataType) : Prop where
  select : (σ.get i).selectList = []
  several : 2 ≤ (σ.get i).fromExtents.length
  starred : ∀ x ∈ (σ.get i).fromExtents, ∀ e, σ.symbols.Reaches x e → σ.Starred e
  inputs : ∃ input : String → SymbolId, ∀ n m, ty.member? n = some m →
    σ.symbols.joinInput? { extents := (σ.get i).fromExtents } n = some (input n) ∧
      (σ.symbols.get (input n)).isPrimitive = false ∧ σ.Views (input n) m.2

/-! ## Declaring an extent -/

section

variable {f : Statement → Statement} {ex : Option (List SymbolId)}

/-- Declaring a new extent keeps the invariant. A nested join has to find its columns in the subselect
before it. -/
theorem ColumnsOK.declare (hc : σ.ColumnsOK) (hok : σ.OK) (hok' : (σ.modify i f).OK) (hi : i < σ.size)
    (hf : f (σ.get i) = { (σ.get i).withExtent x with joinExtents := ex }) (hs : (σ.get i).selectList = [])
    (hx : σ.Unused x) (hn : ∀ join, (σ.symbols.get x).join = some join → ∀ c ∈ join.columns, ∀ j,
      (σ.get i).Pending j → .symbol c ∈ (σ.get j).exposed) :
    (σ.modify i f).ColumnsOK ∧ Lasts σ (σ.modify i f) := by
  have hselect : (f (σ.get i)).selectList = [] := by rw [hf]; exact hs
  have hl : Lasts σ (σ.modify i f) :=
    lasts_modify (fun hne => absurd hs hne) (by rw [hf]; exact prefix_append _ _)
  refine ⟨hc.modify hok hok' hi hl (fun c hmem => ?_) (fun y hy hno => ?_) (fun l hfrom => ?_) ?_, hl⟩
  · rw [Statement.exposed_of_select_nil hselect] at hmem; cases hmem
  · -- the only new alias is the extent
    have hal : (f (σ.get i)).aliases = (σ.get i).aliases ++ [x] := by
      rw [hf]; exact Statement.aliases_withExtent _ x
    rw [hal, mem_append, mem_singleton] at hy
    obtain rfl := hy.resolve_left hno
    intro join hj c hmem j hw
    refine hn join hj c hmem j ?_
    rw [hf] at hw
    exact ((Statement.wraps_withExtent.1 hw).resolve_left fun hw => hno hw.alias).2
  · rw [hf] at hfrom
    change (σ.get i).fromExtents ++ [x] = [l] at hfrom
    refine Or.inr (Or.inr ?_)
    cases hex : (σ.get i).fromExtents with
    | nil => rw [hex] at hfrom; obtain rfl := singleton_inj.1 hfrom; exact hx.unfiled
    | cons y rest => rw [hex] at hfrom; simp at hfrom
  · obtain ⟨hselect, hfrom, hrest⟩ := Statement.forall_mem_clauses.1 (hc.reads i)
    have hreads : ∀ ps ∈ (f (σ.get i)).clauses, σ.Legible ps := by
      rw [hf]
      exact Statement.forall_mem_clauses.2 ⟨hselect, hfrom.append_text (readsOnly_symbol x) (by decide), hrest⟩
    exact fun ps hps => (hreads ps hps).lasts hok hok' hl

/-- Once it is declared, the extent shows its rows. -/
theorem Prospect.views (h : σ.Prospect (σ.get i).Pending x ty) (hi : i < σ.size)
    (hf : f (σ.get i) = { (σ.get i).withExtent x with joinExtents := ex }) (hx : σ.Unused x)
    (hl : Lasts σ (σ.modify i f)) :
    (σ.modify i f).Views x ty ∧ ∀ e, (σ.modify i f).symbols.Reaches x e → (σ.modify i f).Starred e := by
  have hget : (σ.modify i f).get i = f (σ.get i) := get_modify_self hi f
  have halias : x ∈ ((σ.modify i f).get i).aliases := by
    have hal : (f (σ.get i)).aliases = (σ.get i).aliases ++ [x] := by
      rw [hf]; exact Statement.aliases_withExtent _ x
    rw [hget, hal]; simp
  -- the alias is new, so that it names the source that was written last
  have hwraps : ∀ j, ((σ.modify i f).get i).Wraps j x → (σ.get i).Pending j := by
    intro j hw
    rw [hget, hf] at hw
    exact ((Statement.wraps_withExtent.1 hw).resolve_left fun hw => hx.undeclared i hw.alias).2
  have hreach : ∀ e, (σ.modify i f).symbols.Reaches x e → e = x := by
    intro e he
    exact (Symbols.reaches_of_not_flat (Symbol.isFlat_of_stands hx.stands)).1 he
  have hlt : x < σ.symbols.size := Symbols.lt_of_stands hx.stands
  cases h with
  | plain hj ht hr hp =>
    have hnames : memberNames ((σ.modify i f).symbols.get x) = ty.properties.map Prod.fst :=
      Build.memberNames_of_row ht hr
    have hstar : (σ.modify i f).Starred x := by
      intro _ n hn
      rw [hnames] at hn
      obtain ⟨m, hm⟩ := DataType.member?_of_mem hn
      exact Or.inr ⟨i, halias, fun j hw => ⟨hj, ((hp j (hwraps j hw)) n m hm).lasts hl⟩⟩
    refine ⟨.plain hj hlt hstar fun n m hm => ?_, fun e he => by rw [hreach e he]; exact hstar⟩
    rw [hnames]
    exact DataType.exists_of_member? hm
  | nested input hj hn hi' h hp =>
    refine ⟨.nested input hj hn ⟨i, halias⟩ hi' h, fun e he => ?_⟩
    rw [hreach e he]
    intro hnone
    exact absurd (hnone.symm.trans hj) nofun

theorem Prospect.columns (h : σ.Prospect pending x ty) :
    ∀ join, (σ.symbols.get x).join = some join → ∀ c ∈ join.columns, ∀ j, pending j → .symbol c ∈ (σ.get j).exposed := by
  intro join hj c hc j hp
  cases h with
  | plain hnone _ _ _ => exact absurd (hnone.symm.trans hj) nofun
  | nested input hj' _ _ _ hcols =>
    obtain rfl := Option.some.inj (hj.symm.trans hj')
    exact hcols j hp c hc

/-- A statement that selects nothing yet may get a join as its only extent. -/
theorem ColumnsOK.relist (hc : σ.ColumnsOK) (hok : σ.OK) (hok' : (σ.modify i f).OK)
    (hi : i < σ.size) (hs : (σ.get i).selectList = []) (hjoin : (σ.symbols.get x).isJoin = true)
    (hf : ∀ s, f s = s.relisted [x] s.joinExtents) : (σ.modify i f).ColumnsOK ∧ Lasts σ (σ.modify i f) := by
  have hl : Lasts σ (σ.modify i f) := lasts_modify (fun hne => absurd hs hne) (by rw [hf]; exact prefix_refl _)
  refine ⟨hc.modify hok hok' hi hl (fun c hmem => ?_) (fun y hy hno => ?_) (fun l hfrom => ?_) fun ps hps => ?_, hl⟩
  · rw [Statement.exposed_of_select_nil (by rw [hf]; exact hs)] at hmem
    cases hmem
  · rw [hf] at hy
    exact absurd hy hno
  · rw [hf] at hfrom
    obtain rfl := singleton_inj.1 hfrom
    exact Or.inr (Or.inl hjoin)
  · rw [hf] at hps
    exact (hc.reads i ps hps).lasts hok hok' hl

end

end Store

namespace Build

open Store

variable {u : PUnit} {join : Option JoinInfo} {columns : List SymbolId}

variable {σ : Store} {path : Path} {b b' : Build} {i j : StatementId} {x : SymbolId} {ty : DataType} {name : String}

theorem registered_columns (hc : b.store.ColumnsOK) (hok : b.store.OK) (x : SymbolId) :
    (b.registered x).store.ColumnsOK :=
  hc.sameText hok (registered_spec hok x).1.store rfl fun _ => .refl _

/-- What a variable over the statement stands for: its extent, or one that it is to declare. -/
def InputRows (σ : Store) (i : StatementId) (x : SymbolId) (ty : DataType) : Prop :=
  σ.Undeclared i x ty ∨ σ.RowsOf i x ty

theorem unused_registered (h : b.store.Unused x) : (b.registered x).store.Unused x :=
  ⟨⟨h.stands, h.undeclared⟩, h.unfiled⟩

/-- Declaring the first extent of a statement. -/
theorem declareFirst_columns (h : Owns σ path b.store i) (hc : b.store.ColumnsOK)
    (hfrom : (b.store.get i).fromExtents = []) (hs : (b.store.get i).selectList = []) (hx : b.store.Unused x)
    (hn : ∀ join, (b.store.symbols.get x).join = some join → ∀ c ∈ join.columns, ∀ j,
      (b.store.get i).Pending j → .symbol c ∈ (b.store.get j).exposed) (hr : Runs (declareExtent i x) b u b') :
    b'.store = (b.registered x).store.modify i (·.withExtent x) ∧ b'.store.ColumnsOK ∧
      Lasts (b.registered x).store b'.store := by
  have hok' := (declareExtent_spec h (Or.inr ⟨hfrom, hx.toFresh⟩) hr).1.ok
  rw [runs_declareExtent, hfrom] at hr
  obtain ⟨-, hb'⟩ := hr.resolve_left fun hh => nomatch hh.1
  have hstore : b'.store = (b.registered x).store.modify i (·.withExtent x) := by rw [hb']; rfl
  rw [hstore] at hok' ⊢
  exact ⟨rfl, (registered_columns hc h.ok x).declare (registered_spec h.ok x).1.store hok' h.lt rfl hs (unused_registered hx) hn⟩

theorem prospect_registered (h : b.store.Prospect pending x ty) :
    (b.registered x).store.Prospect pending x ty := by
  cases h with
  | plain hj ht hr hp => exact .plain hj ht hr hp
  | nested input hj hn hi h hp => exact .nested input hj hn hi h hp

theorem declareExtent_columns (h : Owns σ path b.store i) (hc : b.store.ColumnsOK) (hx : InputRows b.store i x ty)
    (hr : Runs (declareExtent i x) b u b') :
    b'.store.ColumnsOK ∧ Lasts b.store b'.store ∧ b'.store.RowsOf i x ty := by
  rcases hx with hx | hx
  · obtain ⟨hstore, hc', hl⟩ := declareFirst_columns h hc hx.extents hx.select hx.unused hx.prospect.columns hr
    have hlt : i < (b.registered x).store.size := h.lt
    rw [hstore] at hc' hl ⊢
    obtain ⟨hv, hs⟩ := (prospect_registered hx.prospect).views hlt rfl (unused_registered hx.unused) hl
    refine ⟨hc', (registered_spec h.ok x).1.grows.lasts.trans hl, .opened ?_ ?_ hv hs⟩
    · rw [get_modify_self hlt]
      change (b.store.get i).fromExtents ++ [x] = [x]
      rw [hx.extents]; rfl
    · rw [get_modify_self hlt]
      exact hx.select
  · rw [runs_declareExtent, hx.extents] at hr
    obtain ⟨-, rfl⟩ := hr.resolve_right fun hh => hh.1 rfl
    exact ⟨hc, .refl _, hx⟩

/-! ## New extents -/

/-- What an extent over a subselect needs to show rows of the type: as a plain one the columns of that
name, as a nested join the columns of a star. -/
def Bridges (σ : Store) (pending : StatementId → Prop) (ty : DataType) : Option JoinInfo → Prop
  | none => ty.isRow = true ∧ ∀ j, pending j → σ.Supplies j ty
  | some join => join.nested = true ∧ σ.Apart join ∧
      (∃ input : String → SymbolId, ∀ n m, ty.member? n = some m →
        σ.symbols.joinInput? join n = some (input n) ∧ σ.symbols.Through join.columns (input n) m.2) ∧
      ∀ j, pending j → ∀ c ∈ join.columns, .symbol c ∈ (σ.get j).exposed

/-- A new symbol that is marked for nothing, and apart if it is a join, keeps the invariant. -/
theorem newSymbol_columns {s : Symbol} (hc : b.store.ColumnsOK) (hok : b.store.OK) (hok' : b'.store.OK)
    (hb' : b' = { b with names := { b.names with symbols := b.names.symbols.push s } }) (hcols : s.columns = [])
    (hmark : s.needsRenaming = false) (hap : ∀ j ∈ s.join, b.store.Apart j) :
    b'.store.ColumnsOK ∧ Lasts b.store b'.store := by
  have hsymbols : b'.store.symbols = b.store.symbols.push s := by rw [hb']; rfl
  have hst : b'.store.statements = b.store.statements := by rw [hb']; rfl
  have hf : Symbols.Filing [] b.store.symbols b'.store.symbols := by
    rw [hsymbols]; exact Symbols.filing_push hok.symbols hok.tidy.once hcols
  have hget : ∀ k, b'.store.get k = b.store.get k := fun k => by unfold Store.get; rw [hst]
  refine ⟨hc.withNames hok hok' hst hf nofun (fun c hm => ?_) fun y join hj => ?_,
    .of_sameText hf.grows fun k _ => by rw [hget]; exact .refl _⟩
  · rw [hsymbols, Symbols.get_push] at hm
    split at hm
    · rw [hmark] at hm; cases hm
    · exact hm
  · rw [hsymbols, Symbols.get_push] at hj
    split at hj
    · refine Or.inr fun c hmem k l key hfrom hlj hfile => ?_
      rw [hget] at hfrom
      have hlt := ((hok.statement k).fromExtents l (by rw [hfrom]; exact mem_singleton_self l)).lt
      rw [(hf.grows.symbol l hlt).join] at hlj
      rw [hsymbols, Symbols.files_push hcols] at hfile
      exact hap join hj c hmem k l key hfrom hlj hfile
    · exact Or.inl hj

/-- A new extent has the name and the type that it was made with. -/
theorem newExtent_symbol (hr : Runs (newExtent name ty join) b x b') :
    b'.store.symbols.get x = join.elim (.extent name ty) (.joined name ty) := by
  cases join with
  | none | some join =>
    obtain ⟨rfl, hb'⟩ := runs_newSymbol.1 hr
    rw [hb']; exact (Symbols.get_push _ _ _).trans (if_pos rfl)

theorem newExtent_columns (hc : b.store.ColumnsOK) (hok : b.store.OK) (hj : ∀ j ∈ join, Nests b.store j)
    (hshow : Bridges b.store pending ty join) (hr : Runs (newExtent name ty join) b x b') :
    b'.store.ColumnsOK ∧ Lasts b.store b'.store ∧ b'.store.Unused x ∧ b'.store.Prospect pending x ty := by
  obtain ⟨hn, hfresh⟩ := newExtent_spec hr hok hj
  have hx := newExtent_symbol hr
  cases join with
  | none =>
    obtain ⟨rfl, hb'⟩ := runs_newSymbol.1 hr
    obtain ⟨hc', hl⟩ := newSymbol_columns hc hok hn.store hb' rfl rfl nofun
    refine ⟨hc', hl, ⟨hfresh, fun key c hf => ?_⟩, .plain (by rw [hx]; rfl) (by rw [hx]; rfl) hshow.1 fun j hp => ?_⟩
    · rw [Symbols.Files, hx] at hf; cases hf
    · exact (hshow.2 j hp).lasts hl
  | some join =>
    obtain ⟨rfl, hb'⟩ := runs_newSymbol.1 hr
    obtain ⟨hnest, hap, ⟨input, hin⟩, hp⟩ := hshow
    obtain ⟨hc', hl⟩ := newSymbol_columns hc hok hn.store hb' rfl rfl (by rintro j ⟨rfl⟩; exact hap)
    refine ⟨hc', hl, ⟨hfresh, fun key c hf => ?_⟩, .nested input (by rw [hx]; rfl) hnest (fun n m hm => ?_)
      (fun n m hm => (hin n m hm).2.grows hok.symbols hl.symbols) fun j hj c hmem => hl.exposed (hp j hj c hmem)⟩
    · rw [Symbols.Files, hx] at hf; cases hf
    · rw [Symbols.joinInput?_eq hl.symbols (hj join rfl).ok.extents]
      exact (hin n m hm).1

/-! ## Stars -/

/-- Columns of a star are apart if the star is one of a join. -/
theorem apart_of_exposed (hc : σ.ColumnsOK) (hok : σ.OK) (hi : ∀ l, (σ.get i).fromExtents = [l] → (σ.symbols.get l).join ≠ none)
    {join : JoinInfo} (h : ∀ c ∈ join.columns, .symbol c ∈ (σ.get i).exposed) : σ.Apart join := by
  intro c hmem k l key hfrom hlj hfile
  obtain ⟨y, hy, e, hr, he⟩ := hc.listed (h c hmem)
  rcases he with ⟨hej, key', hfile'⟩ | ⟨join', hj', hmem'⟩
  · -- the extent that filed the column is the only one of both statements
    obtain rfl := hok.tidy.once.extent hfile hfile'
    have hk : l ∈ (σ.get k).aliases :=
      (hok.statement k).leaves l (by rw [hfrom]; exact mem_singleton_self l) l (.self (by rw [Symbol.isFlat, hlj]))
    obtain rfl := hok.unique i k l ((hok.statement i).leaves y hy l hr) hk
    exact hi l hfrom hlj
  · exact hc.apart hj' c hmem' k l key hfrom hlj hfile

/-- A star that covers the extent exposes the members of its rows. -/
theorem supplies_of_through (hx : (σ.get i).fromExtents = [x]) (hne : columns ≠ [])
    (he : (σ.get i).exposed = columns.map Part.symbol) (ht : σ.symbols.Through columns x ty) : σ.Supplies i ty := by
  intro n m hm
  cases ht with
  | plain hj _ h =>
    obtain ⟨c, hmem, hcol⟩ := h n m hm
    exact Or.inr (Or.inl ⟨x, c, hx, hj, hcol, by rw [he]; exact mem_map_of_mem hmem⟩)
  | @join _ _ join input hj hi h =>
    obtain ⟨c, hmem⟩ := exists_mem_of_ne_nil _ hne
    have hinput := find?_some (hi n m hm)
    exact Or.inr (Or.inr ⟨⟨c, by rw [he]; exact mem_map_of_mem hmem⟩, x, join, input n, hx, hj,
      mem_of_joinInput? (hi n m hm), (h n m hm).lt, hinput⟩)

/-- All columns of a statement that shows rows: its extent is found in them. -/
theorem selectAll_through (h : Owns σ path b.store i) (hc : b.store.ColumnsOK)
    (hx : (b.store.get i).fromExtents = [x]) (hs : (b.store.get i).selectList = []) (hv : b.store.Views x ty)
    (hstar : ∀ e, b.store.symbols.Reaches x e → b.store.Starred e) (hr : Runs (selectAll i) b columns b') :
    b'.store.ColumnsOK ∧ Lasts b.store b'.store ∧ columns ≠ [] ∧ (b'.store.get i).fromExtents = [x] ∧
      (b'.store.get i).exposed = columns.map Part.symbol ∧ b'.store.symbols.Through columns x ty := by
  have hleaves : ∀ e ∈ b.store.symbols.leaves x, e ∈ starLeaves b.store i :=
    fun e he => mem_flatMap.2 ⟨x, by rw [hx]; exact mem_singleton_self x, he⟩
  obtain ⟨hc', hl, hne, hexp, hcov⟩ := selectAll_columns h hc hs (by rw [hx]; simpa using hstar) hr
  exact ⟨hc', hl, hne, (selectAll_spec h hs hr).2.2.2.1.trans hx, hexp,
    hv.through h.ok.symbols hl.symbols hv.lt fun e he => hcov e (hleaves e he)⟩

/-- A statement that shows rows, with a select list. -/
theorem selectAllIfNone_columns (h : Owns σ path b.store i) (hc : b.store.ColumnsOK) (hx : b.store.RowsOf i x ty)
    (hr : Runs (selectAllIfNone i) b u b') :
    b'.store.ColumnsOK ∧ Lasts b.store b'.store ∧ (b'.store.get i).fromExtents = [x] ∧
      (b'.store.get i).selectList ≠ [] ∧ b'.store.Supplies i ty := by
  rcases selectAllIfNone_cases hr with ⟨hnil, columns, hr⟩ | ⟨hne, rfl⟩
  · cases hx with
    | closed _ hs _ => exact absurd hnil hs
    | opened hx hs hv hstar =>
      obtain ⟨hc', hl, hne, hx', hexp, ht⟩ := selectAll_through h hc hx hs hv hstar hr
      refine ⟨hc', hl, hx', ?_, supplies_of_through hx' hne hexp ht⟩
      obtain ⟨c, hmem⟩ := exists_mem_of_ne_nil _ hne
      exact Statement.select_ne_nil_of_exposed (c := .symbol c) (by rw [hexp]; exact mem_map_of_mem hmem)
  · cases hx with
    | closed hx hs h => exact ⟨hc, .refl _, hx, hs, h⟩
    | opened _ hs _ _ => exact absurd hs hne

/-! ## Subselects -/

/-- The statement that was starred as a subselect. -/
theorem nestedJoin?_bridges (hok : b.store.OK) (hc : b.store.ColumnsOK) (hrow : ty.isRow = true)
    (hx : (b.store.get i).fromExtents = [x]) (hne : columns ≠ [])
    (hexp : (b.store.get i).exposed = columns.map Part.symbol) (ht : b.store.symbols.Through columns x ty)
    (hr : Runs (nestedJoin? i columns) b join b') : Bridges b.store (· = i) ty join := by
  obtain ⟨rfl, -⟩ := runs_nestedJoin?.1 hr
  rw [hx, head?_cons, Option.bind_some]
  have hsup := supplies_of_through hx hne hexp ht
  cases ht with
  | plain hj _ _ =>
    rw [hj]
    exact ⟨hrow, fun j hj => by rw [hj]; exact hsup⟩
  | @join _ _ info input hj hi h =>
    rw [hj]
    have hmem : ∀ c ∈ columns, .symbol c ∈ (b.store.get i).exposed :=
      fun c hc => by rw [hexp]; exact mem_map_of_mem hc
    refine ⟨rfl, apart_of_exposed hc hok (fun l hl => ?_) hmem, ⟨input, fun n m hm => ⟨hi n m hm, h n m hm⟩⟩,
      fun j hji c hc => by rw [hji]; exact hmem c hc⟩
    obtain rfl := singleton_inj.1 (hx.symm.trans hl)
    rw [hj]; simp

theorem pending_overSubselect (h : (overSubselect i).Pending j) : j = i := by
  obtain ⟨p, hp, hsuf⟩ := h
  have hitems : (overSubselect i).fromItems = [.enclosed (.statement i)] := rfl
  rw [hitems] at hsuf
  obtain rfl := FromItem.enclosed.inj (singleton_inj.1 (hsuf.eq_of_length rfl))
  exact (Option.some.inj hp).symm

/-- A new statement over a subselect keeps the invariant. -/
theorem columns_overSubselect {τ : Store} (hc : τ.ColumnsOK) (hok : τ.OK) (hok' : (τ.push (overSubselect i)).OK)
    (hx : τ.Unused x) : (τ.push (overSubselect i)).ColumnsOK ∧ (τ.push (overSubselect i)).Unused x := by
  refine ⟨hc.push hok hok' rfl rfl rfl ?_, ⟨hx.stands, fun k => ?_⟩, hx.unfiled⟩
  · simp [Statement.forall_mem_clauses, overSubselect, Legible]
  · rw [get_push]
    split
    · exact not_mem_nil
    · exact hx.undeclared k

/-- A new extent and a new statement over a subselect. -/
theorem newSubselect_columns {b1 : Build} (h : Owns σ path b.store i) (hc : b.store.ColumnsOK)
    (hj : ∀ j ∈ join, Nests b.store j) (hshow : Bridges b.store (· = i) ty join)
    (hx : Runs (newExtent name ty join) b x b1)
    (hb' : b' = { b1 with statements := b1.statements.push (overSubselect i) }) :
    b'.store.ColumnsOK ∧ b'.store.Undeclared b1.store.size x ty ∧ b'.store.get b1.store.size = overSubselect i := by
  have hok' := (newSubselect_spec h hj hx hb').1.ok
  obtain ⟨hn, -⟩ := newExtent_spec hx h.ok hj
  obtain ⟨hc1, -, hunused, hpros⟩ := newExtent_columns hc h.ok hj hshow hx
  have hstore : b'.store = b1.store.push (overSubselect i) := by rw [hb']; rfl
  rw [hstore] at hok' ⊢
  have hl := lasts_push b1.store (overSubselect i)
  obtain ⟨hc', hunused'⟩ := columns_overSubselect hc1 hn.store hok' hunused
  refine ⟨hc', ⟨by rw [get_push_size]; rfl, by rw [get_push_size]; rfl, hunused', ?_⟩, get_push_size _ _⟩
  rw [get_push_size]
  cases hpros with
  | plain hj ht hr hp => exact .plain hj ht hr fun j hjp => (hp j (pending_overSubselect hjp)).lasts hl
  | nested input hj hn hi h hp =>
    exact .nested input hj hn hi h fun j hjp c hmem => hl.exposed (hp j (pending_overSubselect hjp) c hmem)

/-- A statement that shows rows as a subselect of a new one. -/
theorem subselect_columns {outer : StatementId} {y : SymbolId} (h : Owns σ path b.store i) (hc : b.store.ColumnsOK)
    (hrow : ty.isRow = true) (hx : b.store.RowsOf i x ty) (hr : Runs (subselect i name ty true) b (outer, y) b') :
    b'.store.ColumnsOK ∧ b'.store.Undeclared outer y ty ∧ b'.store.get outer = overSubselect i := by
  obtain ⟨join, b1, b2, ⟨-, hnil, columns, hsel, hnest⟩ | ⟨hne, rfl, rfl⟩, hz, rfl, hb'⟩ := subselect_cases hr
  · cases hx with
    | closed _ hs _ => exact absurd hnil hs
    | opened hx hs hv hstar =>
      obtain ⟨h1, -, hcol, -, hu⟩ := selectAll_spec h hs hsel
      obtain ⟨hc1, -, hne, hx1, hexp, ht⟩ := selectAll_through h hc hx hs hv hstar hsel
      have hbridge := nestedJoin?_bridges h1.ok hc1 hrow hx1 hne hexp ht hnest
      obtain ⟨-, hj⟩ := nestedJoin?_spec h1.ok hcol hu hnest
      exact newSubselect_columns h1 hc1 hj hbridge hz hb'
  · cases hx with
    | closed _ _ hsup =>
      have hbridge : Bridges b1.store (· = i) ty none := ⟨hrow, fun j hj => by rw [hj]; exact hsup⟩
      exact newSubselect_columns h hc (by simp) hbridge hz hb'
    | opened _ hs _ _ => exact absurd hs (hne rfl)

/-! ## Inputs -/

/-- Several extents become the inputs of one flat join. -/
theorem merge_columns {join : JoinInfo} {f : Statement → Statement} (hok : b.store.OK) (hok' : b'.store.OK)
    (hi : i < b.store.size) (hc : b.store.ColumnsOK) (hx : b.store.JoinRows i ty)
    (hj : join = { extents := (b.store.get i).fromExtents, flattened := join.flattened })
    (hf : ∀ s, f s = s.relisted [b.names.symbols.size] s.joinExtents)
    (hb' : b' = { b with
      names := { b.names with symbols := b.names.symbols.push (.joined name ty join) }
      statements := b.statements.modify i f }) :
    b'.store.ColumnsOK ∧ Lasts b.store b'.store ∧ b'.store.RowsOf i b.names.symbols.size ty := by
  have hext : join.extents = (b.store.get i).fromExtents := by rw [hj]
  have hflat : join.nested = false := by rw [hj]
  have hnocols : join.columns = [] := by rw [hj]
  generalize hb1 : ({ b with
    names := { b.names with symbols := b.names.symbols.push (.joined name ty join) } } : Build) = b1
  have hok1 : b1.store.OK := by
    have hw : b'.names.symbols.WF := hok'.symbols
    rw [hb'] at hw
    rw [← hb1]
    exact hok.withNames hw (Symbols.grows_push _ _) (fun _ h => h)
      (hok.tidy.pushSymbol hok.symbols rfl (by rintro j ⟨rfl⟩; exact Or.inl hnocols))
  obtain ⟨hc1, hl1⟩ := newSymbol_columns hc hok hok1 hb1.symm rfl rfl (by
    rintro j ⟨rfl⟩ c hmem
    rw [hnocols] at hmem; cases hmem)
  have hget : b1.store.get i = b.store.get i := by rw [← hb1]; rfl
  have hi1 : i < b1.store.size := by rw [← hb1]; exact hi
  have hstore : b'.store = b1.store.modify i f := by rw [hb', ← hb1]; rfl
  have hjoin : (b1.store.symbols.get b.names.symbols.size).join = some join := by
    have hnew : b1.store.symbols.get b.names.symbols.size = .joined name ty join := by
      rw [← hb1]; exact (Symbols.get_push _ _ _).trans (if_pos rfl)
    rw [hnew]; rfl
  have hselect : (b1.store.get i).selectList = [] := by rw [hget]; exact hx.select
  rw [hstore] at hok' ⊢
  obtain ⟨hc', hl⟩ := hc1.relist hok1 hok' hi1 hselect (by rw [Symbol.isJoin, hjoin]; rfl) hf
  have hlast := hl1.trans hl
  obtain ⟨input, hin⟩ := hx.inputs
  refine ⟨hc', hlast, .opened ?_ ?_ (.flat input hjoin hflat (fun n m hm => ?_) (fun n m hm => ?_) fun n m hm => ?_)
    fun e he => ?_⟩
  · rw [get_modify_self hi1, hf]; rfl
  · rw [get_modify_self hi1, hf]; exact hselect
  · have hnames : b.store.symbols.joinInput? join n = some (input n) := by
      have hfound := (hin n m hm).1
      unfold Symbols.joinInput? at hfound ⊢
      rw [hext]; exact hfound
    refine (Symbols.joinInput?_eq hlast.symbols fun e he => ?_).trans hnames
    rw [hext] at he
    exact ((hok.statement i).fromExtents e he).lt
  · have hprim := (hin n m hm).2.1
    unfold Symbol.isPrimitive at hprim ⊢
    rw [(hlast.symbols.symbol _ (hin n m hm).2.2.lt).type]; exact hprim
  · exact (hin n m hm).2.2.lasts hok hok' hlast
  · obtain ⟨y, hy, he⟩ := (Symbols.reaches_of_flat hjoin hflat).1 he
    rw [hext] at hy
    have hlt := ((hok.statement i).fromExtents y hy).lt
    have he' : b.store.symbols.Reaches y e := he.of_grows hok.symbols hlast.symbols hlt
    exact (hx.starred y hy e he').lasts (Reaches_lt hok hy he') hok hok' hlast

end Build

end RelSql
