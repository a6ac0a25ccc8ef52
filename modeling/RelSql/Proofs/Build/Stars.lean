/-
Selecting all columns of a statement. A star files a column for each member of each plain extent and
takes over the columns of nested joins, so every row that the extents show can be found in it again.
-/
import RelSql.Proofs.Build.Views

namespace RelSql

open RelSql.Part Symbols List Store

/-! ## What a star covers -/

theorem Build.memberNames_of_row {s : Symbol} {ty : DataType} (ht : s.type = some ty) (hr : ty.isRow = true) :
    memberNames s = ty.properties.map Prod.fst := by
  unfold memberNames
  rw [ht]
  cases ty with
  | row ms => rfl
  | primitive k f => cases hr
  | collection e => cases hr

theorem Build.isPrimitive_of_row {s : Symbol} {ty : DataType} (ht : s.type = some ty) (hr : ty.isRow = true) :
    s.isPrimitive = false := by
  unfold Symbol.isPrimitive
  rw [ht]
  cases ty with
  | row ms => rfl
  | primitive k f => cases hr
  | collection e => cases hr

namespace Symbols

open Build (memberNames)

/-- All columns of the extent are among the columns. -/
def Covered (symbols : Symbols) (columns : List SymbolId) (e : SymbolId) : Prop :=
  match (symbols.get e).join with
  | none => ∀ m ∈ memberNames (symbols.get e), ∃ c ∈ columns, (symbols.get e).column? m = some c
  | some join => ∀ c ∈ join.columns, c ∈ columns

variable {xs ys : Symbols} {e : SymbolId} {columns : List SymbolId}

theorem Covered.grows (h : xs.Covered columns e) (he : e < xs.size) (hg : Grows xs ys) : ys.Covered columns e := by
  have hs := hg.symbol e he
  unfold Covered at h ⊢
  rw [hs.join]
  cases hj : (xs.get e).join with
  | some join => rw [hj] at h; exact h
  | none =>
    rw [hj] at h
    intro m hm
    unfold memberNames at hm
    rw [hs.type] at hm
    obtain ⟨c, hc, hcol⟩ := h m hm
    exact ⟨c, hc, hs.column m c hcol⟩

theorem Covered.mono {columns' : List SymbolId} (h : xs.Covered columns e) (hc : ∀ c ∈ columns, c ∈ columns') :
    xs.Covered columns' e := by
  unfold Covered at h ⊢
  split at h
  · intro m hm
    obtain ⟨c, hmem, hcol⟩ := h m hm
    exact ⟨c, hc c hmem, hcol⟩
  · exact fun c hmem => hc c (h c hmem)

end Symbols

/-- What an extent shows can be found among columns that cover all that it stands for. -/
theorem Store.Views.through {σ τ : Store} {x : SymbolId} {ty : DataType} {columns : List SymbolId} (h : σ.Views x ty)
    (hw : σ.symbols.WF) (hg : σ.symbols.Grows τ.symbols) : ∀ {depth : Nat}, x < depth →
      (∀ e ∈ σ.symbols.expand depth x, τ.symbols.Covered columns e) → τ.symbols.Through columns x ty := by
  induction h with
  | @plain x ty hj hx hs hm =>
    intro depth hd hc
    obtain ⟨d, rfl⟩ := Nat.exists_eq_succ_of_ne_zero (Nat.ne_of_gt (Nat.zero_lt_of_lt hd))
    have hself := hc x (by unfold expand; rw [hj]; exact mem_singleton_self x)
    have hgx := hg.symbol x hx
    refine .plain (by rw [hgx.join]; exact hj) (lt_of_lt_of_le hx hg.size) fun n m hmem => ?_
    obtain ⟨name, hname, hsame⟩ := hm n m hmem
    unfold Symbols.Covered at hself
    rw [hgx.join, hj] at hself
    unfold Build.memberNames at hself hname
    rw [hgx.type] at hself
    obtain ⟨c, hcc, hcol⟩ := hself name hname
    refine ⟨c, hcc, ?_⟩
    unfold Symbol.column? at hcol ⊢
    rw [← Ident.same_iff.1 hsame]; exact hcol
  | @flat x ty join input hj hn hi hp h ih =>
    intro depth hd hc
    obtain ⟨d, rfl⟩ := Nat.exists_eq_succ_of_ne_zero (Nat.ne_of_gt (Nat.zero_lt_of_lt hd))
    refine .join input (by rw [(hg.symbol x (lt_of_join hj)).join]; exact hj) (fun n m hm => ?_) fun n m hm => ?_
    · rw [joinInput?_grows hw hg hj]; exact hi n m hm
    · have hmem := Build.mem_of_joinInput? (hi n m hm)
      refine ih n m hm (lt_of_lt_of_le ((hw.joins x join hj).extents _ hmem) (Nat.lt_succ_iff.1 hd)) fun e he => hc e ?_
      unfold expand
      simp only [hj, hn, Bool.false_eq_true, if_false]
      exact mem_flatMap.2 ⟨_, mem_filter.2 ⟨hmem, by rw [hp n m hm]; rfl⟩, he⟩
  | @nested x ty join input hj hn hx hi h =>
    intro depth hd hc
    obtain ⟨d, rfl⟩ := Nat.exists_eq_succ_of_ne_zero (Nat.ne_of_gt (Nat.zero_lt_of_lt hd))
    have hself := hc x (by unfold expand; simp only [hj, hn, if_true]; exact mem_singleton_self x)
    have hjx : (τ.symbols.get x).join = some join := by rw [(hg.symbol x (lt_of_join hj)).join]; exact hj
    unfold Symbols.Covered at hself
    rw [hjx] at hself
    refine .join input hjx (fun n m hm => ?_) fun n m hm => ((h n m hm).grows hw hg).mono hself
    rw [joinInput?_grows hw hg hj]; exact hi n m hm

namespace Build

/-! ## The columns of a star -/

/-- The column of a star is a column of the extent: the one that is filed under the name of a member,
or one that a nested join brings along. -/
def StarOf (symbols : Symbols) (e : SymbolId) (s : StarColumn) : Prop :=
  s.source = e ∧ match s.member with
    | some m => (symbols.get e).join = none ∧ m ∈ memberNames (symbols.get e) ∧
        (symbols.get e).column? m = some s.column
    | none => ∃ join, (symbols.get e).join = some join ∧ s.column ∈ join.columns

theorem StarsAt.starOf {symbols : Symbols} {e : SymbolId} {stars : List StarColumn} (h : StarsAt symbols e stars) :
    ∀ s ∈ stars, StarOf symbols e s := by
  intro s hs
  refine ⟨h.source s hs, ?_⟩
  unfold StarsAt at h
  cases hj : (symbols.get e).join with
  | some join =>
    rw [hj] at h
    obtain ⟨c, hc, rfl⟩ := mem_map.1 (h ▸ hs)
    exact ⟨join, rfl, hc⟩
  | none =>
    rw [hj] at h
    obtain ⟨n, hn, rfl⟩ := getElem_of_mem hs
    have hn' : n < (memberNames (symbols.get e)).length := by rw [h.length_eq]; exact hn
    obtain ⟨-, hmember, hcol⟩ := h.get hn' hn
    rw [get_eq_getElem] at hmember
    rw [hmember]
    exact ⟨rfl, getElem_mem hn', hcol⟩

theorem StarsAt.covered {symbols : Symbols} {e : SymbolId} {stars : List StarColumn} (h : StarsAt symbols e stars) :
    symbols.Covered (stars.map StarColumn.column) e := by
  have hshown := h.shown
  unfold StarsAt at h
  unfold Symbols.Covered
  rw [hshown, Symbols.shown]
  cases hj : (symbols.get e).join with
  | some join => exact fun c hc => hc
  | none =>
    rw [hj] at h
    intro m hm
    obtain ⟨n, hn, rfl⟩ := getElem_of_mem hm
    have hcol := (h.get hn (by rw [← h.length_eq]; exact hn)).2.2
    exact ⟨_, mem_filterMap.2 ⟨_, hm, hcol⟩, hcol⟩

/-! ## The select list of a star -/

section

variable {σ : Store} {i : StatementId} {stars : List StarColumn}

theorem legible_star {e : SymbolId} {s : StarColumn} (hc : σ.ColumnsOK) (ha : e ∈ (σ.get i).aliases) (hstar : σ.Starred e)
    (hs : StarOf σ.symbols e s) : σ.Legible s.parts := by
  obtain ⟨rfl, hs⟩ := hs
  unfold StarColumn.parts
  cases hm : s.member with
  | none =>
    rw [hm] at hs
    obtain ⟨join, hj, hmem⟩ := hs
    exact readsOnly_column (by simp) (hc.readable_nested ha hj hmem)
  | some m =>
    rw [hm] at hs
    obtain ⟨hj, hmem, -⟩ := hs
    have hcolumn : σ.Legible [.symbol s.source, .text ".", .text m] :=
      readsOnly_column (by simp) (hstar hj m hmem)
    change σ.Legible ([.symbol s.source, .text ".", .text m] ++ .text " AS " :: [.symbol s.column])
    exact Part.ReadsOnly.append_text hcolumn (readsOnly_symbol s.column) (by decide)

variable {b b' : Build}

/-- The columns that were filed for the star of a statement. -/
theorem starsOf_starsAt {starss : List (List StarColumn)} (hok : b.store.OK) (hn : StarStep (starLeaves b.store i) b b')
    (h : List.Forall₂ (StarsAt b'.names.symbols) (starLeaves b.store i) starss) :
    (∀ s ∈ starss.flatten, ∃ x ∈ (b'.store.get i).fromExtents, ∃ e, b'.store.symbols.Reaches x e ∧
        StarOf b'.store.symbols e s) ∧
      ∀ e ∈ starLeaves b.store i, b'.store.symbols.Covered (starss.flatten.map StarColumn.column) e := by
  refine ⟨fun s hs => ?_, fun e he => ?_⟩
  · obtain ⟨e, he, stars, -, hstars, hs⟩ := exists_starsAt h hs
    obtain ⟨x, hx, hr⟩ := reaches_of_mem_starLeaves he
    exact ⟨x, by rw [hn.get i]; exact hx, e,
      hr.grows hok.symbols hn.filing.grows ((hok.statement i).fromExtents x hx).lt, hstars.starOf s hs⟩
  · obtain ⟨n, hn, rfl⟩ := getElem_of_mem he
    have hn' : n < starss.length := by rw [← h.length_eq]; exact hn
    refine (h.get hn hn').covered.mono fun c hc => ?_
    obtain ⟨s, hs, rfl⟩ := mem_map.1 hc
    exact mem_map_of_mem (mem_flatten.2 ⟨_, getElem_mem hn', hs⟩)

theorem lasts_star (hs : (σ.get i).selectList = []) :
    Lasts σ ((σ.withNames (marked σ.names (stars.map StarColumn.column))).modify i (withStar stars)) := by
  have hmarked : Lasts σ (σ.withNames (marked σ.names (stars.map StarColumn.column))) :=
    .of_sameText (grows_markClashes _ _ _) fun k _ => .refl _
  exact hmarked.trans (lasts_modify (fun hne => absurd hs hne) (prefix_refl _))

/-- Marking the columns of a star and selecting them keeps the invariant. -/
theorem columnsOK_star {τ : Store} (hc : σ.ColumnsOK) (hok : σ.OK) (hok' : τ.OK) (hi : i < σ.size)
    (hs : (σ.get i).selectList = [])
    (hτ : τ = (σ.withNames (marked σ.names (stars.map StarColumn.column))).modify i (withStar stars))
    (hsource : ∀ s ∈ stars, ∃ x ∈ (σ.get i).fromExtents, ∃ e, σ.symbols.Reaches x e ∧ StarOf σ.symbols e s)
    (hstar : ∀ x ∈ (σ.get i).fromExtents, ∀ e, σ.symbols.Reaches x e → σ.Starred e) :
    τ.ColumnsOK ∧ Lasts σ τ ∧ (τ.get i).exposed = stars.map fun s => .symbol s.column := by
  have hsymbols : τ.symbols = σ.symbols.markClashes [] (stars.map StarColumn.column) := by rw [hτ]; rfl
  have hf : Symbols.Filing [] σ.symbols τ.symbols := by
    rw [hsymbols]; exact filing_markClashes hok.tidy.once _ _
  have hget : τ.get i = withStar stars (σ.get i) := by
    rw [hτ]; exact get_modify_self (σ := σ.withNames _) hi _
  have hother : ∀ {k}, k ≠ i → τ.get k = σ.get k := fun hk => by
    rw [hτ]; exact get_modify_of_ne (σ := σ.withNames _) hk _
  have hl : Lasts σ τ := by rw [hτ]; exact lasts_star hs
  have hlist : (τ.get i).selectList = separated ", " (stars.map StarColumn.parts) := by
    rw [hget, withStar, hs]; rfl
  have hexposed := Statement.exposed_stars hlist
  refine ⟨hc.later hok hok' hl hf (forall_mem_nil _) (fun c hm => ?_) (fun y join hj => Or.inl ?_) (fun k c hmem => ?_)
    (fun k y hy => Or.inl ?_) (fun k l hk => Or.inl ?_) fun k ps hps => ?_, hl, hexposed⟩
  · rw [hsymbols] at hm
    refine (marked_markClashes _ (forall_mem_nil _) hm).imp id ?_
    rintro ⟨hmem, c', hmem', hne, hkey⟩
    have hin : ∀ d ∈ stars.map StarColumn.column, .symbol d ∈ (τ.get i).exposed := by
      intro d hd
      obtain ⟨s, hs, rfl⟩ := mem_map.1 hd
      rw [hexposed]; exact mem_map.2 ⟨s, hs, rfl⟩
    refine ⟨i, c', hne, ?_, hin c (by simpa using hmem), hin c' (by simpa using hmem')⟩
    rw [hsymbols, name_markClashes, name_markClashes]; exact hkey
  · rw [hsymbols] at hj
    obtain ⟨f, hf⟩ := get_markClashes (stars.map StarColumn.column) σ.symbols [] y
    rw [hf] at hj; exact hj
  · by_cases hk : k = i
    · subst hk
      rw [hexposed] at hmem
      obtain ⟨s, hs, hcol⟩ := mem_map.1 hmem
      obtain rfl := symbol.inj hcol
      obtain ⟨x, hx, e, hr, -, hof⟩ := hsource s hs
      have hholds : σ.Holds e s.column := by
        split at hof
        · exact Or.inl ⟨hof.1, _, files_of_column? hof.2.2⟩
        · exact Or.inr hof
      exact Or.inr ⟨x, by rw [hget]; exact hx, e,
        hr.grows hok.symbols hf.grows ((hok.statement k).fromExtents x hx).lt, hholds.filing hf (Reaches_lt hok hx hr)⟩
    · rw [hother hk] at hmem; exact Or.inl hmem
  · by_cases hk : k = i
    · subst hk; rw [hget] at hy; exact hy
    · rw [hother hk] at hy; exact hy
  · by_cases hki : k = i
    · subst hki; rw [hget] at hk; exact hk
    · rw [hother hki] at hk; exact hk
  · by_cases hk : k = i
    · subst hk
      -- only the select list is new
      rcases mem_cons.1 hps with rfl | hps
      · refine Or.inr (Legible.lasts ?_ hok hok' hl)
        rw [hlist, separated]
        refine readsOnly_separated (by decide) fun item hitem => ?_
        obtain ⟨s, hmem, rfl⟩ := mem_map.1 hitem
        obtain ⟨x, hx, e, hr, hof⟩ := hsource s hmem
        exact legible_star hc ((hok.statement k).leaves x hx e hr) (hstar x hx e hr) hof
      · rw [hget] at hps
        exact Or.inl (mem_cons_of_mem _ hps)
    · rw [hother hk] at hps; exact Or.inl hps

/-- Selecting all columns of a statement whose extents can be read: what it exposes then covers all of
them. -/
theorem selectAll_columns {path : Path} {columns : List SymbolId}
    (h : Owns σ path b.store i) (hc : b.store.ColumnsOK) (hs : (b.store.get i).selectList = [])
    (hstar : ∀ x ∈ (b.store.get i).fromExtents, ∀ e, b.store.symbols.Reaches x e → b.store.Starred e)
    (hr : Runs (selectAll i) b columns b') :
    b'.store.ColumnsOK ∧ Lasts b.store b'.store ∧ columns ≠ [] ∧
      (b'.store.get i).exposed = columns.map Part.symbol ∧
      ∀ e ∈ starLeaves b.store i, b'.store.symbols.Covered columns e := by
  have hst := h.ok.statement i
  have hok' := (selectAll_spec h hs hr).1.ok
  obtain ⟨starss, b1, hstars, hne, rfl, hb'⟩ := runs_selectAll.1 hr
  obtain ⟨hn, hall⟩ := starLeaves_spec h.ok hstars
  obtain ⟨hsource, hcov⟩ := starsOf_starsAt h.ok hn hall
  have hl1 : Lasts b.store b1.store := .of_sameText hn.retains.symbols hn.retains.text
  have hc1 : b1.store.ColumnsOK := hc.withNames h.ok hn.store hn.statements hn.filing
    (fun e he => ⟨i, mem_aliases_of_starLeaves h.ok he⟩) (fun c hm => (hn.marks c).needsRenaming.symm.trans hm)
    fun y join hj => Or.inl ((hn.marks y).join.symm.trans hj)
  obtain ⟨hc', hl', hexposed⟩ := columnsOK_star hc1 hn.store hok' (lt_of_lt_of_le h.lt hn.retains.size)
    (by rw [hn.get]; exact hs) (by rw [hb']; rfl) hsource fun x hx e hr => by
      rw [hn.get] at hx
      have hr' := hr.of_grows h.ok.symbols hl1.symbols (hst.fromExtents x hx).lt
      exact (hstar x hx e hr').lasts (lt_of_alias h.ok (hst.leaves x hx e hr')) h.ok hn.store hl1
  refine ⟨hc', hl1.trans hl', fun hnil => hne (map_eq_nil_iff.1 hnil), by rw [map_map]; exact hexposed,
    fun e he => ?_⟩
  exact (hcov e he).grows (lt_of_lt_of_le (lt_of_alias h.ok (mem_aliases_of_starLeaves h.ok he)) hl1.symbols.size) hl'.symbols

end

end Build

end RelSql
