/-
Sources of scalar rows while a query is built. A statement over one plain extent with scalar rows
selects one column, which keeps its name: nothing else of that name stands beside it, and no join takes
it over. `Store.ScalarsOK` is the invariant that each source in parentheses whose alias has scalar rows
shows one column, apart from those that the statement around does not read as such rows.
-/
import RelSql.Proofs.Build.OpenRows
import RelSql.Proofs.Build.RowOperators
import RelSql.Proofs.Statement.Nesting

namespace RelSql

open RelSql.Part List

open Build (StarColumn emptyCollection)

variable {s : Statement}

/-- Once the statement selects something, it keeps that, and the extent that it selects from if it is
only one. -/
def Statement.Settles (s t : Statement) : Prop :=
  s.selectList ≠ [] → t.selectList = s.selectList ∧
    ∀ x, s.fromExtents = [x] → t.fromExtents = [x] ∧ t.joinExtents = s.joinExtents

theorem Statement.SameText.settles {t : Statement} (h : s.SameText t) : s.Settles t :=
  fun _ => ⟨h.selectList, fun _ hx => ⟨h.fromExtents.trans hx, h.joinExtents⟩⟩

/-- An alias at the end of a text reads nothing. -/
theorem Part.reads_of_alias {ps : List Part} {x y : SymbolId} {n : String} (hn : n ≠ " AS ")
    (h : Part.Reads (ps ++ [.text " AS ", .symbol x]) y (.text n)) : Part.Reads ps y (.text n) := by
  have hatoms : atoms (ps ++ [.text " AS ", .symbol x]) = atoms ps ++ [.text " AS "] ++ [.symbol x] := by simp
  -- the column read is the last of three parts, and neither of the two at the end
  have hlast : ∀ {a b c d : Part} {as : List Part}, [a, b, c] <:+ as ++ [d] → c = d := by
    rintro a b c d as ⟨pre, h⟩
    have := congrArg getLast? h
    simpa using this
  unfold Part.Reads at h ⊢
  rw [hatoms] at h
  rcases infix_concat_iff.1 h with h | h
  · cases hlast h
  · rcases infix_concat_iff.1 h with h | h
    · exact absurd (text.inj (hlast h)) hn
    · exact h

/-- The statement is done and reads no scalar rows off the extent. No statement stands in it at a place
that sees its aliases. -/
structure Statement.LeavesUnread (s : Statement) (x : SymbolId) : Prop where
  selects : s.selectList ≠ []
  clauses : ∀ ps ∈ s.clauses, ¬ Part.Reads ps x (.text scalarColumn)
  alone : ∀ v : View, v.sees = true → statements (s.place v) = []

theorem Statement.LeavesUnread.sameText {t : Statement} {x : SymbolId} (h : s.LeavesUnread x) (hs : s.SameText t) :
    t.LeavesUnread x := by
  refine ⟨by rw [hs.selectList]; exact h.selects, by rw [hs.clauses]; exact h.clauses, fun v hv => ?_⟩
  rw [hs.place]; exact h.alone v hv

theorem Statement.LeavesUnread.cuts {t : Statement} {x : SymbolId} (h : s.LeavesUnread x) (hc : s.Cuts t) :
    t.LeavesUnread x := by
  refine ⟨hc.kept.1 ▸ h.selects, hc.clauses h.clauses fun hps => ?_, fun v hv => ?_⟩
  · exact (readsOnly_of_length (p := fun _ _ => False) (by rw [hps]; exact le_refl 1)).columns x _
  · have halone := h.alone v hv
    cases v with
    | body =>
      have hcount : ∀ {ps c}, atoms ps = [.text c] → statements ps = [] := fun hps => by
        unfold statements; rw [hps]; rfl
      simp only [Statement.place, Statement.body, statements_append, append_eq_nil_iff] at halone ⊢
      cases hc with
      | distinct => exact halone
      | top hps => exact ⟨⟨halone.1.1, hcount hps⟩, halone.2⟩
      | skip hps => exact ⟨halone.1, hcount hps⟩
    | source | enclosed => cases hc <;> exact halone

/-- A value selected under the name of a scalar column. -/
def Build.scalarItem (f : Fragment) : List Part := [.text "SELECT ", f.toPart, .text (" AS " ++ scalarColumn)]

namespace Store

variable {f : Statement → Statement}

variable {loose : Prop} {exempt : List StatementId} {σ τ : Store} {i j k : StatementId} {l x c : SymbolId} {key : String}

/-! ## What stands for scalar rows -/

/-- The extent is no join, and the only one of the statement, which is none either. -/
structure Single (σ : Store) (i : StatementId) (l : SymbolId) : Prop where
  extents : (σ.get i).fromExtents = [l]
  unjoined : (σ.get i).joinExtents = none
  plain : (σ.symbols.get l).join = none

/-- The column keeps its name, and belongs to no join. -/
structure Kept (σ : Store) (c : SymbolId) : Prop where
  unmarked : (σ.symbols.get c).needsRenaming = false
  apart : ∀ ⦃y join⦄, (σ.symbols.get y).join = some join → c ∉ join.columns

/-- The statement selects the values of its only extent as one column. -/
structure SelectsScalar (σ : Store) (i : StatementId) (x c : SymbolId) : Prop extends Single σ i x where
  select : (σ.get i).selectList = (⟨x, some scalarColumn, c⟩ : StarColumn).parts
  column : (σ.symbols.get x).column? scalarColumn = some c
  name : (σ.symbols.get c).name = scalarColumn

/-- The statement shows scalar rows: as the column of its extent, or as one value without a name. The
latter is let through only where queries may project on values. -/
inductive ShowsScalar (loose : Prop) (σ : Store) (i : StatementId) : Prop where
  | column {x c : SymbolId} (h : σ.SelectsScalar i x c)
  | value (hl : loose) {x : SymbolId} {v : Part} (hx : (σ.get i).fromExtents = [x])
      (hv : (∀ t, v ≠ .text t) ∧ v ≠ .line) (hs : (σ.get i).selectList = [v])

/-- The source shows scalar rows: a subselect that does, or listed values. -/
inductive ScalarSource (loose : Prop) (σ : Store) : Part → Prop where
  | subselect {p : Part} {i : StatementId} (hp : p.subselect? = some i) (h : σ.ShowsScalar loose i) : ScalarSource loose σ p
  | values {items : List Fragment} (h : items ≠ []) :
      ScalarSource loose σ (.group (separated " UNION ALL " (items.map Build.scalarItem)))
  | empty : ScalarSource loose σ (.group [.text emptyCollection])

/-- The extent stands for scalar rows. -/
structure IsScalar (σ : Store) (x : SymbolId) : Prop where
  plain : (σ.symbols.get x).join = none
  primitive : (σ.symbols.get x).isPrimitive = true

theorem Single.mem (h : σ.Single i l) : l ∈ (σ.get i).fromExtents := by
  rw [h.extents]; exact mem_singleton_self l

theorem Single.isFlat (h : σ.Single i l) : (σ.symbols.get l).isFlat = false := by
  unfold Symbol.isFlat
  rw [h.plain]

theorem Single.alias (h : σ.Single i l) (hok : σ.OK) : l ∈ (σ.get i).aliases :=
  (hok.statement i).leaves l h.mem l (.self h.isFlat)

theorem ShowsScalar.extents (h : σ.ShowsScalar loose i) : ∃ x, (σ.get i).fromExtents = [x] := by
  cases h with
  | column h => exact ⟨_, h.extents⟩
  | value _ hx _ _ => exact ⟨_, hx⟩

theorem ShowsScalar.select (h : σ.ShowsScalar loose i) : (σ.get i).selectList ≠ [] := by
  cases h with
  | column h => rw [h.select]; exact cons_ne_nil _ _
  | value _ _ _ hs => rw [hs]; exact cons_ne_nil _ _

/-! ## What lasts -/

/-- `τ` is `σ` later on, where statements that select something stay as they are. -/
structure Settles (σ τ : Store) : Prop where
  symbols : σ.symbols.Grows τ.symbols
  statements : ∀ k, (σ.get k).Settles (τ.get k)

theorem Settles.of_sameText (hs : σ.symbols.Grows τ.symbols) (ht : ∀ k < σ.size, (σ.get k).SameText (τ.get k)) :
    σ.Settles τ := by
  refine ⟨hs, fun k => ?_⟩
  by_cases hk : k < σ.size
  · exact (ht k hk).settles
  · rw [get_of_size_le (not_lt.1 hk)]
    exact fun hne => absurd rfl hne

theorem Settles.trans {υ : Store} (h : σ.Settles τ) (h' : τ.Settles υ) : σ.Settles υ := by
  refine ⟨h.symbols.trans h'.symbols, fun k hne => ?_⟩
  obtain ⟨hselect, hextents⟩ := h.statements k hne
  obtain ⟨hselect', hextents'⟩ := h'.statements k (by rw [hselect]; exact hne)
  refine ⟨hselect'.trans hselect, fun x hx => ?_⟩
  obtain ⟨hx', hj⟩ := hextents x hx
  obtain ⟨hx'', hj'⟩ := hextents' x hx'
  exact ⟨hx'', hj'.trans hj⟩

theorem Grows.settles (h : Grows σ.size σ τ) : σ.Settles τ := .of_sameText h.symbols h.text

theorem settles_push (σ : Store) (s : Statement) : σ.Settles (σ.push s) :=
  .of_sameText (.refl _) fun k hk => by rw [get_push_of_lt hk]; exact .refl _

theorem settles_modify (h : (σ.get i).Settles (f (σ.get i))) : σ.Settles (σ.modify i f) := by
  refine ⟨.refl _, fun k => ?_⟩
  rw [get_modify]
  split
  · rename_i hk; rw [← hk.1]; exact h
  · exact fun _ => ⟨rfl, fun _ hx => ⟨hx, rfl⟩⟩

theorem ShowsScalar.settles (h : σ.ShowsScalar loose i) (hl : σ.Settles τ) : τ.ShowsScalar loose i := by
  obtain ⟨hselect, hextents⟩ := hl.statements i h.select
  cases h with
  | @column x c h =>
    have hx := (Symbols.files_of_column? h.column).lt
    have hc : c < σ.symbols.size := by
      by_contra hc
      have hname := h.name
      rw [Symbols.get_of_size_le (not_lt.1 hc)] at hname
      exact absurd hname (by decide)
    have hgx := hl.symbols.symbol x hx
    obtain ⟨hextents, hjoin⟩ := hextents x h.extents
    exact .column ⟨⟨hextents, hjoin.trans h.unjoined, hgx.join.trans h.plain⟩, hselect.trans h.select,
      hgx.column _ _ h.column, (hl.symbols.symbol c hc).name.trans h.name⟩
  | value hloose hx hv hs => exact .value hloose (hextents _ hx).1 hv (hselect.trans hs)

theorem ScalarSource.settles {p : Part} (h : σ.ScalarSource loose p) (hl : σ.Settles τ) : τ.ScalarSource loose p := by
  cases h with
  | subselect hp h => exact .subselect hp (h.settles hl)
  | values h => exact .values h
  | empty => exact .empty

theorem IsScalar.of_grows (h : τ.IsScalar x) (hx : x < σ.symbols.size) (hg : σ.symbols.Grows τ.symbols) :
    σ.IsScalar x := by
  have hs := hg.symbol x hx
  obtain ⟨hj, hp⟩ := h
  unfold Symbol.isPrimitive at hp
  rw [hs.join] at hj
  rw [hs.type] at hp
  exact ⟨hj, hp⟩

/-! ## The invariant -/

/-- Columns of single extents keep their names, and sources whose alias stands for scalar rows show
such rows, unless the statement leaves them unread. The statements that are exempt are yet to be done. -/
structure ScalarsOK (loose : Prop) (exempt : List StatementId) (σ : Store) : Prop where
  kept : ∀ ⦃i l key c⦄, σ.Single i l → σ.symbols.Files l key c → σ.Kept c
  sources : ∀ ⦃k p x⦄, k ∉ exempt → (σ.get k).Names p x → σ.IsScalar x →
    σ.ScalarSource loose p ∨ (σ.get k).LeavesUnread x

/-- New names keep the invariant, if columns of single extents keep theirs. -/
theorem ScalarsOK.withNames {es : List SymbolId} (h : σ.ScalarsOK loose exempt) (hok : σ.OK)
    (hst : τ.statements = σ.statements) (hf : Symbols.Filing es σ.symbols τ.symbols)
    (hk : ∀ i l key c, σ.Single i l → τ.symbols.Files l key c → τ.Kept c) : τ.ScalarsOK loose exempt := by
  have hget : ∀ k, τ.get k = σ.get k := fun k => by unfold get; rw [hst]
  have hl : σ.Settles τ := .of_sameText hf.grows fun k _ => by rw [hget]; exact .refl _
  refine ⟨fun i l key c hs hfile => hk i l key c ?_ hfile, fun k p x hx hnames hscalar => ?_⟩
  · obtain ⟨hx, hj, hplain⟩ := hs
    rw [hget] at hx hj
    have hlt := ((hok.statement i).fromExtents l (by rw [hx]; exact mem_singleton_self l)).lt
    exact ⟨hx, hj, (hf.grows.symbol l hlt).join.symm.trans hplain⟩
  · rw [hget] at hnames
    refine (h.sources hx hnames (hscalar.of_grows (lt_of_alias hok hnames.alias) hf.grows)).imp (·.settles hl) fun hu => ?_
    rw [hget]; exact hu

/-- Only recording outer extents keeps the invariant. -/
theorem ScalarsOK.sameText (h : σ.ScalarsOK loose exempt) (hs : τ.symbols = σ.symbols)
    (ht : ∀ k, (σ.get k).SameText (τ.get k)) : τ.ScalarsOK loose exempt := by
  have hl : σ.Settles τ := .of_sameText (by rw [hs]; exact .refl _) fun k _ => ht k
  refine ⟨fun i l key c hsingle hfile => ?_, fun k p x hx hnames hscalar => ?_⟩
  · rw [hs] at hfile
    have hkept := h.kept ⟨(ht i).fromExtents.symm.trans hsingle.extents, (ht i).joinExtents.symm.trans hsingle.unjoined,
      by rw [← hs]; exact hsingle.plain⟩ hfile
    exact ⟨by rw [hs]; exact hkept.unmarked, by rw [hs]; exact hkept.apart⟩
  · unfold Statement.Names at hnames
    rw [(ht k).fromItems] at hnames
    exact (h.sources hx hnames ⟨by rw [← hs]; exact hscalar.plain, by rw [← hs]; exact hscalar.primitive⟩).imp
      (·.settles hl) (·.sameText (ht k))

/-- A new statement without extents keeps the invariant. -/
theorem ScalarsOK.push (h : σ.ScalarsOK loose exempt) (hx : s.fromExtents = []) (ha : s.aliases = []) :
    (σ.push s).ScalarsOK loose exempt := by
  have hl := settles_push σ s
  refine ⟨fun i l key c hsingle hfile => ?_, fun k p x hk hnames hscalar => ?_⟩
  · obtain ⟨hextents, hjoin, hplain⟩ := hsingle
    rw [get_push] at hextents hjoin
    split at hextents
    · rw [hx] at hextents; cases hextents
    · rename_i hne
      rw [if_neg hne] at hjoin
      obtain ⟨hunmarked, hapart⟩ := h.kept ⟨hextents, hjoin, hplain⟩ hfile
      exact ⟨hunmarked, hapart⟩
  · rw [get_push] at hnames
    split at hnames
    · have hal := hnames.alias
      rw [ha] at hal; cases hal
    · rename_i hne
      refine (h.sources hk hnames ⟨hscalar.plain, hscalar.primitive⟩).imp (·.settles hl) fun hu => ?_
      rw [get_push, if_neg hne]; exact hu

/-- A changed statement keeps the invariant. An extent that becomes its only one has to be new, the
source of a new alias has to show its rows, and what the statement leaves unread stays so. -/
theorem ScalarsOK.modify (h : σ.ScalarsOK loose exempt) (hok' : (σ.modify i f).OK) (hi : i < σ.size)
    (hs : (σ.get i).Settles (f (σ.get i))) (hitems : (σ.get i).fromItems <+: (f (σ.get i)).fromItems)
    (hsingle : ∀ l, (f (σ.get i)).fromExtents = [l] → (f (σ.get i)).joinExtents = none → (σ.symbols.get l).join = none →
      σ.Single i l ∨ ∀ key c, ¬ σ.symbols.Files l key c)
    (hnames : i ∉ exempt → ∀ p x, (f (σ.get i)).Names p x → x ∉ (σ.get i).aliases → σ.IsScalar x → σ.ScalarSource loose p)
    (hunread : ∀ x, (σ.get i).LeavesUnread x → (f (σ.get i)).LeavesUnread x) :
    (σ.modify i f).ScalarsOK loose exempt := by
  have hl : σ.Settles (σ.modify i f) := settles_modify hs
  refine ⟨fun j l key c hj hfile => ?_, fun k p x hk hnamed hscalar => ?_⟩
  · suffices hkept : σ.Kept c from ⟨hkept.unmarked, hkept.apart⟩
    obtain ⟨hextents, hjoin, hplain⟩ := hj
    by_cases hji : j = i
    · subst hji
      rw [get_modify_self hi] at hextents hjoin
      rcases hsingle l hextents hjoin hplain with hold | hno
      · exact h.kept hold hfile
      · exact absurd hfile (hno key c)
    · rw [get_modify_of_ne hji] at hextents hjoin
      exact h.kept ⟨hextents, hjoin, hplain⟩ hfile
  · have hscalar' : σ.IsScalar x := ⟨hscalar.plain, hscalar.primitive⟩
    by_cases hki : k = i
    · subst hki
      have hnodup := (hok'.statement k).nodup
      rw [get_modify_self hi] at hnamed hnodup
      by_cases hx : x ∈ (σ.get k).aliases
      · -- items are only added behind, so that an old alias names the source that it named
        refine (h.sources hk (hnamed.of_prefix hitems hnodup hx) hscalar').imp (·.settles hl) fun hu => ?_
        rw [get_modify_self hi]; exact hunread x hu
      · exact Or.inl ((hnames hk p x hnamed hx hscalar').settles hl)
    · rw [get_modify_of_ne hki] at hnamed
      refine (h.sources hk hnamed hscalar').imp (·.settles hl) fun hu => ?_
      rw [get_modify_of_ne hki]; exact hu

/-- Other clauses of a statement, behind the same `FROM` list. -/
theorem ScalarsOK.clauses (h : σ.ScalarsOK loose exempt) (hok' : (σ.modify i f).OK) (hi : i < σ.size)
    (hs : (σ.get i).selectList ≠ [] → (f (σ.get i)).selectList = (σ.get i).selectList)
    (hf : (f (σ.get i)).fromList = (σ.get i).fromList) (hx : (f (σ.get i)).fromExtents = (σ.get i).fromExtents)
    (hj : (f (σ.get i)).joinExtents = (σ.get i).joinExtents)
    (hunread : ∀ x, (σ.get i).LeavesUnread x → (f (σ.get i)).LeavesUnread x) :
    (σ.modify i f).ScalarsOK loose exempt := by
  have hitems : (f (σ.get i)).fromItems = (σ.get i).fromItems := by unfold Statement.fromItems; rw [hf]
  refine h.modify hok' hi (fun hne => ⟨hs hne, fun _ hx' => ⟨hx.trans hx', hj⟩⟩) (by rw [hitems])
    (fun l hl hnone hplain => Or.inl ?_) (fun _ p x hn hno => ?_) hunread
  · exact ⟨hx.symm.trans hl, hj.symm.trans hnone, hplain⟩
  · unfold Statement.Names at hn
    rw [hitems] at hn
    exact absurd (Statement.Names.alias hn) hno

/-- A statement that selects nothing yet may get any clauses but a `FROM` list. -/
theorem ScalarsOK.open (h : σ.ScalarsOK loose exempt) (hok' : (σ.modify i f).OK) (hi : i < σ.size)
    (hs : (σ.get i).selectList = []) (hf : (f (σ.get i)).fromList = (σ.get i).fromList)
    (hx : (f (σ.get i)).fromExtents = (σ.get i).fromExtents) (hj : (f (σ.get i)).joinExtents = (σ.get i).joinExtents) :
    (σ.modify i f).ScalarsOK loose exempt :=
  h.clauses hok' hi (fun hne => absurd hs hne) hf hx hj fun _ hu => absurd hs hu.selects

/-- A new extent at the end of the `FROM` list. -/
theorem ScalarsOK.declare {ex : Option (List SymbolId)} (h : σ.ScalarsOK loose exempt) (hok' : (σ.modify i f).OK)
    (hi : i < σ.size) (hs : (σ.get i).Settles (f (σ.get i)))
    (hf : f (σ.get i) = { (σ.get i).withExtent x with joinExtents := ex }) (hx : σ.Unused x)
    (hsource : i ∉ exempt → ∀ p, (σ.get i).EndsWith p → σ.IsScalar x → σ.ScalarSource loose p) :
    (σ.modify i f).ScalarsOK loose exempt := by
  have hitems : (f (σ.get i)).fromItems = (σ.get i).fromItems ++ [.named x] := by
    rw [hf]; exact Statement.fromItems_withExtent _ x
  refine h.modify hok' hi hs (by rw [hitems]; exact prefix_append _ _) (fun l hl _ _ => Or.inr ?_)
    (fun hk p y hn hno hscalar => ?_) fun y hu => ?_
  · rw [hf] at hl
    change (σ.get i).fromExtents ++ [x] = [l] at hl
    cases hex : (σ.get i).fromExtents with
    | nil => rw [hex] at hl; obtain rfl := singleton_inj.1 hl; exact hx.unfiled
    | cons y rest => rw [hex] at hl; simp at hl
  · rw [hf] at hn
    rcases Statement.names_withExtent.1 hn with hold | ⟨rfl, hend⟩
    · exact absurd hold.alias hno
    · exact hsource hk p hend hscalar
  · obtain ⟨hselect, hfrom, hrest⟩ := Statement.forall_mem_clauses.1 hu.clauses
    rw [hf]
    refine ⟨hu.selects, Statement.forall_mem_clauses.2
      ⟨hselect, fun hr => hfrom (Part.reads_of_alias (by decide) hr), hrest⟩, fun v hv => ?_⟩
    change Part.statements (((σ.get i).withExtent x).place v) = []
    rw [Statement.place_withExtent]
    exact hu.alone v hv

/-- A join in the place of the extents of a statement. -/
theorem ScalarsOK.relist (h : σ.ScalarsOK loose exempt) (hok' : (σ.modify i f).OK) (hi : i < σ.size)
    (hs : (σ.get i).selectList = [] ∨ 1 < (σ.get i).fromExtents.length) (hjoin : (σ.symbols.get x).join ≠ none)
    (hf : ∀ s, f s = s.relisted [x] s.joinExtents) :
    (σ.modify i f).ScalarsOK loose exempt := by
  refine h.modify hok' hi (fun hne => ?_) (by rw [hf]; exact prefix_refl _) (fun l hl _ hplain => ?_)
    (fun _ p y hn hno => ?_) fun y hu => ?_
  · rw [hf]
    refine ⟨rfl, fun y hy => absurd (hs.resolve_left hne) ?_⟩
    rw [hy]; exact lt_irrefl 1
  · rw [hf] at hl
    obtain rfl := singleton_inj.1 hl
    exact absurd hplain hjoin
  · rw [hf] at hn
    exact absurd (Statement.Names.alias (s := σ.get i) hn) hno
  · rw [hf]; exact ⟨hu.selects, hu.clauses, hu.alone⟩

theorem ScalarsOK.exempting (h : σ.ScalarsOK loose exempt) (k : StatementId) : σ.ScalarsOK loose (k :: exempt) :=
  ⟨h.kept, fun _ _ _ hk => h.sources fun hmem => hk (mem_cons_of_mem _ hmem)⟩

/-- A statement that is done, and reads no scalar rows, needs no exemption. -/
theorem ScalarsOK.done (h : σ.ScalarsOK loose (i :: exempt)) (hu : ∀ x ∈ (σ.get i).aliases, (σ.get i).LeavesUnread x) :
    σ.ScalarsOK loose exempt := by
  refine ⟨h.kept, fun k p x hk hn hx => ?_⟩
  by_cases hki : k = i
  · subst hki; exact Or.inr (hu x hn.alias)
  · exact h.sources (by simp [hki, hk]) hn hx

/-! ## Rows of statements -/

/-- The statement is about scalar rows: it has a source of them and no extent yet, has an extent for them
and selects nothing yet, or shows them. -/
inductive ScalarRows (loose : Prop) (σ : Store) (i : StatementId) : Prop where
  | source (hs : (σ.get i).selectList = []) (hx : (σ.get i).fromExtents = []) (hj : (σ.get i).joinExtents = none)
      (h : ∀ p, (σ.get i).EndsWith p → σ.ScalarSource loose p)
  | bare {x : SymbolId} {ty : DataType} (h : σ.Bare i x ty) (hp : ty.isPrimitive = true) (hj : (σ.get i).joinExtents = none)
  | shows (h : σ.ShowsScalar loose i)

/-- The extent, for rows of the type, is one that the statement has, or one that it may get: where it
stands for scalar rows, the source at the end shows such rows. -/
inductive Declarable (loose : Prop) (σ : Store) (i : StatementId) (x : SymbolId) : Prop where
  | declared (hx : (σ.get i).fromExtents = [x])
  | source (hx : (σ.get i).fromExtents = []) (hu : σ.Unused x)
      (h : ∀ p, (σ.get i).EndsWith p → σ.IsScalar x → σ.ScalarSource loose p)

theorem Declarable.inputOf (h : σ.Declarable loose i x) : Build.InputOf σ i x := by
  cases h with
  | declared hx => exact Or.inl hx
  | source hx hu _ => exact Or.inr ⟨hx, hu.toFresh⟩

/-- A variable with rows of the type stands for the extent. If they are scalars, the statement selects
nothing yet, or shows them. -/
structure ScalarInput (loose : Prop) (σ : Store) (i : StatementId) (x : SymbolId) (ty : DataType) : Prop where
  extent : σ.Declarable loose i x
  rows : ty.isPrimitive = true → ((σ.get i).selectList = [] ∧ (σ.get i).joinExtents = none ∧
    ∃ ty' : DataType, ty'.isPrimitive = true ∧ σ.Plain x ty') ∨ σ.ShowsScalar loose i

variable {ty : DataType}

theorem Plain.isScalar (h : σ.Plain x ty) (hp : ty.isPrimitive = true) : σ.IsScalar x :=
  ⟨h.join, by unfold Symbol.isPrimitive; rw [h.type]; exact hp⟩

theorem ScalarInput.scalarRows (h : σ.ScalarInput loose i x ty) (hp : ty.isPrimitive = true) : σ.ScalarRows loose i := by
  rcases h.rows hp with ⟨hs, hj, ty', hp', hx⟩ | hshows
  · cases h.extent with
    | declared hextents => exact .bare ⟨hs, hextents, hx⟩ hp' hj
    | source hextents _ hsource => exact .source hs hextents hj fun p hend => hsource p hend (hx.isScalar hp')
  · exact .shows hshows

theorem ScalarRows.grows (h : σ.ScalarRows loose i) (hok : σ.OK) (hi : i < σ.size) (hg : Grows σ.size σ τ) :
    τ.ScalarRows loose i := by
  have hsame := hg.text i hi
  cases h with
  | source hs hx hj h =>
    refine .source (hsame.selectList.trans hs) (hsame.fromExtents.trans hx) (hsame.joinExtents.trans hj) fun p hend => ?_
    unfold Statement.EndsWith at hend
    rw [hsame.fromItems] at hend
    exact (h p hend).settles hg.settles
  | bare h hp hj => exact .bare (h.grows hok hg) hp (hsame.joinExtents.trans hj)
  | shows h => exact .shows (h.settles hg.settles)

/-- Other clauses of the statement change nothing. -/
theorem ScalarRows.modify (h : σ.ScalarRows loose i) (hok : σ.OK) (hi : i < σ.size)
    (hs : (f (σ.get i)).selectList = (σ.get i).selectList) (hf : (f (σ.get i)).fromList = (σ.get i).fromList)
    (hx : (f (σ.get i)).fromExtents = (σ.get i).fromExtents) (hj : (f (σ.get i)).joinExtents = (σ.get i).joinExtents) :
    (σ.modify i f).ScalarRows loose i := by
  have hget : (σ.modify i f).get i = f (σ.get i) := get_modify_self hi f
  have hl : σ.Settles (σ.modify i f) := settles_modify fun _ => ⟨hs, fun _ h => ⟨hx.trans h, hj⟩⟩
  cases h with
  | source hselect hextents hjoin h =>
    refine .source (by rw [hget, hs]; exact hselect) (by rw [hget, hx]; exact hextents) (by rw [hget, hj]; exact hjoin)
      fun p hend => ?_
    unfold Statement.EndsWith Statement.fromItems at hend
    rw [hget, hf] at hend
    exact (h p hend).settles hl
  | bare h hp hjoin => exact .bare (h.modify hok hs hx) hp (by rw [hget, hj]; exact hjoin)
  | shows h => exact .shows (h.settles hl)

end Store

namespace Build

open Store

variable {join : Option JoinInfo} {u : PUnit}

variable {loose : Prop} {exempt : List StatementId} {σ : Store} {path : Path} {b b' : Build} {i : StatementId}
  {x : SymbolId} {ty : DataType} {name : String}

/-! ## Stars -/

section

variable {columns : List SymbolId}

variable {stars : List StarColumn} {j : StatementId} {l c : SymbolId} {key : String}

/-- A star has a column of a single extent only if it is the star of the statement of that extent. -/
theorem single_of_star (hc : σ.ScalarsOK loose exempt) (hok : σ.OK)
    (hstars : ∀ s ∈ stars, ∃ x ∈ (σ.get i).fromExtents, ∃ e, σ.symbols.Reaches x e ∧ StarOf σ.symbols e s)
    (hs : σ.Single j l) (hf : σ.symbols.Files l key c) (hmem : c ∈ stars.map StarColumn.column) : j = i := by
  obtain ⟨s, hstar, rfl⟩ := mem_map.1 hmem
  obtain ⟨x, hx, e, hr, -, hof⟩ := hstars s hstar
  split at hof
  · obtain rfl := hok.tidy.once.extent hf (Symbols.files_of_column? hof.2.2)
    exact hok.unique j i l (hs.alias hok) ((hok.statement i).leaves x hx l hr)
  · -- a join would have brought the column along
    obtain ⟨join, hj, hin⟩ := hof
    exact absurd hin ((hc.kept hs hf).apart hj)

/-- The star of a single extent has only columns that the extent has filed. -/
theorem files_of_star (hs : σ.Single i l)
    (hstars : ∀ s ∈ stars, ∃ x ∈ (σ.get i).fromExtents, ∃ e, σ.symbols.Reaches x e ∧ StarOf σ.symbols e s)
    (hmem : c ∈ stars.map StarColumn.column) : ∃ key, σ.symbols.Files l key c := by
  obtain ⟨s, hstar, rfl⟩ := mem_map.1 hmem
  obtain ⟨x, hx, e, hr, -, hof⟩ := hstars s hstar
  rw [hs.extents, mem_singleton] at hx
  subst hx
  obtain rfl := (Symbols.reaches_of_not_flat hs.isFlat).1 hr
  split at hof
  · exact ⟨_, Symbols.files_of_column? hof.2.2⟩
  · obtain ⟨join, hj, -⟩ := hof
    exact absurd (hs.plain.symm.trans hj) nofun

/-- Columns of a single extent have different names, so that no star marks them. -/
theorem scalarsOK_marked (hc : σ.ScalarsOK loose exempt) (hok : σ.OK)
    (hstars : ∀ s ∈ stars, ∃ x ∈ (σ.get i).fromExtents, ∃ e, σ.symbols.Reaches x e ∧ StarOf σ.symbols e s) :
    (σ.withNames (marked σ.names (stars.map StarColumn.column))).ScalarsOK loose exempt := by
  have hsymbols : (σ.withNames (marked σ.names (stars.map StarColumn.column))).symbols =
    σ.symbols.markClashes [] (stars.map StarColumn.column) := rfl
  have hfiling : Symbols.Filing [] σ.symbols (σ.withNames (marked σ.names (stars.map StarColumn.column))).symbols := by
    rw [hsymbols]; exact Symbols.filing_markClashes hok.tidy.once _ _
  refine hc.withNames hok rfl hfiling fun j l key c hs hf => ?_
  rw [hsymbols, Symbols.files_markClashes] at hf
  have hkept := hc.kept hs hf
  refine ⟨Bool.eq_false_iff.2 fun hm => ?_, fun y join hj => ?_⟩
  · rw [hsymbols] at hm
    rcases Symbols.marked_markClashes _ (forall_mem_nil _) hm with hold | ⟨hmem, c', hmem', hne, hkey⟩
    · rw [hkept.unmarked] at hold; cases hold
    · obtain rfl := single_of_star hc hok hstars hs hf (by simpa using hmem)
      obtain ⟨key', hf'⟩ := files_of_star hs hstars (c := c') (by simpa using hmem')
      rw [hok.tidy.once.key hf, hok.tidy.once.key hf'] at hkey
      subst hkey
      exact hne (hok.tidy.once.column hf' hf)
  · obtain ⟨f, hget⟩ := Symbols.get_markClashes (stars.map StarColumn.column) σ.symbols [] y
    rw [hsymbols, hget] at hj
    exact hkept.apart hj

/-- Filing columns of extents keeps the invariant. -/
theorem StarStep.scalars {es : List SymbolId} (h : StarStep es b b') (hok : b.store.OK)
    (hc : b.store.ScalarsOK loose exempt) : b'.store.ScalarsOK loose exempt := by
  refine hc.withNames hok h.statements h.filing fun j l key c hs hf => ?_
  rcases h.filing.new hf with hold | ⟨-, hnew⟩
  · have hkept := hc.kept hs hold
    exact ⟨(h.marks c).needsRenaming.trans hkept.unmarked, fun y join hj => hkept.apart ((h.marks y).join.symm.trans hj)⟩
  · refine ⟨?_, fun y join hj hmem => ?_⟩
    · rw [(h.marks c).needsRenaming, Symbols.get_of_size_le hnew]; rfl
    · -- no join has a column that was not there yet
      have hlt := ((hok.symbols.joins y join ((h.marks y).join.symm.trans hj)).columns c hmem).1
      exact absurd hlt (not_lt.2 hnew)

/-- Selecting all columns of a statement keeps the invariant. -/
theorem selectAll_scalars (h : Owns σ path b.store i) (hc : b.store.ScalarsOK loose exempt)
    (hs : (b.store.get i).selectList = []) (hr : Runs (selectAll i) b columns b') :
    b'.store.ScalarsOK loose exempt ∧ ∀ j l key c, b'.store.Single j l → b'.store.symbols.Files l key c →
      c ∈ columns → j = i ∧ (b.store.get i).joinExtents = none := by
  have hok' := (selectAll_spec h hs hr).1.ok
  obtain ⟨starss, b1, hstars, -, rfl, hb'⟩ := runs_selectAll.1 hr
  obtain ⟨hn, hall⟩ := starLeaves_spec h.ok hstars
  obtain ⟨hsource, -⟩ := starsOf_starsAt h.ok hn hall
  have hi : i < b1.store.size := lt_of_lt_of_le h.lt hn.retains.size
  have hc1 := hn.scalars h.ok hc
  generalize starss.flatten = stars at *
  have hstore : b'.store =
      (b1.store.withNames (marked b1.names (stars.map StarColumn.column))).modify i (withStar stars) := by rw [hb']; rfl
  rw [hstore] at hok' ⊢
  refine ⟨(scalarsOK_marked hc1 hn.store hsource).open hok' hi ?_ rfl rfl rfl, fun j l key c hsingle hf hmem => ?_⟩
  · change (b1.store.get i).selectList = []
    rw [hn.get]; exact hs
  · obtain ⟨hx, hj, hplain⟩ := hsingle
    by_cases hji : j = i
    · subst hji
      rw [get_modify_self (by exact hi)] at hj
      exact ⟨rfl, by rw [← hn.get j]; exact hj⟩
    · rw [get_modify_of_ne hji] at hx hj
      refine absurd (single_of_star hc1 hn.store hsource ⟨hx, hj, ?_⟩ (Symbols.files_markClashes.1 hf) hmem) hji
      change ((b1.store.symbols.markClashes [] (stars.map StarColumn.column)).get l).join = none at hplain
      obtain ⟨g, hg⟩ := Symbols.get_markClashes (stars.map StarColumn.column) b1.store.symbols [] l
      rwa [hg] at hplain

/-- The star of a plain extent with scalar rows is one column of the name. -/
theorem selectAll_shows (h : Owns σ path b.store i) (hbare : b.store.Bare i x ty) (hp : ty.isPrimitive = true)
    (hj : (b.store.get i).joinExtents = none) (hr : Runs (selectAll i) b columns b') :
    b'.store.ShowsScalar loose i := by
  have hextents' := (selectAll_spec h hbare.select hr).2.2.2.1
  have hgrows := selectAll_symbols h.ok hr
  obtain ⟨starss, b1, hstars, -, rfl, hb'⟩ := runs_selectAll.1 hr
  obtain ⟨hn, hall⟩ := starLeaves_spec h.ok hstars
  have hplain : (b.names.symbols.get x).join = none := hbare.plain.join
  have hcols : (b.names.symbols.get x).columns = [] := hbare.plain.columns
  have hgx : (b.names.symbols.get x).Grows (b1.names.symbols.get x) := hn.filing.grows.symbol x hbare.plain.lt
  have ht : (b.names.symbols.get x).type = some ty := hbare.plain.type
  have hnames : ∀ {s : Symbol}, s.type = (b.names.symbols.get x).type → memberNames s = [scalarColumn] := by
    intro s hs
    unfold memberNames
    rw [hs, ht]; exact if_pos hp
  have hleaves : starLeaves b.store i = [x] := by
    rw [starLeaves, hbare.extents, flatMap_singleton]; exact leaves_of_plain hbare.plain
  rw [hleaves] at hstars hall
  rw [mapM_cons, mapM_nil] at hstars
  simp only [runs_bind, runs_pure, starColumns, runs_symbol, and_assoc, exists_and_left, exists_eq_left, hplain] at hstars
  obtain ⟨stars, _, hstars, rfl, rfl⟩ := hstars
  rw [hnames rfl] at hstars
  rw [flatten_singleton] at hb'
  -- the one star column is new and has the name
  obtain ⟨-, -, hnew⟩ := starMembers_new (pairwise_singleton _ _) hbare.plain.lt
    (fun n _ => by unfold Symbol.column?; rw [hcols]; rfl) hstars
  have hstar := (forall₂_cons.1 hall).1
  unfold StarsAt at hstar
  rw [hgx.join, hplain, hnames hgx.type] at hstar
  obtain ⟨s, rest, ⟨hsx, hm, hfiled⟩, hrest, rfl⟩ := forall₂_cons_left_iff.1 hstar
  obtain rfl := forall₂_nil_left_iff.1 hrest
  obtain ⟨hlt, hcolumn⟩ := (forall₂_cons.1 hnew).1
  have hs : s = ⟨x, some scalarColumn, s.column⟩ := by rw [← hsx, ← hm]
  have hget : b'.store.get i = withStar [s] (b.store.get i) := by
    rw [hb', ← hn.get i]
    exact get_modify_self (σ := b1.store.withNames _) (lt_of_lt_of_le h.lt hn.retains.size) _
  have hmark : b1.store.symbols.Grows b'.store.symbols := by
    rw [hb']; exact Symbols.grows_markClashes _ _ _
  refine .column (x := x) (c := s.column) ⟨⟨hextents'.trans hbare.extents, ?_, ?_⟩, ?_, ?_, ?_⟩
  · rw [hget]; exact hj
  · exact (hgrows.symbol x hbare.plain.lt).join.trans hplain
  · rw [hget, ← hs]
    change (b.store.get i).selectList ++ _ = _
    rw [hbare.select, nil_append]
    simp [separated, intercalate]
  · exact (hmark.symbol x (lt_of_lt_of_le hbare.plain.lt hn.filing.grows.size)).column _ _ hfiled
  · refine (hmark.symbol s.column hlt).name.trans ?_
    exact congrArg Symbol.name hcolumn

/-- A join that stays nested below the star of its statement is no single extent there, so that it takes
over no column of one. -/
theorem nestedJoin?_apart
    (hstar : ∀ j l key c, b.store.Single j l → b.store.symbols.Files l key c → c ∈ columns → j = i)
    (hr : Runs (nestedJoin? i columns) b join b') : ∀ info ∈ join, ∀ j l key c, b.store.Single j l →
      b.store.symbols.Files l key c → c ∉ info.columns := by
  intro info hmem j l key c hsingle hf hin
  rw [(runs_nestedJoin?.1 hr).1] at hmem
  obtain ⟨info', hinfo, rfl⟩ := Option.mem_map.1 hmem
  obtain rfl := hstar j l key c hsingle hf hin
  rw [hsingle.extents, head?_cons, Option.bind_some, hsingle.plain] at hinfo
  cases hinfo

/-- A statement with a select list of its own or all its columns. -/
theorem selectAllIfNone_scalars (h : Owns σ path b.store i) (hc : b.store.ScalarsOK loose exempt)
    (hr : Runs (selectAllIfNone i) b u b') :
    b'.store.ScalarsOK loose exempt ∧ (b.store.ScalarRows loose i → b'.store.ShowsScalar loose i) := by
  rcases selectAllIfNone_cases hr with ⟨hs, columns, hr⟩ | ⟨hne, rfl⟩
  · refine ⟨(selectAll_scalars h hc hs hr).1, fun hrows => ?_⟩
    cases hrows with
    | source _ hx _ _ => exact absurd hr (not_runs_selectAll hx)
    | bare hbare hp hj => exact selectAll_shows h hbare hp hj hr
    | shows hshows => exact absurd hs hshows.select
  · refine ⟨hc, fun hrows => ?_⟩
    cases hrows with
    | source hs _ _ _ => exact absurd hs hne
    | bare hbare _ _ => exact absurd hbare.select hne
    | shows hshows => exact hshows

end

/-! ## Declaring extents -/

theorem scalars_registered (hc : b.store.ScalarsOK loose exempt) (x : SymbolId) :
    (b.registered x).store.ScalarsOK loose exempt :=
  hc.sameText rfl fun _ => .refl _

/-- Declaring the first extent of a statement. -/
theorem declareFirst_scalars (h : Owns σ path b.store i) (hc : b.store.ScalarsOK loose exempt)
    (hextents : (b.store.get i).fromExtents = []) (hunused : b.store.Unused x)
    (hsource : i ∉ exempt → ∀ p, (b.store.get i).EndsWith p → b.store.IsScalar x → b.store.ScalarSource loose p)
    (hr : Runs (declareExtent i x) b u b') :
    b'.store.ScalarsOK loose exempt ∧ b.store.Settles b'.store ∧ b'.store.get i = (b.store.get i).withExtent x := by
  have hok' := (declareExtent_spec h (Or.inr ⟨hextents, hunused.toFresh⟩) hr).1.ok
  rw [runs_declareExtent, hextents] at hr
  obtain ⟨-, hb'⟩ := hr.resolve_left fun hh => nomatch hh.1
  have hstore : b'.store = (b.registered x).store.modify i (·.withExtent x) := by rw [hb']; rfl
  have hl : b.store.Settles (b.registered x).store := (registered_spec h.ok x).1.grows.settles
  have hsettles : (b.store.get i).Settles ((b.store.get i).withExtent x) :=
    fun _ => ⟨rfl, fun y hy => by rw [hextents] at hy; cases hy⟩
  rw [hstore] at hok' ⊢
  refine ⟨?_, hl.trans (settles_modify hsettles), get_modify_self (σ := (b.registered x).store) h.lt _⟩
  refine (scalars_registered hc x).declare hok' h.lt hsettles rfl (unused_registered hunused) fun hk p hend hscalar => ?_
  exact (hsource hk p hend ⟨hscalar.plain, hscalar.primitive⟩).settles hl

theorem declareExtent_scalars (h : Owns σ path b.store i) (hc : b.store.ScalarsOK loose exempt)
    (hx : b.store.ScalarInput loose i x ty) (hr : Runs (declareExtent i x) b u b') :
    b'.store.ScalarsOK loose exempt ∧ (ty.isPrimitive = true → b'.store.ScalarRows loose i) := by
  cases hx.extent with
  | declared hextents =>
    rw [runs_declareExtent, hextents] at hr
    obtain ⟨-, rfl⟩ := hr.resolve_right fun hh => hh.1 rfl
    exact ⟨hc, hx.scalarRows⟩
  | source hextents hunused hsource =>
    obtain ⟨hc', hl, hget⟩ := declareFirst_scalars h hc hextents hunused (fun _ => hsource) hr
    refine ⟨hc', fun hp => ?_⟩
    rcases hx.rows hp with ⟨hs, hj, ty', hp', hplain⟩ | hshows
    · refine .bare (declareExtent_bare h hx.extent.inputOf ⟨hs, hplain⟩ hr) hp' ?_
      rw [hget]
      exact hj
    · exact .shows (hshows.settles hl)

/-! ## New extents -/

/-- A new symbol keeps the invariant, if it is no join that takes columns of single extents over. -/
theorem newSymbol_scalars {s : Symbol} (hc : b.store.ScalarsOK loose exempt) (hok : b.store.OK)
    (hb' : b' = { b with names := { b.names with symbols := b.names.symbols.push s } }) (hcols : s.columns = [])
    (hj : ∀ join ∈ s.join, ∀ k l key c, b.store.Single k l → b.store.symbols.Files l key c → c ∉ join.columns) :
    b'.store.ScalarsOK loose exempt := by
  have hsymbols : b'.store.symbols = b.store.symbols.push s := by rw [hb']; rfl
  have hfiling : Symbols.Filing [] b.store.symbols b'.store.symbols := by
    rw [hsymbols]; exact Symbols.filing_push hok.symbols hok.tidy.once hcols
  refine hc.withNames hok (by rw [hb']; rfl) hfiling fun k l key c hs hf => ?_
  rw [hsymbols, Symbols.files_push hcols] at hf
  have hkept := hc.kept hs hf
  refine ⟨?_, fun y join hjoin => ?_⟩
  · rw [hsymbols, Symbols.get_push_of_lt (hok.symbols.columns l _ hf).1]; exact hkept.unmarked
  · rw [hsymbols, Symbols.get_push] at hjoin
    split at hjoin
    · exact hj join hjoin k l key c hs hf
    · exact hkept.apart hjoin

theorem newExtent_scalars (hc : b.store.ScalarsOK loose exempt) (hok : b.store.OK) (hj : ∀ j ∈ join, Nests b.store j)
    (hapart : ∀ j ∈ join, ∀ k l key c, b.store.Single k l → b.store.symbols.Files l key c → c ∉ j.columns)
    (hr : Runs (newExtent name ty join) b x b') :
    b'.store.ScalarsOK loose exempt ∧ b'.store.Unused x ∧ (join = none → b'.store.Plain x ty) ∧
      (b'.store.IsScalar x → join = none ∧ ty.isPrimitive = true) := by
  obtain ⟨-, hfresh⟩ := newExtent_spec hr hok hj
  have hx := newExtent_symbol hr
  refine ⟨?_, ⟨hfresh, fun key c hf => ?_⟩, fun hnone => ?_, fun hscalar => ?_⟩
  · cases join with
    | none => exact newSymbol_scalars hc hok (runs_newSymbol.1 hr).2 rfl nofun
    | some join => exact newSymbol_scalars hc hok (runs_newSymbol.1 hr).2 rfl (by rintro _ ⟨rfl⟩; exact hapart _ rfl)
  · rw [Symbols.Files, hx] at hf
    cases join <;> cases hf
  · subst hnone
    exact ⟨by rw [hx]; rfl, by rw [hx]; rfl, by rw [hx]; rfl⟩
  · obtain ⟨hplain, hprimitive⟩ := hscalar
    rw [hx] at hplain hprimitive
    cases join with
    | none => exact ⟨rfl, hprimitive⟩
    | some join => cases hplain

theorem endsWith_overSubselect {p : Part} (h : (overSubselect i).EndsWith p) : p = .statement i := by
  have hitems : (overSubselect i).fromItems = [.enclosed (.statement i)] := rfl
  unfold Statement.EndsWith at h
  rw [hitems] at h
  exact FromItem.enclosed.inj (singleton_inj.1 (h.eq_of_length rfl))

/-- A new extent and a new statement over a subselect. -/
theorem newSubselect_scalars {b1 : Build} (hc : b.store.ScalarsOK loose exempt) (hok : b.store.OK)
    (hj : ∀ j ∈ join, Nests b.store j)
    (hapart : ∀ j ∈ join, ∀ k l key c, b.store.Single k l → b.store.symbols.Files l key c → c ∉ j.columns)
    (hx : Runs (newExtent name ty join) b x b1)
    (hb' : b' = { b1 with statements := b1.statements.push (overSubselect i) }) :
    b'.store.ScalarsOK loose exempt ∧ b'.store.Unused x ∧ b'.store.get b1.store.size = overSubselect i ∧
      b.store.Settles b'.store ∧ (join = none → b'.store.Plain x ty) ∧
      (b'.store.IsScalar x → join = none ∧ ty.isPrimitive = true) := by
  obtain ⟨hn, -⟩ := newExtent_spec hx hok hj
  obtain ⟨hc1, hunused, hplain, hscalar⟩ := newExtent_scalars hc hok hj hapart hx
  have hstore : b'.store = b1.store.push (overSubselect i) := by rw [hb']; rfl
  rw [hstore]
  refine ⟨hc1.push rfl rfl, ⟨⟨hunused.stands, fun k => ?_⟩, hunused.unfiled⟩, get_push_size _ _,
    hn.grows.settles.trans (settles_push _ _), fun hnone => (hplain hnone).of_symbol rfl, fun h => hscalar ⟨h.plain, h.primitive⟩⟩
  rw [get_push]
  split
  · exact not_mem_nil
  · exact hunused.undeclared k

/-- A statement as a subselect of a new one, whose extent stands for the rows that it shows. -/
theorem subselect_scalars {outer : StatementId} {y : SymbolId} (h : Owns σ path b.store i)
    (hc : b.store.ScalarsOK loose exempt) (hrows : ty.isPrimitive = true → b.store.ScalarRows loose i)
    (hr : Runs (subselect i name ty true) b (outer, y) b') :
    b'.store.ScalarsOK loose exempt ∧ b'.store.ScalarInput loose outer y ty := by
  -- once the statement selects something, its rows are what the new extent stands for
  have hend : ∀ {b1 b2 : Build} {join : Option JoinInfo}, b1.store.OK → b1.store.ScalarsOK loose exempt →
      (∀ j ∈ join, Nests b1.store j) →
      (∀ j ∈ join, ∀ k l key c, b1.store.Single k l → b1.store.symbols.Files l key c → c ∉ j.columns) →
      (ty.isPrimitive = true → join = none ∧ b1.store.ShowsScalar loose i) → Runs (newExtent name ty join) b1 y b2 →
      b' = { b2 with statements := b2.statements.push (overSubselect i) } →
      b'.store.ScalarsOK loose exempt ∧ b'.store.ScalarInput loose b2.statements.size y ty := by
    intro b1 b2 join hok1 hc1 hj hapart hshows hy hb'
    obtain ⟨hc', hunused, hget, hl, hplain, hscalar⟩ := newSubselect_scalars hc1 hok1 hj hapart hy hb'
    change b'.store.get b2.statements.size = overSubselect i at hget
    refine ⟨hc', .source (by rw [hget]; rfl) hunused fun p hp hy => ?_, fun hp => Or.inl ?_⟩
    · rw [hget] at hp
      obtain rfl := endsWith_overSubselect hp
      exact .subselect rfl ((hshows (hscalar hy).2).2.settles hl)
    · rw [hget]
      exact ⟨rfl, rfl, ty, hp, hplain (hshows hp).1⟩
  obtain ⟨join, b1, b2, ⟨-, hs, columns, hsel, hnest⟩ | ⟨hne, rfl, rfl⟩, hz, rfl, hb'⟩ := subselect_cases hr
  · obtain ⟨h1, -, hcols, hextents, hu⟩ := selectAll_spec h hs hsel
    obtain ⟨hc1, hstar⟩ := selectAll_scalars h hc hs hsel
    have hgrows := selectAll_symbols h.ok hsel
    obtain ⟨hjoin, -⟩ := runs_nestedJoin?.1 hnest
    obtain ⟨-, hj⟩ := nestedJoin?_spec h1.ok hcols hu hnest
    have hapart := nestedJoin?_apart (fun j l key c hl hf hin => (hstar j l key c hl hf hin).1) hnest
    refine hend h1.ok hc1 hj hapart (fun hp => ?_) hz hb'
    cases hrows hp with
    | source _ hx _ _ => exact absurd hsel (not_runs_selectAll hx)
    | shows hshows => exact absurd hs hshows.select
    | bare hbare hprimitive hnojoin =>
      refine ⟨?_, selectAll_shows h hbare hprimitive hnojoin hsel⟩
      rw [hjoin, hextents, hbare.extents, head?_cons, Option.bind_some,
        (hgrows.symbol _ hbare.plain.lt).join, hbare.plain.join]
      rfl
  · refine hend h.ok hc (by simp) (by simp) (fun hp => ⟨rfl, ?_⟩) hz hb'
    cases hrows hp with
    | source hs _ _ _ => exact absurd hs (hne rfl)
    | bare hbare _ _ => exact absurd hbare.select (hne rfl)
    | shows hshows => exact hshows

end Build

end RelSql
