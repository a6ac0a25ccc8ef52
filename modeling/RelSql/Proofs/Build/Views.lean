/-
How the extents behind variables show the rows that the variables stand for. Members of a row are
columns of a plain extent, inputs of a flat join, or columns of the subselect of a nested join, which
are found through the inputs that the join had. An extent that shows rows of a type goes on to do so.
-/
import RelSql.Proofs.Build.Columns

namespace RelSql

open RelSql.Part Symbols Ident List

namespace Symbols

variable {xs ys : Symbols} {x y : SymbolId} {join : JoinInfo} {n : String} {ty : DataType}

theorem lt_of_join (h : (xs.get x).join = some join) : x < xs.size := by
  by_contra hx
  rw [get_of_size_le (not_lt.1 hx)] at h
  cases h

theorem joinInput?_eq (hg : Grows xs ys) (hlt : ∀ e ∈ join.extents, e < xs.size) :
    ys.joinInput? join n = xs.joinInput? join n := by
  have hnames : ∀ e ∈ join.extents.reverse, same (ys.get e).name n = same (xs.get e).name n := by
    intro e he
    rw [(hg.symbol e (hlt e (mem_reverse.1 he))).name]
  unfold joinInput?
  generalize join.extents.reverse = es at hnames
  induction es with
  | nil => rfl
  | cons e rest ih =>
    rw [find?_cons, find?_cons, hnames e mem_cons_self, ih fun e he => hnames e (mem_cons_of_mem _ he)]

theorem joinInput?_grows (hw : xs.WF) (hg : Grows xs ys) (hj : (xs.get x).join = some join) :
    ys.joinInput? join n = xs.joinInput? join n :=
  joinInput?_eq hg fun e he => ((hw.joins x join hj).extents e he).trans (lt_of_join hj)

/-- The members of a row of the type are among the columns, found through `y`: as columns that it has
filed, or through the inputs of a join. -/
inductive Through (symbols : Symbols) (columns : List SymbolId) : SymbolId → DataType → Prop where
  | plain {y : SymbolId} {ty : DataType} (hj : (symbols.get y).join = none) (hy : y < symbols.size)
      (h : ∀ n m, ty.member? n = some m → ∃ c ∈ columns, (symbols.get y).column? n = some c) :
      Through symbols columns y ty
  | join {y : SymbolId} {ty : DataType} {join : JoinInfo} (input : String → SymbolId)
      (hj : (symbols.get y).join = some join)
      (hi : ∀ n m, ty.member? n = some m → symbols.joinInput? join n = some (input n))
      (h : ∀ n m, ty.member? n = some m → Through symbols columns (input n) m.2) : Through symbols columns y ty

variable {columns columns' : List SymbolId}

theorem Through.lt (h : xs.Through columns y ty) : y < xs.size := by
  cases h with
  | plain _ hy _ => exact hy
  | join _ hj _ _ => exact lt_of_join hj

theorem Through.grows (h : xs.Through columns y ty) (hw : xs.WF) (hg : Grows xs ys) : ys.Through columns y ty := by
  induction h with
  | plain hj hy h =>
    refine .plain (by rw [(hg.symbol _ hy).join]; exact hj) (lt_of_lt_of_le hy hg.size) fun n m hm => ?_
    obtain ⟨c, hc, hcol⟩ := h n m hm
    exact ⟨c, hc, (hg.symbol _ hy).column n c hcol⟩
  | join input hj hi _ ih =>
    refine .join input (by rw [(hg.symbol _ (lt_of_join hj)).join]; exact hj) (fun n m hm => ?_) ih
    rw [joinInput?_grows hw hg hj]; exact hi n m hm

theorem Through.mono (h : xs.Through columns y ty) (hc : ∀ c ∈ columns, c ∈ columns') : xs.Through columns' y ty := by
  induction h with
  | plain hj hy h =>
    refine .plain hj hy fun n m hm => ?_
    obtain ⟨c, hmem, hcol⟩ := h n m hm
    exact ⟨c, hc c hmem, hcol⟩
  | join input hj hi _ ih => exact .join input hj hi ih

end Symbols

namespace Store

open Build (IsColumn memberNames)

variable {σ τ : Store} {x y e : SymbolId} {ty : DataType} {n : String}

/-- All columns of a plain extent can be read. -/
def Starred (σ : Store) (e : SymbolId) : Prop :=
  (σ.symbols.get e).join = none → ∀ m ∈ memberNames (σ.symbols.get e), σ.Readable e (.text m)

theorem Starred.lasts (h : σ.Starred e) (he : e < σ.symbols.size) (hok : σ.OK) (hok' : τ.OK) (hl : Lasts σ τ) :
    τ.Starred e := by
  have hg := hl.symbols.symbol e he
  intro hj m hm
  rw [hg.join] at hj
  unfold memberNames at hm
  rw [hg.type] at hm
  exact (h hj m hm).lasts hok hok' hl

/-- The extent shows rows of the type. -/
inductive Views (σ : Store) : SymbolId → DataType → Prop where
  | plain {x : SymbolId} {ty : DataType} (hj : (σ.symbols.get x).join = none) (hx : x < σ.symbols.size)
      (hs : σ.Starred x)
      (hm : ∀ n m, ty.member? n = some m → ∃ name ∈ memberNames (σ.symbols.get x), same name n = true) :
      Views σ x ty
  | flat {x : SymbolId} {ty : DataType} {join : JoinInfo} (input : String → SymbolId)
      (hj : (σ.symbols.get x).join = some join) (hn : join.nested = false)
      (hi : ∀ n m, ty.member? n = some m → σ.symbols.joinInput? join n = some (input n))
      (hp : ∀ n m, ty.member? n = some m → (σ.symbols.get (input n)).isPrimitive = false)
      (h : ∀ n m, ty.member? n = some m → Views σ (input n) m.2) : Views σ x ty
  | nested {x : SymbolId} {ty : DataType} {join : JoinInfo} (input : String → SymbolId)
      (hj : (σ.symbols.get x).join = some join) (hn : join.nested = true) (hx : ∃ k, x ∈ (σ.get k).aliases)
      (hi : ∀ n m, ty.member? n = some m → σ.symbols.joinInput? join n = some (input n))
      (h : ∀ n m, ty.member? n = some m → σ.symbols.Through join.columns (input n) m.2) : Views σ x ty

theorem Views.lt (h : σ.Views x ty) : x < σ.symbols.size := by
  cases h with
  | plain _ hx _ _ => exact hx
  | flat _ hj _ _ _ _ | nested _ hj _ _ _ _ => exact lt_of_join hj

theorem Views.lasts (h : σ.Views x ty) (hok : σ.OK) (hok' : τ.OK) (hl : Lasts σ τ) : τ.Views x ty := by
  induction h with
  | plain hj hx hs hm =>
    have hg := hl.symbols.symbol _ hx
    refine .plain (by rw [hg.join]; exact hj) (lt_of_lt_of_le hx hl.symbols.size) (hs.lasts hx hok hok' hl) ?_
    unfold memberNames at hm ⊢
    rw [hg.type]; exact hm
  | flat input hj hn hi hp h ih =>
    refine .flat input (by rw [(hl.symbols.symbol _ (lt_of_join hj)).join]; exact hj) hn (fun n m hm => ?_)
      (fun n m hm => ?_) ih
    · rw [joinInput?_grows hok.symbols hl.symbols hj]; exact hi n m hm
    · have hprim := hp n m hm
      unfold Symbol.isPrimitive at hprim ⊢
      rw [(hl.symbols.symbol _ (h n m hm).lt).type]; exact hprim
  | nested input hj hn hx hi h =>
    obtain ⟨k, hx⟩ := hx
    refine .nested input (by rw [(hl.symbols.symbol _ (lt_of_join hj)).join]; exact hj) hn ⟨k, hl.aliases hx⟩
      (fun n m hm => ?_) fun n m hm => (h n m hm).grows hok.symbols hl.symbols
    rw [joinInput?_grows hok.symbols hl.symbols hj]; exact hi n m hm

/-- The text stands for a row or value of the type. Where a row is text already, its members are text
behind it. -/
def FragmentViews (σ : Store) (ty : DataType) : Fragment → Prop
  | .symbol x => σ.Views x ty
  | .nested x y => (∃ k, x ∈ (σ.get k).aliases) ∧
      ∃ join, (σ.symbols.get x).join = some join ∧ σ.symbols.Through join.columns y ty
  | .parts ps => σ.Legible ps ∧ ∀ x, [.symbol x] <:+ atoms ps → IsColumn σ x
  | .statement _ => False

theorem FragmentViews.legible {f : Fragment} (h : σ.FragmentViews ty f) : σ.Legible [f.toPart] := by
  cases f with
  | symbol x | nested x y => exact readsOnly_symbol x
  | parts ps => exact readsOnly_group.2 (by rw [append_nil]; exact h.1)
  | statement i => exact h.elim

theorem Views.readable (h : σ.Views x ty) (hj : (σ.symbols.get x).join = none) {m : Member}
    (hm : ty.member? n = some m) : σ.Readable x (.text n) := by
  cases h with
  | plain _ _ hs hnames =>
    obtain ⟨name, hname, hsame⟩ := hnames n m hm
    exact (hs hj name hname).of_same hsame
  | flat _ hj' _ _ _ _ | nested _ hj' _ _ _ _ => rw [hj] at hj'; cases hj'

theorem suffix_of_column {z : SymbolId} {c : Part} (h : [.symbol z] <:+ [.symbol x, .text ".", c]) : c = .symbol z := by
  obtain ⟨pre, h⟩ := h
  match pre, h with
  | [_, _], h => cases h; rfl
  | [], h => simp at h
  | [_], h => simp at h
  | _ :: _ :: _ :: _, h => simp at h

/-- The columns of a nested join can be read. -/
theorem ColumnsOK.readable_nested {k : StatementId} {join : JoinInfo} {c : SymbolId} (h : σ.ColumnsOK)
    (hx : x ∈ (σ.get k).aliases) (hj : (σ.symbols.get x).join = some join) (hc : c ∈ join.columns) :
    σ.Readable x (.symbol c) :=
  Or.inr ⟨k, hx, fun i hi => h.nested hx hj c hc i hi⟩

end Store

namespace Build

open Store

variable {b b' : Build} {ty : DataType} {n : String} {m : Member} {f g : Fragment}

/-- A member of what stands for a row stands for a row or value of its type. -/
theorem MemberOf.views (h : MemberOf b.names.symbols n f g) (hok : b.store.OK) (hc : b.store.ColumnsOK)
    (hf : b.store.FragmentViews ty f) (hm : ty.member? n = some m) : b.store.FragmentViews m.2 g := by
  cases h with
  | @column x hj =>
    have hread := Views.readable hf hj hm
    refine ⟨Part.readsOnly_column (by simp) hread, fun z hz => ?_⟩
    have := suffix_of_column (by simpa using hz)
    cases this
  | @input x y join hj hy =>
    cases hf with
    | plain hj' _ _ _ => exact absurd (hj'.symm.trans hj) nofun
    | flat input hj' hn hi _ hv =>
      obtain rfl := Option.some.inj (hj'.symm.trans hj)
      have heq := Option.some.inj ((hi n m hm).symm.trans hy)
      rw [hn, ← heq]
      exact hv n m hm
    | nested input hj' hn hx hi hv =>
      obtain rfl := Option.some.inj (hj'.symm.trans hj)
      have heq := Option.some.inj ((hi n m hm).symm.trans hy)
      rw [hn, ← heq]
      exact ⟨hx, _, hj', hv n m hm⟩
  | @nestedInput x y z join hj hz =>
    obtain ⟨hx, outer, ho, ht⟩ := hf
    cases ht with
    | plain hj' _ _ => exact absurd (hj'.symm.trans hj) nofun
    | join input hj' hi ht =>
      obtain rfl := Option.some.inj (hj'.symm.trans hj)
      have heq := Option.some.inj ((hi n m hm).symm.trans hz)
      rw [← heq]
      exact ⟨hx, outer, ho, ht n m hm⟩
  | @nestedColumn x y hj =>
    obtain ⟨⟨k, hx⟩, outer, ho, ht⟩ := hf
    cases ht with
    | join _ hj' _ _ => exact absurd (hj'.symm.trans hj) nofun
    | plain _ _ hcol =>
      obtain ⟨c, hmem, hcol⟩ := hcol n m hm
      change (b.names.symbols.get y).column? n = some c at hcol
      rw [hcol]
      refine ⟨Part.readsOnly_column (by simp) (hc.readable_nested hx ho hmem), fun z hz => ?_⟩
      obtain ⟨rfl⟩ := suffix_of_column (by simpa using hz)
      exact (hok.symbols.joins x outer ho).columns _ hmem
  | text hsym hnest =>
    cases f with
    | symbol x => exact absurd rfl (hsym x)
    | nested x y => exact absurd rfl (hnest x y)
    | statement i => exact hf.elim
    | parts ps =>
      -- a symbol at the end of the text is a column, and off a column nothing is looked up
      refine ⟨Part.ReadsOnly.member hf.legible fun x hx => Or.inl (hf.2 x (by simpa [Fragment.toPart] using hx)), ?_⟩
      intro z hz
      obtain ⟨pre, hz⟩ := hz
      have : Part.symbol z = .text n := by
        simpa using congrArg getLast? hz
      cases this

/-! ## Variables in scope -/

/-- Every variable is bound, and its extent shows rows of its type. -/
def Scoped (vars : List Member) (b : Build) : Prop :=
  ∀ name m, findMember? vars name = some m → ∃ x, b.scopes.lookup? name = some x ∧ b.store.Views x m.2

variable {vars : List Member}

theorem Scoped.lasts (h : Scoped vars b) (hok : b.store.OK) (hok' : b'.store.OK) (hl : Lasts b.store b'.store)
    (hs : b'.scopes = b.scopes) : Scoped vars b' := by
  intro name m hm
  obtain ⟨x, hx, hv⟩ := h name m hm
  exact ⟨x, by rw [hs]; exact hx, hv.lasts hok hok' hl⟩

theorem Scoped.step (h : Scoped vars b) (hb : Good b) (hs : Step b b') : Scoped vars b' :=
  h.lasts hb.store hs.store hs.grows.lasts hs.same.scopes

theorem Scoped.add {name : String} {x : SymbolId} (h : Scoped vars b) (hv : b.store.Views x ty) :
    Scoped ((name, ty) :: vars) { b with scopes := b.scopes.add name x } := by
  intro other m hm
  rw [findMember?, find?_cons] at hm
  change ∃ y, (b.scopes.add name x).lookup? other = some y ∧ _
  rw [Scopes.lookup?_add]
  split at hm
  · rename_i hsame
    obtain rfl := Option.some.inj hm
    exact ⟨x, if_pos (same_iff.1 hsame).symm, hv⟩
  · rename_i hsame
    rw [if_neg fun hkey => by rw [same_iff.2 hkey.symm] at hsame; cases hsame]
    exact h other m hm

theorem Scoped.enter (h : Scoped vars b) : Scoped vars { b with scopes := b.scopes.enter } := h

end Build

end RelSql
