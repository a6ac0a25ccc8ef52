/-
The columns that the extents of a query have filed. A column is filed by one extent only and under
the key of its own name, an extent has one column under each key, and columns are marked for renaming
in pairs that share a name.
-/
import RelSql.Proofs.Naming.Reach

namespace RelSql

open Ident List

/-- The two symbols are joins or not, and marked for renaming or not, in the same way. -/
structure Symbol.SameMarks (s t : Symbol) : Prop where
  needsRenaming : s.needsRenaming = t.needsRenaming
  join : s.join = t.join

namespace Symbols

/-- The extent has the column under the key. -/
def Files (symbols : Symbols) (e : SymbolId) (key : String) (c : SymbolId) : Prop :=
  (key, c) ∈ (symbols.get e).columns

/-- Every column is filed once, under the key of its name. -/
structure FiledOnce (symbols : Symbols) : Prop where
  key : ∀ ⦃e key c⦄, symbols.Files e key c → Ident.key (symbols.get c).name = key
  extent : ∀ ⦃e e' key key' c⦄, symbols.Files e key c → symbols.Files e' key' c → e = e'
  column : ∀ ⦃e key c c'⦄, symbols.Files e key c → symbols.Files e key c' → c = c'

section

variable {xs ys zs : Symbols} {e i c : SymbolId} {key name : String}

theorem Files.lt (h : xs.Files e key c) : e < xs.size := by
  by_contra he
  rw [Files, get_of_size_le (not_lt.1 he)] at h
  cases h

theorem files_of_column? (h : (xs.get e).column? name = some c) : xs.Files e (Ident.key name) c :=
  mem_columns_of_column? h

theorem filedOnce_empty : FiledOnce #[] :=
  ⟨fun _ _ _ h => absurd h.lt (Nat.not_lt_zero _), fun _ _ _ _ _ h => absurd h.lt (Nat.not_lt_zero _),
    fun _ _ _ _ h => absurd h.lt (Nat.not_lt_zero _)⟩

/-- A new symbol has no columns yet. -/
theorem files_push {s : Symbol} (hs : s.columns = []) : Files (xs.push s) e key c ↔ xs.Files e key c := by
  unfold Files
  rw [get_push]
  split
  · rename_i he
    rw [hs, he, get_of_size_le (le_refl _)]
    simp [default, instInhabitedSymbol.default]
  · rfl

theorem FiledOnce.push (h : xs.FiledOnce) (hw : xs.WF) {s : Symbol} (hs : s.columns = []) :
    FiledOnce (xs.push s) := by
  refine ⟨fun e key c hf => ?_, fun e e' key key' c hf hf' => ?_, fun e key c c' hf hf' => ?_⟩ <;>
    rw [files_push hs] at hf
  · rw [get_push_of_lt (hw.columns e _ hf).1]; exact h.key hf
  · rw [files_push hs] at hf'; exact h.extent hf hf'
  · rw [files_push hs] at hf'; exact h.column hf hf'

/-! ## Filing more columns -/

/-- `ys` is the table `xs` where the extents `es` may have filed more columns, all of them new. -/
structure Filing (es : List SymbolId) (xs ys : Symbols) : Prop where
  grows : Grows xs ys
  once : ys.FiledOnce
  old : ∀ ⦃e key c⦄, xs.Files e key c → ys.Files e key c
  new : ∀ ⦃e key c⦄, ys.Files e key c → xs.Files e key c ∨ e ∈ es ∧ xs.size ≤ c

variable {es : List SymbolId}

theorem Filing.refl (h : xs.FiledOnce) : Filing es xs xs := ⟨.refl xs, h, fun _ _ _ h => h, fun _ _ _ h => Or.inl h⟩

theorem Filing.trans (h : Filing es xs ys) (h' : Filing es ys zs) : Filing es xs zs := by
  refine ⟨h.grows.trans h'.grows, h'.once, fun e key c hf => h'.old (h.old hf), fun e key c hf => ?_⟩
  rcases h'.new hf with hf | ⟨he, hc⟩
  · exact h.new hf
  · exact Or.inr ⟨he, h.grows.size.trans hc⟩

theorem Filing.mono {es' : List SymbolId} (h : Filing es xs ys) (hs : ∀ e ∈ es, e ∈ es') : Filing es' xs ys :=
  ⟨h.grows, h.once, h.old, fun _ _ _ hf => (h.new hf).imp id fun hn => ⟨hs _ hn.1, hn.2⟩⟩

/-- A new symbol files nothing. -/
theorem filing_push (hw : xs.WF) (h : xs.FiledOnce) {s : Symbol} (hs : s.columns = []) :
    Filing es xs (xs.push s) :=
  ⟨grows_push xs s, h.push hw hs, fun _ _ _ hf => (files_push hs).2 hf, fun _ _ _ hf => Or.inl ((files_push hs).1 hf)⟩

theorem columnOrInsert_of_none (h : (xs.get i).column? name = none) : xs.columnOrInsert i name =
    (xs.size, (xs.push (.column name)).modify i fun s =>
      { s with columns := s.columns ++ [(Ident.key name, xs.size)] }) := by
  unfold columnOrInsert
  rw [h]; rfl

/-- The table in which an extent has filed a new column. -/
theorem get_insert (hi : i < xs.size) (name : String) (k : SymbolId) :
    get ((xs.push (.column name)).modify i fun s => { s with columns := s.columns ++ [(Ident.key name, xs.size)] }) k =
      if k = xs.size then .column name
      else if k = i then { xs.get i with columns := (xs.get i).columns ++ [(Ident.key name, xs.size)] }
      else xs.get k := by
  rw [get_modify, get_push]
  by_cases hk : k = xs.size
  · rw [if_neg fun hik => Nat.ne_of_lt hi (hik.1.trans hk), if_pos hk, if_pos hk]
  · by_cases hik : k = i
    · rw [if_pos ⟨hik.symm, by rw [hik, Array.size_push]; exact Nat.lt_succ_of_lt hi⟩, if_neg hk, if_neg hk, if_pos hik, hik]
    · rw [if_neg fun h => hik h.1.symm, if_neg hk, if_neg hk, if_neg hik]

theorem filing_insert (hw : xs.WF) (h : xs.FiledOnce) (hi : i < xs.size) (hnone : (xs.get i).column? name = none)
    (hys : ys = (xs.push (.column name)).modify i fun s => { s with columns := s.columns ++ [(Ident.key name, xs.size)] })
    (hg : Grows xs ys) : Filing [i] xs ys ∧ (∀ d, (ys.get d).SameMarks (xs.get d)) ∧
      ∀ e key c, ys.Files e key c → xs.Files e key c ∨ c = xs.size := by
  have hget := get_insert hi name
  rw [← hys] at hget
  have hfiles : ∀ {e key c}, ys.Files e key c →
      xs.Files e key c ∨ e = i ∧ key = Ident.key name ∧ c = xs.size := by
    intro e key c hf
    rw [Files, hget] at hf
    split at hf
    · cases hf
    · split at hf
      · rename_i he
        rcases mem_append.1 hf with hf | hf
        · exact Or.inl (by rw [he]; exact hf)
        · injection mem_singleton.1 hf with hk hc
          exact Or.inr ⟨he, hk, hc⟩
      · exact Or.inl hf
  have hfresh : ∀ {e key}, ¬ xs.Files e key xs.size := fun hf => Nat.lt_irrefl _ (hw.columns _ _ hf).1
  -- the extent had no column under that key
  have hno : ∀ {c}, ¬ xs.Files i (Ident.key name) c := by
    intro c hf
    have := lookup_eq_none_iff.1 hnone (Ident.key name, c) hf
    simp at this
  have hmarks : ∀ d, (ys.get d).SameMarks (xs.get d) := by
    intro d
    rw [hget]
    split
    · rename_i hd; rw [hd, get_of_size_le (le_refl _)]; exact ⟨rfl, rfl⟩
    · split
      · rename_i hd; rw [hd]; exact ⟨rfl, rfl⟩
      · exact ⟨rfl, rfl⟩
  refine ⟨⟨hg, ⟨fun e key c hf => ?_, fun e e' key key' c hf hf' => ?_, fun e key c c' hf hf' => ?_⟩,
    fun e key c hf => ?_, fun e key c hf => ?_⟩, hmarks, fun e key c hf => (hfiles hf).imp id fun h => h.2.2⟩
  · rcases hfiles hf with hf | ⟨-, rfl, rfl⟩
    · rw [(hg.symbol c (hw.columns e _ hf).1).name]; exact h.key hf
    · rw [hget, if_pos rfl]; rfl
  · rcases hfiles hf with hold | ⟨he, -, hc⟩ <;> rcases hfiles hf' with hold' | ⟨he', -, hc'⟩
    · exact h.extent hold hold'
    · rw [hc'] at hold; exact absurd hold hfresh
    · rw [hc] at hold'; exact absurd hold' hfresh
    · exact he.trans he'.symm
  · rcases hfiles hf with hold | ⟨he, hk, hc⟩ <;> rcases hfiles hf' with hold' | ⟨he', hk', hc'⟩
    · exact h.column hold hold'
    · rw [he', hk'] at hold; exact absurd hold hno
    · rw [he, hk] at hold'; exact absurd hold' hno
    · exact hc.trans hc'.symm
  · rw [Files, hget, if_neg (Nat.ne_of_lt hf.lt)]
    split
    · rename_i he; rw [he] at hf; exact mem_append_left _ hf
    · exact hf
  · rcases hfiles hf with hf | ⟨rfl, -, rfl⟩
    · exact Or.inl hf
    · exact Or.inr ⟨mem_singleton_self _, le_refl _⟩

/-- Asking an extent for a column files it, and it is found there afterwards. -/
theorem columnOrInsert_filing (hw : xs.WF) (h : xs.FiledOnce) (hi : i < xs.size)
    (hr : xs.columnOrInsert i name = (c, ys)) : Filing [i] xs ys ∧ (ys.get i).column? name = some c ∧
      (∀ d, (ys.get d).SameMarks (xs.get d)) ∧
      ∀ e key d, ys.Files e key d → xs.Files e key d ∨ (ys.get d).name = name := by
  obtain ⟨-, hg, -, -⟩ := columnOrInsert_spec hw hr
  unfold columnOrInsert at hr
  split at hr
  · rename_i c' hc
    cases hr
    exact ⟨.refl h, hc, fun _ => ⟨rfl, rfl⟩, fun _ _ _ => Or.inl⟩
  · rename_i hnone
    unfold add at hr
    cases hr
    obtain ⟨hf, hm, hnew⟩ := filing_insert hw h hi hnone rfl hg
    refine ⟨hf, ?_, hm, fun e key d hd => (hnew e key d hd).imp id fun hd => by rw [hd, get_insert hi, if_pos rfl]; rfl⟩
    have hlt : i < Array.size (xs.push (.column name)) := by rw [Array.size_push]; exact Nat.lt_succ_of_lt hi
    rw [get_modify, if_pos ⟨rfl, hlt⟩, get_push_of_lt hi]
    unfold Symbol.column? at hnone ⊢
    rw [lookup_append, hnone]
    simp

/-! ## Marks -/

/-- Marking changes nothing but marks. -/
theorem get_setNeedsRenaming (xs : Symbols) (i k : SymbolId) (flag : Bool) :
    ∃ f, (xs.setNeedsRenaming i flag).get k = { xs.get k with needsRenaming := f } := by
  unfold setNeedsRenaming
  rw [get_modify]
  split
  · exact ⟨flag, rfl⟩
  · exact ⟨_, rfl⟩

theorem get_markClashes (columns : List SymbolId) : ∀ (xs : Symbols) (seen : List (String × SymbolId)) (k : SymbolId),
    ∃ f, (xs.markClashes seen columns).get k = { xs.get k with needsRenaming := f } := by
  induction columns with
  | nil => intro xs seen k; exact ⟨_, rfl⟩
  | cons c rest ih =>
    intro xs seen k
    unfold markClashes
    dsimp only
    split
    · exact ih _ _ k
    · split
      · exact ih _ _ k
      · rename_i first _ _
        obtain ⟨f, hf⟩ := ih ((xs.setNeedsRenaming first true).setNeedsRenaming c true) seen k
        obtain ⟨f1, h1⟩ := get_setNeedsRenaming (xs.setNeedsRenaming first true) c k true
        obtain ⟨f2, h2⟩ := get_setNeedsRenaming xs first k true
        exact ⟨f, by rw [hf, h1, h2]⟩

/-- Columns of different names are not marked. -/
theorem markClashes_of_pairwise {columns : List SymbolId} : ∀ {seen : List (String × SymbolId)},
    columns.Pairwise (fun c d => Ident.key (xs.get c).name ≠ Ident.key (xs.get d).name) →
    (∀ c ∈ columns, seen.lookup (Ident.key (xs.get c).name) = none) → xs.markClashes seen columns = xs := by
  induction columns with
  | nil => intro seen _ _; rfl
  | cons c rest ih =>
    intro seen hp hs
    obtain ⟨hc, hp⟩ := pairwise_cons.1 hp
    obtain ⟨hnone, hs⟩ := forall_mem_cons.1 hs
    unfold markClashes
    dsimp only
    rw [hnone]
    refine ih hp fun d hd => ?_
    rw [lookup_cons, beq_eq_false_iff_ne.2 (hc d hd).symm]
    exact hs d hd

theorem name_markClashes (xs : Symbols) (seen : List (String × SymbolId)) (columns : List SymbolId) (k : SymbolId) :
    ((xs.markClashes seen columns).get k).name = (xs.get k).name := by
  obtain ⟨f, hf⟩ := get_markClashes columns xs seen k
  rw [hf]

theorem files_markClashes {seen : List (String × SymbolId)} {columns : List SymbolId} :
    (xs.markClashes seen columns).Files e key c ↔ xs.Files e key c := by
  obtain ⟨f, hf⟩ := get_markClashes columns xs seen e
  unfold Files
  rw [hf]

theorem filing_markClashes (h : xs.FiledOnce) (seen : List (String × SymbolId)) (columns : List SymbolId) :
    Filing es xs (xs.markClashes seen columns) := by
  refine ⟨grows_markClashes columns xs seen, ?_, fun _ _ _ hf => files_markClashes.2 hf,
    fun _ _ _ hf => Or.inl (files_markClashes.1 hf)⟩
  refine ⟨fun e key c hf => ?_, fun e e' key key' c hf hf' => ?_, fun e key c c' hf hf' => ?_⟩ <;>
    rw [files_markClashes] at hf
  · rw [name_markClashes]; exact h.key hf
  · exact h.extent hf (files_markClashes.1 hf')
  · exact h.column hf (files_markClashes.1 hf')

/-- The column shares its name with another one of the columns. -/
def Clashes (symbols : Symbols) (columns : List SymbolId) (c : SymbolId) : Prop :=
  c ∈ columns ∧ ∃ c' ∈ columns, c' ≠ c ∧ Ident.key (symbols.get c').name = Ident.key (symbols.get c).name

/-- A column that was not marked before is marked only if it clashes. -/
theorem marked_markClashes (columns : List SymbolId) : ∀ {xs : Symbols} {seen : List (String × SymbolId)},
    (∀ p ∈ seen, p.1 = Ident.key (xs.get p.2).name) →
    ((xs.markClashes seen columns).get c).needsRenaming = true →
    (xs.get c).needsRenaming = true ∨ Clashes xs (seen.map Prod.snd ++ columns) c := by
  induction columns with
  | nil => intro xs seen _ h; exact Or.inl h
  | cons d rest ih =>
    intro xs seen hseen h
    have hname : ∀ {ys : Symbols}, (∀ k, (ys.get k).name = (xs.get k).name) → ∀ {cs : List SymbolId},
        (∀ k ∈ cs, k ∈ seen.map Prod.snd ++ d :: rest) → Clashes ys cs c →
        Clashes xs (seen.map Prod.snd ++ d :: rest) c := by
      rintro ys hys cs hcs ⟨hc, c', hc', hne, hkey⟩
      rw [hys, hys] at hkey
      exact ⟨hcs c hc, c', hcs c' hc', hne, hkey⟩
    unfold markClashes at h
    dsimp only at h
    split at h
    · rcases ih (forall_mem_cons.2 ⟨rfl, hseen⟩) h with h | h
      · exact Or.inl h
      · exact Or.inr (hname (fun _ => rfl) (by simp; tauto) h)
    · rename_i first hfirst
      split at h
      · rcases ih hseen h with h | h
        · exact Or.inl h
        · exact Or.inr (hname (fun _ => rfl) (by simp; tauto) h)
      · rename_i hne
        have hys : ∀ k, (((xs.setNeedsRenaming first true).setNeedsRenaming d true).get k).name = (xs.get k).name := by
          intro k
          obtain ⟨f1, h1⟩ := get_setNeedsRenaming (xs.setNeedsRenaming first true) d k true
          obtain ⟨f2, h2⟩ := get_setNeedsRenaming xs first k true
          rw [h1, h2]
        obtain ⟨l1, l2, hl, -⟩ := lookup_eq_some_iff.1 hfirst
        have hmem : (Ident.key (xs.get d).name, first) ∈ seen := by rw [hl]; simp
        have hkey : Ident.key (xs.get d).name = Ident.key (xs.get first).name := hseen _ hmem
        have hin : first ∈ seen.map Prod.snd := mem_map.2 ⟨_, hmem, rfl⟩
        rcases ih (fun p hp => by rw [hys]; exact hseen p hp) h with h | h
        · -- the two columns that were marked just now clash
          by_cases hcd : c = d
          · exact Or.inr ⟨by rw [hcd]; simp, first, by simp [hin], by rw [hcd]; exact hne, by rw [hcd]; exact hkey.symm⟩
          · by_cases hcf : c = first
            · exact Or.inr ⟨by rw [hcf]; simp [hin], d, by simp, fun hd => hcd hd.symm, by rw [hcf]; exact hkey⟩
            · rw [setNeedsRenaming, get_modify, if_neg fun hk => hcd hk.1.symm, setNeedsRenaming, get_modify,
                if_neg fun hk => hcf hk.1.symm] at h
              exact Or.inl h
        · exact Or.inr (hname hys (by simp; tauto) h)

/-- Marks are not taken back. -/
theorem needsRenaming_markClashes (columns : List SymbolId) : ∀ {xs : Symbols} {seen : List (String × SymbolId)},
    (xs.get c).needsRenaming = true → ((xs.markClashes seen columns).get c).needsRenaming = true := by
  induction columns with
  | nil => intro xs seen h; exact h
  | cons d rest ih =>
    intro xs seen h
    have hset : ∀ {ys : Symbols} (i : SymbolId), (ys.get c).needsRenaming = true →
        ((ys.setNeedsRenaming i true).get c).needsRenaming = true := by
      intro ys i hy
      rw [setNeedsRenaming, get_modify]
      split
      · rfl
      · exact hy
    unfold markClashes
    dsimp only
    split
    · exact ih h
    · split
      · exact ih h
      · exact ih (hset d (hset _ h))

/-- The column is one of the list, or the first one of its name that was seen. -/
def Compared (symbols : Symbols) (seen : List (String × SymbolId)) (columns : List SymbolId) (c : SymbolId) : Prop :=
  c ∈ columns ∨ seen.lookup (Ident.key (symbols.get c).name) = some c

/-- A column that shares its name with another one is marked: with the first one of the name, or as that. -/
theorem marked_of_clash (columns : List SymbolId) : ∀ {xs : Symbols} {seen : List (String × SymbolId)} {c d : SymbolId},
    (∀ p ∈ seen, p.1 = Ident.key (xs.get p.2).name) → c < xs.size → xs.Compared seen columns c →
    xs.Compared seen columns d → c ≠ d → Ident.key (xs.get c).name = Ident.key (xs.get d).name →
    ((xs.markClashes seen columns).get c).needsRenaming = true := by
  induction columns with
  | nil =>
    intro xs seen c d _ _ hc hd hne hkey
    have hc := hc.resolve_left not_mem_nil
    rw [hkey, hd.resolve_left not_mem_nil] at hc
    exact absurd (Option.some.inj hc).symm hne
  | cons e rest ih =>
    intro xs seen c d hseen hlt hc hd hne hkey
    have hrest : ∀ {x : SymbolId}, x ≠ e → xs.Compared seen (e :: rest) x → xs.Compared seen rest x :=
      fun hx h => h.imp (fun hm => (mem_cons.1 hm).resolve_left hx) id
    unfold markClashes
    dsimp only
    split
    · rename_i hnone
      -- the column is the first one of its name
      have hnext : ∀ {x : SymbolId}, xs.Compared seen (e :: rest) x →
          xs.Compared ((Ident.key (xs.get e).name, e) :: seen) rest x := by
        intro x hx
        by_cases hxe : x = e
        · rw [hxe]; exact Or.inr lookup_cons_self
        · refine (hrest hxe hx).imp id fun hx => ?_
          rw [lookup_cons, beq_eq_false_iff_ne.2 fun hk => by rw [hk, hnone] at hx; cases hx]
          exact hx
      exact ih (forall_mem_cons.2 ⟨rfl, hseen⟩) hlt (hnext hc) (hnext hd) hne hkey
    · rename_i first hfirst
      split
      · rename_i hsame
        subst hsame
        have hnext : ∀ {x : SymbolId}, xs.Compared seen (first :: rest) x → xs.Compared seen rest x := by
          intro x hx
          by_cases hxe : x = first
          · rw [hxe]; exact Or.inr hfirst
          · exact hrest hxe hx
        exact ih hseen hlt (hnext hc) (hnext hd) hne hkey
      · have hfkey : Ident.key (xs.get e).name = Ident.key (xs.get first).name := by
          obtain ⟨l1, l2, hl, -⟩ := lookup_eq_some_iff.1 hfirst
          exact hseen (Ident.key (xs.get e).name, first) (by rw [hl]; simp)
        have hname : ∀ k, (((xs.setNeedsRenaming first true).setNeedsRenaming e true).get k).name = (xs.get k).name := by
          intro k
          obtain ⟨f1, h1⟩ := get_setNeedsRenaming (xs.setNeedsRenaming first true) e k true
          obtain ⟨f2, h2⟩ := get_setNeedsRenaming xs first k true
          rw [h1, h2]
        by_cases hmarked : c = first ∨ c = e
        · refine needsRenaming_markClashes rest ?_
          rw [setNeedsRenaming, setNeedsRenaming, get_modify, get_modify, Array.size_modify]
          rcases hmarked with rfl | rfl
          · by_cases hce : e = c
            · rw [if_pos ⟨hce, hlt⟩]
            · rw [if_neg fun h => hce h.1, if_pos ⟨rfl, hlt⟩]
          · rw [if_pos ⟨rfl, hlt⟩]
        · obtain ⟨hcf, hce⟩ := not_or.1 hmarked
          have hlt' : c < ((xs.setNeedsRenaming first true).setNeedsRenaming e true).size := by
            simpa [setNeedsRenaming] using hlt
          have hc := hrest hce hc
          -- what the column is compared with later is still there, or it is the first one of the name
          by_cases hde : d = e
          · refine ih (d := first) (fun p hp => by rw [hname]; exact hseen p hp) hlt' ?_ (Or.inr ?_) hcf ?_
            · unfold Compared; rw [hname]; exact hc
            · rw [hname, ← hfkey]; exact hfirst
            · rw [hname, hname, ← hfkey, ← hde]; exact hkey
          · refine ih (d := d) (fun p hp => by rw [hname]; exact hseen p hp) hlt' ?_ ?_ hne ?_
            · unfold Compared; rw [hname]; exact hc
            · unfold Compared; rw [hname]; exact hrest hde hd
            · rw [hname, hname]; exact hkey

end

end Symbols

end RelSql
