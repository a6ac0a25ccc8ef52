/-
The names in the text of a query. The aliases of one `FROM` list are different names, whatever the
variables of the query are called, and every symbol has one name throughout the text: it is renamed at
most once, before it is written, to a name that was not in use.
-/
import RelSql.Proofs.Query.Scoping

namespace RelSql

open List Store Names

/-! ## Aliases of a statement -/

/-- The aliases that the `FROM` list of a statement declares, as they are written. -/
def Statement.aliasNames (s : Statement) (symbols : Symbols) : List String :=
  s.aliases.map fun e => (symbols.get e).currentName

theorem aliasNames_pairwise {σ : Store} {ν : Names} (hok : σ.OK) (hr : σ.Renaming ν) {k : StatementId}
    (hk : σ.Settled ν k) :
    ((σ.get k).aliasNames ν.symbols).Pairwise fun m n => Ident.same m n = false := by
  refine pairwise_map.2 ?_
  refine (hok.statement k).nodup.imp_of_mem fun {x y} hx hy hne => ?_
  exact apart_of_declared hok hr hk hy hx hne

/-- In the text of a query no `FROM` list declares two aliases of one name. -/
theorem compile_aliases_distinct {config : Config} {query : Expr} {compiled : CompiledQuery}
    (h : Query.compile config query = .ok compiled) :
    ∃ f b names, WrittenFrom config query compiled f b names ∧
      ∀ k, Occurs b.statements.written [f.toPart] k →
        ((b.statements.get k).aliasNames names.symbols).Pairwise fun m n => Ident.same m n = false := by
  obtain ⟨f, b, names, hwritten, hok, hr, -, hsettled⟩ := writtenFrom_of_compile h
  exact ⟨f, b, names, hwritten, fun k hk => aliasNames_pairwise hok hr (hsettled k hk)⟩

/-- Three tables, two of them under variables of one name. -/
def likeNamed : Expr := .crossJoin [(keyed "p").bind "a", (keyed "t").bind "a", (keyed "v").bind "a1"]

/-- The second alias gets a number that the third has not taken, although that one is written later. -/
theorem likeNamed_aliases :
    ∃ compiled, Query.compile {} likeNamed = .ok compiled ∧
      compiled.text = "SELECT a.k AS k1, a2.k AS k2, a1.k AS k3 FROM p AS a CROSS JOIN t AS a2 CROSS JOIN v AS a1" ∧
      ∃ f b names, WrittenFrom {} likeNamed compiled f b names ∧
        ∀ k, Occurs b.statements.written [f.toPart] k →
          ((b.statements.get k).aliasNames names.symbols).Pairwise fun m n => Ident.same m n = false := by
  have h : Query.compile {} likeNamed = .ok
      ⟨"SELECT a.k AS k1, a2.k AS k2, a1.k AS k3 FROM p AS a CROSS JOIN t AS a2 CROSS JOIN v AS a1",
        ["k1", "k2", "k3"]⟩ := ok_of_toOption (by decide +kernel)
  obtain ⟨f, b, names, hwritten, hall⟩ := compile_aliases_distinct h
  exact ⟨_, h, rfl, f, b, names, hwritten, hall⟩

/-! ## One name for each symbol -/

namespace Writing

variable {symbols : Symbols} {statements : Statements}

/-- The property holds of the pieces of a text, and goes from texts to longer ones and from the clauses of
a statement to the statement. -/
structure Closed (statements : Statements) (symbols : Symbols) (p : List Piece → Prop) : Prop where
  nil : p []
  append : ∀ {ps qs : List Piece}, p ps → p qs → p (ps ++ qs)
  text : ∀ s, p [.text s]
  line : p [.line]
  name : ∀ i, p [.name i (symbols.get i).currentName]
  statement : ∀ {i : StatementId} {nested : StatementId → List Piece}, p (clauses symbols nested (statements.get i)) →
    p (.enter i :: clauses symbols nested (statements.get i) ++ [.leave])

namespace Closed

variable {p : List Piece → Prop} (hp : Closed statements symbols p) {nested : StatementId → List Piece}

include hp

theorem parts (hn : ∀ j, p (nested j)) (ps : List Part) : p (parts symbols nested ps) := by
  unfold Writing.parts
  induction Part.atoms ps with
  | nil => exact hp.nil
  | cons a rest ih =>
    rw [flatMap_cons]
    refine hp.append ?_ ih
    cases a with
    | text s => exact hp.text s
    | line => exact hp.line
    | symbol i => exact hp.name i
    | group qs => exact hp.nil
    | statement j => exact hn j

theorem clauses (hn : ∀ j, p (nested j)) (s : Statement) : p (clauses symbols nested s) := by
  have hclause : ∀ keyword ps, p (clause symbols nested keyword ps) := by
    intro keyword ps
    unfold clause
    split
    · exact hp.nil
    · exact hp.append hp.line (hp.append (hp.text keyword) (hp.parts hn ps))
  have hcount : ∀ keyword ps, p (count symbols nested keyword ps) := by
    intro keyword ps
    cases ps with
    | none => exact hp.nil
    | some ps => exact hp.append (hp.text keyword) (hp.parts hn ps)
  have hhead : p (.text "SELECT " :: if s.distinct then [.text "DISTINCT "] else []) := by
    cases s.distinct
    · exact hp.text _
    · exact hp.append (hp.text _) (hp.text _)
  exact hp.append (hp.append (hp.append (hp.append (hp.append (hp.append (hp.append hhead (hp.parts hn _)) (hclause _ _))
    (hclause _ _)) (hclause _ _)) (hclause _ _)) (hcount _ _)) (hcount _ _)

theorem ofText (ps : List Part) : p (Writing.text statements symbols ps) := by
  have hstatement : ∀ (depth : Nat) (j : StatementId), p (Writing.statement statements symbols depth j) := by
    intro depth
    induction depth with
    | zero => exact fun _ => hp.nil
    | succ depth ih => exact fun j => hp.statement (hp.clauses ih _)
  exact hp.parts (hstatement _) ps

end Closed

/-- Symbols are written under the names that they have in the table. -/
def Named (symbols : Symbols) (pieces : List Piece) : Prop :=
  ∀ i n, .name i n ∈ pieces → n = (symbols.get i).currentName

theorem named_text (statements : Statements) (ps : List Part) : Named symbols (text statements symbols ps) := by
  have hclosed : Closed statements symbols (Named symbols) := by
    refine ⟨nofun, fun hp hq i n h => (mem_append.1 h).elim (hp i n) (hq i n), fun s i n h => ?_, fun i n h => ?_,
      fun j i n h => ?_, fun hp i n h => ?_⟩
    · cases mem_singleton.1 h
    · cases mem_singleton.1 h
    · cases mem_singleton.1 h
      rfl
    · simp only [cons_append, mem_cons, mem_append, reduceCtorEq, not_mem_nil, or_false,
        false_or] at h
      exact hp i n h
  exact hclosed.ofText ps

end Writing

/-- Each symbol has one name in the events that start at the names `ν`. -/
structure Names.OneNameEach (ν : Names) (events : List NameEvent) : Prop where
  /-- It is written under one name. -/
  same : ∀ i m n, .written i m ∈ events → .written i n ∈ events → m = n
  /-- It is renamed at most once. -/
  once : (events.filterMap NameEvent.renames?).Nodup
  /-- When it is renamed, it has its first name, and the registry does not have the new one, with all that
  was taken from it before. -/
  free : ∀ before i n later, events = before ++ .renamed i n :: later → (ν.after before).Renames i n
  /-- It is not written before it is renamed. -/
  early : ∀ before i n after, events = before ++ .renamed i n :: after → ∀ m, .written i m ∉ before
  /-- A column is renamed when it is written. -/
  column : ∀ before c n after, events = before ++ .renamed c n :: after → (ν.symbols.get c).type = none →
    ∃ rest, after = .written c n :: rest
  /-- What is marked for renaming is not written without. -/
  marked : ∀ i n, (ν.symbols.get i).needsRenaming = true → .written i n ∈ events → .renamed i n ∈ events

theorem Registry.numbered_ne (base : String) (k : Nat) : numbered base k ≠ base := by
  intro h
  have hlist := congrArg String.toList h
  unfold numbered Digits.ofNat at hlist
  rw [String.toList_append, String.toList_ofList] at hlist
  exact Nat.toDigits_ne_nil (append_right_eq_self.1 hlist)

theorem Names.Trace.oneNameEach {ν ν' : Names} {events : List NameEvent} (h : ν.Trace events ν')
    (horiginal : ∀ i, (ν.symbols.get i).newName = none)
    (hwritten : ∀ i n, .written i n ∈ events → n = (ν'.symbols.get i).currentName) : ν.OneNameEach events := by
  refine ⟨fun i m n hm hn => (hwritten i m hm).trans (hwritten i n hn).symm, h.nodup, ?_, ?_, ?_,
    fun i n hmark hn => h.renamed_of_marked (horiginal i) hmark hn⟩
  · rintro before i n after rfl
    exact (Trace.split before h).2.2.1
  · rintro before i n after rfl m hm
    obtain ⟨hlast, ht, hr, -⟩ := Trace.split before h
    -- it would be written under its first name, which is not the new one
    have hfirst : m = ((ν.after before).symbols.get i).name := (ht.of_first hr.first).2 m hm
    have hnew : m = n := (hwritten i m (mem_append_left _ hm)).trans (currentName_of_newName hlast)
    exact Registry.numbered_ne _ _ (hr.drawn.symm.trans (hnew.symm.trans hfirst))
  · rintro before c n after rfl hc
    obtain ⟨-, ht, hr, hrest⟩ := Trace.split before h
    exact hrest (by rw [(ht.of_first hr.first).1]; exact hc)

/-- The text of a query writes each symbol under one name. The names came about by events of renaming
and writing, of which the text records the latter. -/
theorem compile_one_name_each {config : Config} {query : Expr} {compiled : CompiledQuery}
    (h : Query.compile config query = .ok compiled) :
    ∃ f b names events, WrittenFrom config query compiled f b names ∧ b.names.Trace events names ∧
      names = b.names.after events ∧
      events.filter NameEvent.isWritten =
        (Writing.text b.statements.written names.symbols [f.toPart]).filterMap Piece.event? ∧
      b.names.OneNameEach events := by
  obtain ⟨f, b, pieces, names, hp, hr, rfl⟩ := exists_of_compile h
  obtain ⟨hok, hs⟩ := Query.plan_sound hp
  obtain ⟨-, rfl, -, -, events, htrace, hwritten⟩ := Render.renderParts_spec hok hs hr
  refine ⟨f, b, names, events, ⟨hp, by rw [hr], rfl⟩, htrace, htrace.eq_after, hwritten,
    htrace.oneNameEach hok.symbols.original fun i n hn => ?_⟩
  have hmem : .written i n ∈ events.filter NameEvent.isWritten := List.mem_filter.2 ⟨hn, rfl⟩
  rw [hwritten] at hmem
  obtain ⟨piece, hpiece, hevent⟩ := List.mem_filterMap.1 hmem
  cases piece with
  | name j m =>
    cases hevent
    exact Writing.named_text _ _ i n hpiece
  | _ => cases hevent

/-- In a filter over a join the inner alias and both columns get new names. -/
theorem filteredPairs_names :
    ∃ compiled, Query.compile {} filteredPairs = .ok compiled ∧
      compiled.text = "SELECT a.k AS k1, b.k AS k2 FROM p AS a INNER JOIN t AS b ON a.k = b.k " ++
        "WHERE NOT EXISTS (SELECT a1.k AS k FROM t AS a1 WHERE a1.k = a.k)" ∧
      ∃ f b names events, WrittenFrom {} filteredPairs compiled f b names ∧ b.names.Trace events names ∧
        names = b.names.after events ∧
        events.filter NameEvent.isWritten =
          (Writing.text b.statements.written names.symbols [f.toPart]).filterMap Piece.event? ∧
        b.names.OneNameEach events := by
  obtain ⟨f, b, names, events, hwritten, htrace, hafter, htext, hone⟩ := compile_one_name_each filteredPairs_compiled
  exact ⟨_, filteredPairs_compiled, rfl, f, b, names, events, hwritten, htrace, hafter, htext, hone⟩

end RelSql
