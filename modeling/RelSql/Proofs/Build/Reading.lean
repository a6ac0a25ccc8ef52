/-
Scalar expressions read only columns that are there. A row variable stands for an extent that shows
rows of its type, a member is a column of one, and every other construct only puts texts of its
operands together, with no dot between them.
-/
import RelSql.Proofs.Build.Sources

namespace RelSql.Build

open RelSql.Part List Store

variable {b b' : Build} {σ : Store} {name : String} {f : Fragment} {operand : Operand}

/-! ## Steps that make legible text -/

/-- The state in which an expression over the variables is built. -/
structure Ready (vars : List Member) (b : Build) : Prop where
  good : Good b
  free : b.inJoin = false
  columns : b.store.ColumnsOK
  bound : Scoped vars b

theorem Ready.step {vars : List Member} (h : Ready vars b) (hs : Step b b') (hc : b'.store.ColumnsOK) :
    Ready vars b' :=
  ⟨h.good.step hs, by rw [hs.inJoin]; exact h.free, hc, h.bound.step h.good hs⟩

/-- All texts read only columns that may be read. -/
def AllLegible (pss : List (List Part)) (σ : Store) : Prop := ∀ ps ∈ pss, σ.Legible ps

theorem AllLegible.step {pss : List (List Part)} (h : AllLegible pss b.store) (hb : Good b) (hs : Step b b') :
    AllLegible pss b'.store :=
  fun ps hps => (h ps hps).lasts hb.store hs.store hs.grows.lasts

theorem allLegible_nil : AllLegible [] σ := forall_mem_nil _

theorem allLegible_append {pss qss : List (List Part)} :
    AllLegible (pss ++ qss) σ ↔ AllLegible pss σ ∧ AllLegible qss σ :=
  forall_mem_append

section

variable {α β : Type} {vars : List Member} {pre : Store → Prop} {post : α → Store → Prop}

/-- From a state with `pre` the step leads to one with `post`, as a step that leaves the statements as
they are and keeps the invariant of columns. -/
def Reads (vars : List Member) (pre : Store → Prop) (m : BuildM α) (post : α → Store → Prop) : Prop :=
  ∀ ⦃b b' : Build⦄ ⦃a : α⦄, Ready vars b → pre b.store → Runs m b a b' →
    Step b b' ∧ b'.store.ColumnsOK ∧ post a b'.store

theorem reads_pure {a : α} (h : ∀ σ, pre σ → post a σ) : Reads vars pre (pure a) post := by
  intro b b' a' hb hpre hr
  obtain ⟨rfl, rfl⟩ := runs_pure.1 hr
  exact ⟨.refl hb.good, hb.columns, h _ hpre⟩

theorem reads_throw {e : Error} : Reads vars pre (throw e) post := by
  intro b b' a _ _ hr
  exact absurd hr runs_throw

theorem Reads.chain {m : BuildM α} {f : α → BuildM β} {post' : β → Store → Prop} (hm : Reads vars pre m post)
    (hf : ∀ a, Returns m a → Reads vars (post a) (f a) post') : Reads vars pre (m >>= f) post' := by
  intro b b' c hb hpre hr
  obtain ⟨a, b1, h1, h2⟩ := runs_bind.1 hr
  obtain ⟨hs, hc, hp⟩ := hm hb hpre h1
  obtain ⟨hs', hc', hp'⟩ := hf a ⟨b, b1, h1⟩ (hb.step hs hc) hp h2
  exact ⟨hs.trans hs', hc', hp'⟩

theorem Reads.bind {m : BuildM α} {f : α → BuildM β} {post' : β → Store → Prop} (hm : Reads vars pre m post)
    (hf : ∀ a, Reads vars (post a) (f a) post') : Reads vars pre (m >>= f) post' :=
  hm.chain fun a _ => hf a

theorem Reads.imp {m : BuildM α} {post' : α → Store → Prop} (h : Reads vars pre m post)
    (hpost : ∀ a σ, post a σ → post' a σ) : Reads vars pre m post' := by
  intro b b' a hb hp hr
  obtain ⟨hs, hc, hp⟩ := h hb hp hr
  exact ⟨hs, hc, hpost _ _ hp⟩

/-- Texts that are there already stay legible. -/
theorem Reads.frame {m : BuildM α} {post : α → List (List Part)}
    (h : Reads vars (AllLegible []) m fun a => AllLegible (post a)) (pss : List (List Part)) :
    Reads vars (AllLegible pss) m fun a => AllLegible (pss ++ post a) := by
  intro b b' a hb hpre hr
  obtain ⟨hs, hc, hp⟩ := h hb allLegible_nil hr
  exact ⟨hs, hc, allLegible_append.2 ⟨hpre.step hb.good hs, hp⟩⟩

end

variable {vars : List Member}

/-- The operand makes a legible text. -/
def ValueReads (vars : List Member) (operand : Operand) : Prop :=
  Reads vars (AllLegible []) operand.build fun f => AllLegible [[f.toPart]]

/-- The operand stands for a row or value of the type. -/
def MemberReads (vars : List Member) (ty : DataType) (operand : Operand) : Prop :=
  Reads vars (AllLegible []) operand.build fun f σ => σ.FragmentViews ty f

/-! ## Variables and members -/

/-- A variable stands for the extent that is in scope, and changes no text. -/
theorem rowVariable_text (hb : Good b) (hr : Runs (rowVariable name) b f b') :
    ∃ x, b.scopes.lookup? name = some x ∧ f = .symbol x ∧ b'.names = b.names ∧
      ∀ k, (b.store.get k).SameText (b'.store.get k) := by
  obtain ⟨-, x, hx, rfl, rfl⟩ := rowVariable_cases hr
  refine ⟨x, hx, rfl, rfl, ?_⟩
  obtain ⟨frame, hf, v, hmem, rfl⟩ := Scopes.mem_of_lookup? hx
  obtain ⟨k, hk, hmem⟩ := hb.scopes frame hf v hmem
  obtain ⟨-, hg, -⟩ := markedOuter_spec b.building hb.store hb.building ((hb.store.statement k).fromExtents _ hmem)
  exact fun k => (hg (k + 1)).text k (Nat.lt_succ_self k)

/-- A variable in scope stands for an extent that shows its rows. -/
theorem rowVariable_reads {m : Member} (h : findMember? vars name = some m) :
    Reads vars (AllLegible []) (rowVariable name) fun f σ => σ.FragmentViews m.2 f := by
  intro b b' f hb _ hr
  have hstep := (rowVariable_builds name hb.good hb.free (le_refl _) Store.sound_nil hr).1
  obtain ⟨x, hx, hv⟩ := hb.bound name m h
  obtain ⟨y, hy, rfl, hnames, hsame⟩ := rowVariable_text hb.good hr
  obtain rfl := Option.some.inj (hx.symm.trans hy)
  refine ⟨hstep, hb.columns.sameText hb.good.store hstep.store ?_ hsame, hv.lasts hb.good.store hstep.store hstep.grows.lasts⟩
  change b'.names.symbols = b.names.symbols
  rw [hnames]

theorem member_reads {owner : Operand} {ty : DataType} {m : Member} (h : MemberReads vars ty owner)
    (hm : ty.member? name = some m) :
    Reads vars (AllLegible []) (member owner name) fun f σ => σ.FragmentViews m.2 f := by
  intro b b' sql hb hpre hr
  obtain ⟨f, b1, pending, hf, hmember, rfl⟩ := member_cases hr
  obtain ⟨hs, hc, hv⟩ := h hb hpre hf
  exact ⟨⟨hs.store, ⟨hs.same.building, hs.same.joins, hs.same.scopes⟩, hs.grows⟩, hc, hmember.views hs.store hc hv hm⟩

/-! ## Texts put together -/

/-- The text ends with no symbol, so that a member behind it is no column. -/
def Ended (f : Fragment) (σ : Store) : Prop :=
  ∃ ps t, f = .parts (ps ++ [.text t]) ∧ σ.Legible (ps ++ [.text t])

theorem Ended.views (h : Ended f σ) (ty : DataType) : σ.FragmentViews ty f := by
  obtain ⟨ps, t, rfl, hl⟩ := h
  exact ⟨hl, fun x hx => absurd hx (not_suffix_symbol ps t x)⟩

theorem Ended.legible (h : Ended f σ) : AllLegible [[f.toPart]] σ :=
  forall_mem_singleton.2 (h.views .emptyRow).legible

/-- The text stands by itself: nothing in it is a column of what follows, and it is no subselect. -/
def Worded (f : Fragment) (σ : Store) : Prop :=
  Ended f σ ∧ ∀ ps, f = .parts ps → (Part.group ps).subselect? = none

/-- One part of a text that is more than a dot. -/
theorem legible_group {ps : List Part} : σ.Legible [.group ps] ↔ σ.Legible ps := by
  unfold Legible
  rw [readsOnly_group, append_nil]

theorem legible_woven {pss : List (List Part)} {ps : List Part} (h : Part.Woven pss ps) (hs : AllLegible pss σ) :
    σ.Legible ps := by
  induction h with
  | nil => exact readsOnly_nil
  | skip ps _ ih => exact ih (forall_mem_cons.1 hs).2
  | text t _ ih => exact readsOnly_text.2 (ih hs)
  | line _ ih => exact readsOnly_line.2 (ih hs)
  | last ps => exact forall_mem_singleton.1 hs
  | next ps p hp _ ih =>
    obtain ⟨hps, hrest⟩ := forall_mem_cons.1 hs
    cases p with
    | text t => exact Part.ReadsOnly.append_text hps (ih hrest) (by simpa [isWord] using hp)
    | line => exact Part.ReadsOnly.append_line hps (ih hrest)
    | _ => cases hp
  | group _ ih => exact legible_group.2 (ih hs)

/-- Steps that make legible texts of legible texts. -/
theorem legibleKind : TextKind (fun taken m left => Reads vars (AllLegible taken) m fun a => AllLegible (left a))
    fun taken m => Reads vars (AllLegible taken) m fun f => AllLegible [[f.toPart]] where
  still h _ := by
    intro b b' a hb hpre hr
    cases h b a b' hr
    exact ⟨.refl hb.good, hb.columns, hpre⟩
  chain := Reads.chain
  finish := Reads.chain
  frame taken h := h.frame taken
  done hleft := reads_pure fun _ hs => by rw [hleft]; exact hs
  weave hleft hw := reads_pure fun _ hs => by
    rw [hleft]
    exact forall_mem_singleton.2 (legible_woven hw hs)
  parts hw := reads_pure fun _ hs => forall_mem_singleton.2 (legible_group.2 (legible_woven hw hs))
  refuse _ := reads_throw
  operand h := h

theorem Reads.ended {m : BuildM Fragment} (h : Reads vars (AllLegible []) m fun f => AllLegible [[f.toPart]])
    (hm : ∀ f, Returns m f → ∃ ps t, f = .parts (ps ++ [.text t])) : Reads vars (AllLegible []) m Ended := by
  intro b b' f hb hpre hr
  obtain ⟨hs, hc, hl⟩ := h hb hpre hr
  obtain ⟨ps, t, rfl⟩ := hm f ⟨b, b', hr⟩
  exact ⟨hs, hc, ps, t, rfl, legible_group.1 (forall_mem_singleton.1 hl)⟩

theorem Reads.worded {m : BuildM Fragment} (h : Reads vars (AllLegible []) m fun f => AllLegible [[f.toPart]])
    (hm : ∀ f, Returns m f → ∃ ps t, f = .parts (ps ++ [.text t]) ∧ (Part.group (ps ++ [.text t])).subselect? = none) :
    Reads vars (AllLegible []) m Worded := by
  intro b b' f hb hpre hr
  have hended : Reads vars (AllLegible []) m Ended := h.ended fun f hf => by
    obtain ⟨ps, t, hps, -⟩ := hm f hf
    exact ⟨ps, t, hps⟩
  obtain ⟨hs, hc, he⟩ := hended hb hpre hr
  obtain ⟨ps, t, rfl, hnone⟩ := hm f ⟨b, b', hr⟩
  refine ⟨hs, hc, he, ?_⟩
  rintro _ ⟨⟩
  exact hnone

theorem text_reads (t : String) : Reads vars (AllLegible []) (pure (.text t)) Worded := by
  refine Reads.worded (legibleKind.parts (.text t .nil)) ?_
  rintro f ⟨b, b', hr⟩
  obtain ⟨rfl, -⟩ := runs_pure.1 hr
  exact ⟨[], t, rfl, Part.subselect?_text (by simp)⟩

theorem constant_reads (value : Constant) : Reads vars (AllLegible []) (constant value) Worded := by
  refine (legibleKind.constant value).worded ?_
  rintro f ⟨b, b', hr⟩
  simp only [constant, runs_bind, runs_pure] at hr
  obtain ⟨t, _, -, rfl, -⟩ := hr
  exact ⟨[], t, rfl, Part.subselect?_text (by simp)⟩

theorem call_reads (f : Function) {arguments : List Operand} (h : ∀ a ∈ arguments, ValueReads vars a) :
    Reads vars (AllLegible []) (call f arguments) Worded := by
  refine (legibleKind.call f h).worded ?_
  rintro g ⟨b, b', hr⟩
  simp only [call, runs_ite, runs_bind, runs_pure, runs_throw, and_false, or_false] at hr
  rcases hr with ⟨-, -, rfl, -⟩ | ⟨-, args, _, -, rfl, -⟩
  · exact ⟨[], _, rfl, Part.subselect?_text (by simp)⟩
  · refine ⟨[.text f.qualifiedName, .text "("] ++ [Part.text ", "].intercalate (args.map fun a => [a.toPart]), ")", ?_, ?_⟩
    · rw [append_assoc]
    · exact Part.subselect?_text (by simp)

theorem caseOf_reads {branches : List (Operand × Operand)} {otherwise : Option Operand}
    (h : ∀ b ∈ branches, ValueReads vars b.1 ∧ ValueReads vars b.2) (h' : ∀ o ∈ otherwise, ValueReads vars o) :
    Reads vars (AllLegible []) (caseOf branches otherwise) Worded := by
  refine (legibleKind.caseOf h h').worded ?_
  rintro f ⟨b, b', hr⟩
  simp only [caseOf, runs_bind, runs_pure] at hr
  obtain ⟨bs, _, -, rest, _, -, rfl, -⟩ := hr
  exact ⟨_, " END", rfl, Part.subselect?_text (by simp)⟩

theorem negate_reads (h : ValueReads vars operand) : Reads vars (AllLegible []) (negate operand) Worded := by
  refine (legibleKind.negate h).worded ?_
  rintro f ⟨b, b', hr⟩
  simp only [negate, runs_bind, runs_pure] at hr
  obtain ⟨g, _, -, rfl, -⟩ := hr
  exact ⟨[.text "-(", g.toPart], ")", rfl, Part.subselect?_text (by simp)⟩

end RelSql.Build
