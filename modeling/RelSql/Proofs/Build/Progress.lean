/-
What a step of the construction of a query may assume and has to leave. A `Good` state has its
statements and symbols in order, and each variable in scope stands for an extent of a statement
being built. A `Step` keeps the text of all statements that were there and the stacks. `Builds` says
of steps that make parts of a text that they are such steps and that the parts are sound; it is
closed under composition.
-/
import RelSql.Proofs.Build.Runs
import RelSql.Proofs.Build.Steps

namespace RelSql.Build

open List

open Store (Sound FragmentSound around)

def store (b : Build) : Store := ⟨b.statements, b.names⟩

/-- The surrounding node is a join that takes its input in. -/
def inJoin (b : Build) : Bool := b.joins.head?.getD false

structure Good (b : Build) : Prop where
  store : b.store.OK
  building : ∀ k ∈ b.building, k < b.store.size
  scopes : ∀ frame ∈ b.scopes.frames, ∀ v ∈ frame, ∃ k ∈ b.building, v.2 ∈ (b.store.get k).fromExtents

structure SameStacks (b b' : Build) : Prop where
  building : b'.building = b.building
  joins : b'.joins = b.joins
  scopes : b'.scopes = b.scopes

theorem SameStacks.refl (b : Build) : SameStacks b b := ⟨rfl, rfl, rfl⟩

theorem SameStacks.trans {b b1 b2 : Build} (h : SameStacks b b1) (h' : SameStacks b1 b2) : SameStacks b b2 :=
  ⟨h'.building.trans h.building, h'.joins.trans h.joins, h'.scopes.trans h.scopes⟩

/-- A step from `b` to `b'` that leaves the statements of `b` as they are. -/
structure Step (b b' : Build) : Prop where
  store : b'.store.OK
  same : SameStacks b b'
  grows : Store.Grows b.store.size b.store b'.store

theorem Good.step {b b' : Build} (hb : Good b) (h : Step b b') : Good b' := by
  refine ⟨h.store, fun k hk => ?_, fun frame hf v hv => ?_⟩
  · rw [h.same.building] at hk
    exact lt_of_lt_of_le (hb.building k hk) h.grows.size
  · rw [h.same.scopes] at hf
    obtain ⟨k, hk, hx⟩ := hb.scopes frame hf v hv
    refine ⟨k, by rw [h.same.building]; exact hk, ?_⟩
    rw [(h.grows.text k (hb.building k hk)).fromExtents]; exact hx

/-- In a new scope nothing is bound yet. -/
theorem Good.enter {b : Build} (hb : Good b) : Good { b with scopes := b.scopes.enter } := by
  refine ⟨hb.store, hb.building, fun frame hf v hv => ?_⟩
  rcases mem_cons.1 hf with rfl | hf
  · cases hv
  · exact hb.scopes frame hf v hv

theorem Step.refl {b : Build} (hb : Good b) : Step b b := ⟨hb.store, .refl b, .refl _ _⟩

theorem Step.trans {b b1 b2 : Build} (h : Step b b1) (h' : Step b1 b2) : Step b b2 :=
  ⟨h'.store, h.same.trans h'.same, h.grows.trans (h'.grows.mono h.grows.size)⟩

theorem Step.inJoin {b b' : Build} (h : Step b b') : b'.inJoin = b.inJoin := by
  unfold Build.inJoin; rw [h.same.joins]

/-! ## Steps that make parts -/

/-- A fact about what was made while the statements of the path were being built. -/
abbrev Fact := Store → Nat → Path → Prop

/-- The parts are sound. -/
def Made (ps : List Part) : Fact := fun σ n path => Sound σ n path ps

/-- The text of an expression is sound. -/
def MadeFragment (f : Fragment) : Fact := fun σ n path => FragmentSound σ n path f

section

variable {α β : Type} {pre : Fact} {post : α → Fact}

/-- From a state with `pre` the step leads to one with `post`, as a step that leaves the statements
as they are. -/
def Builds (pre : Fact) (m : BuildM α) (post : α → Fact) : Prop :=
  ∀ ⦃n : Nat⦄ ⦃b b' : Build⦄ ⦃a : α⦄, Good b → b.inJoin = false → n ≤ b.store.size →
    pre b.store n (around b.building) → Runs m b a b' →
    Step b b' ∧ post a b'.store n (around b.building)

theorem builds_pure {a : α} (h : ∀ σ n path, pre σ n path → post a σ n path) :
    Builds pre (pure a) post := by
  intro n b b' a' hb _ _ hpre hr
  obtain ⟨rfl, rfl⟩ := runs_pure.1 hr
  exact ⟨.refl hb, h _ _ _ hpre⟩

theorem builds_throw {e : Error} : Builds pre (throw e) post := by
  intro n b b' a _ _ _ _ hr
  exact absurd hr runs_throw

theorem Builds.chain {m : BuildM α} {f : α → BuildM β} {post' : β → Fact} (hm : Builds pre m post)
    (hf : ∀ a, Returns m a → Builds (post a) (f a) post') : Builds pre (m >>= f) post' := by
  intro n b b' c hb hj hn hpre hr
  obtain ⟨a, b1, h1, h2⟩ := runs_bind.1 hr
  obtain ⟨hs, hp⟩ := hm hb hj hn hpre h1
  rw [← hs.same.building] at hp
  obtain ⟨hs', hp'⟩ := hf a ⟨b, b1, h1⟩ (hb.step hs) (by rw [hs.inJoin]; exact hj) (hn.trans hs.grows.size) hp h2
  rw [hs.same.building] at hp'
  exact ⟨hs.trans hs', hp'⟩

theorem Builds.bind {m : BuildM α} {f : α → BuildM β} {post' : β → Fact} (hm : Builds pre m post)
    (hf : ∀ a, Builds (post a) (f a) post') : Builds pre (m >>= f) post' :=
  hm.chain fun a _ => hf a

theorem Builds.imp {m : BuildM α} {pre' : Fact} {post' : α → Fact} (h : Builds pre m post)
    (hpre : ∀ σ n path, pre' σ n path → pre σ n path)
    (hpost : ∀ a σ n path, post a σ n path → post' a σ n path) : Builds pre' m post' := by
  intro n b b' a hb hj hn hp hr
  obtain ⟨hs, hp⟩ := h hb hj hn (hpre _ _ _ hp) hr
  exact ⟨hs, hpost _ _ _ _ hp⟩

/-- Parts that are there already stay sound. -/
theorem Builds.frame {m : BuildM α} {post : α → List Part} (h : Builds (Made []) m fun a => Made (post a))
    (ps : List Part) : Builds (Made ps) m fun a => Made (ps ++ post a) := by
  intro n b b' a hb hj hn hpre hr
  obtain ⟨hs, hp⟩ := h hb hj hn Store.sound_nil hr
  exact ⟨hs, Store.sound_append.2 ⟨hpre.grows hb.store hs.grows, hp⟩⟩

theorem builds_mapM {f : α → BuildM β} {post : β → List Part} :
    ∀ {xs : List α}, (∀ x ∈ xs, Builds (Made []) (f x) fun y => Made (post y)) →
      Builds (Made []) (xs.mapM f) fun ys => Made (ys.flatMap post)
  | [], _ => by
    rw [mapM_nil]; exact builds_pure fun _ _ _ h => h
  | x :: rest, h => by
    rw [mapM_cons]
    refine (h x mem_cons_self).bind fun y => ?_
    refine ((builds_mapM fun z hz => h z (mem_cons_of_mem _ hz)).frame (post y)).bind fun ys => ?_
    refine builds_pure fun σ n path hs => ?_
    unfold Made at hs ⊢
    rwa [flatMap_cons]

/-- A fragment is made of sound parts. -/
theorem Builds.toPart {m : BuildM Fragment} (h : Builds pre m MadeFragment) :
    Builds pre m fun f => Made [f.toPart] :=
  h.imp (fun _ _ _ h => h) fun _ _ _ _ h => h.toPart

end

end RelSql.Build
