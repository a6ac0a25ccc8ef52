/-
The grammar of conditions and a reader for it. From the loosest to the tightest there are: disjunction,
conjunction, negation, comparisons of all sorts, sums, products, signs, and what stands by itself.
Operators of one level group to the left. The reader goes through the tokens once and keeps what is
still open; it finds the tree of every condition that the grammar has, so there is never more than
one.
-/
import RelSql.Proofs.Condition.Token

namespace RelSql.Condition

open List

/-! ## Trees -/

inductive UnaryOp where
  | not
  | minus
deriving Repr, DecidableEq

inductive Tree where
  | atom (atom : Atom)
  | null
  | unary (op : UnaryOp) (operand : Tree)
  | binary (op : BinaryOp) (left right : Tree)
  | isNull (negated : Bool) (operand : Tree)
  | like (operand pattern : Tree)
  | likeEscape (operand pattern escape : Tree)
  | among (operand : Tree) (items : List Tree)
deriving Repr

/-! ## The grammar

Level 1 has the disjunctions, level 2 the conjunctions, level 3 the negations, level 4 the comparisons
and tests, level 5 the sums, level 6 the products, level 7 the signs, and level 8 what stands by itself. -/

def BinaryOp.level : BinaryOp → Nat
  | or => 1
  | and => 2
  | compare _ => 4
  | arith .add | arith .sub => 5
  | arith .mul | arith .div | arith .mod => 6

namespace UnaryOp

def level : UnaryOp → Nat
  | not => 3
  | minus => 7

def token : UnaryOp → Token
  | not => .not
  | minus => .operator (.arith .sub)

end UnaryOp

theorem UnaryOp.level_eq (op : UnaryOp) : op.level = 3 ∨ op.level = 7 := by
  cases op <;> decide

theorem BinaryOp.level_bounds (op : BinaryOp) : 1 ≤ op.level ∧ op.level ≤ 6 ∧ op.level ≠ 3 := by
  fun_cases BinaryOp.level op <;> decide

/-- `IS NULL` or `IS NOT NULL`. -/
def nullTest (negated : Bool) : List Token := .is :: (if negated then [.not] else []) ++ [.null]

/-- At this level the tokens have this tree. -/
inductive Derives : Nat → List Token → Tree → Prop
  | lower {n : Nat} {ts : List Token} {t : Tree} : Derives (n + 1) ts t → Derives n ts t
  | binary {ls rs : List Token} {l r : Tree} (op : BinaryOp) : Derives op.level ls l → Derives (op.level + 1) rs r →
      Derives op.level (ls ++ .operator op :: rs) (.binary op l r)
  | unary {ts : List Token} {t : Tree} (op : UnaryOp) : Derives op.level ts t →
      Derives op.level (op.token :: ts) (.unary op t)
  | isNull {ts : List Token} {t : Tree} (negated : Bool) : Derives 4 ts t →
      Derives 4 (ts ++ nullTest negated) (.isNull negated t)
  | like {ts ps : List Token} {t p : Tree} : Derives 4 ts t → Derives 5 ps p → Derives 4 (ts ++ .like :: ps) (.like t p)
  | likeEscape {ts ps es : List Token} {t p e : Tree} : Derives 4 ts t → Derives 5 ps p → Derives 5 es e →
      Derives 4 (ts ++ .like :: (ps ++ .escape :: es)) (.likeEscape t p e)
  | among {ts : List Token} {t : Tree} {items : List (List Token × Tree)} : Derives 4 ts t → items ≠ [] →
      (∀ i ∈ items, Derives 1 i.1 i.2) →
      Derives 4 (ts ++ .among :: .lparen :: ([Token.comma].intercalate (items.map Prod.fst) ++ [.rparen]))
        (.among t (items.map Prod.snd))
  | atom (a : Atom) : Derives 8 [.atom a] (.atom a)
  | null : Derives 8 [.null] .null
  | group {ts : List Token} {t : Tree} : Derives 1 ts t → Derives 8 (.lparen :: (ts ++ [.rparen])) t

theorem Derives.mono {m n : Nat} {ts : List Token} {t : Tree} (h : Derives n ts t) (hmn : m ≤ n) : Derives m ts t := by
  induction n, hmn using Nat.le_induction with
  | base => exact h
  | succ n _ ih => exact ih h.lower

/-! ## The reader -/

/-- What is open around the place that is being read, a tree short of its last part. -/
inductive Frame where
  | unary (op : UnaryOp)
  | binary (op : BinaryOp) (left : Tree)
  | like (operand : Tree)
  | escape (operand pattern : Tree)
  | group
  | items (operand : Tree) (before : List Tree)

namespace Frame

/-- The level of the tree that a frame becomes; nothing but its own token ends a parenthesis. -/
def level : Frame → Nat
  | unary op => op.level
  | binary op _ => op.level
  | like _ | escape .. => 4
  | group | items .. => 0

/-- The loosest level that can stand at the open place. -/
def least : Frame → Nat
  | unary op => op.level
  | binary op _ => op.level + 1
  | like _ | escape .. => 5
  | group | items .. => 1

def complete : Frame → Tree → Tree
  | unary op, t => .unary op t
  | binary op l, t => .binary op l t
  | like t, p => .like t p
  | escape t p, e => .likeEscape t p e
  | group, t | items .., t => t

end Frame

/-- Completes the open trees that are at least as tight as the level, innermost first. -/
def close (n : Nat) : Tree → Nat → List Frame → Tree × Nat × List Frame
  | t, k, [] => (t, k, [])
  | t, k, f :: context => if n ≤ f.level then close n (f.complete t) f.level context else (t, k, f :: context)

/-- Whether an operand comes next, or a tree of some level was just read; `test` is the place behind
`IS` and `IS NOT`, and `list` the one behind `IN`. -/
inductive State where
  | operand (context : List Frame)
  | operator (tree : Tree) (level : Nat) (context : List Frame)
  | test (tree : Tree) (negated : Bool) (context : List Frame)
  | list (tree : Tree) (context : List Frame)

/-- The loosest level that can stand here. -/
def least : List Frame → Nat
  | [] => 1
  | f :: _ => f.least

def openUnary (op : UnaryOp) (context : List Frame) : Option State :=
  if least context ≤ op.level then some (.operand (.unary op :: context)) else none

/-- The token behind a tree. -/
def behind (t : Tree) (k : Nat) (context : List Frame) : Token → Option State
  | .operator op =>
    let (t, k, context) := close op.level t k context
    if op.level ≤ k then some (.operand (.binary op t :: context)) else none
  | .is => let (t, _, context) := close 4 t k context; some (.test t false context)
  | .like => let (t, _, context) := close 4 t k context; some (.operand (.like t :: context))
  | .among => let (t, _, context) := close 4 t k context; some (.list t context)
  | .escape =>
    match close 5 t k context with
    | (p, _, .like t :: context) => some (.operand (.escape t p :: context))
    | _ => none
  | .comma =>
    match close 1 t k context with
    | (x, _, .items t xs :: context) => some (.operand (.items t (xs ++ [x]) :: context))
    | _ => none
  | .rparen =>
    match close 1 t k context with
    | (x, _, .group :: context) => some (.operator x 8 context)
    | (x, _, .items t xs :: context) => some (.operator (.among t (xs ++ [x])) 4 context)
    | _ => none
  | _ => none

def step : State → Token → Option State
  | .operand context, .atom a => some (.operator (.atom a) 8 context)
  | .operand context, .null => some (.operator .null 8 context)
  | .operand context, .lparen => some (.operand (.group :: context))
  | .operand context, .not => openUnary .not context
  | .operand context, .operator (.arith .sub) => openUnary .minus context
  | .operator t k context, token => behind t k context token
  | .test t false context, .not => some (.test t true context)
  | .test t negated context, .null => some (.operator (.isNull negated t) 4 context)
  | .list t context, .lparen => some (.operand (.items t [] :: context))
  | _, _ => none

def run (s : State) : List Token → Option State
  | [] => some s
  | token :: rest => (step s token).bind fun s => run s rest

/-- The tree of the tokens. -/
def parse (tokens : List Token) : Option Tree :=
  match run (.operand []) tokens with
  | some (.operator t k context) =>
    match close 1 t k context with
    | (t, _, []) => some t
    | _ => none
  | _ => none

/-- The tree of a text. -/
def read? (text : String) : Option Tree := (lex text).bind parse

theorem run_append (s : State) (ts us : List Token) : run s (ts ++ us) = (run s ts).bind fun s => run s us := by
  induction ts generalizing s with
  | nil => rfl
  | cons token rest ih =>
    rw [cons_append, run, run]
    cases step s token with
    | none => rfl
    | some s' => exact ih s'

/-! ## Open trees -/

section

variable {m n : Nat} {context : List Frame}

/-- The innermost open tree is looser than the level, so that it stays open. -/
def Below (n : Nat) (context : List Frame) : Prop := ∀ f ∈ context.head?, f.level < n

theorem below_cons {f : Frame} (h : f.level < n) : Below n (f :: context) := by
  rintro g ⟨⟩
  exact h

theorem close_of_below (h : Below n context) (t : Tree) (k : Nat) : close n t k context = (t, k, context) := by
  cases context with
  | nil => rfl
  | cons f context => exact if_neg (Nat.not_le.2 (h f rfl))

/-- What can stand at the open place stays apart from what is open, unless that is the same prefix. -/
theorem below_of_least (hn : ∀ op : UnaryOp, op.level ≠ n) (h : least context ≤ n) : Below n context := by
  rintro f hf
  cases context with
  | nil => cases hf
  | cons g context =>
    cases hf
    change f.least ≤ n at h
    cases f with
    | unary op => exact lt_of_le_of_ne h (hn op)
    | binary op l => exact h
    | like t | escape t p => exact Nat.lt_of_succ_le h
    | group => exact h
    | items t xs => exact h

theorem below_operator {op : BinaryOp} (h : least context ≤ op.level) : Below op.level context := by
  refine below_of_least (fun u => ?_) h
  have := op.level_bounds
  have := u.level_eq
  omega

theorem below_test (h : least context ≤ 4) : Below 4 context := below_of_least (by rintro (_ | _) <;> decide) h

theorem close_frame {f : Frame} (h : n ≤ f.level) (t : Tree) (k : Nat) :
    close n t k (f :: context) = close n (f.complete t) f.level context :=
  if_pos h

end

/-! ## Every derivation is read -/

/-- From a place where an operand comes next the tokens lead to some tree, and closing it gives the
tree `t`, which stands at the level. -/
def Reads (n : Nat) (ts : List Token) (t : Tree) : Prop :=
  ∀ context, least context ≤ n → ∃ u j opened k, run (.operand context) ts = some (.operator u j opened) ∧ n ≤ k ∧
    ∀ m ≤ n, close m u j opened = close m t k context

section

variable {n : Nat} {ts : List Token} {t : Tree}

theorem Reads.close {context opened : List Frame} {u : Tree} {j k : Nat}
    (h : ∀ m ≤ n, close m u j opened = close m t k context) (hb : Below n context) : close n u j opened = (t, k, context) := by
  rw [h n le_rfl, close_of_below hb]

theorem Reads.lower (h : Reads (n + 1) ts t) : Reads n ts t := by
  intro context hleast
  obtain ⟨u, j, opened, k, hrun, hk, hclose⟩ := h context (by omega)
  exact ⟨u, j, opened, k, hrun, by omega, fun m hm => hclose m (by omega)⟩

theorem reads_binary {ls rs : List Token} {l r : Tree} {op : BinaryOp} (hl : Reads op.level ls l)
    (hr : Reads (op.level + 1) rs r) : Reads op.level (ls ++ .operator op :: rs) (.binary op l r) := by
  intro context hleast
  obtain ⟨u, j, opened, k, hrun, hk, hclose⟩ := hl context hleast
  obtain ⟨u', j', opened', k', hrun', hk', hclose'⟩ := hr (.binary op l :: context) le_rfl
  refine ⟨u', j', opened', op.level, ?_, le_rfl, fun m hm => ?_⟩
  · have hstep : step (.operator u j opened) (.operator op) = some (.operand (.binary op l :: context)) := by
      rw [step, behind, Reads.close hclose (below_operator hleast)]
      exact if_pos hk
    rw [run_append, hrun, Option.bind_some, run, hstep, Option.bind_some, hrun']
  · exact (hclose' m (by omega)).trans (close_frame hm r k')

theorem reads_unary {op : UnaryOp} (h : Reads op.level ts t) : Reads op.level (op.token :: ts) (.unary op t) := by
  intro context hleast
  obtain ⟨u, j, opened, k, hrun, hk, hclose⟩ := h (.unary op :: context) le_rfl
  refine ⟨u, j, opened, op.level, ?_, le_rfl, fun m hm => ?_⟩
  · have hstep : step (.operand context) op.token = some (.operand (.unary op :: context)) := by
      cases op <;> exact if_pos hleast
    rw [run, hstep, Option.bind_some, hrun]
  · exact (hclose m hm).trans (close_frame hm t k)

variable {us : List Token} {context : List Frame}

/-- A comparison goes on behind what it starts with. -/
theorem run_test {token : Token} {s : State} (h : Reads 4 ts t) (hleast : least context ≤ 4)
    (hstep : ∀ u j opened k, close 4 u j opened = (t, k, context) → step (.operator u j opened) token = some s) :
    run (.operand context) (ts ++ token :: us) = run s us := by
  obtain ⟨u, j, opened, k, hrun, hk, hclose⟩ := h context hleast
  rw [run_append, hrun, Option.bind_some, run, hstep u j opened k (Reads.close hclose (below_test hleast)), Option.bind_some]

theorem reads_isNull (h : Reads 4 ts t) (negated : Bool) : Reads 4 (ts ++ nullTest negated) (.isNull negated t) := by
  intro context hleast
  refine ⟨.isNull negated t, 4, context, 4, ?_, le_rfl, fun m _ => rfl⟩
  rw [nullTest, cons_append, run_test h hleast fun u j opened k hclose => by rw [step, behind, hclose]]
  cases negated <;> rfl

theorem run_like (h : Reads 4 ts t) (hleast : least context ≤ 4) :
    run (.operand context) (ts ++ .like :: us) = run (.operand (.like t :: context)) us :=
  run_test h hleast fun u j opened k hclose => by rw [step, behind, hclose]

theorem reads_like {ps : List Token} {p : Tree} (h : Reads 4 ts t) (hp : Reads 5 ps p) :
    Reads 4 (ts ++ .like :: ps) (.like t p) := by
  intro context hleast
  obtain ⟨u, j, opened, k, hrun, hk, hclose⟩ := hp (.like t :: context) le_rfl
  refine ⟨u, j, opened, 4, ?_, le_rfl, fun m hm => ?_⟩
  · rw [run_like h hleast, hrun]
  · exact (hclose m (by omega)).trans (close_frame hm p k)

theorem reads_likeEscape {ps es : List Token} {p e : Tree} (h : Reads 4 ts t) (hp : Reads 5 ps p) (he : Reads 5 es e) :
    Reads 4 (ts ++ .like :: (ps ++ .escape :: es)) (.likeEscape t p e) := by
  intro context hleast
  obtain ⟨u, j, opened, k, hrun, hk, hclose⟩ := hp (.like t :: context) le_rfl
  obtain ⟨u', j', opened', k', hrun', hk', hclose'⟩ := he (.escape t p :: context) le_rfl
  have hbelow : Below 5 (.like t :: context) := below_cons (show 4 < 5 by decide)
  have hstep : step (.operator u j opened) .escape = some (.operand (.escape t p :: context)) := by
    rw [step, behind, Reads.close hclose hbelow]
  refine ⟨u', j', opened', 4, ?_, le_rfl, fun m hm => ?_⟩
  · rw [run_like h hleast, run_append, hrun, Option.bind_some, run, hstep, Option.bind_some, hrun']
  · exact (hclose' m (by omega)).trans (close_frame hm e k')

/-- An item of a list, up to the token behind it. -/
theorem run_item {token : Token} {x : Tree} {xs : List Tree} {s : State} (h : Reads 1 ts t)
    (hstep : ∀ u j opened k, close 1 u j opened = (t, k, .items x xs :: context) →
      step (.operator u j opened) token = some s) :
    run (.operand (.items x xs :: context)) (ts ++ token :: us) = run s us := by
  obtain ⟨u, j, opened, k, hrun, hk, hclose⟩ := h (.items x xs :: context) le_rfl
  have hbelow : Below 1 (.items x xs :: context) := below_cons (show 0 < 1 by decide)
  rw [run_append, hrun, Option.bind_some, run, hstep u j opened k (Reads.close hclose hbelow), Option.bind_some]

theorem run_items {items : List (List Token × Tree)} (hne : items ≠ []) (h : ∀ i ∈ items, Reads 1 i.1 i.2) (x : Tree)
    (xs : List Tree) (context : List Frame) :
    run (.operand (.items x xs :: context)) ([Token.comma].intercalate (items.map Prod.fst) ++ [.rparen]) =
      some (.operator (.among x (xs ++ items.map Prod.snd)) 4 context) := by
  induction items generalizing xs with
  | nil => exact absurd rfl hne
  | cons item rest ih =>
    obtain ⟨hitem, hrest⟩ := forall_mem_cons.1 h
    cases rest with
    | nil =>
      rw [map_singleton, intercalate_singleton]
      rw [run_item hitem fun u j opened k hclose => by rw [step, behind, hclose]]
      rfl
    | cons next rest =>
      rw [map_cons, map_cons, intercalate_cons_cons, append_assoc, append_assoc,
        singleton_append, run_item hitem fun u j opened k hclose => by rw [step, behind, hclose]]
      have := ih (cons_ne_nil _ _) hrest (xs ++ [item.2])
      rw [map_cons] at this
      rw [this]
      simp

theorem reads_among {items : List (List Token × Tree)} (h : Reads 4 ts t) (hne : items ≠ [])
    (hitems : ∀ i ∈ items, Reads 1 i.1 i.2) :
    Reads 4 (ts ++ .among :: .lparen :: ([Token.comma].intercalate (items.map Prod.fst) ++ [.rparen]))
      (.among t (items.map Prod.snd)) := by
  intro context hleast
  refine ⟨.among t (items.map Prod.snd), 4, context, 4, ?_, le_rfl, fun m _ => rfl⟩
  rw [run_test h hleast fun u j opened k hclose => by rw [step, behind, hclose]]
  rw [run, step, Option.bind_some, run_items hne hitems, nil_append]

theorem reads_group (h : Reads 1 ts t) : Reads 8 (.lparen :: (ts ++ [.rparen])) t := by
  intro context hleast
  obtain ⟨u, j, opened, k, hrun, hk, hclose⟩ := h (.group :: context) le_rfl
  have hbelow : Below 1 (.group :: context) := below_cons (show 0 < 1 by decide)
  refine ⟨t, 8, context, 8, ?_, le_rfl, fun m _ => rfl⟩
  have hstep : step (.operator u j opened) .rparen = some (.operator t 8 context) := by
    rw [step, behind, Reads.close hclose hbelow]
  rw [run, step, Option.bind_some, run_append, hrun, Option.bind_some, run, hstep]
  rfl

theorem Derives.reads (h : Derives n ts t) : Reads n ts t := by
  induction h with
  | lower _ ih => exact ih.lower
  | binary op _ _ ihl ihr => exact reads_binary ihl ihr
  | unary op _ ih => exact reads_unary ih
  | isNull negated _ ih => exact reads_isNull ih negated
  | like _ _ ih ihp => exact reads_like ih ihp
  | likeEscape _ _ _ ih ihp ihe => exact reads_likeEscape ih ihp ihe
  | among _ hne _ ih ihs => exact reads_among ih hne ihs
  | atom a => exact fun context _ => ⟨.atom a, 8, context, 8, rfl, le_rfl, fun m _ => rfl⟩
  | null => exact fun context _ => ⟨.null, 8, context, 8, rfl, le_rfl, fun m _ => rfl⟩
  | group _ ih => exact reads_group ih

/-- What the grammar has is read, so a row of tokens has one tree at most. -/
theorem parse_of_derives (h : Derives 1 ts t) : parse ts = some t := by
  obtain ⟨u, j, opened, k, hrun, hk, hclose⟩ := h.reads [] le_rfl
  rw [parse, hrun]
  dsimp only
  rw [hclose 1 le_rfl]
  rfl

theorem read?_of_derives {text : String} (hl : Lexes text ts) (h : Derives 1 ts t) : read? text = some t := by
  rw [read?, lex_of_lexes hl, Option.bind_some, parse_of_derives h]

end

end RelSql.Condition
