/-
Reading back the row that was updated. The select behind an update looks for the constant that was
bound to each key last, be it in the values that are set or anywhere in the predicate. The updated
row has that constant in the key just if the last value set for the key is the constant, or if nothing
is set for it and the row had the constant before. So the row is found where the constant is set, or
where the predicate demands it of a key that is left as it is; it is lost where a key is moved.
-/
import RelSql.Proofs.Condition.Truth
import RelSql.Proofs.Modification.Bindings

namespace RelSql

open Ident List

namespace Modification

/-! ## Conditions on a row -/

/-- What constants and comparisons mean. Equality is that of values, conditions are values too, and
what stands for something other than conditions and members is left open. -/
structure Meaning (V : Type) where
  constant : Constant → V
  compare : CompareOp → V → V → Bool
  compare_eq : ∀ x y, compare .eq x y = true ↔ x = y
  ofBool : Bool → V
  isTrue : V → Bool
  isTrue_ofBool : ∀ b, isTrue (ofBool b) = b
  other : (String → Option V) → Expr → Option V

namespace Meaning

variable {V : Type} (μ : Meaning V)

/-- The value of an expression on a row, which has the values of its members under their keys; null
is `none`. -/
def value (row : String → Option V) : Expr → Option V
  | .constant c => some (μ.constant c)
  | .null _ => none
  | .property _ name => row (key name)
  | .and left right => (both ((value row left).map μ.isTrue) ((value row right).map μ.isTrue)).map μ.ofBool
  | .or left right => (either ((value row left).map μ.isTrue) ((value row right).map μ.isTrue)).map μ.ofBool
  | .not operand => ((value row operand).map μ.isTrue).map fun b => μ.ofBool !b
  | .isNull operand => some (μ.ofBool (value row operand).isNone)
  | .compare op left right => do
    let x ← value row left
    let y ← value row right
    return μ.ofBool (μ.compare op x y)
  | e => μ.other row e

/-- The truth of an expression as a condition on a row. -/
def truth (row : String → Option V) (e : Expr) : Option Bool := (μ.value row e).map μ.isTrue

variable {row : String → Option V}

theorem truth_and {left right : Expr} : μ.truth row (.and left right) = both (μ.truth row left) (μ.truth row right) := by
  rw [truth, value, Option.map_map]
  simp [truth, Function.comp_def, μ.isTrue_ofBool]

theorem truth_or {left right : Expr} : μ.truth row (.or left right) = either (μ.truth row left) (μ.truth row right) := by
  rw [truth, value, Option.map_map]
  simp [truth, Function.comp_def, μ.isTrue_ofBool]

/-- An equality of a member and a constant is true of the rows that have the constant there. -/
theorem truth_equals_iff {owner : Expr} {name : String} {c : Constant} :
    μ.truth row (.compare .eq (.property owner name) (.constant c)) = some true ↔
      row (key name) = some (μ.constant c) := by
  cases hrow : row (key name) with
  | none => simp [truth, value, hrow]
  | some x => simp [truth, value, hrow, μ.isTrue_ofBool, μ.compare_eq]

end Meaning

/-! ## Updated rows -/

/-- The value set for a member; of several the last counts. -/
def lastAssignment? (member : String) (assignments : List Assignment) : Option Expr :=
  (assignments.reverse.find? fun a => same member a.property).map Assignment.value

namespace Meaning

variable {V : Type} (μ : Meaning V) (row : String → Option V)

/-- The row with the members set, one after the other, to values that the row had before. -/
def updated (assignments : List Assignment) : String → Option V :=
  assignments.foldl (fun new a => Function.update new (key a.property) (μ.value row a.value)) row

/-- A member has the value set for it last, or the one that it had. -/
theorem updated_eq (member : String) (assignments : List Assignment) :
    μ.updated row assignments (key member) =
      match lastAssignment? member assignments with
      | some e => μ.value row e
      | none => row (key member) := by
  induction assignments using reverseRecOn with
  | nil => rfl
  | append_singleton rest a ih =>
    rw [updated, foldl_append, foldl_cons, foldl_nil, lastAssignment?, reverse_append,
      reverse_singleton, singleton_append, find?_cons]
    by_cases hsame : same member a.property = true
    · rw [hsame, ← same_iff.1 hsame, Function.update_self]
      rfl
    · have hne : key member ≠ key a.property := fun h => hsame (same_iff.2 h)
      rw [Function.update_of_ne hne, Bool.eq_false_iff.2 hsame]
      exact ih

end Meaning

end Modification

/-- The condition demands the constant of the member: an equality says so in one of its conjuncts, and
in both sides of a disjunction. -/
def Expr.Demands (member : String) (c : Constant) : Expr → Prop
  | and left right => Demands member c left ∨ Demands member c right
  | or left right => Demands member c left ∧ Demands member c right
  | compare op left right => ∃ b ∈ op.bindings left right, same member b.1 = true ∧ b.2 = c
  | _ => False

namespace Modification

theorem row_of_demands {V : Type} (μ : Meaning V) {row : String → Option V} {member : String} {c : Constant} {e : Expr}
    (hd : e.Demands member c) (h : μ.truth row e = some true) : row (key member) = some (μ.constant c) := by
  fun_induction Expr.Demands member c e with
  | case1 left right ihl ihr =>
    rw [μ.truth_and, both_eq_true_iff] at h
    exact hd.elim (ihl · h.1) (ihr · h.2)
  | case2 left right ihl ihr =>
    rw [μ.truth_or, either_eq_true_iff] at h
    exact h.elim (ihl hd.1) (ihr hd.2)
  | case3 op left right =>
    obtain ⟨b, hb, hsame, rfl⟩ := hd
    unfold CompareOp.bindings at hb
    split at hb
    · cases mem_singleton.1 hb
      rw [same_iff.1 hsame]
      exact μ.truth_equals_iff.1 h
    · cases hb
  | case4 => exact hd.elim

/-- The update leaves the constant in the key: it is set last, or nothing is set and the predicate
demands it. -/
def Leaves (assignments : List Assignment) (predicate : Expr) (key : String) (c : Constant) : Prop :=
  match lastAssignment? key assignments with
  | some e => e = .constant c
  | none => predicate.Demands key c

theorem updated_of_leaves {V : Type} (μ : Meaning V) {row : String → Option V} {assignments : List Assignment}
    {predicate : Expr} {key : String} {c : Constant} (hl : Leaves assignments predicate key c)
    (h : μ.truth row predicate = some true) : μ.updated row assignments (Ident.key key) = some (μ.constant c) := by
  rw [μ.updated_eq]
  unfold Leaves at hl
  cases hlast : lastAssignment? key assignments with
  | some e =>
    rw [hlast] at hl
    dsimp only at hl ⊢
    rw [hl]
    rfl
  | none =>
    rw [hlast] at hl
    exact row_of_demands μ hl h

/-! ## The select behind an update -/

/-- The truth of a condition of the select on a row, the parameters standing for their constants. -/
def Meaning.keyTruth {V : Type} (μ : Meaning V) (parameters : List ParameterRecord) (row : String → Option V)
    (condition : String × String) : Option Bool := do
  let x ← row (key condition.1)
  let c ← parameterValue? parameters condition.2
  return μ.compare .eq x (μ.constant c)

theorem Meaning.keyTruth_iff {V : Type} (μ : Meaning V) {parameters : List ParameterRecord} {row : String → Option V}
    {condition : String × String} {c : Constant} (h : parameterValue? parameters condition.2 = some c) :
    μ.keyTruth parameters row condition = some true ↔ row (key condition.1) = some (μ.constant c) := by
  cases hrow : row (key condition.1) with
  | none => simp [keyTruth, hrow]
  | some x => simp [keyTruth, hrow, h, μ.compare_eq]

theorem valued_keys {valueOf : String → Option String} {keys : List String} (h : ∀ k ∈ keys, (valueOf k).isSome = true) :
    (keys.filterMap fun k => (valueOf k).map fun v => (k, v)).map Prod.fst = keys := by
  induction keys with
  | nil => rfl
  | cons k keys ih =>
    obtain ⟨hk, hkeys⟩ := forall_mem_cons.1 h
    obtain ⟨v, hv⟩ := Option.isSome_iff_exists.1 hk
    rw [filterMap_cons, hv]
    exact congrArg (k :: ·) (ih hkeys)

/-- A generated key is the only one. -/
theorem generatedKey?_eq_some_iff {set : EntitySet} {key : String} :
    keyConditions.generatedKey? set = some key ↔ ∃ type, set.keyMembers = [(key, type)] ∧ type.kind? = some .int64 := by
  unfold keyConditions.generatedKey?
  constructor
  · intro h
    split at h
    · rename_i only honly
      split at h
      · rename_i hkind
        cases h
        exact ⟨only.2, honly, hkind⟩
      · cases h
    · cases h
  · rintro ⟨type, hkeys, hkind⟩
    simp [hkeys, hkind]

/-- If every key has a value, the row is found by the keys. Otherwise an inserted row is found by the key
that the store gave out or by its row number, and no other row is. -/
theorem keyConditions_eq (config : Config) (set : EntitySet) (inserted : Bool) (valueOf : String → Option String) :
    keyConditions config set inserted valueOf =
      let keys := set.keyMembers.map Prod.fst
      if keys ≠ [] ∧ ∀ k ∈ keys, (valueOf k).isSome = true then
        .ok (keys.filterMap fun k => (valueOf k).map fun v => (k, v))
      else if inserted = true then
        .ok [((keyConditions.generatedKey? set).getD config.rowidColumn, config.lastInsertId)]
      else .error (.missingKeyValue set.storeName ((keys.find? fun k => (valueOf k).isNone).getD "<key>")) := by
  have hgeneral : ∀ keys, keyConditions.general config set inserted valueOf keys =
      if keys ≠ [] ∧ ∀ k ∈ keys, (valueOf k).isSome = true then
        .ok (keys.filterMap fun k => (valueOf k).map fun v => (k, v))
      else keyConditions.missing config set inserted ((keys.find? fun k => (valueOf k).isNone).getD "<key>") := by
    intro keys
    unfold keyConditions.general
    cases hfind : keys.find? fun k => (valueOf k).isNone with
    | none =>
      have hall : ∀ k ∈ keys, (valueOf k).isSome = true := by
        simpa [Option.isSome_iff_ne_none] using hfind
      cases keys with
      | nil => simp
      | cons k keys => exact (if_pos ⟨cons_ne_nil k keys, hall⟩).symm
    | some key =>
      obtain ⟨hnone, -⟩ := find?_eq_some_iff_append.1 hfind
      have hall : ¬ ∀ k ∈ keys, (valueOf k).isSome = true := fun h => by
        simpa [Option.isNone_iff_eq_none.1 hnone] using h key (mem_of_find?_eq_some hfind)
      simp [hall]
  dsimp only
  unfold keyConditions
  cases hgenerated : keyConditions.generatedKey? set with
  | none => exact hgeneral _
  | some key =>
    obtain ⟨type, hkeys, -⟩ := generatedKey?_eq_some_iff.1 hgenerated
    rw [hkeys]
    cases hvalue : valueOf key with
    | none => cases inserted <;> simp [hvalue, hgeneral, keyConditions.missing]
    | some value => simp [hvalue]

/-- Behind an update there is a condition for every key, with the value found for it. -/
theorem keyConditions_of_ok {config : Config} {set : EntitySet} {valueOf : String → Option String}
    {conditions : List (String × String)} (h : keyConditions config set false valueOf = .ok conditions) :
    conditions.map Prod.fst = set.keyMembers.map Prod.fst ∧ ∀ c ∈ conditions, valueOf c.1 = some c.2 := by
  rw [keyConditions_eq] at h
  dsimp only at h
  split at h
  · rename_i hvalues
    cases h
    refine ⟨valued_keys hvalues.2, fun c hc => ?_⟩
    obtain ⟨k, -, hk⟩ := mem_filterMap.1 hc
    obtain ⟨v, hv, rfl⟩ := Option.map_eq_some_iff.1 hk
    exact hv
  · cases h

/-- The select behind an update has a condition for every key. The parameter in it holds the constant
bound last to the key, so the updated row satisfies it just if the value set last for the key, or the
one it had if none is set, is that constant. That is so for every row that satisfies the predicate,
if the update leaves the constant in the key. -/
theorem readBack_finds_iff {config : Config} {target : Binding Expr} {assignments : List Assignment} {predicate : Expr}
    {returning : List String} {r : CompiledModification} (hreturning : returning ≠ [])
    (h : compile config (.update target assignments predicate returning) = .ok r) :
    ∃ set name ws conditions, targetSet target = .ok set ∧ targetName set = .ok name ∧
      statementWords name (.update target assignments predicate returning) = .ok ws ∧
      r.text = (Numbered.ofWords config ws).text ++ readBackText config set returning conditions ∧
      conditions.map Prod.fst = set.keyMembers.map Prod.fst ∧
      ∀ condition ∈ conditions, ∃ c,
        lastBinding? condition.1 (assignments.flatMap Assignment.bindings ++ predicate.bindings) = some c ∧
        ∀ {V : Type} (μ : Meaning V) (row : String → Option V),
          (μ.keyTruth r.parameters (μ.updated row assignments) condition = some true ↔
            (match lastAssignment? condition.1 assignments with
              | some e => μ.value row e
              | none => row (Ident.key condition.1)) = some (μ.constant c)) ∧
          (Leaves assignments predicate condition.1 c → μ.truth row predicate = some true →
            μ.keyTruth r.parameters (μ.updated row assignments) condition = some true) := by
  simp only [compile, bind_eq_ok] at h
  obtain ⟨set, hset, name, hname, ws, hws, rest, hrest, h⟩ := h
  cases h
  have hfiled := filed_ofWords config (binds_statementWords hws)
  unfold readBack at hrest
  rw [if_neg (by simpa [Modification.returning] using hreturning)] at hrest
  obtain ⟨conditions, hconditions, hrest⟩ := bind_eq_ok.1 hrest
  cases hrest
  obtain ⟨hkeys, hvalues⟩ := keyConditions_of_ok hconditions
  refine ⟨set, name, ws, conditions, hset, hname, hws, rfl, hkeys, fun condition hc => ?_⟩
  rcases hfiled.boundName?_spec condition.1 with ⟨hnone, -⟩ | ⟨p, c, hp, hvalue, hlast⟩
  · rw [hvalues condition hc] at hnone; cases hnone
  · cases (hvalues condition hc).symm.trans hp
    refine ⟨c, hlast, fun μ row => ⟨?_, fun hl htrue => ?_⟩⟩
    · rw [μ.keyTruth_iff hvalue, μ.updated_eq]
    · exact (μ.keyTruth_iff hvalue).2 (updated_of_leaves μ hl htrue)

/-! ## A key that is demanded and a key that is moved -/

/-- Places on the shelves of a store, and what lies there. -/
def places : EntitySet where
  name := "place"
  members := [("shelf", .scalar .int32), ("slot", .scalar .int32), ("item", .scalar .string)]
  keys := ["shelf", "slot"]

def isMember (set : EntitySet) (member : String) (c : Constant) : Expr :=
  .compare .eq (.property (.var "p" set.elementType) member) (.constant c)

/-- What lies on shelf 1 goes to slot 7 of it, and its name is read back. -/
def moveToSlot : Modification :=
  .update ((Expr.scan places).bind "p") [⟨"slot", .constant (.int32 7)⟩] (isMember places "shelf" (.int32 1)) ["item"]

/-- The shelf is demanded and the slot is set, so the item is found. -/
theorem moveToSlot_found :
    ∃ r conditions, compile {} moveToSlot = .ok r ∧
      r.text = "UPDATE place\nSET slot = @p0\nWHERE (shelf = @p1);\n" ++ readBackText {} places ["item"] conditions ∧
      conditions.map Prod.fst = ["shelf", "slot"] ∧
      ∀ condition ∈ conditions, ∀ {V : Type} (μ : Meaning V) (row : String → Option V),
        μ.truth row (isMember places "shelf" (.int32 1)) = some true →
          μ.keyTruth r.parameters (μ.updated row [⟨"slot", .constant (.int32 7)⟩]) condition = some true := by
  have hok : (compile {} moveToSlot).isOk = true := by decide +kernel
  have htexts : (statementWords "place" moveToSlot).toOption.map (fun ws => (Numbered.ofWords {} ws).text) =
      some "UPDATE place\nSET slot = @p0\nWHERE (shelf = @p1);\n" := by decide +kernel
  cases hr : compile {} moveToSlot with
  | error e => rw [hr] at hok; cases hok
  | ok r =>
    obtain ⟨set, name, ws, conditions, hset, hname, hws, htext, hkeys, hall⟩ := readBack_finds_iff (by decide) hr
    cases hset
    have hplace : targetName places = .ok "place" := rfl
    cases hplace.symm.trans hname
    change statementWords "place" moveToSlot = .ok ws at hws
    rw [hws] at htexts
    have hnames : conditions.map Prod.fst = ["shelf", "slot"] := hkeys.trans (by decide +kernel)
    refine ⟨r, conditions, rfl, htext.trans (congrArg (· ++ _) (Option.some.inj htexts)), hnames,
      fun condition hc V μ row htrue => ?_⟩
    obtain ⟨c, hlast, hfound⟩ := hall condition hc
    refine (hfound μ row).2 ?_ htrue
    have hname : condition.1 = "shelf" ∨ condition.1 = "slot" := by
      simpa [hnames] using List.mem_map_of_mem (f := Prod.fst) hc
    have hdiffer : Ident.same "shelf" "slot" = false := by decide +kernel
    rcases hname with hname | hname <;> rw [hname] at hlast ⊢
    · have hc : some (Constant.int32 1) = some c := by
        rw [← hlast]
        simp [lastBinding?, Assignment.bindings, isMember, Expr.bindings, CompareOp.bindings, Ident.same_refl]
      cases hc
      unfold Leaves lastAssignment?
      simp [hdiffer, isMember, Expr.Demands, CompareOp.bindings, Ident.same_refl]
    · have hc : some (Constant.int32 7) = some c := by
        rw [← hlast]
        simp [lastBinding?, Assignment.bindings, isMember, Expr.bindings, CompareOp.bindings, Ident.same_refl,
          Ident.same_comm "slot", hdiffer]
      cases hc
      unfold Leaves lastAssignment?
      simp [Ident.same_refl]

/-- Processes, numbered by the store. -/
def processes : EntitySet where
  name := "process"
  members := [("id", .scalar .int64), ("name", .scalar .string)]
  keys := ["id"]

/-- Process 4 becomes process 5, and its name is read back. -/
def renumberProcess : Modification :=
  .update ((Expr.scan processes).bind "p") [⟨"id", .constant (.int64 5)⟩] (isMember processes "id" (.int64 4)) ["name"]

def Meaning.integers : Meaning Int where
  constant
    | .int64 v => v.toInt
    | _ => 0
  compare
    | .eq, x, y => x == y
    | _, _, _ => false
  compare_eq x y := by simp
  ofBool b := if b then 1 else 0
  isTrue x := x != 0
  isTrue_ofBool b := by cases b <;> rfl
  other _ _ := none

/-- The select looks for process 4, as the predicate has it, and finds no process 5. -/
theorem renumberProcess_not_found :
    ∃ r, compile {} renumberProcess = .ok r ∧
      r.text = "UPDATE process\nSET id = @p0\nWHERE (id = @p1);\n" ++
        readBackText {} processes ["name"] [("id", "@p1")] ∧
      Meaning.integers.truth (fun _ => some 4) (isMember processes "id" (.int64 4)) = some true ∧
      Meaning.integers.keyTruth r.parameters
        (Meaning.integers.updated (fun _ => some 4) [⟨"id", .constant (.int64 5)⟩]) ("id", "@p1") = some false := by
  have h : (compile {} renumberProcess).toOption.map (fun r => (r.text, Meaning.integers.keyTruth r.parameters
      (Meaning.integers.updated (fun _ => some 4) [⟨"id", .constant (.int64 5)⟩]) ("id", "@p1"))) =
      some ("UPDATE process\nSET id = @p0\nWHERE (id = @p1);\n" ++
        readBackText {} processes ["name"] [("id", "@p1")], some false) := by decide +kernel
  cases hr : compile {} renumberProcess with
  | error e => rw [hr] at h; cases h
  | ok r =>
    rw [hr] at h
    obtain ⟨htext, htruth⟩ := Prod.mk.inj (Option.some.inj h)
    exact ⟨r, rfl, htext, by decide +kernel, htruth⟩

end Modification

end RelSql
