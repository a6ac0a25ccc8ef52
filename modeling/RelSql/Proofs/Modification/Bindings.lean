/-
Members and their constants. A modification binds a member where it sets it to a constant and where
it compares it with one for equality, wherever that stands. Its numbered text files the parameter of
each bound constant, so that the parameter of a member holds the constant bound last. Parameters have
different names, whatever mark they are written with, so a name gives the constant back.
-/
import RelSql.Proofs.Modification.Constants
import RelSql.Proofs.Naming.Fresh

namespace RelSql

open Digits Word Ident List

/-! ## Names of parameters -/

/-- No two numbers give parameters of one name, whatever the mark: a mark in front of a name puts a
letter behind its digits, and a name without one has none there. -/
theorem Config.parameterName_injective (config : Config) :
    Function.Injective fun n => config.parameterName ("p" ++ ofNat n) := by
  have htext : ∀ n, ("p" ++ ofNat n).toList = 'p' :: decimal n := by
    intro n
    simp [ofNat]
  have hnot : ∀ {m n : Nat}, config.parameterPrefix.toList <+: 'p' :: decimal m →
      ¬ config.parameterPrefix.toList <+: 'p' :: decimal n →
      'p' :: decimal m ≠ config.parameterPrefix.toList ++ 'p' :: decimal n := by
    intro m n hm hn heq
    cases hmark : config.parameterPrefix.toList with
    | nil => exact hn (hmark ▸ nil_prefix)
    | cons c rest =>
      rw [hmark, cons_append] at heq
      have hp : 'p' ∈ decimal m := by
        rw [(cons.inj heq).2]
        exact mem_append_right _ mem_cons_self
      exact absurd (isDigit_decimal hp) (by decide)
  intro m n h
  have hlist := congrArg String.toList h
  simp only [parameterName, isPrefixOf_iff_prefix, htext] at hlist
  split at hlist <;> rename_i hm <;> split at hlist <;> rename_i hn <;>
    simp only [String.toList_append, htext] at hlist
  · exact decimal_injective (cons.inj hlist).2
  · exact absurd hlist (hnot hm hn)
  · exact absurd hlist.symm (hnot hn hm)
  · exact decimal_injective (cons.inj (append_cancel_left hlist)).2

/-! ## Bindings -/

/-- The constant bound last to a member, whatever the case of its name. -/
def lastBinding? (member : String) (bindings : List (String × Constant)) : Option Constant :=
  (bindings.reverse.find? fun b => same member b.1).map Prod.snd

/-- What an equality binds if it compares a member with a constant. -/
def CompareOp.bindings : CompareOp → Expr → Expr → List (String × Constant)
  | .eq, .property _ name, .constant c => [(name, c)]
  | _, _, _ => []

namespace Expr

mutual

/-- The members that equalities in an expression bind, in the order of writing. -/
def bindings : Expr → List (String × Constant)
  | and left right | or left right => bindings left ++ bindings right
  | compare op left right => bindings left ++ bindings right ++ op.bindings left right
  | isNull operand | not operand => bindings operand
  | newRecord fields => fieldBindings fields
  | _ => []

def fieldBindings : List (String × Expr) → List (String × Constant)
  | [] => []
  | (_, e) :: rest => bindings e ++ fieldBindings rest

end

theorem fieldBindings_eq (fields : List (String × Expr)) :
    fieldBindings fields = (fields.map fun f => f.2.bindings).flatten := by
  induction fields with
  | nil => rfl
  | cons f rest ih => rw [fieldBindings, ih]; rfl

end Expr

/-- What is bound where a member is set. -/
def Assignment.bindings (a : Assignment) : List (String × Constant) :=
  a.value.bindings ++ match a.value with
    | .constant c => [(a.property, c)]
    | _ => []

namespace Modification

variable {ws : List Word} {bs : List (String × Constant)} {m : Modification}

/-- The members that a modification binds, in the order of writing. -/
def bindings : Modification → List (String × Constant)
  | insert _ assignments _ => assignments.flatMap Assignment.bindings
  | update _ assignments predicate _ => assignments.flatMap Assignment.bindings ++ predicate.bindings
  | delete _ predicate _ => predicate.bindings

namespace Numbered

/-- The parameters of the text are named by their numbers, and those that are filed hold the bound
constants, the last first. -/
structure Filed (config : Config) (n : Numbered) (bindings : List (String × Constant)) : Prop where
  named : ∀ i record, n.parameters[i]? = some record → record.name = config.parameterName ("p" ++ ofNat i)
  bound : List.Forall₂ (fun entry binding => entry.1 = key binding.1 ∧
    ∃ record, n.parameters[entry.2]? = some record ∧ record.value = some binding.2) n.bound bindings.reverse

variable {config : Config} {n : Numbered} {bindings : List (String × Constant)}

theorem Filed.put_text (h : Filed config n bindings) (s : String) : Filed config (n.put config (.text s)) bindings :=
  ⟨h.named, h.bound⟩

theorem Filed.put_value (h : Filed config n bindings) (c : Constant) :
    Filed config (n.put config (.value c)) bindings := by
  refine ⟨fun i record hi => ?_, h.bound.imp fun entry binding ⟨hkey, record, hi, hv⟩ => ⟨hkey, record, ?_, hv⟩⟩
  · change (n.parameters ++ [n.nextRecord config c])[i]? = some record at hi
    rcases Nat.lt_or_ge i n.parameters.length with hlt | hge
    · rw [List.getElem?_append_left hlt] at hi
      exact h.named i record hi
    · rw [List.getElem?_append_right hge, List.getElem?_singleton] at hi
      split at hi
      · rename_i hlast
        cases hi
        rw [show i = n.parameters.length by omega]
        rfl
      · cases hi
  · change (n.parameters ++ [n.nextRecord config c])[entry.2]? = some record
    rw [List.getElem?_append_left (List.getElem?_eq_some_iff.1 hi).1]
    exact hi

/-- A member is bound to the constant that was just put. -/
theorem Filed.put_binds {c : Constant} (h : Filed config n bindings) (member : String)
    (hlast : n.parameters.getLast?.bind ParameterRecord.value = some c) :
    Filed config (n.put config (.binds member)) (bindings ++ [(member, c)]) := by
  refine ⟨h.named, ?_⟩
  rw [reverse_append]
  obtain ⟨record, hr, hv⟩ := Option.bind_eq_some_iff.1 hlast
  refine .cons ⟨rfl, record, ?_, hv⟩ h.bound
  rwa [getLast?_eq_getElem?] at hr

/-! ## Words that bind -/

end Numbered

/-- The words bind the members. -/
def Binds (ws : List Word) (bindings : List (String × Constant)) : Prop :=
  ∀ ⦃config : Config⦄ ⦃n : Numbered⦄ ⦃before : List (String × Constant)⦄, n.Filed config before →
    (ws.foldl (Numbered.put config) n).Filed config (before ++ bindings)

theorem binds_nil : Binds [] [] := fun config n before h => by rwa [append_nil]

theorem Binds.append {ws' : List Word} {bs' : List (String × Constant)} (h : Binds ws bs) (h' : Binds ws' bs') :
    Binds (ws ++ ws') (bs ++ bs') := by
  intro config n before hn
  rw [foldl_append, ← append_assoc]
  exact h' (h hn)

theorem binds_text (s : String) : Binds [.text s] [] := fun config n before h => by
  rw [append_nil]
  exact h.put_text s

theorem Binds.behind (h : Binds ws bs) (s : String) :
    Binds (.text s :: ws) bs :=
  (binds_text s).append h

theorem Binds.before (h : Binds ws bs) (s : String) :
    Binds (ws ++ [.text s]) bs := by
  simpa using h.append (binds_text s)

theorem binds_value (c : Constant) : Binds [.value c] [] := fun config n before h => by
  rw [append_nil]
  exact h.put_value c

/-- A constant, the end of its parentheses and the member that it belongs to. -/
theorem binds_bound (c : Constant) (texts : List String) (member : String) :
    Binds (.value c :: texts.map text ++ [.binds member]) [(member, c)] := by
  intro config n before h
  rw [cons_append, foldl_cons, foldl_append]
  have htexts : ∀ (texts : List String) (n : Numbered), n.Filed config before →
      ((texts.map text).foldl (Numbered.put config) n).Filed config before ∧
        ((texts.map text).foldl (Numbered.put config) n).parameters = n.parameters := by
    intro texts
    induction texts with
    | nil => exact fun n h => ⟨h, rfl⟩
    | cons s texts ih => exact fun n h => ih _ (h.put_text s)
  obtain ⟨hfiled, hparameters⟩ := htexts texts _ (h.put_value c)
  refine hfiled.put_binds member ?_
  rw [hparameters]
  change (n.parameters ++ [n.nextRecord config c]).getLast?.bind ParameterRecord.value = some c
  rw [getLast?_append]
  rfl

theorem binds_intercalate (separator : String) {items : List (List Word)} {bss : List (List (String × Constant))}
    (h : List.Forall₂ Binds items bss) : Binds ([text separator].intercalate items) bss.flatten := by
  induction h with
  | nil => exact binds_nil
  | @cons item bs items bss hitem hrest ih =>
    cases hrest with
    | nil => simpa using hitem
    | @cons next _ items _ _ _ =>
      rw [intercalate_cons_cons, flatten_cons]
      exact (hitem.before separator).append ih

theorem binds_enclosed (op : String) {ls rs : List Word} {lefts rights : List (String × Constant)} (hl : Binds ls lefts)
    (hr : Binds rs rights) : Binds (enclosed op ls rs) (lefts ++ rights) :=
  (((hl.behind "(").before op).append hr).before ")"

/-- A comparison binds what its operands bind, and at its end a member that equals a constant. -/
theorem binds_compare (op : CompareOp) {left right : Expr} {ls rs : List Word} (hrs : words right = .ok rs)
    (hl : Binds ls left.bindings) (hr : Binds rs right.bindings) :
    Binds (enclosed (" " ++ op.text ++ " ") ls rs ++ bindsIfMember op left right)
      (left.bindings ++ right.bindings ++ op.bindings left right) := by
  have hplain : bindsIfMember op left right = [] → op.bindings left right = [] →
      Binds (enclosed (" " ++ op.text ++ " ") ls rs ++ bindsIfMember op left right)
        (left.bindings ++ right.bindings ++ op.bindings left right) := by
    intro hw hb
    rw [hw, hb, append_nil, append_nil]
    exact binds_enclosed _ hl hr
  cases op with
  | eq =>
    cases left with
    | property owner name =>
      cases right with
      | constant c =>
        cases hrs
        have hbound := ((hl.behind "(").before (" " ++ CompareOp.eq.text ++ " ")).append (binds_bound c [")"] name)
        simpa [enclosed, bindsIfMember, bindsIfConstant, CompareOp.bindings, Expr.bindings] using hbound
      | _ => exact hplain rfl rfl
    | _ => exact hplain rfl rfl
  | _ => exact hplain rfl rfl

mutual

theorem binds_words {e : Expr} {ws : List Word} (h : words e = .ok ws) : Binds ws e.bindings := by
  cases e with
  | and left right | or left right =>
    simp only [words, bind_eq_ok] at h
    obtain ⟨ls, hl, rs, hr, h⟩ := h
    cases h
    exact binds_enclosed _ (binds_words hl) (binds_words hr)
  | compare op left right =>
    simp only [words, bind_eq_ok] at h
    obtain ⟨ls, hl, rs, hr, h⟩ := h
    cases h
    exact binds_compare op hr (binds_words hl) (binds_words hr)
  | isNull operand =>
    simp only [words, bind_eq_ok] at h
    obtain ⟨ws, hw, h⟩ := h
    cases h
    exact (binds_words hw).before _
  | not operand =>
    simp only [words, bind_eq_ok] at h
    obtain ⟨ws, hw, h⟩ := h
    cases h
    exact ((binds_words hw).behind _).before _
  | scan set =>
    simp only [words, bind_eq_ok] at h
    obtain ⟨name, -, h⟩ := h
    cases h
    exact binds_text _
  | newRecord fields =>
    simp only [words, bind_eq_ok] at h
    obtain ⟨items, hi, h⟩ := h
    cases h
    rw [Expr.bindings, Expr.fieldBindings_eq]
    exact binds_intercalate _ (binds_fieldWords hi)
  | constant c =>
    cases h
    exact binds_value c
  | null type | property owner name =>
    cases h
    exact binds_text _
  | _ => cases h

theorem binds_fieldWords {fields : List (String × Expr)} {items : List (List Word)}
    (h : fieldWords fields = .ok items) : List.Forall₂ Binds items (fields.map fun f => f.2.bindings) := by
  match fields with
  | [] =>
    cases h
    exact .nil
  | (name, e) :: rest =>
    simp only [fieldWords, bind_eq_ok] at h
    obtain ⟨ws, hw, more, hm, h⟩ := h
    cases h
    exact .cons (binds_words hw) (binds_fieldWords hm)

end

theorem binds_assignmentWords {a : Assignment} (h : assignmentWords a = .ok ws) : Binds ws a.bindings := by
  obtain ⟨property, value⟩ := a
  simp only [assignmentWords, bind_eq_ok] at h
  obtain ⟨ws, hw, h⟩ := h
  cases h
  cases value with
  | constant c =>
    cases hw
    exact binds_bound c [] property
  | _ => exact (binds_words hw).append binds_nil

theorem binds_setWords {assignments : List Assignment} (h : setWords assignments = .ok ws) :
    Binds ws (assignments.flatMap Assignment.bindings) := by
  unfold setWords at h
  split at h
  · rename_i he
    cases h
    rw [isEmpty_iff.1 he]
    exact (binds_value _).before _
  · simp only [bind_eq_ok] at h
    obtain ⟨items, hi, h⟩ := h
    cases h
    rw [flatMap_def]
    refine binds_intercalate _ (forall₂_of_mapM (fun a ws ha => ?_) hi)
    obtain ⟨ws', hw, ha⟩ := bind_eq_ok.1 ha
    cases ha
    exact (binds_assignmentWords hw).behind _

theorem binds_whereWords {predicate : Expr} (h : whereWords predicate = .ok ws) :
    Binds ws predicate.bindings := by
  simp only [whereWords, bind_eq_ok] at h
  obtain ⟨ws, hw, h⟩ := h
  cases h
  exact ((binds_words hw).behind _).before _

/-- The words of a modification bind its members. -/
theorem binds_statementWords {name : String} (h : statementWords name m = .ok ws) :
    Binds ws m.bindings := by
  cases m with
  | insert target assignments returning =>
    simp only [statementWords, bind_eq_ok] at h
    obtain ⟨ws, hw, h⟩ := h
    cases h
    unfold insertWords at hw
    split at hw
    · rename_i he
      cases hw
      rw [bindings, isEmpty_iff.1 he]
      exact (binds_text _).behind _
    · simp only [bind_eq_ok] at hw
      obtain ⟨items, hi, hw⟩ := hw
      cases hw
      have hitems := binds_intercalate ", " (forall₂_of_mapM (fun _ _ => binds_assignmentWords) hi)
      rw [bindings, flatMap_def]
      exact ((hitems.behind _).before _).behind _
  | update target assignments predicate returning =>
    simp only [statementWords, bind_eq_ok] at h
    obtain ⟨sets, hs, condition, hc, h⟩ := h
    cases h
    exact ((binds_setWords hs).behind _).append (binds_whereWords hc)
  | delete target predicate returning =>
    simp only [statementWords, bind_eq_ok] at h
    obtain ⟨condition, hc, h⟩ := h
    cases h
    exact (binds_whereWords hc).behind _

theorem filed_ofWords (config : Config) (h : Binds ws bs) :
    (Numbered.ofWords config ws).Filed config bs := by
  have hstart : ({} : Numbered).Filed config [] := ⟨nofun, .nil⟩
  exact h hstart

/-! ## The parameter of a member -/

/-- The constant that the parameter of a name holds. -/
def parameterValue? (parameters : List ParameterRecord) (name : String) : Option Constant :=
  (parameters.find? fun p => p.name == name).bind ParameterRecord.value

namespace Numbered

variable {config : Config} {n : Numbered} {bs : List (String × Constant)}

theorem Filed.value_parameter (h : Filed config n bs) {i : Nat} {record : ParameterRecord}
    (hi : n.parameters[i]? = some record) : parameterValue? n.parameters record.name = record.value := by
  obtain ⟨found, hfound⟩ := Option.isSome_iff_exists.1 (find?_isSome (p := fun p => p.name == record.name).2
    ⟨record, mem_of_getElem? hi, by simp⟩)
  obtain ⟨j, hj⟩ := getElem?_of_mem (mem_of_find?_eq_some hfound)
  have hname : found.name = record.name := by simpa using find?_some hfound
  rw [h.named j found hj, h.named i record hi] at hname
  have hij : j = i := config.parameterName_injective hname
  subst hij
  cases hj.symm.trans hi
  rw [parameterValue?, hfound]
  rfl

/-- A member has a parameter just if a constant is bound to it, and the parameter holds the one bound
last. -/
theorem Filed.boundName?_spec (h : Filed config n bs) (member : String) :
    n.boundName? member = none ∧ lastBinding? member bs = none ∨
      ∃ p c, n.boundName? member = some p ∧ parameterValue? n.parameters p = some c ∧ lastBinding? member bs = some c := by
  have hlookup : ∀ {entries : List (String × Nat)} {rest : List (String × Constant)},
      List.Forall₂ (fun entry binding => entry.1 = key binding.1 ∧
        ∃ record, n.parameters[entry.2]? = some record ∧ record.value = some binding.2) entries rest →
      entries.lookup (key member) = none ∧ rest.find? (fun b => same member b.1) = none ∨
        ∃ i record b, entries.lookup (key member) = some i ∧ n.parameters[i]? = some record ∧
          record.value = some b.2 ∧ rest.find? (fun b => same member b.1) = some b := by
    intro entries rest hfiled
    induction hfiled with
    | nil => exact Or.inl ⟨rfl, rfl⟩
    | @cons entry binding entries rest hentry _ ih =>
      obtain ⟨key, i⟩ := entry
      obtain ⟨hkey, record, hi, hv⟩ := hentry
      dsimp only at hkey hi
      subst hkey
      rw [lookup_cons, find?_cons, show (key member == key binding.1) = same member binding.1 from rfl]
      cases same member binding.1 with
      | true => exact Or.inr ⟨i, record, binding, rfl, hi, hv, rfl⟩
      | false => exact ih
  unfold boundName? lastBinding?
  rcases hlookup h.bound with ⟨hnone, hfind⟩ | ⟨i, record, b, hsome, hi, hv, hfind⟩
  · exact Or.inl ⟨by rw [hnone]; rfl, by rw [hfind]; rfl⟩
  · refine Or.inr ⟨record.name, b.2, ?_, (h.value_parameter hi).trans hv, by rw [hfind]; rfl⟩
    rw [hsome]
    simp [hi]

end Numbered

/-! ## The parameters of a modification -/

theorem names_nodup (config : Config) (cs : List Constant) :
    ((cs.mapIdx (parameterAt config)).map ParameterRecord.name).Nodup := by
  refine nodup_iff_getElem?_ne_getElem?.2 fun i j hij hj heq => ?_
  rw [length_map, length_mapIdx] at hj
  simp only [getElem?_map, getElem?_mapIdx, getElem?_eq_getElem hj,
    getElem?_eq_getElem (hij.trans hj), Option.map_some, Option.some.injEq] at heq
  exact absurd (config.parameterName_injective heq) (Nat.ne_of_lt hij)

/-- A modification has one parameter for each constant that is written, numbered in the order of writing. -/
theorem parameters_of_compile {config : Config} {r : CompiledModification} (h : compile config m = .ok r) :
    r.parameters = m.written.mapIdx (parameterAt config) := by
  simp only [compile, bind_eq_ok] at h
  obtain ⟨set, -, name, -, ws, hws, rest, -, h⟩ := h
  cases h
  rw [← constants_of_statementWords hws]
  exact (Numbered.ofWords_spec config ws).2

theorem parameters_nodup {config : Config} {r : CompiledModification} (h : compile config m = .ok r) :
    (r.parameters.map ParameterRecord.name).Nodup := by
  rw [parameters_of_compile h]
  exact names_nodup config m.written

/-- The parameters of a modification are its constants in the order of writing, each with its value, its
kind and the name of its number. No two have one name, whatever the mark. The statement itself, before
the select that reads the row back, is its words with the names in the places of the constants. -/
theorem compile_parameters {config : Config} {m : Modification} {r : CompiledModification}
    (h : compile config m = .ok r) :
    r.parameters = m.written.mapIdx (fun i c =>
      { name := config.parameterName ("p" ++ Digits.ofNat i), value := some c, kind := c.kind }) ∧
    (r.parameters.map ParameterRecord.name).Nodup ∧
    ∃ set name ws rest, targetSet m.target = .ok set ∧ targetName set = .ok name ∧ statementWords name m = .ok ws ∧
      Word.constants ws = m.written ∧ readBack config set m (Numbered.ofWords config ws) = .ok rest ∧
      r.text = Word.spell (fun i => config.parameterName ("p" ++ Digits.ofNat i)) 0 ws ++ rest := by
  refine ⟨parameters_of_compile h, parameters_nodup h, ?_⟩
  simp only [compile, bind_eq_ok] at h
  obtain ⟨set, hset, name, hname, ws, hws, rest, hrest, h⟩ := h
  cases h
  exact ⟨set, name, ws, rest, hset, hname, hws, constants_of_statementWords hws, hrest,
    congrArg (· ++ rest) (Numbered.ofWords_spec config ws).1⟩

/-- An update that sets nothing, with a mark that the second name has already. -/
theorem touchedProcess_parameters :
    let m := Modification.update (renameProcess (.string "") (.int64 4)).target []
      (.compare .eq (.property (.var "p" (.scalar .int64)) "id") (.constant (.int64 4))) []
    ∃ r, compile { parameterPrefix := "p1" } m = .ok r ∧
      r.text = "UPDATE process\nSET p1p0 = 0\nWHERE (id = p1);\n" ∧
      r.parameters = [⟨"p1p0", some (.int32 0), .int32⟩, ⟨"p1", some (.int64 4), .int64⟩] ∧
      (r.parameters.map ParameterRecord.name).Nodup := by
  intro m
  obtain ⟨r, hr⟩ : ∃ r, compile { parameterPrefix := "p1" } m = .ok r := ⟨_, rfl⟩
  obtain ⟨hparameters, hnodup, -⟩ := compile_parameters hr
  refine ⟨r, hr, ?_, hparameters, hnodup⟩
  cases hr
  decide +kernel

end Modification

end RelSql
