import LiftedPlanning.Proofs.Declaration.Acceptance
import LiftedPlanning.Proofs.Declaration.Edits
import LiftedPlanning.Proofs.Text.Stored

/-!
# Printed conditions are read back

The texts of conditions and atoms are literals as the reader expects them. In a problem that was
read all names can be written, names are looked up to what they name, and the variables of a
condition are parameters of its operator. So a text of a condition is read as this condition, and
if a line with it is added to the text of a problem, the problem is as before, with the condition
at the end of the precondition or of the goal that the line is about.
-/

namespace LiftedPlanning.Declaration

open Text

variable {p q : Problem} {c : Condition} {t : Term} {scope : Option OperatorId}

/-! ## Printed literals -/

theorem toList_applied (name : String) (args : List String) :
    (Problem.applied name args).toList =
      name.toList ++ '(' :: (joined (args.map String.toList) ++ [')']) := by
  simp [Problem.applied, String.toList_intercalate, joined]

theorem toList_conditionText (p : Problem) (c : Condition) :
    (p.conditionText c).toList = literalText c.negated (p.predicateName c.predicate).toList
      (c.args.map fun t ↦ (p.termText t).toList) := by
  rw [Problem.conditionText, String.toList_append, toList_applied, literalText, List.map_map]
  cases c.negated <;> simp [Function.comp_def]

theorem isArgument_of_isName {name : List Char} (h : isName name = true) : IsArgument name := by
  obtain ⟨c, cs, rfl, -⟩ := exists_cons_of_isName h
  refine ⟨List.cons_ne_nil c cs, fun d hd ↦ ?_⟩
  have hd := continuesName_of_mem h hd
  exact ⟨ne_of_continuesName hd (by decide), isBlank_of_continuesName hd⟩

theorem isArgument_variable {name : List Char} (h : isName name = true) :
    IsArgument ('?' :: name) :=
  ⟨List.cons_ne_nil _ _, List.forall_mem_cons.mpr ⟨by decide, (isArgument_of_isName h).2⟩⟩

/-! ## Look-ups by printed names -/

section Entries

variable {α : Type} {catalog : Catalog α} {i : Nat}

theorem name?_eq_some_getD (h : (catalog.value? i).isSome = true) :
    catalog.name? i = some ((catalog.name? i).getD "") := by
  rw [Catalog.value?, Option.isSome_map] at h
  obtain ⟨entry, hentry⟩ := Option.isSome_iff_exists.mp h
  rw [Catalog.name?, hentry]
  rfl

theorem find_name {kind : HandleKind} (hc : catalog.Indexed)
    (h : (catalog.value? i).isSome = true) :
    (catalog.find ((catalog.name? i).getD "")).map Handle.mk = .ok (⟨i⟩ : Handle kind) := by
  rw [(hc.inverse _ _).mpr (name?_eq_some_getD h)]
  rfl

theorem isName_name (hc : ∀ name ∈ catalog.names, isName name.toList = true)
    (h : (catalog.value? i).isSome = true) :
    isName ((catalog.name? i).getD "").toList = true := by
  obtain ⟨entry, hentry, hname⟩ := Option.map_eq_some_iff.mp (name?_eq_some_getD h)
  exact hc _ (hname ▸ List.mem_map_of_mem (List.mem_of_getElem? hentry))

end Entries

theorem parameters_eq {v : VariableId} (h : v.index < p.parameters.length) :
    (p.parameters[v.index]?).map (·.1) = some (p.variableName v) := by
  rw [Problem.variableName, List.getElem?_eq_getElem h, Option.map_some, Option.getD_some]

theorem isName_variableName (hp : Legible p) {v : VariableId} (h : v.index < p.parameters.length) :
    isName (p.variableName v).toList = true := by
  rw [Problem.variableName, List.getElem?_eq_getElem h]
  exact hp.spelled.parameters _ (List.getElem_mem h)

/-- A parameter of an operator is looked up under its name, since no other one has it. -/
theorem variableOf_variableName (hp : Legible p) {op : OperatorId} {schema : Operator}
    (hop : p.operator? op = some schema) {v : VariableId} (hv : v ∈ schema.parameters) :
    p.variableOf op (p.variableName v) = .ok v := by
  have hdeclared : ∀ w ∈ schema.parameters, w.index < p.parameters.length :=
    (hp.consistent.operators op schema hop).parameters
  have hnodup := hp.consistent.parameterNames op schema hop
  have hfind : p.parameter? schema (p.variableName v) = some v := by
    obtain ⟨before, after, hsplit⟩ := List.append_of_mem hv
    rw [hsplit, List.map_append, List.map_cons] at hnodup
    refine List.find?_eq_some_iff_append.mpr ⟨?_, before, after, hsplit, fun w hw ↦ ?_⟩
    · rw [parameters_eq (hdeclared v hv)]
      exact beq_self_eq_true _
    · have hne : p.variableName w ≠ p.variableName v := fun he ↦
        (List.nodup_append.mp hnodup).2.2 _ (List.mem_map_of_mem hw) _ List.mem_cons_self he
      rw [parameters_eq (hdeclared w (hsplit ▸ List.mem_append_left _ hw))]
      simpa using hne
  rw [Problem.variableOf, hop]
  dsimp only
  rw [hfind]

/-! ## Printed conditions -/

theorem readTerm_const (hp : Legible p) {k : ConstantId} (h : (p.constantType? k).isSome = true) :
    readTerm p scope (p.constantName k).toList = .ok (.const k) := by
  have hname : isName (p.constantName k).toList = true := isName_name hp.spelled.constants h
  have hvariable : variableName? (p.constantName k).toList = none := by
    rw [variableName?.eq_def]
    split
    · rename_i heq
      exact absurd (congrArg List.head? heq) (head?_ne_of_isName hname (by decide))
    · rfl
  have hfind : p.constantOf (p.constantName k) = .ok k := find_name hp.consistent.constantNames h
  rw [readTerm.eq_def, hvariable]
  dsimp only
  rw [readName, if_pos hname, String.ofList_toList]
  change ((p.constantOf (p.constantName k)).map Term.const).mapError _ = _
  rw [hfind]
  rfl

theorem readTerm_param (hp : Legible p) {op : OperatorId} {schema : Operator}
    (hop : p.operator? op = some schema) {v : VariableId} (hv : v ∈ schema.parameters) :
    readTerm p (some op) ('?' :: (p.variableName v).toList) = .ok (.param v) := by
  have hname := isName_variableName hp ((hp.consistent.operators op schema hop).parameters v hv)
  have hvariable : variableName? ('?' :: (p.variableName v).toList) =
      some (p.variableName v).toList := if_pos hname
  rw [readTerm.eq_def, hvariable]
  dsimp only
  rw [String.ofList_toList, variableOf_variableName hp hop hv]
  rfl

theorem readTerm_termText (hp : Legible p) (ht : (p.termType? t).isSome = true)
    (hscope : InScope p scope t) : readTerm p scope (p.termText t).toList = .ok t ∧
      IsArgument (p.termText t).toList := by
  cases t with
  | const k =>
    exact ⟨readTerm_const hp ht, isArgument_of_isName (isName_name hp.spelled.constants ht)⟩
  | param v =>
    obtain ⟨op, schema, rfl, hop, hposition⟩ := hscope v rfl
    have hv : v ∈ schema.parameters := List.isSome_idxOf?.mp hposition
    have hname := isName_variableName hp ((hp.consistent.operators op schema hop).parameters v hv)
    have htext : (p.termText (.param v)).toList = '?' :: (p.variableName v).toList :=
      String.toList_append
    rw [htext]
    exact ⟨readTerm_param hp hop hv, isArgument_variable hname⟩

/-- **A printed condition** is read back where its variables are in scope. -/
theorem readLiteral_conditionText (hp : Legible p) (hc : p.declares c = true)
    (hscope : ∀ t ∈ c.args, InScope p scope t) :
    readLiteral p scope (p.conditionText c).toList = .ok c := by
  rw [Problem.declares, Bool.and_eq_true, List.all_eq_true] at hc
  obtain ⟨hpredicate, hargs⟩ := hc
  have hterms : ∀ t ∈ c.args, readTerm p scope (p.termText t).toList = .ok t ∧
      IsArgument (p.termText t).toList := fun t ht ↦ readTerm_termText hp (hargs t ht) (hscope t ht)
  have hname : isName (p.predicateName c.predicate).toList = true :=
    isName_name hp.spelled.predicates hpredicate
  have hfind : p.predicateOf (p.predicateName c.predicate) = .ok c.predicate :=
    find_name hp.consistent.predicateNames hpredicate
  have harguments : arguments (joined (c.args.map fun t ↦ (p.termText t).toList)) =
      c.args.map fun t ↦ (p.termText t).toList :=
    arguments_joined (List.forall_mem_map.mpr fun t ht ↦ (hterms t ht).2)
  have hread : (c.args.map fun t ↦ (p.termText t).toList).mapM (readTerm p scope) = .ok c.args := by
    rw [List.mapM_map]
    exact (Fallible.mapM_eq_ok_map fun t ht ↦ (hterms t ht).1).trans
      (congrArg Except.ok (List.map_id c.args))
  rw [readLiteral, toList_conditionText, literalShape?_literalText hname]
  dsimp only
  rw [String.ofList_toList, hfind, harguments, hread]
  rfl

theorem not_mem_termText (hp : Legible p) (ht : (p.termType? t).isSome = true) {d : Char}
    (hd : continuesName d = false) (hmark : d ≠ '?') : d ∉ (p.termText t).toList := by
  intro hmem
  cases t with
  | const k =>
    have hname : isName (p.constantName k).toList = true := isName_name hp.spelled.constants ht
    exact ne_of_continuesName (continuesName_of_mem hname hmem) hd rfl
  | param v =>
    have hv : v.index < p.parameters.length := by
      rw [Problem.termType?, Problem.variableType?, Option.isSome_map] at ht
      simpa using ht
    have htext : (p.termText (.param v)).toList = '?' :: (p.variableName v).toList :=
      String.toList_append
    rw [htext] at hmem
    rcases List.mem_cons.mp hmem with rfl | hmem
    · exact hmark rfl
    · exact ne_of_continuesName (continuesName_of_mem (isName_variableName hp hv) hmem) hd rfl

/-- The text of a condition has the characters of names in it, and a few others. -/
theorem not_mem_conditionText (hp : Legible p) (hc : p.declares c = true) {d : Char}
    (hd : continuesName d = false) (hmark : d ∉ ['?', '-', '(', ')', ',', ' ']) :
    d ∉ (p.conditionText c).toList := by
  rw [List.mem_cons, not_or] at hmark
  rw [Problem.declares, Bool.and_eq_true, List.all_eq_true] at hc
  rw [toList_conditionText]
  intro hmem
  rcases mem_literalText hmem with hmem | ⟨arg, harg, hmem⟩ | hmem
  · have hname := isName_name hp.spelled.predicates hc.1
    exact ne_of_continuesName (continuesName_of_mem hname hmem) hd rfl
  · obtain ⟨t, ht, rfl⟩ := List.mem_map.mp harg
    exact not_mem_termText hp (hc.2 t ht) hd hmark.1 hmem
  · exact hmark.2 hmem

theorem trim_conditionText (hp : Legible p) (hc : p.declares c = true) :
    trim (p.conditionText c).toList = (p.conditionText c).toList := by
  rw [Problem.declares, Bool.and_eq_true] at hc
  rw [toList_conditionText]
  exact trim_literalText (isName_name hp.spelled.predicates hc.1)

theorem readLiteral_trim_conditionText (hp : Legible p) (hc : p.declares c = true)
    (hscope : ∀ t ∈ c.args, InScope p scope t) :
    readLiteral p scope (trim (p.conditionText c).toList) = .ok c := by
  rw [trim_conditionText hp hc]
  exact readLiteral_conditionText hp hc hscope

/-! ## Printed declarations -/

theorem readLine_declarationText (p : Problem) {keyword body : List Char} (h : IsKeyword keyword)
    (hbody : '%' ∉ body) :
    readLine p (some (declarationText keyword body)) = declare p ⟨keyword, body⟩ := by
  have hne : declarationText keyword body ≠ [] :=
    List.append_ne_nil_of_right_ne_nil _ (List.cons_ne_nil _ _)
  rw [readLine.eq_def]
  dsimp only
  rw [content_declarationText h hbody]
  split
  · rename_i heq
    exact absurd heq hne
  · rw [shape?_declarationText h]

theorem readFormula_conditionText (hp : Legible p) {op : OperatorId} {schema : Operator}
    (hop : p.operator? op = some schema) (hc : p.declares c = true) (hscope : schema.Scopes c) :
    readFormula p op (p.conditionText c).toList = .ok (.literal c) := by
  have hfields : fields '|' (p.conditionText c).toList = [(p.conditionText c).toList] :=
    fieldsBy_of_forall fun d hd ↦ beq_false_of_ne fun he ↦
      not_mem_conditionText hp hc (by decide) (by decide) (he ▸ hd)
  have hterms : ∀ t ∈ c.args, InScope p (some op) t := by
    rintro _ ht v rfl
    exact ⟨op, schema, rfl, hop, hscope v (Condition.mem_vars_iff.mpr ht)⟩
  rw [readFormula, hfields, List.mapM_cons, readLiteral_trim_conditionText hp hc hterms]
  rfl

/-- The body of a declaration that demands a printed condition of an operator. -/
def demandBody (p : Problem) (op : OperatorId) (c : Condition) : List Char :=
  (p.operatorName op).toList ++ ',' :: ' ' :: (p.conditionText c).toList

theorem declareFormula_demandBody (hp : Legible p) {op : OperatorId} {schema : Operator}
    (hop : p.operator? op = some schema) (hc : p.checkCondition c = .ok ())
    (hscope : schema.Scopes c) (role : Role) :
    declareFormula p role (demandBody p op c) = .ok (p.demand role op (.literal c)) := by
  have hsome : (p.operator? op).isSome = true := Option.isSome_of_eq_some hop
  have hdeclares := Problem.declares_of_checkCondition hc
  have hname : isName (p.operatorName op).toList = true := isName_name hp.spelled.operators hsome
  have hfind : p.operatorOf (p.operatorName op) = .ok op :=
    find_name hp.consistent.operatorNames hsome
  have hcomma : ',' ∉ (p.operatorName op).toList := fun h ↦
    absurd (continuesName_of_mem hname h) (by decide)
  have hadd : p.addFormula role op (.literal c) = .ok (p.demand role op (.literal c)) := by
    refine Problem.addFormula_eq_ok_iff.mpr ⟨Catalog.index_lt_of_value? hop, ?_, rfl⟩
    exact Problem.checkFormula_eq_ok_iff.mpr (List.forall_mem_singleton.mpr hc)
  rw [declareFormula, demandBody, splitAtComma?_append hcomma]
  dsimp only
  rw [trim_of_forall fun d hd ↦ isBlank_of_mem hname hd, String.ofList_toList, hfind,
    trim_cons (c := ' ') rfl, trim_conditionText hp hdeclares]
  change (readFormula p op (p.conditionText c).toList >>= fun f ↦
    (p.addFormula role op f).mapError LineError.problem) = _
  rw [readFormula_conditionText hp hop hdeclares hscope]
  change (p.addFormula role op (.literal c)).mapError LineError.problem = _
  rw [hadd]
  rfl

/-! ## Lines -/

/-- The line that demands a condition before an operator. -/
def demandLine (p : Problem) (op : OperatorId) (c : Condition) : String :=
  s!"pre({p.operatorName op}, {p.conditionText c})."

/-- The line that demands a condition at the end. -/
def goalLine (p : Problem) (c : Condition) : String :=
  s!"goal({p.conditionText c})."

/-- The line that makes an atom hold initially. -/
def initLine (p : Problem) (a : GroundAtom) : String :=
  s!"init({p.atomText a})."

theorem toList_demandLine (op : OperatorId) :
    (demandLine p op c).toList = declarationText "pre".toList (demandBody p op c) := by
  simp [demandLine, declarationText, demandBody, toString]

theorem toList_goalLine :
    (goalLine p c).toList = declarationText "goal".toList (p.conditionText c).toList := by
  simp [goalLine, declarationText, toString]

theorem toList_initLine {a : GroundAtom} :
    (initLine p a).toList = declarationText "init".toList (p.atomText a).toList := by
  simp [initLine, declarationText, toString]

theorem declare_pre {body : List Char} (h : declareFormula p .precondition body = .ok q) :
    declare p ⟨"pre".toList, body⟩ = .ok (q, none) := by
  rw [declare, String.ofList_toList]
  change (declareFormula p .precondition body >>= fun q ↦ pure (q, none)) = _
  rw [h]
  rfl

theorem declare_goal {body : List Char} (h : readLiteral p none (trim body) = .ok c)
    (hadd : p.addGoal c = .ok q) : declare p ⟨"goal".toList, body⟩ = .ok (q, none) := by
  rw [declare, String.ofList_toList]
  change (readLiteral p none (trim body) >>= fun c ↦
    (p.addGoal c).mapError LineError.problem >>= fun q ↦ pure (q, none)) = _
  rw [h]
  change ((p.addGoal c).mapError LineError.problem >>= fun q ↦ pure (q, none)) = _
  rw [hadd]
  rfl

theorem declare_init {body : List Char} (h : readLiteral p none (trim body) = .ok c)
    (hadd : p.addInitialAtom c = .ok (false, q)) : declare p ⟨"init".toList, body⟩ =
      .ok (q, some s!"initial atom {p.conditionText c} is defined twice") := by
  rw [declare, String.ofList_toList]
  change (readLiteral p none (trim body) >>= fun c ↦
    (p.addInitialAtom c).mapError LineError.problem >>= fun r ↦ if r.1 then pure (r.2, none) else
      pure (r.2, some s!"initial atom {p.conditionText c} is defined twice")) = _
  rw [h]
  change ((p.addInitialAtom c).mapError LineError.problem >>= _) = _
  rw [hadd]
  rfl

/-! ## Texts with a line after them -/

/-- A return at the end of a line makes no difference. -/
theorem content_concat (line : List Char) : content (line ++ ['\r']) = content line := by
  rw [content, content, List.takeWhile_append]
  split
  · rename_i hlength
    have hall : line.takeWhile (· ≠ '%') = line :=
      (List.takeWhile_prefix _).sublist.eq_of_length hlength
    rw [hall]
    exact trim_concat (by decide)
  · rfl

theorem readLine_congr {line line' : List Char} (h : content line = content line') :
    readLine p (some line) = readLine p (some line') := by
  rw [readLine.eq_def, readLine.eq_def]
  dsimp only
  rw [h]

theorem readLine_cut (e : LineEnd) (line : List UInt8) :
    readLine p (decode? (e.cut 13 line)) = readLine p (decode? line) := by
  cases e with
  | returnFeed => rfl
  | feed =>
    rw [LineEnd.cut]
    rcases eq_unreturned_or 13 line with heq | heq
    · rw [← heq]
    · cases hfront : decode? (unreturned 13 line) with
      | some cs =>
        have hline : encode (cs ++ ['\r']) = line := by
          rw [heq, encode_append, encode_of_decode? hfront]
          rfl
        rw [← hline, decode?_encode]
        exact readLine_congr (content_concat cs).symm
      | none =>
        cases hline : decode? line with
        | none => rfl
        | some cs =>
          rw [← encode_of_decode? hline, unreturned_encode, decode?_encode] at hfront
          cases hfront

theorem readLines_append {n : Nat} {xs ys : List (Option (List Char))}
    (h : (readLines p n xs).problem = .ok q) :
    readLines p n (xs ++ ys) = ⟨(readLines p n xs).warnings ++
      (readLines q (n + xs.length) ys).warnings, (readLines q (n + xs.length) ys).problem⟩ := by
  induction xs generalizing p n with
  | nil =>
    obtain rfl := Except.ok.inj h
    rfl
  | cons line xs ih =>
    rw [List.cons_append, readLines, readLines]
    rw [readLines] at h
    split at h
    · cases h
    · rename_i r remark hline
      have hline' : n + 1 + xs.length = n + (line :: xs).length := by
        rw [List.length_cons]
        omega
      dsimp only
      rw [ih h, hline', List.append_assoc]

theorem readLines_append_congr {xs ys zs : List (Option (List Char))}
    (h : ∀ q n, readLines q n ys = readLines q n zs) (n : Nat) :
    readLines p n (xs ++ ys) = readLines p n (xs ++ zs) := by
  induction xs generalizing p n with
  | nil => exact h p n
  | cons line xs ih => simp only [List.cons_append, readLines, ih]

/-- **A text that is ended** is read as before, with one more line for what follows. -/
theorem exists_read_ended (bytes : List UInt8) (e : LineEnd) :
    ∃ lines, lines.length = bytes.count 10 + 1 ∧ read bytes = readLines .empty 1 lines ∧
      ∀ rest, read (bytes ++ (e.text 10 13 ++ rest)) =
        readLines .empty 1 (lines ++ storedLines rest) := by
  obtain ⟨before, last, hlength, hlines, happended⟩ :=
    exists_linesAt_append (show (13 : UInt8) ≠ 10 by decide) bytes
  refine ⟨(before ++ [e.cut 13 last]).map decode?, ?_, ?_, fun rest ↦ ?_⟩
  · rw [List.length_map, List.length_append, hlength, List.length_singleton]
  · rw [read, storedLines, hlines, List.map_append, List.map_append]
    refine readLines_append_congr (fun q n ↦ ?_) 1
    rw [List.map_singleton, readLines, readLine_cut]
    split
    · -- an ended text has an empty line where nothing was left, and that line declares nothing
      rename_i hnil
      rw [hnil]
      rfl
    · rw [List.map_singleton, readLines]
  · rw [read, storedLines, happended, storedLines]
    simp

/-- A text with one more line after it. -/
def extended (bytes : List UInt8) (e : LineEnd) (line : String) : List UInt8 :=
  bytes ++ (e.text 10 13 ++ encode line.toList)

theorem read_extended_eq {bytes : List UInt8} (hp : (read bytes).problem = .ok p) (e : LineEnd)
    {line : String} {remark : Option String} (hne : line.toList ≠ []) (hfeed : '\n' ∉ line.toList)
    (hline : readLine p (some line.toList) = .ok (q, remark)) :
    read (extended bytes e line) =
      ⟨(read bytes).warnings ++ (remark.map (⟨bytes.count 10 + 2, ·⟩)).toList, .ok q⟩ := by
  obtain ⟨lines, hlength, hread, hextended⟩ := exists_read_ended bytes e
  have hlast : storedLines (encode line.toList) = [some line.toList] := by
    rw [storedLines_encode, Text.lines, linesAt_of_not_mem hfeed, if_neg hne]
    rfl
  rw [hread] at hp
  rw [extended, hextended, hlast, readLines_append hp, hread, hlength, readLines, hline]
  have hnumber : 1 + (bytes.count 10 + 1) = bytes.count 10 + 2 := by omega
  rw [hnumber]
  simp [readLines]

theorem read_extended_of_declare {bytes : List UInt8} (hp : (read bytes).problem = .ok p)
    (e : LineEnd) {line : String} {keyword body : List Char} {remark : Option String}
    (hline : line.toList = declarationText keyword body) (hkeyword : IsKeyword keyword)
    (hbody : '%' ∉ body ∧ '\n' ∉ body) (h : declare p ⟨keyword, body⟩ = .ok (q, remark)) :
    read (extended bytes e line) =
      ⟨(read bytes).warnings ++ (remark.map (⟨bytes.count 10 + 2, ·⟩)).toList, .ok q⟩ := by
  refine read_extended_eq hp e ?_ ?_ ?_ <;> rw [hline]
  · exact List.append_ne_nil_of_right_ne_nil _ (List.cons_ne_nil _ _)
  · exact not_mem_declarationText hkeyword hbody.2 (by decide) (by decide)
  · rw [readLine_declarationText p hkeyword hbody.1, h]

theorem not_mem_conditionText_of_line (hp : Legible p) (hc : p.declares c = true) :
    '%' ∉ (p.conditionText c).toList ∧ '\n' ∉ (p.conditionText c).toList :=
  ⟨not_mem_conditionText hp hc (by decide) (by decide),
    not_mem_conditionText hp hc (by decide) (by decide)⟩

theorem not_mem_demandBody (hp : Legible p) {op : OperatorId} (hop : (p.operator? op).isSome = true)
    (hc : p.declares c = true) : '%' ∉ demandBody p op c ∧ '\n' ∉ demandBody p op c := by
  have hname : isName (p.operatorName op).toList = true := isName_name hp.spelled.operators hop
  have hplain {d : Char} (hd : continuesName d = false) : d ∉ (p.operatorName op).toList :=
    fun hmem ↦ ne_of_continuesName (continuesName_of_mem hname hmem) hd rfl
  have htext := not_mem_conditionText_of_line hp hc
  constructor
  · simp [demandBody, hplain (d := '%') (by decide), htext.1]
  · simp [demandBody, hplain (d := '\n') (by decide), htext.2]

theorem conditionText_toCondition (p : Problem) (a : GroundAtom) :
    p.conditionText a.toCondition = p.atomText a := by
  rw [Problem.conditionText, Problem.atomText, GroundAtom.toCondition, Condition.positive,
    List.map_map]
  exact String.empty_append

theorem inScope_of_isGround (hc : c.isGround = true) : ∀ t ∈ c.args, InScope p none t := by
  rintro _ ht v rfl
  have hnil : c.vars = [] := List.isEmpty_iff.mp hc
  exact absurd (Condition.mem_vars_iff.mpr ht) (hnil ▸ List.not_mem_nil)

theorem inScope_toCondition (a : GroundAtom) : ∀ t ∈ a.toCondition.args, InScope p none t := by
  rintro _ ht v rfl
  obtain ⟨k, -, hk⟩ := List.mem_map.mp ht
  cases hk

theorem demand_eq {op : OperatorId} {schema : Operator} {fs : List Formula}
    (hop : p.operator? op = some schema) (hfs : schema.precondition = .conj fs) :
    p.demand .precondition op (.literal c) =
      { p with operators := p.operators.update op.index fun schema ↦
        { schema with precondition := .conj (fs ++ [.literal c]) } } := by
  refine congrArg (fun operators ↦ { p with operators })
    (Catalog.update_congr fun before h ↦ ?_)
  obtain rfl : schema = before := Option.some.inj (hop.symm.trans h)
  change ({ schema with precondition := schema.precondition.and (.literal c) } : Operator) = _
  rw [hfs]
  rfl

section Extended

variable {bytes : List UInt8} (hp : (read bytes).problem = .ok p) (e : LineEnd)

include hp

theorem read_extended_demandLine {op : OperatorId} {schema : Operator}
    (hop : p.operator? op = some schema) {role : Role}
    (hc : c ∈ (schema.formula role).conditions) :
    read (extended bytes e (demandLine p op c)) =
      ⟨(read bytes).warnings, .ok (p.demand .precondition op (.literal c))⟩ := by
  have hlegible := legible_of_read hp
  have hcheck := (hlegible.consistent.operators op schema hop).conditions role c hc
  have hdeclares := Problem.declares_of_checkCondition hcheck
  have hformula := declareFormula_demandBody hlegible hop hcheck
    (hlegible.scopes op schema hop role c hc) .precondition
  have hlines := read_extended_of_declare hp e (toList_demandLine op) (by decide)
    (not_mem_demandBody hlegible (Option.isSome_of_eq_some hop) hdeclares) (declare_pre hformula)
  simpa using hlines

theorem read_extended_goalLine (hc : c ∈ p.goal) :
    read (extended bytes e (goalLine p c)) =
      ⟨(read bytes).warnings, .ok { p with goal := p.goal ++ [c] }⟩ := by
  have hlegible := legible_of_read hp
  obtain ⟨hcheck, hground⟩ := hlegible.consistent.goal c hc
  have hdeclares := Problem.declares_of_checkCondition hcheck
  have hread := readLiteral_trim_conditionText hlegible hdeclares (inScope_of_isGround hground)
  have hdeclare := declare_goal hread (Problem.addGoal_eq_ok_iff.mpr ⟨hcheck, hground, rfl⟩)
  have hlines := read_extended_of_declare hp e toList_goalLine (by decide)
    (not_mem_conditionText_of_line hlegible hdeclares) hdeclare
  simpa using hlines

theorem read_extended_initLine {a : GroundAtom} (ha : a ∈ p.init) :
    read (extended bytes e (initLine p a)) =
      ⟨(read bytes).warnings ++
        [⟨bytes.count 10 + 2, s!"initial atom {p.atomText a} is defined twice"⟩], .ok p⟩ := by
  have hlegible := legible_of_read hp
  have hcheck := hlegible.consistent.init a ha
  have hdeclares := Problem.declares_of_checkCondition hcheck
  have hread := readLiteral_trim_conditionText hlegible hdeclares (inScope_toCondition a)
  have hadd : p.addInitialAtom a.toCondition = .ok (false, p) :=
    Problem.addInitialAtom_eq_ok_iff.mpr
      ⟨hcheck, rfl, a, Condition.groundAtom?_toCondition a, if_pos ha⟩
  have hdeclare := declare_init hread hadd
  have hbody := not_mem_conditionText_of_line hlegible hdeclares
  rw [conditionText_toCondition] at hdeclare hbody
  have hlines := read_extended_of_declare hp e toList_initLine (by decide) hbody hdeclare
  simpa using hlines

end Extended

/-- **Printed conditions are read back.** Let a problem be read from a text, and let a line with the
text of one of its conditions follow after a line break. If the line demands a condition of an
operator of that operator, the condition is appended to its precondition. If it demands a condition
of the goal, the condition is appended to the goal. If it makes an initial atom hold, the problem
stays, and there is one more warning, at that line. Nothing else changes. -/
theorem read_extended {bytes : List UInt8} (hp : (read bytes).problem = .ok p) (e : LineEnd) :
    (∀ op schema, p.operator? op = some schema → ∀ role, ∀ c ∈ (schema.formula role).conditions,
      ∃ fs, schema.precondition = .conj fs ∧
        read (extended bytes e (demandLine p op c)) = ⟨(read bytes).warnings,
          .ok { p with operators := p.operators.update op.index fun schema ↦
            { schema with precondition := .conj (fs ++ [.literal c]) } }⟩) ∧
    (∀ c ∈ p.goal, read (extended bytes e (goalLine p c)) =
      ⟨(read bytes).warnings, .ok { p with goal := p.goal ++ [c] }⟩) ∧
    ∀ a ∈ p.init, read (extended bytes e (initLine p a)) =
      ⟨(read bytes).warnings ++
        [⟨bytes.count 10 + 2, s!"initial atom {p.atomText a} is defined twice"⟩], .ok p⟩ := by
  refine ⟨fun op schema hop role c hc ↦ ?_, fun c hc ↦ read_extended_goalLine hp e hc,
    fun a ha ↦ read_extended_initLine hp e ha⟩
  obtain ⟨fs, hfs⟩ := (legible_of_read hp).conjunctive op schema hop .precondition
  refine ⟨fs, hfs, ?_⟩
  rw [← demand_eq hop hfs]
  exact read_extended_demandLine hp e hop hc

/-- The lines of the ferry with a choice. -/
def strayLines : List String :=
  ferryLines ++ ["pre(sail, at(?x) | at(?y))."]

/-- The one operator of the ferry with a choice. -/
def straySail : Operator :=
  (strayFerry.operator? ⟨0⟩).get (by decide +kernel)

/-- A condition that the choice offers can be demanded next to it, the goal can be demanded once
more, and the initial atom is noticed to be there already. -/
theorem read_extended_strayLines :
    (demandLine strayFerry ⟨0⟩ ⟨⟨0⟩, [.param ⟨1⟩], false⟩ = "pre(sail, at(?y))." ∧
      ∃ fs, straySail.precondition = .conj fs ∧
        read (extended (stored strayLines) .feed "pre(sail, at(?y)).") =
          ⟨[], .ok { strayFerry with operators := strayFerry.operators.update 0 fun schema ↦
            { schema with
              precondition := .conj (fs ++ [.literal ⟨⟨0⟩, [.param ⟨1⟩], false⟩]) } }⟩) ∧
    read (extended (stored strayLines) .returnFeed "goal(at(b)).") =
      ⟨[], .ok { strayFerry with goal := strayFerry.goal ++ [⟨⟨0⟩, [.const ⟨1⟩], false⟩] }⟩ ∧
    read (extended (stored strayLines) .feed "init(at(a)).") =
      ⟨[⟨13, "initial atom at(a) is defined twice"⟩], .ok strayFerry⟩ := by
  have hp : (read (stored strayLines)).problem = .ok strayFerry := Fallible.eq_ok_get _
  have hread := read_extended hp
  -- in one evaluation, which reads the text once for all of them
  obtain ⟨⟨hdemand, hgoal, hinit, hatom⟩, ⟨hwarnings, hcount⟩, hoffered, hgoes, hstarts⟩ :
      (demandLine strayFerry ⟨0⟩ ⟨⟨0⟩, [.param ⟨1⟩], false⟩ = "pre(sail, at(?y))." ∧
        goalLine strayFerry ⟨⟨0⟩, [.const ⟨1⟩], false⟩ = "goal(at(b))." ∧
        initLine strayFerry ⟨⟨0⟩, [⟨0⟩]⟩ = "init(at(a))." ∧
        strayFerry.atomText ⟨⟨0⟩, [⟨0⟩]⟩ = "at(a)") ∧
      ((read (stored strayLines)).warnings = [] ∧ (stored strayLines).count 10 = 11) ∧
      ⟨⟨0⟩, [.param ⟨1⟩], false⟩ ∈ (straySail.formula .precondition).conditions ∧
      ⟨⟨0⟩, [.const ⟨1⟩], false⟩ ∈ strayFerry.goal ∧ ⟨⟨0⟩, [⟨0⟩]⟩ ∈ strayFerry.init := by
    decide +kernel
  refine ⟨⟨hdemand, ?_⟩, ?_, ?_⟩
  · obtain ⟨fs, hfs, hlines⟩ := (hread .feed).1 ⟨0⟩ straySail (Option.some_get _).symm .precondition
      _ hoffered
    rw [hdemand, hwarnings] at hlines
    exact ⟨fs, hfs, hlines⟩
  · have hlines := (hread .returnFeed).2.1 _ hgoes
    rwa [hgoal, hwarnings] at hlines
  · have hlines := (hread .feed).2.2 _ hstarts
    rwa [hinit, hwarnings, hatom, hcount] at hlines

end LiftedPlanning.Declaration
