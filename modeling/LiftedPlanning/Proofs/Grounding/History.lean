import LiftedPlanning.Proofs.Grounding.Table

/-!
# Histories of groundings

Atoms and actions are entered into a grounding on request. Whether a request is refused depends on
the problem alone, and then the grounding stays as it is. Requests may be repeated. The grounding
lists what was asked for where it was first asked for, so the places that it has given out never
change.
-/

namespace LiftedPlanning

/-! ## Places -/

/-- A new thing gets the next place, and all others keep theirs. -/
theorem Roster.place?_insert {α : Type} {key : α → Trie.Key} {r : Roster key} {a : α}
    (h : r.place? (key a) = none) (k : Trie.Key) :
    (r.insert a).place? k = if key a = k then some r.size else r.place? k := by
  rw [place?_eq_findIdx?, toList_insert, h, if_neg (by simp), List.findIdx?_append,
    ← place?_eq_findIdx?]
  by_cases hk : key a = k
  · rw [if_pos hk, ← hk, h]
    simp [size, toList]
  · simp [hk]

theorem Roster.place?_insert_self {α : Type} {key : α → Trie.Key} (r : Roster key) (a : α) :
    (r.insert a).place? (key a) = some ((r.place? (key a)).getD r.size) := by
  cases h : r.place? (key a) with
  | none => rw [place?_insert h, if_pos rfl, Option.getD_none]
  | some i => rw [insert_of_isSome (by rw [h]; rfl), h, Option.getD_some]

theorem Roster.insert_prefix {α : Type} {key : α → Trie.Key} (r : Roster key) (a : α) :
    r.toList <+: (r.insert a).toList := by
  rw [toList_insert]
  split
  · exact List.prefix_rfl
  · exact List.prefix_append _ _

namespace Grounding

variable {p : Problem} {g : Grounding} {op : OperatorId} {args : List ConstantId}

/-! ## Look-ups -/

theorem IsBuilt.atomId?_eq_some_iff (h : g.IsBuilt) {a : GroundAtom} {id : AtomId} :
    g.atomId? a = some id ↔ g.atoms[id.index]? = some a :=
  ⟨getElem?_of_atomId?, atomId?_of_getElem? h.distinctAtoms⟩

theorem IsBuilt.findAction_eq_ok_iff (h : g.IsBuilt) {a : Action} :
    g.findAction op args = .ok a ↔ a ∈ g.actions ∧ a.operator = op ∧ a.args = args := by
  rw [← action?_eq_some_iff h.distinctActions, findAction]
  cases g.action? op args <;> simp

theorem eq_noAction_of_findAction {e : GroundingError} (h : g.findAction op args = .error e) :
    e = .noAction op args := by
  rw [findAction] at h
  split at h
  · cases h
  · exact (Except.error.inj h).symm

theorem IsBuilt.id_eq (h : g.IsBuilt) :
    ∀ (i : Nat) (a : Action), g.actions[i]? = some a → a.id = i := by
  induction h with
  | empty => exact fun i a h ↦ by cases h
  | addAtom _ a ih =>
    rw [addAtom_eq]
    exact ih
  | @addAction g _ _ _ _ _ _ hadd ih =>
    obtain ⟨_, _, _, _, rfl⟩ := addAction_eq_ok hadd
    intro i a hi
    rw [actions, Roster.toList_insert] at hi
    split at hi
    · exact ih i a hi
    · rw [List.getElem?_append] at hi
      split at hi
      · exact ih i a hi
      · rename_i hlt
        obtain ⟨hlast, rfl⟩ := List.getElem?_eq_some_iff.mp hi
        have hsize : g.actionTable.toList.length = g.actionTable.size := Array.length_toList
        simp only [List.length_singleton] at hlast
        simp only [List.getElem_singleton]
        omega

theorem IsOver.exists_operator? (h : g.IsOver p) :
    ∀ a ∈ g.actions, ∃ schema, p.operator? a.operator = some schema ∧
      a.args.length = schema.arity := by
  induction h with
  | empty => exact List.forall_mem_nil _
  | addAtom _ a ih =>
    rw [addAtom_eq]
    exact ih
  | addAction _ _ hadd ih =>
    obtain ⟨name, schema, hop, hlen, rfl⟩ := addAction_eq_ok hadd
    intro a ha
    rcases Roster.mem_or_eq_of_mem_insert ha with ha | rfl
    · exact ih a ha
    · refine ⟨schema, ?_, hlen.symm⟩
      rw [Problem.operator?, Catalog.value?, hop]
      rfl

theorem atomId?_addAtom (g : Grounding) (a : GroundAtom) :
    (g.addAtom a).2.atomId? a = some (g.addAtom a).1 := by
  rw [addAtom_eq, atomId?, Roster.place?_insert_self, addAtom, atomId?]
  cases g.atomTable.place? a.key <;> rfl

/-- An action of a declared operator with the right number of arguments is entered unless it is
there, and the answer is its place. -/
theorem addAction_eq (hg : g.IsBuilt) {name : String} {schema : Operator}
    (hop : p.operators.entries[op.index]? = some (name, schema))
    (hlen : schema.arity = args.length) :
    g.addAction p op args =
      .ok ((g.actionTable.place? (Action.keyOf op args)).getD g.actionTable.size,
        ⟨g.atomTable, g.actionTable.insert
          ⟨g.actionTable.size, op, args, Problem.applied name (args.map p.constantName)⟩⟩) := by
  rw [addAction, hop]
  dsimp only
  rw [if_pos hlen, action?]
  cases hplace : g.actionTable.place? (Action.keyOf op args) with
  | none => rfl
  | some i =>
    obtain ⟨a, ha, _⟩ := Roster.exists_get?_of_place? hplace
    have hid : a.id = i := hg.id_eq i a (by rw [actions, ← Roster.get?_eq, ha])
    rw [Roster.insert_of_isSome (by rw [Action.key, hplace]; rfl), Option.bind_some, ha,
      Option.getD_some, ← hid]

theorem exists_findAction_of_addAction (hg : g.IsBuilt) {i : Nat} {g' : Grounding}
    (h : g.addAction p op args = .ok (i, g')) : ∃ a, g'.findAction op args = .ok a ∧ a.id = i := by
  have hg' : g'.IsBuilt := hg.addAction h
  obtain ⟨name, schema, hop, hlen, _⟩ := addAction_eq_ok h
  rw [addAction_eq hg hop hlen] at h
  obtain ⟨hi, rfl⟩ := Prod.mk.inj (Except.ok.inj h)
  have hplace : (g.actionTable.insert ⟨g.actionTable.size, op, args,
      Problem.applied name (args.map p.constantName)⟩).place? (Action.keyOf op args) = some i :=
    (Roster.place?_insert_self ..).trans (congrArg some hi)
  obtain ⟨a, ha, _⟩ := Roster.exists_get?_of_place? hplace
  refine ⟨a, ?_, hg'.id_eq i a (by rw [actions, ← Roster.get?_eq, ha])⟩
  rw [findAction, action?, hplace, Option.bind_some, ha]

/-! ## Requests -/

/-- What may be asked of a grounding: to enter an atom or an action. -/
inductive Request
  | atom (a : GroundAtom)
  | action (op : OperatorId) (args : List ConstantId)
  deriving DecidableEq, Repr

/-- The answers: the handle of the atom, or the place of the action. -/
inductive Answer
  | atom (id : AtomId)
  | action (place : Nat)
  deriving DecidableEq, Repr

/-- What was asked for is found where the answer says. -/
def Answer.Leads (atomId? : GroundAtom → Option AtomId)
    (findAction : OperatorId → List ConstantId → Except GroundingError Action) :
    Request → Answer → Prop
  | .atom a, .atom id => atomId? a = some id
  | .action op args, .action i => ∃ a, findAction op args = .ok a ∧ a.id = i
  | _, _ => False

namespace Request

/-- Why a request is refused, if it is. -/
def refusal? (p : Problem) : Request → Option GroundingError
  | .atom _ => none
  | .action op args =>
    match p.operators.entries[op.index]? with
    | none => some .unknownHandle
    | some (name, schema) =>
      if schema.arity = args.length then
        if ∀ c ∈ args, c.index < p.constants.size then none else some .unknownHandle
      else
        some (.wrongArity name schema.arity args.length)

def atom? : Request → Option GroundAtom
  | .atom a => some a
  | .action _ _ => none

def application? : Request → Option (OperatorId × List ConstantId)
  | .atom _ => none
  | .action op args => some (op, args)

theorem refusal?_action_eq_none_iff :
    refusal? p (.action op args) = none ↔ ∃ name schema,
      p.operators.entries[op.index]? = some (name, schema) ∧ schema.arity = args.length ∧
        ∀ c ∈ args, c.index < p.constants.size := by
  rw [refusal?]
  cases h : p.operators.entries[op.index]? with
  | none => simp
  | some entry =>
    obtain ⟨name, schema⟩ := entry
    by_cases hlen : schema.arity = args.length <;> simp [hlen]

end Request

def perform (g : Grounding) (p : Problem) : Request → Except GroundingError (Answer × Grounding)
  | .atom a => .ok (.atom (g.addAtom a).1, (g.addAtom a).2)
  | .action op args => (g.addAction p op args).map fun (i, g) ↦ (.action i, g)

theorem perform_of_refused {r : Request} {e : GroundingError} (h : r.refusal? p = some e)
    (he : e ≠ .unknownHandle) : g.perform p r = .error e := by
  cases r with
  | atom a => cases h
  | action op args =>
    rw [Request.refusal?] at h
    cases hop : p.operators.entries[op.index]? with
    | none =>
      rw [hop] at h
      exact absurd (Option.some.inj h).symm he
    | some entry =>
      obtain ⟨name, schema⟩ := entry
      rw [hop] at h
      dsimp only at h
      by_cases hlen : schema.arity = args.length
      · rw [if_pos hlen] at h
        split at h
        · cases h
        · exact absurd (Option.some.inj h).symm he
      · rw [if_neg hlen] at h
        obtain rfl := Option.some.inj h
        simp only [perform, addAction, hop, if_neg hlen]
        rfl

def after (p : Problem) (g : Grounding) (r : Request) : Grounding :=
  match g.perform p r with
  | .ok (_, g) => g
  | .error _ => g

/-- The requests that are not refused. -/
def accepted (p : Problem) (requests : List Request) : List Request :=
  requests.filter fun r ↦ r.refusal? p = none

/-- The grounding after requests, without those that are refused. -/
def entered (p : Problem) (requests : List Request) : Grounding :=
  (accepted p requests).foldl (after p) .empty

variable {requests more : List Request} {r : Request}

theorem accepted_append :
    accepted p (requests ++ more) = accepted p requests ++ accepted p more :=
  List.filter_append ..

theorem entered_append :
    entered p (requests ++ more) = (accepted p more).foldl (after p) (entered p requests) := by
  rw [entered, accepted_append, List.foldl_append, entered]

theorem entered_concat_of_accepted (h : r.refusal? p = none) :
    entered p (requests ++ [r]) = (entered p requests).after p r := by
  rw [entered_append, accepted, List.filter_cons_of_pos (by simpa using h), List.filter_nil]
  rfl

theorem entered_concat_of_refused {e : GroundingError} (h : r.refusal? p = some e) :
    entered p (requests ++ [r]) = entered p requests := by
  rw [entered_append, accepted, List.filter_cons_of_neg (by simp [h]), List.filter_nil]
  rfl

theorem filterMap_atom?_accepted :
    (accepted p requests).filterMap Request.atom? = requests.filterMap Request.atom? := by
  rw [accepted, List.filterMap_filter]
  refine List.filterMap_congr fun r _ ↦ ?_
  cases r with
  | atom a => rfl
  | action op args => exact ite_self none

/-! ## What requests do -/

/-- A grounding grows by what requests are about, where it is not there yet. -/
structure Grows (p : Problem) (g : Grounding) (requests : List Request) (g' : Grounding) :
    Prop where
  isOver : g'.IsOver p
  atoms : ∀ xs, g.atoms = xs.eraseDups →
    g'.atoms = (xs ++ requests.filterMap Request.atom?).eraseDups
  applications : ∀ xs, g.actions.map Action.application = xs.eraseDups →
    g'.actions.map Action.application =
      (xs ++ requests.filterMap Request.application?).eraseDups
  keepsAtoms : g.atoms <+: g'.atoms
  keepsActions : g.actions <+: g'.actions

theorem grows_nil (hg : g.IsOver p) : g.Grows p [] g where
  isOver := hg
  atoms xs h := by simpa using h
  applications xs h := by simpa using h
  keepsAtoms := List.prefix_rfl
  keepsActions := List.prefix_rfl

theorem Grows.trans {g' g'' : Grounding} (h : g.Grows p requests g') (h' : g'.Grows p more g'') :
    g.Grows p (requests ++ more) g'' where
  isOver := h'.isOver
  atoms xs hxs := by
    rw [List.filterMap_append, ← List.append_assoc]
    exact h'.atoms _ (h.atoms xs hxs)
  applications xs hxs := by
    rw [List.filterMap_append, ← List.append_assoc]
    exact h'.applications _ (h.applications xs hxs)
  keepsAtoms := h.keepsAtoms.trans h'.keepsAtoms
  keepsActions := h.keepsActions.trans h'.keepsActions

theorem IsBuilt.exists_findAction_iff (h : g.IsBuilt) :
    (∃ a, g.findAction op args = .ok a) ↔ (op, args) ∈ g.actions.map Action.application := by
  simp [h.findAction_eq_ok_iff, Action.application]

theorem isSome_place?_keyOf_iff :
    (g.actionTable.place? (Action.keyOf op args)).isSome = true ↔
      (op, args) ∈ g.actions.map Action.application := by
  rw [Roster.isSome_place?_iff, List.mem_map]
  refine exists_congr fun a ↦ and_congr_right fun _ ↦ ?_
  rw [Action.key, Action.keyOf_inj, Action.application, Prod.mk.injEq]

theorem grows_addAtom (hg : g.IsOver p) (a : GroundAtom) :
    g.Grows p [.atom a] (g.addAtom a).2 where
  isOver := hg.addAtom a
  atoms xs h := by
    rw [addAtom_eq]
    exact AtomTable.toList_foldl_insert h [a]
  applications xs h := by
    rw [addAtom_eq]
    exact h.trans (congrArg List.eraseDups (List.append_nil xs).symm)
  keepsAtoms := by
    rw [addAtom_eq]
    exact Roster.insert_prefix _ _
  keepsActions := by
    rw [addAtom_eq]
    exact List.prefix_rfl

theorem grows_addAction (hg : g.IsOver p) (hargs : ∀ c ∈ args, c.index < p.constants.size)
    {i : Nat} {g' : Grounding} (hadd : g.addAction p op args = .ok (i, g')) :
    g.Grows p [.action op args] g' := by
  have hover : g'.IsOver p := hg.addAction hargs hadd
  obtain ⟨name, schema, _, _, rfl⟩ := addAction_eq_ok hadd
  refine ⟨hover, fun xs h ↦ h.trans (congrArg List.eraseDups (List.append_nil xs).symm),
    fun xs h ↦ ?_, List.prefix_rfl, Roster.insert_prefix _ _⟩
  change _ = (xs ++ [(op, args)]).eraseDups
  have hmem : (op, args) ∈ g.actions.map Action.application ↔ (op, args) ∈ xs := by
    rw [h, List.mem_eraseDups]
  rw [eraseDups_concat, ← h, actions, Roster.toList_insert]
  simp only [Action.key, isSome_place?_keyOf_iff, hmem]
  split
  · rfl
  · rw [List.map_append]
    rfl

theorem exists_perform (hg : g.IsOver p) (h : r.refusal? p = none) :
    ∃ answer, g.perform p r = .ok (answer, g.after p r) ∧ g.Grows p [r] (g.after p r) ∧
      Answer.Leads (g.after p r).atomId? (g.after p r).findAction r answer := by
  cases r with
  | atom a => exact ⟨_, rfl, grows_addAtom hg a, atomId?_addAtom g a⟩
  | action op args =>
    obtain ⟨name, schema, hop, hlen, hargs⟩ := Request.refusal?_action_eq_none_iff.mp h
    have hadd := addAction_eq hg.isBuilt hop hlen
    rw [after, perform, hadd]
    exact ⟨_, rfl, grows_addAction hg hargs hadd, exists_findAction_of_addAction hg.isBuilt hadd⟩

theorem mem_filterMap_application?_iff :
    (op, args) ∈ requests.filterMap Request.application? ↔ .action op args ∈ requests := by
  rw [List.mem_filterMap]
  constructor
  · rintro ⟨r, hr, happ⟩
    cases r with
    | atom a => cases happ
    | action op' args' =>
      obtain ⟨rfl, rfl⟩ := Prod.mk.inj (Option.some.inj happ)
      exact hr
  · exact fun h ↦ ⟨_, h, rfl⟩

theorem grows_foldl (hg : g.IsOver p) (h : ∀ r ∈ requests, r.refusal? p = none) :
    g.Grows p requests (requests.foldl (after p) g) := by
  induction requests generalizing g with
  | nil => exact grows_nil hg
  | cons r requests ih =>
    obtain ⟨hr, hrest⟩ := List.forall_mem_cons.mp h
    obtain ⟨_, _, hgrows, _⟩ := exists_perform hg hr
    exact hgrows.trans (ih hgrows.isOver hrest)

theorem refusal?_eq_none_of_mem_accepted (h : r ∈ accepted p requests) : r.refusal? p = none :=
  of_decide_eq_true (List.mem_filter.mp h).2

theorem grows_entered : empty.Grows p (accepted p requests) (entered p requests) :=
  grows_foldl .empty fun _ ↦ refusal?_eq_none_of_mem_accepted

theorem isOver_entered : (entered p requests).IsOver p :=
  grows_entered.isOver

theorem grows_entered_append :
    (entered p requests).Grows p (accepted p more) (entered p (requests ++ more)) := by
  rw [entered_append]
  exact grows_foldl isOver_entered fun _ ↦ refusal?_eq_none_of_mem_accepted

/-- The atoms are those of the requests, in the order of the first requests for them. -/
theorem atoms_entered :
    (entered p requests).atoms = (requests.filterMap Request.atom?).eraseDups := by
  rw [grows_entered.atoms [] rfl, List.nil_append, filterMap_atom?_accepted]

/-- The actions are instances as in the requests that were not refused, in the order of the first
such requests for them. -/
theorem applications_entered : (entered p requests).actions.map Action.application =
    ((accepted p requests).filterMap Request.application?).eraseDups := by
  rw [grows_entered.applications [] rfl, List.nil_append]

end Grounding

end LiftedPlanning
