import LiftedPlanning.Proofs.Fallible
import LiftedPlanning.Proofs.Grounding.History

/-!
# Groundings in place

A grounding that grows in place keeps four tables: the atoms, the actions, and for each of them a
map that leads from what was entered to its place. Entering something new writes to a list and to a
map, and all checks come before that. So the maps never fall out of step with the lists, and the
tables show the same grounding as if it had been built as a value.
-/

namespace LiftedPlanning

deriving instance Hashable for Handle
deriving instance Hashable for GroundAtom

namespace Grounding

variable {p : Problem} {g : Grounding} {op : OperatorId} {args : List ConstantId}

/-! ## Tables -/

/-- Atoms and actions in order of entry, and maps that lead to their places. -/
structure Tables where
  atoms : Array GroundAtom := #[]
  atomIds : Std.HashMap GroundAtom AtomId := ∅
  actions : Array Action := #[]
  actionIds : Std.HashMap (OperatorId × List ConstantId) Nat := ∅

namespace Tables

def atomId? (t : Tables) (a : GroundAtom) : Option AtomId :=
  t.atomIds[a]?

def atom? (t : Tables) (id : AtomId) : Option GroundAtom :=
  t.atoms[id.index]?

def findAction (t : Tables) (op : OperatorId) (args : List ConstantId) :
    Except GroundingError Action :=
  match t.actionIds[(op, args)]? with
  | none => .error (.noAction op args)
  | some i =>
    match t.actions[i]? with
    | none => .error .unknownHandle
    | some a => .ok a

end Tables

/-! ## Programs -/

/-- Programs on tables that may fail. -/
abbrev InPlace := EStateM GroundingError Tables

namespace InPlace

def addAtom (a : GroundAtom) : InPlace AtomId := do
  match (← get).atomIds[a]? with
  | some id => return id
  | none =>
    let id : AtomId := ⟨(← get).atoms.size⟩
    modify fun t ↦ { t with atoms := t.atoms.push a }
    modify fun t ↦ { t with atomIds := t.atomIds.insert a id }
    return id

def addAction (p : Problem) (op : OperatorId) (args : List ConstantId) : InPlace Nat := do
  match p.operators.entries[op.index]? with
  | none => throw .unknownHandle
  | some (name, schema) =>
    if schema.arity = args.length then
      match (← get).actionIds[(op, args)]? with
      | some i => return i
      | none =>
        match args.mapM fun c ↦ p.constants.name? c.index with
        | none => throw .unknownHandle
        | some names =>
          let i := (← get).actions.size
          let action : Action := ⟨i, op, args, Problem.applied name names⟩
          modify fun t ↦ { t with actions := t.actions.push action }
          modify fun t ↦ { t with actionIds := t.actionIds.insert (op, args) i }
          return i
    else
      throw (.wrongArity name schema.arity args.length)

theorem mapM_name? (h : ∀ c ∈ args, c.index < p.constants.size) :
    (args.mapM fun c ↦ p.constants.name? c.index) = some (args.map p.constantName) := by
  refine Fallible.mapM_eq_pure_map fun c hc ↦ ?_
  obtain ⟨name, hname⟩ := Catalog.exists_name?_iff.mpr (h c hc)
  rw [Problem.constantName, hname]
  rfl

theorem mapM_name?_eq_none (h : ¬∀ c ∈ args, c.index < p.constants.size) :
    (args.mapM fun c ↦ p.constants.name? c.index) = none := by
  rw [Option.eq_none_iff_forall_ne_some]
  refine fun names hnames ↦ h fun c hc ↦ ?_
  obtain ⟨name, _, hname⟩ := Fallible.exists_right (Fallible.mapM_eq_some_iff.mp hnames) hc
  exact Catalog.exists_name?_iff.mp ⟨name, hname⟩

def perform (p : Problem) : Request → InPlace Answer
  | .atom a => .atom <$> addAtom a
  | .action op args => .action <$> addAction p op args

section Map

variable {α β : Type} {f : α → β} {x : InPlace α} {t t' : Tables}

theorem run_map_ok {a : α} (h : x.run t = .ok a t') : (f <$> x).run t = .ok (f a) t' := by
  change EStateM.map f x t = _
  rw [EStateM.map, show x t = _ from h]

theorem run_map_error {e : GroundingError} (h : x.run t = .error e t') :
    (f <$> x).run t = .error e t' := by
  change EStateM.map f x t = _
  rw [EStateM.map, show x t = _ from h]

end Map

end InPlace

namespace Tables

/-- The tables after a request, however it ended. -/
def after (p : Problem) (t : Tables) (r : Request) : Tables :=
  match (InPlace.perform p r).run t with
  | .ok _ t => t
  | .error _ t => t

/-- The tables after requests, some of which may have failed. -/
def entered (p : Problem) (requests : List Request) : Tables :=
  requests.foldl (after p) {}

/-! ## Agreement -/

/-- Tables show a grounding: the lists are its lists, and the maps lead to its places. -/
structure Shows (t : Tables) (g : Grounding) : Prop where
  atoms : t.atoms.toList = g.atoms
  atomIds : ∀ a, t.atomIds[a]? = g.atomId? a
  actions : t.actions.toList = g.actions
  actionIds : ∀ op args, t.actionIds[(op, args)]? = g.actionTable.place? (Action.keyOf op args)

variable {t : Tables}

theorem shows_empty : Shows {} .empty where
  atoms := rfl
  atomIds _ := Std.HashMap.getElem?_empty
  actions := rfl
  actionIds _ _ := Std.HashMap.getElem?_empty

namespace Shows

variable (h : t.Shows g)

include h

theorem atom?_eq (id : AtomId) : t.atom? id = g.atom? id := by
  rw [Tables.atom?, ← Array.getElem?_toList, h.atoms, Grounding.atom?, Roster.get?_eq,
    Grounding.atoms]

theorem findAction_eq (op : OperatorId) (args : List ConstantId) :
    t.findAction op args = g.findAction op args := by
  rw [Tables.findAction, h.actionIds, Grounding.findAction, Grounding.action?]
  cases hplace : g.actionTable.place? (Action.keyOf op args) with
  | none => rfl
  | some i =>
    obtain ⟨a, ha, _⟩ := Roster.exists_get?_of_place? hplace
    have hi : t.actions[i]? = some a := by
      rw [← Array.getElem?_toList, h.actions, Grounding.actions, ← Roster.get?_eq, ha]
    simp only [hi, Option.bind_some, ha]

theorem size_atoms : t.atoms.size = g.atomTable.size := by
  rw [← Array.length_toList, h.atoms]
  exact Array.length_toList

theorem size_actions : t.actions.size = g.actionTable.size := by
  rw [← Array.length_toList, h.actions]
  exact Array.length_toList

theorem push_atom {a : GroundAtom} (hid : g.atomId? a = none) :
    Shows { t with
      atoms := t.atoms.push a
      atomIds := t.atomIds.insert a ⟨t.atoms.size⟩ }
      { g with atomTable := g.atomTable.insert a } := by
  have hplace : g.atomTable.place? a.key = none := Option.map_eq_none_iff.mp hid
  refine ⟨?_, fun b ↦ ?_, h.actions, h.actionIds⟩
  · rw [Array.toList_push, h.atoms, Grounding.atoms, Grounding.atoms, Roster.toList_insert, hplace]
    rfl
  · rw [Std.HashMap.getElem?_insert, h.atomIds, Grounding.atomId?, Grounding.atomId?,
      Roster.place?_insert hplace, h.size_atoms]
    by_cases hb : a = b
    · simp [hb]
    · rw [if_neg (by simpa using hb), if_neg (GroundAtom.key_injective.ne hb)]

theorem push_action {name : String}
    (hplace : g.actionTable.place? (Action.keyOf op args) = none) :
    Shows { t with
      actions := t.actions.push ⟨t.actions.size, op, args, name⟩
      actionIds := t.actionIds.insert (op, args) t.actions.size }
      { g with actionTable := g.actionTable.insert ⟨g.actionTable.size, op, args, name⟩ } := by
  have hkey : g.actionTable.place? (Action.key ⟨g.actionTable.size, op, args, name⟩) = none :=
    hplace
  refine ⟨h.atoms, h.atomIds, ?_, fun op' args' ↦ ?_⟩
  · rw [Array.toList_push, h.actions, Grounding.actions, Grounding.actions, Roster.toList_insert,
      hkey, h.size_actions]
    rfl
  · rw [Std.HashMap.getElem?_insert, h.actionIds, Roster.place?_insert hkey, h.size_actions]
    simp only [Action.key, Action.keyOf_inj, beq_iff_eq, Prod.mk.injEq]

theorem run_addAtom (a : GroundAtom) :
    ∃ t', (InPlace.addAtom a).run t = .ok (g.addAtom a).1 t' ∧ t'.Shows (g.addAtom a).2 := by
  simp only [InPlace.addAtom, EStateM.run_bind, EStateM.run_get, h.atomIds, Grounding.addAtom]
  cases hid : g.atomId? a with
  | some id => exact ⟨t, rfl, h⟩
  | none => exact ⟨_, by rw [← h.size_atoms]; rfl, h.push_atom hid⟩

omit h in
/-- No listed action has a foreign argument. -/
theorem place?_eq_none_of_foreign (hg : g.IsOver p)
    (hargs : ¬∀ c ∈ args, c.index < p.constants.size) :
    g.actionTable.place? (Action.keyOf op args) = none := by
  rw [Option.eq_none_iff_forall_ne_some]
  intro i hi
  obtain ⟨a, ha, hk⟩ := Roster.exists_get?_of_place? hi
  obtain ⟨rfl, rfl⟩ := Action.keyOf_inj.mp hk
  exact hargs (hg.isNamed a (Roster.mem_of_get? ha)).args

/-- In place, a request for an action is refused if it is to be refused, and otherwise does what it
does to a grounding as a value. -/
theorem run_addAction (hg : g.IsOver p) (op : OperatorId) (args : List ConstantId) :
    match Request.refusal? p (.action op args) with
    | some e => (InPlace.addAction p op args).run t = .error e t
    | none => ∃ i g' t', g.addAction p op args = .ok (i, g') ∧
        (InPlace.addAction p op args).run t = .ok i t' ∧ t'.Shows g' := by
  rw [Request.refusal?, InPlace.addAction]
  cases hop : p.operators.entries[op.index]? with
  | none => rfl
  | some entry =>
    obtain ⟨name, schema⟩ := entry
    by_cases hlen : schema.arity = args.length
    · simp only [if_pos hlen, EStateM.run_bind, EStateM.run_get, h.actionIds]
      by_cases hargs : ∀ c ∈ args, c.index < p.constants.size
      · rw [if_pos hargs]
        dsimp only
        rw [addAction_eq hg.isBuilt hop hlen, InPlace.mapM_name? hargs]
        cases hplace : g.actionTable.place? (Action.keyOf op args) with
        | some i =>
          rw [Roster.insert_of_isSome (by rw [Action.key, hplace]; rfl)]
          exact ⟨i, g, t, rfl, rfl, h⟩
        | none => exact ⟨_, _, _, rfl, by rw [← h.size_actions]; rfl, h.push_action hplace⟩
      · -- such an action is not listed, so its name is asked for, and that fails
        rw [if_neg hargs, place?_eq_none_of_foreign hg hargs, InPlace.mapM_name?_eq_none hargs]
        rfl
    · simp only [if_neg hlen]
      rfl

/-- **Requests in place do what they do to groundings.** A request that is refused leaves the tables
alone, and any other one makes them the tables of the grounding after the request. -/
theorem run_perform (hg : g.IsOver p) (r : Request) :
    match r.refusal? p with
    | some e => (InPlace.perform p r).run t = .error e t
    | none => ∃ answer t', (InPlace.perform p r).run t = .ok answer t' ∧
        g.perform p r = .ok (answer, g.after p r) ∧ t'.Shows (g.after p r) := by
  cases r with
  | atom a =>
    obtain ⟨t', hrun, hshows⟩ := h.run_addAtom a
    exact ⟨_, t', InPlace.run_map_ok hrun, rfl, hshows⟩
  | action op args =>
    have hrun := h.run_addAction hg op args
    cases hrefusal : Request.refusal? p (.action op args) with
    | some e =>
      rw [hrefusal] at hrun
      exact InPlace.run_map_error hrun
    | none =>
      rw [hrefusal] at hrun
      obtain ⟨i, g', t', hadd, hrun, hshows⟩ := hrun
      refine ⟨.action i, t', InPlace.run_map_ok hrun, ?_⟩
      rw [Grounding.after, Grounding.perform, hadd]
      exact ⟨rfl, hshows⟩

end Shows

/-! ## Histories -/

variable {requests : List Request}

theorem shows_entered : (entered p requests).Shows (Grounding.entered p requests) := by
  induction requests using List.reverseRecOn with
  | nil => exact shows_empty
  | append_singleton requests r ih =>
    rw [entered, List.foldl_append, ← entered]
    change ((entered p requests).after p r).Shows _
    have hrun := ih.run_perform isOver_entered r
    cases hrefusal : r.refusal? p with
    | some e =>
      rw [hrefusal] at hrun
      rw [after, hrun, entered_concat_of_refused hrefusal]
      exact ih
    | none =>
      rw [hrefusal] at hrun
      obtain ⟨_, t', hrun, _, hshows⟩ := hrun
      rw [after, hrun, entered_concat_of_accepted hrefusal]
      exact hshows

/-- The tables hold exactly what was asked for and not refused, once each and in the order of the
first requests. Atoms and handles lead to each other, the handles being the numbers below the number
of atoms. Actions have their places as numbers, and as many arguments as their operators have
parameters. An action is found if it was entered, and nothing else is found. -/
structure Records (p : Problem) (requests : List Request) (t : Tables) : Prop where
  atoms : t.atoms.toList = (requests.filterMap Request.atom?).eraseDups
  distinctAtoms : t.atoms.toList.Nodup
  inverse : ∀ a id, t.atomId? a = some id ↔ t.atom? id = some a
  dense : ∀ id, (∃ a, t.atomId? a = some id) ↔ id.index < t.atoms.size
  applications : t.actions.toList.map Action.application =
    ((accepted p requests).filterMap Request.application?).eraseDups
  distinctActions : (t.actions.toList.map Action.application).Nodup
  id_eq : ∀ (i : Nat) (a : Action), t.actions[i]? = some a → a.id = i
  arity : ∀ a ∈ t.actions, a.IsNamed p ∧
    ∃ schema, p.operator? a.operator = some schema ∧ a.args.length = schema.arity
  found : ∀ op args a, t.findAction op args = .ok a ↔
    a ∈ t.actions ∧ a.operator = op ∧ a.args = args
  exists_found : ∀ op args, (∃ a, t.findAction op args = .ok a) ↔
    .action op args ∈ accepted p requests
  notFound : ∀ op args e, t.findAction op args = .error e → e = .noAction op args

theorem atomId?_entered_iff {a : GroundAtom} {id : AtomId} :
    (entered p requests).atomId? a = some id ↔ (entered p requests).atom? id = some a := by
  rw [Tables.atomId?, shows_entered.atomIds, isOver_entered.isBuilt.atomId?_eq_some_iff,
    Tables.atom?, ← Array.getElem?_toList, shows_entered.atoms]

theorem records_entered : (entered p requests).Records p requests where
  atoms := by rw [shows_entered.atoms, atoms_entered]
  distinctAtoms := by
    rw [shows_entered.atoms, atoms_entered]
    exact nodup_eraseDups _
  inverse _ _ := atomId?_entered_iff
  dense id := by simp [atomId?_entered_iff, Tables.atom?, Array.getElem?_eq_some_iff]
  applications := by rw [shows_entered.actions, applications_entered]
  distinctActions := by
    rw [shows_entered.actions, applications_entered]
    exact nodup_eraseDups _
  id_eq i a hi := by
    rw [← Array.getElem?_toList, shows_entered.actions] at hi
    exact isOver_entered.isBuilt.id_eq i a hi
  arity a ha := by
    rw [← Array.mem_toList_iff, shows_entered.actions] at ha
    exact ⟨isOver_entered.isNamed a ha, isOver_entered.exists_operator? a ha⟩
  found op args a := by
    rw [shows_entered.findAction_eq, isOver_entered.isBuilt.findAction_eq_ok_iff,
      ← shows_entered.actions, Array.mem_toList_iff]
  exists_found op args := by
    simp only [shows_entered.findAction_eq]
    rw [isOver_entered.isBuilt.exists_findAction_iff, applications_entered, List.mem_eraseDups,
      mem_filterMap_application?_iff]
  notFound op args e h := by
    rw [shows_entered.findAction_eq] at h
    exact eq_noAction_of_findAction h

theorem entered_concat {r : Request} :
    entered p (requests ++ [r]) = (entered p requests).after p r := by
  rw [entered, List.foldl_append]
  rfl

theorem run_entered_of_refused {r : Request} {e : GroundingError} (he : r.refusal? p = some e) :
    (InPlace.perform p r).run (entered p requests) = .error e (entered p requests) := by
  have hover : (Grounding.entered p requests).IsOver p := isOver_entered
  have hrun := shows_entered.run_perform hover r
  rwa [he] at hrun

/-- What was asked for is found, in the tables and in the grounding, where the answer says. -/
theorem run_entered_of_accepted {r : Request} (hr : r.refusal? p = none) :
    ∃ answer : Answer,
      (InPlace.perform p r).run (entered p requests) = .ok answer (entered p (requests ++ [r])) ∧
      (Grounding.entered p requests).perform p r =
        .ok (answer, Grounding.entered p (requests ++ [r])) ∧
      answer.Leads (entered p (requests ++ [r])).atomId? (entered p (requests ++ [r])).findAction
        r := by
  have hover : (Grounding.entered p requests).IsOver p := isOver_entered
  have hrun := shows_entered.run_perform hover r
  rw [hr] at hrun
  obtain ⟨answer, t', hrun, hanswer, hshows⟩ := hrun
  obtain ⟨answer', hanswer', _, hleads⟩ := exists_perform hover hr
  obtain rfl : answer = answer' :=
    (Prod.mk.inj (Except.ok.inj (hanswer.symm.trans hanswer'))).1
  have ht' : entered p (requests ++ [r]) = t' := by
    rw [entered_concat, after, hrun]
  rw [ht', entered_concat_of_accepted hr]
  refine ⟨answer, hrun, hanswer, ?_⟩
  rwa [show t'.atomId? = _ from funext hshows.atomIds, funext₂ hshows.findAction_eq]

theorem atomId?_entered_append {more : List Request} {a : GroundAtom} {id : AtomId}
    (h : (entered p requests).atomId? a = some id) :
    (entered p (requests ++ more)).atomId? a = some id := by
  rw [Tables.atomId?, shows_entered.atomIds, isOver_entered.isBuilt.atomId?_eq_some_iff] at h ⊢
  obtain ⟨hlt, rfl⟩ := List.getElem?_eq_some_iff.mp h
  exact List.prefix_iff_getElem?.mp grows_entered_append.keepsAtoms _ hlt

theorem findAction_entered_append {more : List Request} {a : Action}
    (h : (entered p requests).findAction op args = .ok a) :
    (entered p (requests ++ more)).findAction op args = .ok a := by
  rw [shows_entered.findAction_eq, isOver_entered.isBuilt.findAction_eq_ok_iff] at h ⊢
  exact h.imp_left (grows_entered_append.keepsActions.subset ·)

/-- **The tables of a grounding stay consistent.** Whatever atoms and actions of a problem are asked
for, and in whatever order, the tables record them, and they show the grounding that is made of the
same requests as a value. A refused request changes nothing. Any other one is answered by a handle
or place at which what was asked for is found, and none of these ever changes. -/
theorem consistent_entered (p : Problem) (requests : List Request) :
    (entered p requests).Records p requests ∧
    (entered p requests).Shows (Grounding.entered p requests) ∧
    (∀ id, (entered p requests).atom? id = (Grounding.entered p requests).atom? id) ∧
    (∀ op args, (entered p requests).findAction op args =
      (Grounding.entered p requests).findAction op args) ∧
    (∀ r : Request, ∀ e, r.refusal? p = some e →
      (InPlace.perform p r).run (entered p requests) = .error e (entered p requests) ∧
      (e ≠ .unknownHandle → (Grounding.entered p requests).perform p r = .error e)) ∧
    (∀ r : Request, r.refusal? p = none → ∃ answer : Answer,
      (InPlace.perform p r).run (entered p requests) =
        .ok answer (entered p (requests ++ [r])) ∧
      (Grounding.entered p requests).perform p r =
        .ok (answer, Grounding.entered p (requests ++ [r])) ∧
      answer.Leads (entered p (requests ++ [r])).atomId?
        (entered p (requests ++ [r])).findAction r) ∧
    ∀ more,
      (∀ a id, (entered p requests).atomId? a = some id →
        (entered p (requests ++ more)).atomId? a = some id) ∧
      ∀ op args a, (entered p requests).findAction op args = .ok a →
        (entered p (requests ++ more)).findAction op args = .ok a :=
  ⟨records_entered, shows_entered, shows_entered.atom?_eq, shows_entered.findAction_eq,
    fun _ _ he ↦ ⟨run_entered_of_refused he, perform_of_refused he⟩,
    fun _ ↦ run_entered_of_accepted,
    fun _ ↦ ⟨fun _ _ ↦ atomId?_entered_append, fun _ _ _ ↦ findAction_entered_append⟩⟩

/-- Two locations, and moves from one location to another. -/
def moves : Problem where
  types := ⟨{ kind := "type", entries := [("loc", [])] }⟩
  constants := { kind := "constant", entries := [("a", ⟨0⟩), ("b", ⟨0⟩)] }
  parameters := [("from", ⟨0⟩), ("to", ⟨0⟩)]
  operators := { kind := "operator", entries := [("move", { parameters := [⟨0⟩, ⟨1⟩] })] }

/-- Both moves, the first one again, and a move that goes nowhere. -/
def moveRequests : List Request :=
  [.action ⟨0⟩ [⟨0⟩, ⟨1⟩], .action ⟨0⟩ [⟨1⟩, ⟨0⟩], .action ⟨0⟩ [⟨0⟩, ⟨1⟩], .action ⟨0⟩ [⟨0⟩]]

/-- The second move is found at its place, and stays there whatever is asked for later. Staying at a
location was not asked for. A move that goes nowhere is refused once more. -/
theorem consistent_moves :
    (entered moves moveRequests).findAction ⟨0⟩ [⟨1⟩, ⟨0⟩] =
      .ok ⟨1, ⟨0⟩, [⟨1⟩, ⟨0⟩], "move(b, a)"⟩ ∧
    (∀ more, (entered moves (moveRequests ++ more)).findAction ⟨0⟩ [⟨1⟩, ⟨0⟩] =
      .ok ⟨1, ⟨0⟩, [⟨1⟩, ⟨0⟩], "move(b, a)"⟩) ∧
    (entered moves moveRequests).findAction ⟨0⟩ [⟨0⟩, ⟨0⟩] = .error (.noAction ⟨0⟩ [⟨0⟩, ⟨0⟩]) ∧
    (InPlace.perform moves (.action ⟨0⟩ [⟨0⟩])).run (entered moves moveRequests) =
      .error (.wrongArity "move" 2 1) (entered moves moveRequests) := by
  obtain ⟨_, _, _, hfind, hrefused, _, hlater⟩ := consistent_entered moves moveRequests
  have hsecond : (entered moves moveRequests).findAction ⟨0⟩ [⟨1⟩, ⟨0⟩] =
      .ok ⟨1, ⟨0⟩, [⟨1⟩, ⟨0⟩], "move(b, a)"⟩ := by
    rw [hfind]
    decide +kernel
  have hnone : (entered moves moveRequests).findAction ⟨0⟩ [⟨0⟩, ⟨0⟩] =
      .error (.noAction ⟨0⟩ [⟨0⟩, ⟨0⟩]) := by
    rw [hfind]
    decide +kernel
  exact ⟨hsecond, fun more ↦ (hlater more).2 _ _ _ hsecond, hnone,
    (hrefused _ _ (by decide +kernel)).1⟩

end Tables

end Grounding

end LiftedPlanning
