import LiftedPlanning.Problem.Basic
import LiftedPlanning.Roster

/-!
# Groundings

A grounding lists the atoms that a plan may talk about, its universe, and the actions that a plan
may use. Atoms and actions are listed once each, in order of entry, and are identified by their
places.
-/

namespace LiftedPlanning

/-- An operator applied to constants, as entered into a grounding. -/
structure Action where
  /-- The place of the action in its grounding. -/
  id : Nat
  operator : OperatorId
  args : List ConstantId
  /-- The text of the action, like `move(a, b)`. -/
  name : String
  deriving DecidableEq, Repr

/-- The key of an atom: its predicate, then its arguments. -/
def GroundAtom.key (a : GroundAtom) : Trie.Key :=
  ⟨a.predicate.index, a.args.map (·.index)⟩

def Action.keyOf (op : OperatorId) (args : List ConstantId) : Trie.Key :=
  ⟨op.index, args.map (·.index)⟩

def Action.key (a : Action) : Trie.Key :=
  keyOf a.operator a.args

abbrev AtomTable := Roster GroundAtom.key

abbrev ActionTable := Roster Action.key

/-- An atom universe and a set of actions. -/
structure Grounding where
  atomTable : AtomTable := .empty
  actionTable : ActionTable := .empty

inductive GroundingError
  | wrongArity (operator : String) (expected actual : Nat)
  | noAction (operator : OperatorId) (args : List ConstantId)
  | unknownHandle
  deriving DecidableEq, Repr

instance : Explained GroundingError where
  chain
    | .wrongArity operator expected actual =>
      [s!"operator {operator} expects {expected} argument(s), got {actual}"]
    | .noAction operator args =>
      let args := ", ".intercalate (args.map fun c ↦ "\"" ++ c.text ++ "\"")
      [s!"no reachable action for operator {operator.text} and arguments [{args}]"]
    | .unknownHandle => ["unknown handle"]

namespace Grounding

def empty : Grounding := {}

def atoms (g : Grounding) : List GroundAtom :=
  g.atomTable.toList

def actions (g : Grounding) : List Action :=
  g.actionTable.toList

def atomId? (g : Grounding) (a : GroundAtom) : Option AtomId :=
  (g.atomTable.place? a.key).map Handle.mk

def atom? (g : Grounding) (id : AtomId) : Option GroundAtom :=
  g.atomTable.get? id.index

/-- Enters an atom unless it is there already. -/
def addAtom (g : Grounding) (a : GroundAtom) : AtomId × Grounding :=
  match g.atomId? a with
  | some id => (id, g)
  | none => (⟨g.atomTable.size⟩, { g with atomTable := g.atomTable.insert a })

def action? (g : Grounding) (op : OperatorId) (args : List ConstantId) : Option Action :=
  (g.actionTable.place? (Action.keyOf op args)).bind g.actionTable.get?

/-- The action of an operator and its arguments, which has to be there. -/
def findAction (g : Grounding) (op : OperatorId) (args : List ConstantId) :
    Except GroundingError Action :=
  match g.action? op args with
  | some a => .ok a
  | none => .error (.noAction op args)

/-- Enters an action unless it is there already, and returns its place. -/
def addAction (g : Grounding) (p : Problem) (op : OperatorId) (args : List ConstantId) :
    Except GroundingError (Nat × Grounding) :=
  match p.operators.entries[op.index]? with
  | none => .error .unknownHandle
  | some (name, schema) =>
    if schema.arity = args.length then
      match g.action? op args with
      | some a => .ok (a.id, g)
      | none =>
        let id := g.actionTable.size
        let action := ⟨id, op, args, Problem.applied name (args.map p.constantName)⟩
        .ok (id, { g with actionTable := g.actionTable.insert action })
    else
      .error (.wrongArity name schema.arity args.length)

end Grounding

end LiftedPlanning
