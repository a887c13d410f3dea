import LiftedPlanning.Catalog
import LiftedPlanning.Handle

/-!
# Type hierarchies

A type has a name and direct supertypes, which have to be defined before it. Every link therefore
leads to a smaller handle, and one descending pass over the handles collects all the supertypes of
a type: when the pass comes to a type, every type below it has already been visited.
-/

namespace LiftedPlanning

/-- The ways in which a type cannot be defined. -/
inductive HierarchyError
  | naming (cause : NameError)
  | undefinedSupertype (name : String) (supertype : TypeId)
  deriving DecidableEq, Repr

instance : Explained HierarchyError where
  chain
    | .naming cause => Explained.chain cause
    | .undefinedSupertype name t =>
      [s!"cannot define type {name}: undefined supertype {t.text}"]

/-- The types in order of definition, each with its direct supertypes. -/
structure TypeHierarchy extends Catalog (List TypeId) where
  kind := "type"

namespace TypeHierarchy

def empty : TypeHierarchy := {}

/-- Defines a type; its handle is `⟨h.size⟩`. -/
def define (h : TypeHierarchy) (name : String) (supertypes : List TypeId) :
    Except HierarchyError TypeHierarchy :=
  match supertypes.find? fun t ↦ h.size ≤ t.index with
  | some t => .error (.undefinedSupertype name t)
  | none =>
    match h.insert name supertypes with
    | .error cause => .error (.naming cause)
    | .ok catalog => .ok ⟨catalog⟩

def typeOf (h : TypeHierarchy) (name : String) : Except NameError TypeId :=
  (h.find name).map Handle.mk

def typeName (h : TypeHierarchy) (t : TypeId) : String :=
  (h.name? t.index).getD ""

/-- The supertypes that a type was defined with. -/
def directSupertypes (h : TypeHierarchy) (t : TypeId) : List TypeId :=
  (h.value? t.index).getD []

/-- Goes down from handle `n`, adding the direct supertypes of every type reached so far. -/
def climb (h : TypeHierarchy) : Nat → List TypeId → List TypeId
  | 0, reached => reached
  | n + 1, reached =>
    if ⟨n⟩ ∈ reached then
      h.climb n (reached ++ h.directSupertypes ⟨n⟩)
    else
      h.climb n reached

/-- A type and all its supertypes, direct or not. -/
def supertypes (h : TypeHierarchy) (t : TypeId) : List TypeId :=
  h.climb (t.index + 1) [t]

/-- Whether `sup` is `sub` or one of its supertypes. -/
def isSupertype (h : TypeHierarchy) (sup sub : TypeId) : Bool :=
  sup ∈ h.supertypes sub

/-- Whether one of the types is a supertype of the other. -/
def related (h : TypeHierarchy) (s t : TypeId) : Bool :=
  h.isSupertype s t || h.isSupertype t s

/-!
## Questions about handles of unknown origin

A question that would have to look up a type that was never defined has no answer. Supertypes are
searched for along the links, and the search stops as soon as it comes to the right type. It comes
to a type once for every link that leads there, but follows the links of a type only once.
-/

/-- `directSupertypes`, answered only for a type that was defined. -/
def directSupertypes? (h : TypeHierarchy) (t : TypeId) : Option (List TypeId) :=
  h.value? t.index

/-- The defined types that are not among those seen. -/
def unseen (h : TypeHierarchy) (seen : List TypeId) : List TypeId :=
  (Handle.first h.size).filter fun t ↦ t ∉ seen

theorem length_unseen_cons_lt {h : TypeHierarchy} {seen : List TypeId} {t : TypeId}
    (ht : t.index < h.size) (hs : t ∉ seen) :
    (h.unseen (t :: seen)).length < (h.unseen seen).length := by
  have hfilter : h.unseen (t :: seen) = (h.unseen seen).filter fun s ↦ s ≠ t := by
    simp [unseen, List.filter_filter, not_or]
  rw [hfilter, List.length_filter_lt_length_iff_exists]
  have hmem : t ∈ Handle.first h.size := List.mem_map.mpr ⟨t.index, List.mem_range.mpr ht, rfl⟩
  exact ⟨t, List.mem_filter.mpr ⟨hmem, by simpa using hs⟩, by simp⟩

/-- Looks for `sup` among the types to visit, the next one first, and what links lead to from there.
The links of the types seen were followed before. -/
def search (h : TypeHierarchy) (sup : TypeId) (seen : List TypeId) : List TypeId → Option Bool
  | [] => some false
  | t :: rest =>
    if t = sup then
      some true
    else if t.index < h.size then
      if t ∈ seen then
        h.search sup seen rest
      else
        h.search sup (t :: seen) ((h.directSupertypes t).reverse ++ rest)
    else
      none
-- a type is seen for the first time, or there is one type less to visit
termination_by toVisit => ((h.unseen seen).length, toVisit.length)
decreasing_by
  · exact .right _ (Nat.lt_succ_self _)
  · exact .left _ _ (length_unseen_cons_lt ‹_› ‹_›)

/-- `isSupertype`, answered only where it needs no undefined type: equal handles are related
without a look-up, and `sup` is never looked up. -/
def isSupertype? (h : TypeHierarchy) (sup sub : TypeId) : Option Bool :=
  h.search sup [] [sub]

/-- `related`, answered only where it needs no undefined type. -/
def related? (h : TypeHierarchy) (s t : TypeId) : Option Bool := do
  if ← h.isSupertype? s t then
    some true
  else
    h.isSupertype? t s

end TypeHierarchy

end LiftedPlanning
