import LiftedPlanning.Proofs.Cnf.Dimacs
import LiftedPlanning.Proofs.Declaration.ReadBack
import LiftedPlanning.Proofs.Declaration.Typing

/-!
# Texts of plans

The names that can be read have none of the marks that stand between them in the name of an action,
so the operator and the arguments are read off the name, and since they are looked up under their
own names again, two actions of a grounding never share one. A plan falls into its lines, and each
line into its step and the name of its action, so a plan is read back from its text.
-/

namespace LiftedPlanning

variable {p : Problem} {g : Grounding}

/-! ## Names of actions -/

namespace Declaration

open Text

variable {a b : Action}

theorem toList_applied_eq (name : String) (args : List String) :
    (Problem.applied name args).toList =
      literalText false name.toList (args.map String.toList) := by
  rw [toList_applied, literalText]
  simp

theorem applied_inj {name name' : String} {args args' : List String}
    (hname : isName name.toList = true) (hname' : isName name'.toList = true)
    (hargs : ∀ arg ∈ args, isName arg.toList = true)
    (hargs' : ∀ arg ∈ args', isName arg.toList = true)
    (h : Problem.applied name args = Problem.applied name' args') :
    name = name' ∧ args = args' := by
  have hshape := congrArg (fun text ↦ literalShape? text.toList) h
  simp only [toList_applied_eq, literalShape?_literalText hname, literalShape?_literalText hname',
    Option.some.injEq, LiteralShape.mk.injEq, true_and] at hshape
  obtain ⟨heq, hjoined⟩ := hshape
  have harguments := congrArg arguments hjoined
  rw [arguments_joined, arguments_joined] at harguments
  · exact ⟨String.toList_injective heq,
      List.map_injective_iff.mpr (fun _ _ ↦ String.toList_injective) harguments⟩
  · exact List.forall_mem_map.mpr fun arg harg ↦ isArgument_of_isName (hargs' arg harg)
  · exact List.forall_mem_map.mpr fun arg harg ↦ isArgument_of_isName (hargs arg harg)

section Named

variable (hp : Legible p) (ha : a.IsNamed p)

include hp ha

theorem isName_operatorName : isName (p.operatorName a.operator).toList = true :=
  isName_name hp.spelled.operators ha.operator

theorem isName_constantNames : ∀ name ∈ a.args.map p.constantName, isName name.toList = true :=
  List.forall_mem_map.mpr fun c hc ↦
    isName_name hp.spelled.constants (Catalog.isSome_value? (ha.args c hc))

theorem find_application : p.operatorOf (p.operatorName a.operator) = .ok a.operator ∧
    (a.args.map p.constantName).mapM p.constantOf = .ok a.args := by
  refine ⟨find_name hp.consistent.operatorNames ha.operator, ?_⟩
  rw [Fallible.mapM_eq_ok_iff, List.forall₂_map_left_iff, List.forall₂_same]
  exact fun c hc ↦ find_name hp.consistent.constantNames (Catalog.isSome_value? (ha.args c hc))

theorem application_inj (hb : b.IsNamed p) (h : a.name = b.name) :
    a.application = b.application := by
  obtain ⟨hop, hargs⟩ := find_application hp ha
  obtain ⟨hop', hargs'⟩ := find_application hp hb
  rw [ha.name, hb.name] at h
  obtain ⟨hname, hnames⟩ := applied_inj (isName_operatorName hp ha) (isName_operatorName hp hb)
    (isName_constantNames hp ha) (isName_constantNames hp hb) h
  -- the same names are looked up for both
  rw [hname, hop'] at hop
  rw [hnames, hargs'] at hargs
  exact Prod.ext (Except.ok.inj hop).symm (Except.ok.inj hargs).symm

/-- Apart from the characters of names, the name of an action has the marks of a literal at most. -/
theorem not_mem_name {c : Char} (hc : continuesName c = false)
    (hmark : c ∉ ['-', '(', ')', ',', ' ']) : c ∉ a.name.toList := by
  rw [ha.name, toList_applied_eq]
  intro hm
  rcases mem_literalText hm with hm | ⟨arg, harg, hm⟩ | hm
  · exact ne_of_continuesName (continuesName_of_mem (isName_operatorName hp ha) hm) hc rfl
  · obtain ⟨name, hname, rfl⟩ := List.mem_map.mp harg
    have hisName := isName_constantNames hp ha name hname
    exact ne_of_continuesName (continuesName_of_mem hisName hm) hc rfl
  · exact hmark hm

end Named

/-- **Names identify actions** in a grounding over a problem whose names can be read. -/
theorem eq_of_name (hp : Legible p) (hg : g.IsOver p) (ha : a ∈ g.actions) (hb : b ∈ g.actions)
    (h : a.name = b.name) : a = b := by
  have happlication := application_inj hp (hg.isNamed a ha) (hg.isNamed b hb) h
  obtain ⟨hop, hargs⟩ := Prod.mk.inj happlication
  -- what an action applies is its key, and no key is listed twice
  exact List.inj_on_of_nodup_map hg.isBuilt.distinctActions ha hb
    (Action.keyOf_inj.mpr ⟨hop, hargs⟩)

theorem find?_name (hp : Legible p) (hg : g.IsOver p) (ha : a ∈ g.actions) :
    g.actions.find? (fun b ↦ b.name.toList = a.name.toList) = some a := by
  have hsome : (g.actions.find? fun b ↦ b.name.toList = a.name.toList).isSome = true :=
    List.find?_isSome.mpr ⟨a, ha, decide_eq_true rfl⟩
  obtain ⟨b, hb⟩ := Option.isSome_iff_exists.mp hsome
  have hname := List.find?_some hb
  rw [decide_eq_true_eq] at hname
  rw [hb, eq_of_name hp hg (List.mem_of_find?_eq_some hb) ha (String.toList_injective hname)]

end Declaration

/-! ## Lines of plans -/

namespace Plan

open Text
open Cnf.Dimacs (lines? lines?_flatMap)

variable {plan : Plan}

/-- The actions of a plan are actions of a grounding. -/
def IsOf (g : Grounding) (plan : Plan) : Prop :=
  ∀ entry ∈ plan.entries, entry.2 ∈ g.actions

/-- The line of an entry, without its newline. -/
def entryText (entry : Nat × Action) : List Char :=
  (toString entry.1).toList ++ ':' :: ' ' :: entry.2.name.toList

def makespanWord : List Char :=
  ['m', 'a', 'k', 'e', 's', 'p', 'a', 'n']

/-- The last line of a plan, without its newline. -/
def makespanText (makespan : Nat) : List Char :=
  makespanWord ++ ' ' :: (toString makespan).toList

theorem toList_entryLine (entry : Nat × Action) :
    (entryLine entry).toList = entryText entry ++ ['\n'] := by
  have hcolon : ": ".toList = [':', ' '] := rfl
  have hnewline : "\n".toList = ['\n'] := rfl
  have hline : (entryLine entry).toList = (toString entry.1).toList ++ ": ".toList ++
      entry.2.name.toList ++ "\n".toList := by
    rw [entryLine]
    simp only [String.toList_append]
    rfl
  rw [hline, hcolon, hnewline, entryText]
  simp

theorem toList_makespanLine (n : Nat) :
    s!"makespan {n}\n".toList = makespanText n ++ ['\n'] := by
  have hword : "makespan ".toList = makespanWord ++ [' '] := rfl
  have hnewline : "\n".toList = ['\n'] := rfl
  have hline : s!"makespan {n}\n".toList =
      "makespan ".toList ++ (toString n).toList ++ "\n".toList := by
    simp only [String.toList_append]
    rfl
  rw [hline, hword, hnewline, makespanText]
  simp

theorem toList_text (plan : Plan) : plan.text.toList =
    (plan.entries.map entryText ++ [makespanText plan.makespan]).flatMap (· ++ ['\n']) := by
  rw [text, String.toList_append, toList_makespanLine, String.toList_join, List.flatMap_append,
    List.flatMap_singleton, List.flatMap_map, List.flatMap_map]
  simp only [toList_entryLine]

/-! ## Reading plans -/

/-- Reads the line of an entry whose action is in a grounding. -/
def actionLine? (g : Grounding) (line : List Char) : Option (Nat × Action) :=
  match fields ':' line with
  | [step, ' ' :: name] => do
    let step ← natural? step
    let action ← g.actions.find? fun a ↦ a.name.toList = name
    return (step, action)
  | _ => none

/-- Reads the line of the makespan. -/
def makespanLine? (line : List Char) : Option Nat :=
  match fields ' ' line with
  | [word, makespan] => if word = makespanWord then natural? makespan else none
  | _ => none

/-- Reads the text of a plan whose actions are in a grounding. -/
def read? (g : Grounding) (text : String) : Option Plan := do
  let lines ← lines? text.toList
  let makespan ← makespanLine? (← lines.getLast?)
  let entries ← lines.dropLast.mapM (actionLine? g)
  return ⟨makespan, entries⟩

theorem makespanLine?_makespanText (n : Nat) : makespanLine? (makespanText n) = some n := by
  have hfields : fields ' ' (makespanText n) = [makespanWord, (toString n).toList] := by
    have hword : ∀ part ∈ [makespanWord], ' ' ∉ part :=
      List.forall_mem_singleton.mpr (by decide)
    have hsplit := fields_flatMap hword (@not_mem_toString_of_isDigit n ' ' rfl)
    rwa [List.flatMap_singleton, List.append_assoc] at hsplit
  rw [makespanLine?, hfields]
  exact (if_pos rfl).trans (natural?_toString n)

section Read

variable (hp : Declaration.Legible p) (hg : g.IsOver p)

include hp hg

/-- The line of an entry is read back, as no other action has the name of its action. -/
theorem actionLine?_entryText {entry : Nat × Action} (h : entry.2 ∈ g.actions) :
    actionLine? g (entryText entry) = some entry := by
  have hfields : fields ':' (entryText entry) =
      [(toString entry.1).toList, ' ' :: entry.2.name.toList] := by
    have hname : ':' ∉ ' ' :: entry.2.name.toList :=
      List.not_mem_cons_of_ne_of_not_mem (by decide)
        (Declaration.not_mem_name hp (hg.isNamed _ h) (by decide) (by decide))
    have hsplit := fields_flatMap
      (List.forall_mem_singleton.mpr (@not_mem_toString_of_isDigit entry.1 ':' rfl)) hname
    rwa [List.flatMap_singleton, List.append_assoc] at hsplit
  simp only [actionLine?, hfields, natural?_toString, Declaration.find?_name hp hg h,
    Option.bind_eq_bind, Option.bind_some]
  rfl

theorem newline_not_mem_of_mem_lines (h : plan.IsOf g) :
    ∀ line ∈ plan.entries.map entryText ++ [makespanText plan.makespan], '\n' ∉ line := by
  have hdigits : ∀ n : Nat, '\n' ∉ (toString n).toList := fun _ ↦ not_mem_toString_of_isDigit rfl
  refine List.forall_mem_append.mpr ⟨List.forall_mem_map.mpr fun entry hentry ↦ ?_,
    List.forall_mem_singleton.mpr ?_⟩
  · have hname : '\n' ∉ entry.2.name.toList :=
      Declaration.not_mem_name hp (hg.isNamed _ (h entry hentry)) (by decide) (by decide)
    simp only [entryText, List.mem_append, List.mem_cons, hdigits, hname]
    decide
  · simp only [makespanText, List.mem_append, List.mem_cons, hdigits]
    decide

/-- **Plans are read back** from their texts. -/
theorem read?_text (h : plan.IsOf g) : read? g plan.text = some plan := by
  have hlines : lines? plan.text.toList =
      some (plan.entries.map entryText ++ [makespanText plan.makespan]) := by
    rw [toList_text]
    exact lines?_flatMap (newline_not_mem_of_mem_lines hp hg h)
  have hentries : (plan.entries.map entryText).mapM (actionLine? g) = some plan.entries := by
    rw [Fallible.mapM_eq_some_iff, List.forall₂_map_left_iff, List.forall₂_same]
    exact fun entry hentry ↦ actionLine?_entryText hp hg (h entry hentry)
  simp only [read?, hlines, List.getLast?_concat, List.dropLast_concat, makespanLine?_makespanText,
    hentries, Option.bind_eq_bind, Option.bind_some]
  rfl

end Read

theorem read?_noPlanText (g : Grounding) : read? g noPlanText = none :=
  rfl

end Plan

/-- **Texts identify plans.** Let a problem be read, and let a grounding be built over it. Then
different actions have different names, different plans of these actions have different texts, and
none of them has the text of the absence of a plan. -/
theorem PlanningResult.text_inj_of_read {bytes : List UInt8}
    (hp : (Declaration.read bytes).problem = .ok p) (hg : g.IsOver p) :
    (∀ a ∈ g.actions, ∀ b ∈ g.actions, a.name = b.name → a = b) ∧
      (∀ found found' : Plan, found.IsOf g → found'.IsOf g →
        (plan found).text = (plan found').text → found = found') ∧
      ∀ found : Plan, found.IsOf g → ∀ steps, (plan found).text ≠ (boundReached steps).text := by
  have hlegible := Declaration.legible_of_read hp
  have hread : ∀ found : Plan, found.IsOf g → Plan.read? g (plan found).text = some found :=
    fun found hfound ↦ Plan.read?_text hlegible hg hfound
  refine ⟨fun a ha b hb h ↦ Declaration.eq_of_name hlegible hg ha hb h, ?_, ?_⟩
  · intro found found' hfound hfound' h
    have hsome := congrArg (Plan.read? g) h
    rw [hread found hfound, hread found' hfound'] at hsome
    exact Option.some.inj hsome
  · intro found hfound steps h
    have hsome := hread found hfound
    rw [h, text, Plan.read?_noPlanText] at hsome
    cases hsome

/-- At the ferry, two trips at the same step have texts of their own in either order. -/
theorem PlanningResult.text_ferry :
    ∃ a ∈ Declaration.ferryRelaxed.grounding.actions,
      ∃ b ∈ Declaration.ferryRelaxed.grounding.actions, a.name ≠ b.name ∧
        (plan ⟨1, [(0, a), (0, b)]⟩).text ≠ (plan ⟨1, [(0, b), (0, a)]⟩).text ∧
        (plan ⟨1, [(0, a), (0, b)]⟩).text ≠ (boundReached 1).text := by
  have hread : (Declaration.read (Declaration.stored Declaration.ferryLines)).problem =
      .ok Declaration.ferry := Fallible.eq_ok_get _
  have hrelaxed : RelaxedGrounding.ofProblem Declaration.ferry = .ok Declaration.ferryRelaxed :=
    Fallible.eq_ok_get _
  obtain ⟨hname, htext, hnone⟩ :=
    text_inj_of_read hread (RelaxedGrounding.isOver_of_ofProblem hrelaxed)
  have htwo : ∃ a ∈ Declaration.ferryRelaxed.grounding.actions,
      ∃ b ∈ Declaration.ferryRelaxed.grounding.actions, a ≠ b := by
    decide +kernel
  obtain ⟨a, ha, b, hb, hne⟩ := htwo
  have hof : ∀ x ∈ Declaration.ferryRelaxed.grounding.actions,
      ∀ y ∈ Declaration.ferryRelaxed.grounding.actions,
        Plan.IsOf Declaration.ferryRelaxed.grounding ⟨1, [(0, x), (0, y)]⟩ :=
    fun x hx y hy ↦ by simp [Plan.IsOf, hx, hy]
  refine ⟨a, ha, b, hb, fun h ↦ hne (hname a ha b hb h), fun h ↦ ?_, hnone _ (hof a ha b hb) 1⟩
  have hplan := htext _ _ (hof a ha b hb) (hof b hb a ha) h
  simp only [Plan.mk.injEq, List.cons.injEq, Prod.mk.injEq, true_and] at hplan
  exact hne hplan.1

end LiftedPlanning
