import Mathlib.Data.List.Induction
import Mathlib.Data.List.Nodup
import LiftedPlanning.Grounding.Basic
import LiftedPlanning.Proofs.Catalog

/-!
# Grounding tables

The tables of a grounding find atoms and actions by keys. A key determines its atom, and the
operator and the arguments of its action, so a look-up answers with what was asked for. Every
grounding that is built by entering atoms and actions lists each atom and each action once, and its
actions are named after what they apply.
-/

namespace LiftedPlanning

/-! ## Keys -/

theorem GroundAtom.key_injective : Function.Injective GroundAtom.key := by
  rintro ⟨p, xs⟩ ⟨q, ys⟩ h
  obtain ⟨hp, hxs⟩ := Trie.Key.mk.inj h
  exact congrArg₂ GroundAtom.mk (Handle.index_injective hp)
    (List.map_injective_iff.mpr Handle.index_injective hxs)

theorem Action.keyOf_inj {op op' : OperatorId} {args args' : List ConstantId} :
    keyOf op args = keyOf op' args' ↔ op = op' ∧ args = args' := by
  refine ⟨fun h ↦ ?_, fun ⟨ho, ha⟩ ↦ ho ▸ ha ▸ rfl⟩
  obtain ⟨hp, hxs⟩ := Trie.Key.mk.inj h
  exact ⟨Handle.index_injective hp, List.map_injective_iff.mpr Handle.index_injective hxs⟩

/-- What an action applies, and to which constants. -/
def Action.application (a : Action) : OperatorId × List ConstantId :=
  (a.operator, a.args)

/-- An action is an instance of an operator of a problem by constants of the problem, and it is
named after them. -/
structure Action.IsNamed (p : Problem) (a : Action) : Prop where
  operator : (p.operator? a.operator).isSome = true
  args : ∀ c ∈ a.args, c.index < p.constants.size
  name : a.name = Problem.applied (p.operatorName a.operator) (a.args.map p.constantName)

/-! ## Rosters -/

namespace Roster

variable {α : Type} {key : α → Trie.Key} {r : Roster key}

theorem isSome_place?_iff {k : Trie.Key} :
    (r.place? k).isSome = true ↔ ∃ a ∈ r.toList, key a = k := by
  rw [place?_eq_findIdx?, List.findIdx?_isSome, List.any_eq_true]
  simp only [decide_eq_true_eq]

theorem get?_eq (r : Roster key) (i : Nat) : r.get? i = r.toList[i]? := by
  rw [get?, toList, Array.getElem?_toList]

theorem exists_get?_of_place? {k : Trie.Key} {i : Nat} (h : r.place? k = some i) :
    ∃ a, r.get? i = some a ∧ key a = k := by
  rw [place?_eq_findIdx?, List.findIdx?_eq_some_iff_getElem] at h
  obtain ⟨hi, hk, _⟩ := h
  refine ⟨r.toList[i], ?_, of_decide_eq_true hk⟩
  rw [get?_eq, List.getElem?_eq_getElem hi]

theorem mem_of_get? {a : α} {i : Nat} (h : r.get? i = some a) : a ∈ r.toList := by
  rw [get?_eq] at h
  exact List.mem_of_getElem? h

/-! ### Insertion -/

theorem insert_of_isSome {a : α} (h : (r.place? (key a)).isSome = true) : r.insert a = r :=
  dif_pos h

theorem mem_insert_of_mem {a b : α} (h : b ∈ r.toList) : b ∈ (r.insert a).toList := by
  rw [toList_insert]
  split
  · exact h
  · exact List.mem_append_left _ h

theorem mem_or_eq_of_mem_insert {a b : α} (h : b ∈ (r.insert a).toList) : b ∈ r.toList ∨ b = a := by
  rw [toList_insert] at h
  split at h
  · exact .inl h
  · exact (List.mem_append.mp h).imp_right List.mem_singleton.mp

theorem exists_mem_insert (r : Roster key) (a : α) : ∃ b ∈ (r.insert a).toList, key b = key a := by
  by_cases h : (r.place? (key a)).isSome = true
  · rw [insert_of_isSome h]
    exact isSome_place?_iff.mp h
  · exact ⟨a, by rw [toList_insert, if_neg h]; exact List.mem_concat_self, rfl⟩

def Distinct (r : Roster key) : Prop :=
  (r.toList.map key).Nodup

theorem distinct_empty : (empty : Roster key).Distinct := by
  simp [Distinct, empty, toList]

theorem Distinct.insert (h : r.Distinct) (a : α) : (r.insert a).Distinct := by
  rw [Distinct, toList_insert]
  split
  · exact h
  · rename_i hn
    rw [List.map_append, List.map_singleton, List.nodup_append]
    refine ⟨h, List.nodup_singleton _, fun k hk k' hk' he ↦ hn ?_⟩
    obtain ⟨b, hb, rfl⟩ := List.mem_map.mp hk
    rw [List.mem_singleton.mp hk'] at he
    exact isSome_place?_iff.mpr ⟨b, hb, he⟩

theorem Distinct.find_eq_some_iff (h : r.Distinct) {k : Trie.Key} {a : α} :
    (r.place? k).bind r.get? = some a ↔ a ∈ r.toList ∧ key a = k := by
  constructor
  · intro he
    obtain ⟨i, hi, ha⟩ := Option.bind_eq_some_iff.mp he
    obtain ⟨b, hb, hk⟩ := exists_get?_of_place? hi
    obtain rfl : b = a := Option.some.inj (hb.symm.trans ha)
    exact ⟨mem_of_get? ha, hk⟩
  · rintro ⟨ha, rfl⟩
    obtain ⟨i, hi⟩ := Option.isSome_iff_exists.mp (isSome_place?_iff.mpr ⟨a, ha, rfl⟩)
    obtain ⟨b, hb, hk⟩ := exists_get?_of_place? hi
    rw [hi, Option.bind_some, hb, List.inj_on_of_nodup_map h (mem_of_get? hb) ha hk]

end Roster

/-- For atoms the key is the atom, so an insertion adds it and nothing else. -/
theorem AtomTable.mem_insert_iff {t : AtomTable} {a b : GroundAtom} :
    b ∈ (t.insert a).toList ↔ b ∈ t.toList ∨ b = a := by
  refine ⟨Roster.mem_or_eq_of_mem_insert, ?_⟩
  rintro (hb | rfl)
  · exact Roster.mem_insert_of_mem hb
  · obtain ⟨c, hc, hk⟩ := Roster.exists_mem_insert t b
    rwa [GroundAtom.key_injective hk] at hc

theorem AtomTable.isSome_place?_iff {t : AtomTable} {a : GroundAtom} :
    (t.place? a.key).isSome = true ↔ a ∈ t.toList := by
  rw [Roster.isSome_place?_iff]
  exact ⟨fun ⟨b, hb, hk⟩ ↦ GroundAtom.key_injective hk ▸ hb, fun h ↦ ⟨a, h, rfl⟩⟩

theorem AtomTable.mem_foldl_insert_iff {t : AtomTable} {as : List GroundAtom} {b : GroundAtom} :
    b ∈ (as.foldl Roster.insert t).toList ↔ b ∈ t.toList ∨ b ∈ as := by
  induction as generalizing t with
  | nil => simp
  | cons a as ih => rw [List.foldl_cons, ih, AtomTable.mem_insert_iff, List.mem_cons, or_assoc]

theorem eraseDups_concat {β : Type} [BEq β] [LawfulBEq β] (xs : List β) (x : β) :
    (xs ++ [x]).eraseDups = if x ∈ xs then xs.eraseDups else xs.eraseDups ++ [x] := by
  rw [List.eraseDups_append]
  by_cases h : x ∈ xs <;> simp [List.removeAll, List.eraseDups_cons, h]

theorem nodup_eraseDups {β : Type} [BEq β] [LawfulBEq β] (xs : List β) :
    xs.eraseDups.Nodup := by
  induction xs using List.reverseRecOn with
  | nil => exact List.nodup_nil
  | append_singleton xs x ih =>
    rw [eraseDups_concat]
    split
    · exact ih
    · rename_i hx
      refine List.nodup_append.mpr ⟨ih, List.nodup_singleton x, fun y hy z hz heq ↦ hx ?_⟩
      rw [← List.mem_singleton.mp hz, ← heq]
      exact List.mem_eraseDups.mp hy

theorem AtomTable.toList_foldl_insert {t : AtomTable} {xs : List GroundAtom}
    (h : t.toList = xs.eraseDups) (as : List GroundAtom) :
    (as.foldl Roster.insert t).toList = (xs ++ as).eraseDups := by
  induction as generalizing t xs with
  | nil => rw [List.foldl_nil, List.append_nil, h]
  | cons a as ih =>
    rw [List.foldl_cons, List.append_cons]
    refine ih ?_
    rw [Roster.toList_insert, eraseDups_concat, h]
    simp only [AtomTable.isSome_place?_iff, h, List.mem_eraseDups]

namespace Grounding

variable {g : Grounding}

/-! ## Atoms -/

theorem isSome_atomId?_iff {a : GroundAtom} : (g.atomId? a).isSome = true ↔ a ∈ g.atoms := by
  rw [atomId?, Option.isSome_map, AtomTable.isSome_place?_iff, atoms]

theorem exists_atomId? {a : GroundAtom} (h : a ∈ g.atoms) : ∃ id, g.atomId? a = some id :=
  Option.isSome_iff_exists.mp (isSome_atomId?_iff.mpr h)

theorem getElem?_of_atomId? {a : GroundAtom} {id : AtomId} (h : g.atomId? a = some id) :
    g.atoms[id.index]? = some a := by
  obtain ⟨i, hi, rfl⟩ := Option.map_eq_some_iff.mp h
  obtain ⟨b, hb, hk⟩ := Roster.exists_get?_of_place? hi
  rwa [Roster.get?_eq, GroundAtom.key_injective hk] at hb

theorem index_lt_of_atomId? {a : GroundAtom} {id : AtomId} (h : g.atomId? a = some id) :
    id.index < g.atoms.length := by
  obtain ⟨hi, _⟩ := List.getElem?_eq_some_iff.mp (getElem?_of_atomId? h)
  exact hi

theorem atomId?_inj {a b : GroundAtom} {id : AtomId} (ha : g.atomId? a = some id)
    (hb : g.atomId? b = some id) : a = b :=
  Option.some.inj ((getElem?_of_atomId? ha).symm.trans (getElem?_of_atomId? hb))

theorem atomId?_of_getElem? (hg : g.atomTable.Distinct) {a : GroundAtom} {i : Nat}
    (h : g.atoms[i]? = some a) : g.atomId? a = some ⟨i⟩ := by
  obtain ⟨id, hid⟩ := exists_atomId? (List.mem_of_getElem? h)
  obtain ⟨hi, ha⟩ := List.getElem?_eq_some_iff.mp h
  obtain ⟨hj, ha'⟩ := List.getElem?_eq_some_iff.mp (getElem?_of_atomId? hid)
  have he : id.index = i :=
    (List.Nodup.of_map _ hg).getElem_inj_iff.mp (ha'.trans ha.symm)
  rw [hid, ← he]

theorem exists_atomId?_eq (hg : g.atomTable.Distinct) {id : AtomId}
    (h : id.index < g.atoms.length) : ∃ a, g.atomId? a = some id :=
  ⟨_, atomId?_of_getElem? hg (List.getElem?_eq_getElem h)⟩

theorem addAtom_eq (g : Grounding) (a : GroundAtom) :
    (g.addAtom a).2 = { g with atomTable := g.atomTable.insert a } := by
  rw [addAtom]
  split
  · rename_i id h
    have hs : (g.atomTable.place? a.key).isSome = true := by
      rw [← Option.isSome_map (f := Handle.mk)]
      exact Option.isSome_of_eq_some h
    rw [Roster.insert_of_isSome hs]
  · rfl

/-! ## Actions -/

theorem mem_of_action? {op : OperatorId} {args : List ConstantId} {a : Action}
    (h : g.action? op args = some a) : a ∈ g.actions ∧ a.operator = op ∧ a.args = args := by
  obtain ⟨i, hi, ha⟩ := Option.bind_eq_some_iff.mp h
  obtain ⟨b, hb, hk⟩ := Roster.exists_get?_of_place? hi
  obtain rfl : b = a := Option.some.inj (hb.symm.trans ha)
  exact ⟨Roster.mem_of_get? ha, Action.keyOf_inj.mp hk⟩

theorem exists_action?_iff {op : OperatorId} {args : List ConstantId} :
    (∃ a, g.action? op args = some a) ↔ ∃ a ∈ g.actions, a.operator = op ∧ a.args = args := by
  constructor
  · rintro ⟨a, h⟩
    exact ⟨a, mem_of_action? h⟩
  · rintro ⟨a, ha, rfl, rfl⟩
    obtain ⟨i, hi⟩ := Option.isSome_iff_exists.mp (Roster.isSome_place?_iff.mpr ⟨a, ha, rfl⟩)
    obtain ⟨b, hb, _⟩ := Roster.exists_get?_of_place? hi
    exact ⟨b, Option.bind_eq_some_iff.mpr ⟨i, hi, hb⟩⟩

/-- Where no two actions have the same operator and arguments, a look-up finds exactly the listed
action. -/
theorem action?_eq_some_iff (hg : g.actionTable.Distinct) {op : OperatorId}
    {args : List ConstantId} {a : Action} :
    g.action? op args = some a ↔ a ∈ g.actions ∧ a.operator = op ∧ a.args = args := by
  rw [action?, hg.find_eq_some_iff]
  exact and_congr_right fun _ ↦ Action.keyOf_inj

/-- Entering an action is an insertion into the table of actions. It needs a declared operator of
the right arity. -/
theorem addAction_eq_ok {p : Problem} {op : OperatorId} {args : List ConstantId} {i : Nat}
    {g' : Grounding} (h : g.addAction p op args = .ok (i, g')) :
    ∃ name schema, p.operators.entries[op.index]? = some (name, schema) ∧
      schema.arity = args.length ∧
      g' = ⟨g.atomTable, g.actionTable.insert
        ⟨g.actionTable.size, op, args, Problem.applied name (args.map p.constantName)⟩⟩ := by
  rw [addAction] at h
  split at h
  · cases h
  · rename_i name schema hop
    split at h
    · rename_i harity
      refine ⟨name, schema, hop, harity, ?_⟩
      split at h
      · rename_i a ha
        obtain ⟨hm, ho, hargs⟩ := mem_of_action? ha
        rw [Roster.insert_of_isSome]
        · exact (Prod.mk.inj (Except.ok.inj h)).2.symm
        · exact Roster.isSome_place?_iff.mpr ⟨a, hm, Action.keyOf_inj.mpr ⟨ho, hargs⟩⟩
      · exact (Prod.mk.inj (Except.ok.inj h)).2.symm
    · cases h

theorem exists_addAction {p : Problem} {op : OperatorId} {args : List ConstantId}
    {schema : Operator} (hop : p.operator? op = some schema) (hlen : args.length = schema.arity)
    (hnew : (op, args) ∉ g.actions.map Action.application) :
    ∃ i g', g.addAction p op args = .ok (i, g') ∧ g'.atoms = g.atoms ∧
      g'.actions.map Action.application = g.actions.map Action.application ++ [(op, args)] := by
  obtain ⟨⟨name, _⟩, hentry, rfl⟩ := Option.map_eq_some_iff.mp hop
  have hnone : g.action? op args = none := by
    rw [Option.eq_none_iff_forall_ne_some]
    intro a ha
    obtain ⟨hm, rfl, rfl⟩ := mem_of_action? ha
    exact hnew (List.mem_map_of_mem hm)
  have hplace : ¬(g.actionTable.place? (Action.keyOf op args)).isSome = true := by
    rw [Roster.isSome_place?_iff]
    rintro ⟨a, ha, hk⟩
    obtain ⟨rfl, rfl⟩ := Action.keyOf_inj.mp hk
    exact hnew (List.mem_map_of_mem ha)
  simp only [addAction, hentry, hlen, if_pos, hnone]
  refine ⟨_, _, rfl, rfl, ?_⟩
  rw [actions, Roster.toList_insert, Action.key, if_neg hplace, List.map_append]
  rfl

/-! ## Built groundings -/

/-- A grounding into which atoms and actions were entered one by one. -/
inductive IsBuilt : Grounding → Prop
  | empty : IsBuilt .empty
  | addAtom {g : Grounding} (h : IsBuilt g) (a : GroundAtom) : IsBuilt (g.addAtom a).2
  | addAction {g g' : Grounding} {p : Problem} {op : OperatorId} {args : List ConstantId} {i : Nat}
      (h : IsBuilt g) (hadd : g.addAction p op args = .ok (i, g')) : IsBuilt g'

theorem IsBuilt.distinctAtoms (h : g.IsBuilt) : g.atomTable.Distinct := by
  induction h with
  | empty => exact Roster.distinct_empty
  | addAtom _ a ih =>
    rw [addAtom_eq]
    exact ih.insert a
  | addAction _ hadd ih =>
    obtain ⟨_, _, _, _, rfl⟩ := addAction_eq_ok hadd
    exact ih

theorem IsBuilt.distinctActions (h : g.IsBuilt) : g.actionTable.Distinct := by
  induction h with
  | empty => exact Roster.distinct_empty
  | addAtom _ a ih =>
    rw [addAtom_eq]
    exact ih
  | addAction _ hadd ih =>
    obtain ⟨_, _, _, _, rfl⟩ := addAction_eq_ok hadd
    exact ih.insert _

/-- A grounding into which atoms, and actions of one problem, were entered one by one. The arguments
of an action have to be constants of the problem, as the action is named after them. -/
inductive IsOver (p : Problem) : Grounding → Prop
  | empty : IsOver p .empty
  | addAtom {g : Grounding} (h : IsOver p g) (a : GroundAtom) : IsOver p (g.addAtom a).2
  | addAction {g g' : Grounding} {op : OperatorId} {args : List ConstantId} {i : Nat}
      (h : IsOver p g) (hargs : ∀ c ∈ args, c.index < p.constants.size)
      (hadd : g.addAction p op args = .ok (i, g')) : IsOver p g'

theorem IsOver.isBuilt {p : Problem} (h : g.IsOver p) : g.IsBuilt := by
  induction h with
  | empty => exact .empty
  | addAtom _ a ih => exact ih.addAtom a
  | addAction _ _ hadd ih => exact ih.addAction hadd

theorem IsOver.isNamed {p : Problem} (h : g.IsOver p) : ∀ a ∈ g.actions, a.IsNamed p := by
  induction h with
  | empty => exact List.forall_mem_nil _
  | addAtom _ a ih =>
    rw [addAtom_eq]
    exact ih
  | addAction _ hargs hadd ih =>
    obtain ⟨name, schema, hop, _, rfl⟩ := addAction_eq_ok hadd
    intro a ha
    rcases Roster.mem_or_eq_of_mem_insert ha with ha | rfl
    · exact ih a ha
    · refine ⟨?_, hargs, ?_⟩
      · rw [Problem.operator?, Catalog.value?, hop]
        rfl
      · rw [Problem.operatorName, Catalog.name?, hop]
        rfl

end Grounding

end LiftedPlanning
