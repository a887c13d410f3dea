import LiftedPlanning.Proofs.TypeHierarchy

/-!
# The order of types

A search along the links visits a type once for each link that leads to it, in a hierarchy of
diamonds more often than there are types. It ends nevertheless, since links are followed from new
types only, and it finds the same supertypes as the descent does. So however a hierarchy came about,
the answers to questions about its types are those of an order, and definitions that come later do
not change them.
-/

namespace LiftedPlanning.TypeHierarchy

variable {h h' : TypeHierarchy} {s t sup : TypeId} {seen toVisit : List TypeId}

/-! ## The search -/

/-- A search among defined types has an answer, as their links lead to defined types. -/
theorem exists_search (hd : h.Descends) (hv : ∀ t ∈ toVisit, t.index < h.size) :
    ∃ b, h.search sup seen toVisit = some b := by
  fun_induction search h sup seen toVisit with
  | case1 => exact ⟨false, rfl⟩
  | case2 => exact ⟨true, rfl⟩
  | case3 seen t rest _ _ _ ih => exact ih (List.forall_mem_cons.mp hv).2
  | case4 seen t rest _ ht _ ih =>
    refine ih (List.forall_mem_append.mpr ⟨fun s hs ↦ ?_, (List.forall_mem_cons.mp hv).2⟩)
    exact Nat.lt_trans (hd.index_lt (List.mem_reverse.mp hs)) ht
  | case5 seen t rest _ ht => exact absurd (List.forall_mem_cons.mp hv).1 ht

theorem exists_isSubtype_of_search (hs : h.search sup seen toVisit = some true) :
    ∃ t ∈ toVisit, h.IsSubtype t sup := by
  fun_induction search h sup seen toVisit with
  | case1 => cases hs
  | case2 seen rest => exact ⟨sup, List.mem_cons_self, .refl⟩
  | case3 seen t rest _ _ _ ih =>
    obtain ⟨u, hu, hsub⟩ := ih hs
    exact ⟨u, List.mem_cons_of_mem t hu, hsub⟩
  | case4 seen t rest _ _ _ ih =>
    obtain ⟨u, hu, hsub⟩ := ih hs
    rcases List.mem_append.mp hu with hlink | hu
    · exact ⟨t, List.mem_cons_self, .head (List.mem_reverse.mp hlink) hsub⟩
    · exact ⟨u, List.mem_cons_of_mem t hu, hsub⟩
  | case5 => cases hs

/-- The invariant of a search: `sup` was not seen, and the links of what was seen lead to what was
seen or is still to be visited. -/
structure Followed (h : TypeHierarchy) (sup : TypeId) (seen toVisit : List TypeId) : Prop where
  not_mem : sup ∉ seen
  links : ∀ t ∈ seen, ∀ s, h.IsLink t s → s ∈ seen ∨ s ∈ toVisit

theorem followed_nil : h.Followed sup [] toVisit :=
  ⟨List.not_mem_nil, List.forall_mem_nil _⟩

theorem Followed.skip (hf : h.Followed sup seen (t :: toVisit)) (ht : t ∈ seen) :
    h.Followed sup seen toVisit := by
  refine ⟨hf.not_mem, fun u hu s hl ↦ (hf.links u hu s hl).elim .inl fun hs ↦ ?_⟩
  rcases List.mem_cons.mp hs with rfl | hs
  · exact .inl ht
  · exact .inr hs

theorem Followed.visit (hf : h.Followed sup seen (t :: toVisit)) (hne : t ≠ sup) :
    h.Followed sup (t :: seen) ((h.directSupertypes t).reverse ++ toVisit) := by
  refine ⟨List.not_mem_cons_of_ne_of_not_mem hne.symm hf.not_mem, fun u hu s hl ↦ ?_⟩
  rcases List.mem_cons.mp hu with rfl | hu
  · exact .inr (List.mem_append_left _ (List.mem_reverse.mpr hl))
  rcases hf.links u hu s hl with hs | hs
  · exact .inl (List.mem_cons_of_mem t hs)
  rcases List.mem_cons.mp hs with rfl | hs
  · exact .inl List.mem_cons_self
  · exact .inr (List.mem_append_right _ hs)

/-- When nothing is left to visit, what was seen is closed under links. -/
theorem Followed.not_isSubtype (hf : h.Followed sup seen []) (ht : t ∈ seen) :
    ¬h.IsSubtype t sup := by
  have hclosed : ∀ s, h.IsSubtype t s → s ∈ seen := by
    intro s hsub
    induction hsub with
    | refl => exact ht
    | tail _ hl ih => exact (hf.links _ ih _ hl).resolve_right List.not_mem_nil
  exact fun hsub ↦ hf.not_mem (hclosed sup hsub)

theorem not_isSubtype_of_search (hf : h.Followed sup seen toVisit)
    (hs : h.search sup seen toVisit = some false) (ht : t ∈ seen ∨ t ∈ toVisit) :
    ¬h.IsSubtype t sup := by
  fun_induction search h sup seen toVisit with
  | case1 seen => exact hf.not_isSubtype (ht.resolve_right List.not_mem_nil)
  | case2 => cases hs
  | case3 seen u rest _ _ hu ih =>
    refine ih (hf.skip hu) hs (ht.elim .inl fun ht ↦ ?_)
    rcases List.mem_cons.mp ht with rfl | ht
    · exact .inl hu
    · exact .inr ht
  | case4 seen u rest hne _ _ ih =>
    refine ih (hf.visit hne) hs ?_
    rcases ht with ht | ht
    · exact .inl (List.mem_cons_of_mem u ht)
    rcases List.mem_cons.mp ht with rfl | ht
    · exact .inl List.mem_cons_self
    · exact .inr (List.mem_append_right _ ht)
  | case5 => cases hs

/-- **Search and descent agree.** A question about a defined type is answered, and as the descent
answers it. -/
theorem isSupertype?_eq (hd : h.Descends) (ht : t.index < h.size) :
    h.isSupertype? s t = some (h.isSupertype s t) := by
  obtain ⟨b, hb⟩ : ∃ b, h.search s [] [t] = some b :=
    exists_search hd (List.forall_mem_singleton.mpr ht)
  rw [isSupertype?, hb]
  cases b with
  | true =>
    obtain ⟨_, hu, hsub⟩ := exists_isSubtype_of_search hb
    obtain rfl := List.mem_singleton.mp hu
    rw [(isSupertype_iff hd).mpr hsub]
  | false =>
    have hsub := not_isSubtype_of_search followed_nil hb (.inr (List.mem_singleton_self t))
    rw [Bool.eq_false_iff.mpr fun h ↦ hsub ((isSupertype_iff hd).mp h)]

/-! ## Definitions one after the other -/

/-- Defines types one after the other. A definition that fails leaves the hierarchy alone. -/
def defineAll (h : TypeHierarchy) (definitions : List (String × List TypeId)) : TypeHierarchy :=
  definitions.foldl (fun h d ↦ (h.define d.1 d.2).toOption.getD h) h

theorem descends_empty : empty.Descends :=
  fun _ _ ht ↦ by simp [empty, directSupertypes?, Catalog.value?] at ht

/-- What one definition leaves: links that lead down, and the earlier types. -/
theorem Descends.attempt (hd : h.Descends) (d : String × List TypeId) :
    ((h.define d.1 d.2).toOption.getD h).Descends ∧
      h.entries <+: ((h.define d.1 d.2).toOption.getD h).entries := by
  cases he : h.define d.1 d.2 with
  | error e => exact ⟨hd, List.prefix_rfl⟩
  | ok h' =>
    obtain ⟨_, _, rfl⟩ := define_eq_ok_iff.mp he
    exact ⟨hd.define he, List.prefix_append _ _⟩

theorem Descends.defineAll (hd : h.Descends) (definitions : List (String × List TypeId)) :
    (h.defineAll definitions).Descends ∧ h.entries <+: (h.defineAll definitions).entries := by
  induction definitions generalizing h with
  | nil => exact ⟨hd, List.prefix_rfl⟩
  | cons d definitions ih =>
    obtain ⟨hd', hp⟩ := hd.attempt d
    obtain ⟨hd'', hp'⟩ := ih hd'
    exact ⟨hd'', hp.trans hp'⟩

theorem isSupertype_of_prefix (hp : h.entries <+: h'.entries) (ht : t.index < h.size) :
    h'.isSupertype s t = h.isSupertype s t := by
  rw [isSupertype, isSupertype, supertypes, supertypes, climb_of_prefix hp ht]

theorem Descends.antisymm (hd : h.Descends) (hts : h.IsSubtype t s) (hst : h.IsSubtype s t) :
    s = t :=
  Handle.index_injective (Nat.le_antisymm (hd.index_le hts) (hd.index_le hst))

/-- **Types are ordered for good.** Let a hierarchy come about by any definitions, some of which may
have failed. For any two of its types the search for a supertype ends with an answer, which is that
of the descent: it is `true` exactly if links lead from the one type to the other, or they are the
same. The answers are those of a partial order of the types, and whatever is defined later, or fails
to be, leaves them as they are. -/
theorem isSupertype?_defineAll (definitions later : List (String × List TypeId)) :
    let h := empty.defineAll definitions
    (∀ s t : TypeId, s.index < h.size → t.index < h.size →
      h.isSupertype? s t = some (h.isSupertype s t) ∧
      (h.isSupertype s t = true ↔ h.IsSubtype t s) ∧
      (h.defineAll later).isSupertype? s t = h.isSupertype? s t) ∧
    IsPartialOrder {t : TypeId // t.index < h.size} fun s t ↦ h.isSupertype? s t = some true := by
  intro h
  have hd : h.Descends := (descends_empty.defineAll definitions).1
  obtain ⟨hd', hp⟩ := hd.defineAll later
  have hiff : ∀ s t : {t : TypeId // t.index < h.size},
      h.isSupertype? s t = some true ↔ h.IsSubtype t s := fun s t ↦ by
    rw [isSupertype?_eq hd t.2, Option.some.injEq, isSupertype_iff hd]
  refine ⟨fun s t _ ht ↦ ⟨isSupertype?_eq hd ht, isSupertype_iff hd, ?_⟩, ?_⟩
  · rw [isSupertype?_eq hd ht, isSupertype?_eq hd' (Nat.lt_of_lt_of_le ht hp.length_le),
      isSupertype_of_prefix hp ht]
  · refine { refl := fun t ↦ ?_, trans := fun s t u hst htu ↦ ?_, antisymm := fun s t hst hts ↦ ?_ }
    · exact (hiff t t).mpr .refl
    · exact (hiff s u).mpr (((hiff t u).mp htu).trans ((hiff s t).mp hst))
    · exact Subtype.ext (hd.antisymm ((hiff s t).mp hst) ((hiff t s).mp hts))

/-- Trucks are vehicles and containers, both of which are objects. A second kind of vehicle and a
type below an unknown one cannot be defined. -/
def diamondDefinitions : List (String × List TypeId) :=
  [("object", []), ("vehicle", [⟨0⟩]), ("vehicle", []), ("container", [⟨0⟩]), ("crate", [⟨7⟩]),
    ("truck", [⟨1⟩, ⟨2⟩])]

/-- Trucks stay objects when tank trucks are defined, and no container becomes a vehicle. -/
theorem isSupertype?_diamond :
    let h := empty.defineAll diamondDefinitions
    let h' := h.defineAll [("tank", [⟨3⟩]), ("truck", [⟨4⟩])]
    h.size = 4 ∧ h'.size = 5 ∧ h'.isSupertype? ⟨0⟩ ⟨3⟩ = some true ∧ h.IsSubtype ⟨3⟩ ⟨0⟩ ∧
      h'.isSupertype? ⟨1⟩ ⟨2⟩ = some false ∧ ¬h.IsSubtype ⟨2⟩ ⟨1⟩ := by
  intro h h'
  obtain ⟨hanswers, _⟩ :=
    isSupertype?_defineAll diamondDefinitions [("tank", [⟨3⟩]), ("truck", [⟨4⟩])]
  obtain ⟨hup, hup', hlater⟩ := hanswers ⟨0⟩ ⟨3⟩ (by decide +kernel) (by decide +kernel)
  obtain ⟨hside, hside', hlater'⟩ := hanswers ⟨1⟩ ⟨2⟩ (by decide +kernel) (by decide +kernel)
  have htrue : h.isSupertype ⟨0⟩ ⟨3⟩ = true := by decide +kernel
  have hfalse : h.isSupertype ⟨1⟩ ⟨2⟩ = false := by decide +kernel
  refine ⟨by decide +kernel, by decide +kernel, ?_, hup'.mp htrue, ?_, fun hsub ↦ ?_⟩
  · exact hlater.trans (hup.trans (congrArg some htrue))
  · exact hlater'.trans (hside.trans (congrArg some hfalse))
  · exact Bool.eq_false_iff.mp hfalse (hside'.mpr hsub)

end LiftedPlanning.TypeHierarchy
