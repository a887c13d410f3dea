import Mathlib.Data.List.TakeWhile
import LiftedPlanning.Declaration.Reader
import LiftedPlanning.Proofs.Text.Line

/-!
# Written declarations are taken apart again

A name has no blanks in it and none of the characters that separate the pieces of a declaration. So
a literal that is written as a name and a list of arguments in parentheses falls into the same
pieces, and so does a declaration around it.
-/

namespace LiftedPlanning

/-! ## Blanks -/

namespace Text

variable {c : Char} {cs : List Char}

theorem mem_trim (h : c ∈ cs) (hc : isBlank c = false) : c ∈ trim cs := by
  have hdrop : ∀ {ds : List Char}, c ∈ ds → c ∈ ds.dropWhile isBlank := by
    intro ds hd
    rw [← List.takeWhile_append_dropWhile (p := isBlank) (l := ds)] at hd
    refine (List.mem_append.mp hd).resolve_left fun ht ↦ ?_
    rw [List.mem_takeWhile_imp ht] at hc
    cases hc
  exact List.mem_reverse.mpr (hdrop (List.mem_reverse.mpr (hdrop h)))

theorem trimStart_eq_self (h : ∀ c, cs.head? = some c → isBlank c = false) : trimStart cs = cs := by
  cases cs with
  | nil => rfl
  | cons c cs => exact List.dropWhile_cons_of_neg (by simp [h c rfl])

theorem trimEnd_eq_self (h : ∀ c, cs.getLast? = some c → isBlank c = false) : trimEnd cs = cs := by
  have hreverse : trimStart cs.reverse = cs.reverse :=
    trimStart_eq_self fun c hc ↦ h c (List.head?_reverse ▸ hc)
  rw [trimEnd, ← trimStart, hreverse, List.reverse_reverse]

theorem trim_eq_self (hfirst : ∀ c, cs.head? = some c → isBlank c = false)
    (hlast : ∀ c, cs.getLast? = some c → isBlank c = false) : trim cs = cs := by
  rw [trim, trimStart_eq_self hfirst, trimEnd_eq_self hlast]

theorem trim_of_forall (h : ∀ c ∈ cs, isBlank c = false) : trim cs = cs :=
  trim_eq_self (fun c hc ↦ h c (List.mem_of_head? hc)) fun c hc ↦ h c (List.mem_of_getLast? hc)

theorem trim_cons (h : isBlank c = true) : trim (c :: cs) = trim cs := by
  rw [trim, trimStart, List.dropWhile_cons_of_pos h]
  rfl

theorem trimEnd_concat (h : isBlank c = true) : trimEnd (cs ++ [c]) = trimEnd cs := by
  rw [trimEnd, trimEnd, List.reverse_append, List.reverse_singleton, List.singleton_append,
    List.dropWhile_cons_of_pos h]

theorem trim_concat (h : isBlank c = true) : trim (cs ++ [c]) = trim cs := by
  rw [trim, trim, trimStart, trimStart, List.dropWhile_append]
  split
  · rename_i hnil
    rw [List.isEmpty_iff.mp hnil, List.dropWhile_cons_of_pos h, List.dropWhile_nil]
  · exact trimEnd_concat h

end Text

namespace Declaration

open Text

variable {c d : Char} {name rest : List Char}

/-! ## Names -/

/-- The code points of the blanks. -/
def blankCodes : List Nat :=
  [0x9, 0xA, 0xB, 0xC, 0xD, 0x20, 0x85, 0xA0, 0x1680, 0x2000, 0x2001, 0x2002, 0x2003, 0x2004,
    0x2005, 0x2006, 0x2007, 0x2008, 0x2009, 0x200A, 0x2028, 0x2029, 0x202F, 0x205F, 0x3000]

theorem toNat_mem_blankCodes (h : isBlank c = true) : c.toNat ∈ blankCodes := by
  simp only [isBlank, Bool.or_eq_true, Bool.and_eq_true, decide_eq_true_eq, beq_iff_eq] at h
  simp only [blankCodes, List.mem_cons, List.not_mem_nil, or_false]
  omega

theorem isBlank_of_continuesName (h : continuesName c = true) : isBlank c = false := by
  refine Bool.eq_false_iff.mpr fun hblank ↦ ?_
  have hcodes : ∀ n ∈ blankCodes, continuesName (Char.ofNat n) = false := by decide +kernel
  have hc := hcodes c.toNat (toNat_mem_blankCodes hblank)
  rw [Char.ofNat_toNat, h] at hc
  cases hc

theorem ne_of_continuesName (hc : continuesName c = true) (hd : continuesName d = false) :
    c ≠ d := by
  rintro rfl
  rw [hc] at hd
  cases hd

theorem continuesName_of_startsName (h : startsName c = true) : continuesName c = true := by
  rw [continuesName, h, Bool.true_or, Bool.true_or]

theorem isName_cons_iff : isName (c :: rest) = true ↔ startsName c = true ∧
    ∀ d ∈ rest, continuesName d = true := by
  rw [isName, takeName?, ← List.dropWhile_eq_nil_iff]
  by_cases hc : startsName c = true
  · rw [if_pos hc, and_iff_right hc]
    cases rest.dropWhile continuesName <;> simp
  · simp [hc]

theorem exists_cons_of_isName (h : isName name = true) : ∃ c cs, name = c :: cs ∧
    startsName c = true ∧ ∀ d ∈ cs, continuesName d = true := by
  cases name with
  | nil => cases h
  | cons c cs => exact ⟨c, cs, rfl, isName_cons_iff.mp h⟩

theorem continuesName_of_mem (h : isName name = true) (hc : c ∈ name) : continuesName c = true := by
  obtain ⟨first, cs, rfl, hfirst, hcs⟩ := exists_cons_of_isName h
  rcases List.mem_cons.mp hc with rfl | hc
  · exact continuesName_of_startsName hfirst
  · exact hcs c hc

/-- A name is taken as a whole if what follows cannot go on with it. -/
theorem takeName?_append (h : isName name = true)
    (hrest : ∀ c, rest.head? = some c → continuesName c = false) :
    takeName? (name ++ rest) = some (name, rest) := by
  obtain ⟨c, cs, rfl, hc, hcs⟩ := exists_cons_of_isName h
  have htake : rest.takeWhile continuesName = [] ∧ rest.dropWhile continuesName = rest := by
    cases rest with
    | nil => exact ⟨rfl, rfl⟩
    | cons d rest =>
      have hd : ¬continuesName d = true := by simp [hrest d rfl]
      exact ⟨List.takeWhile_cons_of_neg hd, List.dropWhile_cons_of_neg hd⟩
  rw [List.cons_append, takeName?, if_pos hc, List.takeWhile_append_of_pos hcs,
    List.dropWhile_append_of_pos hcs, htake.1, htake.2, List.append_nil]

theorem isBlank_of_mem (h : isName name = true) (hc : c ∈ name) : isBlank c = false :=
  isBlank_of_continuesName (continuesName_of_mem h hc)

theorem head?_ne_of_isName (h : isName name = true) (hd : startsName d = false) :
    name.head? ≠ some d := by
  obtain ⟨c, cs, rfl, hc, -⟩ := exists_cons_of_isName h
  rintro ⟨⟩
  rw [hc] at hd
  cases hd

/-! ## Arguments -/

/-- Texts with commas and blanks in between. -/
def joined (args : List (List Char)) : List Char :=
  [',', ' '].intercalate args

/-- What can be an argument: a text without blanks and commas. -/
def IsArgument (arg : List Char) : Prop :=
  arg ≠ [] ∧ ∀ c ∈ arg, c ≠ ',' ∧ isBlank c = false

theorem joined_cons (arg : List Char) (args : List (List Char)) :
    joined (arg :: args) = arg ++ args.flatMap fun a ↦ ',' :: ' ' :: a := by
  induction args generalizing arg with
  | nil => simp [joined]
  | cons a args ih =>
    rw [joined, List.intercalate_cons_cons, ← joined, ih, List.flatMap_cons, List.append_assoc]
    rfl

/-- **Joined arguments** are cut apart again. -/
theorem arguments_joined {args : List (List Char)} (h : ∀ arg ∈ args, IsArgument arg) :
    arguments (joined args) = args := by
  cases args with
  | nil => rfl
  | cons arg args =>
    obtain ⟨⟨hne, harg⟩, hargs⟩ := List.forall_mem_cons.mp h
    obtain ⟨c, hc⟩ := List.exists_mem_of_ne_nil arg hne
    have hmem : c ∈ trim (joined (arg :: args)) :=
      mem_trim (joined_cons arg args ▸ List.mem_append_left _ hc) (harg c hc).2
    have hnil : ¬(trim (joined (arg :: args))).isEmpty = true := fun hnil ↦
      List.ne_nil_of_mem hmem (List.isEmpty_iff.mp hnil)
    have hfields : fields ',' (joined (arg :: args)) = arg :: args.map (' ' :: ·) := by
      rw [joined_cons]
      refine fieldsBy_append_flatMap (fun c hc ↦ beq_false_of_ne (harg c hc).1)
        fun a ha ↦ ⟨beq_self_eq_true ',', ?_⟩
      exact List.forall_mem_cons.mpr ⟨rfl, fun c hc ↦ beq_false_of_ne ((hargs a ha).2 c hc).1⟩
    have htrim : (args.map (' ' :: ·)).map trim = args := by
      rw [List.map_map]
      refine (List.map_congr_left fun a ha ↦ ?_).trans (List.map_id args)
      exact (trim_cons rfl).trans (trim_of_forall fun c hc ↦ ((hargs a ha).2 c hc).2)
    rw [arguments, if_neg hnil, hfields, List.map_cons, htrim,
      trim_of_forall fun c hc ↦ (harg c hc).2]

/-! ## Literals -/

def literalText (negated : Bool) (predicate : List Char) (args : List (List Char)) : List Char :=
  (if negated then ['-'] else []) ++ predicate ++ '(' :: joined args ++ [')']

theorem mem_literalText {negated : Bool} {predicate : List Char} {args : List (List Char)}
    (h : c ∈ literalText negated predicate args) :
    c ∈ predicate ∨ (∃ arg ∈ args, c ∈ arg) ∨ c ∈ ['-', '(', ')', ',', ' '] := by
  have hjoined : c ∈ joined args → (∃ arg ∈ args, c ∈ arg) ∨ c ∈ ['-', '(', ')', ',', ' '] := by
    cases args with
    | nil => nofun
    | cons arg args =>
      intro hc
      rw [joined_cons, List.mem_append, List.mem_flatMap] at hc
      rcases hc with hc | ⟨a, ha, hc⟩
      · exact .inl ⟨arg, List.mem_cons_self, hc⟩
      · rcases List.mem_cons.mp hc with rfl | hc
        · exact .inr (by decide)
        · rcases List.mem_cons.mp hc with rfl | hc
          · exact .inr (by decide)
          · exact .inl ⟨a, List.mem_cons_of_mem _ ha, hc⟩
  simp only [literalText, List.mem_append, List.mem_cons, List.not_mem_nil, or_false] at h
  rcases h with ((h | h) | rfl | h) | rfl
  · cases negated with
    | true =>
      obtain rfl := List.mem_singleton.mp h
      exact .inr (.inr (by decide))
    | false => cases h
  · exact .inl h
  · exact .inr (.inr (by decide))
  · exact .inr (hjoined h)
  · exact .inr (.inr (by decide))

theorem trim_literalText {negated : Bool} {predicate : List Char} {args : List (List Char)}
    (h : isName predicate = true) :
    trim (literalText negated predicate args) = literalText negated predicate args := by
  refine trim_eq_self ?_ fun d hd ↦ ?_
  · obtain ⟨c, cs, rfl, hc, -⟩ := exists_cons_of_isName h
    cases negated with
    | true =>
      rintro _ ⟨⟩
      rfl
    | false =>
      rintro _ ⟨⟩
      exact isBlank_of_continuesName (continuesName_of_startsName hc)
  · rw [literalText, List.getLast?_concat] at hd
    obtain rfl := Option.some.inj hd
    rfl

theorem closed?_concat (body : List Char) : closed? (body ++ [')']) = some body := by
  rw [closed?, List.reverse_append, List.reverse_singleton, List.singleton_append]
  exact congrArg some (List.reverse_reverse body)

theorem literalBody?_cons (body : List Char) :
    literalBody? ('(' :: (body ++ [')'])) = some body := by
  have htrim : trimStart ('(' :: (body ++ [')'])) = '(' :: (body ++ [')']) := by
    refine trimStart_eq_self ?_
    rintro _ ⟨⟩
    rfl
  rw [literalBody?, htrim]
  exact closed?_concat body

/-- **A written literal** falls into its pieces. -/
theorem literalShape?_literalText {negated : Bool} {predicate : List Char} {args : List (List Char)}
    (h : isName predicate = true) : literalShape? (literalText negated predicate args) =
      some ⟨negated, predicate, joined args⟩ := by
  have htake : takeName? (predicate ++ '(' :: (joined args ++ [')'])) = _ :=
    takeName?_append h (by rintro _ ⟨⟩; rfl)
  have htrim : trimStart (predicate ++ '(' :: (joined args ++ [')'])) =
      predicate ++ '(' :: (joined args ++ [')']) := by
    obtain ⟨c, cs, rfl, hc, -⟩ := exists_cons_of_isName h
    refine trimStart_eq_self ?_
    rintro _ ⟨⟩
    exact isBlank_of_continuesName (continuesName_of_startsName hc)
  cases negated with
  | true =>
    have htext : literalText true predicate args =
        '-' :: (predicate ++ '(' :: (joined args ++ [')'])) := by simp [literalText]
    rw [htext, literalShape?]
    dsimp only
    rw [htrim, htake]
    simp [literalBody?_cons]
  | false =>
    have htext : literalText false predicate args =
        predicate ++ '(' :: (joined args ++ [')']) := by simp [literalText]
    obtain ⟨c, cs, rfl, hc, -⟩ := exists_cons_of_isName h
    have hminus : c ≠ '-' := by
      rintro rfl
      cases hc
    rw [htext, literalShape?, htrim, htake]
    · simp [literalBody?_cons]
    · exact fun rest he ↦ hminus (List.cons.inj he).1

/-! ## Declarations -/

def declarationText (keyword body : List Char) : List Char :=
  keyword ++ '(' :: (body ++ [')', '.'])

/-- A word of small letters. -/
def IsKeyword (keyword : List Char) : Prop :=
  keyword ≠ [] ∧ ∀ c ∈ keyword, isSmallLetter c = true

instance {keyword : List Char} : Decidable (IsKeyword keyword) :=
  decidable_of_iff (keyword ≠ [] ∧ keyword.all isSmallLetter = true)
    (by rw [IsKeyword, List.all_eq_true])

theorem isBlank_of_isSmallLetter (h : isSmallLetter c = true) : isBlank c = false := by
  have halpha : c.isAlpha = true := (Bool.or_eq_true c.isUpper c.isLower).mpr (.inr h)
  refine isBlank_of_continuesName (continuesName_of_startsName ?_)
  rw [startsName, halpha, Bool.or_true]

theorem declarationBody?_cons (body : List Char) :
    declarationBody? ('(' :: (body ++ [')', '.'])) = some body := by
  have htrim : trimStart ('(' :: (body ++ [')', '.'])) = '(' :: (body ++ [')', '.']) := by
    refine trimStart_eq_self ?_
    rintro _ ⟨⟩
    rfl
  have hreverse : (body ++ [')', '.']).reverse = '.' :: ')' :: body.reverse := by simp
  have htrimEnd : trimEnd (')' :: body.reverse).reverse = body ++ [')'] := by
    rw [List.reverse_cons, List.reverse_reverse]
    refine trimEnd_eq_self fun c hc ↦ ?_
    rw [List.getLast?_concat] at hc
    obtain rfl := Option.some.inj hc
    rfl
  simp only [declarationBody?, htrim, hreverse]
  exact (congrArg closed? htrimEnd).trans (closed?_concat body)

/-- **A written declaration** falls into its pieces. -/
theorem shape?_declarationText {keyword body : List Char} (h : IsKeyword keyword) :
    shape? (declarationText keyword body) = some ⟨keyword, body⟩ := by
  have hparen : ¬isSmallLetter '(' = true := by decide
  rw [declarationText, shape?, List.takeWhile_append_of_pos h.2, List.dropWhile_append_of_pos h.2,
    List.takeWhile_cons_of_neg hparen, List.dropWhile_cons_of_neg hparen, List.append_nil,
    declarationBody?_cons]
  cases keyword with
  | nil => exact absurd rfl h.1
  | cons c cs => rfl

theorem not_mem_declarationText {keyword body : List Char} (h : IsKeyword keyword)
    (hbody : d ∉ body) (hletter : isSmallLetter d = false) (hmark : d ∉ ['(', ')', '.']) :
    d ∉ declarationText keyword body := by
  have hkeyword : d ∉ keyword := fun hd ↦ by
    rw [h.2 d hd] at hletter
    cases hletter
  simp only [List.mem_cons, List.not_mem_nil, or_false, not_or] at hmark
  simp [declarationText, hkeyword, hbody, hmark]

theorem content_declarationText {keyword body : List Char} (h : IsKeyword keyword)
    (hbody : '%' ∉ body) :
    content (declarationText keyword body) = declarationText keyword body := by
  have hplain : ∀ d ∈ declarationText keyword body, decide (d ≠ '%') = true := fun d hd ↦
    decide_eq_true fun he ↦ not_mem_declarationText h hbody (by decide) (by decide) (he ▸ hd)
  rw [content, List.takeWhile_eq_self_iff.mpr hplain]
  obtain ⟨c, cs, rfl⟩ := List.exists_cons_of_ne_nil h.1
  refine trim_eq_self ?_ fun d hd ↦ ?_
  · rintro _ ⟨⟩
    exact isBlank_of_isSmallLetter (h.2 c List.mem_cons_self)
  · have hlast : (declarationText (c :: cs) body).getLast? = some '.' := by
      rw [declarationText, List.getLast?_append]
      simp [List.getLast?_cons]
    rw [hlast] at hd
    obtain rfl := Option.some.inj hd
    rfl

theorem splitAtComma?_append {name formula : List Char} (h : ',' ∉ name) :
    splitAtComma? (name ++ ',' :: formula) = some (name, formula) := by
  have hname : ∀ c ∈ name, decide (c ≠ ',') = true := fun c hc ↦
    decide_eq_true fun he ↦ h (he ▸ hc)
  rw [splitAtComma?, List.dropWhile_append_of_pos hname, List.takeWhile_append_of_pos hname]
  simp

end Declaration

end LiftedPlanning
