import Mathlib.Data.List.Forall2

/-!
# Runs of fallible steps

Lists are treated item by item in `Except` and in `Option`, and the first failure ends the run. A
run succeeds exactly if every step does, so a successful run is a list of results beside the list of
items.
-/

namespace LiftedPlanning.Fallible

variable {ε α β σ : Type}

/-! ## Sequences of two steps -/

theorem bind_eq_ok_iff {x : Except ε α} {f : α → Except ε β} {b : β} :
    x >>= f = .ok b ↔ ∃ a, x = .ok a ∧ f a = .ok b := by
  cases x with
  | error e => simp [bind, Except.bind]
  | ok a => simp [bind, Except.bind]

/-- A check before a step has to succeed, and says nothing else. -/
theorem check_bind_eq_ok_iff {x : Except ε Unit} {f : Unit → Except ε β} {b : β} :
    x >>= f = .ok b ↔ x = .ok () ∧ f () = .ok b := by
  rw [bind_eq_ok_iff, Unique.exists_iff]

theorem map_eq_ok_iff {x : Except ε α} {f : α → β} {b : β} :
    x.map f = .ok b ↔ ∃ a, x = .ok a ∧ f a = b := by
  cases x <;> simp [Except.map]

theorem mapError_eq_ok_iff {x : Except ε α} {f : ε → β} {a : α} :
    x.mapError f = .ok a ↔ x = .ok a := by
  cases x <;> simp [Except.mapError]

theorem eq_ok_get {x : Except ε α} (h : x.toOption.isSome = true) : x = .ok (x.toOption.get h) := by
  cases x with
  | error e => cases h
  | ok a => rfl

theorem exists_eq_error_iff {x : Except ε α} : (∃ e, x = .error e) ↔ ¬∃ a, x = .ok a := by
  cases x <;> simp

/-! ## Lists -/

theorem mapM_eq_ok_iff {f : α → Except ε β} {xs : List α} {ys : List β} :
    xs.mapM f = .ok ys ↔ List.Forall₂ (fun x y ↦ f x = .ok y) xs ys := by
  induction xs generalizing ys with
  | nil => simp [pure, Except.pure, eq_comm]
  | cons x xs ih =>
    rw [List.mapM_cons, bind_eq_ok_iff, List.forall₂_cons_left_iff]
    constructor
    · rintro ⟨y, hy, h⟩
      obtain ⟨zs, hzs, rfl⟩ := bind_eq_ok_iff.mp h |>.imp fun zs h ↦ h.imp id Except.ok.inj
      exact ⟨y, zs, hy, ih.mp hzs, rfl⟩
    · rintro ⟨y, zs, hy, hzs, rfl⟩
      exact ⟨y, hy, bind_eq_ok_iff.mpr ⟨zs, ih.mpr hzs, rfl⟩⟩

theorem mapM_eq_some_iff {f : α → Option β} {xs : List α} {ys : List β} :
    xs.mapM f = some ys ↔ List.Forall₂ (fun x y ↦ f x = some y) xs ys := by
  induction xs generalizing ys with
  | nil => simp [eq_comm]
  | cons x xs ih =>
    rw [List.mapM_cons, List.forall₂_cons_left_iff]
    simp only [Option.bind_eq_bind, Option.bind_eq_some_iff, ih, Option.pure_def, Option.some.injEq]
    constructor
    · rintro ⟨y, hy, zs, hzs, rfl⟩
      exact ⟨y, zs, hy, hzs, rfl⟩
    · rintro ⟨y, zs, hy, hzs, rfl⟩
      exact ⟨y, hy, zs, hzs, rfl⟩

/-- If a step first reads its input and then takes it in, then so does the run. -/
theorem foldlM_eq_ok_iff {σ : Type} {f : σ → α → Except ε σ} {g : α → Option β}
    {h : σ → β → Option σ} (hstep : ∀ s x t, f s x = .ok t ↔ ∃ y, g x = some y ∧ h s y = some t)
    {xs : List α} {s t : σ} :
    xs.foldlM f s = .ok t ↔ ∃ ys, xs.mapM g = some ys ∧ ys.foldlM h s = some t := by
  induction xs generalizing s with
  | nil => simp [pure, Except.pure]
  | cons x xs ih =>
    simp only [List.foldlM_cons, List.mapM_cons, bind_eq_ok_iff, hstep, ih, Option.bind_eq_bind,
      Option.bind_eq_some_iff, Option.pure_def, Option.some.injEq]
    constructor
    · rintro ⟨u, ⟨y, hy, hu⟩, ys, hys, ht⟩
      exact ⟨y :: ys, ⟨y, hy, ys, hys, rfl⟩, Option.bind_eq_some_iff.mpr ⟨u, hu, ht⟩⟩
    · rintro ⟨_, ⟨y, hy, ys, hys, rfl⟩, ht⟩
      obtain ⟨u, hu, ht⟩ := Option.bind_eq_some_iff.mp ht
      exact ⟨u, ⟨y, hy, hu⟩, ys, hys, ht⟩

theorem foldlM_flatten {σ : Type} {h : σ → α → Option σ} {xss : List (List α)} {s : σ} :
    xss.flatten.foldlM h s = xss.foldlM (fun s xs ↦ xs.foldlM h s) s := by
  induction xss generalizing s with
  | nil => rfl
  | cons xs xss ih => simp only [List.flatten_cons, List.foldlM_append, List.foldlM_cons, ih]

/-- Where a step succeeds on a condition and its result is known, so is the result of the run. -/
theorem mapM_eq_ok_map_iff {f : α → Except ε β} {q : α → Prop} {g : α → β} {xs : List α}
    (h : ∀ x ∈ xs, ∀ y, f x = .ok y ↔ q x ∧ y = g x) {ys : List β} :
    xs.mapM f = .ok ys ↔ (∀ x ∈ xs, q x) ∧ ys = xs.map g := by
  rw [mapM_eq_ok_iff]
  induction xs generalizing ys with
  | nil => simp
  | cons x xs ih =>
    simp only [List.forall₂_cons_left_iff, h x List.mem_cons_self,
      ih fun z hz ↦ h z (List.mem_cons_of_mem x hz), List.forall_mem_cons, List.map_cons]
    constructor
    · rintro ⟨_, _, ⟨hx, rfl⟩, ⟨hxs, rfl⟩, rfl⟩
      exact ⟨⟨hx, hxs⟩, rfl⟩
    · rintro ⟨⟨hx, hxs⟩, rfl⟩
      exact ⟨_, _, ⟨hx, rfl⟩, ⟨hxs, rfl⟩, rfl⟩

theorem mapM_eq_ok_map {f : α → Except ε β} {g : α → β} {xs : List α}
    (h : ∀ x ∈ xs, f x = .ok (g x)) : xs.mapM f = .ok (xs.map g) := by
  refine (mapM_eq_ok_map_iff (q := fun _ ↦ True) fun x hx y ↦ ?_).mpr ⟨fun _ _ ↦ trivial, rfl⟩
  rw [h x hx]
  simp [eq_comm]

theorem mapM_flatten_eq_ok {f : α → Except ε (List β)} {g : α → List β} {xs : List α}
    (h : ∀ x ∈ xs, f x = .ok (g x)) :
    (do
      let yss ← xs.mapM f
      return yss.flatten) = Except.ok (xs.flatMap g) := by
  rw [mapM_eq_ok_map h, List.flatMap_def]
  rfl

/-- If each step of one run ends as that of another one, up to its results and failures, then so do
the runs. -/
theorem mapM_eq_mapError_map {γ ε' : Type} {f : α → Except ε' γ} {g : α → Except ε β} {k : β → γ}
    {e : ε → ε'} {xs : List α} (h : ∀ x ∈ xs, f x = ((g x).map k).mapError e) :
    xs.mapM f = ((xs.mapM g).map (List.map k)).mapError e := by
  induction xs with
  | nil => rfl
  | cons x xs ih =>
    rw [List.mapM_cons, List.mapM_cons, h x List.mem_cons_self,
      ih fun y hy ↦ h y (List.mem_cons_of_mem x hy)]
    cases g x <;> cases xs.mapM g <;> rfl

theorem mapM_congr {μ : Type → Type} [Monad μ] [LawfulMonad μ] {f g : α → μ β} {xs : List α}
    (h : ∀ x ∈ xs, f x = g x) : xs.mapM f = xs.mapM g := by
  induction xs with
  | nil => rfl
  | cons x xs ih =>
    rw [List.mapM_cons, List.mapM_cons, h x List.mem_cons_self,
      ih fun y hy ↦ h y (List.mem_cons_of_mem x hy)]

theorem mapM_eq_pure_map {μ : Type → Type} [Monad μ] [LawfulMonad μ] {f : α → μ β} {g : α → β}
    {xs : List α} (h : ∀ x ∈ xs, f x = pure (g x)) : xs.mapM f = pure (xs.map g) :=
  (mapM_congr h).trans List.mapM_pure

theorem exists_forall₂ {r : α → β → Prop} {xs : List α} (h : ∀ x ∈ xs, ∃ y, r x y) :
    ∃ ys, List.Forall₂ r xs ys := by
  induction xs with
  | nil => exact ⟨[], .nil⟩
  | cons x xs ih =>
    obtain ⟨y, hy⟩ := h x List.mem_cons_self
    obtain ⟨ys, hys⟩ := ih fun z hz ↦ h z (List.mem_cons_of_mem x hz)
    exact ⟨y :: ys, .cons hy hys⟩

theorem exists_mapM_eq_ok {f : α → Except ε β} {xs : List α} (h : ∀ x ∈ xs, ∃ y, f x = .ok y) :
    ∃ ys, xs.mapM f = .ok ys := by
  simpa only [mapM_eq_ok_iff] using exists_forall₂ h

theorem exists_mapM_eq_some {f : α → Option β} {xs : List α} (h : ∀ x ∈ xs, ∃ y, f x = some y) :
    ∃ ys, xs.mapM f = some ys := by
  simpa only [mapM_eq_some_iff] using exists_forall₂ h

theorem mapM_eq_some_filterMap {f : α → Option β} {xs : List α}
    (h : ∀ x ∈ xs, ∃ y, f x = some y) : xs.mapM f = some (xs.filterMap f) := by
  induction xs with
  | nil => rfl
  | cons x xs ih =>
    obtain ⟨⟨y, hy⟩, hxs⟩ := List.forall_mem_cons.mp h
    rw [List.mapM_cons, hy, ih hxs, List.filterMap_cons_some hy]
    rfl

/-- A test of all items stops at the first one that fails it, or that cannot be tested. -/
theorem allM_eq_some_all {f : α → Option β} {q : β → Bool} {xs : List α}
    (h : ∀ x ∈ xs, ∃ y, f x = some y) :
    (xs.allM fun x ↦ (f x).map q) = some ((xs.filterMap f).all q) := by
  induction xs with
  | nil => rfl
  | cons x xs ih =>
    obtain ⟨⟨y, hy⟩, hxs⟩ := List.forall_mem_cons.mp h
    rw [List.allM, hy, List.filterMap_cons_some hy, List.all_cons]
    cases hq : q y with
    | false => simp [hq]
    | true => simpa [hq] using ih hxs

theorem forM_eq_ok_iff {f : α → Except ε Unit} {xs : List α} :
    xs.forM f = .ok () ↔ ∀ x ∈ xs, f x = .ok () := by
  rw [List.forM_eq_forM]
  induction xs with
  | nil => simp [pure, Except.pure]
  | cons x xs ih =>
    rw [List.forM_cons, bind_eq_ok_iff, List.forall_mem_cons, ← ih]
    exact ⟨fun ⟨_, hx, hxs⟩ ↦ ⟨hx, hxs⟩, fun ⟨hx, hxs⟩ ↦ ⟨(), hx, hxs⟩⟩

/-! ## Members on the two sides of a run -/

theorem exists_right {r : α → β → Prop} {xs : List α} {ys : List β} (h : List.Forall₂ r xs ys)
    {x : α} (hx : x ∈ xs) : ∃ y ∈ ys, r x y := by
  induction h with
  | nil => simp at hx
  | cons hr _ ih =>
    rcases List.mem_cons.mp hx with rfl | hx
    · exact ⟨_, List.mem_cons_self, hr⟩
    · obtain ⟨y, hy, hr⟩ := ih hx
      exact ⟨y, List.mem_cons_of_mem _ hy, hr⟩

theorem exists_left {r : α → β → Prop} {xs : List α} {ys : List β} (h : List.Forall₂ r xs ys)
    {y : β} (hy : y ∈ ys) : ∃ x ∈ xs, r x y :=
  exists_right h.flip hy

theorem forall₂_imp_left {r s : α → β → Prop} {xs : List α} {ys : List β}
    (h : ∀ x ∈ xs, ∀ y, r x y → s x y) (hr : List.Forall₂ r xs ys) : List.Forall₂ s xs ys :=
  ((List.forall₂_and_left _ _).mpr ⟨h, hr⟩).imp fun _ y hxy ↦ hxy.1 y hxy.2

theorem forall₂_congr_left {r s : α → β → Prop} {xs : List α} {ys : List β}
    (h : ∀ x ∈ xs, ∀ y, r x y ↔ s x y) : List.Forall₂ r xs ys ↔ List.Forall₂ s xs ys := by
  induction xs generalizing ys with
  | nil => simp
  | cons x xs ih =>
    simp only [List.forall₂_cons_left_iff, h x List.mem_cons_self,
      ih fun z hz ↦ h z (List.mem_cons_of_mem x hz)]

theorem eqOn_of_mapM {f g : α → Option β} {xs : List α} {ys : List β} (hf : xs.mapM f = some ys)
    (hg : xs.mapM g = some ys) : ∀ x ∈ xs, f x = g x := by
  have h : List.Forall₂ (fun x _ ↦ f x = g x) xs ys :=
    (mapM_eq_some_iff.mp hf).mp (fun _ _ hx hy ↦ hx.trans hy.symm) (mapM_eq_some_iff.mp hg)
  intro x hx
  obtain ⟨_, _, heq⟩ := exists_right h hx
  exact heq

theorem forall₂_range_iff {r : Nat → α → Prop} {n : Nat} {xs : List α} :
    List.Forall₂ r (List.range n) xs ↔ xs.length = n ∧ ∀ i x, xs[i]? = some x → r i x := by
  simp only [List.forall₂_iff_get, List.length_range, List.getElem?_eq_some_iff,
    List.get_eq_getElem, List.getElem_range]
  constructor
  · rintro ⟨hn, h⟩
    refine ⟨hn.symm, ?_⟩
    rintro i _ ⟨hi, rfl⟩
    exact h i (hn ▸ hi) hi
  · rintro ⟨hn, h⟩
    exact ⟨hn.symm, fun i _ hi ↦ h i _ ⟨hi, rfl⟩⟩

/-! ## Postconditions

What holds after a fallible step, whichever way it ends. The postcondition of a sequence comes from
those of its steps. -/

/-- A result satisfies `ok`, a failure satisfies `err`. -/
def Meets (x : Except ε α) (ok : α → Prop) (err : ε → Prop) : Prop :=
  match x with
  | .ok a => ok a
  | .error e => err e

namespace Meets

variable {ok ok' : α → Prop} {err : ε → Prop} {x : Except ε α}

theorem of_ok (h : Meets x ok err) {a : α} (ha : x = .ok a) : ok a := by
  rwa [ha] at h

theorem of_error (h : Meets x ok err) {e : ε} (he : x = .error e) : err e := by
  rwa [he] at h

theorem of_eq_ok (hok : ∀ a, x = .ok a → ok a) (herr : ∀ e, err e) : Meets x ok err := by
  cases x with
  | ok a => exact hok a rfl
  | error e => exact herr e

theorem mono (h : Meets x ok err) (hok : ∀ a, ok a → ok' a) : Meets x ok' err := by
  cases x with
  | ok a => exact hok a h
  | error e => exact h

/-- What is known of the result may be used for its postcondition. -/
theorem and_eq (h : Meets x ok err) : Meets x (fun a ↦ x = .ok a ∧ ok a) err := by
  cases x with
  | ok a => exact ⟨rfl, h⟩
  | error e => exact h

theorem bind {okb : β → Prop} {f : α → Except ε β} (h : Meets x ok err)
    (hf : ∀ a, ok a → Meets (f a) okb err) : Meets (x >>= f) okb err := by
  cases x with
  | ok a => exact hf a h
  | error e => exact h

theorem map {okb : β → Prop} {f : α → β} (h : Meets x (fun a ↦ okb (f a)) err) :
    Meets (x.map f) okb err := by
  cases x with
  | ok a => exact h
  | error e => exact h

theorem mapError {errb : β → Prop} {f : ε → β} (h : Meets x ok fun e ↦ errb (f e)) :
    Meets (x.mapError f) ok errb := by
  cases x with
  | ok a => exact h
  | error e => exact h

theorem mapM {okb : α → β → Prop} {f : α → Except ε β} {xs : List α}
    (h : ∀ a ∈ xs, Meets (f a) (okb a) err) : Meets (xs.mapM f) (List.Forall₂ okb xs) err := by
  induction xs with
  | nil => exact .nil
  | cons a xs ih =>
    rw [List.forall_mem_cons] at h
    rw [List.mapM_cons]
    refine h.1.bind fun b hb ↦ (ih h.2).bind fun bs hbs ↦ ?_
    exact .cons hb hbs

theorem forM {f : α → Except ε Unit} {okb : α → Prop} {xs : List α}
    (h : ∀ a ∈ xs, Meets (f a) (fun _ ↦ okb a) err) :
    Meets (xs.forM f) (fun _ ↦ ∀ a ∈ xs, okb a) err := by
  rw [List.forM_eq_forM]
  induction xs with
  | nil => exact List.forall_mem_nil _
  | cons a xs ih =>
    rw [List.forall_mem_cons] at h
    rw [List.forM_cons]
    exact h.1.bind fun _ ha ↦ (ih h.2).mono fun _ has ↦ List.forall_mem_cons.mpr ⟨ha, has⟩

end Meets

end LiftedPlanning.Fallible
