import LiftedPlanning.CommandLine.Memory
import LiftedPlanning.CommandLine.Run

/-!
# Commands in memory

A command that is run on a machine in memory ends with a result or a failure, and leaves the machine
behind. Until they deliver what they have found out, the commands only add messages and look at the
clock: the files and the printed text stay as they are.

What a run without failure did is read off its steps, one inversion for each of them.
-/

namespace LiftedPlanning.CommandLine

variable {α β : Type} {m m' : Memory} {u : Unit}

def exec (x : Attempt (StateM Memory) α) (m : Memory) : Except Failure α × Memory :=
  StateT.run (ExceptT.run x) m

/-- At most the messages and the time are different. -/
def Memory.Agrees (m m' : Memory) : Prop :=
  ∃ messages time, m' = { m with messages, time }

theorem Memory.Agrees.refl (m : Memory) : m.Agrees m :=
  ⟨m.messages, m.time, rfl⟩

theorem Memory.Agrees.trans {m'' : Memory} (h : m.Agrees m') (h' : m'.Agrees m'') :
    m.Agrees m'' := by
  obtain ⟨_, _, rfl⟩ := h
  obtain ⟨messages, time, rfl⟩ := h'
  exact ⟨messages, time, rfl⟩

namespace Memory.Agrees

variable (h : m.Agrees m')
include h

theorem walk_eq (place : Place) (entry : Entry) (names : List String) :
    m'.walk place entry names = m.walk place entry names := by
  obtain ⟨messages, time, rfl⟩ := h
  induction names generalizing place entry with
  | nil => simp only [walk]
  | cons name names ih =>
    cases entry with
    | directory =>
      simp only [walk, ih]
      rfl
    | _ => rfl

theorem fetch_eq (path : String) : m'.fetch path = m.fetch path := by
  have hresolve : m'.resolve path = m.resolve path := by
    rw [resolve, walkPath, h.walk_eq]
    obtain ⟨_, _, rfl⟩ := h
    rfl
  rw [fetch, fetch, hresolve]

end Memory.Agrees

/-! ## Steps -/

theorem run_bind (x : StateM Memory α) (f : α → StateM Memory β) (m : Memory) :
    (x >>= f).run m = (f (x.run m).1).run (x.run m).2 :=
  rfl

theorem exec_bind (x : Attempt (StateM Memory) α) (f : α → Attempt (StateM Memory) β)
    (m : Memory) :
    exec (x >>= f) m = match exec x m with
      | (.ok a, m₁) => exec (f a) m₁
      | (.error e, m₁) => (.error e, m₁) := by
  change (match exec x m with
    | (a, m₁) => StateT.run (ExceptT.bindCont f a) m₁) = _
  rcases exec x m with ⟨_ | _, _⟩ <;> rfl

@[simp]
theorem exec_bind_eq_ok_iff {x : Attempt (StateM Memory) α} {f : α → Attempt (StateM Memory) β}
    {b : β} :
    exec (x >>= f) m = (.ok b, m') ↔
      ∃ a m₁, exec x m = (.ok a, m₁) ∧ exec (f a) m₁ = (.ok b, m') := by
  rw [exec_bind]
  rcases exec x m with ⟨e | a, m₁⟩
  · simp
  · constructor
    · exact fun h ↦ ⟨a, m₁, rfl, h⟩
    · rintro ⟨_, _, hx, h⟩
      obtain ⟨ha, rfl⟩ := Prod.mk.inj hx
      rwa [Except.ok.inj ha]

@[simp]
theorem exec_pure_eq_ok_iff {a b : α} : exec (pure a) m = (.ok b, m') ↔ a = b ∧ m = m' := by
  change (Except.ok a, m) = (.ok b, m') ↔ _
  simp

@[simp]
theorem exec_throw_ne_ok {e : Failure} {a : α} : exec (throw e) m ≠ (.ok a, m') :=
  fun h ↦ nomatch (Prod.mk.inj h).1

@[simp]
theorem exec_discard_eq_ok_iff {x : Attempt (StateM Memory) α} :
    exec (discard x) m = (.ok u, m') ↔ ∃ a, exec x m = (.ok a, m') := by
  change exec (x >>= fun _ ↦ pure ()) m = _ ↔ _
  rw [exec_bind_eq_ok_iff]
  simp

@[simp]
theorem exec_attempt_eq_ok_iff {ε : Type} [Explained ε] {x : Except ε α} {a : α} :
    exec (attempt x) m = (.ok a, m') ↔ x = .ok a ∧ m = m' := by
  cases x with
  | ok b => simp [attempt]
  | error e => simp [attempt]

@[simp]
theorem exec_attemptWhile_eq_ok_iff {activity : String} {x : Except FileError α} {a : α} :
    exec (attemptWhile activity x) m = (.ok a, m') ↔ x = .ok a ∧ m = m' := by
  cases x with
  | ok b => simp [attemptWhile]
  | error e => simp [attemptWhile]

theorem exec_lift_eq_ok_iff {x : StateM Memory α} {a : α} :
    exec (liftM x) m = (.ok a, m') ↔ x.run m = (a, m') := by
  change ((Except.ok (x.run m).1, (x.run m).2) : Except Failure α × Memory) = (.ok a, m') ↔ _
  rw [Prod.mk.injEq, Except.ok.injEq, Prod.ext_iff]

variable {threshold : Threshold}

@[simp]
theorem exec_locate_eq_ok_iff {path : String} {a : Except FileError String} :
    exec (liftM ((Memory.host.filtered threshold).locate path)) m = (.ok a, m') ↔
      (m.resolve path).map (fun (place, _) ↦ "/" ++ "/".intercalate place) = a ∧ m = m' := by
  rw [exec_lift_eq_ok_iff]
  exact Prod.mk.injEq .. ▸ Iff.rfl

@[simp]
theorem exec_fetch_eq_ok_iff {path : String} {a : Except FileError (List UInt8)} :
    exec (liftM ((Memory.host.filtered threshold).fetch path)) m = (.ok a, m') ↔
      m.fetch path = a ∧ m = m' := by
  rw [exec_lift_eq_ok_iff]
  exact Prod.mk.injEq .. ▸ Iff.rfl

@[simp]
theorem exec_print_eq_ok_iff {text : String} :
    exec (liftM ((Memory.host.filtered threshold).print text)) m = (.ok u, m') ↔
      { m with printed := m.printed ++ text } = m' := by
  rw [exec_lift_eq_ok_iff]
  change ((), { m with printed := m.printed ++ text }) = (u, m') ↔ _
  simp

theorem exec_save_eq_ok_iff {path text : String} :
    exec (liftM ((Memory.host.filtered threshold).save path text)) m = (.ok (.ok u), m') ↔
      m.save path text = .ok m' := by
  have hget : (get : StateM Memory Memory).run m = (m, m) := rfl
  rw [exec_lift_eq_ok_iff, Host.filtered, Memory.host]
  dsimp only
  rw [run_bind, hget]
  cases m.save path text with
  | ok saved =>
    change ((Except.ok (), saved) : Except FileError Unit × Memory) = _ ↔ _
    simp
  | error cause =>
    change ((Except.error cause, m) : Except FileError Unit × Memory) = _ ↔ _
    simp

theorem agrees_of_exec_log {level : Level} {text : String}
    (h : exec (liftM ((Memory.host.filtered threshold).log level text)) m = (.ok u, m')) :
    m.Agrees m' := by
  rw [exec_lift_eq_ok_iff, Host.filtered] at h
  dsimp only at h
  split at h
  · obtain ⟨_, rfl⟩ := Prod.mk.inj h
    exact ⟨_, m.time, rfl⟩
  · obtain ⟨_, rfl⟩ := Prod.mk.inj h
    exact .refl m

theorem agrees_of_exec_forM {xs : List β} {f : β → Attempt (StateM Memory) PUnit}
    (hf : ∀ x m u m', exec (f x) m = (.ok u, m') → m.Agrees m')
    (h : exec (xs.forM f) m = (.ok u, m')) : m.Agrees m' := by
  induction xs generalizing m with
  | nil =>
    obtain ⟨_, rfl⟩ := exec_pure_eq_ok_iff.mp h
    exact .refl m
  | cons x xs ih =>
    obtain ⟨_, m₁, hx, h⟩ := exec_bind_eq_ok_iff.mp h
    exact (hf x m _ m₁ hx).trans (ih h)

/-! ## Parts of commands -/

theorem exec_readProblem {path : String} {p : Problem}
    (h : exec (readProblem (Memory.host.filtered threshold) path) m = (.ok p, m')) :
    m.Agrees m' ∧ ∃ content, m.fetch path = .ok content ∧
      (Declaration.read content).problem = .ok p := by
  simp only [readProblem, exec_bind_eq_ok_iff, exec_discard_eq_ok_iff,
    exec_attemptWhile_eq_ok_iff, exec_locate_eq_ok_iff, exec_fetch_eq_ok_iff] at h
  obtain ⟨_, _, ⟨-, rfl⟩, _, _, ⟨_, -, rfl⟩, fetched, _, ⟨hfetch, rfl⟩, h⟩ := h
  cases fetched with
  | error cause => simp at h
  | ok content =>
    simp only [exec_bind_eq_ok_iff, exec_attempt_eq_ok_iff, exec_pure_eq_ok_iff] at h
    obtain ⟨_, _, ⟨rfl, rfl⟩, _, m₁, hwarnings, q, _, ⟨hproblem, rfl⟩, _, _, ⟨-, rfl⟩, _, m₂, hsize,
      rfl, rfl⟩ := h
    have hwarnings := agrees_of_exec_forM (fun _ _ _ _ ↦ agrees_of_exec_log) hwarnings
    exact ⟨hwarnings.trans (agrees_of_exec_log hsize), content, hfetch, hproblem⟩

theorem agrees_of_exec_reportEligibility {kind : String} {p : Problem} {e : Eligibility}
    (h : exec (reportEligibility (Memory.host.filtered threshold) kind p e) m = (.ok u, m')) :
    m.Agrees m' :=
  agrees_of_exec_forM (fun _ _ _ _ ↦ agrees_of_exec_log) h

theorem exec_groundProblem {p : Problem} {g : Grounding}
    (h : exec (groundProblem (Memory.host.filtered threshold) p) m = (.ok g, m')) :
    m.Agrees m' ∧ ∃ relaxed, RelaxedGrounding.ofProblem p = .ok relaxed ∧
      relaxed.grounding = g := by
  simp only [groundProblem, exec_bind_eq_ok_iff, exec_discard_eq_ok_iff, exec_attempt_eq_ok_iff,
    exec_pure_eq_ok_iff] at h
  obtain ⟨_, _, ⟨_, -, rfl⟩, _, m₁, hsets, relaxed, _, ⟨hrelaxed, rfl⟩, _, m₂, hrounds, _, m₃,
    hsize, _, m₄, hsummary, rfl, rfl⟩ := h
  have hlogs := (agrees_of_exec_log hrounds).trans
    ((agrees_of_exec_log hsize).trans (agrees_of_exec_log hsummary))
  exact ⟨(agrees_of_exec_reportEligibility hsets).trans hlogs, relaxed, hrelaxed, rfl⟩

theorem exec_readStrategy {found : Matches} {strategy : Strategy}
    (h : exec (readStrategy (Memory.host.filtered threshold) found) m = (.ok strategy, m')) :
    m.Agrees m' ∧ Strategy.ofTexts ((found.value? .strategy).getD "")
      ((found.value? .eligibility).getD "") = .ok strategy := by
  simp only [readStrategy, exec_bind_eq_ok_iff, exec_attempt_eq_ok_iff, exec_pure_eq_ok_iff] at h
  obtain ⟨_, _, ⟨hstrategy, rfl⟩, _, m₁, hname, rfl, rfl⟩ := h
  exact ⟨agrees_of_exec_log hname, hstrategy⟩

theorem exec_encodeProblem {p : Problem} {g : Grounding} {strategy : Strategy} {e : Encoding}
    (h : exec (encodeProblem (Memory.host.filtered threshold) p g strategy) m = (.ok e, m')) :
    m.Agrees m' ∧ Encoding.ofProblem p g strategy = .ok e := by
  simp only [encodeProblem, exec_bind_eq_ok_iff, exec_attempt_eq_ok_iff, exec_pure_eq_ok_iff] at h
  obtain ⟨_, m₁, hsets, _, _, ⟨he, rfl⟩, _, m₂, hsize, rfl, rfl⟩ := h
  exact ⟨(agrees_of_exec_reportEligibility hsets).trans (agrees_of_exec_log hsize), he⟩

/-! ## Encoding -/

/-- An encoding of the problem in the input file, with the strategy that the options ask for. -/
def Memory.Encodes (m : Memory) (found : Matches) (strategy : Strategy) (e : Encoding) : Prop :=
  ∃ content p relaxed, m.fetch (inputPath found) = .ok content ∧
    (Declaration.read content).problem = .ok p ∧
    RelaxedGrounding.ofProblem p = .ok relaxed ∧
    Strategy.ofTexts ((found.value? .strategy).getD "")
      ((found.value? .eligibility).getD "") = .ok strategy ∧
    Encoding.ofProblem p relaxed.grounding strategy = .ok e

/-- A text ends up printed or, if there is a path for it, in a file. Apart from this, and from
messages and the time, nothing changes. -/
def Memory.Delivers (m : Memory) (path? : Option String) (text : String) (m' : Memory) : Prop :=
  ∃ m₁, m.Agrees m₁ ∧ match path? with
    | none => { m₁ with printed := m₁.printed ++ text } = m'
    | some path => m₁.save path text = .ok m'

theorem exec_runEncode {found : Matches}
    (h : exec (runEncode (Memory.host.filtered threshold) found) m = (.ok u, m')) :
    ∃ steps strategy e, readSteps found = .ok steps ∧ m.Encodes found strategy e ∧
      m.Delivers (found.value? .output) (writtenFormula strategy e steps).2 m' := by
  simp only [runEncode, exec_bind_eq_ok_iff, exec_attempt_eq_ok_iff] at h
  obtain ⟨steps, _, ⟨hsteps, rfl⟩, p, m₁, hp, g, m₂, hg, strategy, m₃, hstrategy, e, m₄, he, _, m₅,
    hevents, _, m₆, hsize, h⟩ := h
  obtain ⟨hp, content, hfetch, hproblem⟩ := exec_readProblem hp
  obtain ⟨hground, relaxed, hrelaxed, rfl⟩ := exec_groundProblem hg
  obtain ⟨hstrategy, hofTexts⟩ := exec_readStrategy hstrategy
  obtain ⟨he, hencoding⟩ := exec_encodeProblem he
  have hevents := agrees_of_exec_forM (fun _ _ _ _ ↦ agrees_of_exec_log) hevents
  -- up to here the command has only added messages
  have hagrees : m.Agrees m₆ := hp.trans <| hground.trans <| hstrategy.trans <| he.trans <|
    hevents.trans (agrees_of_exec_log hsize)
  refine ⟨steps, strategy, e, hsteps, ⟨content, p, relaxed, hfetch, hproblem, hrelaxed, hofTexts,
    hencoding⟩, m₆, hagrees, ?_⟩
  cases hpath : found.value? .output with
  | none =>
    rw [hpath] at h
    exact exec_print_eq_ok_iff.mp h
  | some path =>
    simp only [hpath, exec_bind_eq_ok_iff, exec_attemptWhile_eq_ok_iff] at h
    obtain ⟨_, _, hsave, rfl, rfl⟩ := h
    exact exec_save_eq_ok_iff.mp hsave

/-! ## Command lines -/

/-- A command line that ends with success did what its command is for. -/
theorem exec_of_run_eq_success {arguments : List String} {command : Command} {found : Matches}
    (hparse : parseCommand arguments = .ok (command, found))
    (h : (run Memory.host arguments).run m = (.success, m')) :
    ∃ m₁, m.Agrees m₁ ∧
      exec (runCommand (Memory.host.filtered found.threshold) command found) m₁ = (.ok (), m') := by
  rw [run, hparse] at h
  dsimp only at h
  rw [run_bind, run_bind] at h
  refine ⟨(((Memory.host.filtered found.threshold).log .info programText).run m).2,
    agrees_of_exec_log (exec_lift_eq_ok_iff.mpr rfl), ?_⟩
  rw [exec]
  generalize (runCommand (Memory.host.filtered found.threshold) command found).run.run _ = ending
    at h ⊢
  -- after a failure of the command the ending would not be success
  rcases ending with ⟨_ | _, m₁⟩
  · exact nomatch (Prod.mk.inj h).1
  · exact Prod.ext rfl (Prod.mk.inj h).2

/-- A command line for encoding that ends with success delivers the written formula. -/
theorem delivers_of_run_eq_success {arguments : List String} {found : Matches}
    (hparse : parseCommand arguments = .ok (.encode, found))
    (h : (run Memory.host arguments).run m = (.success, m')) :
    ∃ steps strategy e, readSteps found = .ok steps ∧ m.Encodes found strategy e ∧
      m.Delivers (found.value? .output) (writtenFormula strategy e steps).2 m' := by
  obtain ⟨m₁, hagrees, hexec⟩ := exec_of_run_eq_success hparse h
  obtain ⟨steps, strategy, e, hsteps, hencodes, m₂, hagrees', hdelivers⟩ := exec_runEncode hexec
  refine ⟨steps, strategy, e, hsteps, ?_, m₂, hagrees.trans hagrees', hdelivers⟩
  rwa [Memory.Encodes, ← hagrees.fetch_eq]

end LiftedPlanning.CommandLine
