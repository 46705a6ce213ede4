import NativeBuild.Text

/-!
# Actions that may be refused

An action changes a state and may be refused part of the way. Two actions in a row are run one
after the other, and the second one only when the first was not refused. So a property of errors
holds of actions in a row when it holds of each of them, and a property of states is preserved by
actions in a row when each of them preserves it, refused or not. Two runs of actions in a row stay
abreast when the actions do one by one.
-/
namespace NativeBuild

variable {ε σ α β : Type} {a : ExceptT ε (StateM σ) α} {k : α → ExceptT ε (StateM σ) β}
  {s final : σ} {y : β}

theorem run_bind (a : ExceptT ε (StateM σ) α) (k : α → ExceptT ε (StateM σ) β) (s : σ) :
    ((a >>= k).run s).run = match (a.run s).run with
      | (.ok x, between) => ((k x).run between).run
      | (.error e, between) => (.error e, between) := by
  unfold ExceptT.run
  simp only [bind, ExceptT.bind, ExceptT.mk, StateT.bind, ExceptT.bindCont, Id.run]
  cases a s with
  | mk result between => cases result <;> rfl

/-- An action that succeeds, and what follows. -/
theorem run_bind_ok {x : α} {between : σ} (h : (a.run s).run = (.ok x, between)) :
    ((a >>= k).run s).run = ((k x).run between).run := by
  rw [run_bind, h]

/-- A look at the state. -/
theorem run_get_bind (k : σ → ExceptT ε (StateM σ) β) (s : σ) :
    ((get >>= k).run s).run = ((k s).run s).run := rfl

/-- Actions in a row that succeed: each of them does. -/
theorem of_run_bind (h : ((a >>= k).run s).run = (.ok y, final)) :
    ∃ x between, (a.run s).run = (.ok x, between) ∧ ((k x).run between).run = (.ok y, final) := by
  rw [run_bind] at h
  cases ha : (a.run s).run with
  | mk result between =>
    rw [ha] at h
    cases result with
    | ok x => exact ⟨x, between, rfl, h⟩
    | error e => cases congrArg Prod.fst h

/-- Every error of an action has a property. -/
def Throws (P : ε → Prop) (a : ExceptT ε (StateM σ) α) : Prop :=
  ∀ s e final, (a.run s).run = (.error e, final) → P e

section Throws

variable {P : ε → Prop}

theorem Throws.pure (x : α) : Throws P (pure x : ExceptT ε (StateM σ) α) := by
  intro s e final h
  cases congrArg Prod.fst h

theorem Throws.throw {e : ε} (h : P e) : Throws P (throw e : ExceptT ε (StateM σ) α) := by
  intro s e' final hrun
  cases congrArg Prod.fst hrun
  exact h

theorem Throws.get : Throws P (get : ExceptT ε (StateM σ) σ) := by
  intro s e final h
  cases congrArg Prod.fst h

theorem Throws.lift (step : StateM σ α) :
    Throws P (step : ExceptT ε (StateM σ) α) := by
  intro s e final h
  cases congrArg Prod.fst h

theorem Throws.bind (ha : Throws P a) (hk : ∀ x, Throws P (k x)) : Throws P (a >>= k) := by
  intro s e final h
  rw [run_bind] at h
  cases hrun : (a.run s).run with
  | mk result between =>
    rw [hrun] at h
    cases result with
    | ok x => exact hk x between e final h
    | error e' =>
      cases congrArg Prod.fst h
      exact ha s e between hrun

theorem Throws.map (f : α → β) (ha : Throws P a) : Throws P (f <$> a) := by
  rw [map_eq_pure_bind]
  exact ha.bind fun x => .pure (f x)

theorem Throws.forM {f : α → ExceptT ε (StateM σ) Unit} (hf : ∀ x, Throws P (f x)) (xs : List α) :
    Throws P (xs.forM f) := by
  induction xs with
  | nil => exact .pure ()
  | cons x xs ih => exact (hf x).bind fun _ => ih

end Throws

/-- From a state, an action leaves a state with a property behind, refused or not. -/
def PreservesFrom (I : σ → Prop) (a : ExceptT ε (StateM σ) α) (s : σ) : Prop := I (a.run s).run.2

/-- An action preserves a property of the state, refused or not. -/
def Preserves (I : σ → Prop) (a : ExceptT ε (StateM σ) α) : Prop := ∀ s, I s → PreservesFrom I a s

section Preserves

variable {I : σ → Prop}

/-- What is preserved holds at the end of a run. -/
theorem PreservesFrom.of_run {result : Except ε α} {after : σ} (h : PreservesFrom I a s)
    (hrun : (a.run s).run = (result, after)) : I after := by
  unfold PreservesFrom at h
  rwa [hrun] at h

theorem PreservesFrom.bind (ha : PreservesFrom I a s)
    (hk : ∀ x between, (a.run s).run = (.ok x, between) → I between →
      PreservesFrom I (k x) between) : PreservesFrom I (a >>= k) s := by
  unfold PreservesFrom
  rw [run_bind]
  cases hrun : (a.run s).run with
  | mk result between =>
    have hbetween := ha.of_run hrun
    cases result with
    | ok x => exact hk x between hrun hbetween
    | error e => exact hbetween

theorem PreservesFrom.pure (x : α) (hs : I s) :
    PreservesFrom I (pure x : ExceptT ε (StateM σ) α) s := hs

theorem PreservesFrom.throw (e : ε) (hs : I s) :
    PreservesFrom I (throw e : ExceptT ε (StateM σ) α) s := hs

theorem PreservesFrom.get_bind {k : σ → ExceptT ε (StateM σ) β} (h : PreservesFrom I (k s) s) :
    PreservesFrom I (get >>= k) s := h

theorem PreservesFrom.set {s' : σ} (h : I s') :
    PreservesFrom I (set s' : ExceptT ε (StateM σ) PUnit) s := h

theorem PreservesFrom.modify {f : σ → σ} (h : I (f s)) :
    PreservesFrom I (modify f : ExceptT ε (StateM σ) PUnit) s := h

theorem Preserves.bind (ha : Preserves I a) (hk : ∀ x, Preserves I (k x)) :
    Preserves I (a >>= k) :=
  fun s hs => (ha s hs).bind fun x between _ hbetween => hk x between hbetween

theorem Preserves.pure (x : α) : Preserves I (pure x : ExceptT ε (StateM σ) α) := fun _ hs => hs

theorem Preserves.throw (e : ε) : Preserves I (throw e : ExceptT ε (StateM σ) α) := fun _ hs => hs

theorem Preserves.get : Preserves I (get : ExceptT ε (StateM σ) σ) := fun _ hs => hs

theorem Preserves.map (f : α → β) (ha : Preserves I a) : Preserves I (f <$> a) := by
  rw [map_eq_pure_bind]
  exact ha.bind fun x => .pure (f x)

theorem Preserves.forM {f : α → ExceptT ε (StateM σ) Unit} {xs : List α}
    (hf : ∀ x ∈ xs, Preserves I (f x)) : Preserves I (xs.forM f) := by
  induction xs with
  | nil => exact .pure ()
  | cons x xs ih =>
    exact (hf x (by simp)).bind fun _ => ih fun y hy => hf y (by simp [hy])

end Preserves

/-- Two runs have the same result, and leave states that are the same up to a relation. -/
structure SameUpTo (R : σ → σ → Prop) (ended ended' : α × σ) : Prop where
  result : ended'.1 = ended.1
  states : R ended.2 ended'.2

section SameUpTo

variable {R : σ → σ → Prop} {s' : σ}

theorem SameUpTo.bind_run {a a' : ExceptT ε (StateM σ) α} {k k' : α → ExceptT ε (StateM σ) β}
    (ha : SameUpTo R (a.run s).run (a'.run s').run)
    (hk : ∀ x t t', (a.run s).run = (.ok x, t) → (a'.run s').run = (.ok x, t') → R t t' →
      SameUpTo R ((k x).run t).run ((k' x).run t').run) :
    SameUpTo R ((a >>= k).run s).run ((a' >>= k').run s').run := by
  obtain ⟨hresult, hstates⟩ := ha
  rw [run_bind, run_bind]
  cases hrun : (a.run s).run with
  | mk result between =>
  cases hrun' : (a'.run s').run with
  | mk result' between' =>
    rw [hrun, hrun'] at hresult hstates
    obtain rfl : result' = result := hresult
    cases result' with
    | error e => exact ⟨rfl, hstates⟩
    | ok x => exact hk x between between' hrun hrun' hstates

theorem SameUpTo.bind {a a' : ExceptT ε (StateM σ) α} {k k' : α → ExceptT ε (StateM σ) β}
    (ha : SameUpTo R (a.run s).run (a'.run s').run)
    (hk : ∀ x t t', R t t' → SameUpTo R ((k x).run t).run ((k' x).run t').run) :
    SameUpTo R ((a >>= k).run s).run ((a' >>= k').run s').run :=
  ha.bind_run fun x t t' _ _ ht => hk x t t' ht

/-- Steps in a row that always end. -/
theorem SameUpTo.bind_step {m m' : StateM σ α} {k k' : α → StateM σ β}
    (hm : SameUpTo R (m.run s) (m'.run s'))
    (hk : ∀ x t t', R t t' → SameUpTo R ((k x).run t) ((k' x).run t')) :
    SameUpTo R ((m >>= k).run s) ((m' >>= k').run s') := by
  have hrest := hk (m.run s).1 _ _ hm.states
  have hstep' : (m' >>= k').run s' = (k' (m.run s).1).run (m'.run s').2 :=
    congrArg (fun x => (k' x).run (m'.run s').2) hm.result
  rw [hstep']
  exact hrest

end SameUpTo

end NativeBuild
