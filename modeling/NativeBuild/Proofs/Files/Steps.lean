import NativeBuild.Proofs.Path.Location

/-!
# Walks, one name at a time

`Goes` has a rule for each thing that can happen at a name of a walk, and `GoesOn` one for each thing
that can happen at the link that interrupts it. Every walk goes by these rules, and only the walk
does. So what holds of all walks is proved by induction on the rules. A path is walked from where it
starts, unless it is empty or too long.
-/
namespace NativeBuild.FileSystem

/-- A name that a walk looks up in the directory that it has come to. -/
structure IsLookedUp (name : Text) : Prop where
  ne_dot : name ≠ Path.dot
  ne_dotDot : name ≠ Path.dotDot
  length_le : name.length ≤ maxName

/-- A walk over all links ends where it arrives or is refused. -/
def Walk.ofResult : Except FileError Place → Walk
  | .ok place => .arrived place
  | .error e => .refused e

section

variable (fs : FileSystem) (follow : Bool)

/-- How a walk goes from a directory over some names. -/
inductive Goes : Location → List Text → Walk → Prop
  | done (dir : Location) :
    Goes dir [] (.arrived (.entry dir ((fs.get? dir).getD (.directory 0o755))))
  | stay {dir : Location} {rest : List Text} {w : Walk} (h : Goes dir rest w) :
    Goes dir (Path.dot :: rest) w
  | up {dir : Location} {rest : List Text} {w : Walk} (h : Goes dir.dropLast rest w) :
    Goes dir (Path.dotDot :: rest) w
  | tooLong {dir : Location} {name : Text} {rest : List Text} (hdot : name ≠ Path.dot)
    (hdotDot : name ≠ Path.dotDot) (hlong : maxName < name.length) :
    Goes dir (name :: rest) (.refused .nameTooLong)
  | free {dir : Location} {name : Text} (hname : IsLookedUp name)
    (hget : fs.get? (dir ++ [name]) = none) : Goes dir [name] (.arrived (.free (dir ++ [name])))
  | missing {dir : Location} {name : Text} {rest : List Text} (hname : IsLookedUp name)
    (hget : fs.get? (dir ++ [name]) = none) (hrest : rest ≠ []) :
    Goes dir (name :: rest) (.refused .notFound)
  | file {dir : Location} {name : Text} {mode : Nat} {content : Text} (hname : IsLookedUp name)
    (hget : fs.get? (dir ++ [name]) = some (.file mode content)) :
    Goes dir [name] (.arrived (.entry (dir ++ [name]) (.file mode content)))
  | blocked {dir : Location} {name : Text} {mode : Nat} {content : Text} {rest : List Text}
    (hname : IsLookedUp name) (hget : fs.get? (dir ++ [name]) = some (.file mode content))
    (hrest : rest ≠ []) : Goes dir (name :: rest) (.refused .notDirectory)
  | link {dir : Location} {name target : Text} (hname : IsLookedUp name)
    (hget : fs.get? (dir ++ [name]) = some (.link target)) (hfollow : follow = false) :
    Goes dir [name] (.arrived (.entry (dir ++ [name]) (.link target)))
  | jump {dir : Location} {name target : Text} {rest : List Text} (hname : IsLookedUp name)
    (hget : fs.get? (dir ++ [name]) = some (.link target)) (h : rest ≠ [] ∨ follow = true) :
    Goes dir (name :: rest) (.jump dir target rest)
  | down {dir : Location} {name : Text} {mode : Nat} {rest : List Text} {w : Walk}
    (hname : IsLookedUp name) (hget : fs.get? (dir ++ [name]) = some (.directory mode))
    (h : Goes (dir ++ [name]) rest w) : Goes dir (name :: rest) w

/-- How a walk goes on over the links that it meets, as long as the budget for links lasts. -/
inductive GoesOn : Nat → Location → List Text → Except FileError Place → Prop
  | ended {budget : Nat} {dir : Location} {names : List Text} {result : Except FileError Place}
    (h : fs.walk follow dir names = Walk.ofResult result) : GoesOn budget dir names result
  | tooMany {dir at_ : Location} {names rest : List Text} {target : Text}
    (h : fs.walk follow dir names = .jump at_ target rest) :
    GoesOn 0 dir names (.error .tooManyLinks)
  | nowhere {budget : Nat} {dir at_ : Location} {names rest : List Text}
    (h : fs.walk follow dir names = .jump at_ [] rest) :
    GoesOn (budget + 1) dir names (.error .notFound)
  | behind {budget : Nat} {dir at_ : Location} {names rest : List Text} {target : Text}
    {result : Except FileError Place} (h : fs.walk follow dir names = .jump at_ target rest)
    (htarget : target ≠ [])
    (hrest : GoesOn budget (if Path.isAbsolute target then [] else at_) (steps target ++ rest)
      result) : GoesOn (budget + 1) dir names result

/-- Every walk goes by the rules. -/
theorem goes_walk (dir : Location) (names : List Text) :
    fs.Goes follow dir names (fs.walk follow dir names) := by
  induction names generalizing dir with
  | nil => exact .done dir
  | cons name rest ih =>
    rw [walk]
    split
    · next hdot => exact hdot ▸ .stay (ih dir)
    split
    · next hdotDot => exact hdotDot ▸ .up (ih _)
    split
    · exact .tooLong ‹_› ‹_› ‹_›
    next hdot hdotDot hlong =>
    have hname : IsLookedUp name := ⟨hdot, hdotDot, Nat.le_of_not_lt hlong⟩
    cases rest with
    | nil =>
      cases hget : fs.get? (dir ++ [name]) with
      | none => exact .free hname hget
      | some e =>
        cases e with
        | file => exact .file hname hget
        | directory => exact .down hname hget (ih _)
        | link =>
          cases follow with
          | false => exact .link hname hget rfl
          | true => exact .jump hname hget (.inr rfl)
    | cons next rest =>
      have hrest : next :: rest ≠ [] := List.cons_ne_nil _ _
      cases hget : fs.get? (dir ++ [name]) with
      | none => exact .missing hname hget hrest
      | some e =>
        cases e with
        | file => exact .blocked hname hget hrest
        | directory => exact .down hname hget (ih _)
        | link => exact .jump hname hget (.inl hrest)

end

variable {fs : FileSystem} {follow : Bool}

/-- A name that is looked up decides by its entry how a walk goes on. -/
theorem walk_cons_of_isLookedUp {name : Text} (h : IsLookedUp name) (dir : Location)
    (rest : List Text) : fs.walk follow dir (name :: rest) =
      match fs.get? (dir ++ [name]) with
      | none => if rest.isEmpty then .arrived (.free (dir ++ [name])) else .refused .notFound
      | some (.link target) =>
        if rest.isEmpty && !follow then .arrived (.entry (dir ++ [name]) (.link target))
        else .jump dir target rest
      | some (.file mode content) =>
        if rest.isEmpty then .arrived (.entry (dir ++ [name]) (.file mode content))
        else .refused .notDirectory
      | some (.directory _) => fs.walk follow (dir ++ [name]) rest := by
  rw [walk]
  exact (if_neg h.ne_dot).trans
    ((if_neg h.ne_dotDot).trans (if_neg (Nat.not_lt.mpr h.length_le)))

@[simp] theorem walk_dot (dir : Location) (rest : List Text) :
    fs.walk follow dir (Path.dot :: rest) = fs.walk follow dir rest := by
  rw [walk, if_pos rfl]

@[simp] theorem walk_dotDot (dir : Location) (rest : List Text) :
    fs.walk follow dir (Path.dotDot :: rest) = fs.walk follow dir.dropLast rest := by
  rw [walk, if_neg (by decide), if_pos rfl]

/-- The rules leave a walk no choice. -/
theorem Goes.walk_eq {dir : Location} {names : List Text} {w : Walk}
    (h : fs.Goes follow dir names w) : fs.walk follow dir names = w := by
  induction h with
  | done => rfl
  | stay _ ih => rw [walk_dot, ih]
  | up _ ih => rw [walk_dotDot, ih]
  | tooLong hdot hdotDot hlong => rw [walk, if_neg hdot, if_neg hdotDot, if_pos hlong]
  | free hname hget | file hname hget =>
    rw [walk_cons_of_isLookedUp hname, hget]
    rfl
  | missing hname hget hrest | blocked hname hget hrest =>
    rw [walk_cons_of_isLookedUp hname, hget]
    exact if_neg (by simpa using hrest)
  | link hname hget hfollow =>
    rw [walk_cons_of_isLookedUp hname, hget, hfollow]
    rfl
  | jump hname hget h =>
    rw [walk_cons_of_isLookedUp hname, hget]
    exact if_neg (by simpa [Classical.or_iff_not_imp_left] using h)
  | down hname hget _ ih =>
    rw [walk_cons_of_isLookedUp hname, hget]
    exact ih

/-- A walk goes by the rules, and nothing else does. -/
theorem goes_iff {dir : Location} {names : List Text} {w : Walk} :
    fs.Goes follow dir names w ↔ fs.walk follow dir names = w :=
  ⟨Goes.walk_eq, fun h => h ▸ fs.goes_walk follow dir names⟩

/-- A walk only arrives behind a name that goes down if a directory has the name. -/
theorem exists_walk_of_walk_cons {dir : Location} {name : Text} {rest : List Text} {place : Place}
    (hdot : name ≠ Path.dot) (hdotDot : name ≠ Path.dotDot) (hrest : rest ≠ [])
    (h : fs.walk follow dir (name :: rest) = .arrived place) :
    name.length ≤ maxName ∧ ∃ mode, fs.get? (dir ++ [name]) = some (.directory mode) ∧
      fs.walk follow (dir ++ [name]) rest = .arrived place := by
  rw [← goes_iff] at h
  cases h with
  | stay => exact absurd rfl hdot
  | up => exact absurd rfl hdotDot
  | free | file | link => exact absurd rfl hrest
  | down hname hget hwalk => exact ⟨hname.length_le, _, hget, goes_iff.mp hwalk⟩

theorem goesOn_walkLinks (fs : FileSystem) (follow : Bool) (budget : Nat) (dir : Location)
    (names : List Text) :
    fs.GoesOn follow budget dir names (fs.walkLinks follow budget dir names) := by
  induction budget generalizing dir names with
  | zero =>
    rw [walkLinks]
    split
    · exact .ended ‹_›
    · exact .ended ‹_›
    · exact .tooMany ‹_›
  | succ budget ih =>
    rw [walkLinks]
    split
    · exact .ended ‹_›
    · exact .ended ‹_›
    · next hjump =>
      dsimp only
      split
      · next hnil => exact .nowhere (hnil ▸ hjump)
      · exact .behind hjump ‹_› (ih _ _)

/-- Behind a link that leads somewhere, the walk goes on with the names of the link. -/
theorem walkLinks_behind {budget : Nat} {dir at_ : Location} {names rest : List Text} {target : Text}
    (h : fs.walk follow dir names = .jump at_ target rest) (htarget : target ≠ []) :
    fs.walkLinks follow (budget + 1) dir names =
      fs.walkLinks follow budget (if Path.isAbsolute target then [] else at_)
        (steps target ++ rest) := by
  rw [walkLinks, h]
  exact if_neg htarget

theorem GoesOn.walkLinks_eq {budget : Nat} {dir : Location} {names : List Text}
    {result : Except FileError Place} (h : fs.GoesOn follow budget dir names result) :
    fs.walkLinks follow budget dir names = result := by
  induction h with
  | @ended _ _ _ result h =>
    unfold walkLinks
    rw [h]
    cases result <;> rfl
  | tooMany h => rw [walkLinks, h]
  | nowhere h =>
    rw [walkLinks, h]
    rfl
  | behind h htarget _ ih => rw [walkLinks_behind h htarget, ih]

theorem walkLinks_of_arrived {dir : Location} {names : List Text} {place : Place}
    (h : fs.walk follow dir names = .arrived place) (budget : Nat) :
    fs.walkLinks follow budget dir names = .ok place := GoesOn.walkLinks_eq (.ended h)

/-- A walk over links goes by the rules, and nothing else does. -/
theorem goesOn_iff {budget : Nat} {dir : Location} {names : List Text}
    {result : Except FileError Place} :
    fs.GoesOn follow budget dir names result ↔ fs.walkLinks follow budget dir names = result :=
  ⟨GoesOn.walkLinks_eq, fun h => h ▸ fs.goesOn_walkLinks follow budget dir names⟩

section Paths

variable {p : Path}

theorem visible_eq (hzero : 0 ∉ p) : visible p = p := by
  unfold visible
  rw [List.takeWhile_eq_self_iff]
  intro b hb
  simpa using fun heq : b = 0 => hzero (heq ▸ hb)

theorem isAbsolute_visible (p : Path) : Path.isAbsolute (visible p) = Path.isAbsolute p := by
  cases p with
  | nil => rfl
  | cons b p =>
    unfold visible Path.isAbsolute
    by_cases hb : b = 0
    · subst hb
      rfl
    · rw [List.takeWhile_cons_of_pos (by simpa using hb)]
      rfl

/-- A path that is empty or too long is refused, and any other one is walked. -/
theorem resolve_cases (p : Path) :
    (∃ e, ∀ fs : FileSystem, ∀ follow,
      fs.resolve follow p = .error e ∧ fs.resolveLeaf p = .error e) ∨
    visible p ≠ [] ∧ (visible p).length < maxPath := by
  by_cases hne : visible p = []
  · refine .inl ⟨.notFound, fun fs follow => ?_⟩
    unfold resolve resolveLeaf
    rw [hne]
    exact ⟨rfl, rfl⟩
  by_cases hlong : maxPath ≤ (visible p).length
  · refine .inl ⟨.nameTooLong, fun fs follow => ?_⟩
    unfold resolve resolveLeaf
    dsimp only
    rw [if_neg hne, if_pos hlong, if_neg hne, if_pos hlong]
    exact ⟨rfl, rfl⟩
  · exact .inr ⟨hne, Nat.lt_of_not_le hlong⟩

theorem resolve_eq_walkLinks (hne : visible p ≠ []) (hlength : (visible p).length < maxPath)
    (fs : FileSystem) (follow : Bool) : fs.resolve follow p =
      fs.walkLinks follow maxLinks (Path.start fs.here (visible p)) (steps (visible p)) := by
  unfold resolve
  dsimp only
  rw [if_neg hne, if_neg (Nat.not_le.mpr hlength)]
  rfl

/-- What a path leads to is where a walk over its names arrives. -/
theorem walkLinks_of_resolve {place : Place} (h : fs.resolve follow p = .ok place) :
    visible p ≠ [] ∧ (visible p).length < maxPath ∧
      fs.walkLinks follow maxLinks (Path.start fs.here (visible p)) (steps (visible p)) =
        .ok place := by
  obtain ⟨e, hrefused⟩ | ⟨hne, hlength⟩ := resolve_cases p
  · cases h.symm.trans (hrefused fs follow).1
  · exact ⟨hne, hlength, (resolve_eq_walkLinks hne hlength fs follow).symm.trans h⟩

theorem of_resolve_eq_ok (hzero : 0 ∉ p) {place : Place} (h : fs.resolve follow p = .ok place) :
    p ≠ [] ∧ p.length < maxPath ∧
      fs.walkLinks follow maxLinks (Path.start fs.here p) (steps p) = .ok place :=
  visible_eq hzero ▸ walkLinks_of_resolve h

end Paths

end NativeBuild.FileSystem
