import NativeBuild.Proofs.Json.Unambiguous

/-!
# The members of an object

A text that is accepted as an object is a row of members in braces. Of the members with one name the
last one is found in the object, so nothing but the last members of the names that are asked for has
an influence on what is found.
-/
namespace NativeBuild.Json

/-- An object with blanks around it, and its members in the order in which they are written. -/
inductive ObjectText : Text → List Member → Prop where
  | empty {before blanks after : Text} (blankBefore : Blank before) (isBlank : Blank blanks)
      (blankAfter : Blank after) :
      ObjectText (before ++ byte '\x7b' :: (blanks ++ [byte '\x7d']) ++ after) []
  | members {before after : Text} {members : List Member} (blankBefore : Blank before)
      (nonempty : members ≠ [])
      (each : ∀ m ∈ members, Denotes 127 m.element.text m.element.value)
      (blankAfter : Blank after) :
      ObjectText (before ++
        byte '\x7b' :: (separated (members.map Member.written) ++ [byte '\x7d']) ++ after) members

/-- What the last member of a name holds. -/
def lastNamed? (name : Text) (members : List Member) : Option Element :=
  (members.reverse.find? (·.meant = name)).map (·.element)

variable {t : Text} {members : List Member}

theorem exists_objectText {found : Dictionary Value} (h : parse t = .ok (.object found)) :
    ∃ members, ObjectText t members := by
  obtain ⟨before, text, after, hbefore, hafter, rfl, hden⟩ := denotes_of_parse h
  cases hden with
  | number _ means => cases means
  | emptyObject blanks => exact ⟨[], .empty hbefore blanks hafter⟩
  | object nonempty each => exact ⟨_, .members hbefore nonempty each hafter⟩

theorem ObjectText.parse_eq (h : ObjectText t members) :
    parse t = .ok (.object (Dictionary.ofList (members.map Member.entry))) := by
  cases h with
  | empty hbefore blanks hafter => exact parse_of_denotes hbefore hafter (.emptyObject blanks)
  | members hbefore nonempty each hafter =>
    exact parse_of_denotes hbefore hafter (.object nonempty each (Dictionary.keeps_ofList _))

theorem ObjectText.denotes (h : ObjectText t members) {m : Member} (hm : m ∈ members) :
    Denotes 127 m.element.text m.element.value := by
  cases h with
  | empty => cases hm
  | members _ _ each => exact each m hm

theorem ObjectText.denotes_lastNamed (h : ObjectText t members) {name : Text} {e : Element}
    (he : lastNamed? name members = some e) : Denotes 127 e.text e.value := by
  obtain ⟨m, hm, rfl⟩ := Option.map_eq_some_iff.mp he
  exact h.denotes (List.mem_reverse.mp (List.mem_of_find?_eq_some hm))

/-- In an object the last member of each name is found. -/
theorem member?_ofList (name : Text) (members : List Member) :
    (Value.object (Dictionary.ofList (members.map Member.entry))).member? name =
      (lastNamed? name members).map (·.value) := by
  have hfirst := Dictionary.get?_map name Member.meant (·.element.value) members.reverse
  rw [Value.member?, Dictionary.get?_ofList, ← List.map_reverse, lastNamed?, Option.map_map]
  exact hfirst

end NativeBuild.Json
