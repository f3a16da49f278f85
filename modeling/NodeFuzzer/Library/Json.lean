/-!
# JSON values

A number is its literal, and an object the list of its members in the order of the text.  So one
type holds what every parser makes of a document, whichever members of one name it keeps.
-/

namespace NodeFuzzer

/-- A JSON value. -/
inductive Json where
  | null
  | bool (b : Bool)
  | number (literal : List Char)
  | string (s : String)
  | array (values : List Json)
  | object (dict : List (String × Json))

namespace Json

/-- What holds of a value when it holds of the values it is made of holds of all. -/
theorem induction {P : Json → Prop} (null : P .null) (bool : ∀ b, P (.bool b))
    (number : ∀ literal, P (.number literal)) (string : ∀ s, P (.string s))
    (array : ∀ values, (∀ v ∈ values, P v) → P (.array values))
    (object : ∀ dict, (∀ m ∈ dict, P m.2) → P (.object dict)) (value : Json) : P value := by
  refine @Json.rec P (fun values => ∀ v ∈ values, P v) (fun dict => ∀ m ∈ dict, P m.2)
    (fun m => P m.2) null bool number string array object ?_ ?_ ?_ ?_ ?_ value
  · simp
  · intro head tail hhead htail v hv
    rcases List.mem_cons.mp hv with rfl | hv
    · exact hhead
    · exact htail v hv
  · simp
  · intro head tail hhead htail m hm
    rcases List.mem_cons.mp hm with rfl | hm
    · exact hhead
    · exact htail m hm
  · exact fun _ _ h => h

/-- `as_str`. -/
def asStr : Json → Option String
  | .string s => some s
  | _ => none

theorem asStr_eq_some {value : Json} {s : String} : value.asStr = some s ↔ value = .string s := by
  cases value <;> simp [asStr]

end Json

end NodeFuzzer
