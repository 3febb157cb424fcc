/-
LiteXmr.Json.Struct — how a struct is read from JSON by a derived `Deserialize`.

In an object a member stands for the field of its name. Members without a field
are skipped, and a field that is there twice is an error. An array holds the
fields in order, all of them. A field of an optional type may be null, and in an
object it may be left out.

What is read is a tree that still has both members of one name. A written value
has no such members, and its fields are found whatever their order
(`structFields_ordered`).
-/
import LiteXmr.Json.WriteTheorems

namespace LiteXmr.JsonStruct

/-- `none` is an error. -/
abbrev De (α : Type) := Json → Option α

/-- The value of a field of an object, if it is there. -/
def field (fields : List (String × Json)) (name : String) : Option (Option Json) :=
  match fields.filter fun f => f.1 == name with
  | [] => some none
  | [f] => some (some f.2)
  | _ => none

def structFields (names : List String) : Json → Option (List (Option Json))
  | .object fields => names.mapM (field fields)
  | .array xs => if xs.length = names.length then some (xs.map some) else none
  | _ => none

variable {α : Type}

/-- `Option<T>`. -/
def nullable (de : De α) : De (Option α)
  | .null => some none
  | v => (de v).map some

def optionalField (de : De α) : Option Json → Option (Option α)
  | none => some none
  | some v => nullable de v

def requiredField (de : De α) (value : Option Json) : Option α := value.bind de

theorem nullable_of_ne_null {de : De α} {v : Json} (h : v ≠ .null) :
    nullable de v = (de v).map some := by
  cases v with
  | null => exact absurd rfl h
  | bool | number | string | array | object => rfl

/-! ## Objects without a name twice -/

theorem filter_of_notMem {fields : List (String × Json)} {name : String}
    (h : name ∉ fields.map Prod.fst) : fields.filter (fun f => f.1 == name) = [] := by
  rw [List.filter_eq_nil_iff]
  intro f hf heq
  exact h (List.mem_map.mpr ⟨f, hf, beq_iff_eq.mp heq⟩)

theorem field_of_nodup {fields : List (String × Json)} (h : (fields.map Prod.fst).Nodup)
    (name : String) : field fields name = some (Json.lookup name fields) := by
  induction fields with
  | nil => rfl
  | cons f fields ih =>
      obtain ⟨k, v⟩ := f
      obtain ⟨hk, hrest⟩ := List.nodup_cons.mp h
      by_cases heq : k = name
      · subst heq
        simp [field, Json.lookup, filter_of_notMem hk]
      · have hskip : field ((k, v) :: fields) name = field fields name := by
          simp [field, heq]
        rw [hskip, ih hrest, Json.lookup, if_neg heq]

/-- The fields of an object that is written and read back. -/
theorem structFields_ordered {fields : List (String × Json)} (h : (fields.map Prod.fst).Nodup)
    (names : List String) :
    structFields names (JsonText.ordered (.object fields)) =
      some (names.map fun name => (Json.lookup name fields).map JsonText.ordered) := by
  have hnodup : ((JsonText.orderedFields [] fields).map Prod.fst).Nodup :=
    JsonText.nodup_of_ascending (JsonText.ascending_orderedFields List.Pairwise.nil fields)
  have hfield : ∀ name, field (JsonText.orderedFields [] fields) name =
      some ((Json.lookup name fields).map JsonText.ordered) := by
    intro name
    rw [field_of_nodup hnodup, JsonText.lookup_orderedFields h]
    simp [Json.lookup]
  rw [JsonText.ordered, structFields]
  induction names with
  | nil => rfl
  | cons name names ih => simp [List.mapM_cons, hfield, ih]

end LiteXmr.JsonStruct
