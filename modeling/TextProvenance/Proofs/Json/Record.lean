import TextProvenance.Config
import TextProvenance.Operation.Record
import TextProvenance.Proofs.Json.Printed

/-!
# Records read back

A record is read from the object that it is written as: from every object that names each key once
(`Json.record_object`), so neither the order of the fields nor a field left out makes a difference.

`Json.records_read_back` says it of the texts of operations, locations and configurations.
-/

namespace TextProvenance

namespace Json

variable {fields : List (String × Json)}

theorem lookup_eq (unique : (fields.map Prod.fst).Nodup) (key : String) :
    lookup fields key = some (fields.lookup key) := by
  induction fields with
  | nil => rfl
  | cons field rest ih =>
    obtain ⟨first, value⟩ := field
    obtain ⟨new, others⟩ := List.nodup_cons.mp unique
    by_cases this : first = key
    · subst this
      have none : rest.filter (·.1 == first) = [] := by
        refine List.filter_eq_nil_iff.mpr fun other mem same => new ?_
        exact List.mem_map.mpr ⟨other, mem, beq_iff_eq.mp same⟩
      simp [lookup, List.filter_cons_of_pos, none]
    · have differs : (key == first) = false := beq_false_of_ne (Ne.symm this)
      rw [lookup, List.filter_cons_of_neg (by simpa using this), List.lookup_cons, differs]
      exact ih others

/-- A record has the values that an object has for its keys. -/
theorem record_object (unique : (fields.map Prod.fst).Nodup) (keys : List String) :
    (object fields).record keys = some (keys.map fun key => fields.lookup key) := by
  rw [record, funext (lookup_eq unique)]
  exact List.mapM_pure

theorem toUInt32?_natural (n : UInt32) : toUInt32? (natural n.toNat) = some n := by
  rw [toUInt32?, if_pos n.toNat_lt_size, UInt32.ofNat_toNat]

theorem toUInt64?_natural (n : UInt64) : toUInt64? (natural n.toNat) = some n := by
  rw [toUInt64?, if_pos n.toNat_lt_size, UInt64.ofNat_toNat]

theorem toTexts?_array (texts : List String) : toTexts? (array (texts.map text)) = some texts := by
  rw [toTexts?, List.mapM_map]
  exact (List.mapM_pure).trans (congrArg some (List.map_id texts))

theorem plain_array_text (texts : List String) : Plain (array (texts.map text)) := by
  refine .array fun item mem => ?_
  obtain ⟨s, -, rfl⟩ := List.mem_map.mp mem
  exact .text s

end Json

namespace Location

theorem ofJson?_toJson (l : Location) : ofJson? l.toJson = some l := by
  rw [ofJson?, toJson, Json.record_object (by simp)]
  simp [keys, List.lookup_cons, Json.optional, Json.toText?, Json.toUInt32?_natural]

theorem plain_toJson (l : Location) : l.toJson.Plain := by
  refine .object ?_
  simp [Json.Plain.text, Json.Plain.natural]

end Location

namespace Operation

theorem plain_locationField (o : Operation) : ∀ field ∈ o.locationField, field.2.Plain := by
  unfold locationField
  cases o.location with
  | none => exact nofun
  | some l => exact List.forall_mem_singleton.mpr l.plain_toJson

/-- The field of the location may stand anywhere between other fields. -/
theorem plain_object_locationField (o : Operation) {front back : List (String × Json)}
    (plainFront : ∀ field ∈ front, field.2.Plain) (plainBack : ∀ field ∈ back, field.2.Plain) :
    (Json.object (front ++ o.locationField ++ back)).Plain :=
  .object (List.forall_mem_append.mpr
    ⟨List.forall_mem_append.mpr ⟨plainFront, o.plain_locationField⟩, plainBack⟩)

theorem plain_toJson (o : Operation) : o.toJson.Plain :=
  o.plain_object_locationField (by simp [Json.Plain.text, Json.Plain.bool])
    (List.forall_mem_singleton.mpr (Json.plain_array_text _))

/-- An operation is read from every object that has its fields, in any order. -/
theorem ofJson?_object {fields : List (String × Json)} {o : Operation}
    (unique : (fields.map Prod.fst).Nodup) (name : fields.lookup "name" = some (.text o.name))
    (native : fields.lookup "native" = some (.bool o.native))
    (location : fields.lookup "location" = o.location.map Location.toJson)
    (arguments : fields.lookup "arguments" = some o.argumentsJson) :
    ofJson? (.object fields) = some o := by
  have located : Json.optional none (Json.toOption? Location.ofJson?)
      (o.location.map Location.toJson) = some o.location := by
    cases o.location with
    | none => rfl
    | some l => exact congrArg (some <$> ·) l.ofJson?_toJson
  rw [ofJson?, Json.record_object unique]
  simp only [keys, List.map_cons, List.map_nil, name, native, location, arguments,
    Option.bind_eq_bind, Option.bind_some, located]
  simp [Json.required, Json.optional, Json.toText?, Json.toBool?, argumentsJson,
    Json.toTexts?_array]

theorem ofJson?_toJson (o : Operation) : ofJson? o.toJson = some o := by
  apply ofJson?_object <;> cases located : o.location <;>
    simp [locationField, located, List.lookup_cons]

end Operation

namespace Config

theorem ofJson?_toJson (c : Config) : ofJson? c.toJson = some c := by
  rw [ofJson?, toJson, Json.record_object (by simp)]
  simp [keys, List.lookup_cons, Json.optional, Json.toBool?, Json.toUInt64?_natural]

theorem plain_toJson (c : Config) : c.toJson.Plain := by
  refine .object ?_
  simp [Json.Plain.bool, Json.Plain.natural]

end Config

/-- **Records are read back from their texts.**  An operation, a location and a configuration are
what is read from the text that they are written as, whatever characters their own texts have and
however many arguments there are.  An operation without a location is written without the field, and
one at a location of which nothing is known is written with it, so they stay apart. -/
theorem Json.records_read_back :
    (∀ o : Operation, Operation.parse? o.toJson.print = some o) ∧
      (∀ l : Location, Location.parse? l.toJson.print = some l) ∧
      ∀ c : Config, Config.parse? c.toJson.print = some c := by
  refine ⟨fun o => ?_, fun l => ?_, fun c => ?_⟩
  · rw [Operation.parse?, Json.parse?_print o.plain_toJson]
    exact o.ofJson?_toJson
  · rw [Location.parse?, Json.parse?_print l.plain_toJson]
    exact l.ofJson?_toJson
  · rw [Config.parse?, Json.parse?_print c.plain_toJson]
    exact c.ofJson?_toJson

end TextProvenance
