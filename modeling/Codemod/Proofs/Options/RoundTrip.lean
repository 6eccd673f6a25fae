import Codemod.Options.Config

/-!
# Reading back what is written

There are many ways to write options and one way in which they are written:
every field, under its own name, once.  What is read from a value in any of
these ways is read again from what is written for it.

A record is read field by field, so two facts about `Decode.fields` carry the
argument: a field that the record does not have is passed over, and what every
field keeps holds of the record that is read.  The only thing that reading
guarantees of a record beyond its type is the order of the path filters, and
this is what makes a table the one that is read from its own entries.
-/

namespace Codemod

/-! ## Records -/

namespace Decode

variable {α : Type} {set : Setter α} {seen : List String} {initial updated result : α}
  {name : String} {value : Json} {rest entries : List (String × Json)}

theorem fields_of_none (unknown : set initial name value = none) :
    fields set seen initial ((name, value) :: rest) = fields set seen initial rest := by
  rw [fields, unknown]

section

variable (property : α → Prop)
    (keeps : ∀ {record name value updated}, property record →
      set record name value = some (.ok updated) → property updated) (holds : property initial)
include property keeps holds

/-- What every field keeps holds of a record that is read. -/
theorem fields_keep (decoded : fields set seen initial entries = .ok result) : property result := by
  induction entries generalizing seen initial with
  | nil =>
    cases decoded
    exact holds
  | cons entry rest ih =>
    obtain ⟨name, value⟩ := entry
    rw [fields] at decoded
    split at decoded
    · exact ih holds decoded
    · rename_i outcome isSet
      split at decoded
      · cases decoded
      · split at decoded
        · cases decoded
        · exact ih (keeps holds isSet) decoded

/-- However a record is written, it is read field by field. -/
theorem record_keep {delivery : Delivery} {description : String} {names : List String} {json : Json}
    (decoded : record delivery description names set initial json = .ok result) :
    property result := by
  rw [record.eq_def] at decoded
  split at decoded
  · exact fields_keep property keeps holds decoded
  · split at decoded
    · cases decoded
    · rename_i isRead
      split at decoded
      · cases decoded
      · cases decoded
        exact fields_keep property keeps holds isRead
  · cases decoded

end

theorem exists_of_map_eq_ok {β : Type} {decoded : Decoded β} {put : β → α}
    (isSet : decoded.map put = .ok updated) : ∃ part, decoded = .ok part ∧ put part = updated := by
  cases decoded with
  | error cause => cases isSet
  | ok part =>
    cases isSet
    exact ⟨part, rfl, rfl⟩

theorem strings_strings (values : List String) : strings (.strings values) = .ok values := by
  rw [Json.strings, strings]
  induction values with
  | nil => rfl
  | cons first rest ih =>
    rw [List.map_cons, List.mapM_cons, ih]
    rfl

theorem byte_nat (value : Fin 256) : byte (.nat value.val) = .ok value := by
  have isSmall : 0 ≤ (value.val : Int) ∧ (value.val : Int) < 256 := by omega
  rw [Json.nat, byte, dif_pos isSmall]
  rfl

end Decode

open Decode

/-! ## Styles and self references -/

theorem Quote.decode_name (delivery : Delivery) (quote : Quote) :
    Quote.decode delivery (.string quote.name) = .ok quote := by
  cases quote <;> rfl

theorem Style.decode_encode (delivery : Delivery) (style : Style) :
    Style.decode delivery style.encode = .ok style := by
  simp [decode, encode, record, fields, setField, Quote.decode_name, Decode.bool, byte_nat,
    Except.map]

theorem SelfReference.ofText?_text (reference : SelfReference) :
    ofText? reference.text = some reference := by
  cases reference with
  | this => rfl
  | name text isValid =>
    have notThis : text ≠ "this" := by
      rintro rfl
      exact absurd isValid (by decide)
    simp [ofText?, SelfReference.text, notThis, isValid]

theorem SelfReference.decode_text (reference : SelfReference) :
    SelfReference.decode (.string reference.text) = .ok reference := by
  simp [SelfReference.decode, Decode.string, ofText?_text]

/-! ## Path filters -/

namespace PathTable

/-- The names of a table increase, so each stands in it once. -/
def IsOrdered (table : PathTable) : Prop :=
  table.Pairwise fun first second => first.1 < second.1

variable {table rest : PathTable} {name : String} {filter : List String}

theorem mem_insert {entry : String × List String} (member : entry ∈ table.insert name filter) :
    entry = (name, filter) ∨ entry ∈ table := by
  induction table with
  | nil => exact Or.inl (List.mem_singleton.1 member)
  | cons first rest ih =>
    rw [PathTable.insert] at member
    split at member
    · rcases List.mem_cons.1 member with isNew | isLater
      · exact Or.inl isNew
      · exact Or.inr (List.mem_cons_of_mem _ isLater)
    · split at member
      · exact List.mem_cons.1 member
      · rcases List.mem_cons.1 member with isFirst | isLater
        · exact Or.inr (isFirst ▸ List.mem_cons_self)
        · exact (ih isLater).imp_right (List.mem_cons_of_mem _)

theorem IsOrdered.insert (ordered : table.IsOrdered) (name : String) (filter : List String) :
    (table.insert name filter).IsOrdered := by
  induction ordered with
  | nil => exact List.pairwise_singleton _ _
  | @cons first rest smaller ordered ih =>
    rw [PathTable.insert]
    split
    · rename_i same
      exact List.pairwise_cons.2 ⟨fun entry member => same ▸ smaller entry member, ordered⟩
    · rename_i different
      split
      · rename_i before
        refine List.pairwise_cons.2 ⟨?_, List.pairwise_cons.2 ⟨smaller, ordered⟩⟩
        intro entry member
        rcases List.mem_cons.1 member with rfl | isLater
        · exact before
        · exact String.lt_trans before (smaller entry isLater)
      · rename_i notBefore
        refine List.pairwise_cons.2 ⟨?_, ih⟩
        intro entry member
        rcases mem_insert member with rfl | isOld
        · exact Std.lt_of_le_of_ne (String.not_lt.1 notBefore) (Ne.symm different)
        · exact smaller entry isOld

theorem IsOrdered.decodeEntries {entries : List (String × Json)} (ordered : table.IsOrdered)
    (decoded : decodeEntries table entries = .ok rest) : rest.IsOrdered := by
  induction entries generalizing table with
  | nil =>
    cases decoded
    exact ordered
  | cons entry others ih =>
    rw [PathTable.decodeEntries] at decoded
    split at decoded
    · cases decoded
    · exact ih (ordered.insert _ _) decoded

theorem isOrdered_of_decode {json : Json} (decoded : decode json = .ok table) :
    table.IsOrdered := by
  rw [decode.eq_def] at decoded
  split at decoded
  · exact IsOrdered.decodeEntries .nil decoded
  · cases decoded

/-- A name behind all others is added at the end. -/
theorem insert_of_lt (last : ∀ entry ∈ table, entry.1 < name) :
    table.insert name filter = table ++ [(name, filter)] := by
  induction table with
  | nil => rfl
  | cons first rest ih =>
    have before : first.1 < name := last first List.mem_cons_self
    have different : name ≠ first.1 := by
      rintro rfl
      exact String.lt_irrefl _ before
    have notBefore : ¬ name < first.1 :=
      fun after => String.lt_irrefl _ (String.lt_trans before after)
    rw [PathTable.insert, if_neg different, if_neg notBefore, ih]
    · rfl
    · exact fun entry member => last entry (List.mem_cons_of_mem _ member)

/-- The entries of an ordered table are read one behind the other. -/
theorem decodeEntries_append (ordered : IsOrdered (table ++ rest)) :
    decodeEntries table (rest.map fun entry => (entry.1, .strings entry.2)) =
      .ok (table ++ rest) := by
  induction rest generalizing table with
  | nil => simp [decodeEntries]
  | cons first others ih =>
    have last : ∀ entry ∈ table, entry.1 < first.1 :=
      fun entry member => (List.pairwise_append.1 ordered).2.2 entry member first List.mem_cons_self
    rw [List.append_cons] at ordered ⊢
    rw [List.map_cons, decodeEntries, strings_strings]
    dsimp only
    rw [insert_of_lt last]
    exact ih ordered

theorem IsOrdered.decode_encode (ordered : table.IsOrdered) :
    PathTable.decode table.encode = .ok table :=
  decodeEntries_append (List.nil_append table ▸ ordered)

end PathTable

/-! ## Options -/

namespace TransformOptions

variable {delivery : Delivery} {options : TransformOptions}

/-- Setting a field keeps the filters or replaces them by ones that were read. -/
theorem isOrdered_of_setField {updated : TransformOptions} {name : String} {value : Json}
    (ordered : options.paths.IsOrdered)
    (isSet : setField delivery options name value = some (.ok updated)) :
    updated.paths.IsOrdered := by
  unfold setField at isSet
  split at isSet
  case h_6 => cases isSet
  case h_5 =>
    obtain ⟨paths, decoded, rfl⟩ := exists_of_map_eq_ok (Option.some.inj isSet)
    exact PathTable.isOrdered_of_decode decoded
  all_goals
    obtain ⟨_, _, rfl⟩ := exists_of_map_eq_ok (Option.some.inj isSet)
    exact ordered

theorem isOrdered_of_decode {json : Json} (decoded : decode delivery json = .ok options) :
    options.paths.IsOrdered :=
  record_keep (fun options => options.paths.IsOrdered) isOrdered_of_setField .nil decoded

/-- The fields of options set everything that options hold. -/
theorem fields_encodeFields (ordered : options.paths.IsOrdered) :
    fields (setField delivery) [] standard options.encodeFields = .ok options := by
  simp [encodeFields, fields, setField, Style.decode_encode, SelfReference.decode_text,
    Decode.string, ordered.decode_encode, Except.map]

theorem decode_encode (ordered : options.paths.IsOrdered) :
    decode delivery options.encode = .ok options :=
  fields_encodeFields ordered

end TransformOptions

/-! ## Configurations -/

namespace Config

variable {config : Config} {name : String} {value : Json}

/-- No field of a configuration is one of its options. -/
theorem setOwnField_eq_none_or (delivery : Delivery) (config : Config)
    (options : TransformOptions) (name : String) (value : Json) :
    setOwnField config name value = none ∨
      TransformOptions.setField delivery options name value = none := by
  unfold setOwnField
  split
  · exact Or.inr rfl
  · exact Or.inr rfl
  · exact Or.inl rfl

theorem isOrdered_of_decode {json : Json} (decoded : decode json = .ok config) :
    config.options.paths.IsOrdered := by
  rw [decode.eq_def] at decoded
  split at decoded
  · split at decoded
    · cases decoded
    · obtain ⟨options, isRead, rfl⟩ := exists_of_map_eq_ok decoded
      exact fields_keep (fun options => options.paths.IsOrdered)
        TransformOptions.isOrdered_of_setField .nil isRead
  · cases decoded

/-- The fields of options are passed over where the other fields are read. -/
theorem fields_setOwnField_encodeFields (seen : List String) (options : TransformOptions) :
    fields setOwnField seen config options.encodeFields = .ok config := by
  simp [TransformOptions.encodeFields, fields, setOwnField]

theorem decode_encode (ordered : config.options.paths.IsOrdered) :
    decode config.encode = .ok config := by
  obtain ⟨schema, transforms, options⟩ := config
  have own : fields setOwnField [] standard
      ((schema.toList.map fun schema => ("$schema", .string schema)) ++
        ("codemods", .strings transforms) :: options.encodeFields) =
      .ok ⟨schema, transforms, .standard⟩ := by
    cases schema <;> simp [fields, setOwnField, strings_strings, optionalString, Decode.string,
      fields_setOwnField_encodeFields, standard, Except.map]
  have others : fields (TransformOptions.setField .buffered) [] .standard
      ((schema.toList.map fun schema => ("$schema", .string schema)) ++
        ("codemods", .strings transforms) :: options.encodeFields) = .ok options := by
    rw [← TransformOptions.fields_encodeFields ordered]
    cases schema with
    | none => exact fields_of_none rfl
    | some schema => exact (fields_of_none rfl).trans (fields_of_none rfl)
  simp only [encode, decode, own, others]
  rfl

/-- The names of the fields that are written. -/
theorem exists_fields_encode (config : Config) : ∃ fields, config.encode = .object fields ∧
      fields.map (·.1) = (config.schema.toList.map fun _ => "$schema") ++
        "codemods" :: TransformOptions.fieldNames := by
  refine ⟨_, rfl, ?_⟩
  cases config.schema <;> rfl

end Config

/--
Whatever is read is read again from what is written for it, and then written as
the same value.
-/
def RoundTrips {α : Type} (decode again : Json → Decoded α) (encode : α → Json) : Prop :=
  ∀ json record, decode json = .ok record →
    again (encode record) = .ok record ∧
      (again (encode record)).map encode = .ok (encode record)

theorem roundTrips_of_decode_encode {α : Type} {decode again : Json → Decoded α}
    {encode : α → Json} {property : α → Prop}
    (holds : ∀ {json record}, decode json = .ok record → property record)
    (readAgain : ∀ {record}, property record → again (encode record) = .ok record) :
    RoundTrips decode again encode := by
  intro json record decoded
  have isRead := readAgain (holds decoded)
  exact ⟨isRead, by rw [isRead]; rfl⟩

/--
Configurations and options are read back as they were, in whatever way they were
written at first and reach their decoder.  Nothing that can be read is special:
every configuration whose path filters are in order is read from what is written
for it.  No name is that of a field and of an option, and no name is written twice.
-/
theorem configurations_round_trip :
    RoundTrips Config.decode Config.decode Config.encode ∧
    (∀ delivery again, RoundTrips (TransformOptions.decode delivery)
      (TransformOptions.decode again) TransformOptions.encode) ∧
    (∀ config : Config, config.options.paths.IsOrdered →
      Config.decode config.encode = .ok config) ∧
    (∀ delivery config options name value,
      Config.setOwnField config name value = none ∨
        TransformOptions.setField delivery options name value = none) ∧
    ∀ config : Config, ∃ fields, config.encode = .object fields ∧ (fields.map (·.1)).Nodup := by
  refine ⟨?_, fun delivery again => ?_, fun config => Config.decode_encode,
    Config.setOwnField_eq_none_or, fun config => ?_⟩
  · exact roundTrips_of_decode_encode Config.isOrdered_of_decode Config.decode_encode
  · exact roundTrips_of_decode_encode TransformOptions.isOrdered_of_decode
      TransformOptions.decode_encode
  · obtain ⟨fields, isEncoded, names⟩ := config.exists_fields_encode
    refine ⟨fields, isEncoded, ?_⟩
    rw [names]
    cases config.schema <;> simp [TransformOptions.fieldNames]

/-- A configuration with unknown fields, a list for a record and filters out of order. -/
def looseConfig : Json :=
  .object [("extra", .null),
    ("paths", .object [("function-to-arrow", .strings ["src/"]),
      ("bind-expression", .strings []), ("function-to-arrow", .strings ["lib/"])]),
    ("printOptions", .array [.object [("double", .null)], .bool false]),
    ("$schema", .null), ("selfReference", .string "self")]

theorem configurations_round_trip_loose :
    ∃ config, Config.decode looseConfig = .ok config ∧
      config.options.paths = [("bind-expression", []), ("function-to-arrow", ["lib/"])] ∧
      config.options.style.quote = .double ∧ Config.decode config.encode = .ok config := by
  have read : ∃ config, Config.decode looseConfig = .ok config ∧
      config.options.paths = [("bind-expression", []), ("function-to-arrow", ["lib/"])] ∧
      config.options.style.quote = .double :=
    ⟨_, rfl, rfl, rfl⟩
  obtain ⟨config, decoded, paths, quote⟩ := read
  exact ⟨config, decoded, paths, quote, (configurations_round_trip.1 _ _ decoded).1⟩

end Codemod
