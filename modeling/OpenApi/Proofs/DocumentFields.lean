/-
# OpenApi.Proofs.DocumentFields -- the fields of a document as they were given

A document has fields of its own, and what is generated is written over them. The fields are read
from an object by their keys and written back: known ones first, then the others. What comes out is
the object that was read, except that empty lists of servers, security requirements and tags and
what is given as `null` among the optional fields are left out. What is generated touches the keys
`components` and `paths`, and `webhooks` if there are any.
-/
import OpenApi.Decode.Definition
import OpenApi.Proofs.PathItems
import OpenApi.Proofs.Records

namespace OpenApi

/-! ## What is left out -/

/-- Whether a value is an array without items. -/
def Json.isEmptyArray : Json → Bool
  | .array [] => true
  | _ => false

namespace Info

/-- Whether a document leaves a field of its `info` out. -/
def isLeftOut (key : String) (value : Json) : Bool := key == "description" && value.isNull

/-- The `info` of a document for the `info` that is given. -/
def kept : Json → Json
  | .object members => .object (members.filter fun e => !isLeftOut e.1 e.2)
  | value => value

end Info

namespace DocumentConfig

/-- Whether a document leaves a field out. -/
def isLeftOut (key : String) (value : Json) : Bool :=
  (["servers", "security", "tags"].contains key && value.isEmptyArray)
    || (key == "externalDocs" && value.isNull)

/-- The fields of a document for the members that are given. -/
def kept (members : Fragment) : Fragment :=
  (members.filter fun e => !isLeftOut e.1 e.2).map fun e =>
    (e.1, if e.1 = "info" then Info.kept e.2 else e.2)

end DocumentConfig

/-! ## Reading -/

namespace Decode

theorem value?_of_string? {w : Json.Written} {text : String} (h : string? w = some text) :
    w.value? = some (.string text) := by
  unfold string? at h
  split at h
  · obtain rfl := Option.some.inj h
    rfl
  · cases h

theorem mapM_value? {items : List Json.Written} {values : List Json}
    (h : items.mapM Json.Written.value? = some values) : Json.Written.values? items = some values := by
  induction items generalizing values with
  | nil =>
    obtain rfl := Option.some.inj h
    rfl
  | cons item rest ih =>
    rw [List.mapM_cons] at h
    obtain ⟨v, hv, h⟩ := Option.bind_eq_some_iff.mp h
    obtain ⟨vs, hvs, h⟩ := Option.bind_eq_some_iff.mp h
    rw [Json.Written.values?, hv, ih hvs]
    exact h

theorem value?_of_list? {w : Json.Written} {values : List Json}
    (h : list? Json.Written.value? w = some values) : w.value? = some (.array values) := by
  unfold list? at h
  split at h
  · rw [Json.Written.value?, mapM_value? h]
    rfl
  · cases h

theorem eq_null_of_value? {w : Json.Written} (h : w.value? = some .null) : w = .null := by
  cases w with
  | null => rfl
  | bool b => cases h
  | number n => cases h
  | string s => cases h
  | array items =>
    obtain ⟨vs, -, hvs⟩ := Option.map_eq_some_iff.mp h
    cases hvs
  | object members =>
    obtain ⟨vs, -, hvs⟩ := Option.map_eq_some_iff.mp h
    cases hvs
  | unusable => cases h

section Fields

variable {fields : Fields} {key : String}

theorem gives_of_required? {α : Type} {decode : Json.Written → Option α} {a : α} {v : α → Json}
    (read : ∀ w a, decode w = some a → w.value? = some (v a))
    (h : required? fields key decode = some a) : Gives fields key (some (v a)) := by
  obtain ⟨w, hw, ha⟩ := required?_eq_some h
  exact .present hw (read w a ha)

/-- A list that may be left out is given as it is read, or it is empty. -/
theorem gives_of_defaulted? {items : List Json}
    (h : defaulted? fields key [] (list? Json.Written.value?) = some items) :
    ∃ value, Gives fields key value ∧ value.filter (fun v => !v.isEmptyArray)
      = if items.isEmpty then none else some (.array items) := by
  rcases defaulted?_eq_some h with ⟨w, hw, hitems⟩ | ⟨hnone, rfl⟩
  · refine ⟨_, .present hw (value?_of_list? hitems), ?_⟩
    cases items <;> rfl
  · exact ⟨none, .absent hnone, rfl⟩

/-- A value that may be left out or be `null` is given as it is read, or it is `null`. -/
theorem gives_of_optional? {α : Type} {decode : Json.Written → Option α} {a : Option α}
    {v : α → Json} (read : ∀ w a, decode w = some a → w.value? = some (v a))
    (h : optional? fields key decode = some a) :
    ∃ value, Gives fields key value ∧ value.filter (fun v => !v.isNull) = a.map v := by
  rcases optional?_eq_some h with ⟨w, b, hw, hne, hb, rfl⟩ | ⟨rfl, hnull | hnone⟩
  · refine ⟨_, .present hw (read w b hb), ?_⟩
    have hnull : (v b).isNull = false := by
      cases hv : v b with
      | null => exact absurd (eq_null_of_value? ((read w b hb).trans (congrArg some hv))) hne
      | _ => rfl
    simp [Option.filter_some, hnull]
  · exact ⟨_, .present hnull rfl, rfl⟩
  · exact ⟨none, .absent hnone, rfl⟩

end Fields

end Decode

/-! ## What is written back -/

namespace Info

theorem get?_toFragment {info : Info} (distinct : (Entries.keys info.extra).Nodup) (key : String) :
    Entries.get? info.toFragment key = (Entries.get? info.extra key).or
      (if key = "description" then info.description.map Json.string
        else if key = "title" then some (.string info.title)
        else if key = "version" then some (.string info.version) else none) := by
  unfold toFragment
  rw [Entries.get?_extend _ distinct, Entries.get?_insertSome]
  by_cases hdescription : key = "description"
  · subst hdescription
    simp [Entries.get?]
  · simp [Entries.get?, hdescription, eq_comm]

theorem nodup_keys_toFragment (info : Info) : (Entries.keys info.toFragment).Nodup := by
  refine Entries.nodup_keys_extend (Entries.nodup_keys_insertSome ?_ _ _) _
  simp [Entries.keys]

end Info

namespace DocumentConfig

theorem listField_eq (fields : Fragment) (key : String) (items : List Json) :
    listField fields key items
      = fields.insertSome key (if items.isEmpty then none else some (.array items)) := by
  unfold listField
  cases items with
  | nil => rfl
  | cons first rest => rfl

theorem get?_toFragment {config : DocumentConfig} (distinct : (Entries.keys config.extra).Nodup)
    (key : String) :
    Entries.get? config.toFragment key = (Entries.get? config.extra key).or
      (if key = "externalDocs" then config.externalDocs
        else if key = "tags" then if config.tags.isEmpty then none else some (.array config.tags)
        else if key = "security" then
          if config.security.isEmpty then none else some (.array config.security)
        else if key = "servers" then
          if config.servers.isEmpty then none else some (.array config.servers)
        else if key = "openapi" then some (.string config.openapi)
        else if key = "info" then some (.object config.info.toFragment) else none) := by
  unfold toFragment
  simp only [listField_eq]
  rw [Entries.get?_extend _ distinct]
  simp only [Entries.get?_insertSome, Entries.get?]
  congr 1
  by_cases hdocs : key = "externalDocs"
  · subst hdocs
    simp
  by_cases htags : key = "tags"
  · subst htags
    simp
  by_cases hsecurity : key = "security"
  · subst hsecurity
    simp
  by_cases hservers : key = "servers"
  · subst hservers
    simp
  simp [hdocs, htags, hsecurity, hservers, eq_comm]

theorem nodup_keys_toFragment (config : DocumentConfig) :
    (Entries.keys config.toFragment).Nodup := by
  unfold toFragment
  simp only [listField_eq]
  refine Entries.nodup_keys_extend ?_ _
  iterate 4 refine Entries.nodup_keys_insertSome ?_ _ _
  simp [Entries.keys]

theorem nodup_keys_kept {members : Fragment} (distinct : (Entries.keys members).Nodup) :
    (Entries.keys (kept members)).Nodup := by
  have hkeys : Entries.keys (kept members)
      = Entries.keys (members.filter fun e => !isLeftOut e.1 e.2) := by
    simp [kept, Entries.keys, Function.comp_def]
  rw [hkeys]
  exact Entries.nodup_keys_filter distinct _

theorem get?_kept {members : Fragment} (distinct : (Entries.keys members).Nodup) (key : String) :
    Entries.get? (kept members) key
      = ((Entries.get? members key).filter fun v => !isLeftOut key v).map fun v =>
          if key = "info" then Info.kept v else v := by
  unfold kept
  rw [Entries.get?_map fun key v => if key = "info" then Info.kept v else v,
    Entries.get?_filter_of_nodup distinct]

end DocumentConfig

/-! ## Reading and writing back -/

theorem Decode.of_info? {w : Json.Written} {info : Info} (h : info? w = some info) :
    ∃ fields, w = .object fields
      ∧ required? fields "title" string? = some info.title
      ∧ required? fields "version" string? = some info.version
      ∧ optional? fields "description" string? = some info.description
      ∧ rest? fields ["title", "version", "description"] = some info.extra := by
  unfold info? at h
  obtain ⟨fields, hfields, h⟩ := Option.bind_eq_some_iff.mp h
  obtain ⟨title, htitle, h⟩ := Option.bind_eq_some_iff.mp h
  obtain ⟨version, hversion, h⟩ := Option.bind_eq_some_iff.mp h
  obtain ⟨description, hdescription, h⟩ := Option.bind_eq_some_iff.mp h
  obtain ⟨extra, hextra, h⟩ := Option.bind_eq_some_iff.mp h
  obtain rfl := Option.some.inj h
  cases w with
  | object members =>
    obtain rfl := Option.some.inj hfields
    exact ⟨members, rfl, htitle, hversion, hdescription, hextra⟩
  | _ => cases hfields

theorem Decode.of_documentConfig? {w : Json.Written} {config : DocumentConfig}
    (h : documentConfig? w = some config) :
    ∃ fields, w = .object fields
      ∧ required? fields "openapi" string? = some config.openapi
      ∧ required? fields "info" info? = some config.info
      ∧ defaulted? fields "servers" [] (list? Json.Written.value?) = some config.servers
      ∧ defaulted? fields "security" [] (list? Json.Written.value?) = some config.security
      ∧ defaulted? fields "tags" [] (list? Json.Written.value?) = some config.tags
      ∧ optional? fields "externalDocs" Json.Written.value? = some config.externalDocs
      ∧ rest? fields ["openapi", "info", "servers", "security", "tags", "externalDocs"]
          = some config.extra := by
  unfold documentConfig? at h
  obtain ⟨fields, hfields, h⟩ := Option.bind_eq_some_iff.mp h
  obtain ⟨openapi, hopenapi, h⟩ := Option.bind_eq_some_iff.mp h
  obtain ⟨info, hinfo, h⟩ := Option.bind_eq_some_iff.mp h
  obtain ⟨servers, hservers, h⟩ := Option.bind_eq_some_iff.mp h
  obtain ⟨security, hsecurity, h⟩ := Option.bind_eq_some_iff.mp h
  obtain ⟨tags, htags, h⟩ := Option.bind_eq_some_iff.mp h
  obtain ⟨docs, hdocs, h⟩ := Option.bind_eq_some_iff.mp h
  obtain ⟨extra, hextra, h⟩ := Option.bind_eq_some_iff.mp h
  obtain rfl := Option.some.inj h
  cases w with
  | object members =>
    obtain rfl := Option.some.inj hfields
    exact ⟨members, rfl, hopenapi, hinfo, hservers, hsecurity, htags, hdocs, hextra⟩
  | _ => cases hfields

/-- The `info` of a document is the one that is given, without a description that is `null`. -/
theorem Info.same_toFragment {w : Json.Written} {info : Info} (h : Decode.info? w = some info) :
    ∃ members, w.value? = some (.object members)
      ∧ (Json.object info.toFragment).same (kept (.object members)) = true := by
  obtain ⟨fields, rfl, htitle, hversion, hdescription, hextra⟩ := Decode.of_info? h
  have gtitle := Decode.gives_of_required? (fun _ _ => Decode.value?_of_string?) htitle
  have gversion := Decode.gives_of_required? (fun _ _ => Decode.value?_of_string?) hversion
  obtain ⟨description, gdescription, hsaid⟩ :=
    Decode.gives_of_optional? (fun _ _ => Decode.value?_of_string?) hdescription
  obtain ⟨values, hvalues⟩ : ∃ values, Json.Written.memberValues? fields = some values := by
    refine Decode.exists_memberValues?_of_gives ?_ hextra
    simp only [List.forall_mem_cons]
    exact ⟨⟨_, gtitle⟩, ⟨_, gversion⟩, ⟨_, gdescription⟩, List.forall_mem_nil _⟩
  have hvalue : (Json.Written.object fields).value? = some (.object (Entries.collect values)) := by
    rw [Json.Written.value?, hvalues]
    rfl
  refine ⟨_, hvalue, ?_⟩
  have hdistinct := Entries.nodup_keys_collect values
  have hmembers := (Json.everywhere_object.mp (Json.Written.distinct_value? hvalue)).2
  have hrest := Decode.get?_rest? hvalues hextra
  refine Json.same_object_of_sameAt (nodup_keys_toFragment info)
    (Entries.nodup_keys_filter hdistinct _) fun key => Json.sameAt_of_get?_eq ?_ fun v hv => ?_
  · rw [get?_toFragment (Decode.nodup_keys_rest? hextra), hrest,
      Entries.get?_filter_of_nodup hdistinct]
    by_cases isTitle : key = "title"
    · subst isTitle
      rw [Decode.get?_of_gives hvalues gtitle]
      rfl
    by_cases isVersion : key = "version"
    · subst isVersion
      rw [Decode.get?_of_gives hvalues gversion]
      rfl
    by_cases isDescription : key = "description"
    · subst isDescription
      rw [Decode.get?_of_gives hvalues gdescription]
      exact hsaid.symm
    cases Entries.get? (Entries.collect values) key with
    | none => simp [isTitle, isVersion, isDescription]
    | some v => simp [isTitle, isVersion, isDescription, isLeftOut, Option.filter_some]
  · exact hmembers _ (List.mem_filter.mp (Entries.mem_of_get? hv)).1

/-- The fields of a document are those that are given, without what the document leaves out. -/
theorem DocumentConfig.same_toFragment {w : Json.Written} {config : DocumentConfig}
    (h : Decode.documentConfig? w = some config) :
    ∃ members, w.value? = some (.object members)
      ∧ (Json.object config.toFragment).same (.object (kept members)) = true := by
  obtain ⟨fields, rfl, hopenapi, hinfo, hservers, hsecurity, htags, hdocs, hextra⟩ :=
    Decode.of_documentConfig? h
  have gopenapi := Decode.gives_of_required? (fun _ _ => Decode.value?_of_string?) hopenapi
  obtain ⟨winfo, hwinfo, hread⟩ := Decode.required?_eq_some hinfo
  obtain ⟨info, hinfoValue, hinfoSame⟩ := Info.same_toFragment hread
  have ginfo : Decode.Gives fields "info" (some (.object info)) := .present hwinfo hinfoValue
  obtain ⟨servers, gservers, hserved⟩ := Decode.gives_of_defaulted? hservers
  obtain ⟨security, gsecurity, hsecured⟩ := Decode.gives_of_defaulted? hsecurity
  obtain ⟨tags, gtags, htagged⟩ := Decode.gives_of_defaulted? htags
  obtain ⟨docs, gdocs, hlinked⟩ := Decode.gives_of_optional? (v := id) (fun _ _ hv => hv) hdocs
  obtain ⟨values, hvalues⟩ : ∃ values, Json.Written.memberValues? fields = some values := by
    refine Decode.exists_memberValues?_of_gives ?_ hextra
    simp only [List.forall_mem_cons]
    exact ⟨⟨_, gopenapi⟩, ⟨_, ginfo⟩, ⟨_, gservers⟩, ⟨_, gsecurity⟩, ⟨_, gtags⟩, ⟨_, gdocs⟩,
      List.forall_mem_nil _⟩
  have hvalue : (Json.Written.object fields).value? = some (.object (Entries.collect values)) := by
    rw [Json.Written.value?, hvalues]
    rfl
  refine ⟨_, hvalue, ?_⟩
  have hdistinct := Entries.nodup_keys_collect values
  have hrest := Decode.get?_rest? hvalues hextra
  have hmembers := (Json.everywhere_object.mp (Json.Written.distinct_value? hvalue)).2
  refine Json.same_object_of_sameAt (nodup_keys_toFragment config) (nodup_keys_kept hdistinct)
    fun key => ?_
  by_cases isInfo : key = "info"
  · subst isInfo
    refine Or.inr ⟨.object config.info.toFragment, Info.kept (.object info), ?_, ?_, hinfoSame⟩
    · rw [get?_toFragment (Decode.nodup_keys_rest? hextra), hrest]
      rfl
    · rw [get?_kept hdistinct, Decode.get?_of_gives hvalues ginfo]
      rfl
  refine Json.sameAt_of_get?_eq ?_ fun v hv => ?_
  · rw [get?_toFragment (Decode.nodup_keys_rest? hextra), hrest, get?_kept hdistinct]
    by_cases isOpenapi : key = "openapi"
    · subst isOpenapi
      rw [Decode.get?_of_gives hvalues gopenapi]
      rfl
    by_cases isServers : key = "servers"
    · subst isServers
      rw [Decode.get?_of_gives hvalues gservers]
      simpa [isLeftOut] using hserved.symm
    by_cases isSecurity : key = "security"
    · subst isSecurity
      rw [Decode.get?_of_gives hvalues gsecurity]
      simpa [isLeftOut] using hsecured.symm
    by_cases isTags : key = "tags"
    · subst isTags
      rw [Decode.get?_of_gives hvalues gtags]
      simpa [isLeftOut] using htagged.symm
    by_cases isDocs : key = "externalDocs"
    · subst isDocs
      rw [Decode.get?_of_gives hvalues gdocs]
      simpa [isLeftOut] using hlinked.symm
    cases Entries.get? (Entries.collect values) key with
    | none => simp [isOpenapi, isInfo, isServers, isSecurity, isTags, isDocs]
    | some v =>
      simp [isOpenapi, isInfo, isServers, isSecurity, isTags, isDocs, isLeftOut, Option.filter_some]
  · rw [get?_kept hdistinct] at hv
    obtain ⟨v', hv', rfl⟩ := Option.map_eq_some_iff.mp hv
    rw [if_neg isInfo]
    exact hmembers _ (Entries.mem_of_get? (Option.filter_eq_some_iff.mp hv').1)

/-! ## What is generated over the fields -/

/-- The keys under which something is generated. -/
def Generation.generatedKeys (definitions : List Definition) : List String :=
  if definitions.any fun d => (OperationPart.webhooks.route? d).isSome then
    ["components", "paths", "webhooks"]
  else ["components", "paths"]

/-- A document has, besides what is generated, the fields that it was given. -/
theorem Generation.own_fields_of_document {config : DocumentConfig} {definitions : List Definition}
    {document : Json} (h : generateDocument config definitions = .ok document) :
    ∃ fields, document = .object fields
      ∧ (fields.filter fun e => !(generatedKeys definitions).contains e.1)
        = config.toFragment.filter fun e => !(generatedKeys definitions).contains e.1 := by
  obtain ⟨version, generation, -, hof, rfl⟩ := generateDocument_eq_ok h
  refine ⟨_, rfl, ?_⟩
  unfold generatedKeys
  split
  · exact filter_writeOver (p := fun key => !(["components", "paths", "webhooks"].contains key))
      generation _ (by decide) (by decide) (Or.inl (by decide))
  · rename_i hnone
    have hitems : OperationPart.webhooks.items generation = OperationPart.webhooks.items {} := by
      refine items_steps_of_no_route (fun d hd => ?_) hof
      rw [Definition.mem_byRank] at hd
      cases hroute : OperationPart.webhooks.route? d with
      | none => rfl
      | some r => exact absurd (List.any_eq_true.mpr ⟨d, hd, by rw [hroute]; rfl⟩) hnone
    exact filter_writeOver (p := fun key => !(["components", "paths"].contains key))
      generation _ (by decide) (by decide) (Or.inr hitems)

/-- Document fields are copied as given. What is written for the fields that an object was read as
equals that object, without an empty list of servers, security requirements or tags, external
documentation that is `null`, and a description of its `info` that is `null`. Whatever is generated
with these fields, they stand in the document as they are under all keys but those of what is
generated. -/
theorem document_fields_as_given {w : Json.Written} {config : DocumentConfig}
    (h : Decode.documentConfig? w = some config) :
    (∃ members, w.value? = some (.object members)
        ∧ (Json.object config.toFragment).same (.object (DocumentConfig.kept members)) = true)
      ∧ ∀ definitions document, generateDocument config definitions = .ok document →
          ∃ fields, document = .object fields
            ∧ (fields.filter fun e => !(Generation.generatedKeys definitions).contains e.1)
              = config.toFragment.filter fun e =>
                  !(Generation.generatedKeys definitions).contains e.1 :=
  ⟨DocumentConfig.same_toFragment h, fun _ _ => Generation.own_fields_of_document⟩

/-- Fields with everything that is left out, with others between the known ones, and with a key that
is written over when something is generated. -/
theorem fields_with_gaps_as_given :
    let w : Json.Written := .object
      [("x-first", .null), ("info", .object [("description", .null), ("version", .string "1"),
        ("x-info", .array []), ("title", .string "Shop")]), ("servers", .array []),
        ("externalDocs", .null), ("paths", .bool true), ("openapi", .string "3.1.0"),
        ("tags", .array [.string "a"])]
    ∃ config members fields, Decode.documentConfig? w = some config
      ∧ w.value? = some (.object members)
      ∧ DocumentConfig.kept members
        = [("x-first", .null), ("info", .object [("version", .string "1"), ("x-info", .array []),
          ("title", .string "Shop")]), ("paths", .bool true), ("openapi", .string "3.1.0"),
          ("tags", .array [.string "a"])]
      ∧ (Json.object config.toFragment).same (.object (DocumentConfig.kept members)) = true
      ∧ generateDocument config [] = .ok (.object fields)
      ∧ (fields.filter fun e => !(["components", "paths"].contains e.1))
        = config.toFragment.filter fun e => !(["components", "paths"].contains e.1) := by
  intro w
  obtain ⟨⟨members, hvalue, hsame⟩, hgenerated⟩ := document_fields_as_given (w := w) rfl
  obtain ⟨fields, hfields, hown⟩ := hgenerated [] _ rfl
  refine ⟨_, members, fields, rfl, hvalue, ?_, hsame, congrArg Except.ok hfields, hown⟩
  obtain rfl : _ = members := Json.object.inj (Option.some.inj hvalue)
  rfl

end OpenApi
