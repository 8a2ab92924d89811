/-
# OpenApi.Proofs.Annotation -- what remarks on a schema add up to

Metadata, an identifier and a description are put on a schema by calls, any number of them and in any
order. Each call starts from what is visible on the schema and writes a full label back, so that none
loses what another has said (`Schema.identity?_make`, `Schema.ownMetadata?_make`). Hence a sequence of
calls leaves a node on which the last name stands, the last description, and the records merged from
left to right, and the node depends on nothing else (`Schema.remarkAll_congr`).

Merging is associative, the order of keys included, as long as no record repeats a key.
-/
import OpenApi.Proofs.Entries
import OpenApi.Schema.Builder
import OpenApi.Site.OfSchema

namespace OpenApi

/-! ## Merging records -/

namespace ParameterInfo

/-- No key is repeated. -/
def Distinct (info : ParameterInfo) : Prop := (Entries.keys info.extra).Nodup

theorem Distinct.merge {earlier : ParameterInfo} (h : earlier.Distinct) (later : ParameterInfo) :
    (earlier.merge later).Distinct := Entries.nodup_keys_extend h later.extra

theorem merge_assoc (first : ParameterInfo) {second : ParameterInfo} (h : second.Distinct)
    (third : ParameterInfo) :
    (first.merge second).merge third = first.merge (second.merge third) := by
  unfold merge
  dsimp only
  rw [Option.or_assoc, Option.or_assoc, Option.or_assoc, Entries.extend_assoc _ h]

end ParameterInfo

namespace Metadata

/-- No key is repeated, neither among the document keys nor among those of the parameter. -/
structure Distinct (metadata : Metadata) : Prop where
  fields : (Entries.keys metadata.fields).Nodup
  parameter : ∀ info, metadata.parameter = some info → info.Distinct

theorem Distinct.merge {earlier : Metadata} (h : earlier.Distinct) {later : Metadata}
    (h' : later.Distinct) : (earlier.merge later).Distinct where
  fields := Entries.nodup_keys_extend h.fields later.fields
  parameter := by
    intro info hinfo
    change mergeParameter earlier.parameter later.parameter = some info at hinfo
    cases hearlier : earlier.parameter with
    | none =>
      rw [hearlier] at hinfo
      exact h'.parameter info hinfo
    | some old =>
      rw [hearlier] at hinfo
      cases hlater : later.parameter with
      | none =>
        rw [hlater] at hinfo
        exact h.parameter info (hearlier.trans hinfo)
      | some new =>
        rw [hlater] at hinfo
        cases hinfo
        exact (h.parameter old hearlier).merge new

theorem mergeParameter_assoc (first : Option ParameterInfo) {second : Option ParameterInfo}
    (h : ∀ info, second = some info → info.Distinct) (third : Option ParameterInfo) :
    mergeParameter (mergeParameter first second) third
      = mergeParameter first (mergeParameter second third) := by
  cases second with
  | none => cases first <;> rfl
  | some middle =>
    cases first with
    | none => cases third <;> rfl
    | some earlier =>
      cases third with
      | none => rfl
      | some later => exact congrArg some (earlier.merge_assoc (h middle rfl) later)

/-- Merging is associative, the order of keys included. -/
theorem merge_assoc (first : Metadata) {second : Metadata} (h : second.Distinct)
    (third : Metadata) :
    (first.merge second).merge third = first.merge (second.merge third) := by
  unfold merge
  dsimp only
  rw [mergeParameter_assoc _ h.parameter, Entries.extend_assoc _ h.fields]

theorem merge_empty (metadata : Metadata) : metadata.merge {} = metadata := by
  obtain ⟨parameter, fields⟩ := metadata
  cases parameter <;> rfl

theorem empty_merge {metadata : Metadata} (h : metadata.Distinct) :
    Metadata.merge {} metadata = metadata := by
  unfold merge
  dsimp only
  rw [Entries.extend_nil_left h.fields]
  rfl

/-- Records merged from left to right, over one that is there already or over none. -/
def mergeAll (visible : Option Metadata) (records : List Metadata) : Option Metadata :=
  records.foldl (fun merged record => merged.merge Metadata.merge (some record)) visible

theorem mergeAll_append (visible : Option Metadata) (first second : List Metadata) :
    mergeAll visible (first ++ second) = mergeAll (mergeAll visible first) second :=
  List.foldl_append

/-- Two records in a row count as one. -/
theorem mergeAll_pair (visible : Option Metadata) {record : Metadata} (h : record.Distinct)
    (later : Metadata) (rest : List Metadata) :
    mergeAll visible (record :: later :: rest) = mergeAll visible (record.merge later :: rest) := by
  cases visible with
  | none => rfl
  | some own =>
    show mergeAll (some ((own.merge record).merge later)) rest
      = mergeAll (some (own.merge (record.merge later))) rest
    rw [own.merge_assoc h]

/-- A record that says nothing of a parameter, and one that says nothing else, can change places. -/
theorem mergeAll_swap (visible : Option Metadata) (info : ParameterInfo) {record : Metadata}
    (hparameter : record.parameter = none) (h : record.Distinct) :
    mergeAll visible [ofParameter info, record] = mergeAll visible [record, ofParameter info] := by
  obtain ⟨_, fields⟩ := record
  cases hparameter
  cases visible with
  | none =>
    show some (merge (ofParameter info) ⟨none, fields⟩) = some (merge ⟨none, fields⟩ (ofParameter info))
    unfold merge ofParameter
    dsimp only
    rw [Entries.extend_nil_left h.fields]
    rfl
  | some own =>
    obtain ⟨parameter, _⟩ := own
    cases parameter <;> rfl

/-- A record that says nothing of a parameter can be merged before all that say nothing else. -/
theorem mergeAll_parameters_concat (visible : Option Metadata) (infos : List ParameterInfo)
    {record : Metadata} (hparameter : record.parameter = none) (h : record.Distinct) :
    mergeAll visible (infos.map ofParameter ++ [record])
      = mergeAll visible (record :: infos.map ofParameter) := by
  induction infos generalizing visible with
  | nil => rfl
  | cons info rest ih =>
    calc mergeAll visible (ofParameter info :: (rest.map ofParameter ++ [record]))
        = mergeAll (mergeAll visible [ofParameter info]) (rest.map ofParameter ++ [record]) := rfl
      _ = mergeAll (mergeAll visible [ofParameter info, record]) (rest.map ofParameter) := ih _
      _ = mergeAll (mergeAll visible [record, ofParameter info]) (rest.map ofParameter) := by
        rw [mergeAll_swap visible info hparameter h]

end Metadata

namespace Schema

/-! ## Remarks -/

/-- A call that says something about a schema. -/
inductive Remark where
  | annotate (metadata : Metadata)
  | parameter (info : ParameterInfo)
  | named (refId : String)
  | describe (text : String)

namespace Remark

/-- What the call makes of a schema. -/
def make : Remark → Schema → Schema
  | annotate metadata, s => s.annotate metadata
  | parameter info, s => s.parameter info
  | named refId, s => s.named refId
  | describe text, s => s.describe text

/-- The record that is merged over what is visible. A parameter is described by a record too. -/
def record? : Remark → Option Metadata
  | annotate metadata => some metadata
  | parameter info => some (.ofParameter info)
  | named _ | describe _ => none

/-- The record of a call for metadata. -/
def annotation? : Remark → Option Metadata
  | annotate metadata => some metadata
  | parameter _ | named _ | describe _ => none

/-- The record of a call for a parameter. -/
def info? : Remark → Option ParameterInfo
  | parameter info => some info
  | annotate _ | named _ | describe _ => none

/-- The identifier that is given. -/
def refId? : Remark → Option String
  | named refId => some refId
  | annotate _ | parameter _ | describe _ => none

/-- The description that is given. -/
def text? : Remark → Option String
  | describe text => some text
  | annotate _ | parameter _ | named _ => none

/-- Whether a label is written. A description is not part of the label. -/
def labels (r : Remark) : Bool := r.record?.isSome || r.refId?.isSome

end Remark

/-- What a sequence of calls makes of a schema. The first of them is called first. -/
def remarkAll (remarks : List Remark) (s : Schema) : Schema :=
  remarks.foldl (fun s r => r.make s) s

/-- An identity under another identifier, if there is one. -/
def Identity.renamed (identity : Option (Identity Schema)) :
    Option String → Option (Identity Schema)
  | some refId => some { identity.getD {} with refId := some refId }
  | none => identity

theorem Identity.renamed_renamed (identity : Option (Identity Schema)) (first second : Option String) :
    renamed (renamed identity first) second = renamed identity (second.or first) := by
  cases first <;> cases second <;> rfl

/-! ## One remark -/

section One

variable (r : Remark) (s : Schema)

theorem kind_make : (r.make s).kind = s.kind := by
  obtain ⟨kind, description, label⟩ := s
  cases r <;> rfl

theorem description_make : (r.make s).description = r.text?.or s.description := by
  obtain ⟨kind, description, label⟩ := s
  cases r <;> rfl

theorem visibleLabel_withLabel (label : Label Schema) :
    (s.withLabel label).visibleLabel = some label := by
  obtain ⟨kind, description, own⟩ := s
  rfl

/-- Describing a node leaves the look-up of labels as it is, also where the node is the innermost. -/
theorem visibleLabel_describe (text : String) : (s.describe text).visibleLabel = s.visibleLabel := by
  obtain ⟨kind, description, label⟩ := s
  cases label <;> cases kind <;> rfl

theorem visibleLabel_getD : s.visibleLabel.getD {} = ⟨s.identity?, s.ownMetadata?⟩ := by
  unfold identity? ownMetadata?
  cases s.visibleLabel <;> rfl

/-- A label is what is visible already, under the new name and with the record merged over it. -/
theorem visibleLabel_make (h : r.labels = true) :
    (r.make s).visibleLabel = some ⟨Identity.renamed s.identity? r.refId?,
      s.ownMetadata?.merge Metadata.merge r.record?⟩ := by
  have annotated (metadata : Metadata) : (s.annotate metadata).visibleLabel
      = some ⟨s.identity?, s.ownMetadata?.merge Metadata.merge (some metadata)⟩ := by
    unfold annotate
    dsimp only
    rw [visibleLabel_withLabel, visibleLabel_getD]
    cases s.ownMetadata? <;> rfl
  cases r with
  | annotate metadata => exact annotated metadata
  | parameter info => exact annotated (.ofParameter info)
  | named refId =>
    show (s.named refId).visibleLabel = _
    unfold named
    dsimp only
    rw [visibleLabel_withLabel, visibleLabel_getD]
    cases s.ownMetadata? <;> rfl
  | describe text => cases h

theorem eq_describe_of_not_labels (h : r.labels = false) : ∃ text, r = .describe text := by
  cases r with
  | describe text => exact ⟨text, rfl⟩
  | annotate _ | parameter _ | named _ => cases h

theorem identity?_make : (r.make s).identity? = Identity.renamed s.identity? r.refId? := by
  cases h : r.labels with
  | true => rw [identity?, visibleLabel_make r s h, Option.bind_some]
  | false =>
    obtain ⟨text, rfl⟩ := eq_describe_of_not_labels r h
    show (s.describe text).identity? = s.identity?
    rw [identity?, visibleLabel_describe, identity?]

theorem ownMetadata?_make :
    (r.make s).ownMetadata? = s.ownMetadata?.merge Metadata.merge r.record? := by
  cases h : r.labels with
  | true => rw [ownMetadata?, visibleLabel_make r s h, Option.bind_some]
  | false =>
    obtain ⟨text, rfl⟩ := eq_describe_of_not_labels r h
    show (s.describe text).ownMetadata? = _
    rw [ownMetadata?, visibleLabel_describe, ownMetadata?]
    cases s.visibleLabel.bind (·.metadata) <;> rfl

/-- A node that a label was written on carries all that is visible. -/
theorem label_make : (r.make s).label
    = if r.labels then some ⟨(r.make s).identity?, (r.make s).ownMetadata?⟩ else s.label := by
  cases h : r.labels with
  | true =>
    have hown : (r.make s).label = (r.make s).visibleLabel := by
      obtain ⟨kind, description, label⟩ := s
      cases r with
      | describe text => cases h
      | annotate _ | parameter _ | named _ => rfl
    rw [if_pos rfl, identity?_make, ownMetadata?_make, hown, visibleLabel_make r s h]
  | false =>
    obtain ⟨text, rfl⟩ := eq_describe_of_not_labels r h
    obtain ⟨kind, description, label⟩ := s
    rfl

theorem visibleDescription_make :
    (r.make s).visibleDescription = r.text?.or s.visibleDescription := by
  obtain ⟨kind, description, label⟩ := s
  cases r with
  | describe text => rfl
  | annotate _ | parameter _ | named _ => cases kind <;> rfl

/-! ### Records -/

theorem refId?_annotate (metadata : Metadata) : (s.annotate metadata).refId? = s.refId? :=
  congrArg (·.bind (·.refId)) (identity?_make (.annotate metadata) s)

theorem shape_annotate (metadata : Metadata) :
    (s.annotate metadata).shape false = s.shape false := by
  have hrefId := refId?_annotate s metadata
  obtain ⟨kind, description, label⟩ := s
  cases kind with
  | object => rcases label with _ | ⟨_ | ⟨own, _ | parent⟩, metadata⟩ <;> rfl
  | never | void | undefined | map _ _ | set _ | promise _ =>
    exact congrArg (fun refId => Shape.invalid (.unknownKind _ refId)) hrefId
  | _ => rfl

theorem isNullable_annotate (metadata : Metadata) :
    (s.annotate metadata).isNullable = s.isNullable := by
  obtain ⟨kind, description, label⟩ := s
  cases kind <;> rfl

/-- What is said about a parameter adds nothing to the document keys. -/
theorem documentKeys_parameter (info : ParameterInfo) :
    (s.parameter info).documentKeys = s.documentKeys := by
  have hdescription : (s.parameter info).visibleDescription = s.visibleDescription :=
    visibleDescription_make (.parameter info) s
  have hown : (s.parameter info).ownMetadata?
      = s.ownMetadata?.merge Metadata.merge (some (.ofParameter info)) :=
    ownMetadata?_make (.parameter info) s
  unfold documentKeys metadata
  rw [hdescription, hown]
  cases s.ownMetadata? <;> rfl

end One

/-! ## Sequences of remarks -/

section Sequences

variable {remarks remarks' : List Remark} {s : Schema}

theorem remarkAll_concat (remarks : List Remark) (r : Remark) (s : Schema) :
    remarkAll (remarks ++ [r]) s = r.make (remarkAll remarks s) := List.foldl_concat _ _ _ _

theorem kind_remarkAll (remarks : List Remark) (s : Schema) :
    (remarkAll remarks s).kind = s.kind := by
  induction remarks using List.reverseRecOn with
  | nil => rfl
  | append_singleton rest r ih => rw [remarkAll_concat, kind_make, ih]

/-- A text that each call sets or leaves is in the end the last one that was set. -/
theorem last_remarkAll {view : Schema → Option String} {told? : Remark → Option String}
    (step : ∀ (r : Remark) s, view (r.make s) = (told? r).or (view s)) (remarks : List Remark)
    (s : Schema) :
    view (remarkAll remarks s) = ((remarks.filterMap told?).getLast?).or (view s) := by
  induction remarks using List.reverseRecOn with
  | nil => rfl
  | append_singleton rest r ih =>
    rw [remarkAll_concat, step, ih, List.filterMap_append]
    cases h : told? r with
    | none => simp [h]
    | some text => simp [h]

theorem identity?_remarkAll (remarks : List Remark) (s : Schema) :
    (remarkAll remarks s).identity?
      = Identity.renamed s.identity? (remarks.filterMap Remark.refId?).getLast? := by
  induction remarks using List.reverseRecOn with
  | nil => rfl
  | append_singleton rest r ih =>
    rw [remarkAll_concat, identity?_make, ih, Identity.renamed_renamed, List.filterMap_append]
    cases h : r.refId? with
    | none => simp [h]
    | some refId => simp [h]

theorem refId?_remarkAll (remarks : List Remark) (s : Schema) :
    (remarkAll remarks s).refId?
      = ((remarks.filterMap Remark.refId?).getLast?).or s.refId? := by
  rw [refId?, identity?_remarkAll, refId?]
  cases (remarks.filterMap Remark.refId?).getLast? <;> rfl

/-- No call touches the link to an extended object. -/
theorem parent_remarkAll (remarks : List Remark) (s : Schema) :
    (remarkAll remarks s).identity?.bind (·.parent) = s.identity?.bind (·.parent) := by
  rw [identity?_remarkAll]
  cases (remarks.filterMap Remark.refId?).getLast? with
  | none => rfl
  | some refId => cases s.identity? <;> rfl

theorem ownMetadata?_remarkAll (remarks : List Remark) (s : Schema) :
    (remarkAll remarks s).ownMetadata?
      = Metadata.mergeAll s.ownMetadata? (remarks.filterMap Remark.record?) := by
  induction remarks using List.reverseRecOn with
  | nil => rfl
  | append_singleton rest r ih =>
    rw [remarkAll_concat, ownMetadata?_make, ih, List.filterMap_append, Metadata.mergeAll_append]
    cases h : r.record? with
    | none =>
      rw [List.filterMap_cons_none h]
      cases Metadata.mergeAll s.ownMetadata? (rest.filterMap Remark.record?) <;> rfl
    | some record =>
      rw [List.filterMap_cons_some h]
      rfl

theorem label_remarkAll (remarks : List Remark) (s : Schema) :
    (remarkAll remarks s).label
      = if remarks.any Remark.labels then
          some ⟨(remarkAll remarks s).identity?, (remarkAll remarks s).ownMetadata?⟩
        else s.label := by
  induction remarks using List.reverseRecOn with
  | nil => rfl
  | append_singleton rest r ih =>
    rw [remarkAll_concat, label_make, List.any_append, List.any_cons, List.any_nil, Bool.or_false]
    cases h : r.labels with
    | true => rw [Bool.or_true, if_pos rfl, if_pos rfl]
    | false =>
      obtain ⟨text, rfl⟩ := eq_describe_of_not_labels r h
      rw [ih, Bool.or_false, identity?_make, ownMetadata?_make]
      cases (remarkAll rest s).ownMetadata? <;> rfl

theorem any_labels_iff : remarks.any Remark.labels = true
    ↔ remarks.filterMap Remark.record? ≠ [] ∨ remarks.filterMap Remark.refId? ≠ [] := by
  induction remarks with
  | nil => simp
  | cons r rest ih =>
    rw [List.any_cons, Bool.or_eq_true, ih]
    cases r <;> simp [Remark.labels, Remark.record?, Remark.refId?]

/-- Where the calls for metadata say nothing of parameters, they can as well be made before the calls
for parameters. -/
theorem mergeAll_records (visible : Option Metadata) (remarks : List Remark)
    (apart : ∀ m ∈ remarks.filterMap Remark.annotation?, m.parameter = none ∧ m.Distinct) :
    Metadata.mergeAll visible (remarks.filterMap Remark.record?)
      = Metadata.mergeAll (Metadata.mergeAll visible (remarks.filterMap Remark.annotation?))
          ((remarks.filterMap Remark.info?).map .ofParameter) := by
  induction remarks using List.reverseRecOn with
  | nil => rfl
  | append_singleton rest r ih =>
    rw [List.filterMap_append] at apart
    have hrest := ih fun m hm => apart m (List.mem_append_left _ hm)
    rw [List.filterMap_append, List.filterMap_append, List.filterMap_append, List.map_append,
      Metadata.mergeAll_append, Metadata.mergeAll_append, hrest]
    cases r with
    | annotate metadata =>
      -- The record comes last, and has to be moved before the parameters that are there.
      obtain ⟨hparameter, hdistinct⟩ :=
        apart metadata (List.mem_append_right _ (List.mem_singleton_self metadata))
      have hmoved := Metadata.mergeAll_parameters_concat
        (Metadata.mergeAll visible (rest.filterMap Remark.annotation?))
        (rest.filterMap Remark.info?) hparameter hdistinct
      rw [Metadata.mergeAll_append] at hmoved
      rw [Metadata.mergeAll_append]
      exact hmoved
    | parameter info =>
      rw [Metadata.mergeAll_append]
      rfl
    | named _ | describe _ =>
      rw [Metadata.mergeAll_append]
      rfl

theorem eq_of_parts {t : Schema} (kind : s.kind = t.kind) (description : s.description = t.description)
    (label : s.label = t.label) : s = t := by
  obtain ⟨_, _, _⟩ := s
  obtain ⟨_, _, _⟩ := t
  cases kind
  cases description
  cases label
  rfl

/-- Two sequences that give the same last name and the same last description, and whose records merge
to the same, make the same node. -/
theorem remarkAll_congr
    (names : (remarks.filterMap Remark.refId?).getLast? = (remarks'.filterMap Remark.refId?).getLast?)
    (texts : (remarks.filterMap Remark.text?).getLast? = (remarks'.filterMap Remark.text?).getLast?)
    (records : Metadata.mergeAll s.ownMetadata? (remarks.filterMap Remark.record?)
      = Metadata.mergeAll s.ownMetadata? (remarks'.filterMap Remark.record?))
    (labelled : remarks.any Remark.labels = remarks'.any Remark.labels) :
    remarkAll remarks s = remarkAll remarks' s := by
  apply eq_of_parts
  · rw [kind_remarkAll, kind_remarkAll]
  · rw [last_remarkAll description_make, last_remarkAll description_make, texts]
  · rw [label_remarkAll, label_remarkAll, labelled, identity?_remarkAll, identity?_remarkAll, names,
      ownMetadata?_remarkAll, ownMetadata?_remarkAll, records]

theorem records_eq_nil_iff : remarks.filterMap Remark.record? = []
    ↔ remarks.filterMap Remark.annotation? = [] ∧ remarks.filterMap Remark.info? = [] := by
  have hnone (r : Remark) : r.record? = none ↔ r.annotation? = none ∧ r.info? = none := by
    cases r <;> simp [Remark.record?, Remark.annotation?, Remark.info?]
  simp only [List.filterMap_eq_nil_iff, hnone, imp_and, forall_and]

/-- Where the calls for metadata say nothing of parameters, only the order among the calls of each of
the four kinds matters. -/
theorem remarkAll_congr_of_calls
    (names : remarks.filterMap Remark.refId? = remarks'.filterMap Remark.refId?)
    (texts : remarks.filterMap Remark.text? = remarks'.filterMap Remark.text?)
    (annotations : remarks.filterMap Remark.annotation? = remarks'.filterMap Remark.annotation?)
    (infos : remarks.filterMap Remark.info? = remarks'.filterMap Remark.info?)
    (apart : ∀ m ∈ remarks.filterMap Remark.annotation?, m.parameter = none ∧ m.Distinct) :
    remarkAll remarks s = remarkAll remarks' s := by
  refine remarkAll_congr (by rw [names]) (by rw [texts]) ?records ?labelled
  case records =>
    rw [mergeAll_records _ remarks apart, mergeAll_records _ remarks' (annotations ▸ apart),
      annotations, infos]
  case labelled =>
    rw [Bool.eq_iff_iff, any_labels_iff, any_labels_iff, ne_eq, records_eq_nil_iff, names, annotations,
      infos, ← records_eq_nil_iff]

end Sequences

/-! ## What is said in all -/

/-- The description of a schema as a record. -/
def describedMetadata (s : Schema) : Metadata :=
  { fields := Entries.insertSome [] "description" (s.visibleDescription.map .string) }

theorem metadata_eq (s : Schema) :
    s.metadata = s.ownMetadata?.elim s.describedMetadata s.describedMetadata.merge := by
  unfold metadata describedMetadata
  cases s.ownMetadata? <;> rfl

/-- The description with the records over it: it makes no difference whether the records are merged
first, or one after another over the description. -/
theorem elim_mergeAll (described : Metadata) {visible : Option Metadata} {records : List Metadata}
    (hvisible : ∀ own, visible = some own → own.Distinct) (hrecords : ∀ m ∈ records, m.Distinct) :
    (Metadata.mergeAll visible records).elim described described.merge
      = records.foldl Metadata.merge (visible.elim described described.merge) := by
  -- The first record is moved over to what is visible, so the induction is for any such record.
  induction records generalizing visible with
  | nil => rfl
  | cons record rest ih =>
    have hrecord := hrecords record List.mem_cons_self
    have hrest : ∀ m ∈ rest, m.Distinct := fun m hm => hrecords m (List.mem_cons_of_mem _ hm)
    cases visible with
    | none =>
      have hvisible' : ∀ own, some record = some own → own.Distinct := by
        intro own hown
        cases hown
        exact hrecord
      exact ih hvisible' hrest
    | some own =>
      have hown := hvisible own rfl
      show (Metadata.mergeAll (some (own.merge record)) rest).elim described described.merge
        = rest.foldl Metadata.merge ((described.merge own).merge record)
      rw [described.merge_assoc hown]
      have hvisible' : ∀ merged, some (own.merge record) = some merged → merged.Distinct := by
        intro merged hmerged
        cases hmerged
        exact hown.merge hrecord
      exact ih hvisible' hrest

theorem metadata_remarkAll {remarks : List Remark} {s : Schema}
    (hvisible : ∀ own, s.ownMetadata? = some own → own.Distinct)
    (hrecords : ∀ m ∈ remarks.filterMap Remark.record?, m.Distinct) :
    (remarkAll remarks s).metadata = (remarks.filterMap Remark.record?).foldl Metadata.merge
      (((remarks.filterMap Remark.text?).getLast?.elim s s.describe).metadata) := by
  have hdescription := last_remarkAll visibleDescription_make remarks s
  rw [metadata_eq, ownMetadata?_remarkAll, elim_mergeAll _ hvisible hrecords, metadata_eq]
  cases hlast : (remarks.filterMap Remark.text?).getLast? with
  | none =>
    rw [hlast, Option.none_or] at hdescription
    rw [describedMetadata, hdescription]
    rfl
  | some text =>
    have hown : (s.describe text).ownMetadata? = s.ownMetadata? := by
      rw [ownMetadata?, visibleLabel_describe, ownMetadata?]
    have htext : (s.describe text).visibleDescription = some text :=
      visibleDescription_make (.describe text) s
    rw [hlast, Option.some_or] at hdescription
    rw [Option.elim_some, hown, describedMetadata, describedMetadata, hdescription, htext]

/-- What a sequence of remarks leaves on a schema: the kind and the link as they were, the last name and
the last description that were given, and the records merged from left to right over the one that was
visible. With the description folded in, they are merged over what would be said without them. -/
structure Remarked (s : Schema) (remarks : List Remark) (t : Schema) : Prop where
  kind : t.kind = s.kind
  refId : t.refId? = ((remarks.filterMap Remark.refId?).getLast?).or s.refId?
  parent : t.identity?.bind (·.parent) = s.identity?.bind (·.parent)
  description : t.description = ((remarks.filterMap Remark.text?).getLast?).or s.description
  record : t.ownMetadata? = Metadata.mergeAll s.ownMetadata? (remarks.filterMap Remark.record?)
  metadata : (∀ own, s.ownMetadata? = some own → own.Distinct) →
    (∀ m ∈ remarks.filterMap Remark.record?, m.Distinct) →
    t.metadata = (remarks.filterMap Remark.record?).foldl Metadata.merge
      (((remarks.filterMap Remark.text?).getLast?.elim s s.describe).metadata)

theorem remarked_remarkAll (remarks : List Remark) (s : Schema) :
    Remarked s remarks (remarkAll remarks s) where
  kind := kind_remarkAll remarks s
  refId := refId?_remarkAll remarks s
  parent := parent_remarkAll remarks s
  description := last_remarkAll description_make remarks s
  record := ownMetadata?_remarkAll remarks s
  metadata := metadata_remarkAll

/-- Two records in a row can be given as one. -/
theorem remarkAll_pair (first rest : List Remark) {r r' : Remark} {m m' : Metadata}
    (hr : r.record? = some m) (hr' : r'.record? = some m') (hm : m.Distinct) (s : Schema) :
    remarkAll (first ++ r :: r' :: rest) s = remarkAll (first ++ .annotate (m.merge m') :: rest) s := by
  have nameless {r : Remark} {m : Metadata} (hr : r.record? = some m) :
      r.refId? = none ∧ r.text? = none ∧ r.labels = true := by
    cases r with
    | annotate _ | parameter _ => exact ⟨rfl, rfl, rfl⟩
    | named _ | describe _ => cases hr
  have hmerged : (Remark.annotate (m.merge m')).record? = some (m.merge m') := rfl
  obtain ⟨hname, htext, hlabels⟩ := nameless hr
  obtain ⟨hname', htext', hlabels'⟩ := nameless hr'
  obtain ⟨hname'', htext'', hlabels''⟩ := nameless hmerged
  apply remarkAll_congr
  · rw [List.filterMap_append, List.filterMap_append, List.filterMap_cons_none hname,
      List.filterMap_cons_none hname', List.filterMap_cons_none hname'']
  · rw [List.filterMap_append, List.filterMap_append, List.filterMap_cons_none htext,
      List.filterMap_cons_none htext', List.filterMap_cons_none htext'']
  · rw [List.filterMap_append, List.filterMap_append, List.filterMap_cons_some hr,
      List.filterMap_cons_some hr', List.filterMap_cons_some hmerged, Metadata.mergeAll_append,
      Metadata.mergeAll_append, Metadata.mergeAll_pair _ hm]
  · simp only [List.any_append, List.any_cons, hlabels, hlabels'', Bool.true_or]

/-- Remarks on a schema add up. Names, descriptions and records each decide their own part of the node,
by their order alone, so that they can be interleaved at will. A call for a parameter gives a record as
one for metadata does; the two can be interleaved where the latter says nothing of parameters. Two
records in a row are one record, merged. Merging is associative, and the empty record changes nothing. -/
theorem remarks_compose (s : Schema) (remarks : List Remark) :
    Remarked s remarks (remarkAll remarks s)
      ∧ (∀ remarks' : List Remark,
          remarks'.filterMap Remark.refId? = remarks.filterMap Remark.refId? →
          remarks'.filterMap Remark.text? = remarks.filterMap Remark.text? →
          remarks'.filterMap Remark.record? = remarks.filterMap Remark.record? →
            remarkAll remarks' s = remarkAll remarks s)
      ∧ (∀ remarks' : List Remark,
          remarks'.filterMap Remark.refId? = remarks.filterMap Remark.refId? →
          remarks'.filterMap Remark.text? = remarks.filterMap Remark.text? →
          remarks'.filterMap Remark.annotation? = remarks.filterMap Remark.annotation? →
          remarks'.filterMap Remark.info? = remarks.filterMap Remark.info? →
          (∀ m ∈ remarks'.filterMap Remark.annotation?, m.parameter = none ∧ m.Distinct) →
            remarkAll remarks' s = remarkAll remarks s)
      ∧ (∀ first r r' rest m m', remarks = first ++ r :: r' :: rest →
          r.record? = some m → r'.record? = some m' → m.Distinct →
            remarkAll remarks s = remarkAll (first ++ .annotate (m.merge m') :: rest) s)
      ∧ (∀ first second third : Metadata, second.Distinct →
          (first.merge second).merge third = first.merge (second.merge third))
      ∧ (∀ m : Metadata, m.merge {} = m)
      ∧ ∀ m : Metadata, m.Distinct → Metadata.merge {} m = m := by
  refine ⟨remarked_remarkAll remarks s, ?interleaved,
    fun _ names texts annotations infos => remarkAll_congr_of_calls names texts annotations infos, ?paired,
    fun first _ third h => first.merge_assoc h third, Metadata.merge_empty,
    fun _ h => Metadata.empty_merge h⟩
  case interleaved =>
    intro remarks' names texts records
    refine remarkAll_congr (by rw [names]) (by rw [texts]) (by rw [records]) ?_
    rw [Bool.eq_iff_iff, any_labels_iff, any_labels_iff, names, records]
  case paired =>
    rintro first r r' rest m m' rfl hr hr' hm
    exact remarkAll_pair first rest hr hr' hm s

/-- Remarks on a wrapper around a named number: the last name stands, the link of the number is kept, and
the records of both metadata calls and the parameter call are merged over the record of the number. The
same node results where names and descriptions come last, and where the two records are given as one. -/
theorem renamed_and_annotated :
    let limit := ((ofKind (.number [])).named "Limit").annotate { fields := [("title", .string "limit")] }
    let first : Metadata := { fields := [("example", .nat 1)] }
    let second : Metadata :=
      { parameter := some { location := some .query }, fields := [("title", .string "size"), ("x", .null)] }
    let remarks : List Remark := [.named "Page", .annotate first, .annotate second, .describe "a size",
      .parameter { name := some "size" }, .named "Size"]
    let reordered : List Remark := [.annotate first, .annotate second,
      .parameter { name := some "size" }, .describe "a size", .named "Page", .named "Size"]
    let t := remarkAll remarks limit.nullable
    t.refId? = some "Size" ∧ t.description = some "a size"
      ∧ t.ownMetadata? = some
        { parameter := some { name := some "size", location := some .query }
          fields := [("title", .string "size"), ("example", .nat 1), ("x", .null)] }
      ∧ remarkAll reordered limit.nullable = t
      ∧ t = remarkAll [.named "Page", .annotate (first.merge second), .describe "a size",
        .parameter { name := some "size" }, .named "Size"] limit.nullable := by
  intro limit first second remarks reordered t
  have hfirst : first.Distinct := ⟨List.nodup_singleton _, fun info h => by cases h⟩
  obtain ⟨hremarked, hinterleaved, _, hpaired, _⟩ := remarks_compose limit.nullable remarks
  exact ⟨hremarked.refId, hremarked.description, hremarked.record, hinterleaved reordered rfl rfl rfl,
    hpaired [.named "Page"] _ _ _ first second rfl rfl rfl hfirst⟩

end Schema

end OpenApi
