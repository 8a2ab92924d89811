/-
# OpenApi.Proofs.LawfulOperations -- parameters and operations satisfy every lawful law

The invariant of `OpenApi.Proofs.LawfulSites` goes on from sites to what is built around them. A
schema is acceptable (`Law.Accepts`) if its links lead where they say and what is given with it is
as the law grants it; writing parameter data onto a schema keeps it acceptable. References to
parameters are answered only where the identifier is registered.

From here on laws leave the keys of objects free: media types, headers, statuses and the names of
request parameters are taken as they were submitted.
-/
import OpenApi.Proofs.Annotation
import OpenApi.Proofs.LawfulSites

namespace OpenApi.Law

variable {law : Law} {dialect : Dialect} {registered base : Store Fragment} {stock : Stock}

/-! ## Acceptable schemas -/

/-- A schema whose links lead where they say, if the law binds references, whose objects list
their fields under keys that the law has, with nothing given that the law does not grant, and with
no composition left without members unless the law grants that. -/
structure Accepts (law : Law) (s : Schema) : Prop where
  linked : law.Binds → s.Linked
  lists : s.Lists law.Keys
  given : ∀ value, s.Gives value → law.Clean value
  fills : ∀ t, s.Contains t → law.Fills t.site

theorem Accepts.of_contains {s t : Schema} (h : law.Accepts s) (ht : s.Contains t) :
    law.Accepts t where
  linked hb := (h.linked hb).of_contains ht
  lists := h.lists.of_contains ht
  given value hvalue := h.given value (hvalue.of_contains ht)
  fills t' ht' := h.fills t' (ht.trans ht')

/-- Compiling an acceptable schema answers and stores what satisfies the law. -/
theorem Accepts.compiles {s : Schema} (lawful : law.Lawful dialect) (h : law.Accepts s) :
    law.Compiles registered dialect s.site := by
  refine Law.compiles lawful s.site (fun _ hu => ?_) fun _ hu => ?_
  · exact Schema.wired_of_reaches lawful.keys_nil h.linked h.lists h.given hu
  · obtain ⟨t, ht, rfl⟩ := Schema.settled_of_reaches hu
    exact h.fills t ht

section Given

variable (lawful : law.Lawful dialect)

include lawful

theorem keys_extend {earlier later : Fragment} (h : law.Keys (Entries.keys earlier)) :
    law.Keys (Entries.keys (Entries.extend earlier later)) := by
  induction later generalizing earlier with
  | nil => exact h
  | cons first rest ih =>
    refine ih ?_
    rw [Entries.keys_insert]
    split
    · exact h
    · rename_i hkey
      exact lawful.keys_snoc h hkey

theorem Clean.extend {earlier later : Fragment} (h : law.Clean (.object earlier))
    (h' : law.Clean (.object later)) : law.Clean (.object (Entries.extend earlier later)) := by
  obtain ⟨⟨hkeys, hgrants⟩, hvalues⟩ := Json.everywhere_object.mp h
  obtain ⟨⟨_, hgrants'⟩, hvalues'⟩ := Json.everywhere_object.mp h'
  refine Json.everywhere_object.mpr ⟨⟨keys_extend lawful hkeys, fun e he => ?_⟩, fun e he => ?_⟩
  · exact (Entries.mem_extend he).elim (hgrants' e) (hgrants e)
  · exact (Entries.mem_extend he).elim (hvalues' e) (hvalues e)

theorem clean_nil : law.Clean (.object []) :=
  Json.everywhere_object.mpr ⟨⟨lawful.keys_nil, fun _ he => absurd he List.not_mem_nil⟩,
    fun _ he => absurd he List.not_mem_nil⟩

theorem clean_mergeParameter {earlier later : Option ParameterInfo} {info : ParameterInfo}
    (hearlier : ∀ info, earlier = some info → law.Clean (.object info.extra))
    (hlater : ∀ info, later = some info → law.Clean (.object info.extra))
    (h : Metadata.mergeParameter earlier later = some info) : law.Clean (.object info.extra) := by
  unfold Metadata.mergeParameter at h
  split at h
  · cases h
    exact (hearlier _ rfl).extend lawful (hlater _ rfl)
  · exact hlater info h
  · exact hearlier info h

end Given

/-- A metadata record in which everything is as the law grants it. -/
def Tidy (law : Law) (metadata : Metadata) : Prop := ∀ value ∈ metadata.given, law.Clean value

theorem Tidy.fields {metadata : Metadata} (h : law.Tidy metadata) :
    law.Clean (.object metadata.fields) := h _ List.mem_cons_self

theorem Tidy.extra {metadata : Metadata} (h : law.Tidy metadata) {info : ParameterInfo}
    (hinfo : metadata.parameter = some info) : law.Clean (.object info.extra) := by
  refine h _ (List.mem_cons_of_mem _ ?_)
  rw [hinfo]
  exact List.mem_cons_self

theorem tidy_of {metadata : Metadata} (hfields : law.Clean (.object metadata.fields))
    (hextra : ∀ info, metadata.parameter = some info → law.Clean (.object info.extra)) :
    law.Tidy metadata := by
  intro value hvalue
  rcases List.mem_cons.mp hvalue with rfl | hvalue
  · exact hfields
  · obtain ⟨info, hinfo, rfl⟩ := Option.map_eq_some_iff.mp (Option.mem_toList.mp hvalue)
    exact hextra info hinfo

theorem Tidy.merge {earlier later : Metadata} (lawful : law.Lawful dialect)
    (h : law.Tidy earlier) (h' : law.Tidy later) : law.Tidy (earlier.merge later) :=
  tidy_of (h.fields.extend lawful h'.fields) fun _ hinfo =>
    clean_mergeParameter lawful (fun _ => h.extra) (fun _ => h'.extra) hinfo

theorem Accepts.tidy {s : Schema} (h : law.Accepts s) {own : Metadata}
    (hown : s.ownMetadata? = some own) : law.Tidy own :=
  fun value hvalue => h.given value (Schema.gives_of_ownMetadata? hown hvalue)

/-! ## Annotated schemas -/

section Annotate

variable {s : Schema} {metadata : Metadata}

theorem kind_annotate : (s.annotate metadata).kind = s.kind := by
  obtain ⟨kind, description, label⟩ := s
  rfl

theorem label_annotate : (s.annotate metadata).label = some
    { s.visibleLabel.getD {} with
      metadata := some (match (s.visibleLabel.getD {}).metadata with
        | some existing => existing.merge metadata
        | none => metadata) } := by
  obtain ⟨kind, description, label⟩ := s
  rfl

theorem ownMetadata?_getD : (s.visibleLabel.getD {}).metadata = s.ownMetadata? := by
  unfold Schema.ownMetadata?
  cases s.visibleLabel <;> rfl

theorem link?_annotate {link : Schema.Parent Schema} (h : (s.annotate metadata).link? = some link) :
    ∃ u, s.Contains u ∧ u.link? = some link := by
  rw [Schema.link?, label_annotate] at h
  cases hv : s.visibleLabel with
  | none =>
    rw [hv] at h
    cases h
  | some visible =>
    rw [hv] at h
    obtain ⟨u, hu, hlabel⟩ := Schema.exists_label hv
    refine ⟨u, hu, ?_⟩
    rw [Schema.link?, hlabel]
    exact h

/-- What an annotated schema holds is itself, or held by the schema before. -/
theorem contains_annotate {t : Schema} (h : (s.annotate metadata).Contains t) :
    t = s.annotate metadata ∨ s.Contains t := by
  rcases Schema.contains_iff.mp h with rfl | ⟨c, hc, hct⟩
  · exact Or.inl rfl
  · refine Or.inr ?_
    rcases List.mem_append.mp hc with hc | hc
    · rw [kind_annotate] at hc
      exact .step (List.mem_append_left _ hc) hct
    · obtain ⟨link, hlink, rfl⟩ := Option.map_eq_some_iff.mp (Option.mem_toList.mp hc)
      obtain ⟨u, hu, hulink⟩ := link?_annotate hlink
      refine hu.trans (.step (List.mem_append_right _ ?_) hct)
      rw [hulink]
      exact List.mem_cons_self

theorem Accepts.annotate (lawful : law.Lawful dialect) (h : law.Accepts s)
    (hm : law.Tidy metadata) (hfills : law.Fills (s.annotate metadata).site) :
    law.Accepts (s.annotate metadata) := by
  constructor
  · intro hb t ht link hlink
    rcases contains_annotate ht with rfl | ht
    · obtain ⟨u, hu, hulink⟩ := link?_annotate hlink
      exact h.linked hb u hu link hulink
    · exact h.linked hb t ht link hlink
  · intro t ht fields treatment catchall hkind
    rcases contains_annotate ht with rfl | ht
    · rw [kind_annotate] at hkind
      exact h.lists s (.refl s) fields treatment catchall hkind
    · exact h.lists t ht fields treatment catchall hkind
  · rintro value ⟨t, ht, hvalue⟩
    rcases contains_annotate ht with rfl | ht
    · rcases List.mem_append.mp hvalue with hvalue | hvalue
      · rw [Schema.record?, label_annotate, ownMetadata?_getD] at hvalue
        cases hown : s.ownMetadata? with
        | none =>
          rw [hown] at hvalue
          exact hm value hvalue
        | some own =>
          rw [hown] at hvalue
          exact ((h.tidy hown).merge lawful hm) value hvalue
      · rw [kind_annotate] at hvalue
        exact h.given value ⟨s, .refl s, List.mem_append_right _ hvalue⟩
    · exact h.given value ⟨t, ht, hvalue⟩
  · intro t ht
    rcases contains_annotate ht with rfl | ht
    · exact hfills
    · exact h.fills t ht

/-- Parameter data neither stands in for a shape nor changes it. -/
theorem fills_parameter (h : law.Fills s.site) (info : ParameterInfo) :
    law.Fills (s.parameter info).site := by
  rintro key ⟨hoverride, hhollow⟩
  refine h key ⟨?_, ?_⟩
  · change Entries.get? (s.parameter info).documentKeys "type" = none at hoverride
    rwa [Schema.documentKeys_parameter] at hoverride
  · change ((s.annotate _).shape false).Hollow (s.annotate _).isNullable key at hhollow
    rwa [Schema.shape_annotate, Schema.isNullable_annotate] at hhollow

/-- Writing the name or the location of a parameter onto a schema keeps it acceptable. -/
theorem Accepts.parameter (lawful : law.Lawful dialect) (h : law.Accepts s)
    {info : ParameterInfo} (hinfo : info.extra = []) : law.Accepts (s.parameter info) := by
  refine h.annotate lawful (tidy_of (clean_nil lawful) fun own hown => ?_)
    (fills_parameter (h.fills s (.refl s)) info)
  cases hown
  rw [hinfo]
  exact clean_nil lawful

end Annotate

/-! ## Parameters -/

section Parameters

variable (lawful : law.Lawful dialect)

include lawful

theorem sealed_parameterKeys {info : ParameterInfo} (h : law.Clean (.object info.extra)) :
    law.Sealed stock info.keys := by
  have htext {o : Option String} : ∀ v, o.map Json.string = some v → law.Closed stock v := by
    intro v hv
    obtain ⟨text, _, rfl⟩ := Option.map_eq_some_iff.mp hv
    exact closed_string text
  have hlocation : ∀ v, info.location.map (fun l => Json.string l.text) = some v →
      law.Closed stock v := by
    intro v hv
    obtain ⟨l, _, rfl⟩ := Option.map_eq_some_iff.mp hv
    exact closed_string l.text
  have hempty : law.Sealed stock [] := Sealed.nil lawful
  have hnamed := hempty.writeSome lawful (fun v _ => .part v (by decide : "name" ∈ _))
    (htext (o := info.name))
  have hlocated := hnamed.writeSome lawful (fun v _ => .part v (by decide : "in" ∈ _)) hlocation
  have hdescribed := hlocated.writeSome lawful
    (fun v _ => .part v (by decide : "description" ∈ _)) (htext (o := info.description))
  exact hdescribed.extend lawful ((h.sealed lawful stock).filter lawful _)

theorem clean_parameterMetadata {s : Schema} (h : law.Accepts s) {info : ParameterInfo}
    (hinfo : s.parameterMetadata.parameter = some info) : law.Clean (.object info.extra) := by
  refine clean_mergeParameter lawful ?_ ?_ hinfo
  · intro described hdescribed
    cases hdescribed
    exact clean_nil lawful
  · intro own hown
    cases hmetadata : s.ownMetadata? with
    | none =>
      rw [hmetadata] at hown
      cases hown
    | some metadata =>
      rw [hmetadata] at hown
      exact (h.tidy hmetadata).extra hown

theorem keeps_compileBare {s : Schema} (h : law.Accepts s) (base : Store Fragment) :
    law.Keeps registered base law.Sealed (Parameter.compileBare dialect s) := by
  unfold Parameter.compileBare
  refine (h.compiles lawful base .reference).bind fun compiled mid _ hcompiled => ?_
  refine Keeps.pure fun store hstore => ?_
  have hschema : law.Sealed ⟨store, registered⟩ [("schema", .object compiled)] :=
    Sealed.single lawful (.part _ (by decide))
      ((hcompiled.sealed.mono lawful (stock_le hstore)).object lawful)
  have hrequired := hschema.write lawful (.part _ (by decide : "required" ∈ _))
    (closed_bool (!s.isOptional && !s.isNullable))
  refine hrequired.extend lawful ?_
  cases hinfo : s.parameterMetadata.parameter with
  | none => exact Sealed.nil lawful
  | some info => exact sealed_parameterKeys lawful (clean_parameterMetadata lawful h hinfo)

theorem keeps_parameter {s : Schema} (h : law.Accepts s) (base : Store Fragment) :
    law.Keeps registered base law.Sealed (Parameter.compile dialect s) := by
  unfold Parameter.compile
  dsimp only
  split
  · exact Keeps.fail _
  · exact Keeps.fail _
  · rename_i name location _ _
    refine (keeps_compileBare lawful h base).bind fun bare mid _ hbare => ?_
    refine Keeps.pure fun store hstore => ?_
    have hlocated := (hbare.mono lawful (stock_le hstore)).write lawful
      (.part _ (by decide : "in" ∈ _)) (closed_string location.text)
    exact hlocated.write lawful (.part _ (by decide)) (closed_string name)

/-- A registration keeps what is registered and may add a sealed parameter to it. -/
theorem keeps_register {s : Schema} (h : law.Accepts s) (base : Store Fragment) :
    law.Keeps registered base (fun stock updated => registered ≤ updated
      ∧ ∀ e ∈ updated.entries, e ∈ registered.entries ∨ law.Sealed stock e.2)
      (Parameter.register dialect registered s) := by
  have unchanged {base : Store Fragment} : law.Keeps registered base (fun stock updated =>
      registered ≤ updated ∧ ∀ e ∈ updated.entries, e ∈ registered.entries ∨ law.Sealed stock e.2)
      (pure registered) :=
    Keeps.pure fun _ _ => ⟨le_refl _, fun _ he => Or.inl he⟩
  unfold Parameter.register
  refine (keeps_parameter lawful h base).bind fun new mid _ hnew => ?_
  split
  · exact unchanged
  · rename_i refId _
    split
    · rename_i hnone
      -- Only here is a parameter added; everywhere else what is registered stays as it is.
      refine Keeps.pure fun store hstore => ⟨Store.le_define registered refId new, ?_⟩
      rw [Store.define_of_get?_none new hnone]
      intro e he
      rcases List.mem_append.mp he with he | he
      · exact Or.inl he
      · rw [List.mem_singleton.mp he]
        exact Or.inr (hnew.mono lawful (stock_le hstore))
    · dsimp only
      split
      · exact Keeps.fail _
      · exact unchanged

omit lawful in
/-- What stands for a registered parameter is a reference to it. -/
theorem reference?_eq_some {s : Schema} {location : Location} {name : Option String}
    {answer : Fragment}
    (h : Parameter.reference? registered s location name = .ok (some answer)) :
    ∃ refId, registered.contains refId = true ∧ answer = Reference.toParameter refId := by
  unfold Parameter.reference? at h
  split at h
  · cases h
  · rename_i refId old hfound
    obtain ⟨own, _, hown⟩ := Option.bind_eq_some_iff.mp hfound
    obtain ⟨stored, hstored, hpair⟩ := Option.map_eq_some_iff.mp hown
    cases hpair
    dsimp only at h
    split at h
    · cases h
    · split at h
      · cases h
      · cases h
        exact ⟨refId, Store.contains_of_get? hstored, rfl⟩

theorem sealed_reference? {s : Schema} {location : Location} {name : Option String}
    {answer : Fragment}
    (h : Parameter.reference? registered s location name = .ok (some answer))
    (store : Store Fragment) : law.Sealed ⟨store, registered⟩ answer := by
  obtain ⟨refId, hrefId, rfl⟩ := reference?_eq_some h
  exact sealed_toParameter lawful hrefId

theorem keeps_ofProperty {s : Schema} (h : law.Accepts s) (location : Location) (key : String)
    (base : Store Fragment) :
    law.Keeps registered base law.Sealed
      (Parameter.ofProperty dialect registered location key s) := by
  unfold Parameter.ofProperty
  split
  · exact Keeps.fail _
  · rename_i reference hreference
    exact Keeps.pure fun store _ => sealed_reference? lawful hreference store
  · dsimp only
    split
    · exact Keeps.fail _
    · split
      · exact Keeps.fail _
      · exact keeps_parameter lawful (h.parameter lawful rfl) base

/-- Every one of a list of parameters is sealed. -/
def SealsAll (law : Law) (stock : Stock) (parameters : List Fragment) : Prop :=
  ∀ p ∈ parameters, law.Sealed stock p

omit lawful in
theorem sealsAll_nil : law.SealsAll stock [] := fun _ hp => absurd hp List.not_mem_nil

omit lawful in
theorem SealsAll.append {here others : List Fragment} (h : law.SealsAll stock here)
    (h' : law.SealsAll stock others) : law.SealsAll stock (here ++ others) :=
  fun p hp => (List.mem_append.mp hp).elim (h p) (h' p)

omit lawful in
theorem sealsAll_singleton {p : Fragment} (h : law.Sealed stock p) : law.SealsAll stock [p] := by
  intro q hq
  rw [List.mem_singleton.mp hq]
  exact h

theorem SealsAll.mono {small large : Stock} (h : small ≤ large) {parameters : List Fragment}
    (hs : law.SealsAll small parameters) : law.SealsAll large parameters :=
  fun p hp => (hs p hp).mono lawful h

theorem keeps_ofProperties {fields : List (String × Schema)} (h : ∀ f ∈ fields, law.Accepts f.2)
    (location : Location) : ∀ base, law.Keeps registered base law.SealsAll
      (Parameter.ofProperties dialect registered location fields) := by
  induction fields with
  | nil =>
    intro base
    rw [Parameter.ofProperties]
    exact Keeps.pure fun _ _ => sealsAll_nil
  | cons first rest ih =>
    intro base
    obtain ⟨key, s⟩ := first
    have hs : law.Accepts s := h (key, s) List.mem_cons_self
    rw [Parameter.ofProperties]
    refine (keeps_ofProperty lawful hs location key base).bind fun parameter mid _ hparameter => ?_
    refine (ih (fun f hf => h f (List.mem_cons_of_mem _ hf)) mid).bind
      fun parameters mid' hmid' hparameters => ?_
    refine Keeps.pure fun store hstore => ?_
    have hhere := sealsAll_singleton (hparameter.mono lawful (stock_le (le_trans hmid' hstore)))
    exact hhere.append (hparameters.mono lawful (stock_le hstore))

theorem keeps_ofSection {s : Schema} (h : law.Accepts s) (location : Location)
    (base : Store Fragment) :
    law.Keeps registered base law.SealsAll
      (Parameter.ofSection dialect registered location s) := by
  unfold Parameter.ofSection
  split
  · exact Keeps.fail _
  · rename_i reference hreference
    exact Keeps.pure fun store _ => sealsAll_singleton (sealed_reference? lawful hreference store)
  · split
    · rename_i fields treatment catchall hkind
      refine keeps_ofProperties lawful (fun f hf => ?_) location base
      refine h.of_contains (.of_kind ?_)
      rw [hkind]
      exact List.mem_append_left _ (List.mem_map_of_mem hf)
    · split
      · exact Keeps.fail _
      · refine (keeps_parameter lawful (h.parameter lawful rfl) base).bind
          fun parameter mid _ hparameter => ?_
        exact Keeps.pure fun store hstore =>
          sealsAll_singleton (hparameter.mono lawful (stock_le hstore))

theorem keeps_ofSchemas {schemas : List Schema} (h : ∀ s ∈ schemas, law.Accepts s)
    (location : Location) : ∀ base, law.Keeps registered base law.SealsAll
      (Parameter.ofSchemas dialect registered location schemas) := by
  induction schemas with
  | nil =>
    intro base
    rw [Parameter.ofSchemas]
    exact Keeps.pure fun _ _ => sealsAll_nil
  | cons s rest ih =>
    intro base
    rw [Parameter.ofSchemas]
    refine (keeps_ofSection lawful (h s List.mem_cons_self) location base).mapProblem.bind
      fun here mid _ hhere => ?_
    refine (ih (fun t ht => h t (List.mem_cons_of_mem _ ht)) mid).bind
      fun others mid' hmid' hothers => ?_
    refine Keeps.pure fun store hstore => ?_
    exact (hhere.mono lawful (stock_le (le_trans hmid' hstore))).append
      (hothers.mono lawful (stock_le hstore))

theorem keeps_compileParameters {request : Request} (h : ∀ s ∈ request.schemas, law.Accepts s)
    (base : Store Fragment) :
    law.Keeps registered base law.SealsAll (request.compileParameters dialect registered) := by
  have hsection (location : Location) (base : Store Fragment) :
      law.Keeps registered base law.SealsAll
        (Parameter.ofSchemas dialect registered location (request.section location)) :=
    keeps_ofSchemas lawful (fun s hs => h s (request.schemas_of_section location hs)) location base
  unfold Request.compileParameters
  refine (hsection .query base).bind fun query mid₁ _ hquery => ?_
  refine (hsection .path mid₁).bind fun path mid₂ hmid₂ hpath => ?_
  refine (hsection .cookie mid₂).bind fun cookie mid₃ hmid₃ hcookie => ?_
  refine (hsection .header mid₃).bind fun header mid₄ hmid₄ hheader => ?_
  refine Keeps.pure fun store hstore => ?_
  have hlater : mid₃ ≤ store := le_trans hmid₄ hstore
  have hpath' := hpath.mono lawful (stock_le (le_trans hmid₃ hlater))
  have hquery' := hquery.mono lawful (stock_le (le_trans hmid₂ (le_trans hmid₃ hlater)))
  have hheader' := hheader.mono lawful (stock_le hstore)
  exact ((hpath'.append hquery').append hheader').append (hcookie.mono lawful (stock_le hlater))

end Parameters

/-! ## Operations -/

section Operations

variable (lawful : law.Lawful dialect) (free : ∀ keys, law.Keys keys)

include lawful

theorem keeps_mediaType {media : MediaType} (hs : ∀ s ∈ media.schemas, law.Accepts s)
    (hv : ∀ v ∈ media.given, law.Clean v) (base : Store Fragment) :
    law.Keeps registered base law.Sealed (media.compile dialect) := by
  obtain ⟨body, extra⟩ := media
  have hextra : law.Clean (.object extra) := hv _ List.mem_cons_self
  have written {value : Json} {mid : Store Fragment}
      (hvalue : law.Closed ⟨mid, registered⟩ value) :
      law.Keeps registered mid law.Sealed (do
        let schema ← pure value
        pure (Entries.extend [("schema", schema)] extra)) := by
    refine Keeps.pure fun store hstore => ?_
    have hschema : law.Sealed ⟨store, registered⟩ [("schema", value)] :=
      Sealed.single lawful (.part _ (by decide)) (hvalue.mono lawful (stock_le hstore))
    exact hschema.extend lawful (hextra.sealed lawful _)
  unfold MediaType.compile
  cases body with
  | schema s =>
    refine ((hs s List.mem_cons_self).compiles lawful base .reference).bind
      fun compiled mid _ h => ?_
    exact written (h.sealed.object lawful)
  | raw value =>
    have hvalue : law.Clean value := hv _ (List.mem_cons_of_mem _ List.mem_cons_self)
    exact written (hvalue.closed lawful _)

theorem keeps_content {content : Entries MediaType}
    (hs : ∀ s ∈ content.flatMap (fun media => media.2.schemas), law.Accepts s)
    (hv : ∀ v ∈ content.flatMap (fun media => media.2.given), law.Clean v) :
    ∀ base, law.Keeps registered base law.Holds (MediaType.compileAll dialect content) := by
  induction content with
  | nil =>
    intro base
    rw [MediaType.compileAll]
    exact Keeps.pure fun _ _ => holds_nil
  | cons first rest ih =>
    intro base
    obtain ⟨name, media⟩ := first
    rw [List.flatMap_cons] at hs hv
    have hfirst : law.Keeps registered base law.Sealed (media.compile dialect) :=
      keeps_mediaType lawful (fun s h => hs s (List.mem_append_left _ h))
        (fun v h => hv v (List.mem_append_left _ h)) base
    rw [MediaType.compileAll]
    refine hfirst.bind fun compiled mid _ hcompiled => ?_
    refine (ih (fun s h => hs s (List.mem_append_right _ h))
      (fun v h => hv v (List.mem_append_right _ h)) mid).bind fun others mid' hmid' hothers => ?_
    refine Keeps.pure fun store hstore => ?_
    exact (hothers.mono lawful (stock_le hstore)).cons
      (hcompiled.mono lawful (stock_le (le_trans hmid' hstore)))

include free

theorem keeps_headers {fields : List (String × Schema)} (h : ∀ f ∈ fields, law.Accepts f.2) :
    ∀ base, law.Keeps registered base law.Holds (ResponseHeaders.compileEach dialect fields) := by
  induction fields with
  | nil =>
    intro base
    rw [ResponseHeaders.compileEach]
    exact Keeps.pure fun _ _ => holds_nil
  | cons first rest ih =>
    intro base
    obtain ⟨key, s⟩ := first
    have hs : law.Accepts s := h (key, s) List.mem_cons_self
    rw [ResponseHeaders.compileEach]
    refine (keeps_compileBare lawful hs base).bind fun header mid _ hheader => ?_
    refine (ih (fun f hf => h f (List.mem_cons_of_mem _ hf)) mid).bind
      fun headers mid' hmid' hheaders => ?_
    refine Keeps.pure fun store hstore => (hheaders.mono lawful (stock_le hstore)).cons ?_
    have hmono := hheader.mono lawful (stock_le (le_trans hmid' hstore))
    -- Taking two keys away changes the order of the others, and nothing else about them.
    have hmem {e : String × Json} (he : e ∈ Entries.swapRemove
        (Entries.swapRemove header "name") "in") : e ∈ header :=
      Entries.mem_of_mem_swapRemove (Entries.mem_of_mem_swapRemove he)
    exact ⟨free _, fun e he => hmono.seals e (hmem he), fun e he => hmono.closed e (hmem he)⟩

theorem keeps_requestBody {body : RequestBody} (hs : ∀ s ∈ body.schemas, law.Accepts s)
    (hv : ∀ v ∈ body.given, law.Clean v) (base : Store Fragment) :
    law.Keeps registered base law.Closed (body.compile dialect) := by
  have hextra : law.Clean (.object body.extra) := hv _ List.mem_cons_self
  unfold RequestBody.compile
  refine (keeps_content lawful hs (fun v h => hv v (List.mem_cons_of_mem _ h)) base).bind
    fun content mid _ hcontent => ?_
  refine Keeps.pure fun store hstore => Sealed.object lawful ?_
  exact (hextra.sealed lawful _).write lawful (.part _ (by decide))
    ((hcontent.mono lawful (stock_le hstore)).closed lawful (free _))

theorem keeps_responseHeaders {headers : ResponseHeaders}
    (hs : ∀ s ∈ headers.schemas, law.Accepts s) (hv : ∀ v ∈ headers.given, law.Clean v)
    (base : Store Fragment) :
    law.Keeps registered base (fun stock compiled => law.Closed stock (.object compiled))
      (headers.compile dialect) := by
  cases headers with
  | raw headers =>
    unfold ResponseHeaders.compile
    exact Keeps.pure fun store _ => (hv _ List.mem_cons_self).closed lawful _
  | schema s =>
    unfold ResponseHeaders.compile
    dsimp only
    split
    · rename_i fields treatment catchall hkind
      have haccepts := hs s List.mem_cons_self
      refine (keeps_headers lawful free (fun f hf => haccepts.of_contains (.of_kind ?_)) base).imp
        fun _ _ h => h.closed lawful (free _)
      rw [hkind]
      exact List.mem_append_left _ (List.mem_map_of_mem hf)
    · exact Keeps.fail _

theorem keeps_compileHeaders {response : Response} (hs : ∀ s ∈ response.schemas, law.Accepts s)
    (hv : ∀ v ∈ response.given, law.Clean v) {described : Fragment} {base : Store Fragment}
    (hdescribed : law.Sealed ⟨base, registered⟩ described) :
    law.Keeps registered base law.Sealed (response.compileHeaders dialect described) := by
  unfold Response.compileHeaders
  cases hheaders : response.headers with
  | none => exact Keeps.pure fun store hstore => hdescribed.mono lawful (stock_le hstore)
  | some headers =>
    have hs' : ∀ s ∈ headers.schemas, law.Accepts s := fun s h =>
      hs s (Response.schemas_of_headers hheaders h)
    have hv' : ∀ v ∈ headers.given, law.Clean v := fun v h =>
      hv v (List.mem_cons_of_mem _ (List.mem_append_left _
        (List.mem_flatMap.mpr ⟨headers, Option.mem_toList.mpr hheaders, h⟩)))
    refine (keeps_responseHeaders lawful free hs' hv' base).bind fun compiled mid hmid hcompiled => ?_
    refine Keeps.pure fun store hstore => ?_
    exact (hdescribed.mono lawful (stock_le (le_trans hmid hstore))).write lawful
      (.part _ (by decide)) (hcompiled.mono lawful (stock_le hstore))

theorem keeps_compileContent {response : Response} (hs : ∀ s ∈ response.schemas, law.Accepts s)
    (hv : ∀ v ∈ response.given, law.Clean v) {headed : Fragment} {base : Store Fragment}
    (hheaded : law.Sealed ⟨base, registered⟩ headed) :
    law.Keeps registered base law.Sealed (response.compileContent dialect headed) := by
  obtain ⟨description, headers, content, extra⟩ := response
  unfold Response.compileContent
  cases content with
  | none => exact Keeps.pure fun store hstore => hheaded.mono lawful (stock_le hstore)
  | some content =>
    have hcontent : law.Keeps registered base law.Holds (MediaType.compileAll dialect content) :=
      keeps_content lawful (fun s h => hs s (List.mem_append_right _ h))
        (fun v h => hv v (List.mem_cons_of_mem _ (List.mem_append_right _ h))) base
    refine hcontent.bind fun compiled mid hmid hcompiled => ?_
    refine Keeps.pure fun store hstore => ?_
    exact (hheaded.mono lawful (stock_le (le_trans hmid hstore))).write lawful
      (.part _ (by decide)) ((hcompiled.mono lawful (stock_le hstore)).closed lawful (free _))

theorem keeps_response {response : Response} (hs : ∀ s ∈ response.schemas, law.Accepts s)
    (hv : ∀ v ∈ response.given, law.Clean v) (base : Store Fragment) :
    law.Keeps registered base law.Sealed (response.compile dialect) := by
  have hextra : law.Clean (.object response.extra) := hv _ List.mem_cons_self
  have hdescription : law.Sealed ⟨base, registered⟩
      [("description", .string response.description)] :=
    Sealed.single lawful (.part _ (by decide)) (closed_string response.description)
  have hdescribed := hdescription.extend lawful (hextra.sealed lawful _)
  unfold Response.compile
  refine (keeps_compileHeaders lawful free hs hv hdescribed).bind fun headed mid _ hheaded => ?_
  exact keeps_compileContent lawful free hs hv hheaded

theorem keeps_responses {responses : Entries Response}
    (hs : ∀ s ∈ responses.flatMap (fun response => response.2.schemas), law.Accepts s)
    (hv : ∀ v ∈ responses.flatMap (fun response => response.2.given), law.Clean v) :
    ∀ base, law.Keeps registered base law.Holds (Response.compileAll dialect responses) := by
  induction responses with
  | nil =>
    intro base
    rw [Response.compileAll]
    exact Keeps.pure fun _ _ => holds_nil
  | cons first rest ih =>
    intro base
    obtain ⟨status, response⟩ := first
    rw [List.flatMap_cons] at hs hv
    have hfirst : law.Keeps registered base law.Sealed (response.compile dialect) :=
      keeps_response lawful free (fun s h => hs s (List.mem_append_left _ h))
        (fun v h => hv v (List.mem_append_left _ h)) base
    rw [Response.compileAll]
    refine hfirst.bind fun compiled mid _ hcompiled => ?_
    refine (ih (fun s h => hs s (List.mem_append_right _ h))
      (fun v h => hv v (List.mem_append_right _ h)) mid).bind fun others mid' hmid' hothers => ?_
    refine Keeps.pure fun store hstore => ?_
    exact (hothers.mono lawful (stock_le hstore)).cons
      (hcompiled.mono lawful (stock_le (le_trans hmid' hstore)))

omit free in
theorem sealed_withParameters {operation : Fragment} {parameters : List Fragment}
    (h : law.Sealed stock operation) (hp : law.SealsAll stock parameters) :
    law.Sealed stock (Route.withParameters operation parameters) := by
  unfold Route.withParameters
  split
  · exact h
  · refine h.write lawful (.part _ (by decide)) (closed_array fun item hitem => ?_)
    rcases List.mem_append.mp hitem with hitem | hitem
    · -- Parameters that the operation had already were given with it.
      split at hitem
      · rename_i finished hfinished
        have hgiven := h.closed ("parameters", .array finished) (Entries.mem_of_get? hfinished)
        exact closed_items hgiven item hitem
      · cases hitem
    · obtain ⟨p, hp', rfl⟩ := List.mem_map.mp hitem
      exact (hp p hp').object lawful

omit free in
theorem keeps_routeParameters {route : Route} (hs : ∀ s ∈ route.schemas, law.Accepts s)
    (base : Store Fragment) :
    law.Keeps registered base law.SealsAll (route.compileParameters dialect registered) := by
  unfold Route.compileParameters
  cases hrequest : route.request with
  | none => exact Keeps.pure fun _ _ => sealsAll_nil
  | some request =>
    have hsections : ∀ s ∈ request.schemas, law.Accepts s := fun s h =>
      hs s (Route.schemas_of_request hrequest h)
    exact (keeps_compileParameters lawful hsections base).mapProblem

theorem keeps_routeBody {route : Route} (hs : ∀ s ∈ route.schemas, law.Accepts s)
    (hv : ∀ v ∈ route.given, law.Clean v) (base : Store Fragment) :
    law.Keeps registered base (fun stock body => ∀ v, body = some v → law.Closed stock v)
      (route.compileBody dialect) := by
  unfold Route.compileBody
  cases hbody : route.request.bind (·.body) with
  | none =>
    refine Keeps.pure fun _ _ v hv => ?_
    cases hv
  | some body =>
    have hs' : ∀ s ∈ body.schemas, law.Accepts s := fun s h =>
      hs s (Route.schemas_of_body hbody h)
    have hv' : ∀ v ∈ body.given, law.Clean v := by
      intro v h
      refine hv v (List.mem_cons_of_mem _ (List.mem_append_right _ ?_))
      exact List.mem_flatMap.mpr ⟨body, Option.mem_toList.mpr hbody, h⟩
    refine (keeps_requestBody lawful free hs' hv' base).bind fun compiled mid _ hclosed => ?_
    refine Keeps.pure fun store hstore v hv => ?_
    cases hv
    exact hclosed.mono lawful (stock_le hstore)

/-- What compiling a route answers and stores satisfies the law. -/
theorem keeps_route {route : Route} (hs : ∀ s ∈ route.schemas, law.Accepts s)
    (hv : ∀ v ∈ route.given, law.Clean v) (base : Store Fragment) :
    law.Keeps registered base law.Sealed (route.compile dialect registered) := by
  have hoperation : law.Clean (.object route.operation) := hv _ List.mem_cons_self
  have hresponses : law.Keeps registered base law.Holds
      (Response.compileAll dialect route.responses) :=
    keeps_responses lawful free (fun s h => hs s (List.mem_append_left _ h))
      (fun v h => hv v (List.mem_cons_of_mem _ (List.mem_append_left _ h))) base
  unfold Route.compile
  refine hresponses.bind fun responses first _ hresponses => ?_
  refine (keeps_routeParameters lawful hs first).bind fun parameters second hsecond hparameters => ?_
  refine (keeps_routeBody lawful free hs hv second).bind fun body third hthird hbody => ?_
  refine Keeps.pure fun store hstore => ?_
  have hwith : law.Sealed ⟨store, registered⟩ (Route.withParameters route.operation parameters) :=
    sealed_withParameters lawful (hoperation.sealed lawful _)
      (hparameters.mono lawful (stock_le (le_trans hthird hstore)))
  have hbodied := hwith.writeSome lawful (fun v _ => .part v (by decide : "requestBody" ∈ _))
    fun v hv => (hbody v hv).mono lawful (stock_le hstore)
  have hlast := hresponses.mono lawful (stock_le (le_trans hsecond (le_trans hthird hstore)))
  exact hbodied.write lawful (.part _ (by decide)) (hlast.closed lawful (free _))

end Operations

end OpenApi.Law
