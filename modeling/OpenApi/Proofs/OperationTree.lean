/-
# OpenApi.Proofs.OperationTree -- compiling definitions, part by part

Parameters and operations are compiled by compiling the schemas in them one after another, so a
relation between compilations that passes to sequences passes from sites to parameters and to
whole operations (`Parameter.register_parallel`, `Route.compile_parallel`).

What else decides the way is what is registered, and of a registered parameter no more than its
name and its location. Two stores of parameters are `Alike` if they agree in these. What a
registration leaves of them is read off the schema (`Parameter.of_register`).
-/
import OpenApi.Proofs.Output
import OpenApi.Proofs.Supplied

namespace OpenApi

/-! ## What is registered -/

namespace Parameter

/-- The location and the name under which a parameter is registered. -/
def signature? (registered : Store Fragment) (refId : String) :
    Option (Option String × Option String) :=
  (registered.get? refId).map fun old => (textOf old .location, textOf old .name)

/-- Two stores have parameters of the same names and locations under the same identifiers. -/
def Alike (registered registered' : Store Fragment) : Prop :=
  ∀ refId, signature? registered refId = signature? registered' refId

theorem Alike.refl (registered : Store Fragment) : Alike registered registered := fun _ => rfl

theorem Alike.symm {registered registered' : Store Fragment} (h : Alike registered registered') :
    Alike registered' registered := fun refId => (h refId).symm

theorem Alike.contains_iff {registered registered' : Store Fragment}
    (h : Alike registered registered') (refId : String) :
    registered.contains refId = true ↔ registered'.contains refId = true := by
  have hsigned (registered : Store Fragment) :
      registered.contains refId = (signature? registered refId).isSome := by
    rw [signature?, Option.isSome_map, Store.contains_eq_isSome]
  rw [hsigned, hsigned, h refId]

theorem Alike.cases {registered registered' : Store Fragment} (h : Alike registered registered')
    (refId : String) :
    (registered.get? refId = none ∧ registered'.get? refId = none)
      ∨ ∃ old old', registered.get? refId = some old ∧ registered'.get? refId = some old'
        ∧ ∀ key, textOf old' key = textOf old key := by
  have hsame := h refId
  unfold signature? at hsame
  cases hold : registered.get? refId with
  | none =>
    rw [hold] at hsame
    exact Or.inl ⟨rfl, Option.map_eq_none_iff.mp hsame.symm⟩
  | some old =>
    rw [hold] at hsame
    obtain ⟨old', hold', hpair⟩ := Option.map_eq_some_iff.mp hsame.symm
    refine Or.inr ⟨old, old', rfl, hold', fun key => ?_⟩
    cases key with
    | location => exact congrArg Prod.fst hpair
    | name => exact congrArg Prod.snd hpair

/-- Places of use are checked against names and locations only. -/
theorem reference?_eq_of_alike {registered registered' : Store Fragment}
    (h : Alike registered registered') (s : Schema) (location : Location) (name : Option String) :
    reference? registered s location name = reference? registered' s location name := by
  unfold reference?
  cases s.refId? with
  | none => rfl
  | some refId =>
    rw [Option.bind_some, Option.bind_some]
    rcases h.cases refId with ⟨hnone, hnone'⟩ | ⟨old, old', hold, hold', hsame⟩
    · rw [hnone, hnone']
    · rw [hold, hold', Option.map_some, Option.map_some]
      dsimp only
      rw [hsame, hsame]

/-! ## The text of a parameter object -/

/-- The object of a parameter with its location and its name. -/
def placed (bare : Fragment) (name : String) (location : Location) : Fragment :=
  (Entries.insert bare "in" (.string location.text)).insert "name" (.string name)

/-- The text under a key of a parameter does not depend on anything else in the object. -/
theorem textOf_placed (bare : Fragment) (name : String) (location : Location) (key : ParameterKey) :
    textOf (placed bare name location) key = some (match key with
      | .location => location.text
      | .name => name) := by
  have hne : "in" ≠ "name" := by decide
  unfold textOf placed
  cases key with
  | location =>
    show (Entries.get? _ "in").bind _ = _
    rw [Entries.get?_insert, if_neg hne, Entries.get?_insert, if_pos rfl]
    rfl
  | name =>
    show (Entries.get? _ "name").bind _ = _
    rw [Entries.get?_insert, if_pos rfl]
    rfl

/-- The location and the name that a schema declares for a parameter, if it declares both. -/
def declared? (s : Schema) : Option (Option String × Option String) :=
  (s.metadata.parameter.bind (·.name)).bind fun name =>
    (s.metadata.parameter.bind (·.location)).map fun location => (some location.text, some name)

/-- A parameter with a name and a location is compiled, a parameter without one fails. -/
theorem compile_cases (s : Schema) :
    (declared? s = none ∧ ∃ problem, ∀ dialect, compile dialect s = Compile.fail problem)
      ∨ ∃ name location, declared? s = some (some location.text, some name)
        ∧ ∀ dialect, compile dialect s
          = (compileBare dialect s >>= fun bare => pure (placed bare name location)) := by
  cases hname : s.metadata.parameter.bind (·.name) with
  | none =>
    refine Or.inl ⟨by simp [declared?, hname], .missingParameter { missing := .name },
      fun dialect => ?_⟩
    unfold compile
    dsimp only
    rw [hname]
  | some name =>
    cases hlocation : s.metadata.parameter.bind (·.location) with
    | none =>
      refine Or.inl ⟨by simp [declared?, hlocation],
        .missingParameter { missing := .location, parameter := name }, fun dialect => ?_⟩
      unfold compile
      dsimp only
      rw [hname, hlocation]
    | some location =>
      refine Or.inr ⟨name, location, by simp [declared?, hname, hlocation], fun dialect => ?_⟩
      unfold compile
      dsimp only
      rw [hname, hlocation]
      rfl

/-! ## Registrations -/

variable {dialect : Dialect} {registered : Store Fragment} {s : Schema}

/-- The location and the name in a parameter object. -/
def signatureOf (new : Fragment) : Option String × Option String :=
  (textOf new .location, textOf new .name)

theorem signatureOf_placed (bare : Fragment) (name : String) (location : Location) :
    signatureOf (placed bare name location) = (some location.text, some name) := by
  rw [signatureOf, textOf_placed, textOf_placed]

theorem signature?_of_get? {refId : String} {old : Fragment} (h : registered.get? refId = some old) :
    signature? registered refId = some (signatureOf old) := by
  simp [signature?, signatureOf, h]

theorem signature?_define {refId : String} {new : Fragment} (h : registered.get? refId = none)
    (other : String) :
    signature? (registered.define refId new).2 other
      = if refId = other then some (signatureOf new) else signature? registered other := by
  unfold signature?
  rw [Store.get?_define]
  by_cases hother : other = refId
  · subst hother
    simp [h, signatureOf]
  · simp [hother, Ne.symm hother]

/-- There is no first key over which two parameters disagree if they agree in name and location. -/
theorem find?_disagree_eq_none_iff {old new : Fragment} :
    ([ParameterKey.location, .name].find? fun key => textOf old key != textOf new key) = none
      ↔ signatureOf old = signatureOf new := by
  simp [List.find?_eq_none, signatureOf]

/-- Enters a parameter object into the registered ones, if it has an identifier. -/
def enter (registered : Store Fragment) (refId? : Option String) (new : Fragment) :
    Compile (Store Fragment) :=
  match refId? with
  | none => return registered
  | some refId =>
    match registered.get? refId with
    | none => return (registered.define refId new).2
    | some old =>
      match [ParameterKey.location, .name].find? fun key => textOf old key != textOf new key with
      | some key =>
        Compile.fail (conflict (.registrations refId) key [textOf old key, textOf new key])
      | none => return registered

theorem register_eq : register dialect registered s = compile dialect s >>= enter registered s.refId? :=
  rfl

/-- What is entered stands under its identifier, where nothing else stood before. -/
theorem of_enter {refId? : Option String} {new : Fragment} {store after updated : Store Fragment}
    (h : enter registered refId? new store = .ok (updated, after)) :
    after = store
      ∧ (∀ refId old, refId? = some refId → signature? registered refId = some old →
          old = signatureOf new)
      ∧ ∀ refId, signature? updated refId
          = if refId? = some refId then some (signatureOf new) else signature? registered refId := by
  cases refId? with
  | none =>
    obtain ⟨rfl, rfl⟩ := Compile.of_pure_ok h
    simp
  | some refId =>
    unfold enter at h
    dsimp only at h
    cases hold : registered.get? refId with
    | none =>
      rw [hold] at h
      obtain ⟨rfl, rfl⟩ := Compile.of_pure_ok h
      refine ⟨rfl, ?_, fun other => by simp [signature?_define hold]⟩
      intro other old hother hsignature
      cases hother
      simp [signature?, hold] at hsignature
    | some old =>
      rw [hold] at h
      dsimp only at h
      generalize hdisagree : List.find? _ _ = disagree at h
      cases disagree with
      | some key => cases h
      | none =>
        obtain ⟨rfl, rfl⟩ := Compile.of_pure_ok h
        have hsame : signature? updated refId = some (signatureOf new) := by
          rw [signature?_of_get? hold, find?_disagree_eq_none_iff.mp hdisagree]
        refine ⟨rfl, ?_, fun other => ?_⟩
        · intro other old' hother hsignature
          cases hother
          rw [hsame] at hsignature
          exact (Option.some.inj hsignature).symm
        · by_cases hother : refId = other
          · subst hother
            simpa using hsame
          · simp [hother]

/-- Anything can be entered where nothing else stands under its identifier. -/
theorem enter_ok {refId? : Option String} {new : Fragment}
    (hagree : ∀ refId old, refId? = some refId → signature? registered refId = some old →
      old = signatureOf new) (store : Store Fragment) :
    ∃ updated, enter registered refId? new store = .ok (updated, store) := by
  cases refId? with
  | none => exact ⟨_, rfl⟩
  | some refId =>
    unfold enter
    dsimp only
    cases hold : registered.get? refId with
    | none => exact ⟨_, rfl⟩
    | some old =>
      dsimp only
      rw [find?_disagree_eq_none_iff.mpr (hagree refId _ rfl (signature?_of_get? hold))]
      exact ⟨_, rfl⟩

theorem compile_of_compileBare {store after : Store Fragment} {bare : Fragment}
    (h : compileBare dialect s store = .ok (bare, after)) :
    ∃ answer, s.site.compile dialect .reference store = .ok (answer, after) := by
  unfold compileBare at h
  obtain ⟨answer, mid, hanswer, hbare⟩ := Compile.of_bind_ok h
  rw [(Compile.of_pure_ok hbare).2]
  exact ⟨answer, hanswer⟩

/-- A registration compiles the schema and leaves its name and location registered under its
identifier, where nothing else was registered before; and nothing else is changed. -/
theorem of_register {store after updated : Store Fragment}
    (h : register dialect registered s store = .ok (updated, after)) :
    ∃ signature, declared? s = some signature
      ∧ (∃ answer, s.site.compile dialect .reference store = .ok (answer, after))
      ∧ (∀ refId old, s.refId? = some refId → signature? registered refId = some old →
          old = signature)
      ∧ ∀ refId, signature? updated refId
          = if s.refId? = some refId then some signature else signature? registered refId := by
  rw [register_eq] at h
  rcases compile_cases s with ⟨_, problem, hfail⟩ | ⟨name, location, hdeclared, hcompile⟩
  · rw [hfail, Compile.bind_apply_error (Compile.fail_apply problem store)] at h
    cases h
  · rw [hcompile, bind_assoc] at h
    obtain ⟨bare, mid, hbare, h⟩ := Compile.of_bind_ok h
    rw [pure_bind] at h
    obtain ⟨rfl, hagree, hupdated⟩ := of_enter h
    rw [signatureOf_placed] at hagree hupdated
    exact ⟨_, hdeclared, compile_of_compileBare hbare, hagree, hupdated⟩

end Parameter

/-! ## Relations that pass to sequences -/

/-- A property of schemas that passes to the schemas directly under a schema, and is kept when a
schema is made a parameter. -/
structure Schema.Hereditary (P : Schema → Prop) : Prop where
  part : ∀ {s t : Schema}, P s → t ∈ s.kind.schemas → P t
  parameter : ∀ {s : Schema} (info : ParameterInfo), P s → P (s.parameter info)

theorem Schema.hereditary_true : Hereditary fun _ => True := ⟨fun _ _ => trivial, fun _ _ => trivial⟩

section Chained

variable {R : ∀ {α : Type}, Compile α → Compile α → Prop} (hR : Compile.Chained @R)
  {dialect dialect' : Dialect} {P : Schema → Prop}
  (sites : ∀ s, P s → R (s.site.compile dialect .reference) (s.site.compile dialect' .reference))

include hR sites

theorem Parameter.compileBare_parallel {s : Schema} (hs : P s) :
    R (compileBare dialect s) (compileBare dialect' s) := by
  unfold compileBare
  refine hR.bind (sites s hs) fun compiled compiled' => ?_
  exact hR.pure _ _

theorem MediaType.compile_parallel {media : MediaType} (hs : ∀ s ∈ media.schemas, P s) :
    R (media.compile dialect) (media.compile dialect') := by
  obtain ⟨body, extra⟩ := media
  unfold compile
  cases body with
  | schema s =>
    refine hR.bind (sites s (hs s List.mem_cons_self)) fun compiled compiled' => ?_
    exact hR.pure _ _
  | raw value => exact hR.pure _ _

theorem MediaType.compileAll_parallel {content : List (String × MediaType)}
    (hs : ∀ media ∈ content, ∀ s ∈ media.2.schemas, P s) :
    R (compileAll dialect content) (compileAll dialect' content) := by
  induction content with
  | nil =>
    rw [compileAll, compileAll]
    exact hR.pure _ _
  | cons first rest ih =>
    obtain ⟨name, media⟩ := first
    rw [compileAll, compileAll]
    refine hR.bind (compile_parallel hR sites (hs (name, media) List.mem_cons_self)) fun _ _ => ?_
    refine hR.bind (ih fun media hmedia => hs media (List.mem_cons_of_mem _ hmedia)) fun _ _ => ?_
    exact hR.pure _ _

theorem RequestBody.compile_parallel {body : RequestBody} (hs : ∀ s ∈ body.schemas, P s) :
    R (body.compile dialect) (body.compile dialect') := by
  have hcontent := MediaType.compileAll_parallel hR sites fun media hmedia s hmem =>
    hs s (List.mem_flatMap.mpr ⟨media, hmedia, hmem⟩)
  unfold compile
  refine hR.bind hcontent fun content content' => ?_
  exact hR.pure _ _

theorem ResponseHeaders.compileEach_parallel {fields : List (String × Schema)}
    (hs : ∀ f ∈ fields, P f.2) : R (compileEach dialect fields) (compileEach dialect' fields) := by
  induction fields with
  | nil =>
    rw [compileEach, compileEach]
    exact hR.pure _ _
  | cons first rest ih =>
    obtain ⟨key, s⟩ := first
    have hhere := hs (key, s) List.mem_cons_self
    rw [compileEach, compileEach]
    refine hR.bind (Parameter.compileBare_parallel hR sites hhere) fun header header' => ?_
    refine hR.bind (ih fun f hf => hs f (List.mem_cons_of_mem _ hf)) fun headers headers' => ?_
    exact hR.pure _ _

variable (hereditary : Schema.Hereditary P)
  (refused : ∀ cause, R (Compile.fail (.unsupported cause) : Compile Fragment)
    (Compile.fail (.unsupported cause)))

include hereditary refused

theorem ResponseHeaders.compile_parallel {headers : ResponseHeaders}
    (hs : ∀ s ∈ headers.schemas, P s) :
    R (headers.compile dialect) (headers.compile dialect') := by
  cases headers with
  | raw headers =>
    unfold compile
    exact hR.pure _ _
  | schema s =>
    unfold compile
    dsimp only
    split
    · rename_i shape treatment catchall hkind
      refine compileEach_parallel hR sites fun f hf => ?_
      refine hereditary.part (hs s List.mem_cons_self) ?_
      rw [hkind]
      exact List.mem_append_left _ (List.mem_map_of_mem hf)
    · exact refused _

theorem Response.compileHeaders_parallel {response : Response} (hs : ∀ s ∈ response.schemas, P s)
    (described : Fragment) :
    R (response.compileHeaders dialect described) (response.compileHeaders dialect' described) := by
  unfold compileHeaders
  cases hsome : response.headers with
  | none => exact hR.pure _ _
  | some headers =>
    have hheaders : ∀ s ∈ headers.schemas, P s := fun s hmem =>
      hs s (response.schemas_of_headers hsome hmem)
    refine hR.bind (headers.compile_parallel hR sites hereditary refused hheaders) fun _ _ => ?_
    exact hR.pure _ _

omit hereditary refused in
theorem Response.compileContent_parallel {response : Response} (hs : ∀ s ∈ response.schemas, P s)
    (headed headed' : Fragment) :
    R (response.compileContent dialect headed) (response.compileContent dialect' headed') := by
  unfold compileContent
  cases hsome : response.content with
  | none => exact hR.pure _ _
  | some content =>
    have hcontent : ∀ media ∈ content, ∀ s ∈ media.2.schemas, P s := fun media hmedia s hmem =>
      hs s (response.schemas_of_content hsome hmedia hmem)
    refine hR.bind (MediaType.compileAll_parallel hR sites hcontent) fun _ _ => ?_
    exact hR.pure _ _

theorem Response.compile_parallel {response : Response} (hs : ∀ s ∈ response.schemas, P s) :
    R (response.compile dialect) (response.compile dialect') := by
  unfold compile
  refine hR.bind (response.compileHeaders_parallel hR sites hereditary refused hs _) fun headed headed' => ?_
  exact response.compileContent_parallel hR sites hs headed headed'

theorem Response.compileAll_parallel {responses : List (String × Response)}
    (hs : ∀ response ∈ responses, ∀ s ∈ response.2.schemas, P s) :
    R (compileAll dialect responses) (compileAll dialect' responses) := by
  induction responses with
  | nil =>
    rw [compileAll, compileAll]
    exact hR.pure _ _
  | cons first rest ih =>
    obtain ⟨status, response⟩ := first
    have hhere := hs (status, response) List.mem_cons_self
    rw [compileAll, compileAll]
    refine hR.bind (response.compile_parallel hR sites hereditary refused hhere) fun _ _ => ?_
    refine hR.bind (ih fun r hr => hs r (List.mem_cons_of_mem _ hr)) fun others others' => ?_
    exact hR.pure _ _

omit hereditary refused in
theorem Route.compileBody_parallel {route : Route} (hs : ∀ s ∈ route.schemas, P s) :
    R (route.compileBody dialect) (route.compileBody dialect') := by
  unfold compileBody
  cases hbody : route.request.bind (·.body) with
  | none => exact hR.pure _ _
  | some body =>
    have hschemas : ∀ s ∈ body.schemas, P s := fun s hmem => hs s (route.schemas_of_body hbody hmem)
    refine hR.bind (body.compile_parallel hR sites hschemas) fun compiled compiled' => ?_
    exact hR.pure _ _

end Chained

section Parallel

variable {R : ∀ {α : Type}, Compile α → Compile α → Prop} (hR : Compile.Parallel @R)
  {dialect dialect' : Dialect} {P : Schema → Prop} (hereditary : Schema.Hereditary P)
  (sites : ∀ s, P s → R (s.site.compile dialect .reference) (s.site.compile dialect' .reference))

include hR sites

namespace Parameter

theorem compile_parallel {s : Schema} (hs : P s) : R (compile dialect s) (compile dialect' s) := by
  rcases compile_cases s with ⟨_, problem, hfail⟩ | ⟨name, location, _, hcompile⟩
  · rw [hfail, hfail]
    exact hR.fail problem
  · rw [hcompile, hcompile]
    refine hR.bind (compileBare_parallel hR.toChained sites hs) fun bare bare' => ?_
    exact hR.pure _ _

variable {registered registered' : Store Fragment} (alike : Alike registered registered')

include hereditary alike

theorem ofProperty_parallel (location : Location) (key : String) {s : Schema} (hs : P s) :
    R (ofProperty dialect registered location key s)
      (ofProperty dialect' registered' location key s) := by
  unfold ofProperty
  rw [reference?_eq_of_alike alike]
  cases reference? registered' s location key with
  | error problem => exact hR.fail problem
  | ok answer =>
    cases answer with
    | some reference => exact hR.pure _ _
    | none =>
      dsimp only
      cases (s.metadata.parameter.bind (·.name)).filter fun name => name != key with
      | some name => exact hR.fail _
      | none =>
        dsimp only
        cases locationConflict? s.metadata.parameter location key with
        | some problem => exact hR.fail problem
        | none => exact compile_parallel hR sites (hereditary.parameter _ hs)

theorem ofProperties_parallel (location : Location) {fields : List (String × Schema)}
    (hs : ∀ f ∈ fields, P f.2) :
    R (ofProperties dialect registered location fields)
      (ofProperties dialect' registered' location fields) := by
  induction fields with
  | nil =>
    rw [ofProperties, ofProperties]
    exact hR.pure _ _
  | cons first rest ih =>
    obtain ⟨key, s⟩ := first
    rw [ofProperties, ofProperties]
    have hhere := hs (key, s) List.mem_cons_self
    have hothers := ih fun f hf => hs f (List.mem_cons_of_mem _ hf)
    refine hR.bind (ofProperty_parallel hR hereditary sites alike location key hhere) fun _ _ => ?_
    refine hR.bind hothers fun others others' => ?_
    exact hR.pure _ _

theorem ofSection_parallel (location : Location) {s : Schema} (hs : P s) :
    R (ofSection dialect registered location s) (ofSection dialect' registered' location s) := by
  unfold ofSection
  rw [reference?_eq_of_alike alike]
  cases reference? registered' s location none with
  | error problem => exact hR.fail problem
  | ok answer =>
    cases answer with
    | some reference => exact hR.pure _ _
    | none =>
      dsimp only
      split
      · rename_i shape treatment catchall hkind
        refine ofProperties_parallel hR hereditary sites alike location fun f hf => ?_
        refine hereditary.part hs ?_
        rw [hkind]
        exact List.mem_append_left _ (List.mem_map_of_mem hf)
      · cases locationConflict? s.metadata.parameter location "" with
        | some problem => exact hR.fail problem
        | none =>
          have hparameter := hereditary.parameter { location := some location } hs
          refine hR.bind (compile_parallel hR sites hparameter) fun parameter parameter' => ?_
          exact hR.pure _ _

theorem ofSchemas_parallel (location : Location) {schemas : List Schema}
    (hs : ∀ s ∈ schemas, P s) :
    R (ofSchemas dialect registered location schemas)
      (ofSchemas dialect' registered' location schemas) := by
  induction schemas with
  | nil =>
    rw [ofSchemas, ofSchemas]
    exact hR.pure _ _
  | cons s rest ih =>
    rw [ofSchemas, ofSchemas]
    have hhere := hR.mapProblem (Problem.locate fun place => { place with location := location })
      (ofSection_parallel hR hereditary sites alike location (hs s List.mem_cons_self))
    refine hR.bind hhere fun here here' => ?_
    refine hR.bind (ih fun t ht => hs t (List.mem_cons_of_mem _ ht)) fun others others' => ?_
    exact hR.pure _ _

omit hereditary sites in
/-- What is entered is checked against what is registered by name and location only. -/
theorem enter_parallel (refId? : Option String) {new new' : Fragment}
    (hnew : ∀ key, textOf new' key = textOf new key) :
    R (enter registered refId? new) (enter registered' refId? new') := by
  unfold enter
  cases refId? with
  | none => exact hR.pure _ _
  | some refId =>
    rcases alike.cases refId with ⟨hnone, hnone'⟩ | ⟨old, old', hold, hold', hsame⟩
    · simp only [hnone, hnone']
      exact hR.pure _ _
    · simp only [hold, hold', hsame, hnew]
      generalize List.find? _ _ = disagree
      cases disagree with
      | some key => exact hR.fail _
      | none => exact hR.pure _ _

omit hereditary in
/-- The name and the location that are entered do not depend on what the schema has become. -/
theorem register_parallel {s : Schema} (hs : P s) :
    R (register dialect registered s) (register dialect' registered' s) := by
  rw [register_eq, register_eq]
  rcases compile_cases s with ⟨_, problem, hfail⟩ | ⟨name, location, _, hcompile⟩
  · rw [hfail, hfail]
    exact hR.fail problem
  · rw [hcompile, hcompile, bind_assoc, bind_assoc]
    refine hR.bind (compileBare_parallel hR.toChained sites hs) fun bare bare' => ?_
    rw [pure_bind, pure_bind]
    exact enter_parallel hR alike _ fun key => by rw [textOf_placed, textOf_placed]

end Parameter

variable {registered registered' : Store Fragment} (alike : Parameter.Alike registered registered')

include hereditary alike

theorem Request.compileParameters_parallel {request : Request} (hs : ∀ s ∈ request.schemas, P s) :
    R (request.compileParameters dialect registered)
      (request.compileParameters dialect' registered') := by
  have hsection (location : Location) :=
    Parameter.ofSchemas_parallel hR hereditary sites alike location fun s hmem =>
      hs s (request.schemas_of_section location hmem)
  unfold compileParameters
  refine hR.bind (hsection .query) fun query query' => ?_
  refine hR.bind (hsection .path) fun path path' => ?_
  refine hR.bind (hsection .cookie) fun cookie cookie' => ?_
  refine hR.bind (hsection .header) fun header header' => ?_
  exact hR.pure _ _

theorem Route.compileParameters_parallel {route : Route} (hs : ∀ s ∈ route.schemas, P s) :
    R (route.compileParameters dialect registered)
      (route.compileParameters dialect' registered') := by
  unfold compileParameters
  cases hrequest : route.request with
  | none => exact hR.pure _ _
  | some request =>
    have hschemas : ∀ s ∈ request.schemas, P s := fun s hmem =>
      hs s (route.schemas_of_request hrequest hmem)
    exact hR.mapProblem _ (request.compileParameters_parallel hR hereditary sites alike hschemas)

theorem Route.compile_parallel {route : Route} (hs : ∀ s ∈ route.schemas, P s) :
    R (route.compile dialect registered) (route.compile dialect' registered') := by
  have hresponses := Response.compileAll_parallel hR.toChained sites hereditary
    (fun cause => hR.fail _) fun response hresponse s hmem =>
      hs s (route.schemas_of_response hresponse hmem)
  unfold compile
  refine hR.bind hresponses fun responses responses' => ?_
  refine hR.bind (route.compileParameters_parallel hR hereditary sites alike hs) fun _ _ => ?_
  refine hR.bind (route.compileBody_parallel hR.toChained sites hs) fun body body' => ?_
  exact hR.pure _ _

end Parallel

/-! ## Moves of the named schemas along a run -/

namespace Generation

variable {dialect : Dialect} {generation after : Generation}

section Moves

variable {R : Store Fragment → Store Fragment → Prop} (refl : ∀ store, R store store)
  (trans : ∀ first second third, R first second → R second third → R first third)

include refl trans

/-- One step moves the named schemas only by compiling schemas of the definition, parts of them,
and parameters made of either. -/
theorem moves_stepsTo_of_schemas {P : Schema → Prop} (hereditary : Schema.Hereditary P)
    (sites : ∀ s, P s → ∀ reply, Compile.Moves R (s.site.compile dialect reply))
    {d : Definition} (hd : ∀ s ∈ d.schemas, P s) (h : StepsTo dialect generation d after) :
    R generation.schemas after.schemas := by
  have hR := (Compile.moves_sequential refl trans).parallel
  have hsites (s : Schema) (hs : P s) : Compile.Moves R (s.site.compile dialect .reference)
      ∧ Compile.Moves R (s.site.compile dialect .reference) :=
    ⟨sites s hs .reference, sites s hs .reference⟩
  have alike := Parameter.Alike.refl generation.parameters
  have hroute {r : Route} (hr : ∀ s ∈ r.schemas, P s) :=
    (Route.compile_parallel hR hereditary hsites alike hr).1
  cases h with
  | plain hact => exact sites _ (hd _ List.mem_cons_self) .fragment _ _ _ hact
  | schema hact => exact sites _ (hd _ List.mem_cons_self) .fragment _ _ _ hact
  | parameter hact =>
    exact (Parameter.register_parallel hR hsites alike (hd _ List.mem_cons_self)).1 _ _ _ hact
  | component c => exact refl _
  | route hact => exact hroute hd _ _ _ hact
  | webhook _ hact => exact hroute hd _ _ _ hact

/-- One step moves the named schemas only by compiling sites. -/
theorem moves_stepsTo_of_sites
    (sites : ∀ (t : Site) (reply : Reply), Compile.Moves R (t.compile dialect reply))
    {d : Definition} (h : StepsTo dialect generation d after) :
    R generation.schemas after.schemas :=
  moves_stepsTo_of_schemas refl trans Schema.hereditary_true (fun s _ => sites s.site)
    (fun _ _ => trivial) h

variable (hdefine : ∀ store name value, R store (Store.define store name value).2)

include hdefine

/-- One step moves the named schemas only by storing fragments. -/
theorem moves_stepsTo {d : Definition} (h : StepsTo dialect generation d after) :
    R generation.schemas after.schemas :=
  moves_stepsTo_of_sites refl trans
    (fun t reply => t.moves_compile refl trans reply fun name _ store value =>
      hdefine store name value) h

/-- A run moves the named schemas only by storing fragments. -/
theorem moves_steps {definitions : List Definition}
    (h : generation.steps dialect definitions = .ok after) :
    R generation.schemas after.schemas := by
  induction definitions generalizing generation with
  | nil =>
    cases h
    exact refl _
  | cons d rest ih =>
    obtain ⟨next, hstep, hrest⟩ := steps_cons_eq_ok h
    exact trans _ _ _ (moves_stepsTo refl trans hdefine hstep) (ih hrest)

end Moves

/-- A run only adds to the named schemas. -/
theorem schemas_le_of_steps {definitions : List Definition}
    (h : generation.steps dialect definitions = .ok after) : generation.schemas ≤ after.schemas :=
  moves_steps le_refl (fun _ _ _ => le_trans) (fun store name value => Store.le_define store name value)
    h

/-- A run never names two schemas alike. -/
theorem unique_of_steps {definitions : List Definition} (unique : generation.schemas.Unique)
    (h : generation.steps dialect definitions = .ok after) : after.schemas.Unique :=
  moves_steps (Store.Preserves.refl _) (Store.Preserves.trans _)
    (fun _ name value h => h.define name value) h unique

end Generation

end OpenApi
