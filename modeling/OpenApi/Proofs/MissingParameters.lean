/-
# OpenApi.Proofs.MissingParameters -- where a missing parameter key is reported

A parameter object has a name and a location. A parameter that is submitted as such has to give both.
In a request the section gives the location, and a property of an object has its key for a name; so all
that can be missing there is the name of a schema that stands for a parameter by itself. That is
reported with the section and the operation.

An operation is compiled in parts: its responses, the schemas in the sections of its request, and the
body. It fails with the problem of the first part that does. A missing key is completed on the way, and
every other problem is passed on as it was raised (`Route.compile_eq_error_iff`).
-/
import OpenApi.Proofs.Problems
import OpenApi.Proofs.RequestParameters

namespace OpenApi

/-! ## One parameter -/

namespace Parameter

variable {dialect : Dialect} {registered : Store Fragment}

/-- Compiling a parameter raises a missing key only where the schema does not say it. -/
theorem raises_compile (s : Schema) :
    Compile.Raises (fun problem => problem.Placeless
      ∨ (s.metadata.parameter.bind (·.name) = none
        ∧ problem = .missingParameter { missing := .name })
      ∨ s.metadata.parameter.bind (·.location) = none
        ∧ ∃ name, problem = .missingParameter { missing := .location, parameter := some name })
      (compile dialect s) := by
  unfold compile
  dsimp only
  cases hname : s.metadata.parameter.bind (·.name) with
  | none => exact .fail (Or.inr (Or.inl ⟨rfl, rfl⟩))
  | some name =>
    cases hlocation : s.metadata.parameter.bind (·.location) with
    | none => exact .fail (Or.inr (Or.inr ⟨rfl, name, rfl⟩))
    | some location =>
      refine .bind ((placeless_compileBare s).mono fun problem => Or.inl) fun bare => ?_
      exact .pure _

theorem location_parameter (s : Schema) (name : Option String) (location : Location) :
    (s.parameter { name := name, location := some location }).metadata.parameter.bind (·.location)
      = some location := by
  rw [metadata_parameter]
  cases s.ownMetadata?.bind (·.parameter) <;> rfl

theorem name_parameter (s : Schema) (name : String) (location : Option Location) :
    (s.parameter { name := some name, location := location }).metadata.parameter.bind (·.name)
      = some name := by
  rw [metadata_parameter]
  cases s.ownMetadata?.bind (·.parameter) <;> rfl

/-- A registration knows neither a section nor an operation. -/
theorem raises_register (s : Schema) :
    Compile.Raises (fun problem => ∀ place, problem = .missingParameter place →
      place.route = none ∧ place.location = none) (register dialect registered s) := by
  rw [register_eq]
  refine .bind ((raises_compile s).mono fun problem h place hplace => ?_) fun new => ?_
  · rcases h with h | ⟨-, hname⟩ | ⟨-, name, hlocation⟩
    · exact absurd hplace (h place)
    · cases hplace.symm.trans hname
      exact ⟨rfl, rfl⟩
    · cases hplace.symm.trans hlocation
      exact ⟨rfl, rfl⟩
  · unfold enter
    split
    · exact .pure _
    · split
      · exact .pure _
      · split
        · exact .fail nofun
        · exact .pure _

/-! ## The schemas of a section -/

theorem placeless_reference? {s : Schema} {location : Location} {name : Option String}
    {problem : Problem} (h : reference? registered s location name = .error problem) :
    problem.Placeless := by
  unfold reference? at h
  dsimp only at h
  split at h
  · cases h
  · split at h
    · cases h
      exact Problem.placeless_conflict _ _ _
    · split at h
      · cases h
        exact Problem.placeless_conflict _ _ _
      · cases h

theorem placeless_locationConflict? {info : Option ParameterInfo} {location : Location}
    {fallback : String} {problem : Problem}
    (h : locationConflict? info location fallback = some problem) : problem.Placeless := by
  unfold locationConflict? at h
  split at h
  · split at h
    · cases h
    · cases h
      exact Problem.placeless_conflict _ _ _
  · cases h

/-- A property has its key for a name and its section for a location. -/
theorem placeless_ofProperty (location : Location) (key : String) (s : Schema) :
    Compile.Raises Problem.Placeless (ofProperty dialect registered location key s) := by
  unfold ofProperty
  split
  · rename_i problem hreference
    exact .fail (placeless_reference? hreference)
  · exact .pure _
  · dsimp only
    split
    · exact .fail (Problem.placeless_conflict _ _ _)
    · split
      · rename_i problem hconflict
        exact .fail (placeless_locationConflict? hconflict)
      · refine (raises_compile _).mono fun problem h => ?_
        rcases h with h | ⟨hname, -⟩ | ⟨hlocation, -⟩
        · exact h
        · cases (name_parameter s key (some location)).symm.trans hname
        · cases (location_parameter s (some key) location).symm.trans hlocation

theorem placeless_ofProperties (location : Location) (fields : List (String × Schema)) :
    Compile.Raises Problem.Placeless (ofProperties dialect registered location fields) := by
  induction fields with
  | nil =>
    rw [ofProperties]
    exact .pure _
  | cons first rest ih =>
    obtain ⟨key, s⟩ := first
    rw [ofProperties]
    refine (placeless_ofProperty location key s).bind fun parameter => ?_
    exact ih.bind fun parameters => .pure _

/-- All that can be missing in a section is the name of a schema that is not an object. -/
theorem raises_ofSection (location : Location) (s : Schema) :
    Compile.Raises (fun problem => problem.Placeless
      ∨ s.isObject = false ∧ problem = .missingParameter { missing := .name })
      (ofSection dialect registered location s) := by
  unfold ofSection
  split
  · rename_i problem hreference
    exact .fail (Or.inl (placeless_reference? hreference))
  · exact .pure _
  · split
    · exact (placeless_ofProperties location _).mono fun problem => Or.inl
    · rename_i hkind
      split
      · rename_i problem hconflict
        exact .fail (Or.inl (placeless_locationConflict? hconflict))
      · refine .bind ((raises_compile _).mono fun problem h => ?_) fun parameter => .pure _
        rcases h with h | ⟨-, hmissing⟩ | ⟨hlocation, -⟩
        · exact Or.inl h
        · refine Or.inr ⟨?_, hmissing⟩
          unfold Schema.isObject
          split
          · rename_i shape treatment catchall hobject
            exact absurd hobject (hkind shape treatment catchall)
          · rfl
        · cases (location_parameter s none location).symm.trans hlocation

/-! ## Sections one after another -/

/-- Schemas in their sections are expanded, one after another. -/
inductive Expands (dialect : Dialect) (registered : Store Fragment) :
    List (Location × Schema) → Store Fragment → Store Fragment → Prop
  | nil (store : Store Fragment) : Expands dialect registered [] store store
  | cons {location : Location} {s : Schema} {rest : List (Location × Schema)}
      {store mid after : Store Fragment} {parameters : List Fragment} :
      ofSection dialect registered location s store = .ok (parameters, mid) →
      Expands dialect registered rest mid after →
      Expands dialect registered ((location, s) :: rest) store after

/-- Expanding schemas in their sections, one after another, stops at one of them with a problem. -/
inductive Stops (dialect : Dialect) (registered : Store Fragment) :
    List (Location × Schema) → Store Fragment → Location → Schema → Problem → Prop
  | here {location : Location} {s : Schema} {store : Store Fragment} {problem : Problem}
      (rest : List (Location × Schema)) :
      ofSection dialect registered location s store = .error problem →
      Stops dialect registered ((location, s) :: rest) store location s problem
  | later {location location' : Location} {s s' : Schema} {rest : List (Location × Schema)}
      {store mid : Store Fragment} {parameters : List Fragment} {problem : Problem} :
      ofSection dialect registered location s store = .ok (parameters, mid) →
      Stops dialect registered rest mid location' s' problem →
      Stops dialect registered ((location, s) :: rest) store location' s' problem

section Stops

variable {first second schemas : List (Location × Schema)} {store after : Store Fragment}
  {location : Location} {s : Schema} {problem : Problem}

theorem Stops.mem (h : Stops dialect registered schemas store location s problem) :
    (location, s) ∈ schemas := by
  induction h with
  | here rest _ => exact List.mem_cons_self
  | later _ _ ih => exact List.mem_cons_of_mem _ ih

theorem Stops.raised (h : Stops dialect registered schemas store location s problem) :
    problem.Placeless ∨ s.isObject = false ∧ problem = .missingParameter { missing := .name } := by
  induction h with
  | here rest h => exact raises_ofSection _ _ _ _ h
  | later _ _ ih => exact ih

theorem stops_append :
    Stops dialect registered (first ++ second) store location s problem
      ↔ Stops dialect registered first store location s problem
        ∨ ∃ mid, Expands dialect registered first store mid
          ∧ Stops dialect registered second mid location s problem := by
  induction first generalizing store with
  | nil =>
    constructor
    · exact fun h => Or.inr ⟨store, .nil store, h⟩
    · rintro (h | ⟨mid, hnil, h⟩)
      · cases h
      · cases hnil
        exact h
  | cons e rest ih =>
    constructor
    · intro h
      cases h with
      | here _ h => exact Or.inl (.here rest h)
      | later hhere h =>
        rcases ih.mp h with h | ⟨mid, hrest, h⟩
        · exact Or.inl (.later hhere h)
        · exact Or.inr ⟨mid, .cons hhere hrest, h⟩
    · rintro (h | ⟨mid, hfirst, h⟩)
      · cases h with
        | here _ h => exact .here _ h
        | later hhere h => exact .later hhere (ih.mpr (Or.inl h))
      · cases hfirst with
        | cons hhere hrest => exact .later hhere (ih.mpr (Or.inr ⟨mid, hrest, h⟩))

end Stops

/-- Expanding schemas in their sections stops, and the problem is completed with the section in which
it does. -/
def StopsWith (dialect : Dialect) (registered : Store Fragment) (schemas : List (Location × Schema))
    (store : Store Fragment) (problem : Problem) : Prop :=
  ∃ location s raw, Stops dialect registered schemas store location s raw
    ∧ problem = raw.locate fun place => { place with location := location }

/-! ## Requests -/

/-- The schemas of one section are expanded where the section is compiled. -/
theorem ofSchemas_eq_ok_iff {location : Location} {schemas : List Schema}
    {store after : Store Fragment} :
    (∃ parameters, ofSchemas dialect registered location schemas store = .ok (parameters, after))
      ↔ Expands dialect registered (schemas.map (Prod.mk location)) store after := by
  induction schemas generalizing store after with
  | nil =>
    constructor
    · rintro ⟨parameters, h⟩
      rw [(Compile.of_pure_ok h).2]
      exact .nil store
    · intro h
      cases h
      exact ⟨[], rfl⟩
  | cons s rest ih =>
    constructor
    · rintro ⟨parameters, h⟩
      rw [ofSchemas] at h
      obtain ⟨here, mid, hhere, h⟩ := Compile.of_bind_ok h
      obtain ⟨others, mid', hothers, h⟩ := Compile.of_bind_ok h
      rw [(Compile.of_pure_ok h).2]
      exact .cons (Compile.mapProblem_apply_ok.mp hhere) (ih.mp ⟨others, hothers⟩)
    · intro h
      cases h with
      | cons hhere hrest =>
        obtain ⟨others, hothers⟩ := ih.mpr hrest
        rw [ofSchemas, Compile.bind_apply_ok (Compile.mapProblem_apply_ok.mpr hhere),
          Compile.bind_apply_ok hothers]
        exact ⟨_, rfl⟩

/-- A section fails with the problem of the schema at which it stops. -/
theorem ofSchemas_eq_error_iff {location : Location} {schemas : List Schema}
    {store : Store Fragment} {problem : Problem} :
    ofSchemas dialect registered location schemas store = .error problem
      ↔ StopsWith dialect registered (schemas.map (Prod.mk location)) store problem := by
  induction schemas generalizing store with
  | nil =>
    constructor
    · intro h
      cases h
    · rintro ⟨location', s, raw, h, -⟩
      cases h
  | cons s rest ih =>
    rw [ofSchemas, Compile.bind_eq_error_iff, Compile.mapProblem_apply_error]
    simp only [Compile.bind_eq_error_iff, ih, Compile.mapProblem_apply_ok]
    constructor
    · rintro (⟨raw, hraw, rfl⟩ | ⟨here, mid, hhere, ⟨location', s', raw, h, rfl⟩ | ⟨_, _, _, h⟩⟩)
      · exact ⟨location, s, raw, .here _ hraw, rfl⟩
      · exact ⟨location', s', raw, .later hhere h, rfl⟩
      · cases h
    · rintro ⟨location', s', raw, h, rfl⟩
      cases h with
      | here _ h => exact Or.inl ⟨raw, h, rfl⟩
      | later hhere h => exact Or.inr ⟨_, _, hhere, Or.inl ⟨location', s', raw, h, rfl⟩⟩

/-- A section and what follows it fail as the schemas of the section and those that follow do. -/
theorem ofSchemas_bind_eq_error_iff {α : Type} {location : Location} {schemas : List Schema}
    {rest : List (Location × Schema)} {k : List Fragment → Compile α} {problem : Problem}
    (hk : ∀ parameters mid,
      k parameters mid = .error problem ↔ StopsWith dialect registered rest mid problem)
    (store : Store Fragment) :
    (ofSchemas dialect registered location schemas >>= k) store = .error problem
      ↔ StopsWith dialect registered (schemas.map (Prod.mk location) ++ rest) store problem := by
  rw [Compile.bind_eq_error_iff, ofSchemas_eq_error_iff]
  constructor
  · rintro (⟨location', s, raw, h, rfl⟩ | ⟨parameters, mid, hok, h⟩)
    · exact ⟨location', s, raw, stops_append.mpr (Or.inl h), rfl⟩
    · obtain ⟨location', s, raw, hrest, rfl⟩ := (hk parameters mid).mp h
      have hmid := ofSchemas_eq_ok_iff.mp ⟨parameters, hok⟩
      exact ⟨location', s, raw, stops_append.mpr (Or.inr ⟨mid, hmid, hrest⟩), rfl⟩
  · rintro ⟨location', s, raw, h, rfl⟩
    rcases stops_append.mp h with h | ⟨mid, hmid, h⟩
    · exact Or.inl ⟨location', s, raw, h, rfl⟩
    · obtain ⟨parameters, hok⟩ := ofSchemas_eq_ok_iff.mpr hmid
      exact Or.inr ⟨parameters, mid, hok, (hk parameters mid).mpr ⟨location', s, raw, h, rfl⟩⟩

end Parameter

namespace Request

/-- The schemas of a request in the order in which they are expanded, with their sections. -/
def expansions (request : Request) : List (Location × Schema) :=
  [Location.query, .path, .cookie, .header].flatMap fun location =>
    (request.schemasAt location).map (Prod.mk location)

theorem mem_expansions {request : Request} {location : Location} {s : Schema}
    (h : (location, s) ∈ request.expansions) : s ∈ request.schemasAt location := by
  obtain ⟨location', -, h⟩ := List.mem_flatMap.mp h
  obtain ⟨s', hs', hpair⟩ := List.mem_map.mp h
  cases hpair
  exact hs'

/-- A request fails with the problem of the schema at which its expansion stops. -/
theorem compileParameters_eq_error_iff {dialect : Dialect} {registered : Store Fragment}
    {request : Request} {store : Store Fragment} {problem : Problem} :
    request.compileParameters dialect registered store = .error problem
      ↔ Parameter.StopsWith dialect registered request.expansions store problem := by
  unfold compileParameters expansions
  simp only [List.flatMap_cons, List.flatMap_nil, section_eq_schemasAt]
  refine Parameter.ofSchemas_bind_eq_error_iff (fun _ mid => ?_) store
  refine Parameter.ofSchemas_bind_eq_error_iff (fun _ mid => ?_) mid
  refine Parameter.ofSchemas_bind_eq_error_iff (fun _ mid => ?_) mid
  refine Parameter.ofSchemas_bind_eq_error_iff (fun _ mid => ?_) mid
  constructor
  · intro h
    cases h
  · rintro ⟨location, s, raw, h, -⟩
    cases h

end Request

/-! ## Operations -/

namespace Route

/-- What an operation compiles. -/
inductive Part where
  | responses
  | parameters (location : Location) (schema : Schema)
  | body

/-- What is known of the place of a missing key in a part of an operation. -/
def Part.locate (route : Route) : Part → Problem → Problem
  | parameters location _ =>
    Problem.locate fun place => { place with location := location, route := route.name }
  | responses => id
  | body => id

/-- A part of an operation ends with a problem, after all parts before it have been compiled. -/
inductive RaisesAt (dialect : Dialect) (registered : Store Fragment) (route : Route)
    (store : Store Fragment) : Part → Problem → Prop
  | responses {problem : Problem} :
      Response.compileAll dialect route.responses store = .error problem →
      RaisesAt dialect registered route store .responses problem
  | parameters {responses : Fragment} {mid : Store Fragment} {request : Request}
      {location : Location} {s : Schema} {problem : Problem} :
      Response.compileAll dialect route.responses store = .ok (responses, mid) →
      route.request = some request →
      Parameter.Stops dialect registered request.expansions mid location s problem →
      RaisesAt dialect registered route store (.parameters location s) problem
  | body {responses : Fragment} {mid mid' : Store Fragment} {parameters : List Fragment}
      {problem : Problem} :
      Response.compileAll dialect route.responses store = .ok (responses, mid) →
      route.compileParameters dialect registered mid = .ok (parameters, mid') →
      route.compileBody dialect mid' = .error problem →
      RaisesAt dialect registered route store .body problem

variable {dialect : Dialect} {registered : Store Fragment} {route : Route} {store : Store Fragment}

theorem compileParameters_eq_error_iff {problem : Problem} :
    route.compileParameters dialect registered store = .error problem
      ↔ ∃ request location s raw, route.request = some request
        ∧ Parameter.Stops dialect registered request.expansions store location s raw
        ∧ problem = (Part.parameters location s).locate route raw := by
  have hlocate (location : Location) (raw : Problem) :
      (raw.locate fun place => { place with location := location }).locate
          (fun place => { place with route := route.name })
        = raw.locate fun place => { place with location := location, route := route.name } := by
    cases raw <;> rfl
  unfold compileParameters
  cases hrequest : route.request with
  | none =>
    constructor
    · intro h
      cases h
    · rintro ⟨request, location, s, raw, hsome, -⟩
      cases hsome
  | some request =>
    rw [Compile.mapProblem_apply_error]
    constructor
    · rintro ⟨raw', hraw', rfl⟩
      obtain ⟨location, s, raw, h, rfl⟩ := Request.compileParameters_eq_error_iff.mp hraw'
      exact ⟨request, location, s, raw, rfl, h, hlocate location raw⟩
    · rintro ⟨request', location, s, raw, hrequest', h, rfl⟩
      cases hrequest'
      exact ⟨_, Request.compileParameters_eq_error_iff.mpr ⟨location, s, raw, h, rfl⟩,
        (hlocate location raw).symm⟩

/-- An operation fails with the problem of its first part that does, completed with what is known of
the place. -/
theorem compile_eq_error_iff {problem : Problem} :
    route.compile dialect registered store = .error problem
      ↔ ∃ part raw, route.RaisesAt dialect registered store part raw
        ∧ problem = part.locate route raw := by
  unfold compile
  simp only [Compile.bind_eq_error_iff, compileParameters_eq_error_iff]
  constructor
  · rintro (h | ⟨responses, mid, hresponses, ⟨request, location, s, raw, hrequest, h, rfl⟩
      | ⟨parameters, mid', hparameters, h | ⟨_, _, _, h⟩⟩⟩)
    · exact ⟨.responses, problem, .responses h, rfl⟩
    · exact ⟨.parameters location s, raw, .parameters hresponses hrequest h, rfl⟩
    · exact ⟨.body, problem, .body hresponses hparameters h, rfl⟩
    · cases h
  · rintro ⟨part, raw, h, rfl⟩
    cases h with
    | responses h => exact Or.inl h
    | parameters hresponses hrequest h =>
      exact Or.inr ⟨_, _, hresponses, Or.inl ⟨_, _, _, raw, hrequest, h, rfl⟩⟩
    | body hresponses hparameters h =>
      exact Or.inr ⟨_, _, hresponses, Or.inr ⟨_, _, hparameters, Or.inl h⟩⟩

/-- What a part raises is no missing key, or it is the missing name of a schema in a section of the
request that is not an object. -/
theorem RaisesAt.raised {part : Part} {raw : Problem}
    (h : route.RaisesAt dialect registered store part raw) :
    raw.Placeless ∨ ∃ request location s, part = .parameters location s
      ∧ route.request = some request ∧ s ∈ request.schemasAt location ∧ s.isObject = false
      ∧ raw = .missingParameter { missing := .name } := by
  cases h with
  | responses h => exact Or.inl (Response.placeless_compileAll _ _ _ h)
  | parameters _ hrequest h =>
    refine h.raised.imp_right fun ⟨hobject, hraw⟩ => ?_
    exact ⟨_, _, _, rfl, hrequest, Request.mem_expansions h.mem, hobject, hraw⟩
  | body _ _ h => exact Or.inl (route.placeless_compileBody _ _ h)

/-- Only a missing key is completed. -/
theorem locate_of_placeless {part : Part} {raw : Problem} (h : raw.Placeless) :
    part.locate route raw = raw := by
  cases part with
  | parameters location s => exact h.locate _
  | responses | body => rfl

/-- A problem that is no missing key leaves an operation as it was raised. -/
theorem compile_eq_error_iff_of_placeless {problem : Problem} (h : problem.Placeless) :
    route.compile dialect registered store = .error problem
      ↔ ∃ part, route.RaisesAt dialect registered store part problem := by
  rw [compile_eq_error_iff]
  constructor
  · rintro ⟨part, raw, hraises, rfl⟩
    refine ⟨part, ?_⟩
    rcases hraises.raised with hraw | ⟨_, location, s, rfl, _, _, _, rfl⟩
    · rwa [locate_of_placeless hraw]
    · exact absurd rfl (h _)
  · exact fun ⟨part, hraises⟩ => ⟨part, problem, hraises, (locate_of_placeless h).symm⟩

end Route

/-! ## Runs -/

namespace Generation

variable {dialect : Dialect} {generation : Generation} {place : MissingParameter}

/-- A definition that fails for a missing key is a parameter, of which neither the section nor the
operation is known, or it is an operation. -/
theorem missing_of_step {d : Definition}
    (h : generation.step dialect d = .error (.missingParameter place)) :
    (∃ s, d = .parameter s ∧ place.route = none ∧ place.location = none)
      ∨ ∃ route, (d = .route route ∨ d = .webhook route)
        ∧ route.compile dialect generation.parameters generation.schemas
          = .error (.missingParameter place) := by
  cases d with
  | plain s | schema s =>
    have hact : s.site.compile dialect .fragment generation.schemas = .error (.missingParameter place) :=
      of_run_eq_error h
    exact absurd rfl (s.placeless_site dialect .fragment _ _ hact place)
  | parameter s =>
    have hact : Parameter.register dialect generation.parameters s generation.schemas
        = .error (.missingParameter place) := of_run_eq_error h
    exact Or.inl ⟨s, rfl, Parameter.raises_register s _ _ hact place rfl⟩
  | component c => cases h
  | route route => exact Or.inr ⟨route, Or.inl rfl, of_run_eq_error h⟩
  | webhook route =>
    cases dialect with
    | flags => cases h
    | types => exact Or.inr ⟨route, Or.inr rfl, of_run_eq_error h⟩

end Generation

/-- A missing parameter key is reported with its place. Where a generation fails for one, the first
definition by rank that fails is a parameter, of which neither a section nor an operation is known; or
it is a route or a webhook, what is missing is the name of the schema that is being expanded in a
section of its request, and the section and the method and path of the operation are known. No schema
of a section that is an object, and no response or body, raises a missing key. Every other problem
leaves an operation exactly as a part of it has raised it. -/
theorem missing_parameter_located :
    (∀ version definitions place, Fails version definitions (.missingParameter place) →
      ∃ before d after generation, Definition.byRank definitions = before ++ d :: after
        ∧ Generation.steps version.dialect {} before = .ok generation
        ∧ generation.step version.dialect d = .error (.missingParameter place)
        ∧ ((∃ s, d = .parameter s ∧ place.route = none ∧ place.location = none)
          ∨ ∃ route request location s, (d = .route route ∨ d = .webhook route)
            ∧ route.request = some request ∧ s ∈ request.schemasAt location
            ∧ route.RaisesAt version.dialect generation.parameters generation.schemas
              (.parameters location s) (.missingParameter { missing := .name })
            ∧ place = { missing := .name, parameter := none, location := some location
                        route := some (route.method.text ++ " " ++ route.path) }))
      ∧ ∀ dialect registered (route : Route) store,
        (∀ part place, route.RaisesAt dialect registered store part (.missingParameter place) →
          ∃ location s, part = .parameters location s ∧ s.isObject = false)
        ∧ ∀ problem, problem.Placeless →
          (route.compile dialect registered store = .error problem
            ↔ ∃ part, route.RaisesAt dialect registered store part problem) := by
  constructor
  · intro version definitions place hfails
    obtain ⟨before, d, after, generation, hdefinitions, hbefore, hstep⟩ :=
      Generation.steps_eq_error hfails.ofDefinitions
    refine ⟨before, d, after, generation, hdefinitions, hbefore, hstep, ?_⟩
    refine (Generation.missing_of_step hstep).imp_right ?_
    rintro ⟨route, hd, hcompile⟩
    obtain ⟨part, raw, hraises, hplace⟩ := Route.compile_eq_error_iff.mp hcompile
    -- A problem that is no missing key would not have become one on the way.
    rcases hraises.raised with hraw | ⟨request, location, s, rfl, hrequest, hs, -, rfl⟩
    · rw [Route.locate_of_placeless hraw] at hplace
      exact absurd hplace.symm (hraw place)
    · exact ⟨route, request, location, s, hd, hrequest, hs, hraises,
        Problem.missingParameter.inj hplace⟩
  · intro dialect registered route store
    refine ⟨fun part place hraises => ?_, fun problem => Route.compile_eq_error_iff_of_placeless⟩
    rcases hraises.raised with hraw | ⟨_, location, s, hpart, _, _, hobject, -⟩
    · exact absurd rfl (hraw place)
    · exact ⟨location, s, hpart, hobject⟩

/-- The query of a route is a string without a name. -/
theorem nameless_query_located :
    let definitions : List Definition :=
      [.route { method := .get, path := "/items"
                request := some { query := some (.ofKind (.string [])) } }]
    let place : MissingParameter :=
      { missing := .name, location := some .query, route := some "get /items" }
    generateData .v310 definitions = .error (.missingParameter place)
      ∧ ∃ (generation : Generation) (route : Route) (request : Request) (s : Schema),
        Definition.route route ∈ definitions
        ∧ route.request = some request ∧ s ∈ request.schemasAt .query
        ∧ route.RaisesAt .types generation.parameters generation.schemas (.parameters .query s)
          (.missingParameter { missing := .name }) := by
  intro definitions place
  refine ⟨rfl, ?_⟩
  obtain ⟨before, d, after, generation, hbyRank, -, -, hfailed⟩ :=
    missing_parameter_located.1 .v310 definitions place (.data rfl)
  have hd : d ∈ definitions := by
    rw [← Definition.mem_byRank, hbyRank]
    exact List.mem_append_right _ List.mem_cons_self
  obtain rfl := List.mem_singleton.mp hd
  rcases hfailed with ⟨s, hs, -⟩ | ⟨route, request, location, s, hroute | hwebhook, hrequest, hs, h, hplace⟩
  · cases hs
  · cases hroute
    obtain rfl : Location.query = location := Option.some.inj (congrArg MissingParameter.location hplace)
    exact ⟨generation, _, request, s, List.mem_cons_self, hrequest, hs, h⟩
  · cases hwebhook

end OpenApi
