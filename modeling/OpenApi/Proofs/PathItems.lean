/-
# OpenApi.Proofs.PathItems -- the operations that a run leaves

Each route is compiled where its turn comes, and its operation is put under its path and its method. So
a run leaves under a path and a method what the last route for them was compiled to, and whatever
stood elsewhere stays (`Generation.exists_last_compiled`, `Generation.operation?_steps_of_none`). Paths,
and methods within a path, keep the places they have, and new ones follow in the order in which they
first occur (`Generation.keys_items_steps`, `Generation.keys_item_steps`).

Routes and webhooks are put into parts of their own, and neither touches the other's part. When
operations are compiled, all parameters of the definitions are registered.
-/
import OpenApi.Proofs.GeneratedNames

namespace OpenApi

theorem Method.text_injective {m m' : Method} (h : m.text = m'.text) : m = m' := by
  cases m <;> cases m' <;> first | rfl | exact absurd h (by decide)

/-! ## Routes of a part -/

/-- The parts of an output in which operations stand. -/
inductive OperationPart where
  | paths
  | webhooks

namespace OperationPart

/-- The key of a part. -/
def key : OperationPart → String
  | paths => "paths"
  | webhooks => "webhooks"

/-- The operations of a generation that go into a part. -/
def items : OperationPart → Generation → PathItems
  | paths, generation => generation.paths
  | webhooks, generation => generation.webhooks

/-- The route that a definition puts into a part. -/
def route? : OperationPart → Definition → Option Route
  | paths, .route r => some r
  | webhooks, .webhook r => some r
  | _, _ => none

/-- The rank of the definitions that put a route into a part. -/
def rank : OperationPart → Nat
  | paths => 4
  | webhooks => 5

/-- The routes that were submitted for a path and a method, in order. -/
def routesAt (part : OperationPart) (definitions : List Definition) (path method : String) :
    List Route :=
  (definitions.filterMap part.route?).filter fun r => r.path == path && r.method.text == method

/-- The paths of the routes of a part, in order. -/
def pathsOf (part : OperationPart) (definitions : List Definition) : List String :=
  (definitions.filterMap part.route?).map (·.path)

/-- The methods of the routes for a path, in order. -/
def methodsAt (part : OperationPart) (definitions : List Definition) (path : String) : List String :=
  ((definitions.filterMap part.route?).filter fun r => r.path == path).map (·.method.text)

/-- The last of the definitions with a route for a path and a method compiles to an operation, in the
state that the definitions before it lead to. -/
def LastCompiles (part : OperationPart) (dialect : Dialect) (generation : Generation)
    (definitions : List Definition) (path : String) (method : Method) (operation : Fragment) : Prop :=
  ∃ first d rest r mid next, definitions = first ++ d :: rest
    ∧ part.route? d = some r ∧ r.path = path ∧ r.method = method
    ∧ part.routesAt rest path method.text = []
    ∧ generation.steps dialect first = .ok mid
    ∧ mid.operation dialect r = .ok (operation, next)

variable {part : OperationPart} {d : Definition} {r : Route} {definitions : List Definition}
  {path method : String}

theorem routesAt_append (first second : List Definition) :
    part.routesAt (first ++ second) path method
      = part.routesAt first path method ++ part.routesAt second path method := by
  unfold routesAt
  rw [List.filterMap_append, List.filter_append]

theorem routesAt_cons : part.routesAt (d :: definitions) path method
    = part.routesAt [d] path method ++ part.routesAt definitions path method :=
  routesAt_append [d] definitions

theorem routesAt_singleton (h : part.routesAt [d] path method = [r]) :
    part.route? d = some r ∧ r.path = path ∧ r.method.text = method := by
  have hmem : r ∈ part.routesAt [d] path method := h ▸ List.mem_singleton_self r
  obtain ⟨hroute, hplace⟩ := List.mem_filter.mp hmem
  simpa using And.intro hroute hplace

/-- Where there are routes for a path and a method, one is the last. -/
theorem exists_last (h : part.routesAt definitions path method ≠ []) :
    ∃ first d rest, definitions = first ++ d :: rest
      ∧ part.routesAt [d] path method ≠ [] ∧ part.routesAt rest path method = [] := by
  induction definitions with
  | nil => exact absurd rfl h
  | cons d rest ih =>
    -- The last one is further behind, unless there is none behind.
    by_cases hrest : part.routesAt rest path method = []
    · rw [routesAt_cons, hrest, List.append_nil] at h
      exact ⟨[], d, rest, rfl, h, hrest⟩
    · obtain ⟨first, last, behind, rfl, hlast, hbehind⟩ := ih hrest
      exact ⟨d :: first, last, behind, rfl, hlast, hbehind⟩

theorem route?_of_rank_ne (h : d.rank ≠ part.rank) : part.route? d = none := by
  cases part <;> cases d <;> first | rfl | exact absurd rfl h

theorem route?_of_early (h : d.isOperation = false) : part.route? d = none := by
  cases part <;> cases d <;> first | rfl | cases h

/-- Operations are taken by rank, and those of one part have one rank. -/
theorem routesAt_late :
    part.routesAt (Definition.late definitions) path method
      = part.routesAt definitions path method := by
  have hlate : (Definition.late definitions).filterMap part.route?
      = definitions.filterMap part.route? := by
    have hrank := Definition.filterMap_filter_rank (fun _ => part.route?_of_rank_ne) definitions
    cases part <;> simp [Definition.late, hrank, rank]
  rw [routesAt, hlate, routesAt]

end OperationPart

/-! ## Putting operations -/

namespace PathItems

/-- The operation under a path and a method. -/
def operation? (items : PathItems) (path method : String) : Option Json :=
  (Entries.get? items path).bind fun item => Entries.get? item method

/-- The methods of a path with their operations. There are none where the path has no item. -/
def item (items : PathItems) (path : String) : Fragment := (Entries.get? items path).getD []

variable (items : PathItems) (path other : String) (m : Method) (operation : Fragment)

theorem operation?_eq_item (method : String) :
    items.operation? path method = Entries.get? (items.item path) method := by
  unfold operation? item
  cases Entries.get? items path <;> rfl

theorem item_put : (items.put path m operation).item other
    = if other = path then Entries.insert (items.item path) m.text (.object operation)
      else items.item other := by
  unfold item put
  rw [Entries.get?_insert]
  split <;> rfl

theorem operation?_put (method : String) :
    (items.put path m operation).operation? other method
      = if path = other ∧ m.text = method then some (.object operation)
        else items.operation? other method := by
  rw [operation?_eq_item, operation?_eq_item, item_put]
  by_cases hpath : other = path
  · rw [if_pos hpath, Entries.get?_insert, hpath]
    simp only [true_and, eq_comm]
  · rw [if_neg hpath, if_neg fun h => hpath h.1.symm]

theorem keys_put : Entries.keys (items.put path m operation)
    = Entries.writtenOrder (Entries.keys items) [path] := by
  unfold put
  exact Entries.keys_insert_eq_writtenOrder _ _ _

end PathItems

namespace Generation

variable {dialect : Dialect} {generation after : Generation} {definitions : List Definition}
  {part : OperationPart} {path method : String}

/-! ## What a step puts -/

/-- A step puts the operation of its route into the part of the route, and leaves a part alone that
has no route for it. -/
theorem items_stepsTo (part : OperationPart) {d : Definition}
    (h : StepsTo dialect generation d after) :
    (part.route? d = none ∧ part.items after = part.items generation)
      ∨ ∃ r operation schemas, part.route? d = some r
        ∧ r.compile dialect generation.parameters generation.schemas = .ok (operation, schemas)
        ∧ part.items after = (part.items generation).put r.path r.method operation := by
  cases h with
  | route hact =>
    cases part with
    | paths => exact Or.inr ⟨_, _, _, rfl, hact, rfl⟩
    | webhooks => exact Or.inl ⟨rfl, rfl⟩
  | webhook _ hact =>
    cases part with
    | paths => exact Or.inl ⟨rfl, rfl⟩
    | webhooks => exact Or.inr ⟨_, _, _, rfl, hact, rfl⟩
  | plain _ | schema _ | parameter _ | component _ => exact Or.inl (by cases part <;> exact ⟨rfl, rfl⟩)

/-- A step puts the operation of its route under the path and the method of the route, and leaves
every other operation as it is. -/
theorem operation?_stepsTo {d : Definition} (h : StepsTo dialect generation d after) :
    (part.routesAt [d] path method = []
        ∧ (part.items after).operation? path method = (part.items generation).operation? path method)
      ∨ ∃ r operation schemas, part.routesAt [d] path method = [r]
        ∧ r.compile dialect generation.parameters generation.schemas = .ok (operation, schemas)
        ∧ (part.items after).operation? path method = some (.object operation) := by
  rcases items_stepsTo part h with ⟨hd, hitems⟩ | ⟨r, operation, schemas, hd, hact, hitems⟩
  · exact Or.inl ⟨by simp [OperationPart.routesAt, hd], by rw [hitems]⟩
  · rw [hitems, PathItems.operation?_put]
    by_cases hplace : r.path = path ∧ r.method.text = method
    · exact Or.inr ⟨r, operation, schemas, by simp [OperationPart.routesAt, hd, hplace], hact,
        if_pos hplace⟩
    · refine Or.inl ⟨?_, if_neg hplace⟩
      simpa [OperationPart.routesAt, hd] using hplace

/-! ## What a run leaves -/

/-- A part is left alone by definitions that have no route for it. -/
theorem items_steps_of_no_route (hnone : ∀ d ∈ definitions, part.route? d = none)
    (h : generation.steps dialect definitions = .ok after) :
    part.items after = part.items generation := by
  induction definitions generalizing generation with
  | nil =>
    cases h
    rfl
  | cons d rest ih =>
    obtain ⟨next, hstep, hrest⟩ := steps_cons_eq_ok h
    rw [ih (fun d hd => hnone d (List.mem_cons_of_mem _ hd)) hrest]
    rcases items_stepsTo part hstep with ⟨_, hitems⟩ | ⟨r, _, _, hroute, _, _⟩
    · exact hitems
    · rw [hnone d List.mem_cons_self] at hroute
      cases hroute

/-- What no route is for stays. -/
theorem operation?_steps_of_none (hnone : part.routesAt definitions path method = [])
    (h : generation.steps dialect definitions = .ok after) :
    (part.items after).operation? path method = (part.items generation).operation? path method := by
  induction definitions generalizing generation with
  | nil =>
    cases h
    rfl
  | cons d rest ih =>
    obtain ⟨next, hstep, hrest⟩ := steps_cons_eq_ok h
    rw [OperationPart.routesAt_cons] at hnone
    obtain ⟨hd, hbehind⟩ := List.append_eq_nil_iff.mp hnone
    rw [ih hbehind hrest]
    rcases operation?_stepsTo hstep with ⟨_, hsame⟩ | ⟨r, _, _, hroute, _, _⟩
    · exact hsame
    · rw [hd] at hroute
      cases hroute

/-- The last route for a path and a method has its operation there in the end. -/
theorem exists_last_compiled (hroutes : part.routesAt definitions path method ≠ [])
    (h : generation.steps dialect definitions = .ok after) :
    ∃ first d rest r mid operation schemas, definitions = first ++ d :: rest
      ∧ part.routesAt [d] path method = [r] ∧ part.routesAt rest path method = []
      ∧ generation.steps dialect first = .ok mid
      ∧ r.compile dialect mid.parameters mid.schemas = .ok (operation, schemas)
      ∧ (part.items after).operation? path method = some (.object operation) := by
  obtain ⟨first, d, rest, hsplit, hd, hbehind⟩ := OperationPart.exists_last hroutes
  rw [hsplit] at h
  obtain ⟨mid, hfirst, hbetween⟩ := steps_append_eq_ok.mp h
  obtain ⟨next, hstep, hrest⟩ := steps_cons_eq_ok hbetween
  rcases operation?_stepsTo hstep with ⟨hnone, _⟩ | ⟨r, operation, schemas, hroute, hact, hput⟩
  · exact absurd hnone hd
  · -- What comes behind the last route leaves its operation where it is.
    refine ⟨first, d, rest, r, mid, operation, schemas, hsplit, hroute, hbehind, hfirst, hact, ?_⟩
    rw [operation?_steps_of_none hbehind hrest]
    exact hput

theorem operation_eq_ok {r : Route} {operation : Fragment} {schemas : Store Fragment}
    (h : r.compile dialect generation.parameters generation.schemas = .ok (operation, schemas)) :
    generation.operation dialect r = .ok (operation, { generation with schemas }) := by
  rw [Generation.operation, run, h]
  rfl

/-- Paths keep their places, and new ones follow where they first occur. -/
theorem keys_items_steps (h : generation.steps dialect definitions = .ok after) :
    Entries.keys (part.items after)
      = Entries.writtenOrder (Entries.keys (part.items generation)) (part.pathsOf definitions) := by
  induction definitions generalizing generation with
  | nil =>
    cases h
    exact (Entries.writtenOrder_nil _).symm
  | cons d rest ih =>
    obtain ⟨next, hstep, hrest⟩ := steps_cons_eq_ok h
    rw [ih hrest]
    unfold OperationPart.pathsOf
    rcases items_stepsTo part hstep with ⟨hd, hitems⟩ | ⟨r, operation, _, hd, _, hitems⟩
    · rw [hitems, List.filterMap_cons_none hd]
    · rw [hitems, PathItems.keys_put, Entries.writtenOrder_append, List.filterMap_cons_some hd]
      rfl

/-- The methods of a path keep their places, and new ones follow where they first occur. -/
theorem keys_item_steps (h : generation.steps dialect definitions = .ok after) (path : String) :
    Entries.keys ((part.items after).item path)
      = Entries.writtenOrder (Entries.keys ((part.items generation).item path))
          (part.methodsAt definitions path) := by
  induction definitions generalizing generation with
  | nil =>
    cases h
    exact (Entries.writtenOrder_nil _).symm
  | cons d rest ih =>
    obtain ⟨next, hstep, hrest⟩ := steps_cons_eq_ok h
    rw [ih hrest]
    unfold OperationPart.methodsAt
    rcases items_stepsTo part hstep with ⟨hd, hitems⟩ | ⟨r, operation, _, hd, _, hitems⟩
    · rw [hitems, List.filterMap_cons_none hd]
    · rw [hitems, PathItems.item_put, List.filterMap_cons_some hd, List.filter_cons]
      by_cases hpath : r.path = path
      · rw [if_pos hpath.symm, hpath, Entries.keys_insert_eq_writtenOrder,
          Entries.writtenOrder_append, if_pos (beq_self_eq_true path)]
        rfl
      · rw [if_neg fun heq => hpath heq.symm, if_neg (by simpa using hpath)]

/-- A run of definitions leaves, under each path and each method of its routes, the operation that the
last route for them compiles to when its turn comes; every other operation is what it was. Paths, and
the methods of a path, keep the places they had; new ones follow in the order in which they first
occur, and there are no others. A part for which there is no route, such as the webhooks in a run of
routes, is left as it was. -/
theorem merges_routes (h : generation.steps dialect definitions = .ok after) (part : OperationPart) :
    (∀ path method, part.routesAt definitions path (Method.text method) ≠ [] →
        ∃ operation, part.LastCompiles dialect generation definitions path method operation
          ∧ (part.items after).operation? path method.text = some (.object operation))
      ∧ (∀ path method, part.routesAt definitions path method = [] →
          (part.items after).operation? path method = (part.items generation).operation? path method)
      ∧ Entries.keys (part.items after)
          = Entries.writtenOrder (Entries.keys (part.items generation)) (part.pathsOf definitions)
      ∧ (∀ path, Entries.keys ((part.items after).item path)
          = Entries.writtenOrder (Entries.keys ((part.items generation).item path))
              (part.methodsAt definitions path))
      ∧ ((∀ d ∈ definitions, part.route? d = none) → part.items after = part.items generation) := by
  refine ⟨?written, fun _ _ hnone => operation?_steps_of_none hnone h, keys_items_steps h,
    keys_item_steps h, fun hnone => items_steps_of_no_route hnone h⟩
  case written =>
    intro path method hroutes
    obtain ⟨first, d, rest, r, mid, operation, schemas, hsplit, hroute, hbehind, hfirst, hact, hput⟩ :=
      exists_last_compiled hroutes h
    obtain ⟨hr, hpath, hmethod⟩ := OperationPart.routesAt_singleton hroute
    exact ⟨operation, ⟨first, d, rest, r, mid, _, hsplit, hr, hpath, Method.text_injective hmethod,
      hbehind, hfirst, operation_eq_ok hact⟩, hput⟩

/-- Routes over an operation that is there already: one path gets its method replaced, keeps the other,
and stays in front; the methods of the new path stand as they first occur, with the last operation of
each. The webhook of that path is not touched. -/
theorem replaced_and_added :
    let named (id : String) : Fragment := [("operationId", .string id)]
    let given (id : String) : Fragment := named id ++ [("responses", .object [])]
    let route (method : Method) (path id : String) : Definition :=
      .route { method, path, operation := named id }
    let generation : Generation := {
      paths := [("/old", [("put", .object (given "kept")), ("get", .object (given "replaced"))])]
      webhooks := [("/new", [("post", .object (given "hook"))])] }
    let definitions := [route .post "/new" "first", route .get "/old" "second",
      .schema ((Schema.ofKind (.string [])).named "Tag"), route .get "/new" "third",
      route .post "/new" "last"]
    ∃ after, generation.steps .flags definitions = .ok after
      ∧ Entries.keys after.paths = ["/old", "/new"]
      ∧ Entries.keys (after.paths.item "/new") = ["post", "get"]
      ∧ after.paths.operation? "/old" "put" = some (.object (given "kept"))
      ∧ (∃ operation,
          OperationPart.paths.LastCompiles .flags generation definitions "/new" .post operation
            ∧ after.paths.operation? "/new" "post" = some (.object operation))
      ∧ after.webhooks = generation.webhooks := by
  intro named given route generation definitions
  let after : Generation := {
    schemas := ⟨[("Tag", [("type", .string "string")])]⟩
    paths := [("/old", [("put", .object (given "kept")), ("get", .object (given "second"))]),
      ("/new", [("post", .object (given "last")), ("get", .object (given "third"))])]
    webhooks := generation.webhooks }
  have hrun : generation.steps .flags definitions = .ok after := rfl
  obtain ⟨hwritten, hkept, hpaths, hmethods, _⟩ := merges_routes hrun .paths
  obtain ⟨_, _, _, _, huntouched⟩ := merges_routes hrun .webhooks
  exact ⟨after, hrun, hpaths.trans (by decide), (hmethods "/new").trans (by decide),
    hkept "/old" "put" (by decide), hwritten "/new" .post (by decide),
    huntouched (List.filterMap_eq_nil_iff.mp rfl)⟩

/-! ## From definitions to an output -/

/-- Every operation comes from the last route that was submitted for its path and its method,
compiled with all parameters that are registered. -/
theorem operation?_ofDefinitions (h : ofDefinitions dialect definitions = .ok after)
    {operation : Json} (hoperation : (part.items after).operation? path method = some operation) :
    ∃ r compiled store store', (part.routesAt definitions path method).getLast? = some r
      ∧ r.compile dialect after.parameters store = .ok (compiled, store')
      ∧ operation = .object compiled := by
  rw [ofDefinitions, Definition.byRank_eq_early_late] at h
  obtain ⟨mid, hearly, hlate⟩ := steps_append_eq_ok.mp h
  have hops : ∀ d ∈ Definition.late definitions, d.isOperation = true :=
    fun d hd => (Definition.mem_late.mp hd).2
  rw [← OperationPart.routesAt_late]
  by_cases hroutes : part.routesAt (Definition.late definitions) path method = []
  · have hnone : ∀ d ∈ Definition.early definitions, part.route? d = none := fun d hd =>
      OperationPart.route?_of_early (Definition.mem_early.mp hd).2
    rw [operation?_steps_of_none hroutes hlate, items_steps_of_no_route hnone hearly] at hoperation
    cases part <;> cases hoperation
  · obtain ⟨first, d, rest, r, last, compiled, schemas, hsplit, hroute, hbehind, hfirst, hact, hput⟩ :=
      exists_last_compiled hroutes hlate
    have hopsFirst : ∀ d ∈ first, d.isOperation = true := fun d hd =>
      hops d (hsplit ▸ List.mem_append_left _ hd)
    have hlast : (part.routesAt (Definition.late definitions) path method).getLast? = some r := by
      rw [hsplit, OperationPart.routesAt_append, OperationPart.routesAt_cons, hroute, hbehind,
        List.append_nil, List.getLast?_concat]
    -- Operations register nothing, neither those before the last route nor any.
    rw [parameters_steps hopsFirst hfirst] at hact
    rw [parameters_steps hops hlate]
    exact ⟨r, compiled, _, schemas, hlast, hact, Option.some.inj (hoperation.symm.trans hput)⟩

theorem operation?_writeOver (generation : Generation) (part : OperationPart)
    (path method : String) :
    (Json.object (generation.writeOver [])).operation? part.key path method
      = (part.items generation).operation? path method := by
  have hitems (items : PathItems) :
      (((Json.object items.toFragment).member? path).bind fun item => item.member? method)
        = items.operation? path method := by
    show (Entries.get? (Entries.mapValues Json.object items) path).bind _ = _
    rw [Entries.get?_mapValues, Option.bind_map]
    rfl
  unfold Json.operation?
  cases part with
  | paths =>
    show ((Json.member? _ "paths").bind _).bind _ = _
    rw [member?_writeOver_paths]
    exact hitems generation.paths
  | webhooks =>
    show ((Json.member? _ "webhooks").bind _).bind _ = generation.webhooks.operation? path method
    rw [member?_writeOver_webhooks]
    cases hwebhooks : generation.webhooks with
    | nil => rfl
    | cons item rest => exact hitems (item :: rest)

end Generation

end OpenApi
