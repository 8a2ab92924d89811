/-
# OpenApi.Proofs.Ownership -- when a schema decides what is stored under its identifier

Moving a schema to the front of the definitions moves it in front of the schemas that were
compiled before it, and leaves everything else where it is: plain schemas still come first, and
the other kinds still come later. In either place the first site with its identifier decides what
is found. So the same is found if that site is compiled as the schema is, and if no answer that is
written into it depends on what the overtaken schemas have stored (`Contest.Undisputed`).
-/
import OpenApi.Proofs.Contest
import OpenApi.Proofs.Wrapping

namespace OpenApi

/-! ## Wrappers that change nothing -/

namespace Schema

/-- The call says nothing that the schema does not say already: it accepts null only if the schema
does, and neither gives another default nor hides one. -/
def Wrapper.Neutral (s : Schema) : Wrapper → Prop
  | optional | refine => True
  | nullable | nullish => s.isNullable = true
  | brand _ | readonly => s.default? = none
  | withDefault value => s.default? = some value

/-- Two schemas give the same answers on null and on defaults. -/
structure ValuedAlike (s t : Schema) : Prop where
  nullable : s.isNullable = t.isNullable
  default : s.default? = t.default?
  inputDefault : s.inputDefault? = t.inputDefault?

theorem valuedAlike_wrap {w : Wrapper} {s t : Schema} (hw : w.Neutral s) (h : ValuedAlike t s) :
    ValuedAlike (w.wrap t) s := by
  obtain ⟨hnullable, hdefault, hinput⟩ := h
  cases w with
  | optional | refine =>
    constructor <;> simpa only [Wrapper.wrap, optional, refine, ofKind, isNullable, default?, inputDefault?]
  | nullable | nullish =>
    have hnull : s.isNullable = true := hw
    refine ⟨hnull.symm ▸ rfl, ?_, ?_⟩
    · simpa only [Wrapper.wrap, nullish, nullable, optional, ofKind, default?]
    · simpa only [Wrapper.wrap, nullish, nullable, optional, ofKind, inputDefault?]
  | brand name | readonly =>
    have hnone : s.default? = none := hw
    refine ⟨?_, hnone.symm ▸ rfl, ?_⟩
    · simpa only [Wrapper.wrap, brand, readonly, ofKind, isNullable]
    · simpa only [Wrapper.wrap, brand, readonly, ofKind, inputDefault?]
  | withDefault value =>
    have hvalue : s.default? = some value := hw
    refine ⟨?_, hvalue.symm ▸ rfl, ?_⟩
    · simpa only [Wrapper.wrap, withDefault, ofKind, isNullable]
    · simpa only [Wrapper.wrap, withDefault, ofKind, inputDefault?]

theorem valuedAlike_wrapAll {wrappers : List Wrapper} {s : Schema}
    (neutral : ∀ w ∈ wrappers, w.Neutral s) : ValuedAlike (wrapAll wrappers s) s := by
  induction wrappers with
  | nil => exact ⟨rfl, rfl, rfl⟩
  | cons w rest ih =>
    exact valuedAlike_wrap (neutral w List.mem_cons_self)
      (ih fun w' hw' => neutral w' (List.mem_cons_of_mem _ hw'))

/-- A schema whose own node adds nothing to its innermost one is settled as it is under any stack of
calls that say nothing new. -/
theorem site_wrapAll {wrappers : List Wrapper} {s : Schema} (neutral : ∀ w ∈ wrappers, w.Neutral s)
    (hs : s.AddsNothing) : (wrapAll wrappers s).site = s.site := by
  have hvalued := valuedAlike_wrapAll neutral
  have hshape : (wrapAll wrappers s).shape false = s.shape false := by
    rw [← shape_core, core_wrapAll, shape_core]
  cases wrappers with
  | nil => rfl
  | cons w rest =>
    have halike := (alike_core_wrapAll w rest s).trans hs.alike_core
    unfold site siteOf documentKeys
    rw [halike.refId, halike.metadata, hvalued.nullable, hvalued.default, hvalued.inputDefault, hshape]

end Schema

/-! ## Runs over definitions -/

namespace Definition

/-- The definitions of one rank. -/
def ofRank (rank : Nat) (definitions : List Definition) : List Definition :=
  definitions.filter fun d => d.rank == rank

theorem byRank_eq (definitions : List Definition) :
    byRank definitions = ofRank 0 definitions ++ (ofRank 1 definitions
      ++ [2, 3, 4, 5].flatMap fun rank => ofRank rank definitions) := by
  have hranks : List.range 6 = [0, 1, 2, 3, 4, 5] := by decide
  unfold byRank
  rw [hranks]
  rfl

theorem mem_ofRank {rank : Nat} {definitions : List Definition} {d : Definition} :
    d ∈ ofRank rank definitions ↔ d ∈ definitions ∧ d.rank = rank := by
  rw [ofRank, List.mem_filter, beq_iff_eq]

theorem ofRank_append (rank : Nat) (first second : List Definition) :
    ofRank rank (first ++ second) = ofRank rank first ++ ofRank rank second :=
  List.filter_append _ _

theorem ofRank_schema {rank : Nat} (s : Schema) :
    ofRank rank [.schema s] = if rank = 1 then [.schema s] else [] := by
  by_cases h : rank = 1
  · subst h
    rfl
  · have hne : ¬ (Definition.schema s).rank = rank := fun hrank => h hrank.symm
    rw [if_neg h, ofRank, List.filter_cons_of_neg (by simpa using hne), List.filter_nil]

/-- Moving a schema to the front moves it in front of the schemas before it, and nothing else. -/
theorem byRank_move (before after : List Definition) (s : Schema) :
    ∃ rest,
      byRank (before ++ .schema s :: after)
          = ofRank 0 (before ++ after) ++ (ofRank 1 before ++ .schema s :: rest)
        ∧ byRank (.schema s :: (before ++ after))
          = ofRank 0 (before ++ after) ++ .schema s :: (ofRank 1 before ++ rest) := by
  have hsplit (rank : Nat) : ofRank rank (before ++ .schema s :: after)
      = ofRank rank before ++ ((if rank = 1 then [.schema s] else []) ++ ofRank rank after) := by
    rw [← ofRank_schema, ← ofRank_append, ← ofRank_append, List.singleton_append]
  have hmoved (rank : Nat) : ofRank rank (.schema s :: (before ++ after))
      = (if rank = 1 then [.schema s] else []) ++ (ofRank rank before ++ ofRank rank after) := by
    rw [← ofRank_schema, ← ofRank_append, ← ofRank_append, List.singleton_append]
  refine ⟨ofRank 1 after ++ [2, 3, 4, 5].flatMap fun rank => ofRank rank (before ++ after), ?_, ?_⟩
  · rw [byRank_eq]
    simp [hsplit, ofRank_append]
  · rw [byRank_eq]
    simp [hmoved, ofRank_append]

/-- The definitions of rank zero are the plain schemas. -/
theorem mem_plains {definitions : List Definition} {d : Definition} :
    d ∈ ofRank 0 definitions ↔ ∃ p, d = .plain p ∧ .plain p ∈ definitions := by
  rw [mem_ofRank]
  constructor
  · rintro ⟨hd, hrank⟩
    cases d with
    | plain p => exact ⟨p, rfl, hd⟩
    | schema _ | parameter _ | component _ | route _ | webhook _ => cases hrank
  · rintro ⟨p, rfl, hp⟩
    exact ⟨hp, rfl⟩

/-- The definitions of rank one are the schemas. -/
theorem mem_schemas {definitions : List Definition} {d : Definition} :
    d ∈ ofRank 1 definitions ↔ ∃ s, d = .schema s ∧ .schema s ∈ definitions := by
  rw [mem_ofRank]
  constructor
  · rintro ⟨hd, hrank⟩
    cases d with
    | schema s => exact ⟨s, rfl, hd⟩
    | plain _ | parameter _ | component _ | route _ | webhook _ => cases hrank
  · rintro ⟨s, rfl, hs⟩
    exact ⟨hs, rfl⟩

/-- The sites of the schemas among definitions, in the order in which they are compiled. -/
def schemaSites (definitions : List Definition) : List Site :=
  definitions.filterMap fun
    | .schema s => some s.site
    | _ => none

end Definition

namespace Generation

variable {dialect : Dialect} {generation after : Generation}

/-- A run over the schemas among definitions compiles their sites in turn. -/
theorem turns_of_steps {definitions : List Definition}
    (hrun : generation.steps dialect (Definition.ofRank 1 definitions) = .ok after) :
    Site.Turns dialect (Definition.schemaSites definitions) generation.schemas after.schemas := by
  induction definitions generalizing generation with
  | nil =>
    cases hrun
    exact .nil _
  | cons d rest ih =>
    by_cases hrank : d.rank = 1
    · obtain ⟨s, rfl⟩ : ∃ s, d = .schema s := by
        cases d with
        | schema s => exact ⟨s, rfl⟩
        | plain _ | parameter _ | component _ | route _ | webhook _ => cases hrank
      have hsplit : Definition.ofRank 1 (.schema s :: rest)
          = .schema s :: Definition.ofRank 1 rest := rfl
      rw [hsplit] at hrun
      obtain ⟨next, hstep, hrest⟩ := steps_cons_eq_ok hrun
      cases hstep with
      | schema hact =>
        obtain ⟨answer, hanswer⟩ := Site.exists_compile_reference hact
        exact .cons hanswer (ih hrest)
    · have hsplit : Definition.ofRank 1 (d :: rest) = Definition.ofRank 1 rest :=
        List.filter_cons_of_neg (by simpa using hrank)
      have hsites : Definition.schemaSites (d :: rest) = Definition.schemaSites rest := by
        cases d with
        | schema s => exact absurd rfl hrank
        | plain _ | parameter _ | component _ | route _ | webhook _ => rfl
      rw [hsplit] at hrun
      rw [hsites]
      exact ih hrun

/-- A run that comes to an end comes to an end from all parameters that are alike. -/
theorem exists_steps_of_alike {generation' : Generation} {definitions : List Definition}
    (alike : Parameter.Alike generation.parameters generation'.parameters)
    (h : generation.steps dialect definitions = .ok after) :
    ∃ after', generation'.steps dialect definitions = .ok after'
      ∧ Parameter.Alike after.parameters after'.parameters := by
  have hmatches : Matches (generation.steps dialect definitions)
      (generation'.steps dialect definitions) := matches_steps alike definitions (Or.inl rfl)
  rw [h] at hmatches
  generalize generation'.steps dialect definitions = result at hmatches
  cases hmatches with
  | ok alike' => exact ⟨_, rfl, alike'⟩

/-- A schema that is stepped through behind other definitions may be stepped through in front of them, and
the run comes to an end as well. -/
theorem exists_steps_front {s : Schema} {earlier rest : List Definition} {mid last : Generation}
    (hearlier : generation.steps dialect earlier = .ok mid)
    (hrun : mid.steps dialect (.schema s :: rest) = .ok last) :
    ∃ answer own last',
      s.site.compile dialect .fragment generation.schemas = .ok (answer, own)
        ∧ generation.steps dialect (.schema s :: (earlier ++ rest)) = .ok last'
        ∧ own ≤ last'.schemas := by
  obtain ⟨next, hstep, hrest⟩ := steps_cons_eq_ok hrun
  cases hstep with
  | @schema _ answer schemas hact =>
    -- Whether the schema compiles does not depend on what is stored.
    obtain ⟨answer', own, hfront⟩ : ∃ answer' own,
        s.site.compile dialect .fragment generation.schemas = .ok (answer', own) := by
      refine Compile.exists_ok_of_problem? ?_
      rw [s.site.sameProblem .fragment .fragment generation.schemas mid.schemas]
      exact Compile.problem?_of_ok hact
    -- The other definitions are stepped through as before, from what the schema has stored.
    have alike : Parameter.Alike generation.parameters { generation with schemas := own }.parameters :=
      .refl generation.parameters
    obtain ⟨mid', hearlier', alike'⟩ := exists_steps_of_alike alike hearlier
    have alike'' : Parameter.Alike { mid with schemas := schemas }.parameters mid'.parameters :=
      alike'
    obtain ⟨last', hrest', _⟩ := exists_steps_of_alike alike'' hrest
    have hrun' := steps_append_eq_ok.mpr ⟨mid', hearlier', hrest'⟩
    refine ⟨answer', own, last', hfront, ?_, schemas_le_of_steps hrun'⟩
    rw [steps, step_of_stepsTo (.schema hfront)]
    exact hrun'

end Generation

/-- The fragment under a name among the schemas that definitions generate. -/
def generatedSchema? (version : Version) (definitions : List Definition) (name : String) :
    Option Json :=
  (generateData version definitions).toOption.bind (·.component? "schemas" name)

/-! ## Moving a schema to the front -/

namespace Schema

/-- What is found under the identifier of a schema where it was submitted, and what is moved to the front
with it. The plain schemas have stored `base`. Where the schema was submitted, the given sites are compiled
in turn behind them, and the schema is the last one; `left` is what is stored in the end. In front, the
schema is compiled right behind the plain ones, and leaves `own`. -/
structure Overtakes (dialect : Dialect) (s : Schema) (refId : String) (base own left : Store Fragment)
    (sites : List Site) (found moved : Fragment) : Prop where
  /-- In front, it is what the schema leaves there. -/
  front : own.get? refId = some moved
  /-- Plain schemas are not overtaken. -/
  plain : base.contains refId = true → found = moved
  /-- Where the schema was submitted, it is what the site becomes that is compiled with the identifier
  while this is free, and there is one such site. -/
  decided : base.get? refId = none → ∀ fragment,
    Site.Decided dialect sites base refId fragment ↔ fragment = found
  /-- It is the same if a site that is compiled as the schema is comes first to the identifier, and if it
  makes no difference below the schema that others have been compiled by then. -/
  undisputed : (∀ c ∈ s.site.children, ¬ c.Names refId) → ∀ u there,
    Site.Meets dialect u there sites base → there.get? refId = none → u.CompiledAs dialect s.site →
      Contest.Undisputed ⟨dialect, there, left⟩ s.site.parts base → found = moved

variable {dialect : Dialect} {before after : List Definition} {s : Schema} {sites : List Site}

theorem Overtakes.of_turns {refId : String} (hname : s.refId? = some refId)
    {base own schemas left : Store Fragment} {answer found moved : Fragment}
    (hfront : s.site.compile dialect .fragment base = .ok (answer, own))
    (hturns : Site.Turns dialect sites base schemas) (hleft : schemas ≤ left)
    (hfound : schemas.get? refId = some found) (hmoved : own.get? refId = some moved) :
    s.Overtakes dialect refId base own left sites found moved where
  front := hmoved
  plain := by
    intro hcontains
    obtain ⟨stored, hstored⟩ := Store.exists_get?_of_contains hcontains
    have hle : base ≤ own := s.site.grows_compile .fragment _ _ _ hfront
    cases (Store.get?_of_le hturns.le hstored).symm.trans hfound
    cases (Store.get?_of_le hle hstored).symm.trans hmoved
    rfl
  decided hfree fragment := hturns.decided_iff hfree hfound
  undisputed := by
    intro hbelow u there hmeets hfree compiledAs undisputed
    obtain ⟨again, mid, hthere, hle⟩ := hmeets.ends hturns
    have hname' : u.refId = some refId := compiledAs.refId.trans hname
    obtain ⟨stored, hstored⟩ := Store.exists_get?_of_contains (Site.contains_of_refId hthere hname')
    have hsame : mid.get? refId = own.get? refId :=
      Contest.get?_of_compiledAs undisputed hmeets.le hname hbelow hfree compiledAs hfront hthere
        (le_trans hle hleft)
    cases (Store.get?_of_le hle hstored).symm.trans hfound
    exact Option.some.inj (hstored.symm.trans (hsame.trans hmoved))

/-- Moving a schema to the front leaves a list that generates as well. What is found under its identifier
then is what the schema leaves there right behind the plain schemas; where the schema was submitted, the
one site that is compiled while the identifier is free decides what is found. Both are the same if that
site is compiled as the schema is, and if each answer that is written into the schema is the one beside what
is stored in the end, where its identifier is stored by then. A schema whose own node adds nothing to its
innermost one, as if it is no wrapper, is settled alike under any stack of calls that say nothing new. -/
theorem owns_component {version : Version} {refId : String} {output : Json}
    (hname : s.refId? = some refId)
    (h : generateData version (before ++ .schema s :: after) = .ok output) :
    (∃ base answer own last found moved,
      Generation.steps version.dialect {} (Definition.ofRank 0 (before ++ after)) = .ok base
        ∧ s.site.compile version.dialect .fragment base.schemas = .ok (answer, own)
        ∧ Generation.ofDefinitions version.dialect (before ++ .schema s :: after) = .ok last
        ∧ output.component? "schemas" refId = some (.object found)
        ∧ generatedSchema? version (.schema s :: (before ++ after)) refId = some (.object moved)
        ∧ s.Overtakes version.dialect refId base.schemas own last.schemas
          (Definition.schemaSites before ++ [s.site]) found moved)
      ∧ ∀ wrappers : List Wrapper, (∀ w ∈ wrappers, w.Neutral s) → s.AddsNothing →
        (wrapAll wrappers s).site = s.site := by
  refine ⟨?_, fun wrappers neutral hs => site_wrapAll neutral hs⟩
  obtain ⟨last, hof, rfl⟩ := generateData_eq_ok h
  obtain ⟨rest, horder, hfrontOrder⟩ := Definition.byRank_move before after s
  have hrun := hof
  rw [Generation.ofDefinitions, horder] at hrun
  obtain ⟨base, hbase, hrun⟩ := Generation.steps_append_eq_ok.mp hrun
  obtain ⟨mid, hearlier, hrun⟩ := Generation.steps_append_eq_ok.mp hrun
  obtain ⟨answer, own, last', hfront, hrun', hown⟩ := Generation.exists_steps_front hearlier hrun
  have hof' : Generation.ofDefinitions version.dialect (.schema s :: (before ++ after)) = .ok last' := by
    rw [Generation.ofDefinitions, hfrontOrder]
    exact Generation.steps_append_eq_ok.mpr ⟨base, hbase, hrun'⟩
  obtain ⟨next, hstep, hrest⟩ := Generation.steps_cons_eq_ok hrun
  cases hstep with
  | @schema _ _ schemas hact =>
    -- Under its identifier stands what it has left, in both runs and to their end.
    obtain ⟨found, hfound⟩ := Store.exists_get?_of_contains (Site.contains_of_refId hact hname)
    obtain ⟨moved, hmoved⟩ := Store.exists_get?_of_contains (Site.contains_of_refId hfront hname)
    have hunique : ({} : Generation).schemas.Unique := List.nodup_nil
    have hleft : schemas ≤ last.schemas := Generation.schemas_le_of_steps hrest
    obtain ⟨again, hagain⟩ := Site.exists_compile_reference hact
    have hturns : Site.Turns version.dialect (Definition.schemaSites before ++ [s.site]) base.schemas
        schemas := (Generation.turns_of_steps hearlier).append (.cons hagain (.nil _))
    refine ⟨base, answer, own, last, found, moved, hbase, hfront, hof, ?_, ?_,
      .of_turns hname hfront hturns hleft hfound hmoved⟩
    · exact Generation.component?_of_get? (Generation.unique_of_steps hunique hof)
        (Store.get?_of_le hleft hfound)
    · rw [generatedSchema?, generateData, hof']
      exact Generation.component?_of_get? (Generation.unique_of_steps hunique hof')
        (Store.get?_of_le hown hmoved)

/-- The name of a pet is submitted before the pet, with a description that the pet does not give; so is the
tag of its home, which may be null there; and so is an owner with an optional, read-only pet. The pet comes
across its name as it is, once more as nullable, and then across its home. It is found as it is, wherever
it is submitted. -/
theorem owns_component_used_before :
    let name := (ofKind (.string [])).named "Name"
    let described := name.describe "What it is called."
    let tag := (ofKind (.string [])).named "Tag"
    let home := (object [("tag", tag)]).named "Home"
    let pet := (object [("name", name), ("nick", name.nullable), ("home", home)]).named "Pet"
    let owner := (object [("pet", pet.readonly.optional)]).named "Owner"
    ∃ output fragment,
      generateData .v310 [.schema described, .schema tag.nullable, .schema owner, .schema pet]
          = .ok output
        ∧ output.component? "schemas" "Pet" = some fragment
        ∧ generatedSchema? .v310
            [.schema pet, .schema described, .schema tag.nullable, .schema owner] "Pet"
          = some fragment := by
  intro name described tag home pet owner
  obtain ⟨output, hgenerates⟩ : ∃ output, generateData .v310
      ([.schema described, .schema tag.nullable, .schema owner] ++ .schema pet :: []) = .ok output :=
    ⟨_, rfl⟩
  obtain ⟨⟨base, answer, own, last, found, moved, hbase, hfront, hlast, hfound, hmoved, overtakes⟩,
    hwrapped⟩ := owns_component rfl hgenerates
  obtain rfl : ({} : Generation) = base := Except.ok.inj hbase
  -- The owner comes across the pet, as it is settled by itself, when the name and the tag are stored.
  let stored : Fragment := [("type", .string "string"), ("description", .string "What it is called.")]
  let first : Store Fragment := ⟨[("Name", stored)]⟩
  let met : Store Fragment :=
    ⟨[("Name", stored), ("Tag", [("type", .array [.string "string", .string "null"])])]⟩
  have hname : described.site.compile .types .reference {} = .ok (Reference.toSchema "Name", first) := rfl
  have htag : tag.nullable.site.compile .types .reference first = .ok (Reference.toSchema "Tag", met) :=
    rfl
  have hmeets :
      pet.site.Meets .types met [described.site, tag.nullable.site, owner.site, pet.site] {} := by
    have hpet : (wrapAll [.optional, .readonly] pet).site = pet.site :=
      hwrapped _ (List.forall_mem_cons.mpr ⟨trivial, List.forall_mem_singleton.mpr rfl⟩)
        ⟨.inr rfl, .inl rfl⟩
    have howner : owner.site.children = [(wrapAll [.optional, .readonly] pet).site] := rfl
    refine .later hname (.later htag (.within ?_))
    rw [howner, hpet]
    exact .here []
  have happart {c : Site} {answer : Fragment} {stored : Store Fragment} {refId : String}
      (hc : c.compile .types .reference {} = .ok (answer, stored))
      (hfree : stored.contains refId = false) : ¬ c.Names refId := fun hn => by
    rw [Site.contains_of_names hc hn] at hfree
    cases hfree
  have hchildren : pet.site.children = [name.site, name.nullable.site, home.site] := rfl
  -- In front, the pet comes to its name, and to its name again when that is stored. The home is stored
  -- for the first time in either run.
  have hundisputed : Contest.Undisputed ⟨.types, met, last.schemas⟩ pet.site.parts {} := by
    have hstored : last.schemas.get? "Name" = some stored := by
      cases hlast
      rfl
    have hhome : ∀ c ∈ [tag.site], ¬ c.Names "Home" := List.forall_mem_singleton.mpr (happart rfl rfl)
    refine .cons (.read (.nil _) ?_) rfl (.cons (.read (.nil _) ?_) rfl
      (.cons (.fresh rfl hhome rfl rfl) rfl (.nil _)))
    all_goals
      intro other fragment hother _ hfragment answer after body mid hcompiled hbody
      cases hother
      cases hstored.symm.trans hfragment
      cases hcompiled
      cases hbody
      rfl
  have hbelow : ∀ c ∈ pet.site.children, ¬ c.Names "Pet" := by
    rw [hchildren]
    exact List.forall_mem_cons.mpr ⟨happart rfl rfl, List.forall_mem_cons.mpr
      ⟨happart rfl rfl, List.forall_mem_singleton.mpr (happart rfl rfl)⟩⟩
  obtain rfl : found = moved :=
    overtakes.undisputed hbelow _ met hmeets rfl (.refl _ _) hundisputed
  exact ⟨output, .object found, hgenerates, hfound, hmoved⟩

/-- What is found under a name changes when a schema is moved in front of the definitions before
it. -/
def Displaced (version : Version) (before : List Definition) (s : Schema) (name : String) : Prop :=
  ∃ found moved, generatedSchema? version (before ++ [.schema s]) name = some found
    ∧ generatedSchema? version (.schema s :: before) name = some moved ∧ found.same moved = false

instance (version : Version) (before : List Definition) (s : Schema) (name : String) :
    Decidable (Displaced version before s name) :=
  match hfound : generatedSchema? version (before ++ [.schema s]) name,
    hmoved : generatedSchema? version (.schema s :: before) name with
  | some found, some moved =>
    decidable_of_iff (found.same moved = false) (by simp [Displaced, hfound, hmoved])
  | none, _ => .isFalse (by simp [Displaced, hfound])
  | some _, none => .isFalse (by simp [Displaced, hmoved])

/-- A schema is displaced where an earlier one uses it and accepts null, gives a default or describes it,
though nothing else has its identifier; and where it has a default itself and is used as read-only. It is
displaced as well where all that is at stake is the identifier of a schema below it: one that an earlier
schema uses and accepts null, one that does not hold on to its own fragment, one that is found again
within another one with its identifier, or one that a pipeline compiles in place. -/
theorem displaced_by_earlier_use :
    let text := ofKind (.string [])
    let used (s : Schema) : List Definition := [.schema ((object [("p", s)]).named "Y")]
    let x := text.named "X"
    let standing := x.withDefault (.string "a")
    let t := text.named "T"
    let numbered := (text.nullable.annotate { fields := [("type", .string "integer")] }).named "T"
    let around := (object [("t", t)]).named "T"
    Displaced .v310 (used x.nullable) x "X"
      ∧ Displaced .v310 (used standing) x "X"
      ∧ Displaced .v310 (used (x.describe "again")) x "X"
      ∧ Displaced .v310 (used standing.readonly) standing "X"
      ∧ Displaced .v310 (used t.nullable) ((object [("q", t)]).named "X") "X"
      ∧ Displaced .v310 [.schema numbered] ((object [("q", numbered)]).named "X") "X"
      ∧ Displaced .v310 [.schema t] ((object [("q", around)]).named "X") "X"
      ∧ Displaced .v310 [.schema t] ((t.refine.pipe (ofKind .any)).named "X") "X" := by
  decide +kernel

end Schema

end OpenApi
