/-
# OpenApi.Proofs.Survey -- what a compilation comes to, foreseen

A *survey* goes through the sites below a site in the order in which they are compiled, and compiles
none of them. It reads neither the store nor the dialect, and says what compiling the site comes to:
the identifiers that are come across, or the first problem.

At every site a compilation branches: on whether the identifier is stored, and beside a stored
fragment on whether the document keys have a type of their own. The answers differ, but the same sites
are compiled in each branch (`Site.exists_body_before`). So a compilation follows the survey of its
site whatever is stored (`Site.follows_compile`), and where all that it comes across is stored it
leaves the store as it is (`Site.unchanged_of_names`).
-/
import OpenApi.Proofs.Problems
import OpenApi.Proofs.Visits

namespace OpenApi

/-! ## Surveys -/

/-- The identifiers that are come across, in order, or the problem that stands in the way. -/
abbrev Survey := Except Problem (List String)

namespace Survey

/-- One survey and then another, unless the first ends with a problem. -/
def andThen (first second : Survey) : Survey := first.bind fun names => second.map (names ++ ·)

/-- Surveys one after another. -/
def inTurn (surveys : List Survey) : Survey := surveys.foldr andThen (.ok [])

/-- The survey of a step that comes across nothing, but may end with a problem. -/
def ofProblem? : Option Problem → Survey
  | some problem => .error problem
  | none => .ok []

@[simp]
theorem nil_andThen (survey : Survey) : andThen (.ok []) survey = survey := by
  cases survey <;> rfl

@[simp]
theorem andThen_nil (survey : Survey) : andThen survey (.ok []) = survey := by
  cases survey with
  | error problem => rfl
  | ok names => simp [andThen, Except.bind, Except.map]

theorem andThen_assoc (first second third : Survey) :
    andThen (andThen first second) third = andThen first (andThen second third) := by
  cases first with
  | error problem => rfl
  | ok names =>
    cases second with
    | error problem => rfl
    | ok names' => cases third <;> simp [andThen, Except.bind, Except.map]

@[simp]
theorem inTurn_nil : inTurn [] = .ok [] := rfl

@[simp]
theorem inTurn_cons (first : Survey) (rest : List Survey) :
    inTurn (first :: rest) = andThen first (inTurn rest) := rfl

theorem inTurn_append (first second : List Survey) :
    inTurn (first ++ second) = andThen (inTurn first) (inTurn second) := by
  induction first with
  | nil => simp
  | cons survey rest ih => rw [List.cons_append, inTurn_cons, ih, inTurn_cons, andThen_assoc]

end Survey

namespace Site

/-- The problem that a site ends with once the sites below it are compiled. A document key `type`
keeps the shape from raising any. -/
def raised? (t : Site) : Option Problem :=
  if t.override?.isSome then none else t.shape.raised? t.nullable

/-- What compiling a site comes to: its children are compiled in turn, then its own problem is
raised, and else its identifier is stored. -/
def survey (t : Site) : Survey :=
  let children := Survey.inTurn (t.children.attach.map fun c => survey c.1)
  (children.andThen (.ofProblem? t.raised?)).andThen (.ok t.refId.toList)
termination_by sizeOf t
decreasing_by exact sizeOf_lt c.2

/-- The survey of what stands for the shape of a site. -/
def bodySurvey (t : Site) : Survey :=
  (Survey.inTurn (t.children.map survey)).andThen (.ofProblem? t.raised?)

theorem survey_eq (t : Site) : t.survey = t.bodySurvey.andThen (.ok t.refId.toList) := by
  rw [survey, bodySurvey, List.map_attach_eq_pmap, List.pmap_eq_map]

theorem bodySurvey_of_override {t : Site} {type : Json} (h : t.override? = some type) :
    t.bodySurvey = .ok [] := by
  simp [bodySurvey, children, raised?, h, Survey.ofProblem?]

theorem bodySurvey_of_shape {t : Site} (h : t.override? = none) :
    t.bodySurvey = (Survey.inTurn (t.shape.children.map survey)).andThen
      (.ofProblem? (t.shape.raised? t.nullable)) := by
  simp [bodySurvey, children, raised?, h]

end Site

/-! ## Following a survey -/

namespace Compile

variable {α β : Type} {c : Compile α} {k : α → Compile β} {first second : Survey}

/-- Whatever is stored, a computation ends with the problem that was foreseen, or comes to an end and
stores the names that were foreseen, besides those that are there. -/
def Follows (c : Compile α) (survey : Survey) : Prop :=
  c.Yields (survey.map fun names => {name | name ∈ names})

theorem Follows.pure (a : α) : (Pure.pure a : Compile α).Follows (.ok []) := by
  have hnone : ({name | name ∈ []} : Set String) = ∅ := by simp
  show Yields _ (.ok {name | name ∈ []})
  rw [hnone]
  exact .pure a

theorem Follows.fail (problem : Problem) :
    (Compile.fail problem : Compile α).Follows (.error problem) := fun _ => rfl

theorem Follows.bind (hc : c.Follows first) (hk : ∀ a, (k a).Follows second) :
    (c >>= k).Follows (first.andThen second) := by
  cases first with
  | error problem => exact Yields.bind_error hc
  | ok names =>
    have hboth : (c >>= k).Yields _ := Yields.bind_ok hc hk
    cases second with
    | error problem => exact hboth
    | ok names' =>
      have hnames : ({name | name ∈ names} ∪ {name | name ∈ names'} : Set String)
          = {name | name ∈ names ++ names'} := by
        ext name
        simp
      show Yields _ (.ok {name | name ∈ names ++ names'})
      rw [← hnames]
      exact hboth

end Compile

/-- A computation that compiles parts in turn follows the surveys of their sites. -/
theorem Compile.InTurn.follows {dialect : Dialect} {α : Type} {parts : List Part}
    {problem? : Option Problem} {act : Compile α} (h : InTurn dialect parts problem? act)
    (children : ∀ c ∈ parts.map Part.site, ∀ reply, (c.compile dialect reply).Follows c.survey) :
    act.Follows
      ((Survey.inTurn ((parts.map Part.site).map Site.survey)).andThen (.ofProblem? problem?)) := by
  have single (t : Site) : (Survey.inTurn ([t].map Site.survey)).andThen (.ok []) = t.survey := by
    show (t.survey.andThen (.ok [])).andThen (.ok []) = t.survey
    rw [Survey.andThen_nil, Survey.andThen_nil]
  induction h with
  | pure a => exact .pure a
  | fail problem => exact .fail problem
  | answered t reply =>
    have ht := children t List.mem_cons_self reply
    rw [← single t] at ht
    exact ht
  | dropped t reply =>
    have ht := (children t List.mem_cons_self reply).bind fun _ => .pure ()
    rw [Survey.andThen_nil, ← single t] at ht
    exact ht
  | bind _ _ ihfirst ihsecond =>
    rw [List.map_append] at children
    have hfirst := ihfirst fun c hc => children c (List.mem_append_left _ hc)
    rw [Survey.ofProblem?, Survey.andThen_nil] at hfirst
    rw [List.map_append, List.map_append, Survey.inTurn_append, Survey.andThen_assoc]
    exact hfirst.bind fun a => ihsecond a fun c hc => children c (List.mem_append_right _ hc)

/-- A shape is compiled by compiling its children in turn, and raises its own problem after that. -/
theorem Shape.follows_compile {dialect : Dialect} (shape : Shape) (nullable : Bool)
    (default : Option Json)
    (h : ∀ c ∈ shape.children, ∀ reply, (c.compile dialect reply).Follows c.survey) :
    (shape.compile dialect nullable default).Follows
      ((Survey.inTurn (shape.children.map Site.survey)).andThen
        (.ofProblem? (shape.raised? nullable))) := by
  rw [← shape.sites_parts] at h ⊢
  exact (shape.inTurn_compile nullable default).follows h

namespace Site

variable {dialect : Dialect} {t : Site} {reply : Reply} {store after : Store Fragment}
  {answer : Fragment}

theorem follows_body (beside : Bool)
    (h : ∀ c ∈ t.children, ∀ reply, (c.compile dialect reply).Follows c.survey) :
    (t.body dialect beside).Follows t.bodySurvey := by
  cases hover : t.override? with
  | some type =>
    rw [body_of_override beside hover, bodySurvey_of_override hover]
    exact .pure _
  | none =>
    rw [body_of_shape beside hover, bodySurvey_of_shape hover]
    rw [children_eq hover] at h
    exact t.shape.follows_compile t.nullable t.default h

/-- Whatever is stored under its identifier, a site is compiled by compiling what stands for its shape
and storing the identifier, unless it is there. -/
theorem exists_body_before (h : t.compile dialect reply store = .ok (answer, after)) :
    ∃ beside body mid, t.body dialect beside store = .ok (body, mid)
      ∧ ∀ name, after.contains name = true ↔ mid.contains name = true ∨ t.refId = some name := by
  -- In all branches but the last nothing is left to store.
  have settled (name : String) :
      after.contains name = true ↔ after.contains name = true ∨ t.refId = some name :=
    ⟨Or.inl, fun hname => hname.elim id (contains_of_refId h)⟩
  cases compile_eq_ok_iff.mp h with
  | retyped _ _ hsaid =>
    -- Nothing was compiled, and the type among the keys would have kept the shape from it.
    obtain ⟨body, hbody⟩ := exists_body_of_said hsaid
    exact ⟨true, body, store, hbody, settled⟩
  | reused _ _ _ hend => exact ⟨true, _, _, hend, settled⟩
  | unnamed _ hend => exact ⟨false, _, _, hend, settled⟩
  | taken _ _ hend _ => exact ⟨false, _, _, hend, settled⟩
  | stored hname _ hmid _ =>
    refine ⟨false, _, _, hmid, fun name => ?_⟩
    rw [Store.contains_define_iff, hname, Option.some_inj, @eq_comm _ name]

/-- Compiling a site follows its survey, whatever is stored. -/
theorem follows_compile (t : Site) (dialect : Dialect) (reply : Reply) :
    (t.compile dialect reply).Follows t.survey := by
  induction t using Site.induction generalizing reply with
  | step t ih =>
    have hbody (beside : Bool) : (t.body dialect beside).Follows t.bodySurvey :=
      follows_body beside ih
    rw [survey_eq]
    cases hsurvey : t.bodySurvey with
    | error problem =>
      rw [hsurvey] at hbody
      intro store
      rw [← Compile.problem?_eq_some_iff, problem?_compile, Compile.problem?_eq_some_iff]
      exact hbody _ store
    | ok names =>
      rw [hsurvey] at hbody
      intro store
      obtain ⟨answer, after, h⟩ : ∃ answer after,
          t.compile dialect reply store = .ok (answer, after) := by
        obtain ⟨body, mid, hmid, _⟩ := hbody (t.refId.bind store.get?).isSome store
        refine Compile.exists_ok_of_problem? ?_
        rw [problem?_compile]
        exact Compile.problem?_of_ok hmid
      refine ⟨answer, after, h, fun name => ?_⟩
      -- Which branch was taken makes no difference: its body has the same survey.
      obtain ⟨beside, body, mid, hmid, hafter⟩ := exists_body_before h
      rw [hafter, (hbody beside).contains_iff hmid]
      simp [or_assoc]

/-- Where all that a site comes across is stored, compiling the site stores nothing. -/
theorem unchanged_of_names (h : t.compile dialect reply store = .ok (answer, after))
    (stored : ∀ name, t.Names name → store.contains name = true) : after = store := by
  refine moves_compile
    (R := fun before after => (∀ name, t.Names name → before.contains name = true) → after = before)
    (fun _ _ => rfl) ?_ t reply ?_ store answer after h stored
  · intro first second third hsecond hthird hfirst
    have hsame : second = first := hsecond hfirst
    rw [hsame] at hthird
    exact hthird hfirst
  · intro name hname before value hbefore
    rw [Store.define_of_contains value (hbefore name hname)]

end Site

/-! ## Schemas -/

/-- What compiling a schema comes to is what its survey foresees, in either dialect and whatever is
stored, whether the fragment is asked for or a reference. Either it ends with the problem that was
foreseen, or it comes to an end: what was stored stays as it was, and the names stored besides are
those that were foreseen. From then on compiling the schema stores nothing. -/
theorem Schema.compiles_as_surveyed (s : Schema) :
    match s.site.survey with
    | .error problem => ∀ dialect reply store, s.site.compile dialect reply store = .error problem
    | .ok names => ∀ dialect reply store, ∃ answer after,
        s.site.compile dialect reply store = .ok (answer, after)
          ∧ (∀ name, after.contains name = true ↔ store.contains name = true ∨ name ∈ names)
          ∧ (∀ name fragment, store.get? name = some fragment → after.get? name = some fragment)
          ∧ ∀ dialect' reply' later, after ≤ later →
              ∃ again, s.site.compile dialect' reply' later = .ok (again, later) := by
  have hfollows (dialect : Dialect) (reply : Reply) :
      (s.site.compile dialect reply).Follows s.site.survey := s.site.follows_compile dialect reply
  cases hsurvey : s.site.survey with
  | error problem =>
    rw [hsurvey] at hfollows
    exact hfollows
  | ok names =>
    rw [hsurvey] at hfollows
    intro dialect reply store
    obtain ⟨answer, after, h, hnames⟩ := hfollows dialect reply store
    refine ⟨answer, after, h, hnames, fun name fragment => ?_, fun dialect' reply' later hle => ?_⟩
    · exact Store.get?_of_le (s.site.grows_compile reply store answer after h)
    · obtain ⟨again, end', hagain, _⟩ := hfollows dialect' reply' later
      have hend : end' = later := Site.unchanged_of_names hagain fun name hname =>
        Store.contains_of_le hle (Site.contains_of_names h hname)
      rw [hend] at hagain
      exact ⟨again, hagain⟩

/-- Alternatives that do not tell themselves apart are refused, unless null is among them: then the
discriminator is not asked for, and all that is come across on the way is stored, the extended object
among it. -/
theorem Schema.null_forgoes_discriminator :
    let pet := (object [("name", (ofKind (.string [])).named "Name")]).named "Pet"
    let cat := (pet.extend [("lives", (ofKind (.number [])).named "Lives")]).named "Cat"
    let animal := ofKind (.discriminatedUnion "kind" [cat, pet])
    (∀ dialect reply store, animal.site.compile dialect reply store
        = .error (.unsupported (.discriminatorMissing "kind")))
      ∧ ∀ dialect reply store, ∃ answer after,
        animal.nullable.site.compile dialect reply store = .ok (answer, after)
          ∧ ∀ name, after.contains name = true
            ↔ store.contains name = true ∨ name ∈ ["Name", "Lives", "Pet", "Cat"] := by
  intro pet cat animal
  constructor
  · have hsurvey : animal.site.survey
        = .error (.unsupported (.discriminatorMissing "kind")) := by decide +kernel
    have h := animal.compiles_as_surveyed
    rw [hsurvey] at h
    exact h
  · have hsurvey : animal.nullable.site.survey
        = .ok ["Name", "Lives", "Name", "Pet", "Name", "Cat", "Name", "Pet"] := by decide +kernel
    have h := animal.nullable.compiles_as_surveyed
    rw [hsurvey] at h
    intro dialect reply store
    obtain ⟨answer, after, hrun, hnames, _⟩ := h dialect reply store
    refine ⟨answer, after, hrun, fun name => ?_⟩
    rw [hnames]
    simp only [List.mem_cons, List.not_mem_nil, or_false]
    tauto

end OpenApi
