/-
# OpenApi.Proofs.SiteTree -- sites as trees, and compiling them branch by branch

The sites that compiling a site visits are its *children* and theirs: the sites of its shape,
unless a document key `type` stands in for the shape. `Site.Reaches` closes this under itself.

Compiling a site is one of two things, and which one depends on the store only through the
site's own identifier (`Site.compile_of_stored`, `Site.compile_of_fresh`); `Site.CompilesTo` says
what it comes to, case by case. Compiling a shape is a sequence of compilations of its children,
so every relation between compilations that passes to sequences passes from the children to the
shape (`Shape.compile_of_children`).
-/
import OpenApi.Proofs.Computation

namespace OpenApi

/-! ## The parts of a site -/

namespace Site

/-- The identifier. -/
def refId : Site → Option String
  | mk refId _ _ _ _ => refId

/-- The document keys. -/
def keys : Site → Fragment
  | mk _ keys _ _ _ => keys

/-- Whether null is accepted. -/
def nullable : Site → Bool
  | mk _ _ nullable _ _ => nullable

/-- The default value. -/
def default : Site → Option Json
  | mk _ _ _ default _ => default

/-- The shape. -/
def shape : Site → Shape
  | mk _ _ _ _ shape => shape

/-- The document key that stands in for the shape. -/
def override? (t : Site) : Option Json := Entries.get? t.keys "type"

end Site

/-! ## Children -/

/-- The site for other keys, if there is one. -/
def Additional.sites {σ : Type} : Additional σ → List σ
  | .schema site => [site]
  | _ => []

/-- The sites of members in the order in which they are compiled. -/
def Members.sites (members : Members Site) : List Site :=
  members.properties.map (·.2) ++ members.additional.sites

/-- The sites of a shape in the order in which they are compiled. -/
def Shape.children : Shape → List Site
  | .object members => members.sites
  | .extension members _ parent base _ => members.sites ++ parent :: base.map (·.2)
  | .array element _ _ => [element]
  | .tuple items => items
  | .anyOf options => options
  | .oneOf options _ => options
  | .allOf parts => parts
  | .dictionary value => [value]
  | .inline site => [site]
  | _ => []

/-- The sites that compiling a site goes on to. -/
def Site.children (t : Site) : List Site :=
  if t.override?.isSome then [] else t.shape.children

theorem Site.children_eq {t : Site} (h : t.override? = none) : t.children = t.shape.children := by
  rw [children, h]
  rfl

theorem Site.mem_children {t c : Site} (h : c ∈ t.children) :
    t.override? = none ∧ c ∈ t.shape.children := by
  unfold children at h
  split at h
  · cases h
  · rename_i hn
    exact ⟨by simpa using hn, h⟩

/-- A site is visited when another one is compiled. -/
inductive Site.Reaches : Site → Site → Prop
  | refl (t : Site) : Reaches t t
  | step {t c u : Site} : c ∈ t.children → Reaches c u → Reaches t u

theorem Site.Reaches.trans {t u v : Site} (h : t.Reaches u) (h' : u.Reaches v) : t.Reaches v := by
  induction h with
  | refl _ => exact h'
  | step hc _ ih => exact .step hc (ih h')

theorem Site.Reaches.child {t c : Site} (h : c ∈ t.children) : t.Reaches c := .step h (.refl c)

/-- An identifier that compiling a site comes across. -/
def Site.Names (t : Site) (name : String) : Prop := ∃ u, t.Reaches u ∧ u.refId = some name

theorem Site.Names.of_child {t c : Site} (h : c ∈ t.children) {name : String}
    (hn : c.Names name) : t.Names name := by
  obtain ⟨u, hu, hname⟩ := hn
  exact ⟨u, .step h hu, hname⟩

/-! ## Induction -/

theorem sizeOf_snd_lt {entries : List (String × Site)} {c : Site} (h : c ∈ entries.map (·.2)) :
    sizeOf c < sizeOf entries := by
  obtain ⟨⟨key, site⟩, hmem, rfl⟩ := List.mem_map.mp h
  have hlt := List.sizeOf_lt_of_mem hmem
  rw [Prod.mk.sizeOf_spec] at hlt
  show sizeOf site < _
  omega

theorem Members.sizeOf_lt {members : Members Site} {c : Site} (h : c ∈ members.sites) :
    sizeOf c < sizeOf members := by
  obtain ⟨properties, required, additional⟩ := members
  rw [Members.mk.sizeOf_spec]
  rcases List.mem_append.mp h with h | h
  · have hlt : sizeOf c < sizeOf properties := sizeOf_snd_lt h
    omega
  · cases additional with
    | schema site =>
      rw [List.mem_singleton.mp h, Additional.schema.sizeOf_spec]
      omega
    | unspecified => cases h
    | forbidden => cases h

theorem Shape.sizeOf_lt {shape : Shape} {c : Site} (h : c ∈ shape.children) :
    sizeOf c < sizeOf shape := by
  cases shape with
  | object members =>
    have hlt := Members.sizeOf_lt h
    rw [object.sizeOf_spec]
    omega
  | extension members refId parent base baseRequired =>
    rw [extension.sizeOf_spec]
    rcases List.mem_append.mp h with h | h
    · have hlt := Members.sizeOf_lt h
      omega
    · rcases List.mem_cons.mp h with rfl | h
      · omega
      · have hlt := sizeOf_snd_lt h
        omega
  | array element least most =>
    rw [List.mem_singleton.mp h, array.sizeOf_spec]
    omega
  | tuple items =>
    have hlt : sizeOf c < sizeOf items := List.sizeOf_lt_of_mem h
    rw [tuple.sizeOf_spec]
    omega
  | anyOf options =>
    have hlt : sizeOf c < sizeOf options := List.sizeOf_lt_of_mem h
    rw [anyOf.sizeOf_spec]
    omega
  | oneOf options discriminator =>
    have hlt : sizeOf c < sizeOf options := List.sizeOf_lt_of_mem h
    rw [oneOf.sizeOf_spec]
    omega
  | allOf parts =>
    have hlt : sizeOf c < sizeOf parts := List.sizeOf_lt_of_mem h
    rw [allOf.sizeOf_spec]
    omega
  | dictionary value =>
    rw [List.mem_singleton.mp h, dictionary.sizeOf_spec]
    omega
  | inline site =>
    rw [List.mem_singleton.mp h, inline.sizeOf_spec]
    omega
  | null => cases h
  | anything => cases h
  | scalar type checks keys => cases h
  | invalid problem => cases h

theorem Site.sizeOf_lt {t c : Site} (h : c ∈ t.children) : sizeOf c < sizeOf t := by
  have hlt := Shape.sizeOf_lt (mem_children h).2
  obtain ⟨refId, keys, nullable, default, shape⟩ := t
  rw [mk.sizeOf_spec]
  simp only [Site.shape] at hlt
  omega

/-- What passes from the children of a site to the site holds of every site. -/
theorem Site.induction {P : Site → Prop} (step : ∀ t, (∀ c ∈ t.children, P c) → P t) (t : Site) :
    P t :=
  step t fun c hc =>
    have := sizeOf_lt hc
    Site.induction step c
termination_by sizeOf t

/-! ## The two ways of compiling a site -/

namespace Site

variable {dialect : Dialect} {reply : Reply} {t : Site} {store : Store Fragment}

/-- What stands for the shape: the shape compiled, or the type that overrides it. Beside a
stored fragment an overriding type is marked nullable, in a fragment of its own it is not. -/
def body (dialect : Dialect) (beside : Bool) (t : Site) : Compile Fragment :=
  match t.override? with
  | some type =>
    pure (if beside then dialect.typeKeys (some type) t.nullable else [("type", type)])
  | none => t.shape.compile dialect t.nullable t.default

/-- What the document keys say that a stored fragment does not. -/
def said (t : Site) (stored : Fragment) : Fragment := Fragment.without t.keys stored

/-- The answer beside a stored fragment, given what stands for the shape. -/
def beside (t : Site) (name : String) (stored body : Fragment) : Fragment :=
  Fragment.referenceWith name
    (Fragment.nonNull (Entries.extend (Fragment.without body stored) (t.said stored)))

theorem body_of_override (beside : Bool) {type : Json} (h : t.override? = some type) :
    t.body dialect beside
      = pure (if beside then dialect.typeKeys (some type) t.nullable else [("type", type)]) := by
  rw [body, h]

theorem body_of_shape (beside : Bool) (h : t.override? = none) :
    t.body dialect beside = t.shape.compile dialect t.nullable t.default := by
  rw [body, h]

theorem compile_of_fresh (h : t.refId.bind store.get? = none) :
    t.compile dialect reply store
      = (t.body dialect false >>= fun body =>
          define reply t.refId (Fragment.overlay body t.keys)) store := by
  obtain ⟨r, keys, nullable, default, shape⟩ := t
  simp only [refId] at h
  have hlookup : Compile.stored? r store = .ok (none, store) := by
    cases r with
    | none => rfl
    | some name =>
      rw [Option.bind_some] at h
      simp [Compile.stored?, h]
  rw [compile]
  simp only [bind, StateT.bind, hlookup, Except.bind]
  simp only [body, override?, Site.keys, refId, Site.shape]
  cases Entries.get? keys "type" <;> rfl

theorem compile_of_stored {name : String} {stored : Fragment} (hname : t.refId = some name)
    (h : store.get? name = some stored) :
    t.compile dialect reply store
      = if Entries.contains (t.said stored) "type" then
          .ok (Fragment.referenceAnd name (t.said stored), store)
        else
          (t.body dialect true >>= fun body => pure (t.beside name stored body)) store := by
  obtain ⟨r, keys, nullable, default, shape⟩ := t
  simp only [refId] at hname
  subst hname
  have hlookup : Compile.stored? (some name) store = .ok (some (name, stored), store) := by
    simp [Compile.stored?, h]
  rw [compile]
  simp only [bind, StateT.bind, hlookup, Except.bind]
  simp only [body, said, beside, override?, Site.keys, Site.shape]
  split
  · rfl
  · cases Entries.get? keys "type" <;> rfl

/-- Only a type among the keys of a site can be a type of its own. -/
theorem override?_of_said {stored : Fragment} (h : Entries.contains (t.said stored) "type" = true) :
    ∃ type, t.override? = some type := by
  obtain ⟨value, hvalue⟩ := Option.isSome_iff_exists.mp h
  have hmem : ("type", value) ∈ t.keys := List.mem_of_mem_filter (Entries.mem_of_get? hvalue)
  exact Option.isSome_iff_exists.mp (Entries.contains_of_mem hmem)

/-- Beside a stored fragment, a type of its own stands for the shape of a site, and nothing is stored. -/
theorem exists_body_of_said {stored : Fragment}
    (h : Entries.contains (t.said stored) "type" = true) :
    ∃ body, t.body dialect true store = .ok (body, store) := by
  obtain ⟨type, htype⟩ := override?_of_said h
  rw [body_of_override true htype]
  exact ⟨_, rfl⟩

theorem define_none (result : Fragment) : define reply none result store = .ok (result, store) :=
  rfl

theorem define_of_get?_none {name : String} (result : Fragment) (h : store.get? name = none) :
    define reply (some name) result store
      = .ok (if reply = .reference then Reference.toSchema name else result,
          (store.define name result).2) := by
  have hdefine := Store.define_of_get?_none result h
  cases reply <;> simp [define, hdefine]

theorem define_of_get?_some {name : String} {old : Fragment} (result : Fragment)
    (h : store.get? name = some old) :
    define reply (some name) result store = .ok (result, store) := by
  have hdefine := Store.define_of_get?_some result h
  simp [define, hdefine]

theorem define_run (refId : Option String) (result : Fragment) (reply : Reply)
    (store : Store Fragment) :
    ∃ answer, define reply refId result store
      = .ok (answer, match refId with
          | some name => (store.define name result).2
          | none => store) := by
  cases refId with
  | none => exact ⟨result, rfl⟩
  | some name =>
    cases h : store.get? name with
    | none => exact ⟨_, define_of_get?_none result h⟩
    | some old =>
      refine ⟨result, ?_⟩
      rw [define_of_get?_some result h]
      show Except.ok (result, store) = .ok (result, (store.define name result).2)
      rw [Store.define_of_get?_some result h]

/-- What compiling a site comes to: an answer, and the store that it leaves. -/
inductive CompilesTo (dialect : Dialect) (reply : Reply) (t : Site) (store : Store Fragment) :
    Fragment → Store Fragment → Prop
  /-- The identifier is stored and the keys have a type of their own, so nothing is compiled. -/
  | retyped {name : String} {stored : Fragment} :
      t.refId = some name → store.get? name = some stored →
      Entries.contains (t.said stored) "type" = true →
      CompilesTo dialect reply t store (Fragment.referenceAnd name (t.said stored)) store
  /-- The identifier is stored, and the site is compiled beside the stored fragment. -/
  | reused {name : String} {stored body : Fragment} {after : Store Fragment} :
      t.refId = some name → store.get? name = some stored →
      ¬ Entries.contains (t.said stored) "type" = true →
      t.body dialect true store = .ok (body, after) →
      CompilesTo dialect reply t store (t.beside name stored body) after
  | unnamed {body : Fragment} {after : Store Fragment} :
      t.refId = none → t.body dialect false store = .ok (body, after) →
      CompilesTo dialect reply t store (Fragment.overlay body t.keys) after
  /-- The identifier was free, and a site below has taken it. -/
  | taken {name : String} {body old : Fragment} {after : Store Fragment} :
      t.refId = some name → store.get? name = none →
      t.body dialect false store = .ok (body, after) → after.get? name = some old →
      CompilesTo dialect reply t store (Fragment.overlay body t.keys) after
  /-- The identifier is free, and the site stores its own fragment. -/
  | stored {name : String} {body : Fragment} {mid : Store Fragment} :
      t.refId = some name → store.get? name = none →
      t.body dialect false store = .ok (body, mid) → mid.get? name = none →
      CompilesTo dialect reply t store
        (if reply = .reference then Reference.toSchema name else Fragment.overlay body t.keys)
        (mid.define name (Fragment.overlay body t.keys)).2

theorem compile_eq_ok_iff {answer : Fragment} {after : Store Fragment} :
    t.compile dialect reply store = .ok (answer, after)
      ↔ t.CompilesTo dialect reply store answer after := by
  constructor
  · intro h
    cases hs : t.refId.bind store.get? with
    | some stored =>
      obtain ⟨name, hname, hget⟩ := Option.bind_eq_some_iff.mp hs
      rw [compile_of_stored hname hget] at h
      split at h
      · rename_i hsaid
        cases h
        exact .retyped hname hget hsaid
      · rename_i hsaid
        obtain ⟨body, mid, hbody, hpure⟩ := Compile.of_bind_ok h
        obtain ⟨rfl, rfl⟩ := Compile.of_pure_ok hpure
        exact .reused hname hget hsaid hbody
    | none =>
      rw [compile_of_fresh hs] at h
      obtain ⟨body, mid, hbody, hdefine⟩ := Compile.of_bind_ok h
      cases hname : t.refId with
      | none =>
        rw [hname] at hdefine
        cases hdefine
        exact .unnamed hname hbody
      | some name =>
        rw [hname] at hdefine hs
        cases hget : mid.get? name with
        | some old =>
          rw [define_of_get?_some _ hget] at hdefine
          cases hdefine
          exact .taken hname hs hbody hget
        | none =>
          rw [define_of_get?_none _ hget] at hdefine
          cases hdefine
          exact .stored hname hs hbody hget
  · intro h
    cases h with
    | retyped hname hget hsaid => rw [compile_of_stored hname hget, if_pos hsaid]
    | reused hname hget hsaid hbody =>
      rw [compile_of_stored hname hget, if_neg hsaid, Compile.bind_apply_ok hbody]
      rfl
    | unnamed hname hbody =>
      rw [compile_of_fresh (by rw [hname]; rfl), Compile.bind_apply_ok hbody, hname]
      rfl
    | taken hname hfree hbody hget =>
      rw [compile_of_fresh (by rw [hname]; exact hfree), Compile.bind_apply_ok hbody, hname,
        define_of_get?_some _ hget]
    | stored hname hfree hbody hget =>
      rw [compile_of_fresh (by rw [hname]; exact hfree), Compile.bind_apply_ok hbody, hname,
        define_of_get?_none _ hget]

/-- A site whose identifier is free is compiled by storing what stands for its shape, under its keys. -/
theorem exists_body_of_free {after : Store Fragment} {name : String} {answer : Fragment}
    (hname : t.refId = some name) (hfree : store.get? name = none)
    (h : t.compile dialect reply store = .ok (answer, after)) :
    ∃ body mid, t.body dialect false store = .ok (body, mid)
      ∧ define reply (some name) (Fragment.overlay body t.keys) mid = .ok (answer, after)
      ∧ after = (mid.define name (Fragment.overlay body t.keys)).2 := by
  have hfresh : t.refId.bind store.get? = none := by
    rw [hname]
    exact hfree
  rw [compile_of_fresh hfresh, hname] at h
  obtain ⟨body, mid, hbody, hdefine⟩ := Compile.of_bind_ok h
  refine ⟨body, mid, hbody, hdefine, ?_⟩
  obtain ⟨a, ha⟩ := define_run (some name) (Fragment.overlay body t.keys) reply mid
  cases ha.symm.trans hdefine
  rfl

/-- Where the identifier of a site is free, the site stores what its shape becomes under its keys,
unless a site below has taken the identifier in between. -/
theorem get?_of_fresh {mid after : Store Fragment} {name : String} {body answer : Fragment}
    (hname : t.refId = some name) (hfree : store.get? name = none)
    (hbody : t.body dialect false store = .ok (body, mid))
    (h : t.compile dialect reply store = .ok (answer, after)) :
    after.get? name = (mid.get? name).or (some (Fragment.overlay body t.keys)) := by
  obtain ⟨body', mid', hbody', _, rfl⟩ := exists_body_of_free hname hfree h
  cases hbody.symm.trans hbody'
  rw [Store.get?_define, if_pos rfl]

/-- Where the identifier of a site is stored, the site is answered with a reference to it. -/
theorem answer_of_stored {after : Store Fragment} {name : String} {stored answer : Fragment}
    (hname : t.refId = some name) (hstored : store.get? name = some stored)
    (h : t.compile dialect reply store = .ok (answer, after)) :
    ∃ delta, answer = Fragment.referenceWith name delta := by
  rw [compile_of_stored hname hstored] at h
  split at h
  · rename_i hsaid
    refine ⟨t.said stored, ?_⟩
    have hsome : (t.said stored).isEmpty = false := by
      cases hempty : t.said stored with
      | nil =>
        rw [hempty] at hsaid
        cases hsaid
      | cons first rest => rfl
    rw [Fragment.referenceWith, hsome]
    cases h
    rfl
  · obtain ⟨body, mid, _, hanswer⟩ := Compile.of_bind_ok h
    rw [(Compile.of_pure_ok hanswer).1]
    exact ⟨_, rfl⟩

/-- A site without an identifier is answered with what stands for its shape, under its keys. -/
theorem answer_of_unnamed {after : Store Fragment} {answer : Fragment} (hname : t.refId = none)
    (h : t.compile dialect reply store = .ok (answer, after)) :
    ∃ body, t.body dialect false store = .ok (body, after)
      ∧ answer = Fragment.overlay body t.keys := by
  rw [compile_of_fresh (by rw [hname]; rfl), hname] at h
  obtain ⟨body, mid, hbody, hanswer⟩ := Compile.of_bind_ok h
  rw [define_none] at hanswer
  cases hanswer
  exact ⟨body, hbody, rfl⟩

/-- How a site is answered makes no difference to what is stored, or to a problem. -/
theorem compile_forget {α : Type} (k : Compile α) (reply reply' : Reply) :
    (t.compile dialect reply >>= fun _ => k) = (t.compile dialect reply' >>= fun _ => k) := by
  funext store
  cases hs : t.refId.bind store.get? with
  | none =>
    cases hb : t.body dialect false store with
    | error problem =>
      rw [Compile.bind_apply_error (by rw [compile_of_fresh hs, Compile.bind_apply_error hb]),
        Compile.bind_apply_error (by rw [compile_of_fresh hs, Compile.bind_apply_error hb])]
    | ok p =>
      obtain ⟨body, mid⟩ := p
      obtain ⟨a, ha⟩ := define_run t.refId (Fragment.overlay body t.keys) reply mid
      obtain ⟨a', ha'⟩ := define_run t.refId (Fragment.overlay body t.keys) reply' mid
      rw [Compile.bind_apply_ok (by rw [compile_of_fresh hs, Compile.bind_apply_ok hb, ha]),
        Compile.bind_apply_ok (by rw [compile_of_fresh hs, Compile.bind_apply_ok hb, ha'])]
  | some stored =>
    obtain ⟨name, hname, hstored⟩ := Option.bind_eq_some_iff.mp hs
    have hsame : t.compile dialect reply store = t.compile dialect reply' store := by
      rw [compile_of_stored hname hstored, compile_of_stored hname hstored]
    show (t.compile dialect reply store >>= _) = (t.compile dialect reply' store >>= _)
    rw [hsame]

end Site

/-! ## Compiling children in sequence -/

namespace Shape

variable {R : ∀ {α : Type}, Compile α → Compile α → Prop} (hR : Compile.Chained @R)
  {dialect dialect' : Dialect}

include hR

theorem compileAll_of_sites {sites : List Site}
    (h : ∀ c ∈ sites, R (c.compile dialect .reference) (c.compile dialect' .reference)) :
    R (compileAll dialect sites) (compileAll dialect' sites) := by
  induction sites with
  | nil =>
    rw [compileAll, compileAll]
    exact hR.pure _ _
  | cons first rest ih =>
    rw [compileAll, compileAll]
    refine hR.bind (h first List.mem_cons_self) fun fragment fragment' => ?_
    refine hR.bind (ih fun c hc => h c (List.mem_cons_of_mem _ hc)) fun others others' => ?_
    exact hR.pure _ _

theorem compileProperties_of_sites {properties : List (String × Site)}
    (h : ∀ c ∈ properties.map (·.2),
      R (c.compile dialect .reference) (c.compile dialect' .reference)) :
    R (compileProperties dialect properties) (compileProperties dialect' properties) := by
  induction properties with
  | nil =>
    rw [compileProperties, compileProperties]
    exact hR.pure _ _
  | cons first rest ih =>
    obtain ⟨key, site⟩ := first
    rw [compileProperties, compileProperties]
    refine hR.bind (h site List.mem_cons_self) fun fragment fragment' => ?_
    refine hR.bind (ih fun c hc => h c (List.mem_cons_of_mem _ hc)) fun others others' => ?_
    exact hR.pure _ _

theorem compileAdditional_of_sites {additional : Additional Site}
    (h : ∀ c ∈ additional.sites,
      R (c.compile dialect .reference) (c.compile dialect' .reference)) :
    R (compileAdditional dialect additional) (compileAdditional dialect' additional) := by
  cases additional with
  | unspecified =>
    rw [compileAdditional, compileAdditional]
    exact hR.pure _ _
  | forbidden =>
    rw [compileAdditional, compileAdditional]
    exact hR.pure _ _
  | schema site =>
    rw [compileAdditional, compileAdditional]
    refine hR.bind (h site List.mem_cons_self) fun fragment fragment' => ?_
    exact hR.pure _ _

omit hR in
/-- The problem that a shape may end with by itself, once the schemas below it are compiled. -/
def problem? : Shape → Option Problem
  | .oneOf _ (.error problem) => some problem
  | .invalid problem => some problem
  | _ => none

/-- A relation that passes to sequences passes from the children of a shape to the shape, if it holds
where the shape ends with a problem of its own. The children are compiled for references, but for one
that is compiled in place. -/
theorem compile_of_children (shape : Shape) (nullable : Bool) (default : Option Json)
    (own : ∀ problem, shape.problem? = some problem →
      R (Compile.fail problem : Compile Fragment) (Compile.fail problem))
    (references : ∀ c ∈ shape.children,
      R (c.compile dialect .reference) (c.compile dialect' .reference))
    (inlined : ∀ c, shape = .inline c →
      R (c.compile dialect .fragment) (c.compile dialect' .fragment)) :
    R (shape.compile dialect nullable default) (shape.compile dialect' nullable default) := by
  cases shape with
  | null =>
    rw [compile, compile]
    exact hR.pure _ _
  | anything =>
    rw [compile, compile]
    exact hR.pure _ _
  | scalar type checks keys =>
    rw [compile, compile]
    exact hR.pure _ _
  | object members =>
    obtain ⟨properties, required, additional⟩ := members
    rw [compile, compile]
    have hproperties := compileProperties_of_sites hR fun c hc =>
      references c (List.mem_append_left _ hc)
    have hadditional := compileAdditional_of_sites hR fun c hc =>
      references c (List.mem_append_right _ hc)
    refine hR.bind hproperties fun compiled compiled' => ?_
    refine hR.bind hadditional fun others others' => ?_
    exact hR.pure _ _
  | extension members refId parent base baseRequired =>
    obtain ⟨properties, required, additional⟩ := members
    rw [compile, compile]
    have hproperties := compileProperties_of_sites hR fun c hc =>
      references c (List.mem_append_left _ (List.mem_append_left _ hc))
    have hadditional := compileAdditional_of_sites hR fun c hc =>
      references c (List.mem_append_left _ (List.mem_append_right _ hc))
    have hparent := references parent (List.mem_append_right _ List.mem_cons_self)
    have hbase := compileProperties_of_sites hR fun c hc =>
      references c (List.mem_append_right _ (List.mem_cons_of_mem _ hc))
    refine hR.bind hproperties fun compiled compiled' => ?_
    refine hR.bind hadditional fun others others' => ?_
    rw [Site.compile_forget _ .fragment .reference, Site.compile_forget _ .fragment .reference]
    refine hR.bind hparent fun _ _ => ?_
    refine hR.bind hbase fun inherited inherited' => ?_
    exact hR.pure _ _
  | array element least most =>
    rw [compile, compile]
    refine hR.bind (references element List.mem_cons_self) fun items items' => ?_
    exact hR.pure _ _
  | tuple items =>
    rw [compile, compile]
    refine hR.bind (compileAll_of_sites hR references) fun compiled compiled' => ?_
    exact hR.pure _ _
  | anyOf options =>
    rw [compile, compile]
    refine hR.bind (compileAll_of_sites hR references) fun compiled compiled' => ?_
    exact hR.pure _ _
  | oneOf options discriminator =>
    rw [compile, compile]
    refine hR.bind (compileAll_of_sites hR references) fun compiled compiled' => ?_
    split
    · exact hR.pure _ _
    · cases discriminator with
      | ok telling => exact hR.pure _ _
      | error problem => exact own problem rfl
  | allOf parts =>
    rw [compile, compile]
    refine hR.bind (compileAll_of_sites hR references) fun compiled compiled' => ?_
    exact hR.pure _ _
  | dictionary value =>
    rw [compile, compile]
    refine hR.bind (references value List.mem_cons_self) fun compiled compiled' => ?_
    exact hR.pure _ _
  | inline site =>
    rw [compile, compile]
    exact inlined site rfl
  | invalid problem =>
    rw [compile, compile]
    exact own problem rfl

end Shape

/-- What stands for the shape of a site is related in two compilations if the children of the
site are, and the problem of the shape is. Whether it stands beside a stored fragment makes no
difference to that. -/
theorem Site.body_chained {R : ∀ {α : Type}, Compile α → Compile α → Prop}
    (hR : Compile.Chained @R) {dialect dialect' : Dialect} {t : Site} (beside beside' : Bool)
    (own : ∀ problem, t.shape.problem? = some problem →
      R (Compile.fail problem : Compile Fragment) (Compile.fail problem))
    (references : ∀ c ∈ t.children,
      R (c.compile dialect .reference) (c.compile dialect' .reference))
    (inlined : ∀ c ∈ t.children, t.shape = .inline c →
      R (c.compile dialect .fragment) (c.compile dialect' .fragment)) :
    R (t.body dialect beside) (t.body dialect' beside') := by
  cases h : t.override? with
  | some type =>
    rw [body_of_override beside h, body_of_override beside' h]
    exact hR.pure _ _
  | none =>
    rw [body_of_shape beside h, body_of_shape beside' h]
    rw [children_eq h] at references inlined
    refine Shape.compile_of_children hR t.shape t.nullable t.default own references ?_
    intro c hc
    refine inlined c ?_ hc
    rw [hc]
    exact List.mem_cons_self

/-- For a relation that does not look at problems it is enough that the children are related. -/
theorem Site.body_parallel {R : ∀ {α : Type}, Compile α → Compile α → Prop}
    (hR : Compile.Parallel @R) {dialect dialect' : Dialect} {t : Site} (beside beside' : Bool)
    (references : ∀ c ∈ t.children,
      R (c.compile dialect .reference) (c.compile dialect' .reference))
    (inlined : ∀ c ∈ t.children, t.shape = .inline c →
      R (c.compile dialect .fragment) (c.compile dialect' .fragment)) :
    R (t.body dialect beside) (t.body dialect' beside') :=
  body_chained hR.toChained beside beside' (fun problem _ => hR.fail problem) references inlined

/-- What stands for the shape of a site has a property that passes to sequences if the children
of the site have it. -/
theorem Site.body_of_children {P : ∀ {α : Type}, Compile α → Prop}
    (hP : Compile.Sequential @P) {dialect : Dialect} {t : Site} (beside : Bool)
    (references : ∀ c ∈ t.children, P (c.compile dialect .reference))
    (inlined : ∀ c ∈ t.children, t.shape = .inline c → P (c.compile dialect .fragment)) :
    P (t.body dialect beside) := by
  have hbody : P (t.body dialect beside) ∧ P (t.body dialect beside) :=
    body_parallel hP.parallel beside beside (fun c hc => ⟨references c hc, references c hc⟩)
      fun c hc h => ⟨inlined c hc h, inlined c hc h⟩
  exact hbody.1

/-! ## Moves of the store -/

/-- Compiling a site moves the store only by storing what has become of a site that it visits:
what stands for that site's shape, under its keys. -/
theorem Site.moves_compile_of_defines {R : Store Fragment → Store Fragment → Prop}
    (refl : ∀ store, R store store)
    (trans : ∀ first second third, R first second → R second third → R first third)
    {dialect : Dialect} (t : Site) :
    ∀ reply, (∀ u, t.Reaches u → ∀ name, u.refId = some name → ∀ store body mid,
        u.body dialect false store = .ok (body, mid) →
        R mid (mid.define name (Fragment.overlay body u.keys)).2) →
      Compile.Moves R (t.compile dialect reply) := by
  induction t using Site.induction with
  | step t ih =>
    intro reply hdefine
    have hbody (beside : Bool) : Compile.Moves R (t.body dialect beside) := by
      refine body_of_children (Compile.moves_sequential refl trans) beside ?_ ?_
      · exact fun c hc => ih c hc .reference fun u hu => hdefine u (.step hc hu)
      · exact fun c hc _ => ih c hc .fragment fun u hu => hdefine u (.step hc hu)
    -- The store is moved by the children, and once more only where the site stores itself.
    intro store answer after h
    cases compile_eq_ok_iff.mp h with
    | retyped _ _ _ => exact refl store
    | reused _ _ _ hend => exact hbody true store _ after hend
    | unnamed _ hend => exact hbody false store _ after hend
    | taken _ _ hend _ => exact hbody false store _ after hend
    | stored hname _ hmid _ =>
      exact trans _ _ _ (hbody false store _ _ hmid) (hdefine t (.refl t) _ hname _ _ _ hmid)

/-- Compiling a site keeps a property of all that is stored, if every site that stores itself has become
something with the property. The property may be one beside the store, if it stays when the store
grows. -/
theorem Site.moves_stored {Q : String → Store Fragment → Fragment → Prop}
    (mono : ∀ {name store after stored}, store ≤ after → Q name store stored → Q name after stored)
    {dialect : Dialect} (t : Site) (reply : Reply)
    (becomes : ∀ u, t.Reaches u → ∀ name, u.refId = some name → ∀ store body mid,
      u.body dialect false store = .ok (body, mid) →
      (∀ name stored, mid.get? name = some stored → Q name mid stored) →
      Q name mid (Fragment.overlay body u.keys)) :
    Compile.Moves
      (Store.Preserves fun store => ∀ name stored, store.get? name = some stored → Q name store stored)
      (t.compile dialect reply) := by
  refine moves_compile_of_defines (Store.Preserves.refl _) (Store.Preserves.trans _) t reply ?_
  intro u hu own hown store body mid hbody kept name stored hget
  have hle := Store.le_define mid own (Fragment.overlay body u.keys)
  rw [Store.get?_define] at hget
  cases hbefore : mid.get? name with
  | some old =>
    rw [hbefore] at hget
    cases hget
    exact mono hle (kept name _ hbefore)
  | none =>
    rw [hbefore, Option.none_or] at hget
    split at hget
    · rename_i hsame
      cases hget
      exact mono hle (becomes u hu name (hsame ▸ hown) store body mid hbody kept)
    · cases hget

/-- Compiling a site moves the store only by storing fragments under identifiers that the site
comes across. -/
theorem Site.moves_compile {R : Store Fragment → Store Fragment → Prop}
    (refl : ∀ store, R store store)
    (trans : ∀ first second third, R first second → R second third → R first third)
    {dialect : Dialect} (t : Site) (reply : Reply)
    (hdefine : ∀ name, t.Names name → ∀ store value, R store (Store.define store name value).2) :
    Compile.Moves R (t.compile dialect reply) :=
  moves_compile_of_defines refl trans t reply fun u hu name hname _ _ mid _ =>
    hdefine name ⟨u, hu, hname⟩ mid _

/-- What stands for the shape of a site moves the store only as the children of the site do. -/
theorem Site.moves_body {R : Store Fragment → Store Fragment → Prop}
    (refl : ∀ store, R store store)
    (trans : ∀ first second third, R first second → R second third → R first third)
    {dialect : Dialect} (t : Site) (beside : Bool)
    (hdefine : ∀ c ∈ t.children, ∀ name, c.Names name →
      ∀ store value, R store (Store.define store name value).2) :
    Compile.Moves R (t.body dialect beside) := by
  refine body_of_children (Compile.moves_sequential refl trans) beside ?_ ?_
  · exact fun c hc => moves_compile refl trans c .reference (hdefine c hc)
  · exact fun c hc _ => moves_compile refl trans c .fragment (hdefine c hc)

/-- Compiling a site only adds to the store. -/
theorem Site.grows_compile {dialect : Dialect} (t : Site) (reply : Reply) :
    Compile.Grows (t.compile dialect reply) :=
  moves_compile le_refl (fun _ _ _ => le_trans) t reply fun name _ store value =>
    Store.le_define store name value

theorem Site.grows_body {dialect : Dialect} (t : Site) (beside : Bool) :
    Compile.Grows (t.body dialect beside) :=
  moves_body le_refl (fun _ _ _ => le_trans) t beside fun _ _ name _ store value =>
    Store.le_define store name value

theorem Store.get?_define_of_ne {name other : String} (hne : name ≠ other)
    (store : Store Fragment) (value : Fragment) :
    (store.define other value).2.get? name = store.get? name := by
  rw [Store.get?_define, if_neg hne, Option.or_none]

/-- Compiling a site leaves every identifier alone that it does not come across. -/
theorem Site.get?_compile {dialect : Dialect} {reply : Reply} {t : Site}
    {store after : Store Fragment} {answer : Fragment}
    (h : t.compile dialect reply store = .ok (answer, after)) {name : String}
    (hn : ¬ t.Names name) : after.get? name = store.get? name := by
  refine moves_compile (R := fun before after => after.get? name = before.get? name)
    (fun _ => rfl) (fun _ _ _ h h' => h'.trans h) t reply ?_ store answer after h
  intro other hother mid value
  refine Store.get?_define_of_ne ?_ mid value
  rintro rfl
  exact hn hother

theorem Site.get?_body {dialect : Dialect} {t : Site} {beside : Bool}
    {store after : Store Fragment} {body : Fragment}
    (h : t.body dialect beside store = .ok (body, after)) {name : String}
    (hn : ∀ c ∈ t.children, ¬ c.Names name) : after.get? name = store.get? name := by
  refine moves_body (R := fun before after => after.get? name = before.get? name)
    (fun _ => rfl) (fun _ _ _ h h' => h'.trans h) t beside ?_ store body after h
  intro c hc other hother mid value
  refine Store.get?_define_of_ne ?_ mid value
  rintro rfl
  exact hn c hc hother

end OpenApi
