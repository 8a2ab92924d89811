/-
# OpenApi.Proofs.Turns -- the sites that a compilation comes to, in their order

A shape is compiled by compiling its parts in turn, and nothing else is done to the store on the
way. `Compile.InTurn` says this of a computation, so what is followed along the parts of a shape
need not be followed along each kind of shape again (`Shape.inTurn_compile`).

What is stored where a site is compiled depends on its turn. `Site.Turns` are the stores between which
sites are compiled in turn, and `Site.Meets` says from which store a site is compiled on the way, at
any depth below them.
-/
import OpenApi.Proofs.SiteTree

namespace OpenApi

/-! ## Parts -/

/-- A site in its place below another one, and how it is answered there. There is no reply where the
answer is dropped: an object that is extended is compiled only for what it stores. -/
structure Part where
  site : Site
  reply? : Option Reply

/-- The parts of a shape in the order in which they are compiled. -/
def Shape.parts : Shape → List Part
  | .extension members _ parent base _ =>
    members.sites.map (⟨·, some .reference⟩)
      ++ ⟨parent, none⟩ :: base.map fun property => ⟨property.2, some .reference⟩
  | .inline site => [⟨site, some .fragment⟩]
  | shape => shape.children.map (⟨·, some .reference⟩)

theorem Shape.sites_parts (shape : Shape) : shape.parts.map Part.site = shape.children := by
  cases shape <;> simp [parts, children, Function.comp_def]

/-- The parts that compiling a site goes on to. -/
def Site.parts (t : Site) : List Part := if t.override?.isSome then [] else t.shape.parts

theorem Site.parts_eq {t : Site} (h : t.override? = none) : t.parts = t.shape.parts := by
  rw [parts, h]
  rfl

theorem Site.sites_parts (t : Site) : t.parts.map Part.site = t.children := by
  cases h : t.override? with
  | none => rw [parts_eq h, children_eq h, Shape.sites_parts]
  | some type =>
    rw [parts, children, h]
    rfl

/-! ## Computations that compile sites in turn -/

/-- A computation that compiles parts in turn. It may end with a problem of its own behind the last of
them. -/
inductive Compile.InTurn (dialect : Dialect) :
    ∀ {α : Type}, List Part → Option Problem → Compile α → Prop
  | pure {α : Type} (a : α) : InTurn dialect [] none (Pure.pure a : Compile α)
  | fail {α : Type} (problem : Problem) :
      InTurn dialect [] (some problem) (Compile.fail problem : Compile α)
  | answered (t : Site) (reply : Reply) : InTurn dialect [⟨t, some reply⟩] none (t.compile dialect reply)
  | dropped (t : Site) (reply : Reply) :
      InTurn dialect [⟨t, none⟩] none (t.compile dialect reply >>= fun _ => Pure.pure ())
  | bind {α β : Type} {first second : List Part} {problem? : Option Problem} {c : Compile α}
      {k : α → Compile β} :
      InTurn dialect first none c → (∀ a, InTurn dialect second problem? (k a)) →
      InTurn dialect (first ++ second) problem? (c >>= k)

namespace Compile.InTurn

variable {dialect : Dialect} {α β : Type} {parts : List Part} {problem? : Option Problem}
  {c : Compile α} {k : α → Compile β}

/-- Nothing is compiled behind the parts. -/
theorem last (h : InTurn dialect parts none c) (hk : ∀ a, InTurn dialect [] problem? (k a)) :
    InTurn dialect parts problem? (c >>= k) := by
  simpa using h.bind hk

theorem answered_bind {t : Site} {reply : Reply} {k : Fragment → Compile β}
    (hk : ∀ a, InTurn dialect parts problem? (k a)) :
    InTurn dialect (⟨t, some reply⟩ :: parts) problem? (t.compile dialect reply >>= k) :=
  (InTurn.answered t reply).bind hk

theorem dropped_bind {t : Site} {reply : Reply} {rest : Compile β}
    (hrest : InTurn dialect parts problem? rest) :
    InTurn dialect (⟨t, none⟩ :: parts) problem? (t.compile dialect reply >>= fun _ => rest) := by
  have hbind : (t.compile dialect reply >>= fun _ => rest)
      = (t.compile dialect reply >>= fun _ => Pure.pure ()) >>= fun _ => rest := by
    rw [bind_assoc]
    rfl
  rw [hbind]
  exact (InTurn.dropped t reply).bind fun _ => hrest

theorem grows (h : InTurn dialect parts problem? c) : Compile.Grows c := by
  induction h with
  | pure a => exact grows_sequential.pure a
  | fail problem => exact grows_sequential.fail problem
  | answered t reply => exact t.grows_compile reply
  | dropped t reply => exact grows_sequential.bind (t.grows_compile reply) fun _ => grows_sequential.pure ()
  | bind _ _ ihc ihk => exact grows_sequential.bind ihc ihk

end Compile.InTurn

/-- The problem that a shape ends with once the sites below it are compiled. Alternatives with null
among them ask for no discriminator. -/
def Shape.raised? (nullable : Bool) : Shape → Option Problem
  | .oneOf options discriminator =>
    if nullable then none else (Shape.oneOf options discriminator).problem?
  | shape => shape.problem?

namespace Shape

open Compile (InTurn)

variable {dialect : Dialect}

theorem inTurn_compileAll (sites : List Site) :
    InTurn dialect (sites.map (⟨·, some .reference⟩)) none (compileAll dialect sites) := by
  induction sites with
  | nil =>
    rw [compileAll]
    exact .pure _
  | cons first rest ih =>
    rw [compileAll]
    exact .answered_bind fun fragment => ih.last fun fragments => .pure _

theorem inTurn_compileProperties (properties : List (String × Site)) :
    InTurn dialect (properties.map fun property => ⟨property.2, some .reference⟩) none
      (compileProperties dialect properties) := by
  induction properties with
  | nil =>
    rw [compileProperties]
    exact .pure _
  | cons first rest ih =>
    obtain ⟨key, site⟩ := first
    rw [compileProperties]
    exact .answered_bind fun fragment => ih.last fun fragments => .pure _

theorem inTurn_compileAdditional (additional : Additional Site) :
    InTurn dialect (additional.sites.map (⟨·, some .reference⟩)) none
      (compileAdditional dialect additional) := by
  cases additional with
  | unspecified | forbidden =>
    rw [compileAdditional]
    exact .pure _
  | schema site =>
    rw [compileAdditional]
    exact .answered_bind fun fragment => .pure _

/-- A shape is compiled by compiling its parts in turn, and raises its own problem after that. -/
theorem inTurn_compile (shape : Shape) (nullable : Bool) (default : Option Json) :
    InTurn dialect shape.parts (shape.raised? nullable)
      (shape.compile dialect nullable default) := by
  cases shape with
  | null =>
    rw [compile]
    exact .pure _
  | anything =>
    rw [compile]
    exact .pure _
  | scalar type checks keys =>
    rw [compile]
    exact .pure _
  | object members =>
    have hparts : (object members).parts = members.sites.map (⟨·, some .reference⟩) := rfl
    rw [compile, hparts, Members.sites, List.map_append, List.map_map]
    exact (inTurn_compileProperties _).bind fun compiled =>
      (inTurn_compileAdditional _).last fun others => .pure _
  | extension members refId parent base baseRequired =>
    rw [compile, parts, Members.sites, List.map_append, List.map_map, List.append_assoc]
    refine (inTurn_compileProperties _).bind fun compiled => ?_
    refine (inTurn_compileAdditional _).bind fun others => ?_
    exact .dropped_bind ((inTurn_compileProperties base).last fun inherited => .pure _)
  | array element least most =>
    rw [compile]
    exact .answered_bind fun items => .pure _
  | tuple items =>
    rw [compile]
    exact (inTurn_compileAll items).last fun compiled => .pure _
  | anyOf options =>
    rw [compile]
    exact (inTurn_compileAll options).last fun compiled => .pure _
  | oneOf options discriminator =>
    rw [compile]
    refine (inTurn_compileAll options).last fun compiled => ?_
    cases nullable with
    | true => exact .pure _
    | false =>
      cases discriminator with
      | ok telling => exact .pure _
      | error problem => exact .fail problem
  | allOf parts =>
    rw [compile]
    exact (inTurn_compileAll parts).last fun compiled => .pure _
  | dictionary value =>
    rw [compile]
    exact .answered_bind fun compiled => .pure _
  | inline site =>
    rw [compile]
    exact .answered site .fragment
  | invalid problem =>
    rw [compile]
    exact .fail problem

end Shape

/-! ## Stores in between -/

namespace Site

variable {dialect : Dialect} {t u : Site} {sites first second : List Site} {reply : Reply}
  {beside : Bool} {store mid after there : Store Fragment} {answer body fragment : Fragment}
  {name : String}

/-- Sites are compiled in turn from one store to another. -/
inductive Turns (dialect : Dialect) : List Site → Store Fragment → Store Fragment → Prop
  | nil (store : Store Fragment) : Turns dialect [] store store
  | cons {t : Site} {rest : List Site} {store mid after : Store Fragment} {answer : Fragment} :
      t.compile dialect .reference store = .ok (answer, mid) → Turns dialect rest mid after →
      Turns dialect (t :: rest) store after

/-- While sites are compiled in turn, a site is compiled from the store `there`. It is one of the sites
or lies below one of them. -/
inductive Meets (dialect : Dialect) (u : Site) (there : Store Fragment) :
    List Site → Store Fragment → Prop
  | here (rest : List Site) : Meets dialect u there (u :: rest) there
  | within {t : Site} {rest : List Site} {store : Store Fragment} :
      Meets dialect u there t.children store → Meets dialect u there (t :: rest) store
  | later {t : Site} {rest : List Site} {store mid : Store Fragment} {answer : Fragment} :
      t.compile dialect .reference store = .ok (answer, mid) → Meets dialect u there rest mid →
      Meets dialect u there (t :: rest) store

theorem Turns.le (h : Turns dialect sites store after) : store ≤ after := by
  induction h with
  | nil store => exact le_refl store
  | cons hfirst _ ih => exact le_trans (grows_compile _ _ _ _ _ hfirst) ih

theorem Turns.append (h : Turns dialect first store mid) (h' : Turns dialect second mid after) :
    Turns dialect (first ++ second) store after := by
  induction h with
  | nil _ => exact h'
  | cons hfirst _ ih => exact .cons hfirst (ih h')

theorem Meets.append_left (h : u.Meets dialect there first store) (second : List Site) :
    u.Meets dialect there (first ++ second) store := by
  induction h with
  | here rest => exact .here (rest ++ second)
  | within hwithin _ => exact .within hwithin
  | later hfirst _ ih => exact .later hfirst ih

theorem Meets.le (h : u.Meets dialect there sites store) : store ≤ there := by
  induction h with
  | here _ => exact le_refl there
  | within _ ih => exact ih
  | later hfirst _ ih => exact le_trans (grows_compile _ _ _ _ _ hfirst) ih

/-- How a site is answered makes no difference to the store that it leaves. -/
theorem exists_compile_reference (h : t.compile dialect reply store = .ok (answer, after)) :
    ∃ again, t.compile dialect .reference store = .ok (again, after) := by
  have hforget : (t.compile dialect reply >>= fun _ => pure ()) store
      = (t.compile dialect .reference >>= fun _ => pure ()) store :=
    congrFun (t.compile_forget (pure ()) reply .reference) store
  rw [Compile.bind_apply_ok h] at hforget
  obtain ⟨again, mid, hagain, hend⟩ := Compile.of_bind_ok hforget.symm
  rw [(Compile.of_pure_ok hend).2]
  exact ⟨again, hagain⟩

/-- A computation that compiles parts in turn leaves the store that their sites leave. -/
theorem Turns.of_inTurn {α : Type} {parts : List Part} {problem? : Option Problem} {act : Compile α}
    {a : α} (h : Compile.InTurn dialect parts problem? act) (hrun : act store = .ok (a, after)) :
    Turns dialect (parts.map Part.site) store after := by
  induction h generalizing store after with
  | pure _ =>
    rw [(Compile.of_pure_ok hrun).2]
    exact .nil store
  | fail _ => cases hrun
  | answered t reply =>
    obtain ⟨again, hagain⟩ := exists_compile_reference hrun
    exact .cons hagain (.nil after)
  | dropped t reply =>
    obtain ⟨answer, mid, hanswer, hend⟩ := Compile.of_bind_ok hrun
    obtain ⟨again, hagain⟩ := exists_compile_reference hanswer
    rw [(Compile.of_pure_ok hend).2]
    exact .cons hagain (.nil mid)
  | bind _ _ ihfirst ihsecond =>
    obtain ⟨b, mid, hfirst, hsecond⟩ := Compile.of_bind_ok hrun
    rw [List.map_append]
    exact (ihfirst hfirst).append (ihsecond b hsecond)

/-- What stands for the shape of a site leaves the store that the children leave in turn. -/
theorem Turns.of_body (h : t.body dialect beside store = .ok (body, after)) :
    Turns dialect t.children store after := by
  cases hover : t.override? with
  | some type =>
    rw [body_of_override beside hover] at h
    rw [(Compile.of_pure_ok h).2, children, hover]
    exact .nil store
  | none =>
    rw [body_of_shape beside hover] at h
    rw [children_eq hover, ← Shape.sites_parts]
    exact .of_inTurn (t.shape.inTurn_compile t.nullable t.default) h

/-- The children of a site are compiled in turn when the site is. -/
theorem exists_turns (h : t.compile dialect reply store = .ok (answer, after)) :
    ∃ mid, Turns dialect t.children store mid ∧ mid ≤ after := by
  cases compile_eq_ok_iff.mp h with
  | retyped _ _ hsaid =>
    -- Nothing was compiled, and a type among the keys leaves no children.
    obtain ⟨body, hbody⟩ := exists_body_of_said hsaid
    exact ⟨store, .of_body hbody, le_refl store⟩
  | reused _ _ _ hend => exact ⟨after, .of_body hend, le_refl after⟩
  | unnamed _ hend => exact ⟨after, .of_body hend, le_refl after⟩
  | taken _ _ hend _ => exact ⟨after, .of_body hend, le_refl after⟩
  | stored _ _ hmid _ => exact ⟨_, .of_body hmid, Store.le_define _ _ _⟩

/-- What is compiled on the way comes to an end if all sites do. -/
theorem Meets.ends (h : u.Meets dialect there sites store) (hturns : Turns dialect sites store after) :
    ∃ answer mid, u.compile dialect .reference there = .ok (answer, mid) ∧ mid ≤ after := by
  induction h generalizing after with
  | here rest =>
    cases hturns with
    | cons hfirst hrest => exact ⟨_, _, hfirst, hrest.le⟩
  | within _ ih =>
    cases hturns with
    | cons hfirst hrest =>
      obtain ⟨mid, hchildren, hle⟩ := exists_turns hfirst
      obtain ⟨answer, mid', hanswer, hle'⟩ := ih hchildren
      exact ⟨answer, mid', hanswer, le_trans hle' (le_trans hle hrest.le)⟩
  | later hfirst _ ih =>
    cases hturns with
    | cons hfirst' hrest =>
      cases hfirst.symm.trans hfirst'
      exact ih hrest

/-! ## What decides what is stored -/

/-- A site stores what stands for its shape, under its keys: nothing is stored under its identifier,
and no site below takes it. -/
structure Decides (dialect : Dialect) (u : Site) (name : String) (there : Store Fragment)
    (fragment : Fragment) : Prop where
  named : u.refId = some name
  becomes : ∃ body mid, u.body dialect false there = .ok (body, mid) ∧ mid.get? name = none
    ∧ fragment = Fragment.overlay body u.keys

theorem Decides.get? (decides : u.Decides dialect name there fragment)
    (h : u.compile dialect reply there = .ok (answer, after)) : after.get? name = some fragment := by
  obtain ⟨body, mid, hbody, hfree, rfl⟩ := decides.becomes
  have hthere : there.get? name = none :=
    Store.get?_eq_none_of_le (u.grows_body false _ _ _ hbody) hfree
  rw [get?_of_fresh decides.named hthere hbody h, hfree]
  rfl

/-- While sites are compiled in turn, one that is compiled on the way decides what is stored under an
identifier. -/
def Decided (dialect : Dialect) (sites : List Site) (store : Store Fragment) (name : String)
    (fragment : Fragment) : Prop :=
  ∃ (u : Site) (there : Store Fragment),
    u.Meets dialect there sites store ∧ u.Decides dialect name there fragment

/-- Where sites have stored an identifier that was free, it has been decided on the way, if that holds of
each of the sites. -/
theorem Turns.decided_of (hturns : Turns dialect sites store after)
    (each : ∀ t ∈ sites, ∀ store answer mid, t.compile dialect .reference store = .ok (answer, mid) →
      store.get? name = none → mid.get? name = some fragment →
      Decided dialect [t] store name fragment)
    (hfree : store.get? name = none) (hget : after.get? name = some fragment) :
    Decided dialect sites store name fragment := by
  induction hturns with
  | nil store =>
    rw [hfree] at hget
    cases hget
  | @cons t rest store mid after answer hfirst hrest ih =>
    cases hmid : mid.get? name with
    | none =>
      obtain ⟨u, there, hmeets, hdecides⟩ :=
        ih (fun t ht => each t (List.mem_cons_of_mem _ ht)) hmid hget
      exact ⟨u, there, .later hfirst hmeets, hdecides⟩
    | some stored =>
      cases (Store.get?_of_le hrest.le hmid).symm.trans hget
      obtain ⟨u, there, hmeets, hdecides⟩ :=
        each t List.mem_cons_self store answer mid hfirst hfree hmid
      exact ⟨u, there, hmeets.append_left rest, hdecides⟩

theorem decided_of_compile (t : Site) :
    ∀ store answer after, t.compile dialect .reference store = .ok (answer, after) →
      store.get? name = none → after.get? name = some fragment →
      Decided dialect [t] store name fragment := by
  induction t using Site.induction with
  | step t ih =>
    intro store answer after h hfree hget
    have hchildren {mid : Store Fragment} (hturns : Turns dialect t.children store mid)
        (hmid : mid.get? name = some fragment) : Decided dialect [t] store name fragment := by
      obtain ⟨u, there, hmeets, hdecides⟩ := hturns.decided_of ih hfree hmid
      exact ⟨u, there, .within hmeets, hdecides⟩
    cases compile_eq_ok_iff.mp h with
    | retyped _ _ _ =>
      rw [hfree] at hget
      cases hget
    | reused _ _ _ hend => exact hchildren (.of_body hend) hget
    | unnamed _ hend => exact hchildren (.of_body hend) hget
    | taken _ _ hend _ => exact hchildren (.of_body hend) hget
    | @stored own body mid hname _ hmid hmidfree =>
      by_cases hsame : name = own
      · subst hsame
        rw [Store.get?_define, hmidfree, if_pos rfl] at hget
        cases hget
        exact ⟨t, store, .here [], hname, body, mid, hmid, hmidfree, rfl⟩
      · rw [Store.get?_define_of_ne hsame] at hget
        exact hchildren (.of_body hmid) hget

/-- What sites store under an identifier that was free is decided on the way, and only once. -/
theorem Turns.decided_iff (hturns : Turns dialect sites store after) {found : Fragment}
    (hfree : store.get? name = none) (hget : after.get? name = some found) :
    Decided dialect sites store name fragment ↔ fragment = found := by
  constructor
  · rintro ⟨u, there, hmeets, hdecides⟩
    obtain ⟨answer, mid, hanswer, hle⟩ := hmeets.ends hturns
    rw [Store.get?_of_le hle (hdecides.get? hanswer)] at hget
    exact Option.some.inj hget
  · rintro rfl
    exact hturns.decided_of (fun t _ => t.decided_of_compile) hfree hget

end Site

end OpenApi
