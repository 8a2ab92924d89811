/-
# OpenApi.Proofs.LawfulSites -- what a site compiles to satisfies every lawful law

The invariant is that every stored fragment is sealed for the components stored before it
(`Law.Settled`). `Law.Keeps` says of a computation that it keeps the invariant, only adds to the
store, and ends with a result that is good for what is stored then. Since the stock only grows,
what was good at one point of a compilation is good at every later one.

A reference to an identifier is answered in two places, where a fragment has just been stored
and where it was found in the store, and in both the identifier is in stock. The other two kinds
of target are in stock because the schemas they name are compiled first: the parent of an
extension, and the options of a discriminator.
-/
import OpenApi.Proofs.Law

namespace OpenApi.Law

variable {law : Law} {dialect : Dialect} {registered base store after : Store Fragment}

/-! ## Settled stores -/

theorem stock_le (h : store ≤ after) : Stock.mk store registered ≤ ⟨after, registered⟩ :=
  ⟨h, le_refl _⟩

/-- Every stored fragment is sealed for what was stored before it. -/
def Settled (law : Law) (registered store : Store Fragment) : Prop :=
  ∀ earlier e later, store.entries = earlier ++ e :: later →
    law.Sealed ⟨⟨earlier⟩, registered⟩ e.2

theorem settled_empty : law.Settled registered {} := by
  intro earlier e later h
  cases earlier <;> cases h

theorem Settled.define (h : law.Settled registered store) (name : String) {value : Fragment}
    (hv : law.Sealed ⟨store, registered⟩ value) :
    law.Settled registered (store.define name value).2 := by
  cases hn : store.get? name with
  | some old =>
    rw [Store.define_of_get?_some value hn]
    exact h
  | none =>
    rw [Store.define_of_get?_none value hn]
    intro earlier e later hsplit
    have hsplit' : store.entries ++ [(name, value)] = earlier ++ e :: later := hsplit
    -- The new fragment is the last one; every other one stands where it stood.
    rcases List.eq_nil_or_concat later with rfl | ⟨later', last, rfl⟩
    · obtain ⟨hearlier, hlast⟩ := List.append_inj' hsplit' rfl
      cases hlast
      rw [← hearlier]
      exact hv
    · have hsnoc : store.entries ++ [(name, value)] = (earlier ++ e :: later') ++ [last] := by
        simpa using hsplit'
      exact h earlier e later' (List.append_inj' hsnoc rfl).1

theorem Settled.sealed (lawful : law.Lawful dialect) (h : law.Settled registered store)
    {e : String × Fragment} (he : e ∈ store.entries) : law.Sealed ⟨store, registered⟩ e.2 := by
  obtain ⟨earlier, later, hsplit⟩ := List.append_of_mem he
  have hle : (⟨earlier⟩ : Store Fragment) ≤ store := ⟨e :: later, hsplit.symm⟩
  exact (h earlier e later hsplit).mono lawful (stock_le hle)

/-! ## Computations that keep the invariant -/

section Keeps

variable {α β : Type}

/-- From every store beyond `base`, a computation leaves a larger store that keeps the invariant
if the first one did, and ends with a result that is good there. -/
def Keeps (law : Law) (registered base : Store Fragment) (good : Stock → α → Prop)
    (c : Compile α) : Prop :=
  ∀ store a after, base ≤ store → c store = .ok (a, after) →
    store ≤ after ∧ (law.Settled registered store → law.Settled registered after)
      ∧ good ⟨after, registered⟩ a

variable {good : Stock → α → Prop} {good' : Stock → β → Prop}

theorem Keeps.pure {a : α} (h : ∀ store, base ≤ store → good ⟨store, registered⟩ a) :
    law.Keeps registered base good (Pure.pure a) := by
  intro store b after hbase hb
  obtain ⟨rfl, rfl⟩ := Compile.of_pure_ok hb
  exact ⟨le_refl after, id, h after hbase⟩

theorem Keeps.fail (problem : Problem) : law.Keeps registered base good (Compile.fail problem) := by
  intro store a after _ h
  cases h

theorem Keeps.bind {c : Compile α} {k : α → Compile β} (hc : law.Keeps registered base good c)
    (hk : ∀ a mid, base ≤ mid → good ⟨mid, registered⟩ a → law.Keeps registered mid good' (k a)) :
    law.Keeps registered base good' (c >>= k) := by
  intro store b after hbase h
  obtain ⟨a, mid, ha, hb⟩ := Compile.of_bind_ok h
  obtain ⟨hmid, hsettledMid, hgood⟩ := hc store a mid hbase ha
  obtain ⟨hafter, hsettledAfter, hgood'⟩ :=
    hk a mid (le_trans hbase hmid) hgood mid b after (le_refl mid) hb
  exact ⟨le_trans hmid hafter, hsettledAfter ∘ hsettledMid, hgood'⟩

theorem Keeps.mapProblem {f : Problem → Problem} {c : Compile α} (hc : law.Keeps registered base good c) :
    law.Keeps registered base good (Compile.mapProblem f c) := by
  intro store a after hbase h
  exact hc store a after hbase (Compile.mapProblem_apply_ok.mp h)

theorem Keeps.imp {goodHere : Stock → α → Prop} {c : Compile α} (hc : law.Keeps registered base good c)
    (h : ∀ stock a, good stock a → goodHere stock a) : law.Keeps registered base goodHere c := by
  intro store a after hbase ha
  obtain ⟨hafter, hsettledAfter, hgood⟩ := hc store a after hbase ha
  exact ⟨hafter, hsettledAfter, h _ a hgood⟩

end Keeps

/-! ## Compiling sites -/

/-- An answer for a site: it is sealed, and the site's own identifier is stored. -/
structure Answers (law : Law) (t : Site) (stock : Stock) (answer : Fragment) : Prop where
  sealed : law.Sealed stock answer
  stored : ∀ refId, t.refId = some refId → stock.schemas.contains refId = true

theorem Answers.of_named {t : Site} {stock : Stock} {answer : Fragment} {name : String}
    (hname : t.refId = some name) (hin : stock.schemas.contains name = true)
    (hsealed : law.Sealed stock answer) : law.Answers t stock answer where
  sealed := hsealed
  stored := by
    intro refId hrefId
    rw [hname] at hrefId
    cases hrefId
    exact hin

/-- One answer for each of a list of sites, and their identifiers are stored. -/
structure AnswersAll (law : Law) (sites : List Site) (stock : Stock) (answers : List Json) :
    Prop where
  length : answers.length = sites.length
  lists : law.Lists stock answers
  stored : ∀ c ∈ sites, ∀ refId, c.refId = some refId → stock.schemas.contains refId = true

theorem AnswersAll.eq_nil {sites : List Site} {stock : Stock} {answers : List Json}
    (h : law.AnswersAll sites stock answers) (hnil : answers = []) : sites = [] := by
  rw [← List.length_eq_zero_iff, ← h.length, hnil, List.length_nil]

/-- Answers for properties, under the same keys. -/
structure AnswersUnder (law : Law) (properties : List (String × Site)) (stock : Stock)
    (answers : Fragment) : Prop where
  keys : Entries.keys answers = Entries.keys properties
  holds : law.Holds stock answers

/-- A site is answered well from every store that keeps the invariant. -/
def Compiles (law : Law) (registered : Store Fragment) (dialect : Dialect) (c : Site) : Prop :=
  ∀ base reply, law.Keeps registered base (law.Answers c) (c.compile dialect reply)

section Compile

variable (lawful : law.Lawful dialect)

include lawful

theorem keeps_compileAll {sites : List Site}
    (h : ∀ c ∈ sites, law.Compiles registered dialect c) : ∀ base,
    law.Keeps registered base (law.AnswersAll sites) (Shape.compileAll dialect sites) := by
  induction sites with
  | nil =>
    intro base
    rw [Shape.compileAll]
    refine Keeps.pure fun store _ => ⟨rfl, ?_, ?_⟩
    · intro value hvalue
      cases hvalue
    · intro c hc
      cases hc
  | cons first rest ih =>
    intro base
    have hrest := ih fun c hc => h c (List.mem_cons_of_mem _ hc)
    rw [Shape.compileAll]
    refine (h first List.mem_cons_self base .reference).bind fun fragment mid _ hfirst => ?_
    refine (hrest mid).bind fun fragments mid' hmid' hothers => ?_
    refine Keeps.pure fun store hstore => ⟨?_, ?_, ?_⟩
    · rw [List.length_cons, List.length_cons, hothers.length]
    · intro value hvalue
      rcases List.mem_cons.mp hvalue with rfl | hvalue
      · exact ⟨fragment, rfl, hfirst.sealed.mono lawful (stock_le (le_trans hmid' hstore))⟩
      · obtain ⟨f, hf, hsealed⟩ := hothers.lists value hvalue
        exact ⟨f, hf, hsealed.mono lawful (stock_le hstore)⟩
    · intro c hc refId hrefId
      rcases List.mem_cons.mp hc with rfl | hc
      · exact Store.contains_of_le (le_trans hmid' hstore) (hfirst.stored refId hrefId)
      · exact Store.contains_of_le hstore (hothers.stored c hc refId hrefId)

theorem keeps_compileProperties {properties : List (String × Site)}
    (h : ∀ c ∈ properties.map (·.2), law.Compiles registered dialect c) : ∀ base,
    law.Keeps registered base (law.AnswersUnder properties)
      (Shape.compileProperties dialect properties) := by
  induction properties with
  | nil =>
    intro base
    rw [Shape.compileProperties]
    exact Keeps.pure fun _ _ => ⟨rfl, holds_nil⟩
  | cons first rest ih =>
    intro base
    obtain ⟨key, site⟩ := first
    have hrest := ih fun c hc => h c (List.mem_cons_of_mem _ hc)
    rw [Shape.compileProperties]
    refine (h site List.mem_cons_self base .reference).bind fun fragment mid _ hfirst => ?_
    refine (hrest mid).bind fun fragments mid' hmid' hothers => ?_
    refine Keeps.pure fun store hstore => ⟨?_, ?_⟩
    · show key :: Entries.keys fragments = key :: Entries.keys rest
      rw [hothers.keys]
    · exact (hothers.holds.mono lawful (stock_le hstore)).cons
        (hfirst.sealed.mono lawful (stock_le (le_trans hmid' hstore)))

theorem keeps_compileAdditional {additional : Additional Site}
    (h : ∀ c ∈ additional.sites, law.Compiles registered dialect c) : ∀ base,
    law.Keeps registered base (fun stock o => ∀ v, o = some v → law.Closed stock v)
      (Shape.compileAdditional dialect additional) := by
  intro base
  cases additional with
  | unspecified =>
    rw [Shape.compileAdditional]
    refine Keeps.pure fun _ _ v hv => ?_
    cases hv
  | forbidden =>
    rw [Shape.compileAdditional]
    refine Keeps.pure fun _ _ v hv => ?_
    cases hv
    exact closed_bool false
  | schema site =>
    rw [Shape.compileAdditional]
    refine (h site List.mem_cons_self base .reference).bind fun fragment mid _ hfragment => ?_
    refine Keeps.pure fun store hstore v hv => ?_
    cases hv
    exact (hfragment.sealed.mono lawful (stock_le hstore)).object lawful

/-- What a wired shape compiles to is sealed, if its children are answered well and the law grants
the composition without members that it may come to. -/
theorem keeps_shape {shape : Shape} (wired : shape.Wired law.Binds law.Keys) (nullable : Bool)
    (fills : ∀ key, shape.Hollow nullable key → law.Grants (key, .array []))
    {default : Option Json} (hdefault : ∀ v, default = some v → law.Clean v)
    (children : ∀ c ∈ shape.children, law.Compiles registered dialect c) (base : Store Fragment) :
    law.Keeps registered base law.Sealed (shape.compile dialect nullable default) := by
  have hwritten (stock : Stock) : ∀ v, default = some v → law.Closed stock v :=
    fun v hv => (hdefault v hv).closed lawful stock
  cases shape with
  | null =>
    rw [Shape.compile]
    exact Keeps.pure fun _ _ => sealed_nullFragment lawful
  | anything =>
    rw [Shape.compile]
    refine Keeps.pure fun _ _ => sealed_typeKeys lawful nullable (fun v hv => ?_) fun v hv => ?_
    · cases hv
    · cases hv
  | scalar type checks keys =>
    obtain ⟨htype, hnodup, hkeys⟩ := wired
    rw [Shape.compile]
    exact Keeps.pure fun store _ =>
      sealed_scalarFragment lawful nullable htype checks hnodup hkeys (hwritten _)
  | object members =>
    obtain ⟨properties, required, additional⟩ := members
    have hproperties := keeps_compileProperties lawful fun c hc =>
      children c (List.mem_append_left _ hc)
    have hadditional := keeps_compileAdditional lawful fun c hc =>
      children c (List.mem_append_right _ hc)
    rw [Shape.compile]
    -- What was sealed when it was compiled is sealed still when the object is put together.
    refine (hproperties base).bind fun compiled mid _ hcompiled => ?_
    refine (hadditional mid).bind fun others mid' hmid' hothers => ?_
    refine Keeps.pure fun store hstore => ?_
    refine sealed_objectFragment lawful nullable required (hwritten _) ?_ ?_
    · refine (hcompiled.holds.closed lawful ?_).mono lawful (stock_le (le_trans hmid' hstore))
      rw [hcompiled.keys]
      exact wired
    · exact fun v hv => (hothers v hv).mono lawful (stock_le hstore)
  | extension members refId parent baseSites baseRequired =>
    obtain ⟨properties, required, additional⟩ := members
    obtain ⟨hlisted, _, hparentId⟩ := wired
    have hproperties := keeps_compileProperties lawful fun c hc =>
      children c (List.mem_append_left _ (List.mem_append_left _ hc))
    have hadditional := keeps_compileAdditional lawful fun c hc =>
      children c (List.mem_append_left _ (List.mem_append_right _ hc))
    have hparent := children parent (List.mem_append_right _ List.mem_cons_self)
    have hbase := keeps_compileProperties lawful fun c hc =>
      children c (List.mem_append_right _ (List.mem_cons_of_mem _ hc))
    rw [Shape.compile]
    refine (hproperties base).bind fun compiled mid₁ _ hcompiled => ?_
    refine (hadditional mid₁).bind fun others mid₂ hmid₂ hothers => ?_
    refine (hparent mid₂ .fragment).bind fun _ mid₃ hmid₃ hanswer => ?_
    refine (hbase mid₃).bind fun inherited mid₄ hmid₄ _ => ?_
    refine Keeps.pure fun store hstore => ?_
    have hlast : mid₂ ≤ store := le_trans hmid₃ (le_trans hmid₄ hstore)
    -- The parent was compiled just now, and its identifier is the one that is referred to.
    have hrefId (hb : law.Binds) : store.contains refId = true :=
      Store.contains_of_le (le_trans hmid₄ hstore) (hanswer.stored refId (hparentId hb))
    refine sealed_referenceAnd lawful hrefId
      (sealed_objectFragment lawful nullable _ (hwritten _) ?_ ?_)
    · refine Holds.closed lawful ?_ ((hcompiled.holds.filter _).mono lawful
        (stock_le (le_trans hmid₂ hlast)))
      refine lawful.keys_sublist ((List.filter_sublist).map _) ?_
      show law.Keys (Entries.keys compiled)
      rw [hcompiled.keys]
      exact hlisted
    · exact fun v hv => (hothers v hv).mono lawful (stock_le hlast)
  | array element least most =>
    rw [Shape.compile]
    refine (children element List.mem_cons_self base .reference).bind fun items mid _ hitems => ?_
    refine Keeps.pure fun store hstore => ?_
    have hclosed := (hitems.sealed.mono lawful (stock_le hstore)).object lawful
    exact (sealed_arrayFragment lawful nullable least most hclosed).withDefault lawful (hwritten _)
  | tuple items =>
    rw [Shape.compile]
    refine (keeps_compileAll lawful children base).bind fun compiled mid _ hcompiled => ?_
    refine Keeps.pure fun store hstore => ?_
    have granted (hnil : compiled = []) : law.Grants ("anyOf", .array []) := by
      obtain rfl := hcompiled.eq_nil hnil
      exact fills _ .tuple
    refine sealed_arrayFragment lawful nullable _ _
      (closed_tupleItems lawful granted fun item hitem => ?_)
    exact (hcompiled.lists.closed lawful item hitem).mono lawful (stock_le hstore)
  | anyOf options =>
    rw [Shape.compile]
    refine (keeps_compileAll lawful children base).bind fun compiled mid _ hcompiled => ?_
    refine Keeps.pure fun store hstore => ?_
    have granted (hnullable : nullable = false) (hnil : compiled = []) :
        law.Grants ("anyOf", .array []) := by
      obtain rfl := hcompiled.eq_nil hnil
      exact fills _ (.anyOf hnullable)
    refine (sealed_anyOfFragment lawful nullable granted fun o ho => ?_).withDefault lawful
      (hwritten _)
    exact (hcompiled.lists.closed lawful o ho).mono lawful (stock_le hstore)
  | oneOf options discriminator =>
    rw [Shape.compile]
    refine (keeps_compileAll lawful children base).bind fun compiled mid _ hcompiled => ?_
    have hoptions {store : Store Fragment} (hstore : mid ≤ store) :
        ∀ o ∈ compiled, law.Closed ⟨store, registered⟩ o := fun o ho =>
      (hcompiled.lists.closed lawful o ho).mono lawful (stock_le hstore)
    split
    · refine Keeps.pure fun store hstore => ?_
      refine (sealed_oneOfFragment lawful true (fun hnullable => ?_) (hoptions hstore)
        (fun v hv => ?_) fun v hv => ?_).withDefault lawful (hwritten _)
      · cases hnullable
      · cases hv
      · cases hv
    · rename_i hnullable
      cases discriminator with
      | error problem => exact Keeps.fail problem
      | ok telling =>
        refine Keeps.pure fun store hstore => ?_
        -- Every option has been compiled, so every target is stored.
        have hmaps {mapping : Fragment} (htargets : ∀ e ∈ mapping, ∃ c ∈ options,
            ∃ refId, c.refId = some refId ∧ e.2 = .string (Reference.schemaPath refId)) :
            Stock.Maps ⟨store, registered⟩ mapping := by
          intro e he
          obtain ⟨c, hc, refId, hrefId, htarget⟩ := htargets e he
          exact ⟨refId, Store.contains_of_le hstore (hcompiled.stored c hc refId hrefId), htarget⟩
        have granted (_ : false = false) (hnil : compiled = []) :
            law.Grants ("oneOf", .array []) := by
          obtain rfl := hcompiled.eq_nil hnil
          exact fills _ (.oneOf telling (Bool.eq_false_iff.mpr hnullable))
        refine (sealed_oneOfFragment lawful false granted (hoptions hstore) (fun v hv => ?_)
          fun v hv => ?_).withDefault lawful (hwritten _)
        · cases hv
          obtain ⟨name, mapping, rfl, _, htargets⟩ := wired v rfl
          exact lawful.discriminator (hmaps htargets)
        · cases hv
          obtain ⟨name, mapping, rfl, hnodup, htargets⟩ := wired v rfl
          exact closed_discriminator lawful (hmaps htargets) hnodup
  | allOf parts =>
    rw [Shape.compile]
    refine (keeps_compileAll lawful children base).bind fun compiled mid _ hcompiled => ?_
    refine Keeps.pure fun store hstore => ?_
    have granted (hnil : compiled = []) : law.Grants ("allOf", .array []) := by
      obtain rfl := hcompiled.eq_nil hnil
      exact fills _ .allOf
    refine (sealed_allOfFragment lawful nullable granted fun p hp => ?_).withDefault lawful
      (hwritten _)
    exact (hcompiled.lists.closed lawful p hp).mono lawful (stock_le hstore)
  | dictionary value =>
    rw [Shape.compile]
    refine (children value List.mem_cons_self base .reference).bind fun compiled mid _ hvalue => ?_
    refine Keeps.pure fun store hstore => ?_
    have hclosed := (hvalue.sealed.mono lawful (stock_le hstore)).object lawful
    exact (sealed_dictionaryFragment lawful nullable hclosed).withDefault lawful (hwritten _)
  | inline site =>
    rw [Shape.compile]
    exact (children site List.mem_cons_self base .fragment).imp fun _ _ h => h.sealed
  | invalid problem =>
    rw [Shape.compile]
    exact Keeps.fail problem

theorem sealed_keys {keys : Fragment} (hnodup : (Entries.keys keys).Nodup)
    (h : ∀ e ∈ keys, (∃ text, e = ("description", .string text))
      ∨ ∃ fields, law.Clean (.object fields) ∧ e ∈ fields) (stock : Stock) :
    law.Sealed stock keys := by
  have hmember : ∀ e ∈ keys, law.Seals stock e ∧ law.Closed stock e.2 := by
    intro e he
    rcases h e he with ⟨text, rfl⟩ | ⟨fields, hfields, hmem⟩
    · exact ⟨lawful.written stock (.part _ (by decide)), closed_string text⟩
    · have hsealed := hfields.sealed lawful stock
      exact ⟨hsealed.seals e hmem, hsealed.closed e hmem⟩
  exact ⟨lawful.keys_of_nodup hnodup, fun e he => (hmember e he).1, fun e he => (hmember e he).2⟩

/-- What stands for the shape of a wired site is sealed, if its children are answered well. -/
theorem keeps_body {t : Site} (here : t.Wired law.Binds law.Keys law.Clean) (fills : law.Fills t)
    (children : ∀ c ∈ t.children, law.Compiles registered dialect c) (beside : Bool)
    (base : Store Fragment) : law.Keeps registered base law.Sealed (t.body dialect beside) := by
  cases hover : t.override? with
  | some type =>
    have hmem : ("type", type) ∈ t.keys := Entries.mem_of_get? hover
    rw [Site.body_of_override beside hover]
    refine Keeps.pure fun store _ => ?_
    have hkeys := sealed_keys lawful here.distinct here.keys ⟨store, registered⟩
    split
    · refine sealed_typeKeys lawful t.nullable (fun v hv => ?_) fun v hv => ?_
      · cases hv
        exact hkeys.seals _ hmem
      · cases hv
        exact hkeys.closed _ hmem
    · exact (Sealed.nil lawful).insert lawful (hkeys.seals _ hmem) (hkeys.closed _ hmem)
  | none =>
    rw [Site.body_of_shape beside hover]
    rw [Site.children_eq hover] at children
    exact keeps_shape lawful here.shape t.nullable (fun key hhollow => fills key ⟨hover, hhollow⟩)
      here.default children base

/-- What compiling a site answers and stores satisfies the law, if every site that it visits is
wired, and the law grants the compositions without members that these sites write. -/
theorem compiles (t : Site) (wired : ∀ u, t.Reaches u → u.Wired law.Binds law.Keys law.Clean)
    (fills : ∀ u, t.Reaches u → law.Fills u) : law.Compiles registered dialect t := by
  induction t using Site.induction with
  | step t ih =>
    have here := wired t (.refl t)
    have children : ∀ c ∈ t.children, law.Compiles registered dialect c := fun c hc =>
      ih c hc (fun u hu => wired u (.step hc hu)) fun u hu => fills u (.step hc hu)
    have hkeys := sealed_keys lawful here.distinct here.keys
    have hbody := keeps_body lawful here (fills t (.refl t)) children
    -- The delta beside a reference is a part of the keys and of what was compiled.
    have hsaid (stored : Fragment) (stock : Stock) : law.Sealed stock (t.said stored) :=
      (hkeys stock).filter lawful _
    intro base reply store answer after hbase h
    cases Site.compile_eq_ok_iff.mp h with
    | retyped hname hget _ =>
      have hin := Store.contains_of_get? hget
      refine ⟨le_refl _, id, .of_named hname hin ?_⟩
      exact sealed_referenceAnd lawful (fun _ => hin) (hsaid _ _)
    | reused hname hget _ hend =>
      obtain ⟨hle, hsettled, hsealed⟩ := hbody true base store _ after hbase hend
      have hin := Store.contains_of_le hle (Store.contains_of_get? hget)
      refine ⟨hle, hsettled, .of_named hname hin ?_⟩
      refine sealed_referenceWith lawful (fun _ => hin) (Sealed.filter lawful ?_ _)
      exact (hsealed.filter lawful _).extend lawful (hsaid _ _)
    | unnamed hname hend =>
      obtain ⟨hle, hsettled, hsealed⟩ := hbody false base store _ after hbase hend
      refine ⟨hle, hsettled, hsealed.overlay lawful (hkeys _), fun refId hrefId => ?_⟩
      rw [hname] at hrefId
      cases hrefId
    | taken hname _ hend hget =>
      obtain ⟨hle, hsettled, hsealed⟩ := hbody false base store _ after hbase hend
      exact ⟨hle, hsettled, .of_named hname (Store.contains_of_get? hget)
        (hsealed.overlay lawful (hkeys _))⟩
    | @stored name body mid hname _ hmid _ =>
      obtain ⟨hle, hsettled, hsealed⟩ := hbody false base store body mid hbase hmid
      have hresult := hsealed.overlay lawful (hkeys _)
      have hle' := Store.le_define mid name (Fragment.overlay body t.keys)
      have hin := Store.contains_define mid name (Fragment.overlay body t.keys)
      refine ⟨le_trans hle hle', fun h => (hsettled h).define name hresult,
        .of_named hname hin ?_⟩
      split
      · exact sealed_toSchema lawful fun _ => hin
      · exact hresult.mono lawful (stock_le hle')

end Compile

end OpenApi.Law
