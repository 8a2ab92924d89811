/-
# OpenApi.Proofs.LawfulGeneration -- whole outputs satisfy every lawful law

A generation obeys a law (`Generation.Obeys`) if everything that it has compiled so far is sealed
for what it has stored so far. One step keeps this, since the stock only grows, and so does a
run. Then the output, in which compiled components are written over finished ones, is closed.
-/
import OpenApi.Proofs.LawfulOperations
import OpenApi.Proofs.Output

namespace OpenApi

/-- A definition whose schemas are acceptable and whose values are as the law grants them. -/
structure Law.Admits (law : Law) (d : Definition) : Prop where
  schemas : ∀ s ∈ d.schemas, law.Accepts s
  given : ∀ value ∈ d.given, law.Clean value

namespace Generation

/-- The components stored so far. -/
def stock (generation : Generation) : Stock := ⟨generation.schemas, generation.parameters⟩

/-- Everything compiled so far satisfies a law. -/
structure Obeys (law : Law) (generation : Generation) : Prop where
  schemas : law.Settled generation.parameters generation.schemas
  parameters : ∀ e ∈ generation.parameters.entries, law.Sealed generation.stock e.2
  paths : ∀ e ∈ generation.paths, law.Sealed generation.stock e.2
  webhooks : ∀ e ∈ generation.webhooks, law.Sealed generation.stock e.2
  components : ∀ c ∈ generation.components, law.Clean (.object [(c.name, c.value)])

variable {law : Law} {dialect : Dialect} {generation after : Generation}

/-! ## Steps and runs -/

section Steps

variable (lawful : law.Lawful dialect) (free : ∀ keys, law.Keys keys)

include lawful

theorem Obeys.of_le (h : generation.Obeys law) {schemas parameters : Store Fragment}
    (hs : generation.schemas ≤ schemas) (hp : generation.parameters ≤ parameters)
    (hschemas : law.Settled parameters schemas)
    (hparameters : ∀ e ∈ parameters.entries, law.Sealed ⟨schemas, parameters⟩ e.2) :
    { generation with schemas := schemas, parameters := parameters }.Obeys law := by
  have hle : generation.stock ≤ ⟨schemas, parameters⟩ := ⟨hs, hp⟩
  exact ⟨hschemas, hparameters, fun e he => (h.paths e he).mono lawful hle,
    fun e he => (h.webhooks e he).mono lawful hle, h.components⟩

theorem Obeys.of_keeps (h : generation.Obeys law) {α : Type} {act : Compile α} {a : α}
    {good : Stock → α → Prop} {schemas : Store Fragment}
    (hact : law.Keeps generation.parameters generation.schemas good act)
    (hrun : act generation.schemas = .ok (a, schemas)) :
    { generation with schemas := schemas }.Obeys law
      ∧ good { generation with schemas := schemas }.stock a := by
  obtain ⟨hle, hsettled, hgood⟩ :=
    hact generation.schemas a schemas (le_refl _) hrun
  have hstock : generation.stock ≤ ⟨schemas, generation.parameters⟩ := ⟨hle, le_refl _⟩
  refine ⟨h.of_le lawful hle (le_refl _) (hsettled h.schemas) fun e he => ?_, hgood⟩
  exact (h.parameters e he).mono lawful hstock

theorem sealed_put {stock : Stock} {items : PathItems} (h : ∀ e ∈ items, law.Sealed stock e.2)
    {operation : Fragment} (ho : law.Sealed stock operation) (path : String) (method : Method) :
    ∀ e ∈ items.put path method operation, law.Sealed stock e.2 := by
  have hitem : law.Sealed stock ((Entries.get? items path).getD []) := by
    cases hget : Entries.get? items path with
    | none => exact Law.Sealed.nil lawful
    | some item => exact h (path, item) (Entries.mem_of_get? hget)
  intro e he
  rcases Entries.mem_insert he with rfl | he
  · exact hitem.write lawful (.method method _) (ho.object lawful)
  · exact h e he

include free

/-- One step keeps a generation to the law. -/
theorem Obeys.step (h : generation.Obeys law) {d : Definition} (hd : law.Admits d)
    (hstep : StepsTo dialect generation d after) : after.Obeys law := by
  cases hstep with
  | plain hact =>
    have hs := hd.schemas _ List.mem_cons_self
    exact (h.of_keeps lawful (hs.compiles lawful generation.schemas .fragment) hact).1
  | schema hact =>
    have hs := hd.schemas _ List.mem_cons_self
    exact (h.of_keeps lawful (hs.compiles lawful generation.schemas .fragment) hact).1
  | parameter hact =>
    rename_i s schemas parameters
    have hs := hd.schemas s List.mem_cons_self
    obtain ⟨hobeys, hle, hentries⟩ :=
      h.of_keeps lawful (Law.keeps_register lawful hs generation.schemas) hact
    -- The schemas were sealed for fewer parameters, and stay sealed for more.
    have hstock (store : Store Fragment) :
        Stock.mk store generation.parameters ≤ ⟨store, parameters⟩ := ⟨le_refl _, hle⟩
    refine hobeys.of_le lawful (le_refl _) hle (fun earlier e later hsplit => ?_) fun e he => ?_
    · exact (hobeys.schemas earlier e later hsplit).mono lawful (hstock _)
    · rcases hentries e he with hold | hnew
      · exact (hobeys.parameters e hold).mono lawful (hstock _)
      · exact hnew.mono lawful (hstock _)
  | component c =>
    refine ⟨h.schemas, h.parameters, h.paths, h.webhooks, fun c' hc' => ?_⟩
    rcases List.mem_append.mp hc' with hc' | hc'
    · exact h.components c' hc'
    · rw [List.mem_singleton.mp hc']
      exact hd.given _ List.mem_cons_self
  | route hact =>
    obtain ⟨hobeys, hoperation⟩ :=
      h.of_keeps lawful (Law.keeps_route lawful free hd.schemas hd.given generation.schemas) hact
    exact ⟨hobeys.schemas, hobeys.parameters, sealed_put lawful hobeys.paths hoperation _ _,
      hobeys.webhooks, hobeys.components⟩
  | webhook _ hact =>
    obtain ⟨hobeys, hoperation⟩ :=
      h.of_keeps lawful (Law.keeps_route lawful free hd.schemas hd.given generation.schemas) hact
    exact ⟨hobeys.schemas, hobeys.parameters, hobeys.paths,
      sealed_put lawful hobeys.webhooks hoperation _ _, hobeys.components⟩

/-- A run keeps a generation to the law. -/
theorem Obeys.steps {definitions : List Definition} (h : generation.Obeys law)
    (hd : ∀ d ∈ definitions, law.Admits d)
    (hrun : generation.steps dialect definitions = .ok after) : after.Obeys law := by
  induction definitions generalizing generation with
  | nil =>
    cases hrun
    exact h
  | cons d rest ih =>
    obtain ⟨next, hstep, hrest⟩ := steps_cons_eq_ok hrun
    exact ih (h.step lawful free (hd d List.mem_cons_self) hstep)
      (fun d' hd' => hd d' (List.mem_cons_of_mem _ hd')) hrest

omit lawful free in
theorem obeys_empty : Obeys law {} where
  schemas := Law.settled_empty
  parameters _ he := absurd he List.not_mem_nil
  paths _ he := absurd he List.not_mem_nil
  webhooks _ he := absurd he List.not_mem_nil
  components _ hc := absurd hc List.not_mem_nil

/-- What is generated from definitions that a law admits obeys the law. -/
theorem obeys_of_ofDefinitions {definitions : List Definition}
    (hd : ∀ d ∈ definitions, law.Admits d)
    (hrun : ofDefinitions dialect definitions = .ok generation) : generation.Obeys law :=
  obeys_empty.steps lawful free (fun d h => hd d (Definition.mem_byRank.mp h)) hrun

end Steps

/-! ## Outputs -/

section Outputs

variable (lawful : law.Lawful dialect) (free : ∀ keys, law.Keys keys)

include lawful

theorem sealed_grouped {components : List RawComponent} (stock : Stock)
    (h : ∀ c ∈ components, law.Clean (.object [(c.name, c.value)])) :
    ∀ g ∈ RawComponent.grouped components, law.Sealed stock g.2 := by
  have hfold : ∀ groups : Entries Fragment, (∀ g ∈ groups, law.Sealed stock g.2) →
      ∀ g ∈ components.foldl (fun groups component =>
        Entries.insert groups component.group (Entries.insert
          ((Entries.get? groups component.group).getD []) component.name component.value)) groups,
        law.Sealed stock g.2 := by
    -- The groups that were filled before a component are the invariant of the fold.
    induction components with
    | nil => exact fun _ hgroups => hgroups
    | cons c rest ih =>
      intro groups hgroups
      refine ih (fun c' hc' => h c' (List.mem_cons_of_mem _ hc')) _ fun g hg => ?_
      have hgroup : law.Sealed stock ((Entries.get? groups c.group).getD []) := by
        cases hget : Entries.get? groups c.group with
        | none => exact Law.Sealed.nil lawful
        | some group => exact hgroups (c.group, group) (Entries.mem_of_get? hget)
      have hclean := (h c List.mem_cons_self).sealed lawful stock
      rcases Entries.mem_insert hg with rfl | hg
      · exact hgroup.insert lawful (hclean.seals _ List.mem_cons_self)
          (hclean.closed _ List.mem_cons_self)
      · exact hgroups g hg
  exact hfold [] fun g hg => by cases hg

/-- A group of components may stand under its name. -/
def Placed (law : Law) (stock : Stock) (g : String × Fragment) : Prop :=
  law.Allows stock (g.1, .object g.2) ∧ law.Closed stock (.object g.2)

include free

theorem placed_overGroup {stock : Stock} {groups : Entries Fragment}
    (h : ∀ g ∈ groups, Placed law stock g) {name : String} (hname : name ∈ partKeys)
    {compiled : Store Fragment} (hc : ∀ e ∈ compiled.entries, law.Sealed stock e.2) :
    ∀ g ∈ overGroup groups name compiled, Placed law stock g := by
  intro g hg
  rcases Entries.mem_insert hg with rfl | hg
  · have hgroup : law.Closed stock (.object ((Entries.get? groups name).getD [])) := by
      cases hget : Entries.get? groups name with
      | none => exact (Law.Sealed.nil lawful).object lawful
      | some group => exact (h (name, group) (Entries.mem_of_get? hget)).2
    obtain ⟨⟨_, hallows⟩, hclosed⟩ := Json.everywhere_object.mp hgroup
    have hmember : ∀ e ∈ Entries.extend ((Entries.get? groups name).getD [])
        (Entries.mapValues Json.object compiled.entries),
        law.Allows stock e ∧ law.Closed stock e.2 := by
      intro e he
      rcases Entries.mem_extend he with he | he
      · obtain ⟨fragment, hmem, hvalue⟩ := Entries.mem_mapValues.mp he
        have hsealed := hc _ hmem
        obtain ⟨key, value⟩ := e
        cases hvalue
        exact ⟨lawful.placed key hsealed.seals, hsealed.object lawful⟩
      · exact ⟨hallows e he, hclosed e he⟩
    refine ⟨lawful.allows (lawful.written stock (.part _ hname)), ?_⟩
    exact Json.everywhere_object.mpr
      ⟨⟨free _, fun e he => (hmember e he).1⟩, fun e he => (hmember e he).2⟩
  · exact h g hg

theorem Obeys.closed_componentGroups (h : generation.Obeys law) :
    law.Closed generation.stock (.object generation.componentGroups) := by
  have hgiven := sealed_grouped lawful generation.stock h.components
  have hgroups : ∀ g ∈ RawComponent.grouped generation.components,
      Placed law generation.stock g := fun g hg =>
    ⟨lawful.placed g.1 (hgiven g hg).seals, (hgiven g hg).object lawful⟩
  have hschemas := placed_overGroup lawful free hgroups (by decide : "schemas" ∈ partKeys)
    fun e he => h.schemas.sealed lawful he
  have hall := placed_overGroup lawful free hschemas (by decide : "parameters" ∈ partKeys)
    h.parameters
  refine Json.everywhere_object.mpr ⟨⟨free _, ?_⟩, ?_⟩ <;> rintro ⟨key, value⟩ he <;>
    obtain ⟨group, hmem, hvalue⟩ := Entries.mem_mapValues.mp he <;> cases hvalue
  · exact (hall _ hmem).1
  · exact (hall _ hmem).2

theorem closed_pathItems {stock : Stock} {items : PathItems}
    (h : ∀ e ∈ items, law.Sealed stock e.2) : law.Closed stock (.object items.toFragment) := by
  refine Law.Holds.closed lawful (free _) fun e he => ?_
  obtain ⟨item, hmem, hvalue⟩ := Entries.mem_mapValues.mp he
  exact ⟨item, hvalue.symm, h _ hmem⟩

/-- Everything that an obedient generation puts out satisfies the law. -/
theorem Obeys.closed_output (h : generation.Obeys law) :
    law.Closed generation.stock (.object (generation.writeOver [])) := by
  have hempty : law.Sealed generation.stock [] := Law.Sealed.nil lawful
  have hcomponents := hempty.write lawful
    (.part _ (by decide : "components" ∈ partKeys)) (h.closed_componentGroups lawful free)
  have hpaths := hcomponents.write lawful (.part _ (by decide : "paths" ∈ partKeys))
    (closed_pathItems lawful free h.paths)
  refine Law.Sealed.object lawful ?_
  unfold writeOver
  dsimp only
  split
  · exact hpaths
  · exact hpaths.write lawful (.part _ (by decide)) (closed_pathItems lawful free h.webhooks)

end Outputs

end Generation

end OpenApi
