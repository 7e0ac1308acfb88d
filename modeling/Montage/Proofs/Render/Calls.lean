import Mathlib.Data.Set.Finite.Lattice
import Montage.Proofs.Config.Fields
import Montage.Proofs.Config.Stock
import Montage.Proofs.Render.Recursion

/-!
What can come up below a config. Nested configs are read from the config, the data and the context that are
given, and from what queries find in them. Main statement: for configs and data that are given, finitely
many nested configs can come up; so a line of calls that does not end comes back to a config that is on it.
-/

namespace Montage

open Json (Value Atom Stock)

variable {F α : Type} [Medium α]

/-! The context of an item of a list. -/

/-- An item of a list below an item of another list has the place of the inner one in its context. -/
theorem ListItem.context_context (i j : ListItem) (outer : Value) :
    i.context (j.context outer) = i.context outer := by
  have horder : "index" < "sliceIndex" := by decide
  simp only [context]
  rw [← Fields.insert_comm (ne_of_lt horder), Fields.insert_insert, Fields.insert_insert]

/-! What can come up. -/

/-- A config that is read from what can be made, or is that of an item of a list. -/
def Config.ReadFrom (k : Stock) (c : Config F) : Prop :=
  ∃ v, k.Makes v ∧ (c ∈ (RawConfig.ofJson v).normalize Expression.engine ∨
    c = (Config.ofView "list-item").withProp "content" (.config (.ofJson v)))

/-- An item of a list that can be made. -/
structure ListItem.Within (k : Stock) (i : ListItem) : Prop where
  items : k.Makes (.arr i.items)
  start : i.start ≤ k.weight
  stop : i.stop ≤ k.weight
  index : i.index ≤ k.weight

/-- Data that can be made, in the outer context or in that of an item of a list. -/
structure World.Surroundings.Within (k : Stock) (outer : Value) (around : World.Surroundings) :
    Prop where
  data : k.Makes around.data
  context : around.context = outer ∨ ∃ i : ListItem, i.Within k ∧ around.context = i.context outer
  item : ∀ i, around.item = some i → i.Within k

/-- A config that can come up in such surroundings. -/
def Brief.Within (α : Type) [Medium α] (registry : Registry F) (k : Stock) (outer : Value)
    (b : Brief F) : Prop :=
  ∃ c around, c.ReadFrom k ∧ around.Within k outer ∧ b = Brief.ofConfig α registry around c

section Finite

variable {k : Stock} (h : k.atoms.Finite)
include h

theorem finite_readFrom : {c : Config F | c.ReadFrom k}.Finite := by
  refine ((Stock.finite_makes h).biUnion fun v _ =>
    ((RawConfig.ofJson (F := F) v).normalize Expression.engine).finite_toSet.union
      (Set.finite_singleton ((Config.ofView "list-item").withProp "content"
        (.config (.ofJson v))))).subset ?_
  rintro c ⟨v, hv, hc⟩
  exact Set.mem_biUnion hv hc

theorem finite_items : {i : ListItem | i.Within k}.Finite := by
  have hplaces := Set.finite_le_nat k.weight
  refine (((Stock.finite_makes h).prod (hplaces.prod (hplaces.prod hplaces))).preimage
    (f := fun i : ListItem => (Value.arr i.items, i.start, i.stop, i.index)) ?_).subset
    fun i hi => ⟨hi.items, hi.start, hi.stop, hi.index⟩
  rintro ⟨items, start, stop, index⟩ _ ⟨items', start', stop', index'⟩ _ he
  simp_all

theorem finite_surroundings (outer : Value) :
    {around : World.Surroundings | around.Within k outer}.Finite := by
  have hitems := finite_items h
  have hcontexts := (Set.finite_singleton outer).union (hitems.image (ListItem.context · outer))
  have hplaced := (Set.finite_singleton none).union (hitems.image some)
  refine (((Stock.finite_makes h).prod (hcontexts.prod hplaced)).preimage
    (f := fun around : World.Surroundings => (around.data, around.context, around.item)) ?_).subset ?_
  · rintro ⟨data, context, item⟩ _ ⟨data', context', item'⟩ _ he
    simp_all
  · rintro ⟨data, context, item⟩ hw
    refine ⟨hw.data, ?_, ?_⟩
    · exact hw.context.imp_right fun ⟨i, hi, he⟩ => ⟨i, hi, he.symm⟩
    · cases item with
      | none => exact .inl rfl
      | some i => exact .inr ⟨i, hw.item i rfl, rfl⟩

/-- Finitely many configs can come up. -/
theorem finite_within (α : Type) [Medium α] (registry : Registry F) (outer : Value) :
    {b : Brief F | b.Within α registry k outer}.Finite := by
  refine ((finite_readFrom h).image2 (fun c around => Brief.ofConfig α registry around c)
    (finite_surroundings h outer)).subset ?_
  rintro b ⟨c, around, hc, haround, rfl⟩
  exact ⟨c, hc, around, haround, rfl⟩

end Finite

/-! What comes up. -/

/-- A stock that suffices where this is the context. -/
structure Serves (k : Stock) (n : Nat) (outer : Value) : Prop extends k.Suffices n where
  makes : k.Makes outer
  room : outer.weight + 3 ≤ k.weight
  names : 10 ≤ n

/-- There is one for each config, data and context. -/
theorem exists_serves (config data outer : Value) :
    ∃ k n, Serves k n outer ∧ k.Makes config ∧ k.Makes data := by
  obtain ⟨k, n, hk, ⟨hweight, hn⟩, hall⟩ := exists_suffices [config, data, outer] (outer.weight + 10)
  refine ⟨k, n, ⟨hk, hall _ (by simp), by omega, by omega⟩, hall _ (by simp), hall _ (by simp)⟩

namespace Serves

variable {k : Stock} {n : Nat} {outer data context : Value} (h : Serves k n outer)
include h

/-- The context of an item of a list can be made. -/
theorem makes_context {i : ListItem} (hi : i.Within k) : k.Makes (i.context outer) := by
  have hfields : ∀ fields : Fields Value, Value.weightOfFields fields ≤ outer.weight →
      (∀ a ∈ Value.atomsOfFields fields, a ∈ k.atoms) →
      k.Makes (.obj (Fields.insert (Fields.insert fields "index" (.ofNat i.index)) "sliceIndex"
        (.ofNat i.sliceIndex))) := by
    intro fields hweight hatoms
    have hroom := h.room
    have hinner := Value.weightOfFields_insert_le fields "index" (.ofNat i.index)
    have houter := Value.weightOfFields_insert_le (Fields.insert fields "index" (.ofNat i.index))
      "sliceIndex" (.ofNat i.sliceIndex)
    have hone : ∀ m, (Value.ofNat m).weight = 1 := fun _ => rfl
    have hname : ∀ s : String, s.length ≤ 10 → .text s ∈ k.atoms := fun s hs =>
      (h.texts s).mpr (Nat.le_trans hs h.names)
    have hnumber : ∀ m ≤ i.index, ∀ a ∈ (Value.ofNat m).atoms, a ∈ k.atoms := fun m hm =>
      List.forall_mem_singleton.mpr (h.places m (Nat.le_trans hm hi.index))
    refine ⟨?_, fun a ha => ?_⟩
    · rw [Value.weight]
      simp only [hone] at hinner houter
      omega
    · rcases List.mem_cons.mp (Value.atomsOfFields_insert _ _ _ ha) with rfl | ha
      · exact hname _ (by decide)
      · rcases List.mem_append.mp ha with ha | ha
        · exact hnumber _ (Nat.sub_le ..) a ha
        · rcases List.mem_cons.mp (Value.atomsOfFields_insert _ _ _ ha) with rfl | ha
          · exact hname _ (by decide)
          · rcases List.mem_append.mp ha with ha | ha
            · exact hnumber _ (Nat.le_refl _) a ha
            · exact hatoms a ha
  unfold ListItem.context
  split
  · exact hfields _ (Nat.le_succ _) h.makes.atoms
  · exact hfields [] (Nat.zero_le _) fun a ha => absurd ha List.not_mem_nil

theorem makes_of_within {around : World.Surroundings} (haround : around.Within k outer) :
    k.Makes around.context := by
  rcases haround.context with he | ⟨i, hi, he⟩
  · exact he ▸ h.makes
  · exact he ▸ h.makes_context hi

/-- What a short query comes to can be made. -/
theorem makes_answer {q : String} (hq : q.length ≤ n) (hdata : k.Makes data)
    (hcontext : k.Makes context) : k.Makes (Expression.engine.query q data context).value := by
  have hlength : q.toList.length ≤ n := Nat.le_trans (Nat.le_of_eq String.length_toList) hq
  cases hresult : Expression.evaluate q.toList data context with
  | error e =>
    have hvalue : (Expression.engine.query q data context).value = .null := by
      simp [Answer.value, Expression.engine, Answer.now, hresult]
    exact hvalue ▸ hdata.part (.null data)
  | ok v =>
    have hvalue : (Expression.engine.query q data context).value = v := by
      simp [Answer.value, Expression.engine, Answer.now, hresult]
    exact hvalue ▸ h.yields ((Expression.yields_of_evaluate hresult).mono hlength) hdata hcontext

variable {s : Setup F α} (hengine : s.engine = Expression.engine) {sub : Subject F}
  (hconfig : sub.config.SuppliedBy k n) (hdata : k.Makes sub.data) (hcontext : k.Makes sub.context)
include hengine hconfig hdata hcontext

theorem makes_produced : k.Makes (sub.produced s) := by
  unfold Subject.produced
  split
  · exact hdata
  · rename_i q hq
    have hquery := hconfig.data q hq
    cases q with
    | text expression =>
      rw [Setup.ask, hengine]
      exact h.makes_answer hquery hdata hcontext
    | value v => exact hquery
    | function f => exact hquery.elim

theorem suppliedBy_given : ∀ f ∈ sub.given s, f.2.SuppliedBy k := by
  have hproduced := h.makes_produced hengine hconfig hdata hcontext
  refine List.forall_mem_map.mpr fun f hf => ?_
  have hprop := hconfig.props f hf
  simp only [Subject.answered]
  split
  · exact hprop
  · rename_i q hq
    refine .inl ⟨_, rfl, ?_⟩
    rw [hengine]
    refine h.makes_answer ?_ hproduced hcontext
    rcases hprop with ⟨v, hv, hmakes⟩ | ⟨v, hv, _⟩
    · rw [hv] at hq
      cases v with
      | str t =>
        refine Nat.le_trans ?_ (h.length_le hmakes)
        rw [← String.length_toList (s := t)]
        simp only [PropValue.query?, queryText?] at hq
        split at hq
        · rename_i r ht
          rw [ht, ← Option.some.inj hq, String.length_ofList]
          exact Nat.le_succ _
        · cases hq
      | _ => cases hq
    · rw [hv] at hq
      cases hq

end Serves

theorem config_of_suppliedBy {k : Stock} {ps : Props F} {key : String} {raw : RawConfig F}
    (h : ∀ f ∈ ps, f.2.SuppliedBy k) (hraw : Props.config? ps key = some raw) :
    ∃ v, k.Makes v ∧ raw = .ofJson v := by
  unfold Props.config? at hraw
  split at hraw
  · rename_i hget
    obtain ⟨f, hf, hv⟩ := Fields.mem_of_get? hget
    rcases h f hf with ⟨v, hjson, hmakes⟩ | ⟨v, hconfig, _⟩
    · rw [hv] at hjson
      exact ⟨v, hmakes, by rw [← PropValue.json.inj hjson, Option.some.inj hraw]⟩
    · rw [hv] at hconfig
      cases hconfig
  · rename_i hget
    obtain ⟨f, hf, hv⟩ := Fields.mem_of_get? hget
    rcases h f hf with ⟨v, hjson, _⟩ | ⟨v, hconfig, hmakes⟩
    · rw [hv] at hjson
      cases hjson
    · rw [hv] at hconfig
      exact ⟨v, hmakes, (Option.some.inj hraw).symm.trans (PropValue.config.inj hconfig)⟩
  · cases hraw

/-- A builtin has the config among its props rendered, or one for each shown item of its data. -/
theorem Builtin.calls_cases {s : Setup F α} {registry : Registry F} {call : Call F} {b' : Brief F}
    {handle : F → Value → Value → List Event} (builtin : Builtin) (hprops : Props.AreData call.props)
    {step : Step F α} (hstep : step ∈ builtin.steps handle call) (hb' : b' ∈ step.calls s registry) :
    (∃ raw, Props.config? call.props "content" = some raw ∧
      b' ∈ raw.briefs s registry ⟨call.data, call.context, call.item⟩) ∨
    ∃ items stop i, call.data = .arr items ∧ stop ≤ items.length ∧ i ∈ World.listItems items 0 stop ∧
      b' = Brief.ofConfig α registry ⟨i.1, i.2.context call.context, some i.2⟩
        (itemConfig call.props) := by
  have hleaf : ∀ r, step = .plant r → False := by
    rintro r rfl
    cases hb'
  cases builtin with
  | text => exact (hleaf _ (List.mem_singleton.mp hstep)).elim
  | value => exact (hleaf _ (List.mem_singleton.mp hstep)).elim
  | content =>
    simp only [steps] at hstep
    split at hstep
    · rename_i raw hraw
      rw [List.mem_singleton.mp hstep] at hb'
      exact .inl ⟨raw, hraw, hb'⟩
    · cases hstep
  | list =>
    simp only [steps] at hstep
    split at hstep
    · rename_i items hitems
      rw [List.mem_singleton.mp hstep] at hb'
      obtain ⟨i, hi, hb'⟩ := List.mem_flatMap.mp hb'
      simp only [Page.start, Nat.zero_min] at hi
      refine .inr ⟨items, _, i, hitems, ?_, hi, List.mem_singleton.mp hb'⟩
      unfold Page.stop
      split
      · exact Nat.le_refl _
      · exact Nat.min_le_right ..
    · cases hstep
  | button =>
    simp only [steps, hprops.handler] at hstep
    exact (hleaf _ (List.mem_singleton.mp hstep)).elim

theorem mem_listItems {items : List Value} {start stop : Nat} {i : Value × ListItem}
    (h : i ∈ World.listItems items start stop) :
    i.1 ∈ items ∧ i.2.items = items ∧ i.2.start = start ∧ i.2.stop = stop ∧ i.2.index < stop := by
  obtain ⟨x, hx, hi⟩ := List.mem_filterMap.mp h
  obtain ⟨v, hv, rfl⟩ := Option.map_eq_some_iff.mp hi
  have := List.mem_range.mp hx
  exact ⟨List.mem_of_getElem? hv, rfl, rfl, rfl, by simp only; omega⟩

theorem Config.ReadFrom.suppliedBy {k : Stock} {n : Nat} {c : Config F} (hk : k.Suffices n)
    (h : c.ReadFrom k) : c.SuppliedBy k n := by
  obtain ⟨v, hv, hc | rfl⟩ := h
  · exact (RawConfig.provides_suppliedBy hk).normalize v hv c hc
  · exact (suppliedBy_of_bare rfl rfl).withProp (.inr ⟨v, rfl, hv⟩)

section Calling

variable {k : Stock} {n : Nat} {outer : Value} (h : Serves k n outer)
include h

theorem readFrom_itemConfig {ps : Props F} (hps : ∀ f ∈ ps, f.2.SuppliedBy k) :
    (itemConfig ps).ReadFrom k := by
  unfold itemConfig
  cases hraw : Props.config? ps "item" with
  | none => exact ⟨.str "text", h.str (Nat.le_trans (by decide) h.names), .inr rfl⟩
  | some raw =>
    obtain ⟨v, hv, rfl⟩ := config_of_suppliedBy hps hraw
    exact ⟨v, hv, .inr rfl⟩

omit h in
/-- The items of a list that can be made can come up. -/
theorem within_item {around : World.Surroundings} (haround : around.Within k outer)
    {items : List Value} {stop : Nat} (hitems : k.Makes (.arr items)) (hstop : stop ≤ items.length)
    {i : Value × ListItem} (hi : i ∈ World.listItems items 0 stop) :
    World.Surroundings.Within k outer ⟨i.1, i.2.context around.context, some i.2⟩ := by
  obtain ⟨hmem, hlist, hstart, hend, hindex⟩ := mem_listItems hi
  have hlength : items.length ≤ k.weight := Nat.le_trans (Value.length_le_weight items)
    (Nat.le_trans (Nat.le_succ _) hitems.weight)
  have hwithin : i.2.Within k :=
    ⟨hlist ▸ hitems, hstart ▸ Nat.zero_le _, by omega, by omega⟩
  refine ⟨hitems.part (.item hmem), .inr ⟨i.2, hwithin, ?_⟩, fun j hj => Option.some.inj hj ▸ hwithin⟩
  rcases haround.context with he | ⟨j, _, he⟩
  · rw [he]
  · rw [he, ListItem.context_context]

variable {s : Setup F α} {registry : Registry F} (hengine : s.engine = Expression.engine)
include hengine

/-- What is called by a config that can come up can come up. -/
theorem within_of_calls {b b' : Brief F} (hb : b.Within α registry k outer) (hplain : b.IsPlain)
    (hcalls : b.Calls s registry b') : b'.Within α registry k outer := by
  obtain ⟨c, around, hc, haround, rfl⟩ := hb
  obtain ⟨_, painter, hpainter, step, hstep, hb'⟩ := hcalls
  obtain ⟨builtin, rfl⟩ := hplain.painter painter hpainter
  let sub := (Brief.ofConfig α registry around c).subject
  have htransform : sub.transform = none := hplain.transform
  have hconfig : sub.config.SuppliedBy k n := (hc.suppliedBy h.toSuffices).ensureView
  have hcontext : k.Makes sub.context := h.makes_of_within haround
  have hdata : k.Makes (sub.produced s) := h.makes_produced hengine hconfig haround.data hcontext
  have hprops : ∀ f ∈ (sub.prepared s).props, f.2.SuppliedBy k := by
    have hgiven : (sub.prepared s).props = sub.given s := by
      simp only [Subject.prepared, Subject.reshaped, htransform]
    rw [hgiven]
    exact h.suppliedBy_given hengine hconfig haround.data hcontext
  rcases builtin.calls_cases (Subject.areData_prepared hplain.config htransform s) hstep hb' with
    ⟨raw, hraw, hb'⟩ | ⟨items, stop, i, hitems, hstop, hi, rfl⟩
  · obtain ⟨v, hv, rfl⟩ := config_of_suppliedBy hprops hraw
    obtain ⟨c', hc', rfl⟩ := List.mem_map.mp hb'
    exact ⟨c', ⟨sub.produced s, around.context, around.item⟩, ⟨v, hv, .inl (hengine ▸ hc')⟩,
      ⟨hdata, haround.context, haround.item⟩, rfl⟩
  · have hitems : sub.produced s = .arr items := hitems
    exact ⟨_, _, readFrom_itemConfig h hprops, within_item haround (hitems ▸ hdata) hstop hi, rfl⟩

/-- Finitely many configs come up below one that can come up. -/
theorem finite_below (hregistry : registry.IsPlain) {b : Brief F} (hb : b.Within α registry k outer)
    (hplain : b.IsPlain) : {b' | Relation.ReflTransGen (Brief.Calls s registry) b b'}.Finite := by
  refine (finite_within h.finite α registry outer).subset fun b' hb' => ?_
  suffices hall : b'.Within α registry k outer ∧ b'.IsPlain from hall.1
  induction hb' with
  | refl => exact ⟨hb, hplain⟩
  | tail _ hcall ih => exact ⟨within_of_calls h hengine ih.1 ih.2 hcall, ih.2.calls hregistry hcall⟩

end Calling

/-- Where finitely many things can be reached, each line that begins somewhere ends if and only if
nothing on it is reached again from itself. -/
theorem acc_iff_acyclic {β : Type} {r : β → β → Prop} {x : β}
    (hfinite : {y | Relation.ReflTransGen r x y}.Finite) :
    Acc (flip r) x ↔ ∀ y, Relation.ReflTransGen r x y → ¬Relation.TransGen r y y := by
  constructor
  · intro hacc y hy hcycle
    have hhere : Acc (flip r) y := by
      clear hcycle
      induction hy with
      | refl => exact hacc
      | tail _ hstep ih => exact ih.inv hstep
    have hloop : ∀ z, Acc (Relation.TransGen (flip r)) z → ¬Relation.TransGen (flip r) z z := by
      intro z hz
      induction hz with
      | intro z _ ih => exact fun h => ih z h h
    exact hloop y hhere.transGen (Relation.transGen_swap.mp hcycle)
  · intro hacyclic
    have : Finite {y // Relation.ReflTransGen r x y} := hfinite.to_subtype
    let below : {y // Relation.ReflTransGen r x y} → {y // Relation.ReflTransGen r x y} → Prop :=
      fun y z => Relation.TransGen r z.1 y.1
    have : IsTrans _ below := ⟨fun _ _ _ hyz hzw => hzw.trans hyz⟩
    have : Std.Irrefl below := ⟨fun y => hacyclic y.1 y.2⟩
    have hall : ∀ y, Acc below y → Acc (flip r) y.1 := by
      intro y hy
      induction hy with
      | intro y _ ih => exact .intro _ fun z hz => ih ⟨z, y.2.tail hz⟩ (.single hz)
    exact hall ⟨x, .refl⟩ ((Finite.wellFounded_of_trans_of_irrefl below).apply _)

end Montage
