import Mathlib
import ProductLine.Proofs.Enumeration.Exactness
import ProductLine.Proofs.Enumeration.Observation
/-!
# What was handed over is valid

A walk may be ended by its monitor, its receiver or its target, its backend may leave questions
open, and it may fail.  Whatever happens, all that was handed over until then are different valid
configurations with consecutive numbers.

* `Walk.Honest` says what the other parties to such a walk do;
* `Walk.Valid` is what is known of the configurations that were handed over, and `Walk.Sound` of the
  state of the walk then;
* `Walk.isProduct_ends` says that a positive answer is true, even if others are missing;
* `Walk.leads_gate_valid`, `Walk.leads_complete_valid` and `Walk.leads_valid` follow the walk;
* `Walk.enumerate_valid` reads the result off what is observed.
-/
namespace ProductLine

namespace Walk

open Solver (Yields)

variable {ω : Type} {k : Walk ω} {handed going ended : List Configuration → ω → Prop}
  {given : List (List Nat)} {room : Nat} {st : WalkState ω}

/-! ## Walks that may fail -/

/-- What the other parties to a walk do.  The configurations that were handed over are related to
the worlds that are possible by `going` as long as the walk goes on, and by `ended` when it has
ended.  The models that the backend finds are models.  The walk goes on only if the monitor does not
cancel and the receiver accepts. -/
structure Honest (k : Walk ω) (going ended : List Configuration → ω → Prop) : Prop where
  backend : ∀ given, k.solver.backend.TrueModels (going given)
  monitor : ∀ given w, going given w → ended given (k.monitor w).2 ∧
    ((k.monitor w).1 = false → going given (k.monitor w).2)
  sink : ∀ given c w, going given w → ended (given ++ [c]) (k.sink c w).2 ∧
    ((k.sink c w).1 = true → going (given ++ [c]) (k.sink c w).2)
  ends : ∀ given w, going given w → ended given w

/-- What was handed over are concrete parts of selections under which the rules and constraints are
true, each once.  There is room for some more before the target is exceeded. -/
structure Valid (k : Walk ω) (given : List (List Nat)) (room : Nat) : Prop where
  products : ∀ key ∈ given, ∃ v, k.solver.Models [] v ∧ key = k.model.concretePart v
  nodup : given.Nodup
  room : ∀ t, k.target = some t → given.length + room ≤ t

theorem valid_nil (k : Walk ω) : k.Valid [] 0 :=
  ⟨by simp, List.nodup_nil, by simp⟩

/-- It is still valid when less room is asked for. -/
theorem Valid.forget (h : k.Valid given room) : k.Valid given 0 :=
  ⟨h.products, h.nodup, fun t ht => Nat.le_trans (Nat.le_add_right ..) (h.room t ht)⟩

/-- One more that was not handed over yet takes up the room of one. -/
theorem Valid.append (h : k.Valid given 1) {key : List Nat} (hnew : key ∉ given)
    (hproduct : ∃ v, k.solver.Models [] v ∧ key = k.model.concretePart v) :
    k.Valid (given ++ [key]) 0 where
  products := List.forall_mem_append.2 ⟨h.products, by simpa using hproduct⟩
  nodup := by
    rw [← List.concat_eq_append]
    exact h.nodup.concat hnew
  room t ht := by
    have hroom := h.room t ht
    rw [List.length_append, List.length_singleton]
    omega

/-- The state of a walk that has handed over only what is valid. -/
def Sound (k : Walk ω) (handed : List Configuration → ω → Prop) (room : Nat) (st : WalkState ω) :
    Prop :=
  ∃ given, k.At handed given st ∧ k.Valid given room

theorem Sound.forget (h : k.Sound handed room st) : k.Sound handed 0 st := by
  obtain ⟨given, hst, hvalid⟩ := h
  exact ⟨given, hst, hvalid.forget⟩

/-! ## Questions -/

section Questions

variable (hready : k.solver.Ready [])
  (hb : k.solver.backend.TrueModels (handed (configurations k.model given)))
include hready hb

/-- A question for a product that is answered in the positive is about one. -/
theorem isProduct_ends (hst : k.At handed given st) (key : List Nat) :
    Ends (fun b st' => (b = true → k.Product key) ∧ k.At handed given st')
      (fun _ st' => k.At handed given st') (k.isProduct key st) := by
  have hready : k.solver.Ready st.solver.stack := hst.stack ▸ hready
  suffices hquery : Yields _ True st.solver (fun b => b = true → k.Product key) _ from
    (hst.solving_ends hquery).mono (fun _ _ h => h) (fun _ _ h => h.2)
  apply Solver.inScope_pushFormula_yields hready hst.world
  · intro cause _ st' hkept
    exact .pure nofun hkept.world
  · intro set outcome hset _
    cases outcome with
    | contradictory => exact .pure nofun hst.world
    | applied =>
      refine (Solver.findModel_ends hb (hready.pushFormula hset) hst.world).bind ?_
      rintro (_ | a) st' hmodel hkept
      · exact .pure nofun hkept.world
      · refine .pure ?_ hkept.world
        -- The model is one of the base, and the check says what its concrete features are.
        intro hall
        have hbase := ((hready.models_pushed_iff hset _).1 (hmodel a rfl)).1
        refine ⟨a.valuation, hst.stack ▸ hbase, fun i hi => ?_⟩
        have hvalue := beq_iff_eq.1 (List.all_eq_true.1 hall i hi)
        rw [Assignment.valuation, hvalue, Option.getD_some]

/-- A question whether some features can be part of a product leaves the walk where it is. -/
theorem isFeasible_ends (hst : k.At handed given st) (selected : List Nat) :
    Ends (fun _ st' => k.At handed given st') (fun _ st' => k.At handed given st')
      (k.isFeasible selected st) := by
  have hready : k.solver.Ready st.solver.stack := hst.stack ▸ hready
  suffices hquery : Yields _ True st.solver (fun _ => True) _ from
    (hst.solving_ends hquery).mono (fun _ _ h => h.2) (fun _ _ h => h.2)
  apply Solver.inScope_pushFormula_yields hready hst.world
  · intro cause _ st' hkept
    exact .pure trivial hkept.world
  · intro set outcome hset _
    cases outcome with
    | contradictory => exact .pure trivial hst.world
    | applied =>
      refine (Solver.isSatisfiable_ends hb (hready.pushFormula hset) hst.world).bind ?_
      exact fun answer st' _ hkept => .pure trivial hkept.world

end Questions

/-! ## Following a walk -/

section Run

variable (hready : k.solver.Ready []) (hk : k.Honest going ended)
include hk

/-- A walk that goes on may end. -/
theorem Sound.end (h : k.Sound going 0 st) : k.Sound ended 0 st := by
  obtain ⟨given, hst, hvalid⟩ := h
  exact ⟨given, hst.mono hk.ends, hvalid⟩

/-- Handing over a product that there is room for. -/
theorem emit_ends_valid (hst : k.At going given st) (hvalid : k.Valid given 1) {key : List Nat}
    (hnew : key ∉ given) (hproduct : ∃ v, k.solver.Models [] v ∧ key = k.model.concretePart v) :
    Ends (fun flow st' => match flow with
        | .next => k.Sound going 0 st'
        | .stop => k.Sound ended 0 st')
      (fun _ st' => k.Sound ended 0 st') (k.emit key st) := by
  have hvalid' := hvalid.append hnew hproduct
  obtain ⟨hended, hgoing⟩ := hk.sink _ (k.offer key st) _ hst.world
  rw [emit_eq]
  split
  · rename_i haccepted
    split
    · exact ⟨_, (hst.handOver hended).record rfl, hvalid'⟩
    · exact ⟨_, hst.handOver (hgoing haccepted), hvalid'⟩
  · exact ⟨_, (hst.handOver hended).record rfl, hvalid'⟩

include hready

/-- The end of a branch. -/
theorem leads_complete_valid {selected : List Nat} (h : k.model.Partway selected []) :
    Leads (k.Sound going 1) (k.Sound going 0) (k.Sound ended 0) (k.Sound ended 0)
      (k.complete selected) := by
  rintro st ⟨given, hst, hvalid⟩
  rw [complete_eq]
  split
  · exact ⟨given, hst.record rfl, hvalid.forget⟩
  · rename_i hnew
    have hends := isProduct_ends hready (hk.backend _) hst (keyOf selected)
    cases hrun : k.isProduct (keyOf selected) st with
    | error e st' =>
      rw [hrun] at hends
      exact Sound.end hk ⟨given, hends, hvalid.forget⟩
    | ok b st' =>
      rw [hrun] at hends
      obtain ⟨hproduct, hst'⟩ := hends
      cases b with
      | false => exact ⟨given, hst'.record rfl, hvalid.forget⟩
      | true =>
        exact emit_ends_valid hk hst' hvalid (mt (hst.seen _).2 hnew)
          ((hproduct rfl).exists_concretePart h.concrete)

/-- A branch is entered only if there is room for one more configuration. -/
theorem gate_ends_valid (hst : k.Sound going 0 st) (selected : List Nat) :
    Ends (fun gate st' => match gate with
        | .enter => k.Sound going 1 st'
        | .leave .next => k.Sound going 0 st'
        | .leave .stop => k.Sound ended 0 st')
      (fun _ st' => k.Sound ended 0 st') (k.gate selected st) := by
  obtain ⟨given, hst, hvalid⟩ := hst
  obtain ⟨hended, hgoing⟩ := hk.monitor _ _ hst.world
  rw [gate_eq]
  split
  · exact ⟨given, (hst.asked hended).record rfl, hvalid⟩
  · rename_i hcanceled
    have hasked : k.At going given (k.asked st) :=
      hst.asked (hgoing (Bool.eq_false_of_not_eq_true hcanceled))
    split
    · exact ⟨given, (hasked.mono hk.ends).record rfl, hvalid⟩
    · rename_i hreached
      have hroom : k.Valid given 1 := by
        refine ⟨hvalid.products, hvalid.nodup, fun t ht => ?_⟩
        rw [targetReached, hst.emitted, ht, Option.any_some, decide_eq_true_eq] at hreached
        exact Nat.lt_of_not_le hreached
      split
      · exact ⟨given, hasked, hroom⟩
      · have hends := isFeasible_ends hready (hk.backend _) hasked selected
        cases hrun : k.isFeasible selected (k.asked st) with
        | error e st' =>
          rw [hrun] at hends
          exact Sound.end hk ⟨given, hends, hvalid⟩
        | ok b st' =>
          rw [hrun] at hends
          cases b with
          | false => exact ⟨given, At.record hends rfl, hvalid⟩
          | true => exact ⟨given, hends, hroom⟩

/-- A call that passes the gate is entered with room for one more. -/
theorem leads_gate_valid {selected : List Nat} {f : Gate → WalkM ω Flow}
    (hleave : ∀ flow, f (.leave flow) = pure flow)
    (henter : Leads (k.Sound going 1) (k.Sound going 0) (k.Sound ended 0) (k.Sound ended 0)
      (f .enter)) :
    Leads (k.Sound going 0) (k.Sound going 0) (k.Sound ended 0) (k.Sound ended 0)
      (k.gate selected >>= f) := by
  intro st hst
  refine Ends.bind (gate_ends_valid hready hk hst selected) ?_
  rintro (_ | _ | _) st' hst'
  · exact henter st' hst'
  · rw [hleave]
    exact hst'
  · rw [hleave]
    exact hst'

/-- **A walk hands over only what is valid**, also if it is ended or fails. -/
theorem leads_valid {selected frontier : List Nat} (h : k.model.Partway selected frontier) :
    Leads (k.Sound going 0) (k.Sound going 0) (k.Sound ended 0) (k.Sound ended 0)
      (k.expand selected frontier) := by
  have hforget : ∀ st, k.Sound going 1 st → k.Sound going 0 st := fun _ => Sound.forget
  exact visiting_leads.expand (fun hx => hx.restrict hforget)
    (fun _ => leads_gate_valid hready hk) (leads_complete_valid hready hk) h

/-- Wherever a walk ends, it has handed over only what is valid. -/
theorem sound_enumerate (hm : k.model.WellFormed) {w : ω} (hw : going [] w) :
    k.Sound ended 0 (endState (k.enumerate (k.solver.start w))) := by
  have hstart : k.Sound going 0 { solver := k.solver.start w } :=
    ⟨[], ⟨rfl, rfl, by simp, rfl, hw⟩, k.valid_nil⟩
  have hends := leads_valid hready hk (FeatureModel.partway_root hm.pos) _ hstart
  change Ends _ _ (k.enumerate (k.solver.start w)) at hends
  cases hrun : k.enumerate (k.solver.start w) with
  | error e st =>
    rw [hrun] at hends
    exact hends
  | ok flow st =>
    rw [hrun] at hends
    cases flow with
    | next => exact Sound.end hk hends
    | stop => exact hends

end Run

/-! ## What is observed -/

/-- A further event after those that go on is the only one that may not. -/
theorem goesOn_append {es : List Event} (h : ∀ e ∈ es, e.goesOn = true) (e : Event) :
    (∀ x ∈ (es ++ [e]).dropLast, x.goesOn = true) ∧
      (e.goesOn = true → ∀ x ∈ es ++ [e], x.goesOn = true) := by
  rw [List.dropLast_concat]
  exact ⟨h, fun he => List.forall_mem_append.2 ⟨h, by simpa using he⟩⟩

/-- While a walk goes on all events do, and when it has ended all but the last one. -/
theorem observed_honest {good : ω → Prop} (hb : k.solver.backend.TrueModels good)
    (hmonitor : ∀ w, good w → good (k.monitor w).2)
    (hsink : ∀ c w, good w → good (k.sink c w).2) :
    k.observed.Honest
      (fun cs w => good w.1 ∧ w.2.filterMap Event.configuration? = cs ∧
        ∀ e ∈ w.2, e.goesOn = true)
      (fun cs w => good w.1 ∧ w.2.filterMap Event.configuration? = cs ∧
        ∀ e ∈ w.2.dropLast, e.goesOn = true) where
  backend cs := hb.besides_keeping
    (fun es : List Event => es.filterMap Event.configuration? = cs ∧ ∀ e ∈ es, e.goesOn = true)
  monitor := by
    rintro _ w ⟨hgood, rfl, hon⟩
    obtain ⟨hended, hgoing⟩ := goesOn_append hon (.asked (k.monitor w.1).1)
    have hgood' := hmonitor w.1 hgood
    have hsame : (w.2 ++ [Event.asked (k.monitor w.1).1]).filterMap Event.configuration? =
        w.2.filterMap Event.configuration? := by
      simp [Event.configuration?]
    exact ⟨⟨hgood', hsame, hended⟩,
      fun hcanceled => ⟨hgood', hsame, hgoing (congrArg Bool.not hcanceled)⟩⟩
  sink := by
    rintro _ c w ⟨hgood, rfl, hon⟩
    obtain ⟨hended, hgoing⟩ := goesOn_append hon (.handed c (k.sink c w.1).1)
    have hgood' := hsink c w.1 hgood
    have hadded : (w.2 ++ [Event.handed c (k.sink c w.1).1]).filterMap Event.configuration? =
        w.2.filterMap Event.configuration? ++ [c] := by
      simp [Event.configuration?]
    exact ⟨⟨hgood', hadded, hended⟩, fun haccepted => ⟨hgood', hadded, hgoing haccepted⟩⟩
  ends := by
    rintro cs w ⟨hgood, hcs, hon⟩
    exact ⟨hgood, hcs, fun e he => hon e (List.mem_of_mem_dropLast he)⟩

/-- **All that a walk hands over is valid**, whatever ends it and also if it fails.  The backend may
fail to answer, have no model or be unavailable at any check; only the models that it gives have to
be models.  The monitor and the receiver are any that keep it so.

Observing the walk does not change it.  The configurations that are handed over have the concrete
features of selections under which the rules and constraints are true, no two have the same, and
they are numbered in order from one.  There are no more of them than the target says.  Nothing comes
after the receiver refused one or the monitor canceled, and a walk that does not fail says how many
there are. -/
theorem enumerate_valid {good : ω → Prop} {limit : Nat} {w : ω} (hm : k.model.Built)
    (hbase : k.model.baseFormula limit = .ok k.solver.base)
    (hbackend : k.solver.backend.TrueModels good)
    (hmonitor : ∀ w, good w → good (k.monitor w).2)
    (hsink : ∀ c w, good w → good (k.sink c w).2) (hw : good w) :
    k.enumerate (k.solver.start w) = mapState (WalkState.inWorld Prod.fst)
        (k.observed.enumerate (k.observed.solver.start (w, []))) ∧
      (∀ c ∈ k.handedOver w, ∃ v : String → Bool,
        (∀ f ∈ k.model.treeRules ++ k.model.constraints, f.eval v = true) ∧
        c.features = nameSet ((k.model.concreteFeatures.map k.model.name).filter v)) ∧
      ((k.handedOver w).map Configuration.features).Nodup ∧
      (k.handedOver w).map Configuration.id = List.range' 1 (k.handedOver w).length ∧
      (∀ t, k.target = some t → (k.handedOver w).length ≤ t) ∧
      (∀ before e after, k.events w = before ++ e :: after → e.goesOn = false → after = []) ∧
      ∀ flow st, k.enumerate (k.solver.start w) = .ok flow st →
        st.summary.emitted = (k.handedOver w).length := by
  have hformed := hm.wellFormed
  obtain ⟨hstated, -⟩ := FeatureModel.statedBy_of_baseFormula hformed hbase
  have hready : k.observed.solver.Ready [] := ⟨hstated.built, hstated.ready.stack⟩
  obtain ⟨given, hst, hvalid⟩ := sound_enumerate hready
    (observed_honest hbackend hmonitor hsink) hformed (w := (w, [])) ⟨hw, rfl, by simp⟩
  have hhanded : k.handedOver w = configurations k.model given := hst.world.2.1
  have hon : ∀ e ∈ (k.events w).dropLast, e.goesOn = true := hst.world.2.2
  have hlength : (configurations k.model given).length = given.length := by simp [configurations]
  rw [hhanded]
  refine ⟨enumerate_observed k w, ?_, ?_, map_id_configurations k.model given, ?_, ?_, ?_⟩
  · intro c hc
    have hmem := List.mem_map_of_mem (f := Configuration.features) hc
    rw [map_features_configurations] at hmem
    obtain ⟨key, hkey, hfeatures⟩ := List.mem_map.1 hmem
    obtain ⟨v, hv, rfl⟩ := hvalid.products key hkey
    refine ⟨k.solver.base.vars.valuation v, (hstated.models_iff v).1 hv, ?_⟩
    rw [← hfeatures]
    exact congrArg nameSet (map_name_concretePart (fun i hi => hstated.valuation_name v hi))
  · rw [map_features_configurations]
    refine List.Nodup.map_on ?_ hvalid.nodup
    intro key hkey other hother heq
    obtain ⟨v, -, rfl⟩ := hvalid.products key hkey
    obtain ⟨u, -, rfl⟩ := hvalid.products other hother
    exact hformed.nameSet_inj heq
  · intro t ht
    rw [hlength]
    exact hvalid.room t ht
  · intro before e after heq he
    by_contra hafter
    have hmem : e ∈ (k.events w).dropLast := by
      rw [heq, List.dropLast_append_of_ne_nil (List.cons_ne_nil _ _),
        List.dropLast_cons_of_ne_nil hafter]
      simp
    rw [hon e hmem] at he
    cases he
  · intro flow st hrun
    have hend := congrArg endState (hrun.symm.trans (enumerate_observed k w))
    rw [endState_mapState] at hend
    rw [hlength, show st = _ from hend]
    exact hst.emitted

/-- A walk about `choice` with a backend that cannot be used any more after as many checks as its
world says. -/
def tiredWalk : Walk Nat where
  model := choice
  solver := ⟨{ Backend.tiring with
    checking := fun s w =>
      if w = 0 then (.error (.unavailable "tired"), w) else Backend.tiring.checking s w },
    choiceWalk.solver.base⟩
  monitor := Monitor.never
  target := some 2
  sink _ w := (true, w)

theorem trueModels_tiredWalk : tiredWalk.solver.backend.TrueModels (fun _ => True) where
  opening _ _ _ _ := trivial
  adding _ _ _ _ _ := trivial
  checking s w hs _ := by
    simp only [tiredWalk]
    split
    · exact ⟨trivial, nofun⟩
    · exact ⟨trivial, fun _ => Backend.isModel_of_tiring hs.inRange⟩

/-- After three checks the walk fails.  It has handed over one configuration until then, which is
valid. -/
theorem enumerate_valid_tired :
    (∃ e st, tiredWalk.enumerate (tiredWalk.solver.start 3) = .error e st) ∧
      tiredWalk.handedOver 3 = [⟨1, ["R"]⟩] ∧
      ∃ v : String → Bool, (∀ f ∈ choice.treeRules ++ choice.constraints, f.eval v = true) ∧
        ["R"] = nameSet (["R", "A"].filter v) := by
  have hrun : tiredWalk.observed.enumerate (tiredWalk.observed.solver.start (3, [])) =
      .error (.unavailable "tired")
        ⟨⟨[], 9, 0, [.asked false, .asked false, .handed ⟨1, ["R"]⟩ true, .asked false]⟩, 2, [[0]],
          { emitted := 1 }⟩ := by
    cbv
  have hhanded : tiredWalk.handedOver 3 = [⟨1, ["R"]⟩] := by
    rw [handedOver, events, hrun]
    rfl
  have hbase : choice.baseFormula 2 = .ok choiceWalk.solver.base := rfl
  obtain ⟨hobserved, hvalid, -⟩ := @enumerate_valid _ tiredWalk (fun _ => True) 2 3 built_choice
    hbase
    trueModels_tiredWalk (fun _ _ => trivial) (fun _ _ _ => trivial) trivial
  obtain ⟨v, hv, hfeatures⟩ := hvalid ⟨1, ["R"]⟩ (by rw [hhanded]; exact .head _)
  rw [hobserved, hrun]
  exact ⟨⟨_, _, rfl⟩, hhanded, v, hv, hfeatures⟩

end Walk

end ProductLine
