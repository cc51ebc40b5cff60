import ProductLine.Proofs.Calls.Queries
import ProductLine.Proofs.Enumeration.Visits
import ProductLine.Proofs.Enumeration.Walk
/-!
# What walks conclude from replies

A configuration is handed over only after a check that gives a model, and a branch is cut only after
a check that says that there is none, or because its formula cannot be pushed or is contradictory at
once.

* `Walk.feasibility?` and `Walk.production?` are the questions that a walk asks;
* `Walk.Advances` is what the replies between two states of a walk have led to;
* `Walk.isFeasible_hears`, `Walk.gate_fares` and `Walk.complete_fares` are about the steps of a
  walk, and `Walk.expand_fares` is about a whole one.
-/
namespace ProductLine

namespace Reply

/-- A check of the kind that may cut a branch, answered in any other way than that there is no
model. -/
def spares : Reply → Bool
  | checked _ (.ok (.unsat _)) => false
  | checked question _ => !question.options.models
  | _ => false

/-- Whether the monitor was asked, which is done once for each branch. -/
def isAsked : Reply → Bool
  | asked _ => true
  | _ => false

end Reply

namespace Walk

variable {ω α : Type} {k : Walk ω} {st st' st'' : WalkState (ω × List Reply)}
  {replies later : List Reply} {keys keys' cut cut' : List (List Nat)}

/-- The walk whose parties write down their replies. -/
def recording (k : Walk ω) : Walk (ω × List Reply) where
  model := k.model
  solver := k.solver.recording
  monitor := k.monitor.recording
  target := k.target
  sink := Sink.recording k.sink

/-! ## Questions -/

/-- The question whether the selected features can all be part of a product, if
their conjunction can be pushed and is not contradictory at once. -/
def feasibility? (k : Walk ω) (stack : ConstraintStack) (selected : List Nat) : Option Question :=
  (k.solver.applied? (.and (selected.map k.model.selected))).map
    (fun set => k.solver.questionUnder stack {} [set])

/-- The question for a product with exactly the given concrete features. -/
def production? (k : Walk ω) (stack : ConstraintStack) (key : List Nat) : Option Question :=
  (k.solver.applied? (exactly k.model key)).map
    (fun set => k.solver.questionUnder stack { models := true } [set])

/-- What is heard while the solver is used. -/
theorem solving_ends {body : SolverM (ω × List Reply) α} {post : α → List Reply → Prop}
    (h : Hears False st.solver post (body st.solver)) :
    Ends (fun a st' => ∃ solver replies, st' = { st with solver := solver } ∧
        Heard st.solver solver replies ∧ Usable replies ∧ post a replies)
      (fun e st' => ∃ replies, Heard st.solver st'.solver replies ∧ FailsAfter False e replies)
      (solving body st) := by
  unfold solving
  cases hbody : body st.solver with
  | ok a solver =>
    rw [hbody] at h
    obtain ⟨replies, hheard, husable, ha⟩ := h
    exact ⟨solver, replies, rfl, hheard, husable, ha⟩
  | error e solver =>
    rw [hbody] at h
    exact h

/-- A branch that is ruled out has a reply of its own that says so, unless its formula was refused
or contradictory at once. -/
theorem isFeasible_hears (selected : List Nat) (st : WalkState (ω × List Reply)) :
    Ends (fun feasible st' => ∃ solver replies, st' = { st with solver := solver } ∧
        Heard st.solver solver replies ∧ Usable replies ∧
        replies.filterMap Reply.configuration? = [] ∧
        if feasible then replies.countP Reply.spares ≤ 1
        else replies.countP Reply.spares = 0 ∧
          (k.feasibility? st.solver.stack selected).toList.Sublist
            (replies.filterMap Reply.refuted?))
      (fun e st' => ∃ replies, Heard st.solver st'.solver replies ∧ FailsAfter False e replies)
      (k.recording.isFeasible selected st) := by
  refine solving_ends (Solver.inScope_pushing_hears (k.solver.recording.pushes_pushFormula _) ?_ ?_)
  · intro hnone outcome st₁ houtcome
    have hcut : k.feasibility? st.solver.stack selected = none := Option.map_eq_none_iff.2 hnone
    rw [hcut]
    rcases outcome with cause | (_ | _)
    · exact .pure ⟨rfl, rfl, List.nil_sublist _⟩
    · exact absurd rfl houtcome
    · exact .pure ⟨rfl, rfl, List.nil_sublist _⟩
  · intro set st₁ hset hformulas
    have hquestion : k.feasibility? st.solver.stack selected =
        some (k.solver.questionUnder st.solver.stack {} [set]) := congrArg (Option.map _) hset
    refine Solver.isSatisfiable_hears.bind ?_
    rintro result _ st₂ ⟨answer, rfl, hunsat, -⟩ -
    rw [Solver.question_of_pushed hformulas, hquestion]
    -- Of the two replies only the answer can be one that does not rule the branch out.
    have hle : [Reply.checked (k.solver.questionUnder st.solver.stack {} [set]) answer].countP
        Reply.spares ≤ 1 := List.countP_le_length
    cases result with
    | unsat =>
      obtain ⟨core, rfl⟩ := hunsat.1 rfl
      exact .pure ⟨rfl, rfl, List.Sublist.refl _⟩
    | sat => exact .pure ⟨rfl, hle⟩
    | unknown => exact .pure ⟨rfl, hle⟩

/-- A product that is found has a reply of its own that gives a model. -/
theorem isProduct_hears (key : List Nat) (st : WalkState (ω × List Reply)) :
    Ends (fun found st' => ∃ solver replies, st' = { st with solver := solver } ∧
        Heard st.solver solver replies ∧ Usable replies ∧
        replies.filterMap Reply.configuration? = [] ∧ replies.countP Reply.spares = 0 ∧
        (found = true → ([key].map (k.production? st.solver.stack)).Sublist
          ((replies.filterMap Reply.modelled?).map some)))
      (fun e st' => ∃ replies, Heard st.solver st'.solver replies ∧ FailsAfter False e replies)
      (k.recording.isProduct key st) := by
  refine solving_ends (Solver.inScope_pushing_hears (k.solver.recording.pushes_pushFormula _) ?_ ?_)
  · intro _ outcome st₁ houtcome
    rcases outcome with cause | (_ | _)
    · exact .pure ⟨rfl, rfl, nofun⟩
    · exact absurd rfl houtcome
    · exact .pure ⟨rfl, rfl, nofun⟩
  · intro set st₁ hset hformulas
    have hquestion : k.production? st.solver.stack key =
        some (k.solver.questionUnder st.solver.stack { models := true } [set]) :=
      congrArg (Option.map _) hset
    refine Solver.findModel_hears.bind ?_
    rintro found _ st₂ ⟨answer, rfl, hmodel⟩ -
    rw [Solver.question_of_pushed hformulas, List.map_singleton, hquestion]
    have hspares : [Reply.checked (k.solver.questionUnder st.solver.stack { models := true } [set])
        answer].countP Reply.spares = 0 := by
      rcases answer with cause | (_ | _) <;> rfl
    cases found with
    | none => exact .pure ⟨rfl, hspares, nofun⟩
    | some a =>
      obtain ⟨model, rfl, -⟩ := (hmodel a).1 rfl
      exact .pure ⟨rfl, rfl, fun _ => List.Sublist.refl _⟩

/-! ## Steps -/

/-- The configurations with some features, numbered from `n` on. -/
def numbered (m : FeatureModel) (n : Nat) (keys : List (List Nat)) : List Configuration :=
  keys.mapIdx (fun i key => Configuration.ofNames (i + n) (key.map m.name))

/-- Configurations are numbered on from those before them. -/
theorem numbered_append (m : FeatureModel) (n : Nat) (keys keys' : List (List Nat)) :
    numbered m n (keys ++ keys') = numbered m n keys ++ numbered m (n + keys.length) keys' := by
  simp only [numbered, List.mapIdx_append, Nat.add_assoc, Nat.add_comm keys.length]

/-- What happened between two states of a walk.  Configurations with the features `keys` were handed
over, each after a reply of its own that gives a model of them.  Branches with the features `cut`
were cut, each after a reply of its own that says that there is none, if its formula is one to ask
about.  For every branch the monitor was asked, and no branch was cut that a check did not rule
out. -/
structure Advances (k : Walk ω) (st st' : WalkState (ω × List Reply)) (replies : List Reply)
    (keys cut : List (List Nat)) : Prop where
  heard : Heard st.solver st'.solver replies
  usable : Usable replies
  nextId : st'.nextId = st.nextId + keys.length
  handed : replies.filterMap Reply.configuration? = numbered k.model st.nextId keys
  emitted : st'.summary.emitted = st.summary.emitted + keys.length
  products : (keys.map (k.production? st.solver.stack)).Sublist
    ((replies.filterMap Reply.modelled?).map some)
  pruned : st'.summary.pruned = st.summary.pruned + cut.length
  refuted : (cut.filterMap (k.feasibility? st.solver.stack)).Sublist
    (replies.filterMap Reply.refuted?)
  spared : cut.length + replies.countP Reply.spares ≤ replies.countP Reply.isAsked

namespace Advances

/-- Nothing was handed over. -/
theorem of_heard (hheard : Heard st.solver st'.solver replies) (husable : Usable replies)
    (hnextId : st'.nextId = st.nextId) (hemitted : st'.summary.emitted = st.summary.emitted)
    (hpruned : st'.summary.pruned = st.summary.pruned + cut.length)
    (hhanded : replies.filterMap Reply.configuration? = [])
    (hrefuted : (cut.filterMap (k.feasibility? st.solver.stack)).Sublist
      (replies.filterMap Reply.refuted?))
    (hspared : cut.length + replies.countP Reply.spares ≤ replies.countP Reply.isAsked) :
    k.Advances st st' replies [] cut where
  heard := hheard
  usable := husable
  nextId := hnextId
  handed := hhanded
  emitted := hemitted
  products := List.nil_sublist _
  pruned := hpruned
  refuted := hrefuted
  spared := hspared

theorem trans (h : k.Advances st st' replies keys cut)
    (h' : k.Advances st' st'' later keys' cut') :
    k.Advances st st'' (replies ++ later) (keys ++ keys') (cut ++ cut') where
  heard := h.heard.trans h'.heard
  usable := h.usable.append h'.usable
  nextId := by rw [h'.nextId, h.nextId, List.length_append, Nat.add_assoc]
  handed := by rw [List.filterMap_append, h.handed, h'.handed, h.nextId, numbered_append]
  emitted := by rw [h'.emitted, h.emitted, List.length_append, Nat.add_assoc]
  products := by
    rw [List.map_append, List.filterMap_append, List.map_append]
    exact h.products.append (h.heard.stack ▸ h'.products)
  pruned := by rw [h'.pruned, h.pruned, List.length_append, Nat.add_assoc]
  refuted := by
    rw [List.filterMap_append, List.filterMap_append]
    exact h.refuted.append (h.heard.stack ▸ h'.refuted)
  spared := by
    have hspared := h.spared
    have hspared' := h'.spared
    simp only [List.length_append, List.countP_append]
    omega

end Advances

/-- From a state the walk went on by such steps, or failed as calls do. -/
def Fares (k : Walk ω) (st : WalkState (ω × List Reply)) :
    EStateM.Result AnalysisError (WalkState (ω × List Reply)) α → Prop :=
  Ends (fun _ st' => ∃ replies keys cut, k.Advances st st' replies keys cut)
    (fun e st' => ∃ replies, Heard st.solver st'.solver replies ∧ FailsAfter False e replies)

namespace Fares

variable {β : Type}

/-- Nothing was asked, and at most something else was counted. -/
theorem ok {a : α} {summary : Summary} (hemitted : summary.emitted = st.summary.emitted)
    (hpruned : summary.pruned = st.summary.pruned) :
    k.Fares st (.ok a { st with summary := summary }) :=
  ⟨[], [], [], .of_heard ⟨rfl, (List.append_nil _).symm⟩ (List.forall_mem_nil _) rfl hemitted
    hpruned rfl (List.nil_sublist _) (Nat.le_refl 0)⟩

theorem of_advances {r : EStateM.Result AnalysisError (WalkState (ω × List Reply)) α}
    (h : k.Advances st st' replies keys cut) (hr : k.Fares st' r) : k.Fares st r := by
  refine Ends.mono hr ?_ ?_
  · rintro _ st'' ⟨later, keys', cut', h'⟩
    exact ⟨_, _, _, h.trans h'⟩
  · rintro e st'' ⟨later, hheard, hfails⟩
    exact ⟨_, h.heard.trans hheard, hfails.append h.usable⟩

/-- A walk fares through two parts in a row. -/
theorem bind {x : WalkM (ω × List Reply) α} {f : α → WalkM (ω × List Reply) β}
    (hx : k.Fares st (x st)) (hf : ∀ a st', k.Fares st' (f a st')) :
    k.Fares st ((x >>= f) st) := by
  refine Ends.bind hx ?_
  rintro a st' ⟨replies, keys, cut, h⟩
  exact of_advances h (hf a st')

end Fares

/-- Before a feature is decided. -/
theorem gate_fares (selected : List Nat) (st : WalkState (ω × List Reply)) :
    k.Fares st (k.recording.gate selected st) := by
  have hasked :
      k.Advances st (k.recording.asked st) [.asked (k.monitor st.solver.world.1).1] [] [] :=
    .of_heard ⟨rfl, rfl⟩ (by simp [Usable, Reply.unavailable?]) rfl rfl rfl rfl
      (List.nil_sublist _) (Nat.zero_le 1)
  rw [gate_eq]
  split
  · exact .of_advances hasked (.ok rfl rfl)
  · split
    · exact .of_advances hasked (.ok rfl rfl)
    · split
      · exact .of_advances hasked (.ok rfl rfl)
      · have hends := k.isFeasible_hears selected (k.recording.asked st)
        cases hrun : k.recording.isFeasible selected (k.recording.asked st) with
        | error e st' =>
          rw [hrun] at hends
          obtain ⟨replies, hheard, hfails⟩ := hends
          exact ⟨_, hasked.heard.trans hheard, hfails.append hasked.usable⟩
        | ok feasible st' =>
          rw [hrun] at hends
          obtain ⟨solver, replies, rfl, hheard, husable, hhanded, hreplies⟩ := hends
          replace hheard := hasked.heard.trans hheard
          replace husable := hasked.usable.append husable
          cases feasible with
          | true =>
            refine ⟨_, [], [], .of_heard hheard husable rfl rfl rfl hhanded (List.nil_sublist _) ?_⟩
            show 0 + replies.countP Reply.spares ≤ ([Reply.asked _] ++ replies).countP Reply.isAsked
            rw [List.countP_append, Nat.zero_add]
            exact Nat.le_add_right_of_le hreplies
          | false =>
            obtain ⟨hspares, hrefuted⟩ := hreplies
            refine ⟨_, [], [selected], .of_heard hheard husable rfl rfl rfl hhanded ?_ ?_⟩
            · rw [List.filterMap_eq_flatMap_toList, List.flatMap_singleton]
              exact hrefuted
            · show 1 + replies.countP Reply.spares ≤
                ([Reply.asked _] ++ replies).countP Reply.isAsked
              rw [List.countP_append, hspares]
              exact Nat.le_add_right 1 _

/-- A configuration is handed over after replies that give a model of it. -/
theorem advances_handOver {key : List Nat} {solver : SolverState (ω × List Reply)}
    {summary : Summary} (hheard : Heard st.solver solver replies) (husable : Usable replies)
    (hhanded : replies.filterMap Reply.configuration? = [])
    (hspares : replies.countP Reply.spares = 0)
    (hproduct : ([key].map (k.production? st.solver.stack)).Sublist
      ((replies.filterMap Reply.modelled?).map some))
    (hemitted : summary.emitted = st.summary.emitted + 1)
    (hpruned : summary.pruned = st.summary.pruned) :
    k.Advances st
      { k.recording.handOver key { st with solver := solver } with summary := summary }
      (replies ++ [.handed (k.recording.offer key st)
        (k.sink (k.recording.offer key st) solver.world.1).1]) [key] [] where
  heard := hheard.trans ⟨rfl, rfl⟩
  usable := husable.append (by simp [Usable, Reply.unavailable?])
  nextId := rfl
  handed := by
    rw [List.filterMap_append, hhanded]
    simp [numbered, Reply.configuration?, offer, recording]
  emitted := hemitted
  products := by
    rw [List.filterMap_append, List.map_append]
    exact hproduct.trans (List.sublist_append_left _ _)
  pruned := hpruned
  refuted := List.nil_sublist _
  spared := by
    rw [List.countP_append, hspares]
    exact Nat.zero_le _

/-- At the end of a branch. -/
theorem complete_fares (selected : List Nat) (st : WalkState (ω × List Reply)) :
    k.Fares st (k.recording.complete selected st) := by
  rw [complete_eq]
  split
  · exact .ok rfl rfl
  · have hends := k.isProduct_hears (keyOf selected) st
    cases hrun : k.recording.isProduct (keyOf selected) st with
    | error e st' =>
      rw [hrun] at hends
      exact hends
    | ok found st' =>
      rw [hrun] at hends
      obtain ⟨solver, replies, rfl, hheard, husable, hhanded, hspares, hproduct⟩ := hends
      cases found with
      | false =>
        exact ⟨replies, [], [], .of_heard hheard husable rfl rfl rfl hhanded (List.nil_sublist _)
          (by simp [hspares])⟩
      | true =>
        have hgiven {summary : Summary} (hemitted : summary.emitted = st.summary.emitted + 1)
            (hpruned : summary.pruned = st.summary.pruned) :=
          advances_handOver hheard husable hhanded hspares (hproduct rfl) hemitted hpruned
        show k.Fares st (k.recording.emit (keyOf selected) { st with solver := solver })
        rw [emit_eq]
        split
        · split
          · exact ⟨_, _, _, hgiven rfl rfl⟩
          · exact ⟨_, _, _, hgiven rfl rfl⟩
        · exact ⟨_, _, _, hgiven rfl rfl⟩

/-! ## Whole walks -/

/-- There are no items to keep track of, as the steps themselves say what happened. -/
theorem visiting_fares :
    Visiting (fun (_ : List Unit) (x : WalkM (ω × List Reply) Flow) =>
      ∀ st, k.Fares st (x st)) where
  nil _ := .ok rfl rfl
  bind hx hstop hnext st := by
    refine (hx st).bind ?_
    rintro (_ | _) st'
    · exact hnext st'
    · rw [hstop]
      exact .ok rfl rfl

/-- A walk goes on by such steps wherever it starts, and fails only as calls do. -/
theorem expand_fares (selected frontier : List Nat) (st : WalkState (ω × List Reply)) :
    k.Fares st (k.recording.expand selected frontier st) := by
  induction selected, frontier using k.model.branch_induction generalizing st with
  | nil selected =>
    rw [expand_eq]
    refine (k.gate_fares selected st).bind ?_
    rintro (_ | flow) st'
    · exact k.complete_fares selected st'
    · exact .ok rfl rfl
  | cons selected current rest ih =>
    rw [expand_eq]
    refine (k.gate_fares selected st).bind ?_
    rintro (_ | flow) st'
    · exact visiting_fares.visitAll (f := fun _ => []) ih st'
    · exact .ok rfl rfl

end Walk

end ProductLine
