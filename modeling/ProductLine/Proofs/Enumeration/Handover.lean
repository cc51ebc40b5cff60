import Mathlib.Data.List.Nodup
import Mathlib.Tactic.Common
import ProductLine.Proofs.Enumeration.Visits
/-!
# Handing over

The ends of branches come one after the other.  Those that are products and were not handed over
before are handed over, until the receiver or the target ends it.

* `Hands` is this process, and `Hands.mem_iff` and `Hands.nodup` say what was handed over at the
  end;
* `Hands.eq_take` compares it with the one that nothing ends;
* `Covers` says that a computation does this for some ends of branches, and `visiting_covers` that
  it can be followed through visits.
-/
namespace ProductLine

variable {κ : Type}

/-- When the items of `given` were handed over before, and now come the given ones, those of the
last list are handed over in the end.  It goes on after an item only if `goesOn` is true of the
number of items so far. -/
inductive Hands (product : κ → Prop) (goesOn : Nat → Bool) :
    List κ → List κ → Flow → List κ → Prop where
  | done {given : List κ} : Hands product goesOn given [] .next given
  /-- The item was handed over before, or is no product. -/
  | skip {given given' items : List κ} {item : κ} {flow : Flow} : item ∈ given ∨ ¬ product item →
      Hands product goesOn given items flow given' →
      Hands product goesOn given (item :: items) flow given'
  | hand {given given' items : List κ} {item : κ} {flow : Flow} : item ∉ given → product item →
      goesOn (given.length + 1) = true → Hands product goesOn (given ++ [item]) items flow given' →
      Hands product goesOn given (item :: items) flow given'
  /-- The item is the last one. -/
  | stop {given items : List κ} {item : κ} : item ∉ given → product item →
      goesOn (given.length + 1) = false →
      Hands product goesOn given (item :: items) .stop (given ++ [item])

namespace Hands

variable {product : κ → Prop} {goesOn : Nat → Bool} {given given' given'' items more : List κ}
  {flow : Flow}

/-- More items come when the first ones are through. -/
theorem append (h : Hands product goesOn given items .next given')
    (h' : Hands product goesOn given' more flow given'') :
    Hands product goesOn given (items ++ more) flow given'' := by
  -- For the induction the flow has to be a variable; a stop among the first items is ruled out.
  generalize hnext : Flow.next = first at h
  induction h with
  | done => exact h'
  | skip hskip _ ih => exact .skip hskip (ih h' hnext)
  | hand hnew hproduct hon _ ih => exact .hand hnew hproduct hon (ih h' hnext)
  | stop => cases hnext

/-- More items do not matter after the end. -/
theorem append_of_stop (h : Hands product goesOn given items .stop given') (more : List κ) :
    Hands product goesOn given (items ++ more) .stop given' := by
  generalize hstop : Flow.stop = first at h
  induction h with
  | done => cases hstop
  | skip hskip _ ih => exact .skip hskip (ih hstop)
  | hand hnew hproduct hon _ ih => exact .hand hnew hproduct hon (ih hstop)
  | stop hnew hproduct hon => exact .stop hnew hproduct hon

/-- Without products nothing is handed over. -/
theorem of_no_product (h : ∀ item ∈ items, ¬ product item) :
    Hands product goesOn given items .next given := by
  induction items with
  | nil => exact .done
  | cons item items ih =>
    have h := List.forall_mem_cons.1 h
    exact .skip (.inr h.1) (ih h.2)

/-- Whatever the items are, something is handed over of them if nothing ends it. -/
theorem exists_all (product : κ → Prop) (given items : List κ) :
    ∃ all, Hands product (fun _ => true) given items .next all := by
  induction items generalizing given with
  | nil => exact ⟨given, .done⟩
  | cons item items ih =>
    by_cases hskip : item ∈ given ∨ ¬ product item
    · obtain ⟨all, hall⟩ := ih given
      exact ⟨all, .skip hskip hall⟩
    · obtain ⟨hnew, hproduct⟩ := not_or.1 hskip
      obtain ⟨all, hall⟩ := ih (given ++ [item])
      exact ⟨all, .hand hnew (not_not.1 hproduct) rfl hall⟩

theorem goesOn_length (h : Hands product goesOn given items .next given')
    (hgiven : goesOn given.length = true) : goesOn given'.length = true := by
  generalize hnext : Flow.next = flow at h
  induction h with
  | done => exact hgiven
  | skip _ _ ih => exact ih hgiven hnext
  | hand _ _ hon _ ih => exact ih (by simpa using hon) hnext
  | stop => cases hnext

/-- Nothing is handed over twice. -/
theorem nodup (h : Hands product goesOn given items flow given') (hgiven : given.Nodup) :
    given'.Nodup := by
  have hadd {given : List κ} {item : κ} (hgiven : given.Nodup) (hnew : item ∉ given) :
      (given ++ [item]).Nodup := by
    rw [← List.concat_eq_append]
    exact hgiven.concat hnew
  induction h with
  | done => exact hgiven
  | skip _ _ ih => exact ih hgiven
  | hand hnew _ _ _ ih => exact ih (hadd hgiven hnew)
  | stop hnew => exact hadd hgiven hnew

/-- If it comes to the end of the items, all products among them have been handed over. -/
theorem mem_iff (h : Hands product goesOn given items .next given') (item : κ) :
    item ∈ given' ↔ item ∈ given ∨ item ∈ items ∧ product item := by
  generalize hnext : Flow.next = flow at h
  induction h with
  | done => simp
  | @skip _ _ _ first _ hskip _ ih =>
    rw [ih hnext, List.mem_cons, or_and_right]
    constructor
    · exact Or.imp_right .inr
    · rintro (hgiven | ⟨rfl, hproduct⟩ | hitem)
      · exact .inl hgiven
      -- A product is skipped only if it was handed over before.
      · exact .inl (hskip.resolve_right (not_not_intro hproduct))
      · exact .inr hitem
  | @hand _ _ _ first _ _ hproduct _ _ ih =>
    rw [ih hnext, List.mem_append, List.mem_singleton, List.mem_cons, or_and_right, or_assoc]
    refine or_congr_right (or_congr_left ?_)
    exact ⟨fun heq => ⟨heq, heq ▸ hproduct⟩, And.left⟩
  | stop => cases hnext

/-- Where nothing ends it, it comes to the end of the items. -/
theorem eq_next (h : Hands product goesOn given items flow given') (hon : ∀ n, goesOn n = true) :
    flow = .next := by
  induction h with
  | done => rfl
  | skip _ _ ih => exact ih
  | hand _ _ _ _ ih => exact ih
  | stop _ _ hoff => rw [hon] at hoff; cases hoff

/-- What was handed over before comes first. -/
theorem prefix_given (h : Hands product goesOn given items flow given') : given <+: given' := by
  induction h with
  | done => exact List.prefix_rfl
  | skip _ _ ih => exact ih
  | hand _ _ _ _ ih => exact (List.prefix_append ..).trans ih
  | stop => exact List.prefix_append ..

/-- What ends it does not matter before it does so: it hands over the first ones of those that are
handed over if nothing ends it, and all of them if it comes to the end of the items. -/
theorem prefix_all {all : List κ} (h : Hands product goesOn given items flow given')
    (hall : Hands product (fun _ => true) given items .next all) :
    given' <+: all ∧ (flow = .next → given' = all) := by
  induction h with
  | done =>
    cases hall
    exact ⟨List.prefix_rfl, fun _ => rfl⟩
  | skip hskip _ ih =>
    cases hall with
    | skip _ hall => exact ih hall
    | hand hnew hproduct => exact absurd hskip (not_or.2 ⟨hnew, not_not_intro hproduct⟩)
  | hand hnew hproduct _ _ ih =>
    cases hall with
    | skip hskip => exact absurd hskip (not_or.2 ⟨hnew, not_not_intro hproduct⟩)
    | hand _ _ _ hall => exact ih hall
  | stop hnew hproduct =>
    cases hall with
    | skip hskip => exact absurd hskip (not_or.2 ⟨hnew, not_not_intro hproduct⟩)
    | hand _ _ _ hall => exact ⟨hall.prefix_given, nofun⟩

/-- It went on after all items but the last one, and after that one too if it comes to the end. -/
theorem goesOn_of_lt (h : Hands product goesOn given items flow given') {n : Nat}
    (hn : given.length < n) (hle : n < given'.length ∨ n = given'.length ∧ flow = .next) :
    goesOn n = true := by
  induction h with
  | done => omega
  | skip _ _ ih => exact ih hn hle
  | @hand given _ _ item _ _ _ hon _ ih =>
    by_cases heq : n = given.length + 1
    · exact heq ▸ hon
    · refine ih ?_ hle
      rw [List.length_append, List.length_singleton]
      omega
  | stop =>
    rw [List.length_append, List.length_singleton] at hle
    rcases hle with hle | ⟨-, hstop⟩
    · omega
    · cases hstop

theorem goesOn_of_stop (h : Hands product goesOn given items .stop given') :
    goesOn given'.length = false := by
  generalize hstop : Flow.stop = flow at h
  induction h with
  | done => cases hstop
  | skip _ _ ih => exact ih hstop
  | hand _ _ _ _ ih => exact ih hstop
  | stop _ _ hoff => simpa using hoff

/-- If the first number after which it does not go on is `n`, then the first `n` items are handed
over of those that would be if nothing ended it.  It is ended if there are so many. -/
theorem eq_take {all : List κ} {n : Nat} (h : Hands product goesOn [] items flow given')
    (hall : Hands product (fun _ => true) [] items .next all) (hpos : 0 < n)
    (hon : ∀ i < n, goesOn i = true) (hoff : goesOn n = false) :
    given' = all.take n ∧ (flow = .stop ↔ n ≤ all.length) := by
  obtain ⟨hfirst, hnext⟩ := h.prefix_all hall
  have hne {i : Nat} (hi : goesOn i = true) : i ≠ n := by
    rintro rfl
    rw [hoff] at hi
    cases hi
  cases flow with
  | next =>
    obtain rfl := hnext rfl
    have hlt : given'.length < n := by
      by_contra hle
      refine hne (h.goesOn_of_lt hpos ?_) rfl
      rcases Nat.lt_or_ge n given'.length with hlt | hge
      · exact .inl hlt
      · exact .inr ⟨by omega, rfl⟩
    exact ⟨(List.take_of_length_le hlt.le).symm, by simpa using hlt⟩
  | stop =>
    have hlength : given'.length = n := by
      apply Nat.le_antisymm
      · by_contra hlt
        exact hne (h.goesOn_of_lt hpos (.inl (Nat.lt_of_not_le hlt))) rfl
      · by_contra hlt
        have hon' := hon _ (Nat.lt_of_not_le hlt)
        rw [h.goesOn_of_stop] at hon'
        cases hon'
    subst hlength
    exact ⟨List.prefix_iff_eq_take.1 hfirst, by simpa using hfirst.length_le⟩

end Hands

/-! ## Visits -/

section Visits

variable {ε σ : Type} {product : κ → Prop} {goesOn : Nat → Bool} {state : List κ → σ → Prop}
  {items : List κ}

/-- From a state in which some items were handed over, the computation hands over what comes of the
given ones, and does not fail. -/
def Covers (product : κ → Prop) (goesOn : Nat → Bool) (state : List κ → σ → Prop) (items : List κ)
    (x : EStateM ε σ Flow) : Prop :=
  ∀ given st, goesOn given.length = true → state given st →
    Ends (fun flow st' => ∃ given', Hands product goesOn given items flow given' ∧
      state given' st') (fun _ _ => False) (x st)

/-- Without products among the items there is nothing to do. -/
theorem Covers.of_no_product {x : EStateM ε σ Flow} (hx : Covers product goesOn state [] x)
    (h : ∀ item ∈ items, ¬ product item) : Covers product goesOn state items x := by
  intro given st hon hst
  refine (hx given st hon hst).imp ?_
  rintro flow st' ⟨given', hhands, hst'⟩
  cases hhands with
  | done => exact ⟨given, .of_no_product h, hst'⟩

/-- Two visits in a row hand over what comes of the items of both. -/
theorem visiting_covers :
    Visiting (Covers product goesOn state : List κ → EStateM ε σ Flow → Prop) where
  nil given _ _ hst := ⟨given, .done, hst⟩
  bind hx hstop hnext given st hon hst := by
    refine Ends.bind (hx given st hon hst) ?_
    rintro flow st' ⟨given', hhands, hst'⟩
    cases flow with
    | stop =>
      -- The second visit does not take place, and its items do not matter.
      rw [hstop]
      exact ⟨given', hhands.append_of_stop _, hst'⟩
    | next =>
      refine (hnext given' st' (hhands.goesOn_length hon) hst').imp ?_
      rintro flow st'' ⟨given'', hhands', hst''⟩
      exact ⟨given'', hhands.append hhands', hst''⟩

end Visits

end ProductLine
