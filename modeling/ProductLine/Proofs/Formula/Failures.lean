import Mathlib.Tactic.Common
import ProductLine.Proofs.Formula.ClauseForm
import ProductLine.Proofs.Formula.Names
/-!
# When a formula has a clause form

A name without a variable is found out before any clause is made, so whether a formula fails for one
does not depend on the limit.  It fails for the first such name.  A larger limit changes nothing
about a clause form that a smaller one admits.

* `Variables.Resolves` says of a computation that it fails for the first unknown one of some names,
  and `Formula.resolves_normalize` that the normal form of a formula does so;
* `Nnf.clauses_mono` compares two limits, and `Nnf.length_clauses_le` counts the clauses under one;
* `Formula.clauseForm_error` puts the two steps of the translation together, and
  `Formula.eq_tooLarge_of_clauseForm` is about formulas over known names.
-/
namespace ProductLine

/-- Two computations in a row fail if one of them does. -/
theorem bind_eq_error {ε α β : Type} {x : Except ε α} {f : α → Except ε β} {e : ε} :
    (x >>= f) = .error e ↔ x = .error e ∨ ∃ a, x = .ok a ∧ f a = .error e := by
  cases x <;> simp [bind, Except.bind]

/-! ## Names in order -/

namespace Formula

/-- Names are only added at the end. -/
theorem prefix_addName (names : List String) (name : String) : names <+: addName names name := by
  unfold addName
  split
  · exact List.prefix_rfl
  · exact List.prefix_append names [name]

mutual

/-- The names that were listed before come first. -/
theorem prefix_addNames : ∀ (names : List String) (f : Formula), names <+: addNames names f
  | names, const _ => by
      unfold addNames
      exact List.prefix_rfl
  | names, var name => by
      rw [addNames]
      exact prefix_addName names name
  | names, not f => by
      rw [addNames]
      exact prefix_addNames names f
  | names, and fs => by
      rw [addNames]
      exact prefix_addAllNames names fs
  | names, or fs => by
      rw [addNames]
      exact prefix_addAllNames names fs
  | names, implies a b => by
      rw [addNames]
      exact (prefix_addNames names a).trans (prefix_addNames _ b)
  | names, iff a b => by
      rw [addNames]
      exact (prefix_addNames names a).trans (prefix_addNames _ b)

/-- The same for the names of a list of formulas. -/
theorem prefix_addAllNames :
    ∀ (names : List String) (fs : List Formula), names <+: addAllNames names fs
  | names, [] => by
      unfold addAllNames
      exact List.prefix_rfl
  | names, f :: fs => by
      rw [addAllNames]
      exact (prefix_addNames names f).trans (prefix_addAllNames _ fs)

end

end Formula

namespace Variables

variable {vs : Variables} {α β : Type} {names before after : List String}

/-- The first of some names that has no variable. -/
def firstUnknown? (vs : Variables) (names : List String) : Option String :=
  names.find? (fun name => (vs.find? name).isNone)

/-- The computation has a result if all the names have variables, and otherwise fails for the first
one that has none. -/
def Resolves (vs : Variables) (names : List String) (x : Except ClauseFormError α) : Prop :=
  match vs.firstUnknown? names with
  | none => ∃ a, x = .ok a
  | some name => x = .error (.unknownVariable name)

/-- The first unknown name stays the first when more names follow. -/
theorem firstUnknown?_of_prefix (h : before <+: after) {name : String}
    (hbefore : vs.firstUnknown? before = some name) : vs.firstUnknown? after = some name := by
  obtain ⟨more, rfl⟩ := h
  rw [firstUnknown?] at hbefore
  rw [firstUnknown?, List.find?_append, hbefore, Option.some_or]

/-- Nothing fails where every name is known. -/
theorem resolves_pure (h : vs.firstUnknown? names = none) (a : α) :
    vs.Resolves names (pure a) := by
  rw [Resolves, h]
  exact ⟨a, rfl⟩

/-- Two computations in a row, the second of which comes to further names. -/
theorem Resolves.bind {x : Except ClauseFormError α} {f : α → Except ClauseFormError β}
    (hx : vs.Resolves before x) (hmore : before <+: after)
    (hf : ∀ a, vs.firstUnknown? before = none → vs.Resolves after (f a)) :
    vs.Resolves after (x >>= f) := by
  cases hbefore : vs.firstUnknown? before with
  | none =>
    rw [Resolves, hbefore] at hx
    obtain ⟨a, rfl⟩ := hx
    exact hf a hbefore
  | some name =>
    rw [Resolves, hbefore] at hx
    rw [Resolves, firstUnknown?_of_prefix hmore hbefore, hx]
    rfl

/-- A computation after which nothing can fail. -/
theorem Resolves.map {x : Except ClauseFormError α} (h : vs.Resolves names x) (f : α → β) :
    vs.Resolves names (x >>= fun a => pure (f a)) :=
  h.bind List.prefix_rfl (fun a hnames => resolves_pure hnames (f a))

/-- A literal fails exactly for an unknown name. -/
theorem resolves_lit (h : vs.firstUnknown? names = none) (name : String) (polarity : Bool) :
    vs.Resolves (Formula.addName names name) (vs.lit name polarity) := by
  have hknown : ∀ n ∈ names, vs.find? n ≠ none := by
    rw [firstUnknown?, List.find?_eq_none] at h
    simpa using h
  unfold Resolves Formula.addName lit
  cases hfind : vs.find? name with
  | some i =>
    have hall : vs.firstUnknown? (if name ∈ names then names else names ++ [name]) = none := by
      split
      · exact h
      · rw [firstUnknown?] at h ⊢
        rw [List.find?_append, h]
        simp [hfind]
    rw [hall]
    exact ⟨_, rfl⟩
  | none =>
    -- It was not met before, as all names before it have variables.
    have hnew : name ∉ names := fun hmem => hknown name hmem hfind
    have hfirst : vs.firstUnknown? (names ++ [name]) = some name := by
      rw [firstUnknown?] at h ⊢
      rw [List.find?_append, h]
      simp [hfind]
    rw [if_neg hnew, hfirst]

end Variables

/-! ## Normal forms -/

namespace Formula

open Variables (resolves_pure resolves_lit)

variable {vs : Variables}

mutual

/-- A normal form fails for the first name without a variable, whatever its polarity.  All names
that were listed before have variables. -/
theorem resolves_normalize : ∀ {names : List String}, vs.firstUnknown? names = none →
    ∀ (polarity : Bool) (f : Formula), vs.Resolves (addNames names f) (f.normalize vs polarity)
  | names, h, polarity, const value => by
      rw [normalize, addNames]
      exact resolves_pure h _
  | names, h, polarity, var name => by
      rw [normalize, addNames]
      exact (resolves_lit h name polarity).map _
  | names, h, polarity, not f => by
      rw [normalize, addNames]
      exact resolves_normalize h _ f
  | names, h, polarity, and fs => by
      rw [normalize, addNames]
      exact (resolves_normalizeAll h polarity fs).map _
  | names, h, polarity, or fs => by
      rw [normalize, addNames]
      exact (resolves_normalizeAll h polarity fs).map _
  | names, h, polarity, implies a b => by
      rw [normalize, addNames]
      apply (resolves_normalize h (!polarity) a).bind (prefix_addNames _ b)
      intro premise ha
      exact (resolves_normalize ha polarity b).map _
  | names, h, polarity, iff a b => by
      rw [normalize, addNames]
      -- Each side is gone through twice, and the second time nothing new is met.
      apply (resolves_normalize h true a).bind (prefix_addNames _ b)
      intro aTrue _
      apply (resolves_normalize h false a).bind (prefix_addNames _ b)
      intro aFalse ha
      apply (resolves_normalize ha true b).bind List.prefix_rfl
      intro bTrue _
      exact (resolves_normalize ha false b).map _

/-- The same for a list of formulas. -/
theorem resolves_normalizeAll : ∀ {names : List String}, vs.firstUnknown? names = none →
    ∀ (polarity : Bool) (fs : List Formula),
      vs.Resolves (addAllNames names fs) (normalizeAll vs polarity fs)
  | names, h, polarity, [] => by
      rw [normalizeAll, addAllNames]
      exact resolves_pure h _
  | names, h, polarity, f :: fs => by
      rw [normalizeAll, addAllNames]
      apply (resolves_normalize h polarity f).bind (prefix_addAllNames _ fs)
      intro part hf
      exact (resolves_normalizeAll hf polarity fs).map _

end

end Formula

/-! ## Limits -/

namespace Nnf

variable {limit limit' : Nat}

/-- Joining the clauses of two sets fails only at the limit. -/
theorem joinAll_error {right done cs : List Clause} {count : Nat} {e : ClauseFormError}
    (h : joinAll limit right count done cs = .error e) : e = .tooLarge limit := by
  induction cs generalizing count done with
  | nil =>
    rw [joinAll] at h
    cases h
  | cons c cs ih =>
    simp only [joinAll] at h
    split at h
    · cases h
      rfl
    · exact ih h

mutual

/-- Making clauses fails for nothing but their number. -/
theorem clauses_error : ∀ {f : Nnf} {e : ClauseFormError}, f.clauses limit = .error e →
    e = .tooLarge limit
  | const _, e, h => by
      rw [clauses] at h
      cases h
  | lit _, e, h => by
      rw [clauses] at h
      cases h
  | and fs, e, h => by
      rw [clauses] at h
      exact conjoin_error h
  | or fs, e, h => by
      rw [clauses] at h
      exact disjoin_error h

/-- A conjunction fails only at the limit. -/
theorem conjoin_error : ∀ {fs : List Nnf} {count : Nat} {e : ClauseFormError},
    conjoin limit count fs = .error e → e = .tooLarge limit
  | [], count, e, h => by
      rw [conjoin] at h
      cases h
  | f :: fs, count, e, h => by
      rw [conjoin] at h
      rcases bind_eq_error.1 h with h | ⟨part, -, h⟩
      · exact clauses_error h
      · split at h
        · cases h
          rfl
        · rcases bind_eq_error.1 h with h | ⟨rest, -, h⟩
          · exact conjoin_error h
          · cases h

/-- A disjunction fails only at the limit. -/
theorem disjoin_error : ∀ {fs : List Nnf} {product : List Clause} {e : ClauseFormError},
    disjoin limit product fs = .error e → e = .tooLarge limit
  | [], product, e, h => by
      rw [disjoin] at h
      cases h
  | f :: fs, product, e, h => by
      rw [disjoin] at h
      rcases bind_eq_error.1 h with h | ⟨part, -, h⟩
      · exact clauses_error h
      · rcases bind_eq_error.1 h with h | ⟨joined, -, h⟩
        · exact joinAll_error h
        · exact disjoin_error h

end

/-- What can be joined can be joined with a larger limit, with the same clauses. -/
theorem joinAll_mono (hle : limit ≤ limit') {right done cs all : List Clause} {count : Nat}
    (h : joinAll limit right count done cs = .ok all) :
    joinAll limit' right count done cs = .ok all := by
  induction cs generalizing count done with
  | nil => exact h
  | cons c cs ih =>
    simp only [joinAll] at h ⊢
    split at h
    · cases h
    · rename_i hfits
      rw [if_neg (by omega)]
      exact ih h

mutual

/-- A larger limit makes the same clauses. -/
theorem clauses_mono (hle : limit ≤ limit') : ∀ {f : Nnf} {cs : List Clause},
    f.clauses limit = .ok cs → f.clauses limit' = .ok cs
  | const _, cs, h => by
      rw [clauses] at h ⊢
      exact h
  | lit _, cs, h => by
      rw [clauses] at h ⊢
      exact h
  | and fs, cs, h => by
      rw [clauses] at h ⊢
      exact conjoin_mono hle h
  | or fs, cs, h => by
      rw [clauses] at h ⊢
      exact disjoin_mono hle h

/-- A conjunction within the limit is the same with a larger one. -/
theorem conjoin_mono (hle : limit ≤ limit') : ∀ {fs : List Nnf} {count : Nat} {cs : List Clause},
    conjoin limit count fs = .ok cs → conjoin limit' count fs = .ok cs
  | [], count, cs, h => by
      rw [conjoin] at h ⊢
      exact h
  | f :: fs, count, cs, h => by
      rw [conjoin] at h ⊢
      obtain ⟨part, hpart, h⟩ := bind_eq_ok.1 h
      split at h
      · cases h
      · rename_i hfits
        obtain ⟨rest, hrest, h⟩ := bind_eq_ok.1 h
        refine bind_eq_ok.2 ⟨part, clauses_mono hle hpart, ?_⟩
        rw [if_neg (by omega)]
        exact bind_eq_ok.2 ⟨rest, conjoin_mono hle hrest, h⟩

/-- A disjunction within the limit is the same with a larger one. -/
theorem disjoin_mono (hle : limit ≤ limit') : ∀ {fs : List Nnf} {product cs : List Clause},
    disjoin limit product fs = .ok cs → disjoin limit' product fs = .ok cs
  | [], product, cs, h => by
      rw [disjoin] at h ⊢
      exact h
  | f :: fs, product, cs, h => by
      rw [disjoin] at h ⊢
      obtain ⟨part, hpart, h⟩ := bind_eq_ok.1 h
      obtain ⟨joined, hjoined, h⟩ := bind_eq_ok.1 h
      refine bind_eq_ok.2 ⟨part, clauses_mono hle hpart, ?_⟩
      exact bind_eq_ok.2 ⟨joined, joinAll_mono hle hjoined, disjoin_mono hle h⟩

end

/-! ## Numbers of clauses -/

/-- Joining stays within the limit. -/
theorem length_joinAll_le {right done cs all : List Clause} {count : Nat}
    (hdone : done.length = count) (hcount : count ≤ limit)
    (h : joinAll limit right count done cs = .ok all) : all.length ≤ limit := by
  induction cs generalizing count done with
  | nil =>
    rw [joinAll, Except.ok.injEq] at h
    rw [← h, List.length_reverse]
    omega
  | cons c cs ih =>
    simp only [joinAll] at h
    split at h
    · cases h
    · apply ih ?_ (by omega) h
      rw [List.length_append, List.length_reverse]
      omega

/-- A conjunction stays within the limit, together with the clauses before it. -/
theorem length_conjoin_le {fs : List Nnf} {count : Nat} {cs : List Clause} (hcount : count ≤ limit)
    (h : conjoin limit count fs = .ok cs) : count + cs.length ≤ limit := by
  induction fs generalizing count cs with
  | nil =>
    rw [conjoin, Except.ok.injEq] at h
    simpa [← h] using hcount
  | cons f fs ih =>
    rw [conjoin] at h
    obtain ⟨part, -, h⟩ := bind_eq_ok.1 h
    split at h
    · cases h
    · obtain ⟨rest, hrest, h⟩ := bind_eq_ok.1 h
      cases h
      have := ih (by omega) hrest
      rw [List.length_append]
      omega

/-- A disjunction stays within the limit. -/
theorem length_disjoin_le {fs : List Nnf} {product cs : List Clause}
    (hproduct : product.length ≤ limit) (h : disjoin limit product fs = .ok cs) :
    cs.length ≤ limit := by
  induction fs generalizing product with
  | nil =>
    rw [disjoin, Except.ok.injEq] at h
    exact h ▸ hproduct
  | cons f fs ih =>
    rw [disjoin] at h
    obtain ⟨part, -, h⟩ := bind_eq_ok.1 h
    obtain ⟨joined, hjoined, h⟩ := bind_eq_ok.1 h
    exact ih (length_joinAll_le List.length_nil (Nat.zero_le limit) hjoined) h

/-- There are no more clauses than the limit says, unless it has no room for the single one that a
literal or a contradiction takes. -/
theorem length_clauses_le {f : Nnf} {cs : List Clause} (hlimit : 1 ≤ limit)
    (h : f.clauses limit = .ok cs) : cs.length ≤ limit := by
  cases f with
  | const value =>
    rw [clauses, Except.ok.injEq] at h
    subst h
    cases value
    · exact hlimit
    · exact Nat.zero_le limit
  | lit l =>
    rw [clauses, Except.ok.injEq] at h
    exact h ▸ hlimit
  | and fs =>
    rw [clauses] at h
    have := length_conjoin_le (Nat.zero_le limit) h
    omega
  | or fs =>
    rw [clauses] at h
    exact length_disjoin_le (List.length_singleton ▸ hlimit) h

end Nnf

/-! ## Clause forms -/

namespace Formula

variable {vs : Variables} {limit limit' : Nat} {f : Formula} {set : ClauseSet}

/-- A clause form fails for the first unknown name, or for its limit. -/
theorem clauseForm_error {e : ClauseFormError} (h : f.clauseForm vs limit = .error e) :
    e = .tooLarge limit ∨
      ∃ name, vs.firstUnknown? f.names = some name ∧ e = .unknownVariable name := by
  have hnone : vs.firstUnknown? [] = none := rfl
  have hnormal := resolves_normalize hnone true f
  rw [← names, Variables.Resolves] at hnormal
  rcases bind_eq_error.1 h with h | ⟨g, -, h⟩
  · cases hfirst : vs.firstUnknown? f.names with
    | none =>
      rw [hfirst, h] at hnormal
      obtain ⟨normal, hnormal⟩ := hnormal
      cases hnormal
    | some name =>
      rw [hfirst, h] at hnormal
      exact .inr ⟨name, rfl, Except.error.inj hnormal⟩
  · rcases bind_eq_error.1 h with h | ⟨cs, -, h⟩
    · exact .inl (Nnf.clauses_error h)
    · cases h

/-- A clause form fails for the first unknown name, whatever the limit. -/
theorem clauseForm_error_iff {name : String} :
    f.clauseForm vs limit = .error (.unknownVariable name) ↔
      vs.firstUnknown? f.names = some name := by
  constructor
  · intro h
    rcases clauseForm_error h with h | ⟨first, hfirst, h⟩
    · cases h
    · cases h
      exact hfirst
  · intro hfirst
    have hnone : vs.firstUnknown? [] = none := rfl
    have hnormal := resolves_normalize hnone true f
    rw [← names, Variables.Resolves, hfirst] at hnormal
    rw [clauseForm, hnormal]
    rfl

/-- If all its names have variables, a clause form fails only for its limit. -/
theorem eq_tooLarge_of_clauseForm {e : ClauseFormError}
    (hnames : f.Over vs.names) (h : f.clauseForm vs limit = .error e) :
    e = .tooLarge limit := by
  rcases clauseForm_error h with h | ⟨name, hfirst, rfl⟩
  · exact h
  · have hunknown := List.find?_some hfirst
    have hmem := hnames name (List.mem_of_find?_eq_some hfirst)
    rw [Option.isNone_iff_eq_none, Variables.find?, List.idxOf?_eq_none_iff] at hunknown
    exact absurd hmem hunknown

/-- A clause form within the limit is the same with a larger one. -/
theorem clauseForm_mono (hle : limit ≤ limit') (h : f.clauseForm vs limit = .ok set) :
    f.clauseForm vs limit' = .ok set := by
  obtain ⟨g, hg, cs, hcs, rfl⟩ := clauseForm_eq_ok.1 h
  exact clauseForm_eq_ok.2 ⟨g, hg, cs, Nnf.clauses_mono hle hcs, rfl⟩

/-- A clause form has at most as many clauses as the limit allows. -/
theorem length_clauseForm_le (hlimit : 1 ≤ limit) (h : f.clauseForm vs limit = .ok set) :
    set.clauses.length ≤ limit := by
  obtain ⟨g, -, cs, hcs, rfl⟩ := clauseForm_eq_ok.1 h
  exact Nnf.length_clauses_le hlimit hcs

/-- **A clause form fails for the first unknown name, or for its limit.**  Whatever the limit, it
fails for an unknown name exactly if some name of the formula has no variable, and then for the
first one that has none.  If there is a clause form under one limit, it is the same under every
larger one.  It has no more clauses than the limit says, if that is at least one. -/
theorem clauseForm_limits (vs : Variables) (f : Formula) {limit limit' : Nat}
    (hle : limit ≤ limit') :
    ((∃ name, f.clauseForm vs limit = .error (.unknownVariable name)) ↔
      ∃ name ∈ f.names, vs.find? name = none) ∧
    (∀ name, f.clauseForm vs limit = .error (.unknownVariable name) ↔
      f.names.find? (fun n => (vs.find? n).isNone) = some name) ∧
    (∀ set, f.clauseForm vs limit = .ok set → f.clauseForm vs limit' = .ok set) ∧
    (1 ≤ limit → ∀ set, f.clauseForm vs limit = .ok set → set.clauses.length ≤ limit) := by
  refine ⟨?_, fun name => clauseForm_error_iff, fun set => clauseForm_mono hle,
    fun hlimit set => length_clauseForm_le hlimit⟩
  simp only [clauseForm_error_iff, Variables.firstUnknown?]
  rw [← Option.isSome_iff_exists, List.find?_isSome]
  simp

/-- Of two unknown names the first one is told, although the limit leaves no room for any clause.
Two conjunctions that exclude each other need two clauses, since the joins that are tautologies do
not count, so a limit of two is enough. -/
theorem clauseForm_limits_excluding :
    clauseForm ⟨["A", "B"]⟩ 0 (.iff (.var "A") (.or [.var "X", .var "Y"])) =
      .error (.unknownVariable "X") ∧
    ∃ set, clauseForm ⟨["A", "B"]⟩ 5 (.or [.and [.var "A", .var "B"],
      .and [.not (.var "A"), .not (.var "B")]]) = .ok set ∧ set.clauses.length ≤ 2 := by
  have hunknown := (clauseForm_limits ⟨["A", "B"]⟩ (.iff (.var "A") (.or [.var "X", .var "Y"]))
    (Nat.zero_le 5)).2.1 "X"
  obtain ⟨-, -, hmono, hlength⟩ := clauseForm_limits ⟨["A", "B"]⟩ (.or [.and [.var "A", .var "B"],
    .and [.not (.var "A"), .not (.var "B")]]) (show 2 ≤ 5 by decide)
  have hset : clauseForm ⟨["A", "B"]⟩ 2 (.or [.and [.var "A", .var "B"],
      .and [.not (.var "A"), .not (.var "B")]]) =
        .ok ⟨2, [[⟨0, true⟩, ⟨1, false⟩], [⟨0, false⟩, ⟨1, true⟩]]⟩ := by
    rfl
  exact ⟨hunknown.2 (by decide), _, hmono _ hset, hlength (by decide) _ hset⟩

end Formula

end ProductLine
