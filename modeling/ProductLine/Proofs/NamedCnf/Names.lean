import Mathlib.Tactic.Common
import ProductLine.Proofs.NamedCnf
/-!
# Which names the variables get

Names are chosen in the order of the variables.  A name that a comment gives counts unless an
earlier variable is called so, be it by a comment or by its number.

* `NamedCnf.FirstNamed` says what name the comments of an input give to a variable;
* `NamedCnf.Chosen` says that the names of an input come from its comments, and
  `NamedCnf.Chosen.name?_cases` what a variable may be called;
* `NamedCnf.called_by_comment` says when a variable is called as its comment says.
-/
namespace ProductLine.NamedCnf

/-! ## Comments -/

/-- The first comment that gives the variable a name gives it this one. -/
def FirstNamed (text : List Char) (var : Nat) (name : String) : Prop :=
  ∃ before line after, Text.lines text = before ++ line :: after ∧
    nameOfLine? line = some (var, name) ∧
      ∀ earlier ∈ before, ∀ other, nameOfLine? earlier ≠ some (var, other)

/-- The first comment for a variable is the one that counts. -/
theorem lookup_givenNames {text : List Char} {var : Nat} {name : String} :
    (givenNames text).lookup var = some name ↔ FirstNamed text var name := by
  unfold givenNames FirstNamed
  constructor
  · intro h
    obtain ⟨given, rest, hsplit, hgiven⟩ := List.lookup_eq_some_iff.1 h
    obtain ⟨before, behind, hlines, rfl, hbehind⟩ := List.filterMap_eq_append_iff.1 hsplit
    -- The lines up to the one that gives the name give other names, or none.
    obtain ⟨idle, line, after, rfl, hidle, hline, -⟩ := List.filterMap_eq_cons_iff.1 hbehind
    refine ⟨before ++ idle, line, after, by rw [hlines, List.append_assoc], hline, ?_⟩
    intro earlier hearlier other hother
    rcases List.mem_append.1 hearlier with hmem | hmem
    · simpa using hgiven (var, other) (List.mem_filterMap.2 ⟨earlier, hmem, hother⟩)
    · rw [hidle earlier hmem] at hother
      cases hother
  · rintro ⟨before, line, after, hlines, hline, hbefore⟩
    rw [List.lookup_eq_some_iff]
    refine ⟨before.filterMap nameOfLine?, after.filterMap nameOfLine?, by simp [hlines, hline], ?_⟩
    rintro ⟨owner, other⟩ hmem
    obtain ⟨earlier, hearlier, hother⟩ := List.mem_filterMap.1 hmem
    rw [bne_iff_ne]
    rintro rfl
    exact hbefore earlier hearlier other hother

/-- A name that is looked up is one of those given. -/
theorem mem_of_lookup {given : List (Nat × String)} {var : Nat} {name : String}
    (h : given.lookup var = some name) : (var, name) ∈ given := by
  obtain ⟨before, after, rfl, -⟩ := List.lookup_eq_some_iff.1 h
  simp

/-- A variable with a given name is counted. -/
theorem lt_namedCount {given : List (Nat × String)} {var : Nat} {name : String}
    (h : given.lookup var = some name) : var < namedCount given :=
  (foldl_max_le_iff.1 (Nat.le_refl (namedCount given))).2 (var, name) (mem_of_lookup h)

/-! ## The choice of a name -/

/-- A name that clashes only gets underscores in front. -/
theorem exists_unclash_eq (taken : List String) (most : Nat) (name : String) :
    ∃ n, unclash taken most name = underscored n name := by
  induction most generalizing name with
  | zero => exact ⟨0, rfl⟩
  | succ most ih =>
    rw [unclash]
    split
    · obtain ⟨n, hn⟩ := ih ("_" ++ name)
      exact ⟨n + 1, hn⟩
    · exact ⟨0, rfl⟩

/-- A given name that is free is chosen. -/
theorem chooseName_of_free {given : List (Nat × String)} {taken : List String} {var : Nat}
    {name : String} (hgiven : given.lookup var = some name) (hfree : name ∉ taken) :
    chooseName given taken var = (name, true) := by
  rw [chooseName, hgiven]
  exact if_neg hfree

/-- A name that is taken does not count, so the variable is called by its number. -/
theorem chooseName_of_not_free {given : List (Nat × String)} {taken : List String} {var : Nat}
    (h : ∀ name, given.lookup var = some name → name ∈ taken) :
    chooseName given taken var = (numbered taken var, false) := by
  rw [chooseName]
  split
  · rename_i name hgiven
    exact if_pos (h name hgiven)
  · rfl

/-- The names of the first variables do not depend on how many others there are. -/
theorem take_chooseNames (given : List (Nat × String)) {i count : Nat} (hi : i ≤ count) :
    (chooseNames given count).take i = chooseNames given i := by
  induction count with
  | zero =>
    obtain rfl := Nat.le_zero.1 hi
    rfl
  | succ count ih =>
    rcases Nat.lt_or_ge count i with hlt | hle
    · obtain rfl : i = count + 1 := by omega
      exact List.take_of_length_le (by rw [length_chooseNames])
    · rw [chooseNames, List.take_append_of_le_length (by rwa [length_chooseNames]), ih hle]

/-- Each variable chooses among the names that those before it left. -/
theorem getElem?_chooseNames (given : List (Nat × String)) {i count : Nat} (hi : i < count) :
    (chooseNames given count)[i]? =
      some (chooseName given ((chooseNames given i).map Prod.fst) i) := by
  rw [← List.getElem?_take_of_lt (Nat.lt_succ_self i), take_chooseNames given hi, chooseNames,
    List.getElem?_append_right (by rw [length_chooseNames]), length_chooseNames, Nat.sub_self]
  rfl

/-! ## The names of an input -/

/-- The variables chose their names in order, and all variables with given names are among them. -/
structure Chosen (cnf : NamedCnf) (given : List (Nat × String)) : Prop where
  names : cnf.vars.names = (chooseNames given cnf.vars.size).map Prod.fst
  named : cnf.named = (chooseNames given cnf.vars.size).map Prod.snd
  counted : namedCount given ≤ cnf.vars.size

/-- The names of an input are chosen one after the other, by what is given. -/
theorem chosen_of_ofClauses {given : List (Nat × String)} {s : ClauseSet} {cnf : NamedCnf}
    (h : ofClauses given s = .ok cnf) : cnf.Chosen given := by
  obtain ⟨formulas, -, hcnf⟩ := bind_eq_ok.1 h
  cases hcnf
  have hsize : Variables.size
      ⟨(chooseNames given (max s.varCount (namedCount given))).map Prod.fst⟩ =
        max s.varCount (namedCount given) := by
    rw [Variables.size, List.length_map, length_chooseNames]
  refine ⟨?_, ?_, ?_⟩
  · rw [hsize]
  · rw [hsize]
  · rw [hsize]
    exact Nat.le_max_right ..

/-- An input that is read is a text, whose comments give the names. -/
theorem chosen_of_ofBytes? {ε : Type} {parse : ClauseParser ε} {bytes : ByteArray} {cnf : NamedCnf}
    (h : ofBytes? parse bytes = .ok cnf) :
    ∃ text, String.fromUTF8? bytes = some text ∧ cnf.Chosen (givenNames text.toList) := by
  unfold ofBytes? at h
  split at h
  · rename_i text htext
    refine ⟨text, htext, ?_⟩
    unfold ofText? at h
    split at h
    · cases h
    · split at h
      · cases h
      · rename_i cnf' hcnf
        cases h
        exact chosen_of_ofClauses hcnf
  · cases h

namespace Chosen

variable {cnf : NamedCnf} {given : List (Nat × String)} {var : Nat} {name : String}

theorem nodup (h : cnf.Chosen given) : cnf.vars.names.Nodup :=
  h.names ▸ nodup_chooseNames given cnf.vars.size

/-- What a variable is called, and whether by a comment. -/
theorem choice (h : cnf.Chosen given) (hvar : var < cnf.vars.size) :
    cnf.vars.name? var = some (chooseName given (cnf.vars.names.take var) var).1 ∧
      cnf.named[var]? = some (chooseName given (cnf.vars.names.take var) var).2 := by
  have htaken : cnf.vars.names.take var = (chooseNames given var).map Prod.fst := by
    rw [h.names, ← List.map_take, take_chooseNames given (Nat.le_of_lt hvar)]
  have hchosen := getElem?_chooseNames given hvar
  constructor
  · rw [htaken, Variables.name?, h.names, List.getElem?_map, hchosen, Option.map_some]
  · rw [htaken, h.named, List.getElem?_map, hchosen, Option.map_some]

/-- The names chosen earlier are those of earlier variables. -/
theorem mem_take_iff : name ∈ cnf.vars.names.take var ↔
    ∃ earlier < var, cnf.vars.name? earlier = some name := by
  rw [List.mem_iff_getElem?]
  simp only [List.getElem?_take, ite_eq_iff, Variables.name?]
  simp

/-- Only variables of the input have a given name. -/
theorem lt_size (h : cnf.Chosen given) (hgiven : given.lookup var = some name) :
    var < cnf.vars.size :=
  (lt_namedCount hgiven).trans_le h.counted

/-- A given name that is free is the name of the variable. -/
theorem given_of_free (h : cnf.Chosen given) (hgiven : given.lookup var = some name)
    (hfree : ∀ earlier < var, cnf.vars.name? earlier ≠ some name) :
    cnf.vars.name? var = some name ∧ cnf.named[var]? = some true := by
  have hnew : name ∉ cnf.vars.names.take var := by
    rw [mem_take_iff]
    rintro ⟨earlier, hearlier, hname⟩
    exact hfree earlier hearlier hname
  have hchoice := h.choice (h.lt_size hgiven)
  rwa [chooseName_of_free hgiven hnew] at hchoice

/-- A variable without a given name, or whose given name is taken, is called by its number, perhaps
with underscores in front. -/
theorem numbered_of_not_free (h : cnf.Chosen given) (hvar : var < cnf.vars.size)
    (htaken : ∀ name, given.lookup var = some name →
      ∃ earlier < var, cnf.vars.name? earlier = some name) :
    cnf.named[var]? = some false ∧
      ∃ n, cnf.vars.name? var = some (underscored n (toString (var + 1))) := by
  obtain ⟨hname, hnamed⟩ := h.choice hvar
  rw [chooseName_of_not_free fun name hgiven => mem_take_iff.2 (htaken name hgiven)] at hname hnamed
  obtain ⟨n, hn⟩ := exists_unclash_eq (cnf.vars.names.take var) (cnf.vars.names.take var).length
    (toString (var + 1))
  exact ⟨hnamed, n, hname.trans (congrArg some hn)⟩

/-- What a variable may be called. -/
theorem name?_cases (h : cnf.Chosen given) (hvar : var < cnf.vars.size) :
    (∃ name, given.lookup var = some name ∧ cnf.vars.name? var = some name ∧
      cnf.named[var]? = some true) ∨
    cnf.named[var]? = some false ∧
      ∃ n, cnf.vars.name? var = some (underscored n (toString (var + 1))) := by
  by_cases htaken : ∀ name, given.lookup var = some name →
      ∃ earlier < var, cnf.vars.name? earlier = some name
  · exact .inr (h.numbered_of_not_free hvar htaken)
  · push Not at htaken
    obtain ⟨name, hgiven, hfree⟩ := htaken
    exact .inl ⟨name, hgiven, h.given_of_free hgiven hfree⟩

end Chosen

/-! ## Variables that take part in configurations -/

section Concrete

variable {cnf : NamedCnf} {var : Nat} {name : String}

/-- A variable with a name from a comment is concrete. -/
theorem isConcrete_of_named (h : cnf.named[var]? = some true) : cnf.isConcrete var = true := by
  simp [isConcrete, h]

/-- It goes by that name in configurations. -/
theorem concreteName?_of_named (h : cnf.named[var]? = some true) :
    cnf.concreteName? var = cnf.vars.name? var :=
  if_pos (isConcrete_of_named h)

/-- It takes part in configurations. -/
theorem mem_concreteVars_of_named (hvar : var < cnf.vars.size) (h : cnf.named[var]? = some true) :
    var ∈ cnf.concreteVars :=
  List.mem_filter.2 ⟨List.mem_range.2 hvar, isConcrete_of_named h⟩

end Concrete

/-- **A variable is called as its comment says unless an earlier one is called so.**  Take a name
that the first comment for a variable gives and the first comment of no other one.  Then it is the
name of the variable, also in configurations, exactly if no earlier variable is called so.

An earlier variable can only be called so by its number, perhaps with underscores in front.  The
variable is called by its own number then, and counts as one without a comment. -/
theorem called_by_comment {ε : Type} {parse : ClauseParser ε} {bytes : ByteArray} {text : String}
    {cnf : NamedCnf} (htext : String.fromUTF8? bytes = some text)
    (hcnf : ofBytes? parse bytes = .ok cnf) {var : Nat} {name : String}
    (hname : FirstNamed text.toList var name)
    (honly : ∀ other ≠ var, ¬ FirstNamed text.toList other name) :
    (cnf.vars.name? var = some name ∧ cnf.concreteName? var = some name ∧ var ∈ cnf.concreteVars ↔
      ∀ earlier < var, cnf.vars.name? earlier ≠ some name) ∧
    ∀ earlier < var, cnf.vars.name? earlier = some name →
      (cnf.named[earlier]? = some false ∧ ∃ n, name = underscored n (toString (earlier + 1))) ∧
      cnf.named[var]? = some false ∧
        ∃ n, cnf.vars.name? var = some (underscored n (toString (var + 1))) := by
  obtain ⟨text', htext', hchosen⟩ := chosen_of_ofBytes? hcnf
  obtain rfl : text = text' := Option.some.inj (htext.symm.trans htext')
  have hgiven := lookup_givenNames.2 hname
  have hvar := hchosen.lt_size hgiven
  refine ⟨⟨?_, ?_⟩, ?_⟩
  · rintro ⟨hcalled, -, -⟩ earlier hearlier hsame
    exact Nat.ne_of_lt hearlier (Variables.eq_of_name? hchosen.nodup hsame hcalled)
  · intro hfree
    obtain ⟨hcalled, hnamed⟩ := hchosen.given_of_free hgiven hfree
    exact ⟨hcalled, (concreteName?_of_named hnamed).trans hcalled,
      mem_concreteVars_of_named hvar hnamed⟩
  · intro earlier hearlier hsame
    constructor
    · rcases hchosen.name?_cases (hearlier.trans hvar) with
        ⟨other, hother, hcalled, -⟩ | ⟨hnamed, n, hcalled⟩
      · obtain rfl : other = name := Option.some.inj (hcalled.symm.trans hsame)
        exact absurd (lookup_givenNames.1 hother) (honly earlier (Nat.ne_of_lt hearlier))
      · exact ⟨hnamed, n, Option.some.inj (hsame.symm.trans hcalled)⟩
    · refine hchosen.numbered_of_not_free hvar fun other hother => ?_
      obtain rfl : name = other := Option.some.inj (hgiven.symm.trans hother)
      exact ⟨earlier, hearlier, hsame⟩

/-- An input that calls its third variable by the number of the fourth one.  Its header announces
four variables and no clause. -/
def laterNumber : String := "c 1 R\nc 3 4\np cnf 4 0\n"

/-- What is read of it: the fourth variable has to make way. -/
def laterNumberRead : NamedCnf := ⟨⟨["R", "2", "4", "_4"]⟩, [true, false, true, false], []⟩

/-- The third variable is called so, and takes part in configurations by this name. -/
theorem called_by_comment_laterNumber :
    ofBytes? (onlyText laterNumber ⟨4, []⟩) laterNumber.toUTF8 = .ok laterNumberRead ∧
    FirstNamed laterNumber.toList 2 "4" ∧ laterNumberRead.vars.name? 2 = some "4" ∧
      laterNumberRead.concreteName? 2 = some "4" ∧ 2 ∈ laterNumberRead.concreteVars := by
  have hread : ofBytes? (onlyText laterNumber ⟨4, []⟩) laterNumber.toUTF8 = .ok laterNumberRead :=
    ofBytes?_toUTF8 (onlyText_known ..) (by cbv)
  have hgiven : givenNames laterNumber.toList = [(0, "R"), (2, "4")] := by cbv
  have hname : FirstNamed laterNumber.toList 2 "4" := by
    rw [← lookup_givenNames, hgiven]
    rfl
  have honly : ∀ other ≠ 2, ¬ FirstNamed laterNumber.toList other "4" := by
    intro other hne hother
    rw [← lookup_givenNames, hgiven] at hother
    simpa [hne] using mem_of_lookup hother
  have hcalled := (called_by_comment (fromUTF8?_toUTF8 _) hread hname honly).1.2 (by decide)
  exact ⟨hread, hname, hcalled⟩

/-- An input that calls its third variable by the number of the second one, which has no comment.
Its header announces three variables and no clause. -/
def earlierNumber : String := "c 1 R\nc 3 2\np cnf 3 0\n"

/-- What is read of it: the second variable is called by its number, and the third one as well. -/
def earlierNumberRead : NamedCnf := ⟨⟨["R", "2", "3"]⟩, [true, false, false], []⟩

/-- A name that only one comment gives may be lost, and with it the variable for configurations. -/
theorem not_called_by_comment_earlierNumber :
    ofBytes? (onlyText earlierNumber ⟨3, []⟩) earlierNumber.toUTF8 = .ok earlierNumberRead ∧
    FirstNamed earlierNumber.toList 2 "2" ∧
      (∀ other ≠ 2, ¬ FirstNamed earlierNumber.toList other "2") ∧
      earlierNumberRead.vars.name? 2 = some "3" ∧ earlierNumberRead.concreteName? 2 = none ∧
        earlierNumberRead.concreteVars = [0] := by
  have hread :
      ofBytes? (onlyText earlierNumber ⟨3, []⟩) earlierNumber.toUTF8 = .ok earlierNumberRead :=
    ofBytes?_toUTF8 (onlyText_known ..) (by cbv)
  have hgiven : givenNames earlierNumber.toList = [(0, "R"), (2, "2")] := by cbv
  have hname : FirstNamed earlierNumber.toList 2 "2" := by
    rw [← lookup_givenNames, hgiven]
    rfl
  have honly : ∀ other ≠ 2, ¬ FirstNamed earlierNumber.toList other "2" := by
    intro other hne hother
    rw [← lookup_givenNames, hgiven] at hother
    simpa [hne] using mem_of_lookup hother
  exact ⟨hread, hname, honly, by decide, by decide, by decide⟩

end ProductLine.NamedCnf
