import Mathlib.Data.Nat.Digits.Defs
import Mathlib.Tactic.Common
import ProductLine.Proofs.NamedCnf.Names
import ProductLine.Proofs.Text.Blank
/-!
# Literals as they are shown and read

A literal is shown as the name of its variable, with a minus in front if it is negative.  What is
read starts with a sign or with a name, and a name may start with a sign as well.

* `NamedCnf.Chosen.trimmed_name?` says that no blank stands at an end of a name, so reading takes
  nothing off what is shown;
* `NamedCnf.Signed` is a variable whose name starts like a negated literal;
* `NamedCnf.parseLit_showLit_iff` says which literals are read back, and which are shown as the same
  text.
-/
namespace ProductLine

open Text (isBlank Trimmed)

/-! ## Names and their ends -/

theorem Text.isBlank_of_isDigit {c : Char} (h : c.isDigit = true) : isBlank c = false := by
  have hrange : 48 ≤ c.toNat ∧ c.toNat ≤ 57 := by
    simpa [Char.isDigit, UInt32.le_iff_toNat_le] using h
  simp [isBlank, blankRanges]
  omega

namespace NamedCnf

/-- A name of a comment is made of words with single spaces between them. -/
theorem trimmed_of_nameOfLine? {line : List Char} {var : Nat} {name : String}
    (h : nameOfLine? line = some (var, name)) : Trimmed name.toList := by
  unfold nameOfLine? at h
  split at h
  · rename_i number first rest hwords
    split at h
    · cases h
      have hmem : ∀ w ∈ first :: rest, w ∈ Text.words line := by
        intro w hw
        rw [hwords]
        exact List.mem_cons_of_mem _ (List.mem_cons_of_mem _ hw)
      rw [String.toList_ofList]
      refine (Text.trimmed_intercalate ?_ ?_).1
      · exact fun w hw => Text.ne_nil_of_mem_words (hmem w hw)
      · exact fun w hw => Text.trimmed_of_forall (Text.not_isBlank_of_mem_words (hmem w hw))
    · cases h
    · cases h
  · cases h

/-- Underscores in front are no blanks. -/
theorem trimmed_underscored {name : String} (h : Trimmed name.toList) (n : Nat) :
    Trimmed (underscored n name).toList := by
  induction n generalizing name with
  | zero => exact h
  | succ n ih =>
    refine ih ?_
    rw [String.toList_append]
    exact Trimmed.cons (by decide) h

/-- The digits of a number have no blanks at their ends. -/
theorem trimmed_number (n : Nat) : Trimmed (toString n).toList := by
  refine Text.trimmed_of_forall fun c hc => Text.isBlank_of_isDigit ?_
  have hdigits : c ∈ Nat.toDigits 10 n := Nat.toList_repr ▸ hc
  exact Nat.isDigit_of_mem_toDigits (by decide) (by decide) hdigits

/-- No blank stands at an end of the name of a variable. -/
theorem Chosen.trimmed_name? {cnf : NamedCnf} {text : List Char} (h : cnf.Chosen (givenNames text))
    {var : Nat} {name : String} (hname : cnf.vars.name? var = some name) : Trimmed name.toList := by
  have hvar : var < cnf.vars.size := (List.getElem?_eq_some_iff.1 hname).1
  rcases h.name?_cases hvar with ⟨given, hgiven, hcalled, -⟩ | ⟨-, n, hcalled⟩
  · obtain rfl : given = name := Option.some.inj (hcalled.symm.trans hname)
    obtain ⟨line, -, hline⟩ := List.mem_filterMap.1 (mem_of_lookup hgiven)
    exact trimmed_of_nameOfLine? hline
  · rw [← Option.some.inj (hcalled.symm.trans hname)]
    exact trimmed_underscored (trimmed_number (var + 1)) n

/-! ## Signs -/

/-- The text starts like a negated literal. -/
def StartsWithSign (cs : List Char) : Prop := cs.head? = some '-' ∨ cs.head? = some '!'

/-- A text without a sign is positive as it stands. -/
theorem splitSign_of_not_startsWithSign {cs : List Char} (h : ¬ StartsWithSign cs) :
    splitSign cs = (true, cs) := by
  unfold splitSign
  split
  · exact absurd (.inl rfl) h
  · exact absurd (.inr rfl) h
  · rfl

/-- A text with a sign is negative. -/
theorem splitSign_of_startsWithSign {cs : List Char} (h : StartsWithSign cs) :
    (splitSign cs).1 = false := by
  cases cs with
  | nil => simp [StartsWithSign] at h
  | cons c cs =>
    rcases h with h | h
    · obtain rfl := Option.some.inj h
      rfl
    · obtain rfl := Option.some.inj h
      rfl

section Literals

variable {cnf : NamedCnf} {l : Lit} {var : Nat} {name text : String}

/-- A positive literal is shown as its name. -/
theorem showLit_positive (h : cnf.vars.name? var = some name) : cnf.showLit ⟨var, true⟩ = name := by
  simp [showLit, Variables.literalFormula, h, Formula.literal, Formula.text]

/-- A negative literal is shown with a minus before its name. -/
theorem showLit_negative (h : cnf.vars.name? var = some name) :
    cnf.showLit ⟨var, false⟩ = "-" ++ name := by
  simp [showLit, Variables.literalFormula, h, Formula.literal, Formula.text]

/-- A text whose rest after the sign is a name is a literal of this name. -/
theorem parseLit_of_find? (htrimmed : Trimmed text.toList) {positive : Bool}
    (hsplit : splitSign text.toList = (positive, name.toList))
    (h : cnf.vars.find? name = some var) :
    cnf.parseLit text = .ok ⟨var, positive⟩ := by
  simp [parseLit, Text.trim_of_trimmed htrimmed, hsplit, h]

/-- The sign decides the polarity of what is read. -/
theorem positive_of_parseLit (htrimmed : Trimmed text.toList) (h : cnf.parseLit text = .ok l) :
    l.positive = (splitSign text.toList).1 := by
  rw [parseLit, Text.trim_of_trimmed htrimmed] at h
  dsimp only at h
  split at h
  · cases h
    rfl
  · split at h
    · split at h
      · cases h
        rfl
      · cases h
    · cases h
    · cases h

/-! ## Reading back -/

/-- The variable has a name that starts like a negated literal. -/
def Signed (cnf : NamedCnf) (var : Nat) : Prop :=
  ∃ name, cnf.vars.name? var = some name ∧ StartsWithSign name.toList

/-- A variable, and the negation of another one that the first one is called like. -/
def Overlaps (cnf : NamedCnf) (k l : Lit) : Prop :=
  k.positive = true ∧ l.positive = false ∧ ∃ name, cnf.vars.name? l.var = some name ∧
    cnf.vars.name? k.var = some ("-" ++ name)

/-- A negative literal is always read back. -/
theorem parseLit_showLit_negative (hnames : cnf.vars.names.Nodup)
    (hname : cnf.vars.name? var = some name) (htrimmed : Trimmed name.toList) :
    cnf.parseLit (cnf.showLit ⟨var, false⟩) = .ok ⟨var, false⟩ := by
  rw [showLit_negative hname]
  have htoList : ("-" ++ name).toList = '-' :: name.toList := String.toList_append
  refine parseLit_of_find? ?_ ?_ (Variables.find?_of_name? hnames hname)
  · rw [htoList]
    exact htrimmed.cons (by decide)
  · rw [htoList]
    rfl

/-- A positive literal is read back exactly if its name does not start with a sign. -/
theorem parseLit_showLit_positive_iff (hnames : cnf.vars.names.Nodup)
    (hname : cnf.vars.name? var = some name) (htrimmed : Trimmed name.toList) :
    cnf.parseLit (cnf.showLit ⟨var, true⟩) = .ok ⟨var, true⟩ ↔ ¬ StartsWithSign name.toList := by
  rw [showLit_positive hname]
  constructor
  · intro hread hsign
    have hpositive := positive_of_parseLit htrimmed hread
    rw [splitSign_of_startsWithSign hsign] at hpositive
    cases hpositive
  · intro hsign
    exact parseLit_of_find? htrimmed (splitSign_of_not_startsWithSign hsign)
      (Variables.find?_of_name? hnames hname)

/-- Two literals are shown as the same text only if one is negative and the variable of the other is
called like it. -/
theorem showLit_eq_iff (hnames : cnf.vars.names.Nodup) {k l : Lit} {name' : String}
    (hk : cnf.vars.name? k.var = some name') (hl : cnf.vars.name? l.var = some name) :
    cnf.showLit k = cnf.showLit l ↔ k = l ∨ cnf.Overlaps k l ∨ cnf.Overlaps l k := by
  obtain ⟨i, positive⟩ := k
  obtain ⟨j, positive'⟩ := l
  dsimp only at hk hl
  have hvars : name' = name ↔ i = j := by
    constructor
    · rintro rfl
      exact Variables.eq_of_name? hnames hk hl
    · rintro rfl
      exact Option.some.inj (hk.symm.trans hl)
  cases positive <;> cases positive'
  · rw [showLit_negative hk, showLit_negative hl, String.append_right_inj, hvars]
    simp [Overlaps]
  · rw [showLit_negative hk, showLit_positive hl]
    simp [Overlaps, hk, hl, eq_comm]
  · rw [showLit_positive hk, showLit_negative hl]
    simp [Overlaps, hk, hl]
  · rw [showLit_positive hk, showLit_positive hl, hvars]
    simp [Overlaps]

end Literals

/-- **A literal is read back unless its text starts with a sign that belongs to the name.**  Take an
input that can be read, and a literal of one of its variables.  What is shown for it is read as the
same literal exactly if it is negative or the name of its variable does not start with a minus or an
exclamation mark.

Another literal is shown as the same text exactly if one of the two is negative and the other one is
a variable that is called like it. -/
theorem parseLit_showLit_iff {ε : Type} {parse : ClauseParser ε} {bytes : ByteArray}
    {cnf : NamedCnf} (hcnf : ofBytes? parse bytes = .ok cnf) {l : Lit}
    (hl : l.var < cnf.vars.size) :
    (cnf.parseLit (cnf.showLit l) = .ok l ↔ (l.positive = true → ¬ cnf.Signed l.var)) ∧
    ∀ k : Lit, k.var < cnf.vars.size →
      (cnf.showLit k = cnf.showLit l ↔ k = l ∨ cnf.Overlaps k l ∨ cnf.Overlaps l k) := by
  obtain ⟨text, -, hchosen⟩ := chosen_of_ofBytes? hcnf
  have hnamed : ∀ i < cnf.vars.size, ∃ name, cnf.vars.name? i = some name :=
    fun i hi => ⟨_, List.getElem?_eq_getElem hi⟩
  obtain ⟨name, hname⟩ := hnamed l.var hl
  constructor
  · have htrimmed := hchosen.trimmed_name? hname
    obtain ⟨var, positive⟩ := l
    cases positive with
    | false => simp [parseLit_showLit_negative hchosen.nodup hname htrimmed]
    | true =>
      rw [parseLit_showLit_positive_iff hchosen.nodup hname htrimmed]
      simp [Signed, hname]
  · intro k hk
    obtain ⟨name', hname'⟩ := hnamed k.var hk
    exact showLit_eq_iff hchosen.nodup hname' hname

/-- An input with names that start with signs, one of them like the negation of another name.  Its
header announces three variables and no clause. -/
def signedNames : String := "c 1 A b\nc 2 -A b\nc 3 !\np cnf 3 0\n"

/-- What is read of it. -/
def signedNamesRead : NamedCnf := ⟨⟨["A b", "-A b", "!"]⟩, [true, true, true], []⟩

/-- The first variable is read back, as is the negation of the second one, which is shown with two
minus signs.  The third variable is not read back.  The negation of the first variable and the
second variable are shown as the same text. -/
theorem parseLit_showLit_iff_signedNames :
    ofBytes? (onlyText signedNames ⟨3, []⟩) signedNames.toUTF8 = .ok signedNamesRead ∧
    signedNamesRead.parseLit (signedNamesRead.showLit ⟨0, true⟩) = .ok ⟨0, true⟩ ∧
    signedNamesRead.parseLit (signedNamesRead.showLit ⟨1, false⟩) = .ok ⟨1, false⟩ ∧
    signedNamesRead.parseLit (signedNamesRead.showLit ⟨2, true⟩) ≠ .ok ⟨2, true⟩ ∧
    signedNamesRead.showLit ⟨1, true⟩ = signedNamesRead.showLit ⟨0, false⟩ := by
  have hread : ofBytes? (onlyText signedNames ⟨3, []⟩) signedNames.toUTF8 = .ok signedNamesRead :=
    ofBytes?_toUTF8 (onlyText_known ..) (by cbv)
  have hplain := (parseLit_showLit_iff hread (l := ⟨0, true⟩) (by decide)).1
  have hunsigned : ¬ signedNamesRead.Signed 0 := by
    rintro ⟨name, hname, hsign⟩
    obtain rfl := Option.some.inj hname
    simp [StartsWithSign] at hsign
  have hsigned : signedNamesRead.Signed 2 := ⟨"!", rfl, .inr (by simp)⟩
  refine ⟨hread, hplain.2 fun _ => hunsigned, ?_, ?_, ?_⟩
  · exact (parseLit_showLit_iff hread (by decide)).1.2 (absurd · Bool.false_ne_true)
  · exact fun hback => (parseLit_showLit_iff hread (by decide)).1.1 hback rfl hsigned
  · refine ((parseLit_showLit_iff hread (by decide)).2 ⟨1, true⟩ (by decide)).2 (.inr (.inl ?_))
    exact ⟨rfl, rfl, "A b", rfl, rfl⟩

/-- An input whose first variable is called like the negation of the second one, which has no
comment.  Its header announces two variables and no clause. -/
def minusTwo : String := "c 1 -2\np cnf 2 0\n"

/-- What is read of it. -/
def minusTwoRead : NamedCnf := ⟨⟨["-2", "2"]⟩, [true, false], []⟩

/-- The first variable is shown as the negation of the second one is, and read as that. -/
theorem not_parseLit_showLit_minusTwo :
    ofBytes? (onlyText minusTwo ⟨2, []⟩) minusTwo.toUTF8 = .ok minusTwoRead ∧
    minusTwoRead.showLit ⟨0, true⟩ = minusTwoRead.showLit ⟨1, false⟩ ∧
    minusTwoRead.parseLit (minusTwoRead.showLit ⟨0, true⟩) = .ok ⟨1, false⟩ := by
  have hread : ofBytes? (onlyText minusTwo ⟨2, []⟩) minusTwo.toUTF8 = .ok minusTwoRead :=
    ofBytes?_toUTF8 (onlyText_known ..) (by cbv)
  exact ⟨hread, by decide, by cbv⟩

end NamedCnf

end ProductLine
