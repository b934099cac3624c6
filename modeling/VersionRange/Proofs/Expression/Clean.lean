import VersionRange.Expression.Parse
import VersionRange.Proofs.Expression.Split
import VersionRange.Proofs.Text.Kind
import VersionRange.Proofs.Text.Trim

namespace VersionRange

/-!
# Expressions in regular writing

An expression as people write it: alternatives with bars between them, and in each of them terms
with spaces or a comma between them.  Its parts carry what makes the cuts unambiguous.

* `VersionText`: a version without white space and marks, not mistaken for an operator, a hyphen or
  the word `as` at its ends.
* `CleanTerm`, `Clause`, `CleanExpression`: terms, alternatives and expressions, with their texts.
* `splitTerms_core`, `splitAlternatives_chars`: such a text is cut into the parts it was made of.
-/

/-! ### Versions in expressions -/

/-- A character of a version in an expression: no white space, no separator and no mark of a flag or
    a reference. -/
def isVersionChar (c : Char) : Bool :=
  !Text.isBlank c && c != ',' && c != '|' && c != '@' && c != '#'

/-- What a version must not start with. The hyphen and the word `as` would join it to the term
    before it, and the other marks would be read as a part of a sign. -/
def badStarts : List (List Char) :=
  ["-".toList, "as".toList, "=".toList, "<".toList, ">".toList, "!".toList]

/-- What a version must not end with. Behind any of these a separator is read as a part of the
    term, not as its end. -/
def badEnds : List (List Char) := ["-".toList, "as".toList, "=".toList, "<".toList, ">".toList]

/-- A version in an expression, with no mark in it that an expression is written with. The two
    lists of ends are all that is asked of it, so it need not be a version that can be read. -/
structure VersionText where
  chars : List Char
  ne_nil : chars ≠ []
  clean : ∀ c ∈ chars, isVersionChar c = true
  start : ∀ lead ∈ badStarts, ¬ lead <+: chars
  stop : ∀ tail ∈ badEnds, ¬ tail <:+ chars

/-- A version in a clean term holds no white space and none of the four characters that structure an
    expression. -/
theorem isVersionChar_iff {c : Char} :
    isVersionChar c = true ↔
      Text.isBlank c = false ∧ c ≠ ',' ∧ c ≠ '|' ∧ c ≠ '@' ∧ c ≠ '#' := by
  simp [isVersionChar, and_assoc]

/-- A space is white space. -/
theorem ne_space_of_isBlank {c : Char} (h : Text.isBlank c = false) : c ≠ ' ' := by
  rintro rfl
  exact absurd h (by decide)

namespace VersionText

variable (v : VersionText)

/-- In particular no space and no comma stands in it. -/
theorem solid : ∀ c ∈ v.chars, c ≠ ' ' ∧ c ≠ ',' := by
  intro c hc
  have h := isVersionChar_iff.1 (v.clean c hc)
  exact ⟨ne_space_of_isBlank h.1, h.2.1⟩

/-- The text of a version has a first character. -/
theorem exists_head : ∃ c r, v.chars = c :: r := List.exists_cons_of_ne_nil v.ne_nil

/-- A term may start with a version. Only a lone `a` in front of an `s` would make up the word
    `as`. -/
theorem starts (w : List Char) (hw : v.chars = ['a'] → w.head? ≠ some 's') :
    Starts (v.chars ++ w) := by
  obtain ⟨c, r, heq⟩ := v.exists_head
  have hsolid := v.solid c (by simp [heq])
  have hhyphen : c ≠ '-' := by
    rintro rfl
    exact v.start "-".toList (by simp [badStarts]) ⟨r, by simp [heq]⟩
  -- The word `as` is read as a separator, so neither the text nor its first letter with what
  -- follows may begin with it.
  have has : ∀ t, c = 'a' → r ++ w ≠ 's' :: t := by
    rintro t rfl hr
    cases r with
    | nil =>
      refine hw heq ?_
      rw [show w = 's' :: t from hr]
      rfl
    | cons d r =>
      obtain rfl : d = 's' := (List.cons.inj hr).1
      exact v.start "as".toList (by simp [badStarts]) ⟨r, by simp [heq]⟩
  rw [heq, List.cons_append]
  exact ⟨canStart_of_ne hsolid.2 has, hyphenAhead_of_ne hhyphen, by simpa using hsolid.1⟩

/-- A term may end with a version. Only an `s` behind an `a` would make up the word `as`. -/
theorem ends (before : List Char) (hb : before.head? ≠ some 'a') :
    Ends (v.chars.reverse ++ before) := by
  obtain ⟨r, c, heq⟩ : ∃ r c, v.chars = r ++ [c] := by
    rcases List.eq_nil_or_concat v.chars with h | ⟨r, c, h⟩
    · exact absurd h v.ne_nil
    · exact ⟨r, c, by rw [h, List.concat_eq_append]⟩
  have hsolid := v.solid c (by simp [heq])
  have hstop : ∀ d, [d] ∈ badEnds → c ≠ d := by
    rintro d hd rfl
    exact v.stop [c] hd ⟨r, heq.symm⟩
  have hmarks : c ∉ ['=', '>', '<', ' ', ','] := by
    simp only [List.mem_cons, List.not_mem_nil, or_false, not_or]
    exact ⟨hstop _ (by decide), hstop _ (by decide), hstop _ (by decide), hsolid.1, hsolid.2⟩
  have has : ∀ t, c = 's' → r.reverse ++ before ≠ 'a' :: t := by
    rintro t rfl hr
    rcases List.eq_nil_or_concat r with rfl | ⟨r', d, rfl⟩
    · exact hb (by rw [show before = 'a' :: t from hr]; rfl)
    · obtain rfl : d = 'a' := by simpa using (List.cons.inj (by simpa using hr)).1
      exact v.stop "as".toList (by decide) ⟨r', by rw [heq]; simp⟩
  -- From its last character back, the term is `c`, the rest of the version and what precedes it.
  rw [heq, List.reverse_append]
  show Ends (c :: (r.reverse ++ before))
  exact ⟨canEnd_of_ne hmarks has, hyphenAhead_of_ne (hstop _ (by decide))⟩

end VersionText

/-! ### Terms -/

/-- A term in regular writing: a comparison with any number of spaces behind its sign, or a range
    with one space on each side of its hyphen.  Ranges in other notations are comparisons without a
    sign here. -/
inductive CleanTerm where
  | comparison (sign : Option { s : Sign // s ∈ Term.signs }) (gap : Nat) (version : VersionText)
  | hyphen (low high : VersionText)

namespace CleanTerm

/-- The sign of a comparison in writing. A comparison without a sign has none. -/
def signChars : Option { s : Sign // s ∈ Term.signs } → List Char
  | none => []
  | some s => s.1.chars

/-- The term in writing. -/
def chars : CleanTerm → List Char
  | comparison sign gap v => signChars sign ++ List.replicate gap ' ' ++ v.chars
  | hyphen low high => low.chars ++ " - ".toList ++ high.chars

/-- The spaces that a term without a sign starts with. Behind a joint they belong to the joint. -/
def indent : CleanTerm → Nat
  | comparison none gap _ => gap
  | _ => 0

/-- The term without spaces in front of it. This is what is left of it once an alternative is cut
    into its terms. -/
def core : CleanTerm → List Char
  | comparison none _ v => v.chars
  | t => t.chars

/-- A clean term is its core behind some spaces. -/
theorem chars_eq (t : CleanTerm) : t.chars = List.replicate t.indent ' ' ++ t.core := by
  rcases t with ⟨_ | sign, gap, v⟩ | ⟨low, high⟩ <;> rfl

/-- What is true of the signs: marks of comparisons, the last of which no term ends with. -/
theorem signs_marks : ∀ s ∈ Term.signs,
    (∀ c ∈ s.chars, c ∈ ['<', '>', '=', '!']) ∧ canEnd s.chars.reverse = false ∧
      s.chars ≠ [] := by
  decide

/-- The characters of the signs are none that could end a term or begin a separator. -/
theorem marks_solid : ∀ c ∈ ['<', '>', '=', '!'],
    isVersionChar c = true ∧ c ≠ ' ' ∧ c ≠ ',' ∧ c ≠ '-' ∧ c ≠ 'a' := by
  decide

/-- A term may start behind a separator. It starts with a sign or with a version. -/
theorem starts_core (t : CleanTerm) (w : List Char) (hw : w.head? ≠ some 's') :
    Starts (t.core ++ w) := by
  rcases t with ⟨_ | ⟨sign, hsign⟩, gap, v⟩ | ⟨low, high⟩
  · exact v.starts w fun _ => hw
  · obtain ⟨hmarks, -, hne⟩ := signs_marks sign hsign
    obtain ⟨c, r, heq⟩ := List.exists_cons_of_ne_nil hne
    obtain ⟨-, hspace, hcomma, hhyphen, ha⟩ := marks_solid c (hmarks c (by simp [heq]))
    show Starts (sign.chars ++ List.replicate gap ' ' ++ v.chars ++ w)
    rw [heq]
    exact ⟨canStart_of_ne hcomma fun t heq => absurd heq ha, hyphenAhead_of_ne hhyphen,
      by simpa using hspace⟩
  · show Starts (low.chars ++ " - ".toList ++ high.chars ++ w)
    rw [List.append_assoc, List.append_assoc]
    exact low.starts _ fun _ => by simp

/-- A separator may follow a term. In each form the term ends with a version. -/
theorem ends_core (t : CleanTerm) : Ends t.core.reverse := by
  rcases t with ⟨_ | ⟨sign, hsign⟩, gap, v⟩ | ⟨low, high⟩
  · have h := v.ends [] (by simp)
    rwa [List.append_nil] at h
  · obtain ⟨hmarks, -, -⟩ := signs_marks sign hsign
    show Ends (sign.chars ++ List.replicate gap ' ' ++ v.chars).reverse
    rw [List.reverse_append]
    refine v.ends _ ?_
    rw [List.reverse_append, List.reverse_replicate]
    intro hhead
    -- In front of the version there is a space or the last mark of the sign.
    have hmem : 'a' ∈ List.replicate gap ' ' ++ sign.chars.reverse := List.mem_of_head? hhead
    rcases List.mem_append.1 hmem with h | h
    · exact absurd (List.eq_of_mem_replicate h) (by decide)
    · exact (marks_solid _ (hmarks _ (List.mem_reverse.1 h))).2.2.2.2 rfl
  · show Ends (low.chars ++ " - ".toList ++ high.chars).reverse
    rw [List.reverse_append]
    exact high.ends _ (by simp)

/-- Nothing is cut inside a term. Spaces behind a sign and around a hyphen separate nothing. -/
theorem splitTermsFrom_core (t : CleanTerm) (w : List Char) :
    splitTermsFrom 0 [] (t.core ++ w) = splitTermsFrom 0 t.core.reverse w := by
  rcases t with ⟨_ | ⟨sign, hsign⟩, gap, v⟩ | ⟨low, high⟩
  · have hv := splitTermsFrom_solid [] w v.solid
    rwa [List.append_nil] at hv
  · -- Spaces behind a sign separate nothing, and the version behind them has none.
    obtain ⟨hmarks, hend, -⟩ := signs_marks sign hsign
    have hsolid : ∀ c ∈ sign.chars, c ≠ ' ' ∧ c ≠ ',' := by
      intro c hc
      have := marks_solid c (hmarks c hc)
      exact ⟨this.2.1, this.2.2.1⟩
    show splitTermsFrom 0 [] (sign.chars ++ List.replicate gap ' ' ++ v.chars ++ w) = _
    rw [List.append_assoc, List.append_assoc, splitTermsFrom_solid [] _ hsolid, List.append_nil,
      splitTermsFrom_spaces gap _ hend, splitTermsFrom_solid _ w v.solid]
    simp [core, chars, signChars]
  · -- Nor do the spaces around a hyphen: a version stands on both sides.
    obtain ⟨c, r, heq⟩ := high.exists_head
    obtain ⟨hspace, hcomma⟩ := high.solid c (by simp [heq])
    show splitTermsFrom 0 [] (low.chars ++ " - ".toList ++ high.chars ++ w) = _
    rw [List.append_assoc, List.append_assoc, splitTermsFrom_solid [] _ low.solid,
      splitTermsFrom_hyphen _ (by simpa [heq] using hspace) (by simpa [heq] using hcomma),
      splitTermsFrom_solid _ w high.solid]
    simp [core, chars]

/-- The characters of a term: those of versions, and spaces. So no mark of a flag, a reference or
    an alternative is among them. -/
theorem mem_chars {t : CleanTerm} {c : Char} (hc : c ∈ t.chars) :
    c = ' ' ∨ isVersionChar c = true := by
  rcases t with ⟨sign, gap, v⟩ | ⟨low, high⟩
  · simp only [chars, List.mem_append] at hc
    rcases hc with (hc | hc) | hc
    · rcases sign with _ | ⟨sign, hsign⟩
      · cases hc
      · exact .inr (marks_solid c ((signs_marks sign hsign).1 c hc)).1
    · exact .inl (List.eq_of_mem_replicate hc)
    · exact .inr (v.clean c hc)
  · simp only [chars, List.mem_append] at hc
    rcases hc with (hc | hc) | hc
    · exact .inr (low.clean c hc)
    · have hhyphen : ∀ d ∈ " - ".toList, d = ' ' ∨ isVersionChar d = true := by decide
      exact hhyphen c hc
    · exact .inr (high.clean c hc)

/-- The core is part of the term. -/
theorem mem_chars_of_mem_core {t : CleanTerm} {c : Char} (hc : c ∈ t.core) : c ∈ t.chars := by
  rw [t.chars_eq]
  exact List.mem_append_right _ hc

/-- A text with a version at its end does not end with white space. -/
theorem settled_append (s : List Char) (v : VersionText) : Settled (s ++ v.chars) := by
  have hv : Settled v.chars := by
    intro c hc
    exact (isVersionChar_iff.1 (v.clean c (List.mem_of_getLast? hc))).1
  exact hv.append_left s v.ne_nil

/-- So a clean term does not. -/
theorem settled_chars (t : CleanTerm) : Settled t.chars := by
  rcases t with ⟨sign, gap, v⟩ | ⟨low, high⟩
  · exact settled_append _ v
  · exact settled_append _ high

/-- And neither does its core. -/
theorem settled_core (t : CleanTerm) : Settled t.core :=
  t.settled_chars.of_suffix ⟨_, t.chars_eq.symm⟩

/-- The core holds a version at least. -/
theorem core_ne_nil (t : CleanTerm) : t.core ≠ [] := by
  intro hnil
  have := (t.ends_core).stop
  rw [hnil] at this
  cases this

/-- It begins with a sign or a version, not with white space. -/
theorem isBlank_head_core {t : CleanTerm} {c : Char} (hc : t.core.head? = some c) :
    Text.isBlank c = false := by
  have hspace : c ≠ ' ' := by
    rintro rfl
    have hstart := (t.starts_core [] (by simp)).space
    rw [List.append_nil] at hstart
    exact hstart hc
  have hmem := mem_chars_of_mem_core (List.mem_of_head? hc)
  exact (isVersionChar_iff.1 ((mem_chars hmem).resolve_left hspace)).1

end CleanTerm

/-! ### Alternatives -/

/-- One alternative: terms with joints between them. There is one term at least. -/
structure Clause where
  first : CleanTerm
  rest : List (Joint × CleanTerm)

namespace Clause

/-- The terms of the alternative. -/
def terms (c : Clause) : List CleanTerm := c.first :: c.rest.map Prod.snd

/-- The terms behind the first one in writing. -/
def restChars (rest : List (Joint × CleanTerm)) : List Char :=
  rest.flatMap fun p => p.1.chars ++ p.2.chars

/-- The alternative in writing. -/
def chars (c : Clause) : List Char := c.first.chars ++ restChars c.rest

/-- The alternative without spaces in front of it, as it is left once an expression is cut at its
    bars. -/
def core (c : Clause) : List Char := c.first.core ++ restChars c.rest

/-- Each further term stands behind its joint. -/
theorem restChars_cons (p : Joint × CleanTerm) (rest : List (Joint × CleanTerm)) :
    restChars (p :: rest) = p.1.chars ++ p.2.chars ++ restChars rest := by
  simp [restChars]

/-- A clause is its core behind the spaces of its first term. -/
theorem chars_eq (c : Clause) : c.chars = List.replicate c.first.indent ' ' ++ c.core := by
  rw [chars, CleanTerm.chars_eq, List.append_assoc]
  rfl

/-- A joint starts with a space or a comma. -/
theorem head_restChars (rest : List (Joint × CleanTerm)) : (restChars rest).head? ≠ some 's' := by
  cases rest with
  | nil => simp [restChars]
  | cons p rest =>
    rw [restChars_cons]
    rcases p with ⟨⟨n⟩ | ⟨_ | m, n⟩, t⟩ <;> simp [Joint.chars, List.replicate_succ]

/-- Terms are cut apart at their joints. The spaces in front of the first one are not there any
    more. -/
theorem splitTerms_append (t : CleanTerm) (rest : List (Joint × CleanTerm)) :
    splitTerms (t.core ++ restChars rest) = t.core :: rest.map fun p => p.2.core := by
  induction rest generalizing t with
  | nil =>
    have h := t.splitTermsFrom_core []
    rw [splitTerms, show restChars [] = [] from rfl, h]
    simp [splitTermsFrom]
  | cons p rest ih =>
    obtain ⟨j, u⟩ := p
    -- Spaces that the next term starts with make its joint longer.
    have hjoint : restChars ((j, u) :: rest)
        = (j.widen u.indent).chars ++ (u.core ++ restChars rest) := by
      rw [restChars_cons, u.chars_eq, Joint.chars_widen]
      simp
    rw [splitTerms, t.splitTermsFrom_core, hjoint, splitTermsFrom_joint _ t.ends_core
      (u.starts_core _ (head_restChars rest)), List.reverse_reverse, ih u]
    rfl

/-- **Terms.** The core of a clause is split into the cores of its terms: each joint separates, and
    nothing else does. -/
theorem splitTerms_core (c : Clause) : splitTerms c.core = c.terms.map CleanTerm.core := by
  rw [core, splitTerms_append, terms]
  simp

/-- The characters of an alternative: those of versions, spaces and commas. So no bar is among
    them. -/
theorem mem_chars {c : Clause} {d : Char} (hd : d ∈ c.chars) :
    d = ' ' ∨ d = ',' ∨ isVersionChar d = true := by
  have hterm {t : CleanTerm} (h : d ∈ t.chars) : d = ' ' ∨ d = ',' ∨ isVersionChar d = true :=
    (CleanTerm.mem_chars h).imp_right .inr
  rw [chars, List.mem_append, restChars, List.mem_flatMap] at hd
  rcases hd with hd | ⟨⟨j, t⟩, -, hd⟩
  · exact hterm hd
  · rw [List.mem_append] at hd
    rcases hd with hd | hd
    · cases j with
      | spaces n => exact .inl (List.eq_of_mem_replicate hd)
      | comma m n =>
        simp only [Joint.chars, List.mem_append, List.mem_cons] at hd
        rcases hd with hd | hd | hd
        · exact .inl (List.eq_of_mem_replicate hd)
        · exact .inr (.inl hd)
        · exact .inl (List.eq_of_mem_replicate hd)
    · exact hterm hd

/-- No character of a clause structures an expression: bars stand between clauses, and there are
    neither flags nor references. -/
theorem ne_of_mem_chars {c : Clause} {d : Char} (hd : d ∈ c.chars) :
    d ≠ '|' ∧ d ≠ '@' ∧ d ≠ '#' := by
  rcases mem_chars hd with rfl | rfl | h
  · decide
  · decide
  · exact (isVersionChar_iff.1 h).2.2

/-- The core is part of the clause. -/
theorem mem_chars_of_mem_core {c : Clause} {d : Char} (hd : d ∈ c.core) : d ∈ c.chars := by
  rw [c.chars_eq]
  exact List.mem_append_right _ hd

/-- Further terms end with a version, so not with white space. With no further term there is
    nothing that could. -/
theorem settled_restChars (rest : List (Joint × CleanTerm)) : Settled (restChars rest) := by
  induction rest with
  | nil => exact settled_nil
  | cons p rest ih =>
    have hne : p.2.chars ≠ [] := by
      intro hnil
      have := p.2.chars_eq
      rw [hnil] at this
      exact p.2.core_ne_nil (List.append_eq_nil_iff.1 this.symm).2
    rw [restChars_cons]
    exact (p.2.settled_chars.append_left _ hne).append ih

/-- The core begins with the core of a term. -/
theorem core_ne_nil (c : Clause) : c.core ≠ [] := by
  intro hnil
  exact c.first.core_ne_nil (List.append_eq_nil_iff.1 hnil).1

/-- It ends where its last term ends, without white space. -/
theorem settled_core (c : Clause) : Settled c.core :=
  c.first.settled_core.append (settled_restChars c.rest)

/-- It begins where the core of its first term does. -/
theorem isBlank_head_core {c : Clause} {d : Char} (hd : c.core.head? = some d) :
    Text.isBlank d = false := by
  refine CleanTerm.isBlank_head_core (t := c.first) ?_
  rw [← hd, core, List.head?_append_of_ne_nil _ c.first.core_ne_nil]

/-- White space with the spaces behind it that a term starts with. -/
theorem blank_append_indent {ws : List Char} (hws : ∀ c ∈ ws, Text.isBlank c = true) (n : Nat) :
    ∀ c ∈ ws ++ List.replicate n ' ', Text.isBlank c = true := by
  intro c hc
  rcases List.mem_append.1 hc with hc | hc
  · exact hws c hc
  · rw [List.eq_of_mem_replicate hc]
    decide

/-- White space around an alternative is no part of it. -/
theorem trim_chars (c : Clause) {ws ws' : List Char} (hws : ∀ d ∈ ws, Text.isBlank d = true)
    (hws' : ∀ d ∈ ws', Text.isBlank d = true) : Text.trim (ws ++ c.chars ++ ws') = c.core := by
  have hlead := blank_append_indent hws c.first.indent
  rw [c.chars_eq, ← List.append_assoc ws]
  exact trim_blanks hlead hws' (fun d hd => isBlank_head_core hd) c.settled_core

end Clause

/-! ### Expressions -/

/-- What stands between two alternatives: one bar or two, with white space around them. -/
structure Bar where
  before : List Char
  double : Bool
  after : List Char
  blank_before : ∀ c ∈ before, Text.isBlank c = true
  blank_after : ∀ c ∈ after, Text.isBlank c = true

/-- The bar in writing. -/
def Bar.chars (b : Bar) : List Char := b.before ++ barChars b.double ++ b.after

/-- An expression: alternatives with bars between them, and white space around them. There is one
    alternative at least. -/
structure CleanExpression where
  lead : List Char
  first : Clause
  rest : List (Bar × Clause)
  tail : List Char
  blank_lead : ∀ c ∈ lead, Text.isBlank c = true
  blank_tail : ∀ c ∈ tail, Text.isBlank c = true

/-- White space is none of the characters that structure an expression. -/
theorem ne_bar_of_isBlank {c : Char} (h : Text.isBlank c = true) : c ≠ '|' ∧ c ≠ '@' ∧ c ≠ '#' := by
  refine ⟨?_, ?_, ?_⟩ <;> rintro rfl <;> exact absurd h (by decide)

namespace CleanExpression

/-- The alternatives of the expression. -/
def clauses (e : CleanExpression) : List Clause := e.first :: e.rest.map Prod.snd

/-- The alternatives behind the first one in writing. -/
def restChars (rest : List (Bar × Clause)) : List Char :=
  rest.flatMap fun p => p.1.chars ++ p.2.chars

/-- The expression in writing. -/
def chars (e : CleanExpression) : List Char :=
  e.lead ++ e.first.chars ++ restChars e.rest ++ e.tail

/-- The text of the expression. -/
def text (e : CleanExpression) : String := String.ofList e.chars

/-- Each further clause stands behind its bar. -/
theorem restChars_cons (p : Bar × Clause) (rest : List (Bar × Clause)) :
    restChars (p :: rest) = p.1.chars ++ p.2.chars ++ restChars rest := by
  simp [restChars]

/-- A clause is not empty, as its first term is not. -/
theorem chars_ne_nil (c : Clause) : c.chars ≠ [] := by
  intro hnil
  rw [c.chars_eq] at hnil
  exact c.core_ne_nil (List.append_eq_nil_iff.1 hnil).2

/-- Alternatives are cut apart at their bars. The white space around a bar is trimmed off
    afterwards, on both sides. -/
theorem splitBars_append {p core : List Char} (rest : List (Bar × Clause)) (hp : '|' ∉ p)
    (hcore : ∀ ws, (∀ c ∈ ws, Text.isBlank c = true) → Text.trim (p ++ ws) = core) :
    (splitBars (p ++ restChars rest)).map Text.trim = core :: rest.map fun q => q.2.core := by
  -- The piece in front of the bars grows by the white space that is read behind it.
  induction rest generalizing p core with
  | nil =>
    have h := hcore [] (by simp)
    rw [List.append_nil] at h
    rw [show restChars [] = [] from rfl, List.append_nil, splitBars_of_not_mem hp]
    simp [h]
  | cons q rest ih =>
    obtain ⟨b, c⟩ := q
    have hpiece : '|' ∉ p ++ b.before := by
      rw [List.mem_append, not_or]
      exact ⟨hp, fun hmem => (ne_bar_of_isBlank (b.blank_before _ hmem)).1 rfl⟩
    have hnext : '|' ∉ b.after ++ c.chars := by
      rw [List.mem_append, not_or]
      exact ⟨fun hmem => (ne_bar_of_isBlank (b.blank_after _ hmem)).1 rfl,
        fun hmem => (Clause.ne_of_mem_chars hmem).1 rfl⟩
    have hhead : (b.after ++ c.chars ++ restChars rest).head? ≠ some '|' := by
      rw [List.head?_append_of_ne_nil _ (by simp [chars_ne_nil c])]
      exact fun h => hnext (List.mem_of_head? h)
    have hcut : p ++ restChars ((b, c) :: rest)
        = (p ++ b.before) ++ barChars b.double ++ (b.after ++ c.chars ++ restChars rest) := by
      simp [restChars_cons, Bar.chars]
    rw [hcut, splitBars_append_bar b.double hpiece hhead, List.map_cons,
      hcore b.before b.blank_before, ih hnext fun ws hws => c.trim_chars b.blank_after hws]
    rfl

/-- Further clauses end as clauses do, without white space. -/
theorem settled_restChars (rest : List (Bar × Clause)) : Settled (restChars rest) := by
  induction rest with
  | nil => exact settled_nil
  | cons q rest ih =>
    have hq : Settled q.2.chars := by
      rw [q.2.chars_eq]
      exact q.2.settled_core.append_left _ q.2.core_ne_nil
    rw [restChars_cons]
    exact (hq.append_left _ (chars_ne_nil q.2)).append ih

/-- The expression is cut into its alternatives. Each of them is left without the white space
    around it. -/
theorem splitAlternatives_chars (e : CleanExpression) :
    splitAlternatives e.chars = e.clauses.map Clause.core := by
  -- All white space at the front is trimmed at once, also that in front of the first term.
  have hlead := Clause.blank_append_indent e.blank_lead e.first.first.indent
  have htrim : Text.trim e.chars = e.first.core ++ restChars e.rest := by
    have hsettled := e.first.settled_core.append (settled_restChars e.rest)
    have hhead : ∀ c, (e.first.core ++ restChars e.rest).head? = some c →
        Text.isBlank c = false := by
      intro c hc
      rw [List.head?_append_of_ne_nil _ e.first.core_ne_nil] at hc
      exact Clause.isBlank_head_core hc
    have := trim_blanks hlead e.blank_tail hhead hsettled
    rw [← this, chars, Clause.chars_eq]
    simp
  have hfirst : '|' ∉ e.first.core := fun hmem =>
    (Clause.ne_of_mem_chars (Clause.mem_chars_of_mem_core hmem)).1 rfl
  have hcore : ∀ ws, (∀ c ∈ ws, Text.isBlank c = true) →
      Text.trim (e.first.core ++ ws) = e.first.core := by
    intro ws hws
    have hnone : ∀ c ∈ ([] : List Char), Text.isBlank c = true := by simp
    exact trim_blanks hnone hws (fun c hc => Clause.isBlank_head_core hc) e.first.settled_core
  rw [splitAlternatives, htrim, splitBars_append e.rest hfirst hcore, clauses]
  simp

/-- No flag and no reference is marked in the expression. So it is read as it stands. -/
theorem ne_of_mem_chars {e : CleanExpression} {c : Char} (hc : c ∈ e.chars) :
    c ≠ '@' ∧ c ≠ '#' := by
  simp only [chars, List.mem_append, restChars, List.mem_flatMap] at hc
  rcases hc with ((hc | hc) | ⟨⟨b, k⟩, -, hc⟩) | hc
  · exact (ne_bar_of_isBlank (e.blank_lead c hc)).2
  · exact (Clause.ne_of_mem_chars hc).2
  · simp only [Bar.chars, List.mem_append] at hc
    rcases hc with ((hc | hc) | hc) | hc
    · exact (ne_bar_of_isBlank (b.blank_before c hc)).2
    · have hbar : ∀ d ∈ barChars b.double, d ≠ '@' ∧ d ≠ '#' := by
        cases b.double <;> decide
      exact hbar c hc
    · exact (ne_bar_of_isBlank (b.blank_after c hc)).2
    · exact (Clause.ne_of_mem_chars hc).2
  · exact (ne_bar_of_isBlank (e.blank_tail c hc)).2

end CleanExpression

end VersionRange
