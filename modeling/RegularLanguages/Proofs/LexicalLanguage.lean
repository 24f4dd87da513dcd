import Mathlib.Data.Bool.AllAny
import RegularLanguages.LexicalLanguage
import RegularLanguages.Proofs.Automaton.Difference
import RegularLanguages.Proofs.Automaton.Trie
import RegularLanguages.Proofs.Minimization
import RegularLanguages.Proofs.Pattern.Language

set_option autoImplicit false

/-! # The words of the lexical languages

What belongs to a lexical language is said without automata (`LexicalLanguage.IsWord`): which
characters a word has, and how lists and tuples are put together from their elements. Every
language is built, with any algorithm and without one, and accepts these words.

`Builds` says that a computation returns an automaton for a language. Minimizing keeps this
(`builds_settle`), so that it does not matter where on the way it is done. -/

namespace RegularLanguages

open Computability

namespace LexicalLanguage

/-! ## Words -/

def IsDigit (c : Char) : Prop := '0' ≤ c ∧ c ≤ '9'

/-- An identifier may start with this character. -/
def IsStart (c : Char) : Prop := c = '_' ∨ 'a' ≤ c ∧ c ≤ 'z'

/-- A small letter or an underscore, and then more of them or digits. -/
def IsIdentifier (w : List Char) : Prop :=
  ∃ first rest, w = first :: rest ∧ IsStart first ∧ ∀ c ∈ rest, IsStart c ∨ IsDigit c

def IsKeyword (w : List Char) : Prop :=
  w ∈ ["if".toList, "then".toList, "else".toList, "let".toList, "in".toList, "true".toList,
    "false".toList]

/-- Zero, or digits of which the first is not zero. -/
def IsNumeral (w : List Char) : Prop :=
  w = ['0'] ∨
    ∃ first rest, w = first :: rest ∧ ('1' ≤ first ∧ first ≤ '9') ∧ ∀ c ∈ rest, IsDigit c

/-- A numeral, and a sign before it or not. -/
def IsInteger (w : List Char) : Prop :=
  ∃ sign numeral, w = sign ++ numeral ∧ (sign = [] ∨ sign = ['+'] ∨ sign = ['-']) ∧
    IsNumeral numeral

def IsBlank (w : List Char) : Prop := ∀ c ∈ w, c = ' '

/-- An element with spaces before and after it, or with none. -/
def IsSpaced (IsElement : List Char → Prop) (w : List Char) : Prop :=
  ∃ before element after, w = before ++ element ++ after ∧ IsBlank before ∧ IsElement element ∧
    IsBlank after

/-- Between the brackets there are spaces only, or elements with separators between them. Spaces
    may stand before every element, every separator and the closing bracket. -/
def IsDelimited (opening separator closing : Char) (IsElement : List Char → Prop)
    (w : List Char) : Prop :=
  ∃ body, w = opening :: (body ++ [closing]) ∧
    (IsBlank body ∨ ∃ parts, parts ≠ [] ∧ (∀ part ∈ parts, IsSpaced IsElement part) ∧
      body = [separator].intercalate parts)

def IsList (w : List Char) : Prop := IsDelimited '[' ';' ']' IsInteger w

def IsTuple (w : List Char) : Prop :=
  IsDelimited '(' ',' ')' (fun v => IsIdentifier v ∨ IsInteger v ∨ IsList v) w

/-- The words of a lexical language. -/
def IsWord : LexicalLanguage → List Char → Prop
  | identifiers => IsIdentifier
  | keywords => IsKeyword
  | identifiersWithoutKeywords => fun w => IsIdentifier w ∧ ¬IsKeyword w
  | integer => IsInteger
  | list => IsList
  | tuple => IsTuple

/-! ## Characters -/

/-- A list that has every character from `lo` to `hi`, as can be checked one by one. -/
theorem mem_of_le_of_le {chars : List Char} {lo hi c : Char}
    (h : ∀ n ≤ hi.toNat, lo.toNat ≤ n → Char.ofNat n ∈ chars) (hlo : lo ≤ c) (hhi : c ≤ hi) :
    c ∈ chars := by
  rw [← Char.ofNat_toNat c]
  exact h c.toNat (char_le_iff_toNat_le.1 hhi) (char_le_iff_toNat_le.1 hlo)

theorem mem_identifierStartChars {c : Char} : c ∈ identifierStartChars ↔ IsStart c := by
  constructor
  · have hall : ∀ d ∈ identifierStartChars, d = '_' ∨ 'a' ≤ d ∧ d ≤ 'z' :=
      List.all_iff_forall_prop.1 (by decide)
    exact hall c
  · intro h
    rcases h with rfl | ⟨hlo, hhi⟩
    · decide
    · exact mem_of_le_of_le (by decide) hlo hhi

theorem mem_identifierChars {c : Char} : c ∈ identifierChars ↔ IsStart c ∨ IsDigit c := by
  constructor
  · have hall : ∀ d ∈ identifierChars, (d = '_' ∨ 'a' ≤ d ∧ d ≤ 'z') ∨ '0' ≤ d ∧ d ≤ '9' :=
      List.all_iff_forall_prop.1 (by decide)
    exact hall c
  · intro h
    rcases h with (rfl | ⟨hlo, hhi⟩) | ⟨hlo, hhi⟩
    · decide
    · exact mem_of_le_of_le (by decide) hlo hhi
    · exact mem_of_le_of_le (by decide) hlo hhi

/-! ## Languages of the parts -/

/-- The language of the words with a property. -/
def languageOf (P : List Char → Prop) : Language Char := {w | P w}

theorem mem_languageOf {P : List Char → Prop} {w : List Char} : w ∈ languageOf P ↔ P w := Iff.rfl

theorem valid_charSet (chars : List Char) : (Automaton.charSet chars).Valid :=
  Automaton.valid_oneOf _

theorem valid_char (c : Char) : (Automaton.char c).Valid := Automaton.valid_oneOf _

theorem language_charSet {chars : List Char} {P : Char → Prop} (h : ∀ c, c ∈ chars ↔ P c) :
    (Automaton.charSet chars).language = oneChar P := by
  ext w
  rw [Automaton.charSet, Automaton.mem_language_oneOf]
  refine exists_congr fun c => and_congr_right fun _ => ?_
  simp [CharRange.mem_single, h]

theorem language_char (c : Char) : (Automaton.char c).language = {[c]} :=
  Language.ext fun _ => Automaton.mem_language_char

theorem valid_identifierAutomaton : identifierAutomaton.Valid :=
  Automaton.valid_concat (valid_charSet _) (Automaton.valid_star (valid_charSet _))

theorem language_identifierAutomaton : identifierAutomaton.language = languageOf IsIdentifier := by
  rw [identifierAutomaton,
    Automaton.language_concat (valid_charSet _) (Automaton.valid_star (valid_charSet _)),
    Automaton.language_star (valid_charSet _), language_charSet fun _ => mem_identifierStartChars,
    language_charSet fun _ => mem_identifierChars]
  ext w
  constructor
  · intro h
    obtain ⟨_, ⟨first, rfl, hfirst⟩, rest, hrest, rfl⟩ := Language.mem_mul.1 h
    exact ⟨first, rest, rfl, hfirst, mem_kstar_oneChar.1 hrest⟩
  · intro h
    obtain ⟨first, rest, rfl, hfirst, hrest⟩ := h
    exact Language.append_mem_mul (a := [first]) ⟨first, rfl, hfirst⟩ (mem_kstar_oneChar.2 hrest)

theorem valid_keywordAutomaton : keywordAutomaton.Valid := Automaton.valid_words _

theorem language_keywordAutomaton : keywordAutomaton.language = languageOf IsKeyword :=
  Language.ext fun _ => Automaton.mem_language_words

theorem valid_spaces : spaces.Valid := Automaton.valid_star (valid_char _)

theorem language_spaces : spaces.language = languageOf IsBlank := by
  have hchar : (Automaton.char ' ').language = oneChar (· = ' ') := by
    rw [language_char]
    ext w
    exact ⟨fun h => ⟨' ', h, rfl⟩, fun ⟨c, hw, hc⟩ => hc ▸ hw⟩
  rw [spaces, Automaton.language_star (valid_char _), hchar]
  exact Language.ext fun _ => mem_kstar_oneChar

/-! ## Integers -/

/-- The classes of the pattern for integers. -/
def signClass : Pattern := .charClass 0 false [.single '+', .single '-']

def firstDigitClass : Pattern := .charClass 12 false [⟨'1', '9', by decide⟩]

def digitClass : Pattern := .charClass 17 false [⟨'0', '9', by decide⟩]

/-- The tree of the pattern for integers. -/
def integerTree : Pattern :=
  .concat 0 [.repetition 0 signClass 0 (some 1),
    .group 9 (.alternation 10 [.literal 10 '0',
      .concat 12 [firstDigitClass, .repetition 17 digitClass 0 none]])]

theorem integerAutomaton_eq_ok : integerAutomaton = .ok integerTree.automaton := by
  have hread : Pattern.parse integerPattern.toList = .ok integerTree :=
    (Pattern.parse_eq_readAll _).trans rfl
  rw [integerAutomaton, compile, hread]
  rfl

/-- The words that a class matches. -/
theorem language_charClass {position : Nat} {ranges : List CharRange} {P : Char → Prop}
    (h : ∀ c, (∃ r ∈ ranges, c ∈ r) ↔ P c) :
    (Pattern.charClass position false ranges).language = oneChar P :=
  Language.ext fun _ => exists_congr fun c => and_congr_right fun _ => h c

theorem language_signClass : signClass.language = oneChar fun c => c = '+' ∨ c = '-' :=
  language_charClass fun c => by simp [CharRange.mem_single]

theorem language_firstDigitClass :
    firstDigitClass.language = oneChar fun c => '1' ≤ c ∧ c ≤ '9' :=
  language_charClass fun c => by simp [CharRange.mem_def]

theorem language_digitClass : digitClass.language = oneChar IsDigit :=
  language_charClass fun c => by simp [CharRange.mem_def, IsDigit]

theorem language_integerTree :
    integerTree.language = (1 + oneChar fun c => c = '+' ∨ c = '-') *
      ({['0']} + (oneChar fun c => '1' ≤ c ∧ c ≤ '9') * (oneChar IsDigit)∗) := by
  show [powersBetween signClass.language 0 (some 1), [({['0']} : Language Char),
    [firstDigitClass.language, powersBetween digitClass.language 0 none].prod].sum].prod = _
  rw [language_signClass, language_firstDigitClass, language_digitClass, powersBetween_none,
    powersBetween_some (Nat.zero_le 1), powersUpTo_succ, powersUpTo_zero]
  simp

theorem language_integerTree_eq : integerTree.language = languageOf IsInteger := by
  rw [language_integerTree]
  ext w
  rw [mem_languageOf]
  constructor
  · intro h
    obtain ⟨sign, hsign, numeral, hnumeral, rfl⟩ := Language.mem_mul.1 h
    refine ⟨sign, numeral, rfl, ?_, ?_⟩
    · rcases hsign with hsign | ⟨c, rfl, hc⟩
      · exact Or.inl hsign
      · rcases hc with rfl | rfl
        · exact Or.inr (Or.inl rfl)
        · exact Or.inr (Or.inr rfl)
    · rcases hnumeral with hzero | hdigits
      · exact Or.inl hzero
      · obtain ⟨_, ⟨first, rfl, hfirst⟩, rest, hrest, rfl⟩ := Language.mem_mul.1 hdigits
        exact Or.inr ⟨first, rest, rfl, hfirst, mem_kstar_oneChar.1 hrest⟩
  · intro h
    obtain ⟨sign, numeral, rfl, hsign, hnumeral⟩ := h
    refine Language.append_mem_mul ?_ ?_
    · rcases hsign with rfl | rfl | rfl
      · exact Or.inl rfl
      · exact Or.inr ⟨'+', rfl, Or.inl rfl⟩
      · exact Or.inr ⟨'-', rfl, Or.inr rfl⟩
    · rcases hnumeral with rfl | ⟨first, rest, rfl, hfirst, hrest⟩
      · exact Or.inl rfl
      · exact Or.inr (Language.append_mem_mul (a := [first]) ⟨first, rfl, hfirst⟩
          (mem_kstar_oneChar.2 hrest))

/-! ## Lists and tuples -/

theorem isSpaced_iff {P : List Char → Prop} {w : List Char} :
    IsSpaced P w ↔ w ∈ languageOf IsBlank * languageOf P * languageOf IsBlank := by
  constructor
  · intro h
    obtain ⟨before, element, after, rfl, hbefore, helement, hafter⟩ := h
    exact Language.append_mem_mul (Language.append_mem_mul hbefore helement) hafter
  · intro h
    obtain ⟨_, hfront, after, hafter, rfl⟩ := Language.mem_mul.1 h
    obtain ⟨before, hbefore, element, helement, rfl⟩ := Language.mem_mul.1 hfront
    exact ⟨before, element, after, rfl, hbefore, helement, hafter⟩

/-- What stands between the brackets: spaced elements with separators, or spaces. -/
def bodies (separator : Char) (P : List Char → Prop) : Language Char :=
  (languageOf (IsSpaced P) * {[separator]})∗ * languageOf (IsSpaced P) + languageOf IsBlank

theorem isDelimited_iff {opening separator closing : Char} {P : List Char → Prop}
    {w : List Char} : IsDelimited opening separator closing P w ↔
      w ∈ ({[opening]} : Language Char) * bodies separator P * {[closing]} := by
  have hbody : ∀ body, body ∈ bodies separator P ↔ IsBlank body ∨ ∃ parts, parts ≠ [] ∧
      (∀ part ∈ parts, IsSpaced P part) ∧ body = [separator].intercalate parts := by
    intro body
    rw [bodies, Language.mem_add, mem_kstar_mul_iff_intercalate, or_comm]
    exact Iff.rfl
  constructor
  · intro h
    obtain ⟨body, rfl, h⟩ := h
    exact Language.append_mem_mul (a := opening :: body)
      (Language.append_mem_mul (a := [opening]) rfl ((hbody body).2 h)) rfl
  · intro h
    obtain ⟨_, hfront, _, rfl, rfl⟩ := Language.mem_mul.1 h
    obtain ⟨_, rfl, body, hmem, rfl⟩ := Language.mem_mul.1 hfront
    exact ⟨body, rfl, (hbody body).1 hmem⟩

theorem languageOf_isDelimited {opening separator closing : Char} {P : List Char → Prop} :
    languageOf (IsDelimited opening separator closing P) =
      {[opening]} * bodies separator P * {[closing]} :=
  Language.ext fun _ => isDelimited_iff

/-! ## Building -/

/-- The computation returns an automaton for the language. -/
def Builds (result : Except Error Automaton) (l : Language Char) : Prop :=
  ∃ g, result = .ok g ∧ g.Valid ∧ g.language = l

variable {g item : Automaton} {l m : Language Char} {result : Except Error Automaton}
  {P : List Char → Prop}

theorem builds_ok (hg : g.Valid) (hlanguage : g.language = l) : Builds (.ok g) l :=
  ⟨g, rfl, hg, hlanguage⟩

/-- Minimizing keeps the language. -/
theorem builds_settle (algorithm : Option Algorithm) (hg : g.Valid) (hlanguage : g.language = l) :
    Builds (settle algorithm g) l := by
  cases algorithm with
  | none => exact builds_ok hg hlanguage
  | some a =>
    obtain ⟨m, hminimize, hm, hsame⟩ := Automaton.exists_minimize_language_eq hg a
    refine ⟨m, ?_, hm, hsame.trans hlanguage⟩
    show (g.minimize a).mapError Error.invariant = _
    rw [hminimize]
    rfl

theorem Builds.bind {f : Automaton → Except Error Automaton} (h : Builds result l)
    (hf : ∀ g, g.Valid → g.language = l → Builds (f g) m) : Builds (result >>= f) m := by
  obtain ⟨g, rfl, hg, hlanguage⟩ := h
  exact hf g hg hlanguage

theorem builds_integerAutomaton : Builds integerAutomaton (languageOf IsInteger) := by
  rw [integerAutomaton_eq_ok]
  refine builds_ok (Pattern.valid_automaton _) ?_
  rw [Pattern.language_automaton, language_integerTree_eq]

theorem valid_spaced (hg : g.Valid) : (spaces.concat g).Valid :=
  Automaton.valid_concat valid_spaces hg

theorem language_spaced (hg : g.Valid) (hlanguage : g.language = l) :
    (spaces.concat g).language = languageOf IsBlank * l := by
  rw [Automaton.language_concat valid_spaces hg, language_spaces, hlanguage]

section Delimited

variable (hitem : item.Valid) (separator : Char)

include hitem

theorem valid_group : ∀ a ∈ [item, spaces, .char separator], a.Valid := by
  simp [hitem, valid_spaces, valid_char]

theorem valid_items :
    ((Automaton.concatAll [item, spaces, .char separator]).star.concat item).Valid :=
  Automaton.valid_concat
    (Automaton.valid_star (Automaton.valid_concatAll (valid_group hitem separator))) hitem

/-- Items with a separator between them, and spaces before each separator. -/
theorem language_items :
    ((Automaton.concatAll [item, spaces, .char separator]).star.concat item).language =
      (item.language * languageOf IsBlank * {[separator]})∗ * item.language := by
  have hgroup := valid_group hitem separator
  have hvalid := Automaton.valid_concatAll hgroup
  rw [Automaton.language_concat (Automaton.valid_star hvalid) hitem,
    Automaton.language_star hvalid, Automaton.language_concatAll hgroup]
  simp [language_spaces, language_char, mul_assoc]

/-- The items bring the spaces before an element with them. -/
theorem builds_delimited (algorithm : Option Algorithm) (opening closing : Char)
    (hlanguage : item.language = languageOf IsBlank * languageOf P) :
    Builds (delimited algorithm opening item separator closing)
      (languageOf (IsDelimited opening separator closing P)) := by
  have hitems := valid_items hitem separator
  have hparts : ∀ a ∈ [.char opening,
      ((Automaton.concatAll [item, spaces, .char separator]).star.concat item).union spaces,
      spaces, .char closing], a.Valid := by
    simp [valid_char, valid_spaces, Automaton.valid_union hitems valid_spaces]
  have hblank : languageOf IsBlank * languageOf IsBlank = languageOf IsBlank := by
    rw [← language_spaces, spaces, Automaton.language_star (valid_char _), kstar_mul_kstar]
  have hspaced : languageOf (IsSpaced P) = item.language * languageOf IsBlank := by
    rw [hlanguage]
    exact Language.ext fun _ => isSpaced_iff
  refine builds_settle algorithm (Automaton.valid_concatAll hparts) ?_
  rw [Automaton.language_concatAll hparts, languageOf_isDelimited, bodies, hspaced]
  simp only [List.map_cons, List.map_nil, List.prod_cons, List.prod_nil, mul_one, language_char,
    language_spaces, Automaton.language_union hitems valid_spaces, language_items hitem]
  -- The spaces at the end belong to the last item, or to the spaces that stand alone.
  rw [← mul_assoc (_ + languageOf IsBlank), add_mul, hblank]
  simp only [mul_assoc]

end Delimited

theorem builds_listAutomaton (algorithm : Option Algorithm) :
    Builds (listAutomaton algorithm) (languageOf IsList) := by
  refine builds_integerAutomaton.bind fun g hg hlanguage => ?_
  refine (builds_settle algorithm (valid_spaced hg) (language_spaced hg hlanguage)).bind ?_
  exact fun item hitem hitems => builds_delimited hitem ';' algorithm '[' ']' hitems

theorem builds_tupleAutomaton (algorithm : Option Algorithm) :
    Builds (tupleAutomaton algorithm) (languageOf IsTuple) := by
  refine builds_integerAutomaton.bind fun g hg hinteger => ?_
  refine (builds_listAutomaton algorithm).bind fun h hh hlist => ?_
  have hparts : ∀ a ∈ [identifierAutomaton, g, h], a.Valid := by
    simp [valid_identifierAutomaton, hg, hh]
  have helement : (Automaton.unionAll [identifierAutomaton, g, h]).language =
      languageOf fun v => IsIdentifier v ∨ IsInteger v ∨ IsList v := by
    rw [Automaton.language_unionAll hparts]
    simp only [List.map_cons, List.map_nil, List.sum_cons, List.sum_nil, add_zero,
      language_identifierAutomaton, hinteger, hlist]
    rfl
  refine (builds_settle algorithm (Automaton.valid_unionAll hparts) helement).bind ?_
  intro element hvalid hlanguage
  refine (builds_settle algorithm (valid_spaced hvalid) (language_spaced hvalid hlanguage)).bind ?_
  exact fun item hitem hitems => builds_delimited hitem ',' algorithm '(' ')' hitems

/-- The characters of identifiers are an alphabet for them. -/
theorem coveredBy_identifierAutomaton :
    identifierAutomaton.CoveredBy (.ofChars identifierChars) := by
  refine Automaton.coveredBy_of_forall_labels (Alphabet.checkRanges_eq_ok_iff.1 ?_)
  decide

theorem builds_identifiersWithoutKeywords (algorithm : Option Algorithm) :
    Builds (identifiersWithoutKeywords.build algorithm)
      (languageOf fun w => IsIdentifier w ∧ ¬IsKeyword w) := by
  have hdifference := (Automaton.difference_eq_ok_iff (b := keywordAutomaton)
    valid_identifierAutomaton).2 ⟨⟨'_', by decide⟩, coveredBy_identifierAutomaton, rfl⟩
  refine Builds.bind (l := languageOf fun w => IsIdentifier w ∧ ¬IsKeyword w) ?_ fun g hg =>
    builds_settle algorithm hg
  rw [hdifference]
  refine builds_ok (Automaton.valid_intersection _ _) (Language.ext fun w => ?_)
  rw [Automaton.mem_language_intersection_complementOver valid_identifierAutomaton
    valid_keywordAutomaton coveredBy_identifierAutomaton, language_identifierAutomaton,
    language_keywordAutomaton]
  rfl

theorem builds_build (algorithm : Option Algorithm) :
    ∀ language : LexicalLanguage,
      Builds (language.build algorithm) (languageOf language.IsWord)
  | identifiers =>
    builds_settle algorithm valid_identifierAutomaton language_identifierAutomaton
  | keywords => builds_settle algorithm valid_keywordAutomaton language_keywordAutomaton
  | identifiersWithoutKeywords => builds_identifiersWithoutKeywords algorithm
  | integer =>
    builds_integerAutomaton.bind fun _ hg hlanguage => builds_settle algorithm hg hlanguage
  | list => builds_listAutomaton algorithm
  | tuple => builds_tupleAutomaton algorithm

/-- Every lexical language is built, with any algorithm and without one, and its automaton accepts
    the words of the language and no others. -/
theorem build_accepts_iff (language : LexicalLanguage) (algorithm : Option Algorithm) :
    ∃ g, language.build algorithm = .ok g ∧ ∀ w, g.accepts w = true ↔ language.IsWord w := by
  obtain ⟨g, hbuild, hg, hlanguage⟩ := builds_build algorithm language
  refine ⟨g, hbuild, fun w => ?_⟩
  rw [Automaton.accepts_iff_mem_language hg, hlanguage, mem_languageOf]

/-- A separator does not end a list. -/
example : (list.build none).map (fun g => g.accepts "[1; ]".toList) = .ok false := by
  simp only [build, listAutomaton, integerAutomaton_eq_ok]
  rfl

end LexicalLanguage

end RegularLanguages
