set_option autoImplicit false

/-! # Quoted strings in a text

A text may hold strings between quotation marks, in which a backslash takes the next character with
it. `quotedStrings` reads these strings. What stands between two marks is one string if no mark in
it is left without a backslash, and no backslash is left to take the closing mark (`Unbroken`).

`Quotes` says which strings a piece of text brings into every text that it is part of. Pieces put
together bring their strings in order (`Quotes.append`), so the strings of a long text are found
piece by piece. -/

namespace RegularLanguages.Text

/-- Read from the left, with a backslash taking the next character along, the text has no quotation
    mark and does not end in a backslash. -/
inductive Unbroken : List Char → Prop where
  | nil : Unbroken []
  | plain {c : Char} {rest : List Char} :
      c ≠ '"' → c ≠ '\\' → Unbroken rest → Unbroken (c :: rest)
  | escaped (c : Char) {rest : List Char} : Unbroken rest → Unbroken ('\\' :: c :: rest)

/-- Reads the rest of a text; of a string that is open, what has been read so far is given, the
    last character first. -/
def readStrings : Option (List Char) → List Char → Option (List (List Char))
  | none, [] => some []
  | none, c :: rest => if c = '"' then readStrings (some []) rest else readStrings none rest
  | some _, [] => none
  | some opened, '\\' :: c :: rest => readStrings (some (c :: '\\' :: opened)) rest
  | some opened, c :: rest =>
    if c = '"' then (readStrings none rest).map (opened.reverse :: ·)
    else readStrings (some (c :: opened)) rest

/-- The quoted strings of a text, in order. A text that ends within a string has none. -/
def quotedStrings (text : List Char) : Option (List (List Char)) := readStrings none text

/-! ## Unbroken texts -/

theorem Unbroken.append {s t : List Char} (hs : Unbroken s) (ht : Unbroken t) :
    Unbroken (s ++ t) := by
  induction hs with
  | nil => exact ht
  | plain hmark hslash _ ih => exact Unbroken.plain hmark hslash ih
  | escaped c _ ih => exact Unbroken.escaped c ih

/-- A text without quotation marks and backslashes. -/
theorem unbroken_of_forall {s : List Char} (h : ∀ c ∈ s, c ≠ '"' ∧ c ≠ '\\') : Unbroken s := by
  induction s with
  | nil => exact Unbroken.nil
  | cons c rest ih =>
    obtain ⟨hc, hrest⟩ := List.forall_mem_cons.1 h
    exact Unbroken.plain hc.1 hc.2 (ih hrest)

/-- An unbroken text is read as part of the open string, up to the mark behind it. -/
theorem Unbroken.readStrings_append {s : List Char} (h : Unbroken s) (opened rest : List Char) :
    readStrings (some opened) (s ++ '"' :: rest) =
      (readStrings none rest).map ((opened.reverse ++ s) :: ·) := by
  induction h generalizing opened with
  | nil => simp [readStrings]
  | plain hmark hslash _ ih => simp [readStrings, hmark, hslash, ih]
  | escaped c _ ih => simp [readStrings, ih]

/-! ## Strings of a piece of text -/

/-- Wherever the text stands outside of a string, it brings the given strings. -/
def Quotes (text : List Char) (strings : List (List Char)) : Prop :=
  ∀ rest, quotedStrings (text ++ rest) = (quotedStrings rest).map (strings ++ ·)

theorem Quotes.append {s t : List Char} {ss ts : List (List Char)} (hs : Quotes s ss)
    (ht : Quotes t ts) : Quotes (s ++ t) (ss ++ ts) := by
  intro rest
  rw [List.append_assoc, hs, ht, Option.map_map]
  congr 1
  funext us
  exact (List.append_assoc ss ts us).symm

/-- A text without quotation marks. -/
theorem quotes_of_not_mem {s : List Char} (h : '"' ∉ s) : Quotes s [] := by
  induction s with
  | nil =>
    intro rest
    exact Option.map_id'.symm
  | cons c s ih =>
    intro rest
    rw [List.mem_cons, not_or] at h
    rw [← ih h.2 rest]
    exact if_neg (Ne.symm h.1)

/-- An unbroken text between two marks is one string. -/
theorem Unbroken.quotes {before s after : List Char} (hs : Unbroken s) (hbefore : '"' ∉ before)
    (hafter : '"' ∉ after) : Quotes (before ++ '"' :: (s ++ '"' :: after)) [s] := by
  have hstring : Quotes ('"' :: (s ++ ['"'])) [s] := by
    intro rest
    rw [List.cons_append, List.append_assoc]
    exact hs.readStrings_append [] rest
  have hwhole := (quotes_of_not_mem hbefore).append (hstring.append (quotes_of_not_mem hafter))
  rwa [List.cons_append, List.append_assoc] at hwhole

/-- A line break at the end. -/
theorem Quotes.line {s : List Char} {ss : List (List Char)} (h : Quotes s ss) :
    Quotes (s ++ ['\n']) ss := by
  have hline := h.append (quotes_of_not_mem (show '"' ∉ ['\n'] by decide))
  rwa [List.append_nil] at hline

/-- The strings of a whole text. -/
theorem Quotes.quotedStrings_eq {s : List Char} {ss : List (List Char)} (h : Quotes s ss) :
    quotedStrings s = some ss := by
  have hwhole := h []
  rw [List.append_nil] at hwhole
  rw [hwhole]
  exact congrArg some (List.append_nil ss)

end RegularLanguages.Text
