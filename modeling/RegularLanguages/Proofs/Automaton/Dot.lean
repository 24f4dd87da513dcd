import Mathlib.Data.List.Basic
import RegularLanguages.Proofs.CharRange.Label

set_option autoImplicit false

/-! # Drawings lose nothing

Everything about an automaton can be read off its drawing: the states and edges in the order in
which they are stored, and the labels. A line says what it draws (`DrawnLine.text_injective`), no
line holds a line break, and the lines of the edges of a state come between the line of the state
and the line of the next one. So two automata with the same drawing are equal.

The drawing is also a proper text of its language: each string in it ends where it is meant to end
(`Automaton.quotes_toDot`), whatever characters the labels have. -/

namespace RegularLanguages

open Text

/-! ## Lines -/

/-- The attributes of an edge in a drawing. An edge without a label reads nothing. -/
def attributes : Option CharRange → String
  | some r => "[label=\"" ++ r.dotLabel ++ "\"]"
  | none => "[label=\"ε\",style=dashed]"

theorem toList_attributes_some (r : CharRange) :
    (attributes (some r)).toList = "[label=\"".toList ++ (r.dotLabel.toList ++ "\"]".toList) := by
  simp only [attributes, String.toList_append, List.append_assoc]

/-- Epsilon starts no label: it is not a character of ASCII. -/
theorem dotLabel_append_ne {r : CharRange} (rest rest' : List Char) :
    r.dotLabel.toList ++ '"' :: rest ≠ 'ε' :: rest' := by
  intro heq
  cases hlabel : r.dotLabel.toList with
  | nil =>
    rw [hlabel] at heq
    exact absurd (List.cons.inj heq).1 (by decide)
  | cons c label =>
    rw [hlabel] at heq
    have hc := CharRange.isVisible_of_mem_dotLabel r c (hlabel ▸ List.mem_cons_self)
    rw [(List.cons.inj heq).1] at hc
    exact absurd hc (by decide)

theorem attributes_some_ne_none (r : CharRange) :
    (attributes (some r)).toList ≠ (attributes none).toList := by
  have hnone : (attributes none).toList =
      "[label=\"".toList ++ 'ε' :: "\",style=dashed]".toList := by simp [attributes]
  rw [toList_attributes_some, hnone, ne_eq, List.append_cancel_left_eq]
  exact dotLabel_append_ne _ _

theorem attributes_injective : Function.Injective attributes := by
  intro label label' h
  cases label with
  | none =>
    cases label' with
    | none => rfl
    | some s => exact absurd (congrArg String.toList h).symm (attributes_some_ne_none s)
  | some r =>
    cases label' with
    | none => exact absurd (congrArg String.toList h) (attributes_some_ne_none r)
    | some s =>
      have hlabel := congrArg String.toList h
      rw [toList_attributes_some, toList_attributes_some, List.append_cancel_left_eq,
        List.append_cancel_right_eq] at hlabel
      rw [CharRange.dotLabel_injective (String.toList_injective hlabel)]

/-- What a line of a drawing says about an automaton. -/
inductive DrawnLine where
  | state (id : StateId) (accepting : Bool)
  | arrow (source target : StateId) (label : Option CharRange)

namespace DrawnLine

def text : DrawnLine → String
  | state id accepting =>
    "  " ++ toString id ++ " [shape=" ++ (if accepting then "doublecircle" else "circle")
      ++ ",label=\"" ++ toString id ++ "\"];"
  | arrow source target label =>
    "  " ++ toString source ++ " -> " ++ toString target ++ " " ++ attributes label

theorem toList_text_state (id : StateId) (accepting : Bool) :
    (state id accepting).text.toList =
      ' ' :: ' ' :: (numeral id ++ ' ' :: '[' :: ("shape=".toList ++
        ((if accepting then "doublecircle" else "circle").toList ++
          (",label=\"".toList ++ (numeral id ++ "\"];".toList))))) := by
  simp only [text, String.toList_append, List.append_assoc]
  rfl

theorem toList_text_arrow (source target : StateId) (label : Option CharRange) :
    (arrow source target label).text.toList =
      ' ' :: ' ' :: (numeral source ++ ' ' :: '-' :: '>' :: ' ' ::
        (numeral target ++ ' ' :: (attributes label).toList)) := by
  simp only [text, String.toList_append, List.append_assoc]
  rfl

/-- Lines that say different things have different texts. -/
theorem text_injective : Function.Injective text := by
  intro k l h
  have htext := congrArg String.toList h
  cases k with
  | state i a =>
    cases l with
    | state j b =>
      rw [toList_text_state, toList_text_state, List.cons_inj_right, List.cons_inj_right] at htext
      obtain ⟨rfl, hshape⟩ := numeral_append_inj htext
      rw [List.cons_inj_right, List.append_cancel_left_eq] at hshape
      cases a <;> cases b
      · rfl
      · exact absurd (List.cons.inj hshape).1 (by decide)
      · exact absurd (List.cons.inj hshape).1 (by decide)
      · rfl
    | arrow j target label =>
      rw [toList_text_state, toList_text_arrow, List.cons_inj_right, List.cons_inj_right] at htext
      exact absurd (List.cons.inj (numeral_append_inj htext).2).1 (by decide)
  | arrow i target label =>
    rw [toList_text_arrow] at htext
    cases l with
    | state j b =>
      rw [toList_text_state, List.cons_inj_right, List.cons_inj_right] at htext
      exact absurd (List.cons.inj (numeral_append_inj htext).2).1 (by decide)
    | arrow j target' label' =>
      rw [toList_text_arrow, List.cons_inj_right, List.cons_inj_right] at htext
      obtain ⟨rfl, htarget⟩ := numeral_append_inj htext
      rw [List.cons_inj_right, List.cons_inj_right, List.cons_inj_right] at htarget
      obtain ⟨rfl, hlabel⟩ := numeral_append_inj htarget
      rw [attributes_injective (String.toList_injective hlabel)]

theorem newline_notMem_dotLabel (r : CharRange) : '\n' ∉ r.dotLabel.toList :=
  fun h => absurd (CharRange.isVisible_of_mem_dotLabel r _ h) (by decide)

/-- A line is one line. -/
theorem newline_notMem_text (l : DrawnLine) : '\n' ∉ l.text.toList := by
  cases l with
  | state id accepting =>
    have hnumeral := newline_notMem_numeral id
    rw [toList_text_state]
    cases accepting <;> simp [hnumeral]
  | arrow source target label =>
    have hsource := newline_notMem_numeral source
    have htarget := newline_notMem_numeral target
    rw [toList_text_arrow]
    cases label with
    | none => simp [hsource, htarget, attributes]
    | some r =>
      have hlabel := newline_notMem_dotLabel r
      simp [hsource, htarget, toList_attributes_some, hlabel]

def isArrow : DrawnLine → Bool
  | state _ _ => false
  | arrow _ _ _ => true

/-- The line draws an edge that reads a character. -/
def isLabelled : DrawnLine → Bool
  | arrow _ _ (some _) => true
  | _ => false

/-! ### Strings of a line -/

/-- The number of a state, or the label of an edge. -/
def string : DrawnLine → List Char
  | state id _ => numeral id
  | arrow _ _ (some r) => r.dotLabel.toList
  | arrow _ _ none => ['ε']

/-- A line has one string. -/
theorem quotes_text (l : DrawnLine) : Quotes l.text.toList [l.string] := by
  cases l with
  | state id accepting =>
    have hnumeral := mark_notMem_numeral id
    have hbefore : '"' ∉ ' ' :: ' ' :: (numeral id ++ ' ' :: '[' :: ("shape=".toList ++
        ((if accepting then "doublecircle" else "circle").toList ++ ",label=".toList))) := by
      cases accepting <;> simp [hnumeral]
    have hquotes := (unbroken_numeral id).quotes hbefore (show '"' ∉ "];".toList by simp)
    rw [toList_text_state]
    simpa [string] using hquotes
  | arrow source target label =>
    have hsource := mark_notMem_numeral source
    have htarget := mark_notMem_numeral target
    have hbefore : '"' ∉ ' ' :: ' ' :: (numeral source ++ ' ' :: '-' :: '>' :: ' ' ::
        (numeral target ++ ' ' :: "[label=".toList)) := by
      simp [hsource, htarget]
    rw [toList_text_arrow]
    cases label with
    | none =>
      have hepsilon : Unbroken ['ε'] := unbroken_of_forall (List.all_iff_forall_prop.1 (by decide))
      have hquotes := hepsilon.quotes hbefore (show '"' ∉ ",style=dashed]".toList by simp)
      simpa [attributes, string] using hquotes
    | some r =>
      have hquotes := (CharRange.unbroken_dotLabel r).quotes hbefore
        (show '"' ∉ "]".toList by simp)
      simpa [toList_attributes_some, string] using hquotes

end DrawnLine

/-! ## The lines of a state -/

namespace State

/-- The edges of a state, and then its epsilon edges. -/
def arrows (id : StateId) (s : State) : List DrawnLine :=
  s.edges.map (fun e => .arrow id e.target (some e.label))
    ++ s.epsilons.map (fun target => .arrow id target none)

/-- What the lines that draw a state say. -/
def drawnLines (id : StateId) (s : State) : List DrawnLine :=
  .state id s.accepting :: s.arrows id

theorem text_edge (id target : StateId) (r : CharRange) :
    (DrawnLine.arrow id target (some r)).text =
      "  " ++ toString id ++ " -> " ++ toString target ++ " [label=\"" ++ r.dotLabel ++ "\"]" := by
  refine String.toList_injective ?_
  rw [DrawnLine.toList_text_arrow, toList_attributes_some]
  simp [numeral]

theorem text_epsilon (id target : StateId) :
    (DrawnLine.arrow id target none).text =
      "  " ++ toString id ++ " -> " ++ toString target ++ " [label=\"ε\",style=dashed]" := by
  refine String.toList_injective ?_
  rw [DrawnLine.toList_text_arrow]
  simp [numeral, attributes]

theorem dotLines_eq (id : StateId) (s : State) :
    s.dotLines id = (s.drawnLines id).map DrawnLine.text := by
  simp only [dotLines, drawnLines, arrows, List.map_cons, List.map_append, List.map_map,
    Function.comp_def, text_edge, text_epsilon]
  rfl

theorem isArrow_of_mem_arrows {id : StateId} {s : State} :
    ∀ l ∈ s.arrows id, l.isArrow = true := by
  unfold arrows
  rw [List.forall_mem_append, List.forall_mem_map, List.forall_mem_map]
  exact ⟨fun _ _ => rfl, fun _ _ => rfl⟩

/-- The edges and the epsilon edges of a state can be read off the lines. -/
theorem arrows_inj {id : StateId} {s t : State} (h : s.arrows id = t.arrows id) :
    s.edges = t.edges ∧ s.epsilons = t.epsilons := by
  have hlabelled {edges : List Edge} :
      ∀ l ∈ edges.map (fun e => DrawnLine.arrow id e.target (some e.label)),
        l.isLabelled = true :=
    List.forall_mem_map.2 fun _ _ => rfl
  have hplain {epsilons : List StateId} :
      ∀ l ∈ (epsilons.map fun target => DrawnLine.arrow id target none).head?,
        l.isLabelled = false := by
    intro l hl
    obtain ⟨target, -, rfl⟩ := List.mem_map.1 (List.mem_of_mem_head? hl)
    rfl
  obtain ⟨hedges, hepsilons⟩ :=
    append_inj_of_head? DrawnLine.isLabelled hlabelled hlabelled hplain hplain h
  refine ⟨(List.map_injective_iff.2 ?_) hedges, (List.map_injective_iff.2 ?_) hepsilons⟩
  · intro d e hde
    obtain ⟨-, htarget, hlabel⟩ := DrawnLine.arrow.inj hde
    cases d
    cases e
    rw [Edge.mk.injEq]
    exact ⟨Option.some.inj hlabel, htarget⟩
  · intro target target' heq
    exact (DrawnLine.arrow.inj heq).2.1

/-- The states can be read off the lines: one ends where the line of the next one stands. -/
theorem flatMap_drawnLines_inj {ss ts : List State} {k : Nat}
    (h : (ss.zipIdx k).flatMap (fun (s, id) => s.drawnLines id) =
      (ts.zipIdx k).flatMap (fun (t, id) => t.drawnLines id)) : ss = ts := by
  induction ss generalizing ts k with
  | nil =>
    cases ts with
    | nil => rfl
    | cons t ts => simp [drawnLines] at h
  | cons s ss ih =>
    cases ts with
    | nil => simp [drawnLines] at h
    | cons t ts =>
      have hnext {us : List State} :
          ∀ l ∈ ((us.zipIdx (k + 1)).flatMap fun (u, id) => u.drawnLines id).head?,
            l.isArrow = false := by
        cases us with
        | nil => exact fun l hl => nomatch hl
        | cons u us =>
          intro l hl
          rw [← Option.mem_some.1 hl]
          rfl
      simp only [List.zipIdx_cons, List.flatMap_cons, drawnLines, List.cons_append] at h
      obtain ⟨hstate, hrest⟩ := List.cons.inj h
      obtain ⟨harrows, hrest⟩ := append_inj_of_head? DrawnLine.isArrow isArrow_of_mem_arrows
        isArrow_of_mem_arrows hnext hnext hrest
      obtain ⟨hedges, hepsilons⟩ := arrows_inj harrows
      have haccepting := (DrawnLine.state.inj hstate).2
      rw [ih hrest]
      cases s
      cases t
      simp only [List.cons.injEq, State.mk.injEq, and_true]
      exact ⟨haccepting, hedges, hepsilons⟩

end State

/-! ## Drawings -/

namespace Automaton

/-- What the lines that draw the states say. -/
def drawnLines (g : Automaton) : List DrawnLine :=
  g.toList.zipIdx.flatMap fun (s, id) => s.drawnLines id

/-- The strings of a drawing: the node without a label that points at the initial state, and then
    the numbers of the states and the labels of the edges. -/
def drawnStrings (g : Automaton) : List (List Char) :=
  [] :: g.drawnLines.map DrawnLine.string

/-- The line that says which state is the initial one. -/
def initialLine (g : Automaton) : String := "  initial -> " ++ toString g.initial

theorem toList_initialLine (g : Automaton) :
    g.initialLine.toList = "  initial -> ".toList ++ numeral g.initial :=
  String.toList_append

/-- The lines before the states. -/
def header (g : Automaton) : List String :=
  ["digraph Automaton \x7b", "  rankdir = LR;", "  initial [shape=plaintext,label=\"\"];",
    g.initialLine]

theorem dotLines_eq (g : Automaton) :
    g.dotLines = g.header ++ (g.drawnLines.map DrawnLine.text ++ ["\x7d"]) := by
  rw [dotLines, List.append_assoc, drawnLines, List.map_flatMap]
  simp only [State.dotLines_eq]
  rfl

/-- The characters of some lines. -/
def lines (texts : List String) : List Char := (texts.map String.toList).flatMap (· ++ ['\n'])

theorem lines_append (ss ts : List String) : lines (ss ++ ts) = lines ss ++ lines ts := by
  rw [lines, List.map_append, List.flatMap_append]
  rfl

theorem toList_toDot (g : Automaton) : g.toDot.toList = lines g.dotLines := by
  simp [toDot, lines, String.toList_join, List.flatMap_map]

theorem newline_notMem_initialLine (g : Automaton) : '\n' ∉ g.initialLine.toList := by
  rw [toList_initialLine, List.mem_append, not_or]
  exact ⟨by simp, newline_notMem_numeral g.initial⟩

theorem newline_notMem_dotLines (g : Automaton) :
    ∀ line ∈ g.dotLines.map String.toList, '\n' ∉ line := by
  rw [dotLines_eq, List.forall_mem_map, List.forall_mem_append, List.forall_mem_append,
    List.forall_mem_map]
  refine ⟨?_, fun l _ => l.newline_notMem_text, by decide⟩
  simp [header, newline_notMem_initialLine]

/-- A drawing shows all of its automaton. -/
theorem toDot_injective : Function.Injective toDot := by
  intro g h heq
  have htext := congrArg String.toList heq
  rw [toList_toDot, toList_toDot] at htext
  have hlines := flatMap_newline_inj g.newline_notMem_dotLines h.newline_notMem_dotLines htext
  have hlines := List.map_injective_iff.2 (fun _ _ => String.toList_injective) hlines
  simp only [dotLines_eq, header, List.cons_append, List.nil_append, List.cons.injEq,
    true_and] at hlines
  obtain ⟨hinitial, htexts⟩ := hlines
  have hstates :=
    List.map_injective_iff.2 DrawnLine.text_injective (List.append_cancel_right htexts)
  have hinitial := congrArg String.toList hinitial
  rw [toList_initialLine, toList_initialLine, List.append_cancel_left_eq] at hinitial
  cases g
  cases h
  rw [Automaton.mk.injEq]
  exact ⟨Array.toList_inj.1 (State.flatMap_drawnLines_inj hstates), numeral_injective hinitial⟩

theorem quotes_lines_cons {line : String} {rest : List String} {ss ts : List (List Char)}
    (hline : Quotes line.toList ss) (hrest : Quotes (lines rest) ts) :
    Quotes (lines (line :: rest)) (ss ++ ts) :=
  hline.line.append hrest

/-- The lines before the states have one string, the label that the pointing node does not have. -/
theorem quotes_lines_header (g : Automaton) : Quotes (lines g.header) [[]] := by
  have hopen : Quotes "digraph Automaton \x7b".toList [] := quotes_of_not_mem (by simp)
  have hdirection : Quotes "  rankdir = LR;".toList [] := quotes_of_not_mem (by simp)
  have hnode : Quotes "  initial [shape=plaintext,label=\"\"];".toList [[]] :=
    Unbroken.nil.quotes (show '"' ∉ "  initial [shape=plaintext,label=".toList by simp)
      (show '"' ∉ "];".toList by simp)
  have hinitial : Quotes g.initialLine.toList [] := by
    refine quotes_of_not_mem ?_
    rw [toList_initialLine, List.mem_append, not_or]
    exact ⟨by simp, mark_notMem_numeral g.initial⟩
  exact quotes_lines_cons hopen (quotes_lines_cons hdirection (quotes_lines_cons hnode
    (quotes_lines_cons hinitial (quotes_of_not_mem List.not_mem_nil))))

theorem quotes_lines_states (g : Automaton) :
    Quotes (lines (g.drawnLines.map DrawnLine.text)) (g.drawnLines.map DrawnLine.string) := by
  induction g.drawnLines with
  | nil => exact quotes_of_not_mem List.not_mem_nil
  | cons l rest ih => exact quotes_lines_cons l.quotes_text ih

/-- In a drawing the strings begin and end where they are meant to. -/
theorem quotes_toDot (g : Automaton) : Quotes g.toDot.toList g.drawnStrings := by
  have hclose : Quotes (lines ["\x7d"]) [] := quotes_of_not_mem (by decide)
  have hwhole := g.quotes_lines_header.append (g.quotes_lines_states.append hclose)
  rw [List.append_nil] at hwhole
  rw [toList_toDot, dotLines_eq, lines_append, lines_append]
  exact hwhole

/-- Drawing loses nothing: automata with the same drawing are equal. Whatever characters a label
    has, it is a string that ends where it is meant to end, so that the strings of a drawing are
    the labels and the numbers of the states. -/
theorem toDot_lossless :
    (∀ g h : Automaton, g.toDot = h.toDot ↔ g = h) ∧
      (∀ r : CharRange, Unbroken r.dotLabel.toList) ∧
      ∀ g : Automaton, quotedStrings g.toDot.toList = some g.drawnStrings :=
  ⟨fun _ _ => toDot_injective.eq_iff, CharRange.unbroken_dotLabel,
    fun g => g.quotes_toDot.quotedStrings_eq⟩

end Automaton

end RegularLanguages
