import Std.Data.TreeMap
import RegularLanguages.Automaton.Edit

set_option autoImplicit false

/-! # Primitive automata

The automata that the others are made of: no word, the empty word, one character, one word, a
finite set of words.

The last one is a trie, which grows word by word: a word goes along the edges that earlier words
have left as long as these spell it, and adds what is missing. So words with a common beginning
share the states that spell it. Beside the automaton a trie under way keeps for every state where
the characters lead, which saves it from looking through the edges. -/

namespace RegularLanguages.Automaton

/-- The language that holds the empty word only. -/
def epsilon : Automaton := ofList [{ accepting := true }]

/-- Every word. -/
def anyWord : Automaton :=
  ofList [{ accepting := true, edges := [⟨CharRange.full, 0⟩] }]

/-- The words of one character out of any of the ranges, with one edge for each range. -/
def oneOf (ranges : List CharRange) : Automaton :=
  ofList [{ edges := ranges.map fun r => ⟨r, 1⟩ }, { accepting := true }]

/-- The words of one character. -/
def anyChar : Automaton := oneOf [CharRange.full]

/-- The word that is one given character. -/
def char (c : Char) : Automaton := oneOf [CharRange.single c]

/-- The words of one character out of the given ones. -/
def charSet (chars : List Char) : Automaton := oneOf (chars.map CharRange.single)

/-- The words of one character from `lo` to `hi`; none if `lo` comes after `hi`. -/
def charsBetween (lo hi : Char) : Automaton :=
  match CharRange.ofBounds? lo hi with
  | some r => oneOf [r]
  | none => empty

/-- The words of one symbol of the alphabet. -/
def symbol (alphabet : Alphabet) : Automaton := oneOf alphabet.ranges

/-- One given word. -/
def word (chars : List Char) : Automaton :=
  ofList <|
    chars.zipIdx.map (fun (c, id) => { edges := [⟨CharRange.single c, id + 1⟩] })
      ++ [{ accepting := true }]

/-! ## Finite sets of words -/

/-- A trie under way. -/
structure Trie where
  automaton : Automaton
  /-- For every state, where the characters lead. -/
  children : Array (Std.TreeMap Char StateId)

namespace Trie

/-- The root alone. -/
def root : Trie := { automaton := empty, children := #[∅] }

/-- Where `c` leads from a state, if it leads anywhere. -/
def child? (t : Trie) (state : StateId) (c : Char) : Option StateId :=
  t.children[state]?.bind fun known => known[c]?

/-- Goes along `c` from a state. If it leads nowhere yet, it gets an edge to a new state. -/
def descend (t : Trie) (state : StateId) (c : Char) : Trie × StateId :=
  match t.child? state c with
  | some next => (t, next)
  | none =>
    let next := t.automaton.size
    let automaton := (t.automaton.addState false).modifyState state fun s =>
      { s with edges := s.edges ++ [⟨CharRange.single c, next⟩] }
    let children := (t.children.push ∅).modify state fun known => known.insert c next
    ({ automaton, children }, next)

/-- Goes along a word from a state, character by character. -/
def walk (t : Trie) (state : StateId) : List Char → Trie × StateId
  | [] => (t, state)
  | c :: rest =>
    let (t, next) := t.descend state c
    walk t next rest

/-- Adds a word: the state where it ends accepts. -/
def addWord (t : Trie) (word : List Char) : Trie :=
  let (t, last) := t.walk t.automaton.initial word
  { t with automaton := t.automaton.modifyState last fun s => { s with accepting := true } }

end Trie

/-- The given words. -/
def words (ws : List (List Char)) : Automaton := (ws.foldl Trie.addWord Trie.root).automaton

end RegularLanguages.Automaton
