import RegularLanguages.Proofs.Automaton.Difference
import RegularLanguages.Proofs.Automaton.Edit
import RegularLanguages.Proofs.Automaton.Trie
import RegularLanguages.Proofs.Pattern.Compilation

set_option autoImplicit false

/-! # Everything that can be built is valid

`Valid` is not part of the type of automata, and the operations renumber targets, look up tables
of numbers and put states behind the old ones. This file shows that no way through the library
leads out of the valid automata: `Constructed` has one rule for each operation that returns an
automaton, with whatever arguments, and for each change made by hand, refused or not. Every rule
keeps validity, so validation accepts whatever is constructed (`validate_constructed`). -/

namespace RegularLanguages.Automaton

variable {g h a b : Automaton} {alphabet : Alphabet}

/-! ## Operations that may refuse -/

theorem valid_of_complement_eq_ok (hg : g.Valid) (h' : g.complement alphabet = .ok h) :
    h.Valid := by
  by_cases hsymbol : ∃ c, c ∈ alphabet
  · rw [complement_eq_ok g hsymbol] at h'
    rw [← Except.ok.inj h']
    exact valid_complementOver_determinized hg alphabet
  · rw [complement_eq_error g (not_exists.1 hsymbol)] at h'
    cases h'

theorem valid_of_difference_eq_ok (ha : a.Valid) (h' : a.difference b alphabet = .ok h) :
    h.Valid := by
  obtain ⟨_, _, rfl⟩ := (difference_eq_ok_iff ha).1 h'
  exact valid_intersection _ _

theorem valid_of_minimize_eq_ok (hg : g.Valid) {algorithm : Algorithm}
    (h' : g.minimize algorithm = .ok h) : h.Valid := by
  obtain ⟨m, hm, hvalid, _⟩ := exists_minimize_language_eq hg algorithm
  rw [hm] at h'
  exact Except.ok.inj h' ▸ hvalid

theorem valid_of_compile_eq_ok {text : String} (h' : compile text = .ok g) : g.Valid := by
  obtain ⟨p, _, rfl⟩ := compile_eq_ok_iff.1 h'
  exact Pattern.valid_automaton p

theorem valid_of_compileMinimal_eq_ok {text : String} {algorithm : Algorithm}
    (h' : compileMinimal text algorithm = .ok g) : g.Valid := by
  cases hparse : Pattern.parse text.toList with
  | error cause =>
    rw [compileMinimal_of_parse_eq_error hparse] at h'
    cases h'
  | ok p =>
    obtain ⟨m, hm, hvalid, _⟩ := exists_compileMinimal_eq_ok hparse algorithm
    rw [hm] at h'
    exact Except.ok.inj h' ▸ hvalid

/-! ## Every way to an automaton -/

/-- The automata that the operations of the library lead to. -/
inductive Constructed : Automaton → Prop where
  | empty : Constructed empty
  | epsilon : Constructed epsilon
  | anyWord : Constructed anyWord
  | anyChar : Constructed anyChar
  | char (c : Char) : Constructed (char c)
  | charSet (chars : List Char) : Constructed (charSet chars)
  | charsBetween (lo hi : Char) : Constructed (charsBetween lo hi)
  | oneOf (ranges : List CharRange) : Constructed (oneOf ranges)
  | symbol (alphabet : Alphabet) : Constructed (symbol alphabet)
  | word (chars : List Char) : Constructed (word chars)
  | words (ws : List (List Char)) : Constructed (words ws)
  | compile {text : String} {g : Automaton} (h : compile text = .ok g) : Constructed g
  | compileMinimal {text : String} {algorithm : Algorithm} {g : Automaton}
      (h : compileMinimal text algorithm = .ok g) : Constructed g
  /-- What a call in place leaves behind, also when it is refused. -/
  | edit {g : Automaton} (hg : Constructed g) (e : Edit) : Constructed (e.run g).2
  | concat {a b : Automaton} (ha : Constructed a) (hb : Constructed b) : Constructed (a.concat b)
  | concatAll {parts : List Automaton} (hparts : ∀ a ∈ parts, Constructed a) :
      Constructed (concatAll parts)
  | union {a b : Automaton} (ha : Constructed a) (hb : Constructed b) : Constructed (a.union b)
  | unionAll {parts : List Automaton} (hparts : ∀ a ∈ parts, Constructed a) :
      Constructed (unionAll parts)
  | star {a : Automaton} (ha : Constructed a) : Constructed a.star
  | plus {a : Automaton} (ha : Constructed a) : Constructed a.plus
  | optional {a : Automaton} (ha : Constructed a) : Constructed a.optional
  | repeated {a : Automaton} (ha : Constructed a) (min : Nat) (max : Option Nat) :
      Constructed (a.repeated min max)
  | intersection {a b : Automaton} (ha : Constructed a) (hb : Constructed b) :
      Constructed (a.intersection b)
  | complement {g h : Automaton} {alphabet : Alphabet} (hg : Constructed g)
      (hh : g.complement alphabet = .ok h) : Constructed h
  | difference {a b h : Automaton} {alphabet : Alphabet} (ha : Constructed a)
      (hb : Constructed b) (hh : a.difference b alphabet = .ok h) : Constructed h
  | reversal {g : Automaton} (hg : Constructed g) : Constructed g.reversal
  | withoutEpsilons {g : Automaton} (hg : Constructed g) : Constructed g.withoutEpsilons
  | determinize {g : Automaton} (hg : Constructed g) : Constructed g.determinize
  | determinizeFrom {g : Automaton} (hg : Constructed g) (start : StateSet) :
      Constructed (g.determinizeFrom start)
  | trimmed {g : Automaton} (hg : Constructed g) (liveOnly : Bool) :
      Constructed (g.trimmed liveOnly)
  | canonical {g : Automaton} (hg : Constructed g) : Constructed g.canonical
  | minimize {g h : Automaton} {algorithm : Algorithm} (hg : Constructed g)
      (hh : g.minimize algorithm = .ok h) : Constructed h

/-- Each rule keeps validity. -/
theorem Constructed.valid (hg : Constructed g) : g.Valid := by
  induction hg with
  | empty => exact valid_empty
  | epsilon => exact valid_epsilon
  | anyWord => exact valid_anyWord
  | anyChar => exact valid_oneOf _
  | char _ => exact valid_oneOf _
  | charSet _ => exact valid_oneOf _
  | charsBetween lo hi => exact valid_charsBetween lo hi
  | oneOf ranges => exact valid_oneOf ranges
  | symbol _ => exact valid_oneOf _
  | word chars => exact valid_word chars
  | words ws => exact valid_words ws
  | compile h => exact valid_of_compile_eq_ok h
  | compileMinimal h => exact valid_of_compileMinimal_eq_ok h
  | edit _ e ih => exact Edit.valid_run ih e
  | concat _ _ iha ihb => exact valid_followedBy iha ihb false
  | concatAll _ ih => exact valid_concatAll ih
  | union _ _ iha ihb => exact valid_union iha ihb
  | unionAll _ ih => exact valid_unionAll ih
  | star _ ih => exact valid_star ih
  | plus _ ih => exact valid_plus ih
  | optional _ ih => exact valid_optional ih
  | repeated _ min max ih => exact valid_repeated ih min max
  | intersection _ _ _ _ => exact valid_intersection _ _
  | complement _ hh ih => exact valid_of_complement_eq_ok ih hh
  | difference _ _ hh iha _ => exact valid_of_difference_eq_ok iha hh
  | reversal _ _ => exact valid_reversal _
  | withoutEpsilons _ ih => exact valid_withoutEpsilons ih
  | determinize _ ih => exact valid_determinizeFrom ih _
  | determinizeFrom _ start ih => exact valid_determinizeFrom ih start
  | trimmed _ liveOnly _ => exact valid_trimmed _ liveOnly
  | canonical _ _ => exact valid_canonical _
  | minimize _ hh ih => exact valid_of_minimize_eq_ok ih hh

/-- Validation accepts every automaton that can be constructed: its initial state and all targets
    exist. A change by hand is refused exactly if it names a state that does not exist, and then
    leaves the automaton as it was. -/
theorem validate_constructed :
    (∀ g, Constructed g → g.validate = .ok () ∧ g.Valid) ∧
      ∀ (e : Edit) (g : Automaton),
        ((∃ v, (e.run g).1 = .error v) ↔ ∃ id ∈ e.named, g.size ≤ id) ∧
        ∀ v, (e.run g).1 = .error v → (e.run g).2 = g :=
  ⟨fun _ hg => ⟨validate_eq_ok_iff.2 hg.valid, hg.valid⟩,
    fun e g => ⟨e.exists_error_iff g, fun _ hv => Edit.snd_run_of_error hv⟩⟩

/-- A word with an edge added by hand, reversed and repeated; and an edge to a state that does not
    exist, which is refused. -/
theorem validate_constructed_word :
    let looped := ((Edit.addEdge 0 (.single 'b') 0).run (word ['a'])).2
    let refused := (Edit.addEdge 0 (.single 'b') 7).run (word ['a'])
    (looped.reversal.star.validate = .ok () ∧ looped.reversal.star.Valid) ∧
      (∃ v, refused.1 = .error v) ∧ refused.2 = word ['a'] := by
  have hlooped := Constructed.edit (.word ['a']) (.addEdge 0 (.single 'b') 0)
  obtain ⟨hrefused, hunchanged⟩ :=
    validate_constructed.2 (.addEdge 0 (.single 'b') 7) (word ['a'])
  obtain ⟨v, hv⟩ := hrefused.2 ⟨7, by decide, by decide⟩
  exact ⟨validate_constructed.1 _ hlooped.reversal.star, ⟨v, hv⟩, hunchanged v hv⟩

end RegularLanguages.Automaton
