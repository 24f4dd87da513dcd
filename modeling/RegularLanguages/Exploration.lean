import RegularLanguages.Numbering
import RegularLanguages.Waiting

set_option autoImplicit false

/-! # Exploring what can be reached

Closures, reachability, the subset construction, products and breadth-first numbering all do
the same thing: from some starting nodes they follow a successor function until nothing new
turns up. This file does it once. `explore` numbers the nodes in the order in which they were
first met.

`Frontier` says which of the waiting nodes is expanded next. It matters for the numbering
only, never for the set of nodes found.

The search is given a budget, the number of expansions it may spend. Every node waits once,
so the number of nodes there can be is always enough, and a finished search leaves the rest
of its budget unused. -/

namespace RegularLanguages

variable {α : Type} [Ord α] [Std.TransOrd α] [Std.LawfulEqOrd α]

/-- Which of the waiting nodes is expanded next. -/
inductive Frontier where
  /-- The node that has waited longest: breadth first. -/
  | oldestFirst
  /-- The node met last. -/
  | newestFirst
  deriving DecidableEq

/-- Makes a newly met node wait. -/
def Frontier.push (frontier : Frontier) (waiting : Waiting α) (x : α) : Waiting α :=
  match frontier with
  | .oldestFirst => waiting.pushBack x
  | .newestFirst => waiting.pushFront x

/-- A search under way. -/
structure Exploration (α : Type) [Ord α] where
  /-- The nodes met so far. -/
  found : Numbering α
  /-- The nodes met but not yet expanded. -/
  waiting : Waiting α

namespace Exploration

/-- Meets a node. -/
def meet (frontier : Frontier) (e : Exploration α) (x : α) : Exploration α :=
  if x ∈ e.found then e
  else { found := e.found.add x, waiting := frontier.push e.waiting x }

/-- The search that has met the starting nodes and nothing else. -/
def start (frontier : Frontier) (starts : List α) : Exploration α :=
  starts.foldl (meet frontier) { found := .empty, waiting := {} }

/-- Expands the next waiting node until nothing waits or the budget is spent. -/
def run (frontier : Frontier) (next : α → List α) : Nat → Exploration α → Exploration α
  | 0, e => e
  | budget + 1, e =>
    match e.waiting.pop? with
    | none => e
    | some (x, waiting) =>
      run frontier next budget ((next x).foldl (meet frontier) { e with waiting })

end Exploration

/-- The nodes that can be reached from `starts` along `next`, in the order of their first
    meeting; `budget` bounds the number of expansions. -/
def explore (frontier : Frontier) (next : α → List α) (budget : Nat) (starts : List α) :
    Numbering α :=
  (Exploration.run frontier next budget (Exploration.start frontier starts)).found

end RegularLanguages
