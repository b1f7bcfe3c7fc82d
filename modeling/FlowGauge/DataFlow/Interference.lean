import FlowGauge.Json.Ordered

/-!
# Interference graphs

Two variables that hold needed values at the same time interfere and cannot share a register. The
graph is undirected: a conflict is stored once, its smaller name first, and no variable conflicts
with itself.
-/

namespace FlowGauge

/-- A conflict between two variables. -/
structure Conflict where
  low : String
  high : String
deriving DecidableEq, Repr

namespace Conflict

instance : Ord Conflict :=
  ⟨compareLex (compareOn low) (compareOn high)⟩

instance : Std.TransOrd Conflict :=
  inferInstanceAs (Std.TransCmp (compareLex (compareOn low) (compareOn high)))

instance : Std.LawfulEqOrd Conflict where
  eq_of_compare {a b} h := by
    have h' : compareLex (compareOn low) (compareOn high) a b = .eq := h
    rw [compareLex_eq_eq] at h'
    cases a
    cases b
    simp_all [compareOn]

/-- The conflict of two names, in whichever order they are given. -/
def of (a b : String) : Conflict :=
  if a < b then ⟨a, b⟩ else ⟨b, a⟩

/-- The other name of a conflict that involves the given one. -/
def partner? (c : Conflict) (name : String) : Option String :=
  if c.low = name then some c.high else if c.high = name then some c.low else none

instance : JsonForm Conflict where
  encode c := JsonForm.encode (c.low, c.high)
  decode? j := (JsonForm.decode? j).map fun (low, high) ↦ ⟨low, high⟩

end Conflict

/-- The conflicts among the variables of a routine. -/
structure InterferenceGraph where
  /-- All variables, in conflict or not. -/
  nodes : NameSet := ∅
  /-- The conflicts. -/
  edges : Std.ExtTreeSet Conflict := ∅
deriving DecidableEq

namespace InterferenceGraph

/-- Add a variable. -/
def addNode (g : InterferenceGraph) (name : String) : InterferenceGraph :=
  { g with nodes := g.nodes.insert name }

/-- Add a conflict between two variables. A variable in conflict with itself is ignored. -/
def addEdge (g : InterferenceGraph) (a b : String) : InterferenceGraph :=
  if a = b then g
  else { nodes := (g.nodes.insert a).insert b, edges := g.edges.insert (.of a b) }

/-- Whether two variables are in conflict. -/
def interferes (g : InterferenceGraph) (a b : String) : Bool :=
  g.edges.contains (.of a b)

/-- The variables in conflict with a variable. -/
def neighbours (g : InterferenceGraph) (name : String) : NameSet :=
  .ofList (g.edges.toList.filterMap (·.partner? name))

/-- The number of conflicts of every variable. -/
def degrees (g : InterferenceGraph) : Std.ExtTreeMap String Nat :=
  let ends := g.edges.toList.flatMap fun c ↦ [c.low, c.high]
  tabulate (g.nodes.toList ++ ends) fun name ↦ ends.count name

/-- The greatest number of conflicts of a variable. -/
def maxDegree (g : InterferenceGraph) : Nat :=
  g.degrees.values.foldl max 0

/-- The number of conflicts. -/
def edgeCount (g : InterferenceGraph) : Nat :=
  g.edges.size

instance : JsonForm InterferenceGraph where
  encode g := .obj [("nodes", JsonForm.encode g.nodes), ("edges", JsonForm.encode g.edges)]
  decode? j := do
    let [nodes, edges] ← j.record? ["nodes", "edges"] | none
    return ⟨← JsonForm.required nodes, ← JsonForm.required edges⟩

end InterferenceGraph

end FlowGauge
