import FlowGauge.Flow.Graph

/-!
# Drawings of flow graphs

`FlowGraph.dot` draws a graph in the DOT language: one line per block, one per edge. Texts that come
from the routine stand inside quoted labels and are escaped, so no name can end a label or a line.
Instructions are drawn with their indices in the routine. A block that is assembled by hand may
start so late that an index leaves its word, and then there is no drawing.
-/

namespace FlowGauge

namespace Dot

/-- The escaped form of one character. A carriage return is dropped. -/
def escapeChar (c : Char) : List Char :=
  match c with
  | '\\' => ['\\', '\\']
  | '"' => ['\\', '"']
  | '\n' => ['\\', 'n']
  | '\r' => []
  | '<' => ['\\', '<']
  | '>' => ['\\', '>']
  | c => [c]

/-- A text made fit to stand inside a quoted label. -/
def escape (s : String) : String :=
  String.ofList (s.toList.flatMap escapeChar)

/-- A number with at least three digits. -/
def threeDigits (n : Nat) : String :=
  let digits := toString n
  String.ofList (List.replicate (3 - digits.length) '0') ++ digits

/-- The colour of an edge. -/
def colour : EdgeKind → String
  | .unconditional => "black"
  | .conditionalTrue => "green"
  | .conditionalFalse => "red"
  | .fallThrough => "gray40"
  | .callContinuation => "blue"

end Dot

namespace FlowGraph

/-- The label of a block: its name, its roles and its instructions with their indices. -/
def dotLabel (g : FlowGraph) (b : Block) (code : List (Nat × Instruction)) : String :=
  b.id.text ++ (if g.entry = some b.id then " (entry)" else "") ++
    (if g.exits.contains b.id then " (exit)" else "") ++ "\\l" ++
    String.join (code.map fun (index, i) ↦
      Dot.threeDigits index ++ ": " ++ Dot.escape i.text ++ "\\l")

/-- The look of a block. The entry is green, exits are red, loop headers have a double border. -/
def dotStyle (g : FlowGraph) (b : Block) : String :=
  (if g.entry = some b.id then ", style=filled, fillcolor=lightgreen"
    else if g.exits.contains b.id then ", style=filled, fillcolor=lightcoral"
    else "") ++
    (if b.isLoopHeader then ", peripheries=2" else "")

/-- The line of a block with some instructions. -/
def dotLine (g : FlowGraph) (b : Block) (code : List (Nat × Instruction)) : String :=
  "    " ++ b.id.text ++ " [label=\"" ++ g.dotLabel b code ++ "\"" ++ g.dotStyle b ++ "];\n"

/-- The line of a block. -/
def dotBlock (g : FlowGraph) (b : Block) : Checked String := do
  return g.dotLine b (← b.numbered)

/-- The line of an edge. -/
def dotEdge (e : Edge) : String :=
  "    " ++ e.source.text ++ " -> " ++ e.target.text ++ " [label=\"" ++ Vocabulary.word e.kind ++
    "\", color=" ++ Dot.colour e.kind ++ "];\n"

/-- The drawing of a graph. -/
def dot (g : FlowGraph) : Checked String := do
  let blocks ← g.blocks.mapM g.dotBlock
  return "digraph CFG \x7b\n" ++
    "    label=\"CFG: " ++ Dot.escape g.routineName ++ "\";\n" ++
    "    labelloc=t;\n" ++
    "    node [shape=box, fontname=\"Courier\", fontsize=10];\n" ++
    "    edge [fontname=\"Courier\", fontsize=9];\n\n" ++
    String.join blocks ++ "\n" ++
    String.join (g.edges.map dotEdge) ++
    "\x7d\n"

end FlowGraph

end FlowGauge
