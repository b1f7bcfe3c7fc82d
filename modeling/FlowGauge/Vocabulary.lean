/-!
# Closed vocabularies

Every closed choice of the library (an opcode, a severity, an addressing mode, …) is an inductive
type whose members are written as one fixed word each. `Vocabulary` records the members in
declaration order together with their words, and `Vocabulary.ofWord?` reads a word back. Reading is
exact; `Vocabulary.ofWordIgnoringCase?` is the reading that ignores the case of ASCII letters.

Readers of a word rest on two facts per vocabulary only: every member is listed, and no two members
share a word.
-/

namespace FlowGauge

/-- A finite choice whose members each have one written word. -/
class Vocabulary (α : Type) where
  /-- The members in declaration order. -/
  all : List α
  /-- The written form of a member. -/
  word : α → String

namespace Vocabulary

variable {α : Type} [Vocabulary α]

/-- The first member written exactly as `s`. -/
def ofWord? (s : String) : Option α :=
  (all : List α).find? fun a ↦ word a == s

/-- The text with its ASCII capitals made small. -/
def lowerAscii (s : String) : String :=
  String.ofList (s.toList.map Char.toLower)

/-- The first member written as `s` up to the case of ASCII letters. -/
def ofWordIgnoringCase? (s : String) : Option α :=
  (all : List α).find? fun a ↦ lowerAscii (word a) == lowerAscii s

/-- The position of a member in declaration order. -/
def position (a : α) : Nat :=
  (all : List α).findIdx fun b ↦ word b == word a

end Vocabulary

end FlowGauge
