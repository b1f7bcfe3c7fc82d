import FlowGauge.Flow.Dot
import FlowGauge.Proofs.Checked
import Mathlib.Algebra.Ring.Parity
import Mathlib.Data.List.DropRight

/-!
# Names cannot break a drawing

A drawing puts texts of the routine between quotes. All that is written there is made of single
characters and of pairs that begin with a backslash (`Escaped`): escaping writes such a text, the
separators between instructions are such pairs, and texts of this form can be joined. What follows
holds of the form alone. It has no line break, it never ends the quotation that it stands in
(`Escaped.foldl_step`), and every quote in it stands behind an odd number of backslashes.

## Reading a drawing

`Reader` reads a drawing as the DOT language does: a quotation ends at the first quote that no
backslash takes away. A drawing is one line for every block and every edge between eight fixed ones,
and the reader finds the written labels in it and nothing else (`dot_unbreakable`).

The proof goes line by line. A `Line` ends with its only line feed, and a reader that enters it
outside of quotations leaves it outside, with the values that are listed for it. Both properties
pass from lines to the lines joined, so nothing depends on how many blocks and edges there are.
Names of blocks, numbers, colours and styles are `Plain`, with nothing in them to escape; the names
of a routine and the texts of its instructions are the only parts that have to be escaped.

## When there is no drawing

Instructions are numbered on from the start of their block, and an assembled block may start
anywhere. Where an index leaves the range of 64-bit words there is no drawing but a fault
(`dot_eq_error`). That is the only way to get none.
-/

namespace FlowGauge

namespace Dot

variable {text text' : List Char} {c d : Char}

/-! ### Escaped texts -/

/-- A text of single characters that are neither quote nor backslash and of pairs that begin with a
backslash, without line breaks. -/
inductive Escaped : List Char → Prop
  | nil : Escaped []
  | single {c : Char} {text : List Char} : c ≠ '"' → c ≠ '\\' → c ≠ '\n' → c ≠ '\r' →
      Escaped text → Escaped (c :: text)
  | pair {c : Char} {text : List Char} : c ≠ '\n' → c ≠ '\r' → Escaped text →
      Escaped ('\\' :: c :: text)

/-- What the second character of a pair stands for. -/
def meant (c : Char) : Char :=
  if c = 'n' then '\n' else c

/-- An escaped text with its pairs undone. -/
def unescape : List Char → List Char
  | '\\' :: c :: text => meant c :: unescape text
  | c :: text => c :: unescape text
  | [] => []

/-- **A character is dropped, escaped by a pair that stands for it, or kept.** -/
theorem escapeChar_cases (c : Char) : (c = '\r' ∧ escapeChar c = []) ∨
    (c ≠ '\r' ∧ ∃ d, escapeChar c = ['\\', d] ∧ meant d = c ∧ d ≠ '\n' ∧ d ≠ '\r') ∨
    (escapeChar c = [c] ∧ c ≠ '"' ∧ c ≠ '\\' ∧ c ≠ '\n' ∧ c ≠ '\r') := by
  unfold escapeChar
  split
  · exact .inr (.inl ⟨by decide, _, rfl, by decide⟩)
  · exact .inr (.inl ⟨by decide, _, rfl, by decide⟩)
  · exact .inr (.inl ⟨by decide, _, rfl, by decide⟩)
  · exact .inl ⟨rfl, rfl⟩
  · exact .inr (.inl ⟨by decide, _, rfl, by decide⟩)
  · exact .inr (.inl ⟨by decide, _, rfl, by decide⟩)
  · next hbackslash hquote hfeed hreturn _ _ =>
    exact .inr (.inr ⟨rfl, hquote, hbackslash, hfeed, hreturn⟩)

theorem unescape_pair (c : Char) (text : List Char) :
    unescape ('\\' :: c :: text) = meant c :: unescape text := by
  rw [unescape]

/-- Anything but a backslash stands for itself. -/
theorem unescape_single (h : c ≠ '\\') (text : List Char) :
    unescape (c :: text) = c :: unescape text := by
  rw [unescape]
  exact fun d rest hc ↦ absurd hc h

/-- Escaping works character by character, so that no character looks at its neighbours. -/
theorem toList_escape (s : String) : (escape s).toList = s.toList.flatMap escapeChar :=
  String.toList_ofList

/-- **Escaping is undone**, but for the carriage returns that it drops. -/
theorem unescape_flatMap (cs : List Char) :
    unescape (cs.flatMap escapeChar) = cs.filter (· ≠ '\r') := by
  induction cs with
  | nil => rfl
  | cons c cs ih =>
    rw [List.flatMap_cons]
    obtain ⟨rfl, hnil⟩ | ⟨hc, d, hpair, rfl, -⟩ | ⟨hsingle, -, hbackslash, -, hreturn⟩ :=
      escapeChar_cases c
    · rw [hnil, List.nil_append, ih, List.filter_cons_of_neg (by decide)]
    · rw [hpair, List.filter_cons_of_pos (by simpa using hc), ← ih]
      exact unescape_pair d _
    · rw [hsingle, List.filter_cons_of_pos (by simpa using hreturn), ← ih]
      exact unescape_single hbackslash _

/-- Escaped texts can be joined: no pair is left open at the end of one. -/
theorem Escaped.append (h : Escaped text) (h' : Escaped text') : Escaped (text ++ text') := by
  induction h with
  | nil => exact h'
  | single hquote hbackslash hfeed hreturn _ ih =>
    exact .single hquote hbackslash hfeed hreturn ih
  | pair hfeed hreturn _ ih => exact .pair hfeed hreturn ih

/-- Whatever a text holds, escaping it makes an escaped text. -/
theorem escape_escaped (s : String) : Escaped (escape s).toList := by
  rw [toList_escape]
  induction s.toList with
  | nil => exact .nil
  | cons c cs ih =>
    rw [List.flatMap_cons]
    obtain ⟨-, hnil⟩ | ⟨-, d, hpair, -, hfeed, hreturn⟩ |
      ⟨hsingle, hquote, hbackslash, hfeed, hreturn⟩ := escapeChar_cases c
    · rw [hnil]
      exact ih
    · rw [hpair]
      exact .pair hfeed hreturn ih
    · rw [hsingle]
      exact .single hquote hbackslash hfeed hreturn ih

/-- A text without quotes, backslashes and line breaks. -/
def Plain (text : List Char) : Prop :=
  ∀ c ∈ text, c ≠ '"' ∧ c ≠ '\\' ∧ c ≠ '\n' ∧ c ≠ '\r'

instance (text : List Char) : Decidable (Plain text) :=
  List.decidableBAll (fun c ↦ c ≠ '"' ∧ c ≠ '\\' ∧ c ≠ '\n' ∧ c ≠ '\r') text

theorem Plain.append (h : Plain text) (h' : Plain text') : Plain (text ++ text') :=
  List.forall_mem_append.2 ⟨h, h'⟩

/-- Where nothing needs to be escaped, nothing has to be. -/
theorem Plain.escaped (h : Plain text) : Escaped text := by
  induction text with
  | nil => exact .nil
  | cons c text ih =>
    obtain ⟨⟨hquote, hbackslash, hfeed, hreturn⟩, hrest⟩ := List.forall_mem_cons.1 h
    exact .single hquote hbackslash hfeed hreturn (ih hrest)

/-- A text without line breaks. -/
def Unbroken (text : List Char) : Prop :=
  ∀ c ∈ text, c ≠ '\n' ∧ c ≠ '\r'

theorem Plain.unbroken (h : Plain text) : Unbroken text :=
  fun c hc ↦ (h c hc).2.2

/-- Not even the second character of a pair is a line break, so a quoted text stays on its line. -/
theorem Escaped.unbroken (h : Escaped text) : Unbroken text := by
  induction h with
  | nil => exact fun c hc ↦ absurd hc List.not_mem_nil
  | single _ _ hfeed hreturn _ ih => exact List.forall_mem_cons.2 ⟨⟨hfeed, hreturn⟩, ih⟩
  | pair hfeed hreturn _ ih =>
    exact List.forall_mem_cons.2 ⟨by decide, List.forall_mem_cons.2 ⟨⟨hfeed, hreturn⟩, ih⟩⟩

/-! ### Backslashes in front of a quote -/

/-- The number of backslashes at the end of a text. -/
def backslashes (text : List Char) : Nat :=
  (text.rtakeWhile (· = '\\')).length

/-- The backslashes are counted along the text; any other character starts again from zero. -/
def countBackslash (n : Nat) (c : Char) : Nat :=
  if c = '\\' then n + 1 else 0

/-- Counting along the text yields the backslashes at its end. The count can be followed from the
front, where the pairs are. -/
theorem backslashes_eq_foldl (text : List Char) :
    backslashes text = text.foldl countBackslash 0 := by
  induction text using List.reverseRecOn with
  | nil => rfl
  | append_singleton text c ih =>
    rw [List.foldl_append, ← ih, List.foldl_cons, List.foldl_nil, countBackslash, backslashes]
    split
    · next hc =>
      rw [List.rtakeWhile_concat_pos _ _ _ (by simpa using hc), List.length_append]
      rfl
    · next hc =>
      rw [List.rtakeWhile_concat_neg _ _ _ (by simpa using hc)]
      rfl

/-- **A quote in an escaped text is the second of a pair**, and an even number of backslashes stands
before the pair. -/
theorem Escaped.odd_foldl (h : Escaped text) : ∀ {n : Nat}, Even n → ∀ {before after : List Char},
    text = before ++ '"' :: after → Odd (before.foldl countBackslash n) := by
  induction h with
  | nil => exact fun _ _ _ heq ↦ absurd heq (by simp)
  | @single c text hquote hbackslash _ _ _ ih =>
    intro n _ before after heq
    rcases before with - | ⟨c', before⟩
    · exact absurd (List.head_eq_of_cons_eq heq) hquote
    · obtain ⟨rfl, hrest⟩ := List.cons_eq_cons.1 heq
      rw [List.foldl_cons, countBackslash, if_neg hbackslash]
      exact ih Even.zero hrest
  | @pair c text _ _ _ ih =>
    intro n hn before after heq
    rcases before with - | ⟨c₁, - | ⟨c₂, before⟩⟩
    · exact absurd (List.head_eq_of_cons_eq heq) (by decide)
    · obtain ⟨rfl, -⟩ := List.cons_eq_cons.1 heq
      rw [List.foldl_cons, List.foldl_nil, countBackslash, if_pos rfl]
      exact hn.add_one
    · obtain ⟨rfl, hpair⟩ := List.cons_eq_cons.1 heq
      obtain ⟨-, hrest⟩ := List.cons_eq_cons.1 hpair
      rw [List.foldl_cons, List.foldl_cons]
      refine ih ?_ hrest
      rw [countBackslash, countBackslash, if_pos rfl]
      split
      · exact hn.add_one.add_one
      · exact Even.zero

/-- Every quote in an escaped text has an odd number of backslashes in front. -/
theorem Escaped.odd_backslashes (h : Escaped text) {before after : List Char}
    (heq : text = before ++ '"' :: after) : Odd (backslashes before) := by
  rw [backslashes_eq_foldl]
  exact h.odd_foldl Even.zero heq

/-- What escaping makes of a text. -/
structure EscapedWell (s : String) : Prop where
  unbroken : Unbroken (escape s).toList
  odd_backslashes : ∀ before after, (escape s).toList = before ++ '"' :: after →
    Odd (backslashes before)
  unescape_eq : unescape (escape s).toList = s.toList.filter (· ≠ '\r')

/-- Any text is escaped well, line breaks, quotes and trailing backslashes included. -/
theorem escapedWell (s : String) : EscapedWell s where
  unbroken := (escape_escaped s).unbroken
  odd_backslashes _ _ := (escape_escaped s).odd_backslashes
  unescape_eq := by rw [toList_escape, unescape_flatMap]

/-! ### Reading quotations -/

/-- Where a reader stands, with the values it has read and the text of the open quotation. -/
inductive Reader where
  | outside (values : List (List Char))
  | inside (values : List (List Char)) (text : List Char)
  /-- Behind a backslash, which takes its meaning from the next character. -/
  | behindBackslash (values : List (List Char)) (text : List Char)
deriving DecidableEq, Repr

/-- Read one character. -/
def Reader.step : Reader → Char → Reader
  | outside values, c => if c = '"' then inside values [] else outside values
  | inside values text, c =>
    if c = '"' then outside (values ++ [text])
    else if c = '\\' then behindBackslash values (text ++ [c])
    else inside values (text ++ [c])
  | behindBackslash values text, c => inside values (text ++ [c])

/-- What a reader makes of a text. -/
def readText (text : String) : Reader :=
  text.toList.foldl Reader.step (.outside [])

/-- Outside of quotations, a reader finds the given values in the text and is outside again. -/
def Reads (text : List Char) (values : List (List Char)) : Prop :=
  ∀ before, text.foldl Reader.step (.outside before) = .outside (before ++ values)

/-- A reader that is outside again after one text goes on with the next. -/
theorem Reads.append {values values' : List (List Char)} (h : Reads text values)
    (h' : Reads text' values') : Reads (text ++ text') (values ++ values') := by
  intro before
  rw [List.foldl_append, h, h', List.append_assoc]

/-- Without quotes there is nothing to read. -/
theorem reads_of_forall_ne (h : ∀ c ∈ text, c ≠ '"') : Reads text [] := by
  intro before
  rw [List.append_nil]
  induction text with
  | nil => rfl
  | cons c text ih =>
    obtain ⟨hc, hrest⟩ := List.forall_mem_cons.1 h
    rw [List.foldl_cons, Reader.step, if_neg hc]
    exact ih hrest

/-- **An escaped text never ends the quotation it stands in.** -/
theorem Escaped.foldl_step (h : Escaped text) (values : List (List Char)) (read : List Char) :
    text.foldl Reader.step (.inside values read) = .inside values (read ++ text) := by
  induction h generalizing read with
  | nil => rw [List.append_nil, List.foldl_nil]
  | single hquote hbackslash _ _ _ ih =>
    rw [List.foldl_cons, Reader.step, if_neg hquote, if_neg hbackslash, ih, List.append_assoc]
    rfl
  | pair _ _ _ ih =>
    rw [List.foldl_cons, List.foldl_cons, Reader.step, if_neg (by decide), if_pos rfl, Reader.step,
      ih, List.append_assoc, List.append_assoc]
    rfl

/-- A quoted text that is escaped is read as one value, and the reader is outside again. -/
theorem Escaped.reads (h : Escaped text) : Reads ('"' :: (text ++ ['"'])) [text] := by
  intro before
  rw [List.foldl_cons, Reader.step, if_pos rfl, List.foldl_append, h.foldl_step, List.nil_append,
    List.foldl_cons, Reader.step, if_pos rfl, List.foldl_nil]

/-! ### Lines -/

theorem toList_feed : "\n".toList = ['\n'] :=
  String.toList_ofList

theorem toList_quote : "\"".toList = ['"'] :=
  String.toList_ofList

/-- A literal is written out before its characters are looked at. -/
theorem plain_ofList (h : Plain text) : Plain (String.ofList text).toList := by
  rwa [String.toList_ofList]

/-- Strings without anything to escape can be joined, too. -/
theorem plain_append {s t : String} (hs : Plain s.toList) (ht : Plain t.toList) :
    Plain (s ++ t).toList := by
  rw [String.toList_append]
  exact hs.append ht

/-- One line with its end, in which a reader finds the given values. -/
structure Line (text : String) (values : List (List Char)) : Prop where
  exists_unbroken : ∃ line, text.toList = line ++ ['\n'] ∧ Unbroken line
  reads : Reads text.toList values

/-- A line without quotation. -/
theorem line_of_plain {s : String} (line : String) (hs : s = line ++ "\n")
    (hplain : Plain line.toList) : Line s [] := by
  have htoList : s.toList = line.toList ++ ['\n'] := by rw [hs, String.toList_append, toList_feed]
  refine ⟨⟨_, htoList, hplain.unbroken⟩, reads_of_forall_ne ?_⟩
  rw [htoList, List.forall_mem_append, List.forall_mem_singleton]
  exact ⟨fun c hc ↦ (hplain c hc).1, by decide⟩

/-- **A line with one quotation.** -/
theorem line_of_quotation {s : String} (front label back : String)
    (hs : s = front ++ "\"" ++ label ++ "\"" ++ back ++ "\n") (hfront : Plain front.toList)
    (hlabel : Escaped label.toList) (hback : Plain back.toList) : Line s [label.toList] := by
  have htoList : s.toList =
      front.toList ++ '"' :: (label.toList ++ ['"']) ++ (back.toList ++ ['\n']) := by
    rw [hs]
    simp only [String.toList_append, toList_feed, toList_quote, List.append_assoc, List.cons_append,
      List.nil_append]
  constructor
  · refine ⟨front.toList ++ '"' :: (label.toList ++ ['"']) ++ back.toList, ?_, ?_⟩
    · rw [htoList, List.append_assoc _ back.toList]
    · rw [Unbroken, List.forall_mem_append, List.forall_mem_append, List.forall_mem_cons,
        List.forall_mem_append, List.forall_mem_singleton]
      exact ⟨⟨hfront.unbroken, by decide, hlabel.unbroken, by decide⟩, hback.unbroken⟩
  · have hstarts : Reads front.toList [] := reads_of_forall_ne fun c hc ↦ (hfront c hc).1
    have hends : Reads (back.toList ++ ['\n']) [] := reads_of_forall_ne (List.forall_mem_append.2
      ⟨fun c hc ↦ (hback c hc).1, List.forall_mem_singleton.2 (by decide)⟩)
    rw [htoList]
    exact (hstarts.append hlabel.reads).append hends

/-- Lines written one after another. -/
theorem reads_of_lines {lines : List (String × List (List Char))}
    (h : ∀ p ∈ lines, Line p.1 p.2) :
    Reads (lines.flatMap (·.1.toList)) (lines.flatMap Prod.snd) := by
  induction lines with
  | nil => exact fun before ↦ by simp
  | cons p lines ih =>
    obtain ⟨hp, hrest⟩ := List.forall_mem_cons.1 h
    exact hp.reads.append (ih hrest)

/-- There is one line feed for each line: none comes from a label. -/
theorem count_of_lines {lines : List (String × List (List Char))}
    (h : ∀ p ∈ lines, Line p.1 p.2) :
    (lines.flatMap (·.1.toList)).count '\n' = lines.length := by
  induction lines with
  | nil => rfl
  | cons p lines ih =>
    obtain ⟨hp, hrest⟩ := List.forall_mem_cons.1 h
    obtain ⟨line, hline, hunbroken⟩ := hp.exists_unbroken
    have hnone : line.count '\n' = 0 := List.count_eq_zero.2 fun hmem ↦ (hunbroken _ hmem).1 rfl
    rw [List.flatMap_cons, List.count_append, ih hrest, hline, List.count_append, hnone,
      List.length_cons]
    simp [Nat.add_comm]

theorem plain_of_isDigit (h : ∀ c ∈ text, c.isDigit = true) : Plain text := by
  intro c hc
  have hdigit := h c hc
  refine ⟨?_, ?_, ?_, ?_⟩ <;> (rintro rfl; exact absurd hdigit (by decide))

/-- A number is written in digits. -/
theorem plain_toString (n : Nat) : Plain (toString n).toList := by
  refine plain_of_isDigit fun c hc ↦ ?_
  rw [Nat.toString_eq_repr, Nat.toList_repr] at hc
  exact Nat.isDigit_of_mem_toDigits (by decide) (by decide) hc

/-- A block is named by a letter and its number. -/
theorem plain_blockText (b : BlockId) : Plain b.text.toList :=
  plain_append (plain_ofList (by decide)) (plain_toString b)

/-- The index of an instruction is digits with zeros in front. -/
theorem plain_threeDigits (n : Nat) : Plain (threeDigits n).toList := by
  refine plain_append (plain_ofList fun c hc ↦ ?_) (plain_toString n)
  rw [(List.mem_replicate.1 hc).2]
  decide

theorem plain_colour (kind : EdgeKind) : Plain (colour kind).toList := by
  cases kind <;> exact plain_ofList (by decide)

theorem plain_word (kind : EdgeKind) : Plain (Vocabulary.word kind).toList := by
  cases kind <;> exact plain_ofList (by decide)

end Dot

namespace FlowGraph

open Dot

variable {g : FlowGraph}

/-- The style of a block is one of a few fixed texts, whatever the block holds. -/
theorem plain_dotStyle (b : Block) : Plain (g.dotStyle b).toList := by
  refine plain_append ?_ ?_
  · split
    · exact plain_ofList (by decide)
    · split <;> exact plain_ofList (by decide)
  · split <;> exact plain_ofList (by decide)

/-- **A label is an escaped text**, whatever the instructions in it name: the name of the block, its
roles, and then index by index a number, an escaped text and a break. -/
theorem dotLabel_escaped (b : Block) (code : List (Nat × Instruction)) :
    Escaped (g.dotLabel b code).toList := by
  have hrole : ∀ (p : Prop) [Decidable p] {role : List Char}, Plain role →
      Escaped (if p then String.ofList role else "").toList := by
    intro p _ role hrole
    split
    · exact (plain_ofList hrole).escaped
    · exact (plain_ofList (by decide)).escaped
  have hend : Escaped "\\l".toList := by
    rw [show "\\l".toList = ['\\', 'l'] from String.toList_ofList]
    exact .pair (by decide) (by decide) .nil
  simp only [dotLabel, String.toList_append, String.toList_join]
  refine ((((plain_blockText b.id).escaped.append (hrole _ (by decide))).append
    (hrole _ (by decide))).append hend).append ?_
  rw [List.flatMap_map]
  induction code with
  | nil => exact .nil
  | cons p rest ih =>
    rw [List.flatMap_cons]
    refine Escaped.append ?_ ih
    simp only [String.toList_append]
    exact (((plain_threeDigits p.1).escaped.append (plain_ofList (by decide)).escaped).append
      (escape_escaped p.2.text)).append hend

/-- The one value that a reader finds in the line of a block is the label. -/
theorem line_dotLine (b : Block) (code : List (Nat × Instruction)) :
    Line (g.dotLine b code) [(g.dotLabel b code).toList] := by
  have hopen : " [label=\"" = " [label=" ++ "\"" := by simp
  have hclose : "];\n" = "];" ++ "\n" := by simp
  refine line_of_quotation ("    " ++ b.id.text ++ " [label=") _ (g.dotStyle b ++ "];") ?_ ?_
    (dotLabel_escaped b code) ?_
  · delta dotLine
    simp only [hopen, hclose, String.append_assoc]
  · exact plain_append (plain_append (plain_ofList (by decide)) (plain_blockText b.id))
      (plain_ofList (by decide))
  · exact plain_append (plain_dotStyle b) (plain_ofList (by decide))

/-- The one value in the line of an edge is the word for its kind. -/
theorem line_dotEdge (e : Edge) : Line (dotEdge e) [(Vocabulary.word e.kind).toList] := by
  have hopen : " [label=\"" = " [label=" ++ "\"" := by simp
  have hcolour : "\", color=" = "\"" ++ ", color=" := by simp
  have hclose : "];\n" = "];" ++ "\n" := by simp
  refine line_of_quotation ("    " ++ e.source.text ++ " -> " ++ e.target.text ++ " [label=") _
    (", color=" ++ colour e.kind ++ "];") ?_ ?_ (plain_word e.kind).escaped ?_
  · delta dotEdge
    simp only [hopen, hcolour, hclose, String.append_assoc]
  · exact plain_append (plain_append (plain_append (plain_append (plain_ofList (by decide))
      (plain_blockText e.source)) (plain_ofList (by decide))) (plain_blockText e.target))
      (plain_ofList (by decide))
  · exact plain_append (plain_append (plain_ofList (by decide)) (plain_colour e.kind))
      (plain_ofList (by decide))

/-- The lines of a drawing, each with the values quoted in it. -/
def dotLines (g : FlowGraph) : List (String × List (List Char)) :=
  [("digraph CFG \x7b\n", []),
    ("    label=\"CFG: " ++ escape g.routineName ++ "\";\n",
      [("CFG: " ++ escape g.routineName).toList]),
    ("    labelloc=t;\n", []),
    ("    node [shape=box, fontname=\"Courier\", fontsize=10];\n", ["Courier".toList]),
    ("    edge [fontname=\"Courier\", fontsize=9];\n", ["Courier".toList]),
    ("\n", [])] ++
  g.blocks.map (fun b ↦ (g.dotLine b b.indexed, [(g.dotLabel b b.indexed).toList])) ++
  [("\n", [])] ++
  g.edges.map (fun e ↦ (dotEdge e, [(Vocabulary.word e.kind).toList])) ++
  [("\x7d\n", [])]

/-- Every line that is listed for a drawing is one, and a reader finds in it the values listed with
it. -/
theorem line_of_mem_dotLines {p : String × List (List Char)} (h : p ∈ g.dotLines) :
    Line p.1 p.2 := by
  have hblank : Line "\n" [] := line_of_plain "" (by simp) (plain_ofList (by decide))
  have hname : Escaped ("CFG: " ++ escape g.routineName).toList := by
    rw [String.toList_append]
    exact (plain_ofList (by decide)).escaped.append (escape_escaped g.routineName)
  have hcourier : Escaped "Courier".toList := (plain_ofList (by decide)).escaped
  simp only [dotLines, List.mem_append, List.mem_cons, List.not_mem_nil, or_false,
    List.mem_map] at h
  rcases h with (((h | ⟨b, -, rfl⟩) | rfl) | ⟨e, -, rfl⟩) | rfl
  · rcases h with rfl | rfl | rfl | rfl | rfl | rfl
    · exact line_of_plain "digraph CFG \x7b" (by simp) (plain_ofList (by decide))
    · have hopen : "    label=\"CFG: " = "    label=" ++ "\"" ++ "CFG: " := by simp
      have hclose : "\";\n" = "\"" ++ ";" ++ "\n" := by simp
      refine line_of_quotation "    label=" _ ";" ?_ (plain_ofList (by decide)) hname
        (plain_ofList (by decide))
      simp only [hopen, hclose, String.append_assoc]
    · exact line_of_plain "    labelloc=t;" (by simp) (plain_ofList (by decide))
    · exact line_of_quotation "    node [shape=box, fontname=" _ ", fontsize=10];" (by simp)
        (plain_ofList (by decide)) hcourier (plain_ofList (by decide))
    · exact line_of_quotation "    edge [fontname=" _ ", fontsize=9];" (by simp)
        (plain_ofList (by decide)) hcourier (plain_ofList (by decide))
    · exact hblank
  · exact line_dotLine b b.indexed
  · exact hblank
  · exact line_dotEdge e
  · exact line_of_plain "\x7d" (by simp) (plain_ofList (by decide))

/-! ### Drawings -/

/-- The indices at which the instructions of the blocks are drawn are 64-bit words. -/
def IndicesFit (g : FlowGraph) : Prop :=
  ∀ b ∈ g.blocks, ∀ offset < b.code.length, b.start + offset < Word.bound 64

instance : Decidable g.IndicesFit :=
  inferInstanceAs (Decidable (∀ b ∈ g.blocks, ∀ offset < b.code.length,
    b.start + offset < Word.bound 64))

/-- The instructions of a block are drawn with their indices when these are words. -/
theorem numbered_eq_ok {b : Block}
    (h : ∀ offset < b.code.length, b.start + offset < Word.bound 64) :
    b.numbered = .ok b.indexed := by
  refine Checked.mapM_eq_ok fun (i, offset) hmem ↦ ?_
  obtain ⟨hoffset, -⟩ := List.getElem?_eq_some_iff.1 (List.mem_zipIdx_iff_getElem?.1 hmem)
  show (Checked.add64 b.start offset >>= fun index ↦ pure (index, i)) = _
  rw [Checked.add64_eq_ok_iff.2 ⟨rfl, h offset hoffset⟩]
  rfl

/-- Nothing else can be drawn. -/
theorem lt_of_numbered_eq_ok {b : Block} {code : List (Nat × Instruction)}
    (h : b.numbered = .ok code) : ∀ offset < b.code.length, b.start + offset < Word.bound 64 := by
  intro offset hoffset
  obtain ⟨row, hstep⟩ := Checked.exists_ok_of_mapM h (b.code.get ⟨offset, hoffset⟩, offset)
    (List.mem_zipIdx_iff_getElem?.2 (List.getElem?_eq_getElem hoffset))
  obtain ⟨index, hindex, -⟩ := Checked.bind_eq_ok_iff.1 hstep
  obtain ⟨rfl, hlt⟩ := Checked.add64_eq_ok_iff.1 hindex
  exact hlt

/-- What stops the numbering of a block is a sum. -/
theorem eq_add_of_numbered_eq_error {b : Block} {e : Fault} (h : b.numbered = .error e) :
    e = .add := by
  obtain ⟨⟨i, offset⟩, -, hstep⟩ := Checked.exists_error_of_mapM h
  have hsum : (Checked.add64 b.start offset >>= fun index ↦ pure (index, i)) = .error e := hstep
  rw [Checked.add64] at hsum
  split at hsum
  · cases hsum
  · cases hsum
    rfl

/-- **A drawing consists of its lines, one after the other.** -/
theorem dot_eq_join (h : g.IndicesFit) : g.dot = .ok (String.join (g.dotLines.map Prod.fst)) := by
  -- the line and the blank line behind it are written as one literal
  have hsplit : ∀ literal line : String, literal = line ++ "\n" → ∀ front blocks edges : String,
      front ++ literal ++ blocks ++ "\n" ++ edges ++ "\x7d\n" =
        front ++ line ++ "\n" ++ blocks ++ "\n" ++ edges ++ "\x7d\n" := by
    intro _ line h front blocks edges
    simp only [h, String.append_assoc]
  have hblocks : g.blocks.mapM g.dotBlock = .ok (g.blocks.map fun b ↦ g.dotLine b b.indexed) := by
    refine Checked.mapM_eq_ok fun b hb ↦ ?_
    rw [dotBlock, numbered_eq_ok (h b hb)]
    rfl
  rw [dot, hblocks]
  refine congrArg Except.ok ?_
  refine (hsplit _ "    edge [fontname=\"Courier\", fontsize=9];\n" (by simp) _ _ _).trans ?_
  simp only [dotLines, List.map_append, List.map_cons, List.map_nil, List.map_map,
    String.join_append, String.join_cons, String.join_nil, String.append_assoc, String.append_empty]
  rfl

/-- **An index that is no word stops the drawing.** -/
theorem dot_eq_error (h : ¬g.IndicesFit) : g.dot = .error .add := by
  rw [dot]
  cases hblocks : g.blocks.mapM g.dotBlock with
  | ok lines =>
    refine absurd (fun b hb ↦ ?_) h
    obtain ⟨line, hline⟩ := Checked.exists_ok_of_mapM hblocks b hb
    obtain ⟨code, hcode, -⟩ := Checked.bind_eq_ok_iff.1 hline
    exact lt_of_numbered_eq_ok hcode
  | error e =>
    obtain ⟨b, -, hline⟩ := Checked.exists_error_of_mapM hblocks
    rw [dotBlock] at hline
    cases hcode : b.numbered with
    | ok code =>
      rw [hcode] at hline
      cases hline
    | error e' =>
      rw [hcode] at hline
      cases hline
      rw [eq_add_of_numbered_eq_error hcode]
      rfl

/-- A text that holds what the drawing of a graph is meant to hold. -/
structure DrawnWell (g : FlowGraph) (text : String) : Prop where
  /-- The drawing consists of its lines. -/
  eq_join : text = String.join (g.dotLines.map Prod.fst)
  /-- Every line ends with its only line break, and a reader finds the values in it that were
  written. -/
  lines : ∀ p ∈ g.dotLines, Line p.1 p.2
  /-- There is one line for every block and every edge, and there are eight more. -/
  count_eq : text.toList.count '\n' = g.blocks.length + g.edges.length + 8
  no_return : '\r' ∉ text.toList
  /-- All quotations are closed, and they are those of the lines. -/
  read_eq : readText text = .outside (g.dotLines.flatMap Prod.snd)

/-- The joined lines are a drawing, whatever the indices in them are. -/
theorem drawnWell_join (g : FlowGraph) : g.DrawnWell (String.join (g.dotLines.map Prod.fst)) := by
  have htoList : (String.join (g.dotLines.map Prod.fst)).toList =
      g.dotLines.flatMap (·.1.toList) := by
    rw [String.toList_join, List.flatMap_map]
  refine ⟨rfl, fun p hp ↦ line_of_mem_dotLines hp, ?_, fun hmem ↦ ?_, ?_⟩
  · rw [htoList, count_of_lines fun p hp ↦ line_of_mem_dotLines hp, dotLines]
    simp only [List.length_append, List.length_cons, List.length_nil, List.length_map]
    omega
  · rw [htoList] at hmem
    obtain ⟨p, hp, hmem⟩ := List.mem_flatMap.1 hmem
    obtain ⟨line, hline, hunbroken⟩ := (line_of_mem_dotLines hp).exists_unbroken
    rw [hline, List.mem_append] at hmem
    exact hmem.elim (fun hmem ↦ (hunbroken _ hmem).2 rfl) (by decide)
  · rw [readText, htoList]
    exact reads_of_lines (fun p hp ↦ line_of_mem_dotLines hp) []

/-- **Names cannot break a drawing.** An escaped text has no line break, its quotes stand behind an
odd number of backslashes, and the text is found again, without its carriage returns; so texts
without carriage returns are told apart. Whatever texts a graph holds, its drawing has one line for
every block and every edge between eight fixed ones, and every quotation is closed where the drawing
closes it. There is a drawing unless a block starts so late that the index of one of its
instructions is no 64-bit word. -/
theorem dot_unbreakable : (∀ s, EscapedWell s) ∧
    Set.InjOn escape {s | '\r' ∉ s.toList} ∧
    ∀ g : FlowGraph, (g.IndicesFit → ∃ text, g.dot = .ok text ∧ g.DrawnWell text) ∧
      (¬g.IndicesFit → g.dot = .error .add) := by
  refine ⟨escapedWell, fun s hs t ht heq ↦ ?_,
    fun g ↦ ⟨fun h ↦ ⟨_, dot_eq_join h, drawnWell_join g⟩, dot_eq_error⟩⟩
  have hkept : ∀ u : String, '\r' ∉ u.toList → u.toList.filter (· ≠ '\r') = u.toList := by
    intro u hu
    rw [List.filter_eq_self]
    exact fun c hc ↦ decide_eq_true fun hcr ↦ hu (hcr ▸ hc)
  rw [← String.toList_inj, ← hkept s hs, ← hkept t ht, ← (escapedWell s).unescape_eq,
    ← (escapedWell t).unescape_eq, heq]

/-- A routine with a backslash at the end of its name, and with a quote and a line break in a label.
-/
def oddNames : Routine where
  name := "odd\\"
  instructions := [⟨0, .label, [.label "a\"\nb"], none, none, none⟩,
    ⟨1, .branch, [.label "a\"\nb"], none, none, none⟩]

/-- A block that starts at the last index that is a word, with an instruction behind it. -/
def lastIndex : FlowGraph where
  routineName := "late"
  blocks := [{
    id := 0
    start := Word.bound 64 - 1
    stop := Word.bound 64 - 1
    code := [⟨0, .nop, [], none, none, none⟩, ⟨1, .ret, [], none, none, none⟩] }]
  edges := []
  entry := some 0
  exits := .ofList [0]

theorem dot_unbreakable_oddNames :
    (∃ text, (ofRoutine oddNames).dot = .ok text ∧ (ofRoutine oddNames).DrawnWell text ∧
      text.toList.count '\n' = 10) ∧ lastIndex.dot = .error .add := by
  obtain ⟨-, -, hdrawings⟩ := dot_unbreakable
  obtain ⟨text, htext, hwell⟩ := (hdrawings (ofRoutine oddNames)).1 (by decide +kernel)
  refine ⟨⟨text, htext, hwell, ?_⟩, (hdrawings lastIndex).2 fun hfit ↦ ?_⟩
  · rw [hwell.count_eq]
    decide +kernel
  · exact absurd (hfit _ List.mem_cons_self 1 (by decide)) (by decide)

end FlowGraph

end FlowGauge
