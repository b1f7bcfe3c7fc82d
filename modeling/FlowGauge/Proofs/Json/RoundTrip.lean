import FlowGauge.Analysis
import FlowGauge.Proofs.Json.Lawful

/-!
# What is written is read back

The JSON forms of code and of analyses are lawful. Code holds no index or count beyond its own word
types, so every program is read back; an analysis is read back when its indices and counts are
64-bit words (`JsonForm.roundTrip`).

A record is written as an object with one field for each of its fields, and the names have to be
distinct for the reading to find them. So each form comes with a law that names its fields once and
rests on the laws of their types. The forms that are not records are the data types and the
operands, which are read case by case, and the vocabularies, which are words.

Nothing is said about texts here: what is written is a tree, and laying out a tree as text and
reading it again is the concern of `Json.read?`.
-/

namespace FlowGauge

open InWords JsonForm

/-! ### Vocabularies -/

instance : LawfulVocabulary StorageHint where
  ofWord?_word m := by cases m <;> decide

instance : LawfulVocabulary VariableScope where
  ofWord?_word m := by cases m <;> decide

instance : LawfulVocabulary TemporaryScope where
  ofWord?_word m := by cases m <;> decide

instance : LawfulVocabulary Register where
  ofWord?_word m := by cases m <;> decide

instance : LawfulVocabulary Opcode where
  ofWord?_word m := by cases m <;> decide

instance : LawfulVocabulary AddressingMode where
  ofWord?_word m := by cases m <;> decide

instance : LawfulVocabulary StorageClass where
  ofWord?_word m := by cases m <;> decide

instance : LawfulVocabulary EdgeKind where
  ofWord?_word m := by cases m <;> decide

instance : LawfulVocabulary Severity where
  ofWord?_word m := by cases m <;> decide

instance : LawfulVocabulary IssueKind where
  ofWord?_word m := by cases m <;> decide

instance : LawfulVocabulary LoopKind where
  ofWord?_word m := by cases m <;> decide

instance : LawfulVocabulary UseRole where
  ofWord?_word m := by cases m <;> decide

instance : LawfulVocabulary Precision where
  ofWord?_word m := by cases m <;> decide

instance : LawfulVocabulary Trust where
  ofWord?_word m := by cases m <;> decide

/-!
### Code

Each record is a case of `JsonForm.kept_record`: its names are found distinct by computation, and
its fields are read back by the laws of their types.
-/

/-- A data type is read back, however deeply its arrays are nested. -/
theorem DataType.decode?_encode (t : DataType) : decode? t.encode = some t := by
  induction t with
  | array element length ih =>
    rw [encode, decode?]
    split
    · next found hfound =>
      -- The element is found under its name, and the hypothesis of the induction reads it.
      obtain rfl : element.encode = found := Option.some.inj hfound
      rw [ih]
      simp [Json.field?]
    · next hnone => cases hnone
  | _ => simp [encode, decode?, Json.bareChoice?, Json.choice?, scalar?]

instance : LawfulForm DataType where
  kept t _ := by
    refine ⟨t.decode?_encode, ?_⟩
    cases t <;> nofun

instance : LawfulForm Constant where
  kept _ _ := kept_record rfl (fun _ ↦ rfl) rfl (by decide) (by simp)

instance : LawfulForm Variable where
  kept _ _ := kept_record rfl (fun _ ↦ rfl) rfl (by decide) (by simp)

instance : LawfulForm Temporary where
  kept _ _ := kept_record rfl (fun _ ↦ rfl) rfl (by decide) (by simp)

instance : LawfulForm MemoryCell where
  kept _ _ := kept_record rfl (fun _ ↦ rfl) rfl (by decide) (by simp)

namespace Operand

/-- An operand is kept when its kind tells how to read its value. -/
theorem kept_tagged {α : Type} [JsonForm α] [InWords α] [LawfulForm α] {o : Operand}
    {kind : String} {make : α → Operand} {a : α}
    (hencode : JsonForm.encode o = tagged kind (encode a))
    (hdecode : ∀ value, ofTagged? kind value = (JsonForm.decode? value).map make)
    (ha : holds a) (hmake : make a = o) : Kept o where
  decode_encode := by
    rw [hencode]
    show ofTagged? kind (encode a) = _
    rw [hdecode, (LawfulForm.kept a ha).decode_encode, Option.map_some, hmake]
  encode_ne_null := by simp [hencode, tagged]

instance : LawfulForm Operand where
  kept o _ := by
    cases o with
    | constant c => exact kept_tagged rfl (fun _ ↦ rfl) trivial rfl
    | var v => exact kept_tagged rfl (fun _ ↦ rfl) trivial rfl
    | register r => exact kept_tagged rfl (fun _ ↦ rfl) trivial rfl
    | temporary t => exact kept_tagged rfl (fun _ ↦ rfl) trivial rfl
    | memory m => exact kept_tagged rfl (fun _ ↦ rfl) trivial rfl
    | label name => exact kept_tagged rfl (fun _ ↦ rfl) trivial rfl

end Operand

instance : LawfulForm SourceLocation where
  kept _ _ := kept_record rfl (fun _ ↦ rfl) rfl (by decide) (by simp)

instance : LawfulForm Hints where
  kept _ _ := kept_record rfl (fun _ ↦ rfl) rfl (by decide) (by simp)

instance : LawfulForm Instruction where
  kept _ _ := kept_record rfl (fun _ ↦ rfl) rfl (by decide) (by simp)

instance : LawfulForm Declaration where
  kept _ _ := kept_record rfl (fun _ ↦ rfl) rfl (by decide) (by simp)

instance : LawfulForm Parameter where
  kept _ _ := kept_record rfl (fun _ ↦ rfl) rfl (by decide) (by simp)

instance : LawfulForm Routine where
  kept _ _ := kept_record rfl (fun _ ↦ rfl) rfl (by decide) (by simp)

instance : LawfulForm CodeUnit where
  kept _ _ := kept_record rfl (fun _ ↦ rfl) rfl (by decide) (by simp)

instance : LawfulForm Program where
  kept _ _ := kept_record rfl (fun _ ↦ rfl) rfl (by decide) (by simp)

/-! ### Graphs -/

instance : InWords Edge :=
  ⟨fun e ↦ holds e.source ∧ holds e.target⟩

instance (e : Edge) : Decidable (holds e) :=
  inferInstanceAs (Decidable (holds e.source ∧ holds e.target))

instance : LawfulForm Edge where
  kept _ h := by
    obtain ⟨hsource, htarget⟩ := h
    exact kept_record rfl (fun _ ↦ rfl) rfl (by decide) (by simp [hsource, htarget])

instance : InWords Block :=
  ⟨fun b ↦ holds b.id ∧ holds b.start ∧ holds b.stop ∧ holds b.predecessors ∧
    holds b.successors⟩

instance (b : Block) : Decidable (holds b) :=
  inferInstanceAs (Decidable (holds b.id ∧ holds b.start ∧ holds b.stop ∧ holds b.predecessors ∧
    holds b.successors))

instance : LawfulForm Block where
  kept _ h := by
    obtain ⟨hid, hstart, hstop, hpredecessors, hsuccessors⟩ := h
    refine kept_record rfl (fun _ ↦ rfl) rfl (by decide) ?_
    simp [hid, hstart, hstop, hpredecessors, hsuccessors]

instance : InWords FlowGraph :=
  ⟨fun g ↦ holds g.blocks ∧ holds g.edges ∧ holds g.entry ∧ holds g.exits⟩

instance (g : FlowGraph) : Decidable (holds g) :=
  inferInstanceAs (Decidable (holds g.blocks ∧ holds g.edges ∧ holds g.entry ∧ holds g.exits))

instance : LawfulForm FlowGraph where
  kept _ h := by
    obtain ⟨hblocks, hedges, hentry, hexits⟩ := h
    refine kept_record rfl (fun _ ↦ rfl) rfl (by decide) ?_
    simp [hblocks, hedges, hentry, hexits]

instance : InWords Dominance :=
  ⟨fun d ↦ holds d.entry ∧ holds d.idom ∧ holds d.parent ∧ holds d.children ∧ holds d.depth ∧
    holds d.frontiers⟩

instance (d : Dominance) : Decidable (holds d) :=
  inferInstanceAs (Decidable (holds d.entry ∧ holds d.idom ∧ holds d.parent ∧ holds d.children ∧
    holds d.depth ∧ holds d.frontiers))

instance : LawfulForm Dominance where
  kept _ h := by
    obtain ⟨hentry, hidom, hparent, hchildren, hdepth, hfrontiers⟩ := h
    refine kept_record rfl (fun _ ↦ rfl) rfl (by decide) ?_
    simp [hentry, hidom, hparent, hchildren, hdepth, hfrontiers]

instance : LawfulForm LoopTraits where
  kept _ _ := kept_record rfl (fun _ ↦ rfl) rfl (by decide) (by simp)

instance : InWords Loop :=
  ⟨fun l ↦ holds l.id ∧ holds l.header ∧ holds l.backEdges ∧ holds l.latches ∧ holds l.body ∧
    holds l.exits ∧ holds l.preheader ∧ holds l.parent ∧ holds l.depth⟩

instance (l : Loop) : Decidable (holds l) :=
  inferInstanceAs (Decidable (holds l.id ∧ holds l.header ∧ holds l.backEdges ∧ holds l.latches ∧
    holds l.body ∧ holds l.exits ∧ holds l.preheader ∧ holds l.parent ∧ holds l.depth))

instance : LawfulForm Loop where
  kept _ h := by
    obtain ⟨hid, hheader, hedges, hlatches, hbody, hexits, hpreheader, hparent, hdepth⟩ := h
    refine kept_record rfl (fun _ ↦ rfl) rfl (by decide) ?_
    simp [hid, hheader, hedges, hlatches, hbody, hexits, hpreheader, hparent, hdepth]

/-! ### Data flow -/

instance : InWords Location :=
  ⟨fun l ↦ holds l.block ∧ holds l.index⟩

instance (l : Location) : Decidable (holds l) :=
  inferInstanceAs (Decidable (holds l.block ∧ holds l.index))

instance : LawfulForm Location where
  kept _ h := by
    obtain ⟨hblock, hindex⟩ := h
    exact kept_record rfl (fun _ ↦ rfl) rfl (by decide) (by simp [hblock, hindex])

instance : InWords UseDef :=
  ⟨fun u ↦ holds u.location ∧ holds u.definitions⟩

instance (u : UseDef) : Decidable (holds u) :=
  inferInstanceAs (Decidable (holds u.location ∧ holds u.definitions))

instance : LawfulForm UseDef where
  kept _ h := by
    obtain ⟨hlocation, hdefinitions⟩ := h
    exact kept_record rfl (fun _ ↦ rfl) rfl (by decide) (by simp [hlocation, hdefinitions])

instance : InWords DefUse :=
  ⟨fun d ↦ holds d.definition ∧ holds d.uses⟩

instance (d : DefUse) : Decidable (holds d) :=
  inferInstanceAs (Decidable (holds d.definition ∧ holds d.uses))

instance : LawfulForm DefUse where
  kept _ h := by
    obtain ⟨hdefinition, huses⟩ := h
    exact kept_record rfl (fun _ ↦ rfl) rfl (by decide) (by simp [hdefinition, huses])

instance : InWords Sites :=
  ⟨fun s ↦ holds s.definitions ∧ holds s.uses⟩

instance (s : Sites) : Decidable (holds s) :=
  inferInstanceAs (Decidable (holds s.definitions ∧ holds s.uses))

instance : LawfulForm Sites where
  kept _ h := by
    obtain ⟨hdefinitions, huses⟩ := h
    exact kept_record rfl (fun _ ↦ rfl) rfl (by decide) (by simp [hdefinitions, huses])

instance : LawfulForm BlockLiveness where
  kept _ _ := kept_record rfl (fun _ ↦ rfl) rfl (by decide) (by simp)

instance : InWords LiveRange :=
  ⟨fun r ↦ holds r.start ∧ holds r.stop⟩

instance (r : LiveRange) : Decidable (holds r) :=
  inferInstanceAs (Decidable (holds r.start ∧ holds r.stop))

instance : LawfulForm LiveRange where
  kept _ h := by
    obtain ⟨hstart, hstop⟩ := h
    exact kept_record rfl (fun _ ↦ rfl) rfl (by decide) (by simp [hstart, hstop])

instance : LawfulForm Conflict where
  kept c _ := by
    have hpair := LawfulForm.kept (c.low, c.high) ⟨trivial, trivial⟩
    refine ⟨?_, nofun⟩
    show (decode? (encode (c.low, c.high))).map (fun (low, high) ↦ Conflict.mk low high) = _
    rw [hpair.decode_encode]
    rfl

instance : LawfulForm InterferenceGraph where
  kept _ _ := kept_record rfl (fun _ ↦ rfl) rfl (by decide) (by simp)

instance : InWords DataFlow :=
  ⟨fun d ↦ holds d.defUse ∧ holds d.useDef ∧ holds d.sites ∧ holds d.blockLiveness ∧
    holds d.liveRanges ∧ holds d.maxLive⟩

instance (d : DataFlow) : Decidable (holds d) :=
  inferInstanceAs (Decidable (holds d.defUse ∧ holds d.useDef ∧ holds d.sites ∧
    holds d.blockLiveness ∧ holds d.liveRanges ∧ holds d.maxLive))

instance : LawfulForm DataFlow where
  kept _ h := by
    obtain ⟨hdefUse, huseDef, hsites, hliveness, hranges, hmaxLive⟩ := h
    refine kept_record rfl (fun _ ↦ rfl) rfl (by decide) ?_
    simp [hdefUse, huseDef, hsites, hliveness, hranges, hmaxLive]

/-! ### Analyses -/

instance : InWords Issue :=
  ⟨fun i ↦ holds i.block ∧ holds i.instruction⟩

instance (i : Issue) : Decidable (holds i) :=
  inferInstanceAs (Decidable (holds i.block ∧ holds i.instruction))

instance : LawfulForm Issue where
  kept _ h := by
    obtain ⟨hblock, hinstruction⟩ := h
    exact kept_record rfl (fun _ ↦ rfl) rfl (by decide) (by simp [hblock, hinstruction])

instance : InWords Figures :=
  ⟨fun f ↦ holds [f.instructionCount, f.blockCount, f.edgeCount, f.reachableBlockCount,
    f.loopCount, f.maxLoopDepth, f.cyclomatic, f.variableCount, f.interferenceEdges]⟩

instance (f : Figures) : Decidable (holds f) :=
  inferInstanceAs (Decidable (
    holds [f.instructionCount, f.blockCount, f.edgeCount, f.reachableBlockCount, f.loopCount,
      f.maxLoopDepth, f.cyclomatic, f.variableCount, f.interferenceEdges]))

instance : LawfulForm Figures where
  kept f h := by
    refine kept_record rfl (fun _ ↦ rfl) rfl (by decide) ?_
    simp [h f.instructionCount, h f.blockCount, h f.edgeCount, h f.reachableBlockCount,
      h f.loopCount, h f.maxLoopDepth, h f.cyclomatic, h f.variableCount, h f.interferenceEdges]

instance : InWords Analysis :=
  ⟨fun a ↦ holds a.graph ∧ holds a.dominance ∧ holds a.loops ∧ holds a.dataFlow ∧
    holds a.issues ∧ holds a.figures⟩

instance (a : Analysis) : Decidable (holds a) :=
  inferInstanceAs (Decidable (holds a.graph ∧ holds a.dominance ∧ holds a.loops ∧ holds a.dataFlow ∧
    holds a.issues ∧ holds a.figures))

instance : LawfulForm Analysis where
  kept _ h := by
    obtain ⟨hgraph, hdominance, hloops, hdataFlow, hissues, hfigures⟩ := h
    refine kept_record rfl (fun _ ↦ rfl) rfl (by decide) ?_
    simp [hgraph, hdominance, hloops, hdataFlow, hissues, hfigures]

/-- **What is written is read back**: every data type, operand, instruction, routine and program,
and every analysis whose indices and counts are 64-bit words, with its graph, dominance record,
loops, data-flow summary, issues and figures. -/
theorem JsonForm.roundTrip :
    (∀ t : DataType, decode? (encode t) = some t) ∧
    (∀ o : Operand, decode? (encode o) = some o) ∧
    (∀ i : Instruction, decode? (encode i) = some i) ∧
    (∀ r : Routine, decode? (encode r) = some r) ∧
    (∀ p : Program, decode? (encode p) = some p) ∧
    ∀ a : Analysis, InWords.holds a → decode? (encode a) = some a :=
  ⟨fun t ↦ (LawfulForm.kept t trivial).decode_encode,
    fun o ↦ (LawfulForm.kept o trivial).decode_encode,
    fun i ↦ (LawfulForm.kept i trivial).decode_encode,
    fun r ↦ (LawfulForm.kept r trivial).decode_encode,
    fun p ↦ (LawfulForm.kept p trivial).decode_encode,
    fun a h ↦ (LawfulForm.kept a h).decode_encode⟩

/-- A loop that counts down, with a call in it. -/
def countdown : Routine where
  name := "countdown"
  parameters := [⟨"x", .byte⟩]
  instructions := [⟨0, .label, [.label "top"], none, none, none⟩,
    ⟨1, .sub, [.localVar "x" .byte, .localVar "x" .byte, .ofByte 1], none, none, none⟩,
    ⟨2, .call, [.label "poll"], some (.temp 0), none, none⟩,
    ⟨3, .branchIfTrue, [.temp 0, .label "top"], none, none, none⟩,
    ⟨4, .ret, [.localVar "x" .byte], none, none, none⟩]

theorem JsonForm.roundTrip_countdown : decode? (encode countdown) = some countdown ∧
    ∃ a, Analysis.ofRoutine {} countdown = .ok a ∧ InWords.holds a ∧
      a.loops.length = 1 ∧ decode? (encode a) = some a := by
  obtain ⟨-, -, -, hroutine, -, hanalysis⟩ := JsonForm.roundTrip
  have hwords : InWords.holds (Analysis.run {} countdown) := by decide +kernel
  exact ⟨hroutine countdown, _, rfl, hwords, by decide +kernel, hanalysis _ hwords⟩

end FlowGauge
