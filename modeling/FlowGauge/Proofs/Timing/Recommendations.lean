import FlowGauge.Proofs.Sorting
import FlowGauge.Proofs.Timing.Promotions
import Mathlib.Order.WithBot

/-!
# Recommendations are distinct and totally ordered

Six generators make the recommendations for a routine, each of them those of one kind (`generated`).
Four look at the instructions one by one and are told apart by the index; the promotions into page
zero are told apart by the variable; and the loops to unroll have different headers, whose blocks
start at different instructions. So no two recommendations agree in kind, instruction and variable
(`nodup_found`). The list is sorted by a key that holds these three, hence without a tie, and the
order in which the generators run does not show in it (`Exact`).

## One generator, one statement

What a generator finds is said in one form for those that look at single instructions (`Yields`): it
answers at an index exactly when the instruction has a property, and the answer carries the index
and the kind. The properties are stated of instructions and variants alone, without the generator,
so that other ways of finding the same instructions can be compared with them.
-/

namespace FlowGauge

open OrderDual
open scoped List

namespace Recommendation

/-- What a recommendation is about: its kind, its instruction and its variable. -/
def tag (x : Recommendation) : RecommendationKind × Option Nat × Option String :=
  (x.kind, x.instruction, x.variableName)

/-- Descending priority, instruction, kind, variable. -/
def key (x : Recommendation) : ℕᵒᵈ ×ₗ ℕ ×ₗ ℕ ×ₗ WithBot String :=
  toLex (toDual x.priority, toLex (x.instruction.getD (Word.bound 64),
    toLex (Vocabulary.position x.kind, x.variableName.elim ⊥ (↑))))

end Recommendation

namespace Instruction

/-- The instruction multiplies, divides or takes the remainder by a literal third operand that is a
power of two and at least two. -/
def ScalesByPower (i : Instruction) : Prop :=
  (i.opcode = .mul ∨ i.opcode = .div ∨ i.opcode = .mod) ∧
    ∃ d, i.operands[2]? = some (.constant d) ∧ d.isPowerOfTwo = true ∧ 2 ≤ d.value.toInt

/-- The instruction adds or subtracts a literal third operand that is one. -/
def StepsByOne (i : Instruction) : Prop :=
  (i.opcode = .add ∨ i.opcode = .sub) ∧
    ∃ d, i.operands[2]? = some (.constant d) ∧ d.value.toInt = 1

/-- The instruction stores a literal second operand that is zero in a variable. -/
def StoresZero (i : Instruction) : Prop :=
  i.opcode = .storeVariable ∧ ∃ d, i.operands[1]? = some (.constant d) ∧ d.value.toInt = 0

end Instruction

namespace Recommendations

open Recommendation TimingContext

/-! ### The order of the list -/

/-- A missing name comes before all others, as the least element of an order would. -/
theorem nameOrder_eq (s t : Option String) : nameOrder s t =
    compare (s.elim (⊥ : WithBot String) (↑)) (t.elim (⊥ : WithBot String) (↑)) := by
  cases s with
  | none =>
    cases t with
    | none => exact (compare_eq_iff_eq.2 rfl).symm
    | some t => exact (compare_lt_iff_lt.2 (WithBot.bot_lt_coe t)).symm
  | some s =>
    cases t with
    | none => exact (compare_gt_iff_gt.2 (WithBot.bot_lt_coe s)).symm
    | some t =>
      show compare s t = compare (s : WithBot String) (t : WithBot String)
      rcases lt_trichotomy s t with h | h | h
      · rw [compare_lt_iff_lt.2 h, compare_lt_iff_lt.2 (WithBot.coe_lt_coe.2 h)]
      · rw [compare_eq_iff_eq.2 h, compare_eq_iff_eq.2 (congrArg _ h)]
      · rw [compare_gt_iff_gt.2 h, compare_gt_iff_gt.2 (WithBot.coe_lt_coe.2 h)]

/-- The order compares one key, in which kind, instruction and variable are put together. -/
theorem order_keyOrder : KeyOrder order key := by
  intro x y
  rw [order, nameOrder_eq, Ordering.then_assoc, Ordering.then_assoc]
  rfl

/-! ### Single instructions -/

variable {v : Variant} {index depth : Nat} {i : Instruction} {x : Recommendation}

/-- The recommendation that may be found at an index is of one kind and names the index, and it is
found exactly under the condition. -/
structure Yields (found : Option Recommendation) (index : Nat) (kind : RecommendationKind)
    (condition : Prop) : Prop where
  isSome_iff : found.isSome = true ↔ condition
  about : ∀ x, found = some x → x.kind = kind ∧ x.instruction = some index

theorem constant?_eq_some_iff {o : Operand} {d : Constant} :
    o.constant? = some d ↔ o = .constant d := by
  cases o <;> simp [Operand.constant?]

theorem bind_constant?_eq_some_iff {o : Option Operand} {d : Constant} :
    o.bind Operand.constant? = some d ↔ o = some (.constant d) := by
  simp only [Option.bind_eq_some_iff, constant?_eq_some_iff, exists_eq_right]

theorem literal?_eq_some_iff {position : Nat} {n : Int} : literal? i position = some n ↔
    ∃ d, i.operands[position]? = some (.constant d) ∧ d.value.toInt = n := by
  simp only [literal?, Option.map_eq_some_iff, bind_constant?_eq_some_iff]

/-- No recommendation is made under a condition that fails. -/
theorem Yields.of_not {condition : Prop} {kind : RecommendationKind} (h : ¬condition) :
    Yields none index kind condition :=
  ⟨iff_of_false (by simp) h, fun _ hx ↦ absurd hx (by simp)⟩

/-- A recommendation that is made under a condition that can be checked. -/
theorem Yields.ite {check : Bool} {condition : Prop} {kind : RecommendationKind}
    (hcheck : check = true ↔ condition) (hkind : x.kind = kind)
    (hindex : x.instruction = some index) :
    Yields (if check then some x else none) index kind condition := by
  rw [← hcheck]
  split
  · next h => exact ⟨iff_of_true rfl h, fun y hy ↦ Option.some.inj hy ▸ ⟨hkind, hindex⟩⟩
  · next h => exact .of_not h

/-- A factor of one is a power of two, and there is nothing to gain from it. -/
theorem unscalable_iff {d : Constant} :
    (!d.isPowerOfTwo || decide (d.value.toInt < 2)) = true ↔
      ¬(d.isPowerOfTwo = true ∧ 2 ≤ d.value.toInt) := by
  rw [Bool.or_eq_true, Bool.not_eq_true', decide_eq_true_eq, not_and_or, Bool.not_eq_true, not_le]

/-- A scaling is found exactly at the instructions that scale by a power of two. -/
theorem strengthReduction?_yields (v : Variant) (index depth : Nat) (i : Instruction) :
    Yields (strengthReduction? v index depth i) index .strengthReduction i.ScalesByPower := by
  have hinverse : ∀ x, strengthReduction? v index depth i = some x →
      i.ScalesByPower ∧ x.kind = .strengthReduction ∧ x.instruction = some index := by
    intro x hx
    rw [strengthReduction?] at hx
    obtain ⟨d, hd, hx⟩ := Option.bind_eq_some_iff.1 hx
    dsimp only at hx
    split at hx
    · cases hx
    · next hvalue =>
      have hpower := not_not.1 (mt unscalable_iff.2 hvalue)
      have hscales (hopcode : i.opcode = .mul ∨ i.opcode = .div ∨ i.opcode = .mod) :
          i.ScalesByPower := ⟨hopcode, d, bind_constant?_eq_some_iff.1 hd, hpower⟩
      split at hx
      · next hopcode => cases hx; exact ⟨hscales (.inl hopcode), rfl, rfl⟩
      · next hopcode => cases hx; exact ⟨hscales (.inr (.inl hopcode)), rfl, rfl⟩
      · next hopcode => cases hx; exact ⟨hscales (.inr (.inr hopcode)), rfl, rfl⟩
      · cases hx
  constructor
  · refine ⟨fun h ↦ (hinverse _ (Option.some_get h).symm).1, ?_⟩
    rintro ⟨hopcode, d, hd, hpower, hvalue⟩
    rw [strengthReduction?, bind_constant?_eq_some_iff.2 hd]
    show Option.isSome (ite ..) = true
    rw [if_neg fun h ↦ unscalable_iff.1 h ⟨hpower, hvalue⟩]
    rcases hopcode with h | h | h
    all_goals rw [h]; rfl
  · exact fun x hx ↦ (hinverse x hx).2

/-- A step by one is found exactly at the instructions that add or subtract one. -/
theorem increment?_yields (index depth : Nat) (i : Instruction) :
    Yields (increment? index depth i) index .incrementDecrement i.StepsByOne :=
  .ite (by simp [Instruction.StepsByOne, literal?_eq_some_iff]) rfl rfl

/-- A store of zero is found where the variant has an instruction for it. -/
theorem storeZero?_yields (v : Variant) (index depth : Nat) (i : Instruction) :
    Yields (storeZero? v index depth i) index .storeZero
      (.storeZero ∈ v.features ∧ i.StoresZero) :=
  .ite (by simp [Instruction.StoresZero, literal?_eq_some_iff, and_assoc]) rfl rfl

/-- A jump is found where the variant has a branch that is always taken. -/
theorem branchAlways?_yields (v : Variant) (index depth : Nat) (i : Instruction) :
    Yields (branchAlways? v index depth i) index .branchAlways
      (.branchAlways ∈ v.features ∧ i.opcode = .branch) :=
  .ite (by simp) rfl rfl

/-- The generator of a kind that looks at single instructions; two kinds have none. -/
def suggest? (v : Variant) : RecommendationKind → Nat → Nat → Instruction → Option Recommendation
  | .strengthReduction => strengthReduction? v
  | .incrementDecrement => increment?
  | .storeZero => storeZero? v
  | .branchAlways => branchAlways? v
  | .zeroPagePromotion | .loopUnrolling => fun _ _ _ ↦ none

/-- The instructions that a recommendation of a kind is made for. -/
def Suits (v : Variant) (i : Instruction) : RecommendationKind → Prop
  | .strengthReduction => i.ScalesByPower
  | .incrementDecrement => i.StepsByOne
  | .storeZero => .storeZero ∈ v.features ∧ i.StoresZero
  | .branchAlways => .branchAlways ∈ v.features ∧ i.opcode = .branch
  | .zeroPagePromotion | .loopUnrolling => False

/-- **A recommendation is made for the instructions that suit its kind, and names their index.** -/
theorem suggest?_yields (v : Variant) (kind : RecommendationKind) (index depth : Nat)
    (i : Instruction) : Yields (suggest? v kind index depth i) index kind (Suits v i kind) := by
  cases kind with
  | strengthReduction => exact strengthReduction?_yields v index depth i
  | incrementDecrement => exact increment?_yields index depth i
  | storeZero => exact storeZero?_yields v index depth i
  | branchAlways => exact branchAlways?_yields v index depth i
  | zeroPagePromotion | loopUnrolling => exact .of_not id

/-! ### Generators -/

variable {c : TimingContext} {kind : RecommendationKind} {r : Routine} {a : Analysis}

/-- The recommendations of a kind that are made for single instructions. -/
def suggestions (c : TimingContext) (kind : RecommendationKind) : List Recommendation :=
  c.rows.filterMap fun (index, i, depth, _) ↦ suggest? c.variant kind index depth i

/-- What each of the six generators finds. -/
def generated (c : TimingContext) : RecommendationKind → List Recommendation
  | .zeroPagePromotion => promotions c
  | .loopUnrolling => c.analysis.loops.filterMap (unrolling? c)
  | kind => suggestions c kind

/-- All that is found, in the order in which it is found. -/
def found (c : TimingContext) : List Recommendation :=
  c.rows.flatMap (fun (index, i, depth, _) ↦ forInstruction c.variant index depth i) ++
    promotions c ++ c.analysis.loops.filterMap (unrolling? c)

/-- **All that is found is what the generators find**, but for the order. -/
theorem found_perm (c : TimingContext) :
    found c ~ (Vocabulary.all : List RecommendationKind).flatMap (generated c) := by
  have hrows : c.rows.flatMap
      (fun (index, i, depth, _) ↦ forInstruction c.variant index depth i) ~
        suggestions c .strengthReduction ++ suggestions c .incrementDecrement ++
          suggestions c .storeZero ++ suggestions c .branchAlways := by
    simp only [suggestions, List.filterMap_eq_flatMap_toList]
    exact ((((List.flatMap_append_perm ..).append_right _).append_right _).trans
      (((List.flatMap_append_perm ..).append_right _).trans (List.flatMap_append_perm ..))).symm
  refine ((hrows.append_right _).append_right _).trans (List.perm_iff_count.2 fun x ↦ ?_)
  show _ = List.count x (suggestions c .strengthReduction ++ (suggestions c .incrementDecrement ++
    (promotions c ++ (suggestions c .storeZero ++ (suggestions c .branchAlways ++
      (c.analysis.loops.filterMap (unrolling? c) ++ []))))))
  simp only [List.count_append, List.count_nil]
  omega

/-- Different rows are of different instructions. -/
theorem rows_pairwise (r : Routine) (a : Analysis) (hardware : Hardware) :
    (fitting r a hardware).rows.Pairwise fun x y ↦ x.1 ≠ y.1 := by
  rw [rows_fitting_eq]
  exact List.pairwise_map.2 (List.pairwise_map.1 (List.nodup_zipIdx_map_snd _))

/-- An instruction has one recommendation of a kind at most. -/
theorem suggestions_pairwise (r : Routine) (a : Analysis) (hardware : Hardware)
    (kind : RecommendationKind) : (suggestions (fitting r a hardware) kind).Pairwise
      fun x y ↦ x.instruction ≠ y.instruction := by
  refine List.pairwise_filterMap.2 ((rows_pairwise r a hardware).imp ?_)
  rintro ⟨index, i, depth, cycles⟩ ⟨index', i', depth', cycles'⟩ hne x hx y hy heq
  have hindex := ((suggest?_yields ..).about x hx).2
  have hindex' := ((suggest?_yields ..).about y hy).2
  exact hne (Option.some.inj (hindex.symm.trans (heq.trans hindex')))

/-- A loop is unrolled where its header starts. -/
theorem unrolling?_eq_some {l : Loop} (h : unrolling? c l = some x) : x.kind = .loopUnrolling ∧
    ∃ header, c.analysis.graph.blocks[l.header]? = some header ∧
      x.instruction = some header.start := by
  rw [unrolling?] at h
  dsimp only at h
  split at h
  · obtain ⟨header, hheader, h⟩ := Option.bind_eq_some_iff.1 h
    cases h
    exact ⟨rfl, header, hheader, rfl⟩
  · cases h

/-- **No two loops start at the same instruction**: their headers differ, and so do the leaders. -/
theorem unrolling_pairwise (h : a.graph.Pictures r) (hheaders : (a.loops.map Loop.header).Nodup)
    (hardware : Hardware) :
    (a.loops.filterMap (unrolling? (fitting r a hardware))).Pairwise
      fun x y ↦ x.instruction ≠ y.instruction := by
  refine List.pairwise_filterMap.2 ((List.pairwise_map.1 hheaders).imp ?_)
  intro l m hne x hx y hy heq
  obtain ⟨-, b, hb, hstart⟩ := unrolling?_eq_some hx
  obtain ⟨-, b', hb', hstart'⟩ := unrolling?_eq_some hy
  have hleader := (h.cut _ b hb).leader
  have hleader' := (h.cut _ b' hb').leader
  rw [← Option.some.inj (hstart.symm.trans (heq.trans hstart'))] at hleader'
  exact hne (Routine.leader_position_inj hleader hleader')

/-- **Each generator makes recommendations of its own kind**, which name an instruction. -/
theorem about_of_mem_generated (hx : x ∈ generated c kind) :
    x.kind = kind ∧ x.instruction.isSome = true := by
  cases kind with
  | zeroPagePromotion =>
    obtain ⟨name, hname⟩ := mem_promotions_iff.1 hx
    obtain ⟨first, rest, -, rfl⟩ := promotionOf?_eq_some_iff.1 hname
    exact ⟨rfl, rfl⟩
  | loopUnrolling =>
    obtain ⟨l, -, hl⟩ := List.mem_filterMap.1 hx
    obtain ⟨hkind, header, -, hstart⟩ := unrolling?_eq_some hl
    exact ⟨hkind, hstart ▸ rfl⟩
  | strengthReduction | incrementDecrement | storeZero | branchAlways =>
    obtain ⟨row, -, hrow⟩ := List.mem_filterMap.1 hx
    obtain ⟨hkind, hindex⟩ := (suggest?_yields ..).about x hrow
    exact ⟨hkind, hindex ▸ rfl⟩

/-- **No generator makes a recommendation twice.** -/
theorem nodup_generated (h : a.graph.Pictures r) (hheaders : (a.loops.map Loop.header).Nodup)
    (hardware : Hardware) (kind : RecommendationKind) :
    ((generated (fitting r a hardware) kind).map tag).Nodup := by
  refine List.pairwise_map.2 ?_
  cases kind with
  | zeroPagePromotion =>
    exact (promotions_pairwise _).imp fun hne heq ↦ hne (congrArg (·.2.2) heq)
  | loopUnrolling =>
    exact (unrolling_pairwise h hheaders hardware).imp fun hne heq ↦ hne (congrArg (·.2.1) heq)
  | strengthReduction | incrementDecrement | storeZero | branchAlways =>
    exact (suggestions_pairwise ..).imp fun hne heq ↦ hne (congrArg (·.2.1) heq)

/-- **No recommendation is made twice**: those of different generators differ in their kind. -/
theorem nodup_found (h : a.graph.Pictures r) (hheaders : (a.loops.map Loop.header).Nodup)
    (hardware : Hardware) :
    ((found (fitting r a hardware)).map tag).Nodup := by
  refine ((found_perm _).map tag).nodup_iff.2 (List.pairwise_map.2 (List.pairwise_flatMap.2
    ⟨fun kind _ ↦ List.pairwise_map.1 (nodup_generated h hheaders hardware kind), ?_⟩))
  have hkinds : (Vocabulary.all : List RecommendationKind).Nodup := by decide
  refine hkinds.imp fun {kind kind'} hne x hx y hy heq ↦ hne ?_
  rw [← (about_of_mem_generated hx).1, ← (about_of_mem_generated hy).1]
  exact congrArg Prod.fst heq

/-! ### Keys -/

/-- Kinds are told apart by their places. -/
theorem position_inj {kind kind' : RecommendationKind}
    (h : Vocabulary.position kind = Vocabulary.position kind') : kind = kind' := by
  cases kind <;> cases kind' <;> first | rfl | exact absurd h (by decide)

theorem elim_inj {s t : Option String}
    (h : s.elim (⊥ : WithBot String) (↑) = t.elim (⊥ : WithBot String) (↑)) : s = t := by
  cases s <;> cases t <;> simp_all

/-- The key tells apart what the tag tells apart, when there is an instruction. -/
theorem tag_eq_of_key_eq {y : Recommendation} (hx : x.instruction.isSome = true)
    (hy : y.instruction.isSome = true) (h : key x = key y) : tag x = tag y := by
  obtain ⟨i, hi⟩ := Option.isSome_iff_exists.1 hx
  obtain ⟨j, hj⟩ := Option.isSome_iff_exists.1 hy
  obtain ⟨-, hinstruction, hkind, hname⟩ : _ ∧ x.instruction.getD _ = y.instruction.getD _ ∧
      Vocabulary.position x.kind = Vocabulary.position y.kind ∧ _ := by
    simpa only [key, toLex_inj, Prod.mk.injEq] using h
  rw [hi, hj, Option.getD_some, Option.getD_some] at hinstruction
  rw [tag, tag, position_inj hkind, hi, hj, hinstruction, elim_inj hname]

/-- **No two recommendations have one key**, so the sorted list is determined. -/
theorem nodup_keys_found (h : a.graph.Pictures r) (hheaders : (a.loops.map Loop.header).Nodup)
    (hardware : Hardware) :
    ((found (fitting r a hardware)).map key).Nodup := by
  have habout : ∀ x ∈ found (fitting r a hardware), x.instruction.isSome = true := fun x hx ↦ by
    obtain ⟨kind, -, hkind⟩ := List.mem_flatMap.1 ((found_perm _).mem_iff.1 hx)
    exact (about_of_mem_generated hkind).2
  refine List.pairwise_map.2 (List.Pairwise.imp_of_mem ?_
    (List.pairwise_map.1 (nodup_found h hheaders hardware)))
  exact fun hx hy hne heq ↦ hne (tag_eq_of_key_eq (habout _ hx) (habout _ hy) heq)

/-! ### The list -/

/-- Sorting keeps the recommendations. -/
theorem recommendations_perm (c : TimingContext) : (analyze c).recommendations ~ found c :=
  List.mergeSort_perm ..

/-- **A generator makes the recommendations of its kind that are listed.** -/
theorem mem_generated_iff :
    x ∈ generated c kind ↔ x ∈ (analyze c).recommendations ∧ x.kind = kind := by
  rw [(recommendations_perm c).mem_iff, (found_perm c).mem_iff, List.mem_flatMap]
  constructor
  · have hall : ∀ kind : RecommendationKind, kind ∈ Vocabulary.all := by rintro ⟨⟩ <;> decide
    exact fun hx ↦ ⟨⟨kind, hall kind, hx⟩, (about_of_mem_generated hx).1⟩
  · rintro ⟨⟨kind', -, hx⟩, rfl⟩
    rwa [(about_of_mem_generated hx).1]

/-- **The generators for instructions find something when an instruction suits them.** -/
theorem exists_mem_suggestions_iff (h : a.graph.Pictures r) (hardware : Hardware) :
    (∃ x, x ∈ suggestions (fitting r a hardware) kind) ↔
      ∃ i ∈ r.instructions, Suits hardware.variant i kind := by
  rw [suggestions, rows_fitting h, List.filterMap_map]
  constructor
  · intro ⟨x, hx⟩
    obtain ⟨⟨i, index⟩, hi, hfound⟩ := List.mem_filterMap.1 hx
    exact ⟨i, List.mem_of_getElem? (List.mem_zipIdx_iff_getElem?.1 hi),
      (suggest?_yields ..).isSome_iff.1 (Option.isSome_of_eq_some hfound)⟩
  · intro ⟨i, hi, hsuits⟩
    obtain ⟨index, hindex⟩ := List.mem_iff_getElem?.1 hi
    obtain ⟨x, hx⟩ := Option.isSome_iff_exists.1
      ((suggest?_yields _ _ index (a.instructionDepth index) i).isSome_iff.2 hsuits)
    exact ⟨x, List.mem_filterMap.2 ⟨(i, index), List.mem_zipIdx_iff_getElem?.2 hindex, hx⟩⟩

/-- **A promotion is found when some variable has a place.** -/
theorem exists_mem_promotions_iff (h : a.graph.Pictures r) (hardware : Hardware) :
    (∃ x, x ∈ promotions (fitting r a hardware)) ↔ ∃ name, (occurrences r a name).Nonempty := by
  simp only [mem_promotions_iff, ← (promotionOf?_fitting h hardware _).1,
    Option.isSome_iff_exists]
  exact exists_comm

/-- What holds of the recommendations for a routine with its analysis. -/
structure Exact (r : Routine) (a : Analysis) (v : Variant) (c : TimingContext)
    (s : Recommendations) : Prop where
  /-- No two agree in kind, instruction and variable. -/
  nodup_tags : (s.recommendations.map tag).Nodup
  instruction_isSome : ∀ x ∈ s.recommendations, x.instruction.isSome = true
  ascending : s.recommendations.Pairwise fun x y ↦ key x < key y
  /-- The generators may run in any order, and their findings may be mixed. -/
  sort_eq : ∀ xs : List Recommendation,
    xs ~ (Vocabulary.all : List RecommendationKind).flatMap (generated c) →
      (xs.mergeSort fun x y ↦ (order x y).isLE) = s.recommendations
  promoted_iff : ∀ name, (occurrences r a name).Nonempty ↔
    ∃ x ∈ s.recommendations, x.kind = .zeroPagePromotion ∧ x.variableName = some name
  promoted_benefit : ∀ x ∈ s.recommendations, x.kind = .zeroPagePromotion →
    ∃ name, x.variableName = some name ∧ x.cycleBenefit = (occurrences r a name).ncard
  storeZero_mem : ∀ x ∈ s.recommendations, x.kind = .storeZero → .storeZero ∈ v.features
  branchAlways_mem : ∀ x ∈ s.recommendations, x.kind = .branchAlways →
    .branchAlways ∈ v.features
  totalCycleBenefit_eq : s.totalCycleBenefit =
    (s.recommendations.map Recommendation.cycleBenefit).sum
  totalByteBenefit_eq : s.totalByteBenefit = (s.recommendations.map Recommendation.byteBenefit).sum

/-- **The recommendations for a routine are exact**, for every analysis that pictures it and has one
loop for each header. -/
theorem analyze_exact (h : a.graph.Pictures r) (hheaders : (a.loops.map Loop.header).Nodup)
    (hardware : Hardware) :
    Exact r a hardware.variant (fitting r a hardware) (analyze (fitting r a hardware)) where
  nodup_tags := ((recommendations_perm _).map tag).nodup_iff.2 (nodup_found h hheaders hardware)
  instruction_isSome _ hx := (about_of_mem_generated (mem_generated_iff.2 ⟨hx, rfl⟩)).2
  ascending := order_keyOrder.sort_pairwise_lt (nodup_keys_found h hheaders hardware)
  sort_eq _ hxs := (order_keyOrder.sort_eq_of_perm ((found_perm _).trans hxs.symm)
    (nodup_keys_found h hheaders hardware)).symm
  promoted_iff name := by
    rw [← (promotionOf?_fitting h hardware name).1, Option.isSome_iff_exists]
    refine exists_congr fun x ↦ ?_
    rw [promotionOf?_eq_some_iff_mem, ← and_assoc, ← mem_generated_iff]
    rfl
  promoted_benefit x hx hkind := by
    obtain ⟨name, hname⟩ := mem_promotions_iff.1 (mem_generated_iff.2 ⟨hx, hkind⟩)
    exact ⟨name, variableName_of_promotionOf? hname,
      (promotionOf?_fitting h hardware name).2 x hname⟩
  storeZero_mem x hx hkind := by
    obtain ⟨-, -, hfeature, -⟩ := (exists_mem_suggestions_iff h hardware).1
      ⟨x, mem_generated_iff.2 ⟨hx, hkind⟩⟩
    exact hfeature
  branchAlways_mem x hx hkind := by
    obtain ⟨-, -, hfeature, -⟩ := (exists_mem_suggestions_iff h hardware).1
      ⟨x, mem_generated_iff.2 ⟨hx, hkind⟩⟩
    exact hfeature
  totalCycleBenefit_eq := ((recommendations_perm _).map _).sum_eq.symm
  totalByteBenefit_eq := ((recommendations_perm _).map _).sum_eq.symm

/-- **Recommendations are distinct and totally ordered**, for every routine with an analysis of it,
on every hardware. A variable is promoted exactly when it has a place, and for as many cycles as it
has places. -/
theorem recommendations_exact (o : AnalysisOptions) (r : Routine) (a : Analysis)
    (h : Analysis.ofRoutine o r = .ok a) (hardware : Hardware) :
    ∃ c, TimingContext.of r a hardware = .ok c ∧ Exact r a hardware.variant c (analyze c) := by
  have hheaders := Analysis.nodup_headers h
  obtain ⟨rfl, -⟩ := Analysis.eq_run_of_ofRoutine h
  have hpictures := Analysis.run_pictures o r
  exact ⟨_, of_eq_ok rfl hpictures, analyze_exact hpictures hheaders hardware⟩

/-- A loop in which a variable is scaled, raised by one and cleared. -/
def busyLoop : Routine where
  name := "busy"
  instructions := [⟨0, .label, [.label "top"], none, none, none⟩,
    ⟨1, .mul, [.temp 0, .localVar "x" .byte, .ofByte 8], none, none, none⟩,
    ⟨2, .add, [.localVar "x" .byte, .localVar "x" .byte, .ofByte 1], none, none, none⟩,
    ⟨3, .storeVariable, [.localVar "x" .byte, .ofByte 0], none, none, none⟩,
    ⟨4, .branch, [.label "top"], none, none, none⟩]

theorem recommendations_exact_busyLoop : ∃ a c, Analysis.ofRoutine {} busyLoop = .ok a ∧
    TimingContext.of busyLoop a (.ofVariant .wdc65C02) = .ok c ∧
      Exact busyLoop a .wdc65C02 c (analyze c) ∧ ∃ x ∈ (analyze c).recommendations,
        x.kind = .zeroPagePromotion ∧ x.variableName = some "x" := by
  obtain ⟨c, hc, hexact⟩ := recommendations_exact {} busyLoop _ rfl (.ofVariant .wdc65C02)
  have hplace : (1, 1) ∈ occurrences busyLoop (.run {} busyLoop) "x" :=
    ⟨by decide +kernel, _, _, rfl, rfl, by simp [Movable, busyLoop], rfl⟩
  exact ⟨_, c, rfl, hc, hexact, (hexact.promoted_iff "x").1 ⟨_, hplace⟩⟩

end Recommendations

end FlowGauge
