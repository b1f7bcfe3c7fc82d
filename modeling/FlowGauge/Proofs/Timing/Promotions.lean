import FlowGauge.Proofs.Timing.Context
import FlowGauge.Timing.Recommendations
import Mathlib.Data.List.Sigma
import Mathlib.Data.Set.Card

/-!
# Promotions into page zero

A variable is worth a place in page zero for the places at which the code mentions it inside loops
(`occurrences`). The accesses from which promotions are made carry the index of an instruction and
not the position of the operand. Written next to their places (`located`) no two of them are the
same, so the accesses of a variable are as many as its places, and a variable has one promotion when
it has a place and none otherwise.

## Places and accesses

The places of a variable are pairs of an index and a position, a set that is defined by what the
code says. The accesses are what the generator collects, a list in which equal entries may occur.
Counting the list counts the set only because the places written next to the entries are distinct;
with the accesses alone two mentions in one instruction could not be told apart.
-/

namespace FlowGauge.Recommendations

open TimingContext

variable {r : Routine} {a : Analysis} {name : String} {x : Recommendation}

/-! ### Places -/

/-- The variable could be moved into page zero and is not there yet. -/
def Movable (r : Routine) (v : Variable) : Prop :=
  v.scope ≠ .temporary ∧ v.storage ≠ .zeroPage ∧
    ∀ l ∈ r.locals, l.allocation = .zeroPage → l.name ≠ v.name

/-- The places inside loops at which a movable variable is mentioned: the index of an instruction
and the position among its operands and its result. -/
def occurrences (r : Routine) (a : Analysis) (name : String) : Set (Nat × Nat) :=
  {place | 1 ≤ a.instructionDepth place.1 ∧ ∃ code v, r.instructions[place.1]? = some code ∧
    code.mentions[place.2]? = some (.var v) ∧ Movable r v ∧ v.name = name}

/-- The test of a variable: it is no temporary, and neither its hint nor the local of its name has
it in page zero already. -/
theorem isPromotable_iff {v : Variable} : isPromotable r v = true ↔ Movable r v := by
  simp [isPromotable, Movable, and_assoc]

/-! ### Accesses with their places -/

/-- The access that an operand makes at a depth and an index. -/
def access? (r : Routine) (depth index : Nat) : Operand → Option LoopAccess
  | .var v => if isPromotable r v then some ⟨v.name, depth, index⟩ else none
  | _ => none

/-- An access is the mention of a variable that can be moved. -/
theorem access?_eq_some_iff {depth index : Nat} {o : Operand} {access : LoopAccess} :
    access? r depth index o = some access ↔
      ∃ v, o = .var v ∧ Movable r v ∧ access = ⟨v.name, depth, index⟩ := by
  cases o with
  | var v =>
    by_cases h : isPromotable r v = true
    · simp [access?, h, isPromotable_iff.1 h, eq_comm]
    · simp [access?, h, mt isPromotable_iff.2 h]
  | _ => simp [access?]

/-- The accesses of one instruction, each with its place. -/
def locatedIn (r : Routine) (depth index : Nat) (code : Instruction) :
    List ((Nat × Nat) × LoopAccess) :=
  if depth = 0 then []
  else code.mentions.zipIdx.filterMap fun (o, position) ↦
    (access? r depth index o).map fun access ↦ ((index, position), access)

/-- The accesses of one instruction are its operands that mention such a variable, inside a loop. -/
theorem mem_locatedIn_iff {depth index : Nat} {code : Instruction} {place : Nat × Nat}
    {access : LoopAccess} : (place, access) ∈ locatedIn r depth index code ↔
      1 ≤ depth ∧ place.1 = index ∧ ∃ v, code.mentions[place.2]? = some (.var v) ∧ Movable r v ∧
        access = ⟨v.name, depth, index⟩ := by
  rw [locatedIn]
  split
  · next hdepth => simp [hdepth]
  · next hdepth =>
    rw [List.mem_filterMap]
    constructor
    · rintro ⟨⟨o, position⟩, ho, hfound⟩
      obtain ⟨found, haccess, heq⟩ := Option.map_eq_some_iff.1 hfound
      obtain ⟨v, rfl, hmovable, rfl⟩ := access?_eq_some_iff.1 haccess
      cases heq
      exact ⟨Nat.one_le_iff_ne_zero.2 hdepth, rfl, v, List.mem_zipIdx_iff_getElem?.1 ho,
        hmovable, rfl⟩
    · rintro ⟨-, rfl, v, hv, hmovable, rfl⟩
      refine ⟨(.var v, place.2), List.mem_zipIdx_iff_getElem?.2 hv, ?_⟩
      exact Option.map_eq_some_iff.2 ⟨_, access?_eq_some_iff.2 ⟨v, rfl, hmovable, rfl⟩, rfl⟩

/-- The accesses of a routine in order, each with its place. -/
def located (r : Routine) (a : Analysis) : List ((Nat × Nat) × LoopAccess) :=
  r.instructions.zipIdx.flatMap fun (code, i) ↦ locatedIn r (a.instructionDepth i) i code

/-- Accesses are the located ones without their places. -/
theorem loopAccesses_eq (h : a.graph.Pictures r) (hardware : Hardware) :
    loopAccesses (fitting r a hardware) = (located r a).map Prod.snd := by
  rw [loopAccesses, rows_fitting h, List.flatMap_map, located, List.map_flatMap]
  refine congrArg (List.flatMap · _) (funext fun (code, i) ↦ ?_)
  show (if a.instructionDepth i = 0 then [] else
    code.mentions.filterMap (access? r (a.instructionDepth i) i)) = List.map Prod.snd (ite ..)
  split
  · rfl
  · conv_lhs => rw [← List.zipIdx_map_fst 0 code.mentions]
    rw [List.filterMap_map, List.map_filterMap]
    refine List.filterMap_congr fun (o, position) _ ↦ ?_
    rw [Option.map_map]
    exact Option.map_id_apply.symm

/-- **No place is taken twice**: positions differ inside an instruction, indices differ between
instructions. -/
theorem nodup_places (r : Routine) (a : Analysis) : ((located r a).map Prod.fst).Nodup := by
  have hnumbered {α : Type} (xs : List α) : xs.zipIdx.Pairwise fun x y ↦ x.2 ≠ y.2 :=
    List.pairwise_map.1 (List.nodup_zipIdx_map_snd xs)
  refine List.pairwise_map.2 (List.pairwise_flatMap.2 ⟨fun (code, i) _ ↦ ?_, ?_⟩)
  · dsimp only
    rw [locatedIn]
    split
    · exact List.Pairwise.nil
    · refine List.pairwise_filterMap.2 ((hnumbered code.mentions).imp ?_)
      rintro ⟨o, p⟩ ⟨o', p'⟩ hne x hx y hy
      obtain ⟨-, -, rfl⟩ := Option.map_eq_some_iff.1 hx
      obtain ⟨-, -, rfl⟩ := Option.map_eq_some_iff.1 hy
      exact fun heq ↦ hne (Prod.mk.inj heq).2
  · refine (hnumbered r.instructions).imp ?_
    rintro ⟨code, i⟩ ⟨code', i'⟩ hne ⟨place, access⟩ hx ⟨place', access'⟩ hy (rfl : place = place')
    obtain ⟨-, hi, -⟩ := mem_locatedIn_iff.1 hx
    obtain ⟨-, hi', -⟩ := mem_locatedIn_iff.1 hy
    exact hne (hi.symm.trans hi')

/-- **The accesses of a variable are at its places.** -/
theorem mem_occurrences_iff {place : Nat × Nat} : place ∈ occurrences r a name ↔
    ∃ access, (place, access) ∈ located r a ∧ access.name = name := by
  constructor
  · rintro ⟨hdepth, code, v, hcode, hv, hmovable, hname⟩
    exact ⟨_, List.mem_flatMap.2 ⟨(code, place.1), List.mem_zipIdx_iff_getElem?.2 hcode,
      mem_locatedIn_iff.2 ⟨hdepth, rfl, v, hv, hmovable, rfl⟩⟩, hname⟩
  · rintro ⟨access, hmem, hname⟩
    obtain ⟨⟨code, i⟩, hcode, hin⟩ := List.mem_flatMap.1 hmem
    obtain ⟨hdepth, rfl, v, hv, hmovable, rfl⟩ := mem_locatedIn_iff.1 hin
    exact ⟨hdepth, code, v, List.mem_zipIdx_iff_getElem?.1 hcode, hv, hmovable, hname⟩

/-- The places of a variable, in order. -/
def placesOf (r : Routine) (a : Analysis) (name : String) : List (Nat × Nat) :=
  ((located r a).filter (·.2.name == name)).map Prod.fst

/-- The listed places of a variable are its occurrences. -/
theorem coe_placesOf : ((placesOf r a name).toFinset : Set (Nat × Nat)) = occurrences r a name := by
  ext place
  simp [placesOf, mem_occurrences_iff]

/-- No place is listed twice, even when one instruction mentions a variable twice. -/
theorem nodup_placesOf : (placesOf r a name).Nodup :=
  (nodup_places r a).sublist (List.filter_sublist.map _)

theorem occurrences_finite : (occurrences r a name).Finite := by
  rw [← coe_placesOf]
  exact Finset.finite_toSet _

/-- **A variable is accessed once at each of its places.** -/
theorem length_accesses (h : a.graph.Pictures r) (hardware : Hardware) (name : String) :
    ((loopAccesses (fitting r a hardware)).filter (·.name == name)).length =
      (occurrences r a name).ncard := by
  rw [← coe_placesOf, Set.ncard_coe_finset, List.toFinset_card_of_nodup nodup_placesOf,
    loopAccesses_eq h, List.filter_map, placesOf, List.length_map, List.length_map]
  rfl

/-! ### Promotions -/

/-- The promotion of one variable. -/
def promotionOf? (c : TimingContext) (name : String) : Option Recommendation :=
  match (loopAccesses c).filter (·.name == name) with
  | [] => none
  | first :: rest => some (promotion first (first :: rest))

/-- A promotion is made of all accesses of its variable, and named after the first. -/
theorem promotionOf?_eq_some_iff {c : TimingContext} : promotionOf? c name = some x ↔
    ∃ first rest, (loopAccesses c).filter (·.name == name) = first :: rest ∧
      promotion first (first :: rest) = x := by
  rw [promotionOf?]
  split
  · next hnil => simp [hnil]
  · next first rest hcons => simp [hcons]

theorem first_access {c : TimingContext} {first : LoopAccess} {rest : List LoopAccess}
    (h : (loopAccesses c).filter (·.name == name) = first :: rest) :
    first ∈ loopAccesses c ∧ first.name = name := by
  have hmem : first ∈ (loopAccesses c).filter (·.name == name) := h ▸ List.mem_cons_self
  simpa using List.mem_filter.1 hmem

theorem variableName_of_promotionOf? {c : TimingContext} (h : promotionOf? c name = some x) :
    x.variableName = some name := by
  obtain ⟨first, rest, hcons, rfl⟩ := promotionOf?_eq_some_iff.1 h
  exact congrArg some (first_access hcons).2

/-- The promotions are those of the variables. -/
theorem mem_promotions_iff {c : TimingContext} : x ∈ promotions c ↔
    ∃ name, promotionOf? c name = some x := by
  show x ∈ (loopVariables c).toList.filterMap (promotionOf? c) ↔ _
  rw [List.mem_filterMap]
  refine ⟨fun ⟨name, _, hname⟩ ↦ ⟨name, hname⟩, fun ⟨name, hname⟩ ↦ ⟨name, ?_, hname⟩⟩
  obtain ⟨first, rest, hcons, rfl⟩ := promotionOf?_eq_some_iff.1 hname
  rw [Std.ExtTreeSet.mem_toList, loopVariables, Std.ExtTreeSet.mem_ofList, List.contains_iff_mem]
  exact List.mem_map.2 ⟨first, first_access hcons⟩

/-- The promotion of a variable is the one that names it. -/
theorem promotionOf?_eq_some_iff_mem {c : TimingContext} : promotionOf? c name = some x ↔
    x ∈ promotions c ∧ x.variableName = some name := by
  rw [mem_promotions_iff]
  constructor
  · intro hx
    exact ⟨⟨name, hx⟩, variableName_of_promotionOf? hx⟩
  · intro ⟨⟨name', hx⟩, hname⟩
    obtain rfl : name' = name :=
      Option.some.inj ((variableName_of_promotionOf? hx).symm.trans hname)
    exact hx

/-- **No two promotions are of one variable.** -/
theorem promotions_pairwise (c : TimingContext) :
    (promotions c).Pairwise fun x y ↦ x.variableName ≠ y.variableName := by
  refine List.pairwise_filterMap.2 (Std.ExtTreeSet.distinct_toList.imp ?_)
  intro name name' hne x hx y hy heq
  have hnames := (variableName_of_promotionOf? hx).symm.trans
    (heq.trans (variableName_of_promotionOf? hy))
  exact hne (Std.LawfulEqOrd.compare_eq_iff_eq.2 (Option.some.inj hnames))

/-- **A variable has a promotion when it has a place, and the promotion counts the places.** -/
theorem promotionOf?_fitting (h : a.graph.Pictures r) (hardware : Hardware) (name : String) :
    ((promotionOf? (fitting r a hardware) name).isSome = true ↔ (occurrences r a name).Nonempty) ∧
    ∀ x, promotionOf? (fitting r a hardware) name = some x →
      x.cycleBenefit = (occurrences r a name).ncard := by
  have hlength := length_accesses h hardware name
  constructor
  · rw [← Set.ncard_pos occurrences_finite, ← hlength, List.length_pos_iff, promotionOf?]
    split
    · next hnil => simp [hnil]
    · next hcons => simp [hcons]
  · intro x hx
    obtain ⟨first, rest, hcons, rfl⟩ := promotionOf?_eq_some_iff.1 hx
    rw [← hlength, hcons]
    rfl

end FlowGauge.Recommendations
