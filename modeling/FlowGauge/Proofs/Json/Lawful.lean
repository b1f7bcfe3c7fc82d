import FlowGauge.Code.Record
import FlowGauge.Json.Ordered
import Mathlib.Data.List.Nodup
import Std.Data.String.ToNat

/-!
# Laws of JSON forms

A value is *kept* by its JSON form when reading what was written gives the value again
(`JsonForm.Kept`). A form is lawful when it keeps every value whose indices and counts are 64-bit
words (`InWords`, `LawfulForm`); a type without indices and counts has no such condition.

Numbers, lists, sets and maps have lawful forms over lawful parts, and so does a vocabulary in which
no word is taken twice (`LawfulVocabulary`). A record is kept when its fields are and their names
are distinct (`JsonForm.kept_record`).

## Why null matters

A missing field and a field that is null are read alike. An optional value is therefore read back
only when the form of what is present is never null, and that is the second half of being kept. It
is a condition on forms and not on values: numbers, texts, arrays and objects satisfy it.

Indices and counts are natural numbers here and words in the text, so that a number beyond a word
would be written and refused on reading. `InWords` says of a value that it holds none.
-/

namespace FlowGauge

/-- Which values of a type have only 64-bit words for their indices and counts. -/
class InWords (α : Type) where
  /-- Every index and count in the value is a 64-bit word. -/
  holds : α → Prop

namespace InWords

variable {α β : Type}

/-- A type without indices and counts. -/
instance (priority := low) unconditional : InWords α :=
  ⟨fun _ ↦ True⟩

instance : InWords Nat :=
  ⟨(· < Word.bound 64)⟩

instance [InWords α] : InWords (List α) :=
  ⟨fun as ↦ ∀ a ∈ as, holds a⟩

instance [InWords α] : InWords (Option α) :=
  ⟨fun o ↦ ∀ a ∈ o, holds a⟩

instance [InWords α] [InWords β] : InWords (α × β) :=
  ⟨fun p ↦ holds p.1 ∧ holds p.2⟩

instance [Ord α] [Std.TransOrd α] [InWords α] : InWords (Std.ExtTreeSet α) :=
  ⟨fun s ↦ holds s.toList⟩

instance [Ord α] [Std.TransOrd α] [InWords α] [InWords β] : InWords (Std.ExtTreeMap α β) :=
  ⟨fun m ↦ holds m.toList⟩

/-! Whether a value consists of words can be found out by looking at it. -/

instance (a : α) : Decidable (@holds α unconditional a) :=
  .isTrue trivial

instance (n : Nat) : Decidable (holds n) :=
  inferInstanceAs (Decidable (n < Word.bound 64))

section

variable [InWords α] [∀ a : α, Decidable (holds a)]

instance (as : List α) : Decidable (holds as) :=
  inferInstanceAs (Decidable (∀ a ∈ as, holds a))

instance (o : Option α) : Decidable (holds o) :=
  inferInstanceAs (Decidable (∀ a ∈ o, holds a))

instance [Ord α] [Std.TransOrd α] (s : Std.ExtTreeSet α) : Decidable (holds s) :=
  inferInstanceAs (Decidable (holds s.toList))

variable [InWords β] [∀ b : β, Decidable (holds b)]

instance (p : α × β) : Decidable (holds p) :=
  inferInstanceAs (Decidable (holds p.1 ∧ holds p.2))

instance [Ord α] [Std.TransOrd α] (m : Std.ExtTreeMap α β) : Decidable (holds m) :=
  inferInstanceAs (Decidable (holds m.toList))

end

@[simp] theorem holds_unconditional (a : α) : holds a :=
  trivial

@[simp] theorem holds_list_unconditional (as : List α) : holds as :=
  fun _ _ ↦ trivial

@[simp] theorem holds_option_unconditional (o : Option α) : holds o :=
  fun _ _ ↦ trivial

@[simp] theorem holds_set_unconditional [Ord α] [Std.TransOrd α] (s : Std.ExtTreeSet α) :
    holds s :=
  fun _ _ ↦ trivial

end InWords

/-! ### Values that are kept -/

/-- Reading what was written gives the value again, and what was written is not mistaken for an
absent value. -/
structure JsonForm.Kept {α : Type} [JsonForm α] (a : α) : Prop where
  decode_encode : decode? (encode a) = some a
  encode_ne_null : encode a ≠ .null

/-- A JSON form that keeps its values. -/
class LawfulForm (α : Type) [JsonForm α] [InWords α] : Prop where
  kept : ∀ a : α, InWords.holds a → JsonForm.Kept a

/-- A vocabulary whose words are read back. -/
class LawfulVocabulary (α : Type) [Vocabulary α] : Prop where
  ofWord?_word : ∀ a : α, Vocabulary.ofWord? (Vocabulary.word a) = some a

/-- A type of keys that are read back. -/
class LawfulKey (α : Type) [JsonKey α] [InWords α] : Prop where
  ofName?_name : ∀ a : α, InWords.holds a → JsonKey.ofName? (JsonKey.name a) = some a

namespace JsonForm

variable {α β : Type}

/-! ### Records -/

section Record

variable [JsonForm α]

/-- A field that must be there is read back. -/
@[simp] theorem required_encode [InWords α] [LawfulForm α] {a : α} (h : InWords.holds a) :
    required (some (encode a)) = some a :=
  (LawfulForm.kept a h).decode_encode

/-- A field that may be absent is read back. -/
@[simp] theorem optional_encode [InWords α] [LawfulForm α] {o : Option α} (h : InWords.holds o) :
    optional (some (encode o)) = some o := by
  cases o with
  | none => rfl
  | some a =>
    -- What is written for a value is not `null`, so it is not taken for an absent one.
    have ha := LawfulForm.kept a (h a rfl)
    show optional (some (encode a)) = _
    rw [optional, ha.decode_encode, Option.map_some]
    exact ha.encode_ne_null

/-- A field is found by its name when the names are distinct. Of two fields with one name the first
hides the other. -/
theorem field?_of_mem {fields : List (String × Json)} (h : (fields.map Prod.fst).Nodup)
    {field : String × Json} (hfield : field ∈ fields) :
    Json.field? fields field.1 = some field.2 := by
  induction fields with
  | nil => cases hfield
  | cons first rest ih =>
    obtain ⟨hnew, hrest⟩ := List.nodup_cons.1 h
    rcases List.mem_cons.1 hfield with rfl | hlater
    · simp [Json.field?]
    · have hne : first.1 ≠ field.1 := fun heq ↦ hnew (heq ▸ List.mem_map_of_mem hlater)
      simpa [Json.field?, hne] using ih hrest hlater

/-- **A record is kept when its names are distinct and its fields are read back.** -/
theorem kept_record {a : α} {fields : List (String × Json)} {names : List String}
    {read : List (Option Json) → Option α} (hencode : encode a = .obj fields)
    (hdecode : ∀ j, decode? j = j.record? names >>= read) (hfields : fields.map Prod.fst = names)
    (hnames : names.Nodup) (hread : read (fields.map fun field ↦ some field.2) = some a) :
    Kept a where
  decode_encode := by
    subst hfields
    have hvalues : (fields.map Prod.fst).map (Json.field? fields) =
        fields.map fun field ↦ some field.2 := by
      rw [List.map_map]
      exact List.map_congr_left fun field hfield ↦ field?_of_mem hnames hfield
    rw [hencode, hdecode, Json.record?, hvalues]
    exact hread
  encode_ne_null := by simp [hencode]

end Record

/-! ### Words, lists, sets and maps -/

/-- A number within the bounds is read as it is. -/
theorem intBetween_int {lo hi n : Int} (hlo : lo ≤ n) (hhi : n ≤ hi) :
    intBetween lo hi (.int n) = some n :=
  if_pos ⟨hlo, hhi⟩

instance : LawfulForm Bool where
  kept _ _ := ⟨rfl, nofun⟩

instance : LawfulForm String where
  kept _ _ := ⟨rfl, nofun⟩

instance : LawfulForm Nat where
  kept n h := by
    have hn : n < Word.bound 64 := h
    refine ⟨?_, nofun⟩
    show (intBetween 0 (Word.bound 64 - 1) (.int n)).map Int.toNat = _
    rw [intBetween_int (by omega) (by omega), Option.map_some, Int.toNat_natCast]

instance : LawfulForm UInt32 where
  kept n _ := by
    have hn : n.toNat < Word.bound 32 := n.toNat_lt
    refine ⟨?_, nofun⟩
    show (intBetween 0 (Word.bound 32 - 1) (.int n.toNat)).map (fun k ↦ UInt32.ofNat k.toNat) = _
    rw [intBetween_int (by omega) (by omega), Option.map_some, Int.toNat_natCast,
      UInt32.ofNat_toNat]

instance : LawfulForm UInt16 where
  kept n _ := by
    have hn : n.toNat < Word.bound 16 := n.toNat_lt
    refine ⟨?_, nofun⟩
    show (intBetween 0 (Word.bound 16 - 1) (.int n.toNat)).map (fun k ↦ UInt16.ofNat k.toNat) = _
    rw [intBetween_int (by omega) (by omega), Option.map_some, Int.toNat_natCast,
      UInt16.ofNat_toNat]

instance : LawfulForm Int32 where
  kept n _ := by
    have hlo : -(Word.bound 31 : Int) ≤ n.toInt := n.le_toInt
    have hhi : n.toInt < Word.bound 31 := n.toInt_lt
    refine ⟨?_, nofun⟩
    show (intBetween (-(Word.bound 31)) (Word.bound 31 - 1) (.int n.toInt)).map Int32.ofInt = _
    rw [intBetween_int hlo (by omega), Option.map_some, Int32.ofInt_toInt]

/-- Reading what was written for every item gives the list again. -/
theorem mapM_map_eq_some {write : α → β} {read : β → Option α} {as : List α}
    (h : ∀ a ∈ as, read (write a) = some a) : (as.map write).mapM read = some as := by
  induction as with
  | nil => rfl
  | cons a as ih =>
    rw [List.map_cons, List.mapM_cons, h a List.mem_cons_self, ih fun b hb ↦ h b (.tail a hb)]
    rfl

instance [JsonForm α] [InWords α] [LawfulForm α] : LawfulForm (List α) where
  kept _ h := ⟨mapM_map_eq_some fun a ha ↦ (LawfulForm.kept a (h a ha)).decode_encode, nofun⟩

instance [JsonForm α] [JsonForm β] [InWords α] [InWords β] [LawfulForm α] [LawfulForm β] :
    LawfulForm (α × β) where
  kept p h := by
    refine ⟨?_, nofun⟩
    show (do return (← decode? (encode p.1), ← decode? (encode p.2))) = _
    rw [(LawfulForm.kept p.1 h.1).decode_encode, (LawfulForm.kept p.2 h.2).decode_encode]
    rfl

instance (priority := low) [Vocabulary α] [LawfulVocabulary α] : LawfulForm α where
  kept a _ := ⟨LawfulVocabulary.ofWord?_word a, nofun⟩

section Ordered

variable [Ord α] [Std.TransOrd α] [Std.LawfulEqOrd α]

/-- A set is the set of its members. -/
theorem set_ofList_toList (s : Std.ExtTreeSet α) : Std.ExtTreeSet.ofList s.toList = s := by
  classical
  refine Std.ExtTreeSet.ext_mem fun a ↦ ?_
  rw [Std.ExtTreeSet.mem_ofList, List.contains_iff_mem, Std.ExtTreeSet.mem_toList]

/-- A map is the map of its entries. -/
theorem map_ofList_toList (m : Std.ExtTreeMap α β) : Std.ExtTreeMap.ofList m.toList = m := by
  classical
  refine Std.ExtTreeMap.ext_getElem? fun {k} ↦ ?_
  cases hk : m[k]? with
  | some v =>
    exact Std.ExtTreeMap.getElem?_ofList_of_mem Std.ReflOrd.compare_self m.distinct_keys_toList
      (Std.ExtTreeMap.mem_toList_iff_getElem?_eq_some.2 hk)
  | none =>
    refine Std.ExtTreeMap.getElem?_eq_none fun hmem ↦ ?_
    rw [Std.ExtTreeMap.mem_ofList, List.contains_iff_mem] at hmem
    obtain ⟨entry, hentry, rfl⟩ := List.mem_map.1 hmem
    rw [Std.ExtTreeMap.mem_toList_iff_getElem?_eq_some.1 hentry] at hk
    cases hk

variable [InWords α]

instance [JsonForm α] [LawfulForm α] : LawfulForm (Std.ExtTreeSet α) where
  kept s h := by
    refine ⟨?_, nofun⟩
    show (decode? (encode s.toList) : Option (List α)).map (Std.ExtTreeSet.ofList ·) = _
    rw [(LawfulForm.kept s.toList h).decode_encode, Option.map_some, set_ofList_toList]

instance [JsonKey α] [LawfulKey α] [JsonForm β] [InWords β] [LawfulForm β] :
    LawfulForm (Std.ExtTreeMap α β) where
  kept m h := by
    have hentries : (m.toList.map fun (k, v) ↦ (JsonKey.name k, encode v)).mapM (fun field ↦ do
        return ((← JsonKey.ofName? field.1 : α), (← decode? field.2 : β))) = some m.toList := by
      refine mapM_map_eq_some fun entry hentry ↦ ?_
      obtain ⟨hkey, hvalue⟩ := h entry hentry
      simp only [LawfulKey.ofName?_name _ hkey, (LawfulForm.kept _ hvalue).decode_encode]
      rfl
    refine ⟨?_, nofun⟩
    show (List.mapM _ _ >>= fun entries : List (α × β) ↦ pure (Std.ExtTreeMap.ofList entries)) = _
    rw [hentries, Option.bind_eq_bind, Option.bind_some, map_ofList_toList]
    rfl

end Ordered

end JsonForm

instance : LawfulKey String where
  ofName?_name _ _ := rfl

instance : LawfulKey Nat where
  ofName?_name n h := by
    have hn : n < Word.bound 64 := h
    have hread : (toString n).toNat? = some n := Nat.toNat?_repr n
    show indexOfDecimal? (toString n) = _
    -- The only spelling that is read is the one that is written.
    simp only [indexOfDecimal?, hread, Option.bind_eq_bind, Option.bind_some]
    exact if_pos ⟨trivial, hn⟩

end FlowGauge
