import SupraHarness.Lib.JsonUnique
import SupraHarness.Llm.Canonical

/-!
# The texts of a value

What a JSON text stands for: the value that its tree spells, where the order of an object's entries
makes no difference. A value is emitted as the compact text of its tree with every object in order.
-/
namespace SupraHarness.Llm

open Json (Raw Text digits digitsValue)
open Utf8 (encode encode_cons encode_append)

variable {φ : Type}

/-! ## Values up to the order of entries -/

theorem mem_sortByKey {β : Type} {entries : List (String × β)} {entry : String × β} :
    entry ∈ sortByKey entries ↔ entry ∈ entries :=
  (List.mergeSort_perm entries _).mem_iff

theorem sortByKey_map {α β : Type} (f : α → β) (entries : List (String × α)) :
    sortByKey (entries.map (Prod.map id f)) = (sortByKey entries).map (Prod.map id f) := by
  have hmap := @List.map_mergeSort _ _ (fun a b : String × α => a.1 ≤ b.1) (fun a b : String × β => a.1 ≤ b.1)
    (Prod.map id f) entries fun _ _ _ _ => rfl
  exact hmap.symm

theorem sortByKey_sorted {β : Type} (entries : List (String × β)) :
    sortByKey (sortByKey entries) = sortByKey entries := by
  apply List.mergeSort_of_pairwise
  apply List.pairwise_mergeSort
  · intro a b c hab hbc
    rw [decide_eq_true_eq] at hab hbc ⊢
    exact le_trans hab hbc
  · intro a b
    rw [Bool.or_eq_true, decide_eq_true_eq, decide_eq_true_eq]
    exact le_total a.1 b.1

namespace Value

mutual

/-- The value with the entries of every object in the order of their keys. -/
def ordered : Value φ → Value φ
  | .array items => .array (orderedItems items)
  | .object map => .object (sortByKey (orderedEntries map))
  | value => value

def orderedItems : List (Value φ) → List (Value φ)
  | [] => []
  | item :: items => ordered item :: orderedItems items

def orderedEntries : List (String × Value φ) → List (String × Value φ)
  | [] => []
  | (key, item) :: map => (key, ordered item) :: orderedEntries map

end

/-- Values that differ in the order of entries only. -/
def Same (value value' : Value φ) : Prop := value.ordered = value'.ordered

theorem orderedItems_eq (items : List (Value φ)) : orderedItems items = items.map ordered := by
  induction items with
  | nil => rfl
  | cons item items ih => rw [orderedItems, ih, List.map_cons]

theorem orderedEntries_eq (map : List (String × Value φ)) : orderedEntries map = map.map (Prod.map id ordered) := by
  induction map with
  | nil => rfl
  | cons entry map ih =>
    obtain ⟨key, item⟩ := entry
    rw [orderedEntries, ih, List.map_cons]
    rfl

theorem ordered_array (items : List (Value φ)) : ordered (.array items) = .array (items.map ordered) := by
  rw [ordered, orderedItems_eq]

theorem ordered_object (map : List (String × Value φ)) :
    ordered (.object map) = .object ((sortByKey map).map (Prod.map id ordered)) := by
  rw [ordered, orderedEntries_eq, sortByKey_map]

theorem ordered_ordered (value : Value φ) : value.ordered.ordered = value.ordered := by
  induction value using parts_induction with
  | array items ih =>
    rw [ordered_array, ordered_array, List.map_map]
    congr 1
    exact List.map_congr_left ih
  | object map ih =>
    rw [ordered_object, ordered_object, sortByKey_map, sortByKey_sorted, List.map_map]
    congr 1
    apply List.map_congr_left
    intro entry hentry
    exact Prod.ext rfl (ih entry (mem_sortByKey.mp hentry))
  | _ => rfl

theorem exact_ordered (value : Value φ) : value.ordered.exact = value.exact := by
  induction value using parts_induction with
  | array items ih =>
    rw [ordered_array, exact, exact, exactItems_eq, exactItems_eq, List.all_map, Bool.eq_iff_iff, List.all_eq_true,
      List.all_eq_true]
    exact forall₂_congr fun item hitem => by rw [Function.comp, ih item hitem]
  | object map ih =>
    rw [ordered_object, exact, exact, exactEntries_eq, exactEntries_eq, List.all_map, Bool.eq_iff_iff, List.all_eq_true,
      List.all_eq_true]
    apply forall_congr'
    intro entry
    rw [mem_sortByKey]
    exact imp_congr_right fun hentry => by rw [Function.comp, Prod.map, ih entry hentry]
  | _ => rfl

theorem Same.exact_eq {value value' : Value φ} (h : value.Same value') : value.exact = value'.exact := by
  rw [← exact_ordered value, h, exact_ordered value']

/-! ## The tree of a value -/

mutual

def raw (showFloat : φ → List Char) : Value φ → Raw
  | .null => .scalar Json.nullLexeme
  | .bool true => .scalar Json.trueLexeme
  | .bool false => .scalar Json.falseLexeme
  | .number n => .scalar (encode (n.text showFloat))
  | .string text => .string text.toList
  | .array items => .array (rawItems showFloat items)
  | .object map => .object (rawEntries showFloat map)

def rawItems (showFloat : φ → List Char) : List (Value φ) → List Raw
  | [] => []
  | item :: items => raw showFloat item :: rawItems showFloat items

def rawEntries (showFloat : φ → List Char) : List (String × Value φ) → List (List Char × Raw)
  | [] => []
  | (key, item) :: map => (key.toList, raw showFloat item) :: rawEntries showFloat map

end

theorem rawItems_eq (showFloat : φ → List Char) (items : List (Value φ)) :
    rawItems showFloat items = items.map (raw showFloat) := by
  induction items with
  | nil => rfl
  | cons item items ih => rw [rawItems, ih, List.map_cons]

theorem rawEntries_eq (showFloat : φ → List Char) (map : List (String × Value φ)) :
    rawEntries showFloat map = map.map (Prod.map String.toList (raw showFloat)) := by
  induction map with
  | nil => rfl
  | cons entry map ih =>
    obtain ⟨key, item⟩ := entry
    rw [rawEntries, ih, List.map_cons]
    rfl

end Value

theorem encode_intercalate (parts : List (List Char)) :
    encode ([','].intercalate parts) = [0x2C].intercalate (parts.map encode) := by
  induction parts with
  | nil => rfl
  | cons part parts ih =>
    by_cases hne : parts = []
    · subst hne
      rw [List.intercalate_singleton, List.map_singleton, List.intercalate_singleton]
    · rw [List.intercalate_cons_of_ne_nil hne, List.map_cons,
        List.intercalate_cons_of_ne_nil (by rwa [ne_eq, List.map_eq_nil_iff]), encode_append, encode_append, ih]
      rfl

theorem writeItems_eq (raws : List Raw) : Raw.writeItems raws = raws.map Raw.write := by
  induction raws with
  | nil => rfl
  | cons raw raws ih => rw [Raw.writeItems, ih, List.map_cons]

theorem writeMembers_eq (items : List (List Char × Raw)) :
    Raw.writeMembers items = items.map fun item => encode (Json.quoted item.1) ++ 0x3A :: item.2.write := by
  induction items with
  | nil => rfl
  | cons item items ih =>
    obtain ⟨key, raw⟩ := item
    rw [Raw.writeMembers, ih, List.map_cons]

/-- A value is emitted as the compact text of its tree in order. -/
theorem encode_emit (showFloat : φ → List Char) (value : Value φ) :
    encode (emit showFloat value) = (value.ordered.raw showFloat).write := by
  induction value using Value.parts_induction with
  | null => rfl
  | bool b => cases b <;> rfl
  | number number => rfl
  | string text => rfl
  | array items ih =>
    rw [Value.ordered_array, Value.raw, Value.rawItems_eq, Raw.write, writeItems_eq, emit, emitItems_eq, encode_cons,
      encode_append, encode_intercalate, List.map_map, List.map_map, List.map_map]
    have hitems : items.map (encode ∘ emit showFloat) =
        items.map (Raw.write ∘ (Value.raw showFloat ∘ Value.ordered)) := List.map_congr_left ih
    rw [hitems]
    rfl
  | object map ih =>
    rw [Value.ordered_object, Value.raw, Value.rawEntries_eq, Raw.write, writeMembers_eq, emit, emitEntries_eq,
      sortByKey_map, encode_cons, encode_append, encode_intercalate, List.map_map, List.map_map, List.map_map, List.map_map]
    have hentries : (sortByKey map).map ((encode ∘ entryText) ∘ Prod.map id (emit showFloat)) =
        (sortByKey map).map (((fun item => encode (Json.quoted item.1) ++ 0x3A :: item.2.write) ∘
          Prod.map String.toList (Value.raw showFloat)) ∘ Prod.map id Value.ordered) := by
      apply List.map_congr_left
      intro entry hentry
      have hvalue := ih entry (mem_sortByKey.mp hentry)
      simp only [Function.comp, entryText, Prod.map, id, encode_append, encode_cons]
      rw [hvalue]
      rfl
    rw [hentries]
    rfl

/-! ## What a tree spells -/

theorem neg_ge {n : Nat} (h : n ≤ 2 ^ 63) : -(2 ^ 63 : Int) ≤ -n := by omega

theorem neg_neg_of_pos {n : Nat} (h : 0 < n) : -(n : Int) < 0 := by omega

/-- The integer of 64 bits that a lexeme spells. -/
def readInteger (lexeme : List UInt8) : Option (Number φ) :=
  match lexeme with
  | [] => none
  | byte :: rest =>
    if byte = 0x2D then
      if h : Json.allDigits rest ∧ 0 < digitsValue rest ∧ digitsValue rest ≤ 2 ^ 63 then
        some (.negInt ⟨-digitsValue rest, neg_neg_of_pos h.2.1, neg_ge h.2.2⟩)
      else none
    else if Json.allDigits lexeme ∧ digitsValue lexeme < 2 ^ 64 then some (.posInt (.ofNat (digitsValue lexeme)))
    else none

theorem readInteger_exact {lexeme : List UInt8} {number : Number φ} (h : readInteger lexeme = some number) :
    number.isF64 = false := by
  unfold readInteger at h
  split at h
  · cases h
  · split_ifs at h
    · cases h
      rfl
    · cases h
      rfl

theorem isNumber_text (showFloat : φ → List Char) {number : Number φ} (h : number.isF64 = false) :
    Json.isNumber (encode (number.text showFloat)) = true := by
  cases number with
  | posInt n =>
    rw [Number.text, Json.encode_toDigits]
    exact Json.isNumber_digits _
  | negInt n =>
    rw [Number.text, encode_cons, Json.encode_toDigits]
    exact Json.isNumber_minus _
  | float f => cases h

theorem readInteger_text (showFloat : φ → List Char) {number : Number φ} (h : number.isF64 = false) :
    readInteger (encode (number.text showFloat)) = some number := by
  cases number with
  | posInt n =>
    rw [Number.text, Json.encode_toDigits]
    have hall := Json.allDigits_digits n.toNat
    have hvalue := Json.digitsValue_digits n.toNat
    have hdigit := Json.isDigit_digits n.toNat
    unfold readInteger
    split
    · next hnil => exact absurd hnil (Json.digits_ne_nil _)
    · next byte rest hshape =>
      rw [hshape] at hdigit
      have hne : byte ≠ 0x2D := by
        rintro rfl
        cases hdigit 0x2D List.mem_cons_self
      rw [if_neg hne, if_pos ⟨hall, by rw [hvalue]; exact n.toNat_lt⟩, hvalue, UInt64.ofNat_toNat]
  | negInt n =>
    have hneg := n.neg
    have hfits := n.fits
    have hvalue := Json.digitsValue_digits n.val.natAbs
    rw [Number.text, encode_cons, Json.encode_toDigits]
    change readInteger (0x2D :: digits n.val.natAbs) = _
    simp only [readInteger, if_true]
    rw [dif_pos ⟨Json.allDigits_digits _, by omega, by omega⟩]
    congr 2
    obtain ⟨val, hneg, hfits⟩ := n
    simp only [NegInt.mk.injEq]
    simp only at hvalue
    rw [hvalue]
    omega
  | float f => cases h

section

variable (float : List UInt8 → Option φ)

/-- The number that a lexeme spells, given what floats it may spell. -/
def readNumber (lexeme : List UInt8) : Option (Number φ) :=
  (readInteger lexeme).or ((float lexeme).map .float)

mutual

/-- The value that a tree spells. -/
def spelled : Raw → Option (Value φ)
  | .scalar lexeme =>
    if lexeme = Json.trueLexeme then some (.bool true)
    else if lexeme = Json.falseLexeme then some (.bool false)
    else if lexeme = Json.nullLexeme then some .null
    else (readNumber float lexeme).map .number
  | .string cs => some (.string (String.ofList cs))
  | .array raws => (spelledItems raws).map .array
  | .object items => (spelledMembers items).map .object

def spelledItems : List Raw → Option (List (Value φ))
  | [] => some []
  | raw :: raws =>
    match spelled raw, spelledItems raws with
    | some item, some items => some (item :: items)
    | _, _ => none

def spelledMembers : List (List Char × Raw) → Option (List (String × Value φ))
  | [] => some []
  | (key, raw) :: items =>
    match spelled raw, spelledMembers items with
    | some item, some map => some ((String.ofList key, item) :: map)
    | _, _ => none

end

theorem spelledItems_cons {raw : Raw} {raws : List Raw} {items : List (Value φ)}
    (h : spelledItems float (raw :: raws) = some items) :
    ∃ item rest, spelled float raw = some item ∧ spelledItems float raws = some rest ∧ items = item :: rest := by
  rw [spelledItems] at h
  split at h
  · next item rest hitem hrest => exact ⟨item, rest, hitem, hrest, (Option.some.inj h).symm⟩
  · cases h

theorem spelledMembers_cons {key : List Char} {raw : Raw} {members : List (List Char × Raw)}
    {map : List (String × Value φ)} (h : spelledMembers float ((key, raw) :: members) = some map) :
    ∃ item rest, spelled float raw = some item ∧ spelledMembers float members = some rest ∧
      map = (String.ofList key, item) :: rest := by
  rw [spelledMembers] at h
  split at h
  · next item rest hitem hrest => exact ⟨item, rest, hitem, hrest, (Option.some.inj h).symm⟩
  · cases h

/-- The tree of a value without floats spells it. -/
theorem spelled_raw (showFloat : φ → List Char) {value : Value φ} (h : value.exact = true) :
    spelled float (value.raw showFloat) = some value := by
  induction value using Value.parts_induction with
  | null => rfl
  | bool b => cases b <;> rfl
  | number number =>
    have hexact : number.isF64 = false := by simpa [Value.exact] using h
    have hnumber := isNumber_text showFloat hexact
    have hne : ∀ literal ∈ Json.literals, encode (number.text showFloat) ≠ literal := by
      intro literal hmem heq
      rw [heq] at hnumber
      simp only [Json.literals, List.mem_cons, List.not_mem_nil, or_false] at hmem
      rcases hmem with rfl | rfl | rfl <;> cases hnumber
    rw [Value.raw, spelled, if_neg (hne _ (by decide)), if_neg (hne _ (by decide)), if_neg (hne _ (by decide)),
      readNumber, readInteger_text showFloat hexact]
    rfl
  | string text =>
    rw [Value.raw, spelled, String.ofList_toList]
  | array items ih =>
    rw [Value.exact, Value.exactItems_eq, List.all_eq_true] at h
    have hitems : spelledItems float (items.map (Value.raw showFloat)) = some items := by
      induction items with
      | nil => rfl
      | cons item items ih' =>
        rw [List.forall_mem_cons] at ih h
        rw [List.map_cons, spelledItems, ih.1 h.1, ih' ih.2 h.2]
    rw [Value.raw, Value.rawItems_eq, spelled, hitems]
    rfl
  | object map ih =>
    rw [Value.exact, Value.exactEntries_eq, List.all_eq_true] at h
    have hentries : spelledMembers float (map.map (Prod.map String.toList (Value.raw showFloat))) = some map := by
      induction map with
      | nil => rfl
      | cons entry map ih' =>
        obtain ⟨key, item⟩ := entry
        rw [List.forall_mem_cons] at ih h
        rw [List.map_cons, Prod.map, spelledMembers, ih.1 h.1, ih' ih.2 h.2, String.ofList_toList]
    rw [Value.raw, Value.rawEntries_eq, spelled, hentries]
    rfl

/-- The tree of a value without floats has the scalars of the standard. -/
theorem standard_raw (showFloat : φ → List Char) {value : Value φ} (h : value.exact = true) :
    (value.raw showFloat).Standard := by
  induction value using Value.parts_induction with
  | null => exact .inl (by decide)
  | bool b =>
    cases b with
    | false => exact .inl (by decide)
    | true => exact .inl (by decide)
  | number number => exact .inr (isNumber_text showFloat (by simpa [Value.exact] using h))
  | string text => exact trivial
  | array items ih =>
    rw [Value.exact, Value.exactItems_eq, List.all_eq_true] at h
    rw [Value.raw, Value.rawItems_eq]
    induction items with
    | nil => exact trivial
    | cons item items ih' =>
      rw [List.forall_mem_cons] at ih h
      exact ⟨ih.1 h.1, ih' ih.2 h.2⟩
  | object map ih =>
    rw [Value.exact, Value.exactEntries_eq, List.all_eq_true] at h
    rw [Value.raw, Value.rawEntries_eq]
    induction map with
    | nil => exact trivial
    | cons entry map ih' =>
      rw [List.forall_mem_cons] at ih h
      exact ⟨ih.1 h.1, ih' ih.2 h.2⟩

/-- The numbers of a tree that spells a value without floats are integers of 64 bits. -/
theorem integers_of_exact {raw : Raw} {value : Value φ} (h : spelled float raw = some value) (hexact : value.exact = true) :
    ∀ lexeme ∈ raw.scalars, lexeme ∈ Json.literals ∨ ∃ number : Number φ, readInteger lexeme = some number := by
  induction raw using Raw.parts_induction generalizing value with
  | scalar lexeme =>
    intro other hother
    rw [Raw.scalars, List.mem_singleton] at hother
    subst hother
    rw [spelled] at h
    split_ifs at h with htrue hfalse hnull
    · exact .inl (by rw [htrue]; decide)
    · exact .inl (by rw [hfalse]; decide)
    · exact .inl (by rw [hnull]; decide)
    · obtain ⟨number, hnumber, rfl⟩ := Option.map_eq_some_iff.mp h
      right
      rw [readNumber] at hnumber
      cases hinteger : readInteger other with
      | some integer => exact ⟨integer, rfl⟩
      | none =>
        rw [hinteger, Option.none_or] at hnumber
        obtain ⟨f, -, rfl⟩ := Option.map_eq_some_iff.mp hnumber
        cases hexact
  | string cs => exact List.forall_mem_nil _
  | array raws ih =>
    obtain ⟨items, hitems, rfl⟩ := Option.map_eq_some_iff.mp h
    rw [Value.exact, Value.exactItems_eq] at hexact
    rw [Raw.scalars]
    clear h
    induction raws generalizing items with
    | nil => exact List.forall_mem_nil _
    | cons raw raws ih' =>
      obtain ⟨item, rest, hitem, hrest, rfl⟩ := spelledItems_cons float hitems
      rw [List.all_cons, Bool.and_eq_true] at hexact
      rw [List.forall_mem_cons] at ih
      rw [Raw.scalarsItems, List.forall_mem_append]
      exact ⟨ih.1 hitem hexact.1, ih' ih.2 rest hrest hexact.2⟩
  | object members ih =>
    obtain ⟨map, hmap, rfl⟩ := Option.map_eq_some_iff.mp h
    rw [Value.exact, Value.exactEntries_eq] at hexact
    rw [Raw.scalars]
    clear h
    induction members generalizing map with
    | nil => exact List.forall_mem_nil _
    | cons member members ih' =>
      obtain ⟨key, raw⟩ := member
      obtain ⟨item, rest, hitem, hrest, rfl⟩ := spelledMembers_cons float hmap
      rw [List.all_cons, Bool.and_eq_true] at hexact
      rw [List.forall_mem_cons] at ih
      rw [Raw.scalarsMembers, List.forall_mem_append]
      exact ⟨ih.1 hitem hexact.1, ih' ih.2 rest hrest hexact.2⟩

/-- Trees of one shape: as deep as each other, and both with repeated keys or both without. -/
def Alike (raw raw' : Raw) : Prop := raw.distinct = raw'.distinct ∧ ∀ n, raw.nested n = raw'.nested n

/-- A tree and the tree of the value it spells have one shape. -/
theorem alike_spelled (showFloat : φ → List Char) {raw : Raw} {value : Value φ} (h : spelled float raw = some value) :
    Alike (value.raw showFloat) raw := by
  induction raw using Raw.parts_induction generalizing value with
  | scalar lexeme =>
    rw [spelled] at h
    split_ifs at h
    · cases h
      exact ⟨rfl, fun _ => rfl⟩
    · cases h
      exact ⟨rfl, fun _ => rfl⟩
    · cases h
      exact ⟨rfl, fun _ => rfl⟩
    · obtain ⟨number, -, rfl⟩ := Option.map_eq_some_iff.mp h
      exact ⟨rfl, fun _ => rfl⟩
  | string cs =>
    cases h
    exact ⟨rfl, fun _ => rfl⟩
  | array raws ih =>
    obtain ⟨items, hitems, rfl⟩ := Option.map_eq_some_iff.mp h
    have hparts : Raw.distinctItems (items.map (Value.raw showFloat)) = Raw.distinctItems raws ∧
        ∀ n, Raw.nestedItems (items.map (Value.raw showFloat)) n = Raw.nestedItems raws n := by
      clear h
      induction raws generalizing items with
      | nil =>
        cases hitems
        exact ⟨rfl, fun _ => rfl⟩
      | cons raw raws ih' =>
        obtain ⟨item, rest, hitem, hrest, rfl⟩ := spelledItems_cons float hitems
        rw [List.forall_mem_cons] at ih
        obtain ⟨hdistinct, hnested⟩ := ih.1 hitem
        obtain ⟨hdistinct', hnested'⟩ := ih' ih.2 rest hrest
        rw [List.map_cons]
        exact ⟨by rw [Raw.distinctItems, Raw.distinctItems, hdistinct, hdistinct'],
          fun n => by rw [Raw.nestedItems, Raw.nestedItems, hnested, hnested']⟩
    rw [Value.raw, Value.rawItems_eq]
    refine ⟨hparts.1, fun n => ?_⟩
    cases n with
    | zero => rfl
    | succ n => exact hparts.2 n
  | object members ih =>
    obtain ⟨map, hmap, rfl⟩ := Option.map_eq_some_iff.mp h
    have hparts : (map.map (Prod.map String.toList (Value.raw showFloat))).map Prod.fst = members.map Prod.fst ∧
        Raw.distinctMembers (map.map (Prod.map String.toList (Value.raw showFloat))) = Raw.distinctMembers members ∧
        ∀ n, Raw.nestedMembers (map.map (Prod.map String.toList (Value.raw showFloat))) n =
          Raw.nestedMembers members n := by
      clear h
      induction members generalizing map with
      | nil =>
        cases hmap
        exact ⟨rfl, rfl, fun _ => rfl⟩
      | cons member members ih' =>
        obtain ⟨key, raw⟩ := member
        obtain ⟨item, rest, hitem, hrest, rfl⟩ := spelledMembers_cons float hmap
        rw [List.forall_mem_cons] at ih
        obtain ⟨hdistinct, hnested⟩ := ih.1 hitem
        obtain ⟨hkeys, hdistinct', hnested'⟩ := ih' ih.2 rest hrest
        rw [List.map_cons, Prod.map, String.toList_ofList]
        exact ⟨by rw [List.map_cons, List.map_cons, hkeys],
          by rw [Raw.distinctMembers, Raw.distinctMembers, hdistinct, hdistinct'],
          fun n => by rw [Raw.nestedMembers, Raw.nestedMembers, hnested, hnested']⟩
    rw [Value.raw, Value.rawEntries_eq]
    refine ⟨by rw [Raw.distinct, Raw.distinct, hparts.1, hparts.2.1], fun n => ?_⟩
    cases n with
    | zero => rfl
    | succ n => exact hparts.2.2 n

end

theorem distinctMembers_eq (members : List (List Char × Raw)) :
    Raw.distinctMembers members = members.all fun member => member.2.distinct := by
  induction members with
  | nil => rfl
  | cons member members ih =>
    obtain ⟨key, raw⟩ := member
    rw [Raw.distinctMembers, ih, List.all_cons]

theorem nestedMembers_eq (members : List (List Char × Raw)) (n : Nat) :
    Raw.nestedMembers members n = members.all fun member => member.2.nested n := by
  induction members with
  | nil => rfl
  | cons member members ih =>
    obtain ⟨key, raw⟩ := member
    rw [Raw.nestedMembers, ih, List.all_cons]

theorem distinctItems_eq (raws : List Raw) : Raw.distinctItems raws = raws.all Raw.distinct := by
  induction raws with
  | nil => rfl
  | cons raw raws ih => rw [Raw.distinctItems, ih, List.all_cons]

theorem nestedItems_eq (raws : List Raw) (n : Nat) : Raw.nestedItems raws n = raws.all fun raw => raw.nested n := by
  induction raws with
  | nil => rfl
  | cons raw raws ih => rw [Raw.nestedItems, ih, List.all_cons]

theorem all_congr_mem {α : Type} {p q : α → Bool} {l l' : List α} (hmem : ∀ a, a ∈ l ↔ a ∈ l')
    (h : ∀ a ∈ l', p a = q a) : l.all p = l'.all q := by
  rw [Bool.eq_iff_iff, List.all_eq_true, List.all_eq_true]
  apply forall_congr'
  intro a
  rw [hmem a]
  exact imp_congr_right fun ha => by rw [h a ha]

/-- Order makes no difference to the shape of a tree. -/
theorem alike_ordered (showFloat : φ → List Char) (value : Value φ) :
    Alike (value.ordered.raw showFloat) (value.raw showFloat) := by
  induction value using Value.parts_induction with
  | array items ih =>
    rw [Value.ordered_array, Value.raw, Value.raw, Value.rawItems_eq, Value.rawItems_eq]
    constructor
    · rw [Raw.distinct, Raw.distinct, distinctItems_eq, distinctItems_eq, List.all_map, List.all_map, List.all_map]
      exact all_congr_mem (fun _ => Iff.rfl) fun item hitem => (ih item hitem).1
    · intro n
      cases n with
      | zero => rfl
      | succ n =>
        rw [Raw.nested, Raw.nested, nestedItems_eq, nestedItems_eq, List.all_map, List.all_map, List.all_map]
        exact all_congr_mem (fun _ => Iff.rfl) fun item hitem => (ih item hitem).2 n
  | object map ih =>
    rw [Value.ordered_object, Value.raw, Value.raw, Value.rawEntries_eq, Value.rawEntries_eq]
    constructor
    · have hkeys : ((((sortByKey map).map (Prod.map id Value.ordered)).map
          (Prod.map String.toList (Value.raw showFloat))).map Prod.fst).Perm
          ((map.map (Prod.map String.toList (Value.raw showFloat))).map Prod.fst) := by
        rw [List.map_map, List.map_map, List.map_map]
        exact (List.mergeSort_perm map _).map _
      rw [Raw.distinct, Raw.distinct, distinctMembers_eq, distinctMembers_eq, List.all_map, List.all_map, List.all_map]
      congr 1
      · exact decide_eq_decide.mpr hkeys.nodup_iff
      · exact all_congr_mem (fun _ => mem_sortByKey) fun entry hentry => (ih entry hentry).1
    · intro n
      cases n with
      | zero => rfl
      | succ n =>
        rw [Raw.nested, Raw.nested, nestedMembers_eq, nestedMembers_eq, List.all_map, List.all_map, List.all_map]
        exact all_congr_mem (fun _ => mem_sortByKey) fun entry hentry => (ih entry hentry).2 n
  | _ => exact ⟨rfl, fun _ => rfl⟩

end SupraHarness.Llm
