import SupraHarness.Ansi.Params
import SupraHarness.Ansi.Style
import Mathlib.Data.Fintype.Basic
import Mathlib.Tactic.FinCases

/-!
# SGR items

An item is what a sender means by one SGR argument: a code, an underline style or a colour in one
of its spellings. It has parameters, which the scanner reads, and an effect on a style, which the
folder should have. The folder has that effect on every item whose parameters it was given, so a
style is the effect of its items one after the other, whether they came in one sequence or in
many.
-/
namespace SupraHarness.Ansi

/-- The one-parameter codes of the first sixteen palette entries. -/
def paletteCode (foreground : Bool) (index : UInt8) : UInt8 :=
  UInt8.ofNat (if index < 8 then (if foreground then 30 else 40) + index.toNat
    else (if foreground then 90 else 100) + index.toNat - 8)

theorem paletteCode_spec (foreground : Bool) {index : UInt8} (h : index < 16) :
    (paletteCode foreground index).toNat =
        (if index < 8 then (if foreground then 30 else 40) + index.toNat
          else (if foreground then 90 else 100) + index.toNat - 8) ∧
      (paletteCode foreground index).toNat ≠ 4 ∧ (paletteCode foreground index).toNat ≠ 38 ∧
      (paletteCode foreground index).toNat ≠ 48 ∧ (paletteCode foreground index).toNat ≠ 58 := by
  have hall : ∀ n : Fin 16, ∀ foreground,
      (paletteCode foreground (UInt8.ofNat n)).toNat =
        (if UInt8.ofNat n < 8 then (if foreground then 30 else 40) + (UInt8.ofNat n).toNat
          else (if foreground then 90 else 100) + (UInt8.ofNat n).toNat - 8) ∧
      (paletteCode foreground (UInt8.ofNat n)).toNat ≠ 4 ∧
      (paletteCode foreground (UInt8.ofNat n)).toNat ≠ 38 ∧
      (paletteCode foreground (UInt8.ofNat n)).toNat ≠ 48 ∧
      (paletteCode foreground (UInt8.ofNat n)).toNat ≠ 58 := by
    decide
  have hlt : index.toNat < 16 := UInt8.lt_iff_toNat_lt.1 h
  simpa using hall ⟨index.toNat, hlt⟩ foreground

/-- A number as `Writer::number` writes it. -/
def numeral (v : UInt8) : Numeral where
  bytes := number v.toNat
  digits := List.all_eq_true.1 (number_spells v.toNat v.toNat_lt).1

@[simp] theorem value_numeral (v : UInt8) : (numeral v).value = v.toNat := by
  obtain ⟨-, written, spells⟩ := number_spells v.toNat v.toNat_lt
  simp only [Numeral.value, numeral, written, if_false]
  exact spells

/-- What `paramOr0` makes of a parameter that is there. -/
def valueOf (v : Int) : Int := if v = kParamOmitted then 0 else v

theorem clamp_valueOf (v : Int) : clamp (valueOf v) = clamp v := by
  simp only [valueOf]
  split_ifs with h
  · subst h
    rfl
  · rfl

@[simp] theorem clamp_toNat (v : UInt8) : clamp (v.toNat : Int) = v := by
  have hlt := v.toNat_lt
  have hn : ¬ (v.toNat : Int) < 0 := by omega
  have hle : ¬ 255 < (v.toNat : Int) := by omega
  simp [clamp, hn, hle]

@[simp] theorem valueOf_natCast (n : Nat) : valueOf n = n := by
  have hn : ¬ (n : Int) = kParamOmitted := by simp only [kParamOmitted]; omega
  simp [valueOf, hn]

def Numeral.code (n : Numeral) : Int := valueOf n.value

/-! ## Items -/

/-- The spellings of an extended colour: `;5;n`, `;2;r;g;b`, `:5:n`, and `:2:r:g:b` with or
without a colour-space id in front of the components. -/
inductive ColorSpec where
  | indexed (n : Numeral)
  | rgb (r g b : Numeral)
  | indexedColon (n : Numeral)
  | rgbColon (space : Option Numeral) (r g b : Numeral)

inductive SgrItem where
  | code (n : Numeral) (plain : n.code ≠ 38 ∧ n.code ≠ 48 ∧ n.code ≠ 58)
  | underline (k : Numeral)
  | color (slot : Slot) (spec : ColorSpec)

def Slot.code : Slot → UInt8
  | .fg => 38
  | .bg => 48
  | .underlineColor => 58

namespace ColorSpec

def params (code : UInt8) : ColorSpec → List Param
  | .indexed n => [.plain (numeral code), .plain (numeral 5), .plain n]
  | .rgb r g b => [.plain (numeral code), .plain (numeral 2), .plain r, .plain g, .plain b]
  | .indexedColon n => [⟨numeral code, [numeral 5, n]⟩]
  | .rgbColon space r g b => [⟨numeral code, numeral 2 :: (space.toList ++ [r, g, b])⟩]

def color : ColorSpec → Color
  | .indexed n => .indexed (clamp n.code)
  | .rgb r g b => .rgb (clamp r.code) (clamp g.code) (clamp b.code)
  | .indexedColon n => .indexed (clamp n.code)
  | .rgbColon _ r g b => .rgb (clamp r.code) (clamp g.code) (clamp b.code)

end ColorSpec

namespace SgrItem

def params : SgrItem → List Param
  | .code n _ => [.plain n]
  | .underline k => [⟨numeral 4, [k]⟩]
  | .color slot spec => spec.params slot.code

def effect (style : Style) : SgrItem → Style
  | .code n _ => if n.code = 4 then { style with underline := .single } else applyCode style n.code
  | .underline k => { style with underline := underlineOf k.value }
  | .color slot spec => style.setColor slot (some spec.color)

def readings (item : SgrItem) : List Reading := item.params.map Param.reading

end SgrItem

/-! ## What the folder reads of a token -/

/-- The token of a complete SGR sequence. -/
def sgrToken (seq : Sequence) : Token := emit seq .csi 0 0 0x6D

variable {seq : Sequence} {rs post : List Reading} {i : Nat}

theorem paramOr0_sgr (h : seq.Collected rs) {r : Reading} (hi : rs[i]? = some r) :
    paramOr0 (sgrToken seq) i = valueOf r.1 := by
  have hlt := (List.getElem?_eq_some_iff.1 hi).1
  have hp : (seq.params[i]?).getD 0 = r.1 := (h.readings i r hi).param
  have hn : ¬ seq.paramCount ≤ i := by
    rw [h.paramCount]
    omega
  simp only [paramOr0, sgrToken, emit, hn, if_false, hp, valueOf]

theorem subparamCount_sgr (h : seq.Collected rs) {r : Reading} (hi : rs[i]? = some r) :
    ((sgrToken seq).subparamCount[i]?).getD 0 = r.2.length :=
  (h.readings i r hi).count

theorem subparam_sgr (h : seq.Collected rs) {r : Reading} (hi : rs[i]? = some r) {k : Nat} {v : Int}
    (hk : r.2[k]? = some v) :
    ((sgrToken seq).subparams[((sgrToken seq).subparamIndex[i]?).getD 0 + k]?).getD 0 = v :=
  (h.readings i r hi).sub k v hk

theorem paramCount_sgr (h : seq.Collected rs) : (sgrToken seq).paramCount = rs.length :=
  h.paramCount

/-- The readings from parameter `i` on start with these. -/
def StartsAt (rs : List Reading) (i : Nat) (readings : List Reading) : Prop :=
  ∀ k r, readings[k]? = some r → rs[i + k]? = some r

theorem StartsAt.lt {readings : List Reading} {k : Nat} (h : StartsAt rs i readings)
    (hk : k < readings.length) : i + k < rs.length :=
  (List.getElem?_eq_some_iff.1 (h k readings[k] (List.getElem?_eq_getElem hk))).1

/-- In the semicolon form the components are parameters of their own. -/
theorem readExtendedColor_separate (h : seq.Collected rs) {code : Int} {mode : Reading}
    (h0 : rs[i]? = some (code, [])) (h1 : rs[i + 1]? = some mode) :
    readExtendedColor (sgrToken seq) i =
      if valueOf mode.1 = 5 then
        if rs.length ≤ i + 2 then (none, 2)
        else (some (.indexed (clamp (paramOr0 (sgrToken seq) (i + 2)))), 3)
      else if valueOf mode.1 = 2 then
        if rs.length ≤ i + 4 then (none, rs.length - i)
        else
          (some (.rgb (clamp (paramOr0 (sgrToken seq) (i + 2)))
            (clamp (paramOr0 (sgrToken seq) (i + 3)))
            (clamp (paramOr0 (sgrToken seq) (i + 4)))), 5)
      else (none, 2) := by
  have hcount := subparamCount_sgr h h0
  have hlt := (List.getElem?_eq_some_iff.1 h1).1
  have hn : ¬ rs.length ≤ i + 1 := by omega
  simp only [readExtendedColor, hcount, List.length_nil, Nat.lt_irrefl, if_false,
    paramCount_sgr h, hn, paramOr0_sgr h h1]

/-- In the colon form everything is in the sub-parameters. -/
theorem readExtendedColor_colon (h : seq.Collected rs) {code mode : Int} {args : List Int}
    (h0 : rs[i]? = some (code, mode :: args)) :
    readExtendedColor (sgrToken seq) i =
      (if mode = 5 ∧ 1 ≤ args.length then some (.indexed (clamp (args.getD 0 0)))
      else if mode = 2 then
        if 4 ≤ args.length then
          some (.rgb (clamp (args.getD 1 0)) (clamp (args.getD 2 0)) (clamp (args.getD 3 0)))
        else if args.length = 3 then
          some (.rgb (clamp (args.getD 0 0)) (clamp (args.getD 1 0)) (clamp (args.getD 2 0)))
        else none
      else none, 1) := by
  have hcount := subparamCount_sgr h h0
  have hmode := subparam_sgr h h0 (k := 0) rfl
  have harg : ∀ k < args.length,
      ((sgrToken seq).subparams[((sgrToken seq).subparamIndex[i]?).getD 0 + (k + 1)]?).getD 0 =
        args.getD k 0 := by
    intro k hk
    rw [subparam_sgr h h0 (k := k + 1) (v := args[k]) (by simp [hk])]
    simp [hk]
  simp only [List.length_cons] at hcount
  simp only [readExtendedColor, hcount, hmode, Nat.succ_pos, if_true]
  by_cases h5 : mode = 5 ∧ 1 ≤ args.length
  · have h5' : mode = 5 ∧ 2 ≤ args.length + 1 := ⟨h5.1, by omega⟩
    rw [if_pos h5', if_pos h5, harg 0 (by omega)]
  · have h5' : ¬ (mode = 5 ∧ 2 ≤ args.length + 1) := fun hm => h5 ⟨hm.1, by omega⟩
    rw [if_neg h5', if_neg h5]
    by_cases h2 : mode = 2
    · rw [if_pos h2, if_pos h2]
      by_cases h4 : 4 ≤ args.length
      · have h4' : 5 ≤ args.length + 1 := by omega
        rw [if_pos h4, if_pos h4', if_pos (by omega), harg 1 (by omega), harg 2 (by omega),
          harg 3 (by omega)]
      · have h4' : ¬ 5 ≤ args.length + 1 := by omega
        rw [if_neg h4, if_neg h4']
        by_cases h3 : args.length = 3
        · rw [if_pos h3, if_pos (by omega), harg 0 (by omega), harg 1 (by omega),
            harg 2 (by omega)]
        · rw [if_neg h3, if_neg (by omega)]
    · rw [if_neg h2, if_neg h2]

theorem readExtendedColor_spec (h : seq.Collected rs) (code : UInt8) (spec : ColorSpec)
    (hs : StartsAt rs i ((spec.params code).map Param.reading)) :
    readExtendedColor (sgrToken seq) i = (some spec.color, (spec.params code).length) := by
  cases spec with
  | indexed n =>
    have h0 : rs[i]? = _ := hs 0 _ rfl
    have hlt := hs.lt (k := 2) (by simp [ColorSpec.params])
    have hn : ¬ rs.length ≤ i + 2 := by omega
    rw [readExtendedColor_separate h h0 (hs 1 _ rfl), paramOr0_sgr h (hs 2 _ rfl)]
    have hmode : valueOf 5 = 5 := rfl
    simp [Param.reading, Param.plain, hn, hmode, ColorSpec.color, ColorSpec.params, Numeral.code]
  | rgb r g b =>
    have h0 : rs[i]? = _ := hs 0 _ rfl
    have hlt := hs.lt (k := 4) (by simp [ColorSpec.params])
    have hn : ¬ rs.length ≤ i + 4 := by omega
    rw [readExtendedColor_separate h h0 (hs 1 _ rfl), paramOr0_sgr h (hs 2 _ rfl),
      paramOr0_sgr h (hs 3 _ rfl), paramOr0_sgr h (hs 4 _ rfl)]
    have hmode : valueOf 2 = 2 := rfl
    simp [Param.reading, Param.plain, hn, hmode, ColorSpec.color, ColorSpec.params, Numeral.code]
  | indexedColon n =>
    have h0 : rs[i]? = _ := hs 0 _ rfl
    rw [readExtendedColor_colon h h0]
    simp [ColorSpec.color, ColorSpec.params, Numeral.code, clamp_valueOf]
  | rgbColon space r g b =>
    have h0 : rs[i]? = _ := hs 0 _ rfl
    cases space with
    | none =>
      rw [readExtendedColor_colon h h0]
      simp [ColorSpec.color, ColorSpec.params, Numeral.code, clamp_valueOf]
    | some space =>
      rw [readExtendedColor_colon h h0]
      simp [ColorSpec.color, ColorSpec.params, Numeral.code, clamp_valueOf]

/-! ## The loop over the parameters -/

/-- A pass more than there are parameters changes nothing. -/
theorem applyLoop_enough (token : Token) {passes passes' i : Nat} (style : Style)
    (h : token.paramCount ≤ passes + i) (h' : token.paramCount ≤ passes' + i) :
    applyLoop token passes i style = applyLoop token passes' i style := by
  induction passes generalizing passes' i style with
  | zero =>
    have hn : ¬ i < token.paramCount := by omega
    cases passes' with
    | zero => rfl
    | succ passes' => simp [applyLoop, hn]
  | succ passes ih =>
    cases passes' with
    | zero =>
      have hn : ¬ i < token.paramCount := by omega
      simp [applyLoop, hn]
    | succ passes' =>
      simp only [applyLoop]
      split_ifs
      · exact ih _ (by omega) (by omega)
      · exact ih _ (by omega) (by omega)
      · rfl

/-- What the passes from parameter `i` on make of a style. -/
def applyFrom (token : Token) (i : Nat) (style : Style) : Style :=
  applyLoop token token.paramCount i style

theorem applyFrom_end {token : Token} {i : Nat} (h : token.paramCount ≤ i) (style : Style) :
    applyFrom token i style = style := by
  have hn : ¬ i < token.paramCount := by omega
  rw [applyFrom]
  cases token.paramCount with
  | zero => rfl
  | succ n => simp [applyLoop, hn]

theorem applyFrom_step {token : Token} {i : Nat} (hi : i < token.paramCount) {style style' : Style}
    {step : Nat} (h : applyParam token style i = (style', step + 1)) :
    applyFrom token i style = applyFrom token (i + (step + 1)) style' := by
  obtain ⟨n, hn⟩ : ∃ n, token.paramCount = n + 1 := ⟨token.paramCount - 1, by omega⟩
  have hpass : applyLoop token (n + 1) i style = applyLoop token n (i + (step + 1)) style' := by
    simp [applyLoop, hi, h]
  rw [applyFrom, hn, hpass, applyFrom]
  exact applyLoop_enough token style' (by omega) (by omega)

theorem applyParam_color {slot : Slot} {token : Token} {i : Nat}
    (hp : paramOr0 token i = (slot.code.toNat : Int)) (style : Style) :
    applyParam token style i =
      (style.setColor slot (readExtendedColor token i).1, (readExtendedColor token i).2) := by
  cases slot <;> simp [applyParam, hp, Slot.code]

theorem applyParam_code (h : seq.Collected rs) {n : Numeral}
    (plain : n.code ≠ 38 ∧ n.code ≠ 48 ∧ n.code ≠ 58)
    (hi : rs[i]? = some (Param.plain n).reading) (style : Style) :
    applyParam (sgrToken seq) style i = ((SgrItem.code n plain).effect style, 1) := by
  have hp := paramOr0_sgr h hi
  have hcount := subparamCount_sgr h hi
  simp only [Param.reading, Param.plain, List.map_nil, List.length_nil] at hp hcount
  have hcode : valueOf n.value = n.code := rfl
  simp only [applyParam, hp, hcode, hcount, plain.1, plain.2.1, plain.2.2, SgrItem.effect,
    Nat.lt_irrefl, if_false]
  split_ifs <;> rfl

theorem applyParam_underline (h : seq.Collected rs) {k : Numeral}
    (hi : rs[i]? = some (Param.mk (numeral 4) [k]).reading) (style : Style) :
    applyParam (sgrToken seq) style i = ((SgrItem.underline k).effect style, 1) := by
  have hp := paramOr0_sgr h hi
  have hcount := subparamCount_sgr h hi
  have hsub := subparam_sgr h hi (k := 0) rfl
  have hcode : valueOf 4 = 4 := rfl
  simp only [Param.reading, value_numeral, List.map_cons, List.map_nil, List.length_cons,
    List.length_nil, Nat.add_zero] at hp hcount hsub
  simp [applyParam, hp, hcode, hcount, hsub, SgrItem.effect]

/-- One item is one pass: its effect, and the loop is behind it. -/
theorem applyFrom_item (h : seq.Collected rs) (item : SgrItem) (hs : StartsAt rs i item.readings)
    (style : Style) :
    applyFrom (sgrToken seq) i style =
      applyFrom (sgrToken seq) (i + item.params.length) (item.effect style) := by
  have hne : ∃ n, item.params.length = n + 1 := by
    cases item with
    | code n plain => exact ⟨0, rfl⟩
    | underline k => exact ⟨0, rfl⟩
    | color slot spec => cases spec <;> exact ⟨_, rfl⟩
  obtain ⟨n, hn⟩ := hne
  have hi : i < (sgrToken seq).paramCount := by
    rw [paramCount_sgr h]
    exact hs.lt (k := 0) (by simp [SgrItem.readings, hn])
  rw [hn]
  apply applyFrom_step hi
  rw [← hn]
  cases item with
  | code n plain => exact applyParam_code h plain (hs 0 _ rfl) style
  | underline k => exact applyParam_underline h (hs 0 _ rfl) style
  | color slot spec =>
    have h0 : ∃ subs, rs[i]? = some ((slot.code.toNat : Int), subs) := by
      have hread := hs 0
      cases spec <;>
        exact ⟨_, by simpa [SgrItem.readings, SgrItem.params, ColorSpec.params, Param.reading,
          Param.plain] using hread⟩
    obtain ⟨subs, h0⟩ := h0
    have hp : paramOr0 (sgrToken seq) i = (slot.code.toNat : Int) := by
      rw [paramOr0_sgr h h0, valueOf_natCast]
    rw [applyParam_color hp, readExtendedColor_spec h slot.code spec hs]
    rfl

theorem startsAt_append (pre readings post : List Reading) :
    StartsAt (pre ++ (readings ++ post)) pre.length readings := by
  intro k r hk
  have hlt := (List.getElem?_eq_some_iff.1 hk).1
  rw [List.getElem?_append_right (Nat.le_add_right _ _), Nat.add_sub_cancel_left,
    List.getElem?_append_left hlt, hk]

/-- What items do to a style, one after the other. -/
def effects (style : Style) (items : List SgrItem) : Style := items.foldl SgrItem.effect style

def itemParams (items : List SgrItem) : List Param := items.flatMap SgrItem.params

theorem itemReadings (items : List SgrItem) :
    (itemParams items).map Param.reading = items.flatMap SgrItem.readings := by
  rw [itemParams, List.map_flatMap]
  rfl

theorem applyFrom_items (items : List SgrItem) (pre : List Reading) {post : List Reading}
    (h : seq.Collected (pre ++ (items.flatMap SgrItem.readings ++ post))) (style : Style) :
    applyFrom (sgrToken seq) pre.length style =
      applyFrom (sgrToken seq) (pre.length + (itemParams items).length) (effects style items) := by
  induction items generalizing pre style with
  | nil => rfl
  | cons item items ih =>
    have hsplit : pre ++ ((item :: items).flatMap SgrItem.readings ++ post) =
        pre ++ item.readings ++ (items.flatMap SgrItem.readings ++ post) := by
      simp
    have hs := startsAt_append pre item.readings (items.flatMap SgrItem.readings ++ post)
    rw [← List.append_assoc, ← hsplit] at hs
    rw [applyFrom_item h item hs]
    rw [hsplit] at h
    have hrest := ih _ h (item.effect style)
    simp only [List.length_append, SgrItem.readings, List.length_map] at hrest
    rw [hrest]
    simp [itemParams, effects, Nat.add_assoc]

/-- The folder has the effects of the items whose parameters it was given. -/
theorem apply_items (items : List SgrItem) (hne : itemParams items ≠ []) {post : List Reading}
    (h : seq.Collected (items.flatMap SgrItem.readings ++ post)) (hi : seq.intermediateCount = 0)
    (style : Style) :
    style.apply (sgrToken seq) =
      applyFrom (sgrToken seq) (itemParams items).length (effects style items) := by
  have hrun := applyFrom_items items [] h style
  have hlen : (itemParams items).length ≤ (sgrToken seq).paramCount := by
    rw [paramCount_sgr h, ← itemReadings]
    simp
  have hpos := List.length_pos_iff.2 hne
  have hcount : ¬ (sgrToken seq).paramCount = 0 := by omega
  have hsgr : ¬ ((sgrToken seq).kind ≠ .csi ∨ (sgrToken seq).finalByte ≠ 0x6D ∨
      (sgrToken seq).intermediateCount ≠ 0) := by
    simp [sgrToken, emit, hi]
  rw [Style.apply, if_neg hsgr, if_neg hcount]
  simpa [applyFrom] using hrun

/-! ## Scanning and folding -/

/-- A scanner between two sequences and between two buffers. -/
structure Scanner.Idle (sc : Scanner) : Prop where
  state : sc.state = .ground
  bufferDone : sc.bufferDone = false
  pos : sc.pos = 0

theorem idle_init : Scanner.init.Idle := ⟨rfl, rfl, rfl⟩

/-- What an observed item does to a style. -/
def foldItem (style : Style) : Item → Style
  | .text _ => style
  | .token body => style.fold body

theorem applyLoop_unplaced (t : Token) (passes i : Nat) (style : Style) :
    applyLoop { t with offset := 0, length := 0 } passes i style = applyLoop t passes i style := by
  induction passes generalizing i style with
  | zero => rfl
  | succ passes ih =>
    have hparam : applyParam { t with offset := 0, length := 0 } style i = applyParam t style i := rfl
    simp only [applyLoop, hparam, ih]

/-- Only what is observed of a token matters to a style. -/
theorem foldl_observe (bytes : List UInt8) (t : Token) (style : Style) :
    (observe bytes t).foldl foldItem style = style.fold t := by
  have htext : ∀ (bytes : List UInt8) style, (bytes.map Item.text).foldl foldItem style = style := by
    intro bytes style
    induction bytes with
    | nil => rfl
    | cons byte bytes ih => exact ih
  have hfold : style.fold { t with offset := 0, length := 0 } = style.fold t := by
    simp only [Style.fold, Style.apply, applyLoop_unplaced, Style.applyOsc]
  have hother (hc : t.kind ≠ .csi) (ho : t.kind ≠ .osc) : style.fold t = style := by
    simp [Style.fold, Style.apply, Style.applyOsc, hc, ho]
  cases hk : t.kind with
  | text =>
    rw [hother (by simp [hk]) (by simp [hk])]
    simp only [observe, hk]
    exact htext _ _
  | part => simp [observe, hk, hother]
  | _ => simpa [observe, hk, foldItem] using hfold

theorem foldl_observe_all (bytes : List UInt8) (tokens : List Token) (style : Style) :
    (tokens.flatMap (observe bytes)).foldl foldItem style = tokens.foldl Style.fold style := by
  induction tokens generalizing style with
  | nil => rfl
  | cons t tokens ih => rw [List.flatMap_cons, List.foldl_append, foldl_observe, ih, List.foldl_cons]

/-- One sequence in a buffer of its own: its token is applied, and the scanner is idle again. -/
theorem foldBytes_sgr {sc : Scanner} (h : sc.Idle) {ps : List Param} (hne : ps ≠ []) (eof : Eof)
    (style : Style) :
    ∃ sc', sc'.Idle ∧
      foldBytes sc style (sgr ps) eof = some (sc', style.apply (sgrToken (collected sc.seq ps))) := by
  have hready : sc.Ready (sgr ps) := ⟨h.bufferDone, by rw [h.pos]; exact Nat.zero_le _, fun _ => h.pos⟩
  obtain ⟨tokens, sc', hdrain, hpos, hdone, -, hfeed⟩ :=
    drain_spec ((sgr ps).length + 2) eof hready (by omega)
  obtain ⟨c', hground, hrun⟩ := run_sgr sc.core h.state hne
  have hall : sc.core.feed (sgr ps) eof = (c'.boundary, [.token (sgrToken (collected sc.seq ps))]) := by
    simp only [Core.feed, Core.run, hrun]
    cases eof with
    | more => rfl
    | final => simp [Core.closed, Core.atEnd, Core.boundary, hground]; rfl
  rw [h.pos, List.drop_zero, hall, Prod.mk.injEq] at hfeed
  refine ⟨sc', ⟨?_, hdone, hpos⟩, ?_⟩
  · have hstate : sc'.state = c'.state := (congrArg Core.state hfeed.1).symm
    rw [hstate, hground]
  · rw [foldBytes, hdrain, Option.map_some, ← foldl_observe_all (sgr ps), ← hfeed.2]
    rfl

theorem collected_spec (seq : Sequence) (ps : List Param) (hs : subTotal ps ≤ maxSubparams)
    (hplain : ∀ p ∈ ps.drop maxParams, p.subs = []) :
    (collected seq ps).Collected ((ps.take maxParams).map Param.reading) := by
  have hclear : (clearSequence seq).subparamTotal = 0 := rfl
  have hall := collect_all ps (collected_clear seq) (by omega) hplain
  simpa [collected] using hall

theorem collected_intermediateCount (seq : Sequence) (ps : List Param) :
    (collected seq ps).intermediateCount = 0 := by
  have hcollect : ∀ (ps : List Param) seq, (ps.foldl collect seq).intermediateCount =
      seq.intermediateCount := by
    intro ps
    induction ps with
    | nil => exact fun _ => rfl
    | cons p ps ih =>
      intro seq
      have hend : ∀ seq, (endParam seq).intermediateCount = seq.intermediateCount := by
        intro seq
        simp only [endParam]
        split_ifs <;> rfl
      have hbegin : (beginParam seq).intermediateCount = seq.intermediateCount := by
        simp only [beginParam]
        split_ifs <;> rfl
      rw [List.foldl_cons, ih, collect, hend, foldl_pushByte_intermediateCount, hbegin]
  rw [collected, hcollect]
  rfl

/-- A sequence of items within the capacities has their effects. -/
theorem foldBytes_items {sc : Scanner} (h : sc.Idle) (style : Style) (eof : Eof)
    (items : List SgrItem) (hne : itemParams items ≠ [])
    (hp : (itemParams items).length ≤ maxParams) (hs : subTotal (itemParams items) ≤ maxSubparams) :
    ∃ sc', sc'.Idle ∧
      foldBytes sc style (sgr (itemParams items)) eof = some (sc', effects style items) := by
  obtain ⟨sc', hidle, hfold⟩ := foldBytes_sgr h hne eof style
  refine ⟨sc', hidle, ?_⟩
  have hc := collected_spec sc.seq (itemParams items) hs (by simp [List.drop_eq_nil_of_le hp])
  rw [List.take_of_length_le hp, itemReadings, ← List.append_nil (items.flatMap _)] at hc
  rw [hfold, apply_items items hne hc (collected_intermediateCount _ _), applyFrom_end]
  rw [paramCount_sgr hc, List.append_nil, ← itemReadings, List.length_map]

theorem item_params_ne (item : SgrItem) : item.params ≠ [] := by
  cases item with
  | color slot spec => cases spec <;> simp [SgrItem.params, ColorSpec.params]
  | _ => simp [SgrItem.params]

theorem item_capacities (item : SgrItem) :
    item.params.length ≤ maxParams ∧ subTotal item.params ≤ maxSubparams := by
  cases item with
  | color slot spec =>
    cases spec with
    | rgbColon space r g b =>
      cases space <;> simp [SgrItem.params, ColorSpec.params, maxParams, maxSubparams]
    | _ => simp [SgrItem.params, ColorSpec.params, Param.plain, maxParams, maxSubparams]
  | _ => simp [SgrItem.params, Param.plain, maxParams, maxSubparams]

/-- One sequence after the other, each with one item. -/
theorem foldEach_items {sc : Scanner} (h : sc.Idle) (style : Style) (eof : Eof)
    (items : List SgrItem) :
    ∃ sc', sc'.Idle ∧
      foldEach sc style (items.map fun item => sgr item.params) eof =
        some (sc', effects style items) := by
  induction items generalizing sc style with
  | nil => exact ⟨sc, h, rfl⟩
  | cons item items ih =>
    have hitem : itemParams [item] = item.params := by simp [itemParams]
    obtain ⟨sc', hidle, hfold⟩ := foldBytes_items h style eof [item]
      (by rw [hitem]; exact item_params_ne item) (by rw [hitem]; exact (item_capacities item).1)
      (by rw [hitem]; exact (item_capacities item).2)
    rw [hitem] at hfold
    obtain ⟨sc'', hidle', hrest⟩ := ih hidle (effects style [item])
    refine ⟨sc'', hidle', ?_⟩
    rw [foldEach, List.map_cons, List.foldlM_cons, hfold]
    exact hrest

/-- Bold and underlined. -/
example :
    (foldBytes Scanner.init Style.default (sgr (itemParams [.code (numeral 1) (by decide), .underline (numeral 1)]))
        .final).map Prod.snd = some { Style.default with attrs := .bold, underline := .single } := by
  decide +kernel

/-- Items within the scanner's capacities mean the same in one sequence as in one sequence each. -/
theorem fold_together {sc : Scanner} (h : sc.Idle) (style : Style) (eof : Eof)
    {items : List SgrItem} (hne : items ≠ []) (hp : (itemParams items).length ≤ maxParams)
    (hs : subTotal (itemParams items) ≤ maxSubparams) :
    ∃ style', (foldBytes sc style (sgr (itemParams items)) eof).map Prod.snd = some style' ∧
      (foldEach sc style (items.map fun item => sgr item.params) eof).map Prod.snd =
        some style' := by
  have hne' : itemParams items ≠ [] := by
    obtain ⟨item, items, rfl⟩ := List.exists_cons_of_ne_nil hne
    simp [itemParams, item_params_ne]
  obtain ⟨_, -, hone⟩ := foldBytes_items h style eof items hne' hp hs
  obtain ⟨_, -, heach⟩ := foldEach_items h style eof items
  refine ⟨effects style items, ?_, ?_⟩
  · rw [hone, Option.map_some]
  · rw [heach, Option.map_some]

/-- `38:2::r:g:b`, with the colour-space id left empty. -/
def colonRgb (slot : Slot) (r g b : UInt8) : SgrItem :=
  .color slot (.rgbColon (some ⟨[], by simp⟩) (numeral r) (numeral g) (numeral b))

/-- An underline style and a colour, both with sub-parameters. -/
theorem fold_together_curly_and_colour :
    ∃ style', (foldBytes Scanner.init Style.default
          (sgr (itemParams [.underline (numeral 3), colonRgb .fg 1 2 3])) .final).map Prod.snd =
        some style' ∧
      (foldEach Scanner.init Style.default
          ([.underline (numeral 3), colonRgb .fg 1 2 3].map fun item => sgr item.params)
          .final).map Prod.snd = some style' :=
  fold_together idle_init Style.default .final (by simp) (by decide) (by decide)

/-- Ten sub-parameters: those of the second colour do not all fit. -/
theorem sub_parameters_overflow :
    let items := [colonRgb .fg 1 2 3, colonRgb .bg 4 5 6]
    (itemParams items).length ≤ maxParams ∧
      (foldBytes Scanner.init Style.default (sgr (itemParams items)) .final).map Prod.snd ≠
        (foldEach Scanner.init Style.default (items.map fun item => sgr item.params) .final).map
          Prod.snd := by
  decide +kernel

/-! ## The items of a style -/

/-- A code that is not the first parameter of an extended colour. -/
def codeItem (v : UInt8) (h : v.toNat ≠ 38 ∧ v.toNat ≠ 48 ∧ v.toNat ≠ 58) : SgrItem :=
  .code (numeral v) (by
    simp only [Numeral.code, value_numeral, valueOf_natCast]
    exact_mod_cast h)

def attrItems (attrs : Attrs) : List SgrItem :=
  [(codeItem 1 (by decide), Attrs.bold), (codeItem 2 (by decide), .dim),
    (codeItem 3 (by decide), .italic), (codeItem 5 (by decide), .blink),
    (codeItem 7 (by decide), .inverse), (codeItem 8 (by decide), .hidden),
    (codeItem 9 (by decide), .strike), (codeItem 53 (by decide), .overline)].flatMap
    fun a => if attrs &&& a.2 ≠ 0 then [a.1] else []

def underlineItems : Underline → List SgrItem
  | .none => []
  | .single => [codeItem 4 (by decide)]
  | underline => [.underline (numeral (UInt8.ofNat underline.sub))]

/-- The item of a colour, in the shorter spelling where the slot has one. -/
def colorItems (slot : Slot) : Color → List SgrItem
  | .default => []
  | .indexed index =>
    if h : slot ≠ .underlineColor ∧ index < 16 then
      [codeItem (paletteCode (slot = .fg) index) (paletteCode_spec _ h.2).2.2]
    else [.color slot (.indexed (numeral index))]
  | .rgb r g b => [.color slot (.rgb (numeral r) (numeral g) (numeral b))]

/-- Everything in front of the colours, the reset included. -/
def leadItems (style : Style) : List SgrItem :=
  codeItem 0 (by decide) :: (attrItems style.attrs ++ underlineItems style.underline)

def styleItems (style : Style) : List SgrItem :=
  leadItems style ++ colorItems .fg style.fg ++ colorItems .bg style.bg ++
    colorItems .underlineColor style.underlineColor

/-- The bytes of the items behind the first. -/
def tailBytes (items : List SgrItem) : List UInt8 :=
  (itemParams items).flatMap fun q => 0x3B :: q.bytes

@[simp] theorem tailBytes_append (items items' : List SgrItem) :
    tailBytes (items ++ items') = tailBytes items ++ tailBytes items' := by
  simp [tailBytes, itemParams]

/-- The items that a style of these attributes has of a table. -/
def chosen (attrs : Attrs) (table : List (SgrItem × Attrs)) : List SgrItem :=
  table.flatMap fun a => if attrs &&& a.2 ≠ 0 then [a.1] else []

theorem tailBytes_chosen (attrs : Attrs) (table : List (SgrItem × Attrs)) :
    tailBytes (chosen attrs table) = (table.map fun a => (tailBytes [a.1], a.2)).flatMap
      fun a => if attrs &&& a.2 ≠ 0 then a.1 else [] := by
  induction table with
  | nil => rfl
  | cons a table ih =>
    rw [chosen, List.flatMap_cons, tailBytes_append, ← chosen, ih, List.map_cons, List.flatMap_cons]
    congr 1
    split
    · rfl
    · rfl

theorem tailBytes_attrItems (attrs : Attrs) : tailBytes (attrItems attrs) = emitAttrs attrs := by
  rw [attrItems, ← chosen, tailBytes_chosen]
  rfl

theorem tailBytes_underlineItems (underline : Underline) :
    tailBytes (underlineItems underline) = emitUnderline underline := by
  cases underline <;> rfl

@[simp] theorem tailBytes_codeItem (v : UInt8) (h : v.toNat ≠ 38 ∧ v.toNat ≠ 48 ∧ v.toNat ≠ 58) :
    tailBytes [codeItem v h] = 0x3B :: number v.toNat := by
  simp [tailBytes, itemParams, codeItem, SgrItem.params, Param.plain, Param.bytes, numeral]

theorem tailBytes_indexed (slot : Slot) (index : UInt8) :
    tailBytes [.color slot (.indexed (numeral index))] =
      0x3B :: emitIndexed slot.code.toNat index := by
  have h5 : number 5 = [0x35] := rfl
  simp [tailBytes, itemParams, SgrItem.params, ColorSpec.params, Param.plain, Param.bytes, numeral,
    emitIndexed, h5]

theorem tailBytes_rgb (slot : Slot) (r g b : UInt8) :
    tailBytes [.color slot (.rgb (numeral r) (numeral g) (numeral b))] =
      0x3B :: emitRgb slot.code.toNat r g b := by
  have h2 : number 2 = [0x32] := rfl
  simp [tailBytes, itemParams, SgrItem.params, ColorSpec.params, Param.plain, Param.bytes, numeral,
    emitRgb, h2]

theorem tailBytes_palette (slot : Slot) (hs : slot ≠ .underlineColor) (index : UInt8) :
    tailBytes (colorItems slot (.indexed index)) =
      0x3B :: emitColor (.indexed index) (slot = .fg) := by
  by_cases h : index < 16
  · rw [colorItems, dif_pos ⟨hs, h⟩, tailBytes_codeItem, (paletteCode_spec _ h).1]
    simp only [emitColor, h, if_true]
    split_ifs <;> rfl
  · have h8 : ¬ index < 8 := by
      simp only [UInt8.lt_iff_toNat_lt] at h ⊢
      simp at h ⊢
      omega
    rw [colorItems, dif_neg (fun hp => h hp.2), tailBytes_indexed]
    cases slot with
    | fg => simp [emitColor, h, h8, Slot.code]
    | bg => simp [emitColor, h, h8, Slot.code]
    | underlineColor => exact absurd rfl hs

theorem tailBytes_colorItems (slot : Slot) (hs : slot ≠ .underlineColor) (color : Color) :
    tailBytes (colorItems slot color) =
      if color ≠ .default then 0x3B :: emitColor color (slot = .fg) else [] := by
  cases color with
  | default => rfl
  | indexed index => rw [tailBytes_palette slot hs, if_pos (by simp)]
  | rgb r g b =>
    rw [colorItems, tailBytes_rgb, if_pos (by simp)]
    cases slot with
    | fg => rfl
    | bg => rfl
    | underlineColor => exact absurd rfl hs

theorem tailBytes_underlineColor (color : Color) :
    tailBytes (colorItems .underlineColor color) = emitUnderlineColor color := by
  cases color with
  | default => rfl
  | indexed index =>
    rw [colorItems, dif_neg (by simp), tailBytes_indexed]
    rfl
  | rgb r g b =>
    rw [colorItems, tailBytes_rgb]
    rfl

theorem emit_eq {style : Style} (h : style.isDefault = false) :
    style.emit = sgr (itemParams (styleItems style)) := by
  have hbody : body (itemParams (styleItems style)) =
      0x30 :: tailBytes (attrItems style.attrs ++ underlineItems style.underline ++
        colorItems .fg style.fg ++ colorItems .bg style.bg ++
        colorItems .underlineColor style.underlineColor) := by
    simp [styleItems, leadItems, itemParams, body, tailBytes, codeItem, SgrItem.params, Param.plain,
      Param.bytes, numeral, number]
  rw [Style.emit, if_neg (by simp [h]), sgr, hbody]
  simp only [tailBytes_append, tailBytes_attrItems, tailBytes_underlineItems,
    tailBytes_colorItems .fg (by simp), tailBytes_colorItems .bg (by simp),
    tailBytes_underlineColor]
  simp

/-! ## The effect of the items of a style -/

theorem effects_chosen {style : Style} (attrs set : Attrs) (table : List (SgrItem × Attrs))
    (h : ∀ a ∈ table, ∀ set, a.1.effect { style with attrs := set } = { style with attrs := set ||| a.2 }) :
    effects { style with attrs := set } (chosen attrs table) = { style with
      attrs := (table.map Prod.snd).foldl
        (fun set mask => if attrs &&& mask ≠ 0 then set ||| mask else set) set } := by
  induction table generalizing set with
  | nil => rfl
  | cons a table ih =>
    obtain ⟨first, rest⟩ := List.forall_mem_cons.1 h
    rw [chosen, List.flatMap_cons, ← chosen, effects, List.foldl_append, ← effects, List.map_cons, List.foldl_cons]
    split
    · rw [List.foldl_cons, List.foldl_nil, first, ih _ rest]
    · exact ih _ rest

theorem effects_attrItems (attrs : Attrs) :
    effects Style.default (attrItems attrs) = { Style.default with attrs := attrs } := by
  have hone := @effects_chosen Style.default attrs 0
  rw [attrItems, ← chosen]
  refine (hone _ ?_).trans (congrArg (fun set => { Style.default with attrs := set }) (union_attrs attrs.toFin))
  simp only [List.forall_mem_cons]
  exact ⟨fun _ => rfl, fun _ => rfl, fun _ => rfl, fun _ => rfl, fun _ => rfl, fun _ => rfl, fun _ => rfl,
    fun _ => rfl, nofun⟩

theorem effects_underlineItems (underline : Underline) (style : Style) (h : style.underline = .none) :
    effects style (underlineItems underline) = { style with underline := underline } := by
  cases underline with
  | none =>
    cases style
    cases h
    rfl
  | _ => rfl

theorem applyCode_palette (style : Style) (slot : Slot) (hs : slot ≠ .underlineColor) {index : UInt8}
    (h : index < 16) :
    applyCode style ((paletteCode (slot = .fg) index).toNat : Int) =
      style.setColor slot (some (.indexed index)) := by
  have hall : ∀ n : Fin 16,
      applyCode style ((paletteCode (slot = .fg) (UInt8.ofNat n)).toNat : Int) =
        style.setColor slot (some (.indexed (UInt8.ofNat n))) := by
    intro n
    cases slot with
    | fg => fin_cases n <;> rfl
    | bg => fin_cases n <;> rfl
    | underlineColor => exact absurd rfl hs
  have hlt : index.toNat < 16 := UInt8.lt_iff_toNat_lt.1 h
  simpa using hall ⟨index.toNat, hlt⟩

theorem effects_colorItems (slot : Slot) (color : Color) (style : Style)
    (h : style.setColor slot (some .default) = style) :
    effects style (colorItems slot color) = style.setColor slot (some color) := by
  cases color with
  | default => exact h.symm
  | indexed index =>
    simp only [colorItems]
    split_ifs with hp
    · have h4 : ((paletteCode (slot = .fg) index).toNat : Int) ≠ 4 := by
        exact_mod_cast (paletteCode_spec (slot = .fg) hp.2).2.1
      simp only [effects, List.foldl_cons, List.foldl_nil, SgrItem.effect, codeItem, Numeral.code,
        value_numeral, valueOf_natCast, h4, if_false]
      exact applyCode_palette style slot hp.1 hp.2
    · simp [effects, SgrItem.effect, ColorSpec.color, Numeral.code]
  | rgb r g b => simp [colorItems, effects, SgrItem.effect, ColorSpec.color, Numeral.code]

theorem effects_append (style : Style) (items items' : List SgrItem) :
    effects style (items ++ items') = effects (effects style items) items' := by
  simp [effects]

theorem effects_leadItems (style : Style) :
    effects Style.default (leadItems style) =
      { Style.default with attrs := style.attrs, underline := style.underline } := by
  have hreset : effects Style.default (leadItems style) =
      effects Style.default (attrItems style.attrs ++ underlineItems style.underline) := rfl
  rw [hreset, effects_append, effects_attrItems, effects_underlineItems _ _ rfl]

theorem effects_foreground (style : Style) :
    effects Style.default (leadItems style ++ colorItems .fg style.fg) =
      { Style.default with attrs := style.attrs, underline := style.underline, fg := style.fg } := by
  rw [effects_append, effects_leadItems, effects_colorItems _ _ _ rfl]
  rfl

theorem effects_background (style : Style) :
    effects Style.default (leadItems style ++ colorItems .fg style.fg ++ colorItems .bg style.bg) =
      { Style.default with
        attrs := style.attrs, underline := style.underline, fg := style.fg, bg := style.bg } := by
  rw [effects_append, effects_foreground, effects_colorItems _ _ _ rfl]
  rfl

/-- A style is what its items make of the default style. -/
theorem effects_styleItems (style : Style) :
    effects Style.default (styleItems style) = { style with hyperlinkOpen := false } := by
  rw [styleItems, effects_append, effects_background, effects_colorItems _ _ _ rfl]
  rfl

/-! ## The parameters of a style -/

def Color.paramCount (slot : Slot) : Color → Nat
  | .default => 0
  | .indexed index => if slot ≠ .underlineColor ∧ index < 16 then 1 else 3
  | .rgb _ _ _ => 5

/-- How many parameters `emit` writes: the reset, the attributes, the underline, the colours. -/
def Style.paramCount (style : Style) : Nat :=
  1 + (attrTable.filter fun a => style.attrs &&& a.2 ≠ 0).length +
    (if style.underline = .none then 0 else 1) + style.fg.paramCount .fg +
    style.bg.paramCount .bg + style.underlineColor.paramCount .underlineColor

theorem itemParams_append (items items' : List SgrItem) :
    itemParams (items ++ items') = itemParams items ++ itemParams items' := by
  simp [itemParams]

theorem length_filter_snd {α β : Type} (table : List (α × β)) (p : β → Bool) :
    (table.filter fun a => p a.2).length = ((table.map Prod.snd).filter p).length := by
  rw [List.filter_map, List.length_map]
  rfl

theorem length_chosen (attrs : Attrs) (table : List (SgrItem × Attrs))
    (h : ∀ a ∈ table, a.1.params.length = 1) :
    (itemParams (chosen attrs table)).length =
      ((table.map Prod.snd).filter fun mask => attrs &&& mask ≠ 0).length := by
  induction table with
  | nil => rfl
  | cons a table ih =>
    rw [List.forall_mem_cons] at h
    rw [chosen, List.flatMap_cons, itemParams_append, List.length_append, ← chosen, ih h.2, List.map_cons,
      List.filter_cons]
    by_cases hset : attrs &&& a.2 = 0#8
    · simp [hset, itemParams]
    · simp [hset, itemParams, h.1, Nat.add_comm]

theorem length_attrItems (attrs : Attrs) :
    (itemParams (attrItems attrs)).length = (attrTable.filter fun a => attrs &&& a.2 ≠ 0).length ∧
      (itemParams (attrItems attrs)).length ≤ 8 := by
  have hlength : (itemParams (attrItems attrs)).length = (attrTable.filter fun a => attrs &&& a.2 ≠ 0).length := by
    rw [attrItems, ← chosen, length_chosen attrs _ (by decide)]
    exact (length_filter_snd attrTable fun mask => attrs &&& mask ≠ 0).symm
  exact ⟨hlength, hlength ▸ List.length_filter_le _ _⟩

theorem length_underlineItems (underline : Underline) :
    (itemParams (underlineItems underline)).length = if underline = .none then 0 else 1 := by
  cases underline <;> rfl

theorem length_colorItems (slot : Slot) (color : Color) :
    (itemParams (colorItems slot color)).length = color.paramCount slot := by
  cases color with
  | default => rfl
  | indexed index =>
    simp only [colorItems, Color.paramCount]
    split_ifs <;> rfl
  | rgb r g b => rfl

theorem length_leadItems (style : Style) :
    (itemParams (leadItems style)).length =
      1 + (attrTable.filter fun a => style.attrs &&& a.2 ≠ 0).length +
        (if style.underline = .none then 0 else 1) := by
  have hreset : (itemParams (leadItems style)).length =
      1 + (itemParams (attrItems style.attrs ++ underlineItems style.underline)).length := by
    simp [leadItems, itemParams, codeItem, SgrItem.params, Nat.add_comm]
  rw [hreset, itemParams_append, List.length_append, (length_attrItems style.attrs).1,
    length_underlineItems, Nat.add_assoc]

theorem length_leadItems_le (style : Style) : (itemParams (leadItems style)).length ≤ 10 := by
  have hattrs := length_attrItems style.attrs
  have hlead := length_leadItems style
  split_ifs at hlead <;> omega

theorem paramCount_eq (style : Style) :
    style.paramCount = (itemParams (styleItems style)).length := by
  simp only [styleItems, itemParams_append, List.length_append, length_leadItems, length_colorItems,
    Style.paramCount]

/-! ## A colour that is cut -/

/-- The first parameter of a colour with nothing behind it. -/
theorem readExtendedColor_alone (h : seq.Collected rs) {code : Int}
    (h0 : rs[i]? = some (code, [])) (hend : rs.length = i + 1) :
    readExtendedColor (sgrToken seq) i = (none, 1) := by
  have hcount := subparamCount_sgr h h0
  have hle : rs.length ≤ i + 1 := by omega
  simp only [readExtendedColor, hcount, List.length_nil, Nat.lt_irrefl, if_false,
    paramCount_sgr h, hle, if_true]

/-- A colour in the semicolon form whose parameters stop after `k`. -/
theorem readExtendedColor_cut (h : seq.Collected rs) (code mode : UInt8) {components : List Reading}
    {k : Nat} (hmode : mode = 5 ∧ components.length = 1 ∨ mode = 2 ∧ components.length = 3)
    (hk : k < components.length + 2) (hpos : 0 < k)
    (hs : rs.drop i = (((code.toNat : Int), []) :: ((mode.toNat : Int), []) :: components).take k) :
    readExtendedColor (sgrToken seq) i = (none, k) := by
  have hlen : rs.length = i + k := by
    have hl := congrArg List.length hs
    rw [List.length_drop, List.length_take, List.length_cons, List.length_cons] at hl
    omega
  have hget : ∀ j < k, rs[i + j]? =
      (((code.toNat : Int), []) :: ((mode.toNat : Int), []) :: components)[j]? := by
    intro j hj
    rw [← List.getElem?_drop, hs, List.getElem?_take_of_lt hj]
  have h0 : rs[i]? = some ((code.toNat : Int), []) := hget 0 hpos
  by_cases h1 : k = 1
  · subst h1
    exact readExtendedColor_alone h h0 hlen
  · have h1 : rs[i + 1]? = some ((mode.toNat : Int), []) := hget 1 (by omega)
    rw [readExtendedColor_separate h h0 h1, valueOf_natCast]
    rcases hmode with ⟨rfl, hc⟩ | ⟨rfl, hc⟩
    · have hle : rs.length ≤ i + 2 := by omega
      have hk2 : k = 2 := by omega
      simp [hle, hk2]
    · have hle : rs.length ≤ i + 4 := by omega
      have hsub : rs.length - i = k := by omega
      simp [hle, hsub]

/-- The parameters of a colour behind its code, and its components. -/
theorem cut_colorItems (slot : Slot) (color : Color) {k : Nat} (hk : k < color.paramCount slot)
    (h1 : color.paramCount slot ≠ 1) :
    ∃ mode components, (mode = 5 ∧ components.length = 1 ∨ mode = 2 ∧ components.length = 3) ∧
      k < components.length + 2 ∧
      (itemParams (colorItems slot color)).map Param.reading =
        ((slot.code.toNat : Int), []) :: (((mode : UInt8).toNat : Int), []) :: components := by
  cases color with
  | default => exact absurd hk (Nat.not_lt_zero k)
  | indexed index =>
    simp only [Color.paramCount] at hk h1
    have hn : ¬ (slot ≠ .underlineColor ∧ index < 16) := fun hp => h1 (if_pos hp)
    rw [if_neg hn] at hk
    refine ⟨5, [((index.toNat : Int), [])], .inl ⟨rfl, rfl⟩, hk, ?_⟩
    simp [colorItems, hn, itemParams, SgrItem.params, ColorSpec.params, Param.reading, Param.plain]
  | rgb r g b =>
    refine ⟨2, [((r.toNat : Int), []), ((g.toNat : Int), []), ((b.toNat : Int), [])],
      .inr ⟨rfl, rfl⟩, hk, ?_⟩
    simp [colorItems, itemParams, SgrItem.params, ColorSpec.params, Param.reading, Param.plain]

/-- A colour whose last parameters did not fit has no effect. -/
theorem applyFrom_cut {pre : List Reading} (slot : Slot) (color : Color) {k : Nat}
    (hk : k < color.paramCount slot) (h1 : color.paramCount slot ≠ 1)
    (h : seq.Collected (pre ++ ((itemParams (colorItems slot color)).map Param.reading).take k))
    (style : Style) : applyFrom (sgrToken seq) pre.length style = style := by
  obtain ⟨mode, components, hmode, hlt, hread⟩ := cut_colorItems slot color hk h1
  rw [hread] at h
  have hcount := paramCount_sgr h
  rw [List.length_append, List.length_take, List.length_cons, List.length_cons,
    Nat.min_eq_left (by omega)] at hcount
  by_cases hpos : 0 < k
  · obtain ⟨n, rfl⟩ : ∃ n, k = n + 1 := ⟨k - 1, by omega⟩
    have hcut := readExtendedColor_cut (i := pre.length) h slot.code mode hmode hlt hpos
      (List.drop_left)
    have h0 : (pre ++ (((slot.code.toNat : Int), []) :: ((mode.toNat : Int), []) ::
        components).take (n + 1))[pre.length]? = some ((slot.code.toNat : Int), []) := by
      simp
    have hp : paramOr0 (sgrToken seq) pre.length = (slot.code.toNat : Int) := by
      rw [paramOr0_sgr h h0, valueOf_natCast]
    have hpass := applyParam_color hp style
    rw [hcut] at hpass
    rw [applyFrom_step (by omega) hpass, applyFrom_end (by omega)]
    cases slot <;> rfl
  · exact applyFrom_end (by omega) style

/-! ## The round trip -/

theorem plain_colorItems (slot : Slot) (color : Color) :
    ∀ p ∈ itemParams (colorItems slot color), p.subs = [] := by
  cases color with
  | default => simp [colorItems, itemParams]
  | indexed index =>
    simp only [colorItems]
    split_ifs <;> simp [itemParams, codeItem, SgrItem.params, ColorSpec.params, Param.plain]
  | rgb r g b => simp [colorItems, itemParams, SgrItem.params, ColorSpec.params, Param.plain]

theorem subTotal_plain {ps : List Param} (h : ∀ p ∈ ps, p.subs = []) : subTotal ps = 0 := by
  induction ps with
  | nil => rfl
  | cons p ps ih =>
    rw [List.forall_mem_cons] at h
    rw [subTotal_cons, h.1, ih h.2]
    rfl

theorem plain_chosen (attrs : Attrs) {table : List (SgrItem × Attrs)}
    (h : (table.all fun a => a.1.params.all fun p => p.subs.isEmpty) = true) :
    ∀ p ∈ itemParams (chosen attrs table), p.subs = [] := by
  intro p hp
  obtain ⟨item, hitem, hp⟩ := List.mem_flatMap.1 hp
  obtain ⟨a, ha, hitem⟩ := List.mem_flatMap.1 hitem
  split at hitem
  · obtain rfl := List.mem_singleton.1 hitem
    simpa using List.all_eq_true.1 (List.all_eq_true.1 h a ha) p hp
  · cases hitem

theorem plain_attrItems (attrs : Attrs) : ∀ p ∈ itemParams (attrItems attrs), p.subs = [] := by
  rw [attrItems, ← chosen]
  exact plain_chosen attrs (by decide)

theorem subTotal_leadItems (style : Style) : subTotal (itemParams (leadItems style)) ≤ 1 := by
  have hreset : ∀ items, subTotal (itemParams (codeItem 0 (by decide) :: items)) =
      subTotal (itemParams items) := by
    intro items
    simp [itemParams, codeItem, SgrItem.params, Param.plain]
  have hunderline : subTotal (itemParams (underlineItems style.underline)) ≤ 1 := by
    cases style.underline <;> decide
  have hzero : subTotal (itemParams (attrItems style.attrs)) = 0 := subTotal_plain (plain_attrItems style.attrs)
  rw [leadItems, hreset, itemParams_append, subTotal_append, hzero, Nat.zero_add]
  exact hunderline

theorem subTotal_styleItems (style : Style) : subTotal (itemParams (styleItems style)) ≤ 1 := by
  have hlead := subTotal_leadItems style
  rw [styleItems, itemParams_append, itemParams_append, itemParams_append, subTotal_append,
    subTotal_append, subTotal_append, subTotal_plain (plain_colorItems .fg style.fg),
    subTotal_plain (plain_colorItems .bg style.bg),
    subTotal_plain (plain_colorItems .underlineColor style.underlineColor)]
  omega

/-- Only the underline has a sub-parameter, and it is in front of the last place. -/
theorem plain_behind (style : Style) :
    ∀ p ∈ (itemParams (styleItems style)).drop maxParams, p.subs = [] := by
  have hlen := length_leadItems_le style
  intro p hp
  rw [styleItems, List.append_assoc, List.append_assoc, itemParams_append, List.drop_append,
    List.drop_eq_nil_of_le (by simp only [maxParams]; omega), List.nil_append] at hp
  have hmem := List.mem_of_mem_drop hp
  rw [itemParams_append, itemParams_append, List.mem_append, List.mem_append] at hmem
  rcases hmem with hp | hp | hp
  · exact plain_colorItems .fg style.fg p hp
  · exact plain_colorItems .bg style.bg p hp
  · exact plain_colorItems .underlineColor style.underlineColor p hp

/-- What is read back when the colour behind `items` does not fit whole. -/
theorem apply_cut {seq : Sequence} {items rest : List SgrItem} (slot : Slot) (color : Color)
    (hne : itemParams items ≠ []) (hfit : (itemParams items).length ≤ maxParams)
    (hcut : maxParams < (itemParams items).length + color.paramCount slot)
    (h1 : color.paramCount slot ≠ 1) (hi : seq.intermediateCount = 0)
    (h : seq.Collected
      (((itemParams (items ++ colorItems slot color ++ rest)).take maxParams).map Param.reading))
    (style : Style) : style.apply (sgrToken seq) = effects style items := by
  have hlen := length_colorItems slot color
  have htake : ((itemParams (items ++ colorItems slot color ++ rest)).take maxParams).map
      Param.reading = items.flatMap SgrItem.readings ++
        ((itemParams (colorItems slot color)).map Param.reading).take
          (maxParams - (itemParams items).length) := by
    rw [itemParams_append, itemParams_append, List.append_assoc, List.take_append,
      List.take_of_length_le hfit, List.take_append_of_le_length (by omega), List.map_append,
      itemReadings, List.map_take]
  rw [htake] at h
  have hpre : (items.flatMap SgrItem.readings).length = (itemParams items).length := by
    rw [← itemReadings, List.length_map]
  rw [apply_items items hne h hi, ← hpre]
  exact applyFrom_cut slot color (by omega) h1 h (effects style items)

theorem foldBytes_emit {style : Style} (h : style.isDefault = false) :
    (foldBytes Scanner.init Style.default style.emit .final).map Prod.snd =
      some (Style.default.apply (sgrToken (collected Sequence.zero (itemParams (styleItems style))))) := by
  have hne : itemParams (styleItems style) ≠ [] := by
    simp [styleItems, leadItems, itemParams, codeItem, SgrItem.params]
  obtain ⟨sc', -, hfold⟩ := foldBytes_sgr idle_init hne .final Style.default
  rw [emit_eq h, hfold]
  rfl

/-- When the parameters do not fit, a colour is lost. -/
theorem apply_styleItems_cut {seq : Sequence} {style : Style} (hi : seq.intermediateCount = 0)
    (hcut : maxParams < style.paramCount)
    (h : seq.Collected (((itemParams (styleItems style)).take maxParams).map Param.reading)) :
    Style.default.apply (sgrToken seq) ≠ { style with hyperlinkOpen := false } := by
  have hlead := length_leadItems_le style
  have hfg : style.fg.paramCount .fg ≤ 5 := by
    cases style.fg <;> simp only [Color.paramCount]
    · decide
    · split_ifs <;> decide
    · decide
  have hne : ∀ items, itemParams (leadItems style ++ items) ≠ [] := by
    intro items
    simp [leadItems, itemParams, codeItem, SgrItem.params]
  have hfore : (itemParams (leadItems style ++ colorItems .fg style.fg)).length ≤ 15 := by
    rw [itemParams_append, List.length_append, length_colorItems]
    omega
  by_cases hback : (itemParams (leadItems style ++ colorItems .fg style.fg ++
      colorItems .bg style.bg)).length ≤ maxParams
  · -- The underline colour is cut.
    have hlen : maxParams < (itemParams (leadItems style ++ colorItems .fg style.fg ++
        colorItems .bg style.bg)).length + style.underlineColor.paramCount .underlineColor := by
      rw [← length_colorItems, ← List.length_append, ← itemParams_append]
      rw [paramCount_eq] at hcut
      exact hcut
    have hone : style.underlineColor.paramCount .underlineColor ≠ 1 := by
      cases style.underlineColor <;> simp [Color.paramCount]
    rw [styleItems, ← List.append_nil (_ ++ colorItems .underlineColor _)] at h
    rw [apply_cut .underlineColor style.underlineColor (by rw [List.append_assoc]; exact hne _) hback
      hlen hone hi h, effects_background]
    intro heq
    have hcolor : Color.default = style.underlineColor := congrArg Style.underlineColor heq
    rw [← hcolor] at hlen
    exact absurd hback (by simpa [Color.paramCount] using hlen)
  · -- The background is cut.
    have hlen : maxParams < (itemParams (leadItems style ++ colorItems .fg style.fg)).length +
        style.bg.paramCount .bg := by
      rw [← length_colorItems, ← List.length_append, ← itemParams_append]
      exact Nat.lt_of_not_le hback
    have hcap : maxParams = 16 := rfl
    rw [styleItems] at h
    rw [apply_cut .bg style.bg (hne _) (by omega) hlen (by omega) hi h, effects_foreground]
    intro heq
    have hcolor : Color.default = style.bg := congrArg Style.bg heq
    rw [← hcolor] at hlen
    simp only [Color.paramCount] at hlen
    omega

/-- The bytes written for a style read back as that style exactly when its parameters fit. -/
theorem style_round_trip (style : Style) :
    (foldBytes Scanner.init Style.default style.emit .final).map Prod.snd =
        some { style with hyperlinkOpen := false } ↔
      style.paramCount ≤ maxParams := by
  cases hdef : style.isDefault with
  | true =>
    have hs : style = Style.default := by simpa [Style.isDefault] using hdef
    subst hs
    decide +kernel
  | false =>
    have hc := collected_spec Sequence.zero (itemParams (styleItems style))
      (Nat.le_trans (subTotal_styleItems style) (by decide)) (plain_behind style)
    have hi := collected_intermediateCount Sequence.zero (itemParams (styleItems style))
    have hne : itemParams (leadItems style) ≠ [] := by
      simp [leadItems, itemParams, codeItem, SgrItem.params]
    rw [foldBytes_emit hdef, Option.some_inj]
    by_cases hfit : style.paramCount ≤ maxParams
    · have hlen := hfit
      rw [paramCount_eq] at hlen
      have hne' : itemParams (styleItems style) ≠ [] := by
        simp [styleItems, itemParams_append, hne]
      rw [List.take_of_length_le hlen, itemReadings, ← List.append_nil (List.flatMap _ _)] at hc
      rw [apply_items _ hne' hc hi, applyFrom_end, effects_styleItems]
      · exact iff_of_true rfl hfit
      · rw [paramCount_sgr hc, List.append_nil, ← itemReadings, List.length_map]
    · exact iff_of_false (apply_styleItems_cut hi (Nat.lt_of_not_le hfit) hc) hfit

/-- Every attribute and two direct colours: the second has its components behind the capacity. -/
theorem style_round_trip_drops_background :
    let style : Style := ⟨255, .rgb 1 2 3, .rgb 4 5 6, .default, .none, false⟩
    (foldBytes Scanner.init Style.default style.emit .final).map Prod.snd ≠ some style := by
  decide +kernel

end SupraHarness.Ansi
