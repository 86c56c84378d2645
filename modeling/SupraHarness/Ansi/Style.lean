import SupraHarness.Ansi.Scanner

/-!
# SGR styles

Folding tokens into a style, and writing a style back out. A colour is what `colorEqual` tells
apart, so a slot without a meaning for its kind is not there. Of the 32 bits of `attrs` only the
eight of `supra_ansi_attr` are ever set. The loop over the parameters of a token counts down the
passes that are left; each consumes at least one parameter, so `param_count` of them suffice.
-/
namespace SupraHarness.Ansi

inductive Color where
  | default
  | indexed (index : UInt8)
  | rgb (r g b : UInt8)
  deriving DecidableEq, Repr

inductive Underline where
  | none | single | double | curly | dotted | dashed
  deriving DecidableEq, Repr

abbrev Attrs := BitVec 8

def Attrs.bold : Attrs := 1
def Attrs.dim : Attrs := 2
def Attrs.italic : Attrs := 4
def Attrs.blink : Attrs := 8
def Attrs.inverse : Attrs := 16
def Attrs.hidden : Attrs := 32
def Attrs.strike : Attrs := 64
def Attrs.overline : Attrs := 128

/-- A set of attributes is the union of those it contains. -/
theorem union_attrs : ∀ n : Fin 256,
    [Attrs.bold, .dim, .italic, .blink, .inverse, .hidden, .strike, .overline].foldl
      (fun set mask => if BitVec.ofFin n &&& mask ≠ 0 then set ||| mask else set) 0 = BitVec.ofFin n := by
  decide +kernel

structure Style where
  attrs : Attrs
  fg : Color
  bg : Color
  underlineColor : Color
  underline : Underline
  hyperlinkOpen : Bool
  deriving DecidableEq, Repr

namespace Style

def default : Style := ⟨0, .default, .default, .default, .none, false⟩

def isDefault (style : Style) : Bool := style = default

/-- SGR does not affect hyperlinks; only OSC 8 opens or closes one. -/
def reset (style : Style) : Style := { default with hyperlinkOpen := style.hyperlinkOpen }

def set (style : Style) (bits : Attrs) : Style := { style with attrs := style.attrs ||| bits }

def clear (style : Style) (bits : Attrs) : Style := { style with attrs := style.attrs &&& ~~~bits }

end Style

/-! ## Folding a token -/

/-- The parameter at `index`, 0 when it is omitted or missing. -/
def paramOr0 (token : Token) (index : Nat) : Int :=
  if token.paramCount ≤ index then 0
  else
    let value := (token.params[index]?).getD 0
    if value = kParamOmitted then 0 else value

def clamp (v : Int) : UInt8 := if v < 0 then 0 else if 255 < v then 255 else UInt8.ofNat v.toNat

/-- The extended colour that starts at parameter `index`, and how many parameters it consumed. -/
def readExtendedColor (token : Token) (index : Nat) : Option Color × Nat :=
  let subCount := (token.subparamCount[index]?).getD 0
  if 0 < subCount then
    let base := (token.subparamIndex[index]?).getD 0
    let sub := fun k => (token.subparams[base + k]?).getD 0
    if sub 0 = 5 ∧ 2 ≤ subCount then (some (.indexed (clamp (sub 1))), 1)
    else if sub 0 = 2 then
      -- The colour-space id is optional.
      let offset := if 5 ≤ subCount then 2 else 1
      if offset + 3 ≤ subCount then
        (some (.rgb (clamp (sub offset)) (clamp (sub (offset + 1))) (clamp (sub (offset + 2)))), 1)
      else (none, 1)
    else (none, 1)
  else if token.paramCount ≤ index + 1 then (none, 1)
  else
    let mode := paramOr0 token (index + 1)
    if mode = 5 then
      if token.paramCount ≤ index + 2 then (none, 2)
      else (some (.indexed (clamp (paramOr0 token (index + 2)))), 3)
    else if mode = 2 then
      if token.paramCount ≤ index + 4 then (none, token.paramCount - index)
      else
        (some (.rgb (clamp (paramOr0 token (index + 2))) (clamp (paramOr0 token (index + 3)))
          (clamp (paramOr0 token (index + 4)))), 5)
    else (none, 2)

/-- The underline style a sub-parameter of SGR 4 names. -/
def underlineOf (sub : Int) : Underline :=
  let kind := if sub = kParamOmitted then 1 else sub
  if kind = 0 then .none
  else if kind = 2 then .double
  else if kind = 3 then .curly
  else if kind = 4 then .dotted
  else if kind = 5 then .dashed
  else .single

/-- The cases of the `switch` that look at nothing but the parameter `p`. -/
def applyCode (style : Style) (p : Int) : Style :=
  if p = 0 then style.reset
  else if p = 1 then style.set .bold
  else if p = 2 then style.set .dim
  else if p = 3 then style.set .italic
  else if p = 5 ∨ p = 6 then style.set .blink
  else if p = 7 then style.set .inverse
  else if p = 8 then style.set .hidden
  else if p = 9 then style.set .strike
  else if p = 21 then { style with underline := .double }
  else if p = 22 then style.clear (.bold ||| .dim)
  else if p = 23 then style.clear .italic
  else if p = 24 then { style with underline := .none }
  else if p = 25 then style.clear .blink
  else if p = 27 then style.clear .inverse
  else if p = 28 then style.clear .hidden
  else if p = 29 then style.clear .strike
  else if p = 39 then { style with fg := .default }
  else if p = 49 then { style with bg := .default }
  else if p = 53 then style.set .overline
  else if p = 55 then style.clear .overline
  else if p = 59 then { style with underlineColor := .default }
  else if 30 ≤ p ∧ p ≤ 37 then { style with fg := .indexed (UInt8.ofNat (p - 30).toNat) }
  else if 40 ≤ p ∧ p ≤ 47 then { style with bg := .indexed (UInt8.ofNat (p - 40).toNat) }
  else if 90 ≤ p ∧ p ≤ 97 then { style with fg := .indexed (UInt8.ofNat (p - 90 + 8).toNat) }
  else if 100 ≤ p ∧ p ≤ 107 then { style with bg := .indexed (UInt8.ofNat (p - 100 + 8).toNat) }
  else style

/-- The colour slot of SGR 38, 48 and 58. -/
inductive Slot where
  | fg | bg | underlineColor
  deriving DecidableEq, Repr

def Style.setColor (style : Style) : Slot → Option Color → Style
  | _, none => style
  | .fg, some color => { style with fg := color }
  | .bg, some color => { style with bg := color }
  | .underlineColor, some color => { style with underlineColor := color }

/-- One pass of the loop: the style, and the parameters consumed. -/
def applyParam (token : Token) (style : Style) (i : Nat) : Style × Nat :=
  let p := paramOr0 token i
  if p = 4 then
    if 0 < (token.subparamCount[i]?).getD 0 then
      let sub := (token.subparams[(token.subparamIndex[i]?).getD 0]?).getD 0
      ({ style with underline := underlineOf sub }, 1)
    else ({ style with underline := .single }, 1)
  else if p = 38 then
    let r := readExtendedColor token i
    (style.setColor .fg r.1, r.2)
  else if p = 48 then
    let r := readExtendedColor token i
    (style.setColor .bg r.1, r.2)
  else if p = 58 then
    let r := readExtendedColor token i
    (style.setColor .underlineColor r.1, r.2)
  else (applyCode style p, 1)

/-- `while (i < token->param_count)`, for at most as many passes as are left. -/
def applyLoop (token : Token) : Nat → Nat → Style → Style
  | 0, _, style => style
  | passes + 1, i, style =>
    if i < token.paramCount then
      let r := applyParam token style i
      applyLoop token passes (i + if r.2 = 0 then 1 else r.2) r.1
    else style

/-- `supra_ansi_style_apply`. -/
def Style.apply (style : Style) (token : Token) : Style :=
  if token.kind ≠ .csi ∨ token.finalByte ≠ 0x6D ∨ token.intermediateCount ≠ 0 then style
  else if token.paramCount = 0 then style.reset
  else applyLoop token token.paramCount 0 style

/-- What follows the second `;` of a payload; `none` when there are fewer. -/
def uriOf (payload : List UInt8) : Option (List UInt8) :=
  match (payload.dropWhile (· ≠ 0x3B)).tail.dropWhile (· ≠ 0x3B) with
  | [] => none
  | _ :: uri => some uri

/-- `supra_ansi_style_apply_osc`: an empty URI closes the link. -/
def Style.applyOsc (style : Style) (token : Token) : Style :=
  if token.kind ≠ .osc then style
  else match token.payload with
    | 0x38 :: 0x3B :: _ =>
      match uriOf token.payload with
      | none => style
      | some uri => { style with hyperlinkOpen := uri ≠ [] }
    | _ => style

/-- What a caller does with every token. -/
def Style.fold (style : Style) (token : Token) : Style := (style.apply token).applyOsc token

/-- Scans one buffer and folds its tokens. -/
def foldBytes (sc : Scanner) (style : Style) (bytes : List UInt8) (eof : Eof) :
    Option (Scanner × Style) :=
  (drain (bytes.length + 2) sc bytes eof).map fun r => (r.2, r.1.foldl Style.fold style)

/-- The same scanner over one buffer after the other. -/
def foldEach (sc : Scanner) (style : Style) (buffers : List (List UInt8)) (eof : Eof) :
    Option (Scanner × Style) :=
  buffers.foldlM (fun r bytes => foldBytes r.1 r.2 bytes eof) (sc, style)

/-! ## Writing a style -/

/-- `Writer::number`: decimal, no padding. -/
def number (value : Nat) : List UInt8 :=
  if 100 ≤ value then
    [UInt8.ofNat (0x30 + value / 100), UInt8.ofNat (0x30 + value / 10 % 10),
      UInt8.ofNat (0x30 + value % 10)]
  else if 10 ≤ value then [UInt8.ofNat (0x30 + value / 10), UInt8.ofNat (0x30 + value % 10)]
  else [UInt8.ofNat (0x30 + value)]

theorem number_spells : ∀ n < 256,
    (number n).all isDigit = true ∧ number n ≠ [] ∧ (number n).foldl pushDigit 0 = (n : Int) := by
  decide +kernel

/-- `;5;` and `;2;`, and the components behind them. -/
def emitIndexed (code : Nat) (index : UInt8) : List UInt8 :=
  number code ++ [0x3B, 0x35, 0x3B] ++ number index.toNat

def emitRgb (code : Nat) (r g b : UInt8) : List UInt8 :=
  number code ++ [0x3B, 0x32, 0x3B] ++ number r.toNat ++ [0x3B] ++ number g.toNat ++ [0x3B] ++
    number b.toNat

def emitColor (color : Color) (foreground : Bool) : List UInt8 :=
  match color with
  | .indexed index =>
    if index < 8 then number ((if foreground then 30 else 40) + index.toNat)
    else if index < 16 then number ((if foreground then 90 else 100) + index.toNat - 8)
    else emitIndexed (if foreground then 38 else 48) index
  | .rgb r g b => emitRgb (if foreground then 38 else 48) r g b
  | .default => number (if foreground then 39 else 49)

/-- `kAttrParams` and `kAttrBits`. -/
def attrTable : List (Nat × Attrs) :=
  [(1, .bold), (2, .dim), (3, .italic), (5, .blink), (7, .inverse), (8, .hidden), (9, .strike),
    (53, .overline)]

def Underline.sub : Underline → Nat
  | .none => 0
  | .single => 1
  | .double => 2
  | .curly => 3
  | .dotted => 4
  | .dashed => 5

def emitAttrs (attrs : Attrs) : List UInt8 :=
  attrTable.flatMap fun a => if attrs &&& a.2 ≠ 0 then 0x3B :: number a.1 else []

def emitUnderline (underline : Underline) : List UInt8 :=
  if underline = .none then []
  else if underline = .single then 0x3B :: number 4
  else [0x3B, 0x34, 0x3A] ++ number underline.sub

def emitUnderlineColor (color : Color) : List UInt8 :=
  match color with
  | .default => []
  | .indexed index => 0x3B :: emitIndexed 58 index
  | .rgb r g b => 0x3B :: emitRgb 58 r g b

/-- `supra_ansi_style_emit` into a buffer that is large enough. -/
def Style.emit (style : Style) : List UInt8 :=
  if style.isDefault then []
  else
    [0x1B, 0x5B, 0x30] ++ emitAttrs style.attrs ++ emitUnderline style.underline ++
      (if style.fg ≠ .default then 0x3B :: emitColor style.fg true else []) ++
      (if style.bg ≠ .default then 0x3B :: emitColor style.bg false else []) ++
      emitUnderlineColor style.underlineColor ++ [0x6D]

end SupraHarness.Ansi
