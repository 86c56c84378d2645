import Mathlib.Algebra.GroupWithZero.Nat
import SupraHarness.Ansi.Style

/-!
# Writing into a caller's buffer

A caller passes a pointer, which may be null, and a capacity. The writer stores what fits and counts
on, so that the size it reports does not depend on the capacity. `stores` are the stores into the
buffer in their order, each a byte and its index; `overflow`, which nothing reads, is left out.
-/
namespace SupraHarness.Ansi

structure Writer where
  null : Bool
  cap : Nat
  written : Nat
  stores : List (UInt8 × Nat)
  deriving DecidableEq, Repr

namespace Writer

def start (null : Bool) (cap : Nat) : Writer := ⟨null, cap, 0, []⟩

def byte (w : Writer) (value : UInt8) : Writer :=
  if w.written < w.cap ∧ w.null = false then
    { w with stores := w.stores ++ [(value, w.written)], written := w.written + 1 }
  else { w with written := w.written + 1 }

def literal (w : Writer) (text : List UInt8) : Writer := text.foldl byte w

/-- Decimal, no padding. -/
def number (w : Writer) (value : Nat) : Writer :=
  if 100 ≤ value then
    ((w.byte (UInt8.ofNat (0x30 + value / 100))).byte (UInt8.ofNat (0x30 + value / 10 % 10))).byte
      (UInt8.ofNat (0x30 + value % 10))
  else if 10 ≤ value then
    (w.byte (UInt8.ofNat (0x30 + value / 10))).byte (UInt8.ofNat (0x30 + value % 10))
  else w.byte (UInt8.ofNat (0x30 + value))

def emitIndexed (w : Writer) (code : Nat) (index : UInt8) : Writer :=
  ((w.number code).literal [0x3B, 0x35, 0x3B]).number index.toNat

def emitRgb (w : Writer) (code : Nat) (r g b : UInt8) : Writer :=
  let w := ((w.number code).literal [0x3B, 0x32, 0x3B]).number r.toNat
  let w := (w.byte 0x3B).number g.toNat
  (w.byte 0x3B).number b.toNat

def emitColor (w : Writer) (color : Color) (foreground : Bool) : Writer :=
  match color with
  | .indexed index =>
    if index < 8 then w.number ((if foreground then 30 else 40) + index.toNat)
    else if index < 16 then w.number ((if foreground then 90 else 100) + index.toNat - 8)
    else w.emitIndexed (if foreground then 38 else 48) index
  | .rgb r g b => w.emitRgb (if foreground then 38 else 48) r g b
  | .default => w.number (if foreground then 39 else 49)

end Writer

/-- `supra_ansi_style_emit`; what it returns is `written`. -/
def styleEmit (style : Style) (null : Bool) (cap : Nat) : Writer :=
  if style.isDefault then Writer.start null cap
  else
    let w := (Writer.start null cap).literal [0x1B, 0x5B, 0x30]
    let w := attrTable.foldl
      (fun w a => if style.attrs &&& a.2 ≠ 0 then (w.byte 0x3B).number a.1 else w) w
    let w :=
      if style.underline ≠ .none then
        let w := w.byte 0x3B
        if style.underline = .single then w.number 4
        else (w.literal [0x34, 0x3A]).number style.underline.sub
      else w
    let w := if style.fg ≠ .default then (w.byte 0x3B).emitColor style.fg true else w
    let w := if style.bg ≠ .default then (w.byte 0x3B).emitColor style.bg false else w
    let w := match style.underlineColor with
      | .default => w
      | .indexed index => (w.byte 0x3B).emitIndexed 58 index
      | .rgb r g b => (w.byte 0x3B).emitRgb 58 r g b
    w.byte 0x6D

/-! ## What is written -/

namespace Writer

variable (w : Writer)

@[simp] theorem literal_nil : w.literal [] = w := rfl

theorem literal_cons (value : UInt8) (text : List UInt8) :
    w.literal (value :: text) = (w.byte value).literal text := rfl

theorem literal_append (text more : List UInt8) :
    w.literal (text ++ more) = (w.literal text).literal more := List.foldl_append

/-- The size counts every byte; the stores are those of the bytes in front of the capacity. -/
theorem literal_eq (text : List UInt8) :
    w.literal text =
      { w with
        written := w.written + text.length
        stores := w.stores ++
          if w.null then [] else (text.take (w.cap - w.written)).zipIdx w.written } := by
  induction text generalizing w with
  | nil => simp
  | cons value text ih =>
    rw [literal_cons, ih, byte]
    by_cases hn : w.null = true
    · simp [hn, Nat.add_assoc, Nat.add_comm 1]
    · by_cases hlt : w.written < w.cap
      · obtain ⟨room, hroom⟩ : ∃ room, w.cap - w.written = room + 1 := ⟨w.cap - w.written - 1, by omega⟩
        have hrest : w.cap - (w.written + 1) = room := by omega
        simp [hn, hlt, hroom, hrest, Nat.add_assoc, Nat.add_comm 1]
      · have hroom : w.cap - w.written = 0 := by omega
        have hrest : w.cap - (w.written + 1) = 0 := by omega
        simp [hn, hlt, hroom, hrest, Nat.add_assoc, Nat.add_comm 1]

theorem byte_eq (value : UInt8) : w.byte value = w.literal [value] := rfl

theorem number_eq (value : Nat) : w.number value = w.literal (Ansi.number value) := by
  unfold number Ansi.number
  split_ifs <;> rfl

theorem emitIndexed_eq (code : Nat) (index : UInt8) :
    w.emitIndexed code index = w.literal (Ansi.emitIndexed code index) := by
  simp only [emitIndexed, Ansi.emitIndexed, number_eq, literal_append]

theorem emitRgb_eq (code : Nat) (r g b : UInt8) :
    w.emitRgb code r g b = w.literal (Ansi.emitRgb code r g b) := by
  simp only [emitRgb, Ansi.emitRgb, number_eq, byte_eq, literal_append]

theorem emitColor_eq (color : Color) (foreground : Bool) :
    w.emitColor color foreground = w.literal (Ansi.emitColor color foreground) := by
  cases color with
  | default => simp only [emitColor, Ansi.emitColor, number_eq]
  | indexed index =>
    simp only [emitColor, Ansi.emitColor, number_eq, emitIndexed_eq]
    split_ifs <;> rfl
  | rgb r g b => simp only [emitColor, Ansi.emitColor, emitRgb_eq]

theorem foldl_attrs (attrs : Attrs) (table : List (Nat × Attrs)) :
    table.foldl (fun w a => if attrs &&& a.2 ≠ 0 then (w.byte 0x3B).number a.1 else w) w =
      w.literal (table.flatMap fun a => if attrs &&& a.2 ≠ 0 then 0x3B :: Ansi.number a.1 else []) := by
  induction table generalizing w with
  | nil => rfl
  | cons a table ih =>
    rw [List.foldl_cons, ih, List.flatMap_cons, literal_append]
    split_ifs
    · rw [number_eq, literal_cons]
    · rfl

theorem written_literal (text : List UInt8) : (w.literal text).written = w.written + text.length := by
  rw [literal_eq]

/-- The buffer of a writer that has written a text from its start on. -/
theorem stores_start (null : Bool) (cap : Nat) (text : List UInt8) :
    ((start null cap).literal text).stores = if null then [] else (text.take cap).zipIdx := by
  rw [literal_eq]
  cases null <;> simp [start]

theorem emitUnderline_eq (underline : Underline) :
    (if underline ≠ .none then
      if underline = .single then (w.byte 0x3B).number 4
      else ((w.byte 0x3B).literal [0x34, 0x3A]).number underline.sub
    else w) = w.literal (emitUnderline underline) := by
  cases underline <;> simp only [emitUnderline, number_eq] <;> rfl

theorem emitColor_ne_eq (color : Color) (foreground : Bool) :
    (if color ≠ .default then (w.byte 0x3B).emitColor color foreground else w) =
      w.literal (if color ≠ .default then 0x3B :: Ansi.emitColor color foreground else []) := by
  split_ifs
  · rw [emitColor_eq, literal_cons]
  · rfl

theorem emitUnderlineColor_eq (color : Color) :
    (match color with
      | .default => w
      | .indexed index => (w.byte 0x3B).emitIndexed 58 index
      | .rgb r g b => (w.byte 0x3B).emitRgb 58 r g b) = w.literal (emitUnderlineColor color) := by
  cases color with
  | default => rfl
  | indexed index => simp only [emitIndexed_eq, emitUnderlineColor, literal_cons]
  | rgb r g b => simp only [emitRgb_eq, emitUnderlineColor, literal_cons]

end Writer

theorem styleEmit_eq (style : Style) (null : Bool) (cap : Nat) :
    styleEmit style null cap = (Writer.start null cap).literal style.emit := by
  unfold styleEmit Style.emit
  by_cases hdefault : style.isDefault = true
  · rw [if_pos hdefault, if_pos hdefault, Writer.literal_nil]
  rw [if_neg hdefault, if_neg hdefault]
  simp only [Writer.literal_append, Writer.foldl_attrs, Writer.emitUnderline_eq, Writer.emitColor_ne_eq,
    Writer.emitUnderlineColor_eq]
  rfl

/-! ## The short-buffer contract -/

/-- What the header promises a caller whose text is `text`: a size that does not fit leaves the buffer
alone, and otherwise the buffer has the text. -/
structure Contract (text : List UInt8) (null : Bool) (cap : Nat) (w : Writer) : Prop where
  size : w.written = text.length
  short : cap < w.written → w.stores = []
  fits : w.written ≤ cap → null = false → w.stores = text.zipIdx

/-- The writer keeps the promise only where there is nothing to store into, or enough. -/
theorem contract_iff (text : List UInt8) (null : Bool) (cap : Nat) :
    Contract text null cap ((Writer.start null cap).literal text) ↔
      null = true ∨ cap = 0 ∨ text.length ≤ cap := by
  have hsize : ((Writer.start null cap).literal text).written = text.length := by
    rw [Writer.written_literal]
    exact Nat.zero_add _
  constructor
  · intro h
    cases null with
    | true => exact .inl rfl
    | false =>
      by_cases hshort : cap < text.length
      · have hnone := h.short (by rwa [hsize])
        rw [Writer.stores_start] at hnone
        have hlen : (text.take cap).length = 0 := by simpa using hnone
        rw [List.length_take] at hlen
        omega
      · exact .inr (.inr (Nat.le_of_not_lt hshort))
  · intro h
    constructor
    · exact hsize
    · rw [hsize, Writer.stores_start]
      intro hshort
      rcases h with rfl | rfl | h
      · rfl
      · cases null <;> rfl
      · omega
    · rw [hsize, Writer.stores_start]
      rintro hle rfl
      rw [List.take_of_length_le hle]
      rfl

/-! ## The size of a style -/

def digitCount (value : Nat) : Nat := if 100 ≤ value then 3 else if 10 ≤ value then 2 else 1

/-- A separator, the code and what names the colour. -/
def Color.extendedSize : Color → Nat
  | .default => 0
  | .indexed index => 6 + digitCount index.toNat
  | .rgb r g b => 8 + digitCount r.toNat + digitCount g.toNat + digitCount b.toNat

/-- The sixteen colours that have a code of their own are shorter. -/
def Color.size (foreground : Bool) (color : Color) : Nat :=
  match color with
  | .indexed index =>
    if index < 8 then 3
    else if index < 16 then if foreground then 3 else 4
    else color.extendedSize
  | _ => color.extendedSize

def Underline.size : Underline → Nat
  | .none => 0
  | .single => 2
  | _ => 4

def attrsSize (attrs : Attrs) : Nat :=
  (attrTable.map fun a => if attrs &&& a.2 ≠ 0 then 1 + digitCount a.1 else 0).sum

def Style.size (style : Style) : Nat :=
  if style.isDefault then 0
  else
    4 + attrsSize style.attrs + style.underline.size + style.fg.size true + style.bg.size false +
      style.underlineColor.extendedSize

theorem digitCount_two {value : Nat} (h : 10 ≤ value) (hlt : value < 100) : digitCount value = 2 := by
  rw [digitCount, if_neg (Nat.not_le.mpr hlt), if_pos h]

theorem digitCount_three {value : Nat} (h : 100 ≤ value) : digitCount value = 3 := if_pos h

@[simp] theorem length_number (value : Nat) : (number value).length = digitCount value := by
  unfold number digitCount
  split_ifs <;> rfl

theorem length_emitIndexed {code : Nat} (h : digitCount code = 2) (index : UInt8) :
    (0x3B :: emitIndexed code index).length = (Color.indexed index).extendedSize := by
  simp [emitIndexed, h, Color.extendedSize]
  omega

theorem length_emitRgb {code : Nat} (h : digitCount code = 2) (r g b : UInt8) :
    (0x3B :: emitRgb code r g b).length = (Color.rgb r g b).extendedSize := by
  simp [emitRgb, h, Color.extendedSize]
  omega

theorem length_emitColor {color : Color} (h : color ≠ .default) (foreground : Bool) :
    (0x3B :: emitColor color foreground).length = color.size foreground := by
  cases color with
  | default => exact absurd rfl h
  | indexed index =>
    have hlow : index < 8 ↔ index.toNat < 8 := UInt8.lt_iff_toNat_lt
    have hhigh : index < 16 ↔ index.toNat < 16 := UInt8.lt_iff_toNat_lt
    simp only [emitColor, Color.size, hlow, hhigh]
    by_cases h8 : index.toNat < 8
    · rw [if_pos h8, if_pos h8, List.length_cons, length_number]
      cases foreground <;> rw [digitCount_two] <;> simp <;> omega
    · by_cases h16 : index.toNat < 16
      · rw [if_neg h8, if_pos h16, if_neg h8, if_pos h16, List.length_cons, length_number]
        cases foreground with
        | true => rw [digitCount_two] <;> simp <;> omega
        | false => rw [digitCount_three] <;> simp <;> omega
      · rw [if_neg h8, if_neg h16, if_neg h8, if_neg h16]
        exact length_emitIndexed (by cases foreground <;> rfl) index
  | rgb r g b =>
    exact length_emitRgb (by cases foreground <;> rfl) r g b

theorem length_emitUnderline (underline : Underline) :
    (emitUnderline underline).length = underline.size := by
  cases underline <;> rfl

theorem length_emitUnderlineColor (color : Color) :
    (emitUnderlineColor color).length = color.extendedSize := by
  cases color with
  | default => rfl
  | indexed index => exact length_emitIndexed rfl index
  | rgb r g b => exact length_emitRgb rfl r g b

theorem length_emitAttrs (attrs : Attrs) : (emitAttrs attrs).length = attrsSize attrs := by
  rw [emitAttrs, attrsSize, List.length_flatMap]
  congr 1
  apply List.map_congr_left
  intro a _
  split_ifs
  · simp [Nat.add_comm]
  · rfl

theorem length_emit (style : Style) : style.emit.length = style.size := by
  have hcolor : ∀ (color : Color) (foreground : Bool),
      (if color ≠ .default then 0x3B :: emitColor color foreground else []).length = color.size foreground := by
    intro color foreground
    by_cases hdefault : color = .default
    · simp [hdefault, Color.size, Color.extendedSize]
    · rw [if_pos hdefault, length_emitColor hdefault]
  unfold Style.emit Style.size
  by_cases hdefault : style.isDefault = true
  · rw [if_pos hdefault, if_pos hdefault, List.length_nil]
  · rw [if_neg hdefault, if_neg hdefault]
    simp only [List.length_append, length_emitAttrs, length_emitUnderline, hcolor, length_emitUnderlineColor,
      List.length_cons, List.length_nil]
    omega

end SupraHarness.Ansi
