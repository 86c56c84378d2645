import SupraHarness.Lib.JsonGrammar

/-!
# The JSON grammar is unambiguous

In the standard dialect a part of the grammar ends at one place only and is one tree only: the first
byte of a value tells its kind, a scalar ends at the first byte that separates, and a string at its
first quotation mark that is not escaped.
-/
namespace SupraHarness.Json

/-- The bytes that may stand behind a value. -/
def isEnd (byte : UInt8) : Bool := byte == 0x2C || byte == 0x5D || byte == 0x7D || isWs byte

/-- Behind a value stands a separator, or nothing. -/
def Ended (rest : List UInt8) : Prop := ∀ byte ∈ rest.head?, isEnd byte = true

theorem ended_of_ws {text rest : List UInt8} (h : Ws text rest) (hrest : Ended rest) : Ended text := by
  obtain ⟨w, hw, rfl⟩ := h
  cases w with
  | nil => exact hrest
  | cons first w =>
    rintro byte ⟨⟩
    rw [isEnd, hw first List.mem_cons_self, Bool.or_true]

theorem ended_cons {byte : UInt8} (h : isEnd byte = true) (rest : List UInt8) : Ended (byte :: rest) := by
  rintro _ ⟨⟩
  exact h

theorem isEnd_of_isNumberByte {byte : UInt8} (h : isNumberByte byte = true) : isEnd byte = false := by
  rw [Bool.eq_false_iff]
  intro hend
  simp only [isEnd, isWs, Bool.or_eq_true, beq_iff_eq] at hend
  rcases hend with ((rfl | rfl) | rfl) | (((rfl | rfl) | rfl) | rfl) <;> cases h

/-! ## Scalars -/

theorem scalar_bytes {lexeme rest : List UInt8} (h : standard.scalar lexeme rest) :
    lexeme ≠ [] ∧ ∀ byte ∈ lexeme, isEnd byte = false ∧ byte ∉ [0x22, 0x5B, 0x7B] := by
  rcases h with h | h
  · simp only [literals, List.mem_cons, List.not_mem_nil, or_false] at h
    rcases h with rfl | rfl | rfl <;> decide
  · obtain ⟨hne, hbytes⟩ := isNumber_bytes h
    refine ⟨hne, ?_⟩
    intro byte hb
    have hnumber := hbytes byte hb
    refine ⟨isEnd_of_isNumberByte hnumber, ?_⟩
    intro hmem
    simp only [List.mem_cons, List.not_mem_nil, or_false] at hmem
    rcases hmem with rfl | rfl | rfl <;> cases hnumber

/-- A scalar is what stands before the next separator. -/
theorem scalar_eq {lexeme rest : List UInt8} (h : standard.scalar lexeme rest) (hrest : Ended rest) :
    lexeme = (lexeme ++ rest).takeWhile fun byte => !isEnd byte := by
  rw [List.takeWhile_append_of_pos]
  · cases rest with
    | nil => simp
    | cons byte rest =>
      have hend := hrest byte rfl
      rw [List.takeWhile_cons_of_neg (by rw [hend]; decide), List.append_nil]
  · intro byte hb
    rw [((scalar_bytes h).2 byte hb).1]
    rfl

theorem scalar_unique {lexeme lexeme' rest rest' : List UInt8} (h : standard.scalar lexeme rest)
    (h' : standard.scalar lexeme' rest') (hrest : Ended rest) (hrest' : Ended rest')
    (heq : lexeme ++ rest = lexeme' ++ rest') : lexeme = lexeme' ∧ rest = rest' := by
  have hlexeme : lexeme = lexeme' := by
    rw [scalar_eq h hrest, heq, ← scalar_eq h' hrest']
  subst hlexeme
  exact ⟨rfl, List.append_cancel_left heq⟩

/-! ## Strings -/

theorem utf8EncodeChar_cancel {c c' : Char} {rest rest' : List UInt8}
    (h : String.utf8EncodeChar c ++ rest = String.utf8EncodeChar c' ++ rest') : c = c' ∧ rest = rest' := by
  have hdecode : ∀ (c : Char) (rest : List UInt8),
      (String.utf8EncodeChar c ++ rest).toByteArray.utf8DecodeChar? 0 = some c := by
    intro c rest
    rw [List.toByteArray_append]
    exact ByteArray.utf8DecodeChar?_utf8EncodeChar_append
  have hc := hdecode c rest
  rw [h, hdecode] at hc
  obtain rfl := (Option.some.inj hc).symm
  exact ⟨rfl, List.append_cancel_left h⟩

/-- A character that stands for itself starts with no quotation mark and no backslash. -/
theorem plain_head {c : Char} (hquote : c ≠ '"') (hslash : c ≠ '\\') (rest : List UInt8) :
    ∃ byte tail, String.utf8EncodeChar c ++ rest = byte :: tail ∧ byte ≠ 0x22 ∧ byte ≠ 0x5C := by
  by_cases hc : c.toNat < 0x80
  · rw [Utf8.utf8EncodeChar_ascii hc]
    refine ⟨_, _, rfl, ?_, ?_⟩
    · intro h
      have hval := congrArg UInt8.toNat h
      rw [UInt8.toNat_ofNat', Nat.mod_eq_of_lt (by omega)] at hval
      exact hquote (Char.toNat_inj.mp hval)
    · intro h
      have hval := congrArg UInt8.toNat h
      rw [UInt8.toNat_ofNat', Nat.mod_eq_of_lt (by omega)] at hval
      exact hslash (Char.toNat_inj.mp hval)
  · obtain ⟨lead, tail, hshape, hlead⟩ := Utf8.utf8EncodeChar_wide (Nat.not_lt.mp hc)
    rw [hshape]
    refine ⟨lead, tail ++ rest, rfl, ?_, ?_⟩
    · rintro rfl
      exact absurd hlead (by decide)
    · rintro rfl
      exact absurd hlead (by decide)

/-- A character of a string is one that stands for itself, or an escape. -/
theorem ch_cases {D : Dialect} {text rest : List UInt8} {c : Char} (h : Ch D text c rest) :
    (text = String.utf8EncodeChar c ++ rest ∧ c ≠ '"' ∧ c ≠ '\\') ∨
      (∃ byte, text = 0x5C :: byte :: rest ∧ shortEscape byte = some c) ∨
      ∃ hex code tail, hex.length = 4 ∧ text = 0x5C :: 0x75 :: (hex ++ tail) ∧ D.hex hex = some code ∧
        ((isHigh code = false ∧ c = Char.ofNat code ∧ rest = tail) ∨
          ∃ hex' low, hex'.length = 4 ∧ tail = 0x5C :: 0x75 :: (hex' ++ rest) ∧ D.hex hex' = some low ∧
            isHigh code = true ∧ c = Char.ofNat (combine code low)) := by
  cases h with
  | plain c rest _ hquote hslash => exact .inl ⟨rfl, hquote, hslash⟩
  | short byte c rest h => exact .inr (.inl ⟨byte, rfl, h⟩)
  | code hex code rest hlen h hhigh hlow =>
    exact .inr (.inr ⟨hex, code, rest, hlen, rfl, h, .inl ⟨hhigh, rfl, rfl⟩⟩)
  | pair hex hex' high low rest hlen hlen' h h' hhigh hlow =>
    exact .inr (.inr ⟨hex, high, _, hlen, rfl, h, .inr ⟨hex', low, hlen', rfl, h', hhigh, rfl⟩⟩)

theorem ch_head {D : Dialect} {text rest : List UInt8} {c : Char} (h : Ch D text c rest) :
    ∀ tail, text ≠ 0x22 :: tail := by
  rintro tail rfl
  rcases ch_cases h with ⟨htext, hquote, hslash⟩ | ⟨byte, htext, -⟩ | ⟨hex, code, tail', -, htext, -⟩
  · obtain ⟨byte, tail', hshape, hne, -⟩ := plain_head hquote hslash rest
    rw [hshape] at htext
    exact hne (List.cons.inj htext).1.symm
  · cases htext
  · cases htext

theorem shortEscape_ne_u {byte : UInt8} {c : Char} (h : shortEscape byte = some c) : byte ≠ 0x75 := by
  rintro rfl
  cases h

theorem ch_unique {D : Dialect} {text rest rest' : List UInt8} {c c' : Char} (h : Ch D text c rest)
    (h' : Ch D text c' rest') : c = c' ∧ rest = rest' := by
  rcases ch_cases h with ⟨htext, hquote, hslash⟩ | ⟨byte, htext, hshort⟩ | ⟨hex, code, tail, hlen, htext, hcode, hrest⟩
  · rcases ch_cases h' with ⟨htext', -, -⟩ | ⟨byte', htext', -⟩ | ⟨hex', code', tail', -, htext', -⟩
    · exact utf8EncodeChar_cancel (htext.symm.trans htext')
    · obtain ⟨byte, tail, hshape, -, hne⟩ := plain_head hquote hslash rest
      rw [htext, hshape] at htext'
      exact absurd (List.cons.inj htext').1 hne
    · obtain ⟨byte, tail, hshape, -, hne⟩ := plain_head hquote hslash rest
      rw [htext, hshape] at htext'
      exact absurd (List.cons.inj htext').1 hne
  · rcases ch_cases h' with ⟨htext', hquote', hslash'⟩ | ⟨byte', htext', hshort'⟩ | ⟨hex', code', tail', -, htext', -⟩
    · obtain ⟨first, tail, hshape, -, hne⟩ := plain_head hquote' hslash' rest'
      rw [htext', hshape] at htext
      exact absurd (List.cons.inj htext).1 hne
    · rw [htext] at htext'
      cases htext'
      exact ⟨Option.some.inj (hshort.symm.trans hshort'), rfl⟩
    · rw [htext] at htext'
      cases htext'
      exact absurd rfl (shortEscape_ne_u hshort)
  · rcases ch_cases h' with ⟨htext', hquote', hslash'⟩ | ⟨byte', htext', hshort'⟩ |
      ⟨hex', code', tail', hlen', htext', hcode', hrest'⟩
    · obtain ⟨first, tail, hshape, -, hne⟩ := plain_head hquote' hslash' rest'
      rw [htext', hshape] at htext
      exact absurd (List.cons.inj htext).1 hne
    · rw [htext'] at htext
      cases htext
      exact absurd rfl (shortEscape_ne_u hshort')
    · rw [htext] at htext'
      obtain ⟨rfl, rfl⟩ := List.append_inj (List.cons.inj (List.cons.inj htext').2).2 (hlen.trans hlen'.symm)
      obtain rfl := Option.some.inj (hcode.symm.trans hcode')
      rcases hrest with ⟨hhigh, hc, hr⟩ | ⟨low, n, hlow, htail, hn, hhigh, hc⟩
      · rcases hrest' with ⟨-, hc', hr'⟩ | ⟨low', n', -, -, -, hhigh', -⟩
        · exact ⟨hc.trans hc'.symm, hr.trans hr'.symm⟩
        · rw [hhigh] at hhigh'
          cases hhigh'
      · rcases hrest' with ⟨hhigh', -, -⟩ | ⟨low', n', hlow', htail', hn', -, hc'⟩
        · rw [hhigh] at hhigh'
          cases hhigh'
        · rw [htail] at htail'
          obtain ⟨rfl, rfl⟩ := List.append_inj (List.cons.inj (List.cons.inj htail').2).2 (hlow.trans hlow'.symm)
          obtain rfl := Option.some.inj (hn.symm.trans hn')
          exact ⟨hc.trans hc'.symm, rfl⟩

theorem chars_unique {D : Dialect} {text rest rest' : List UInt8} {cs cs' : List Char}
    (h : Chars D text cs rest) (h' : Chars D text cs' rest') : cs = cs' ∧ rest = rest' := by
  induction h generalizing cs' with
  | nil rest =>
    cases h' with
    | nil => exact ⟨rfl, rfl⟩
    | cons hch _ => exact absurd rfl (ch_head hch rest)
  | cons hch _ ih =>
    cases h' with
    | nil => exact absurd rfl (ch_head hch _)
    | cons hch' hs' =>
      obtain ⟨rfl, rfl⟩ := ch_unique hch hch'
      obtain ⟨rfl, rfl⟩ := ih hs'
      exact ⟨rfl, rfl⟩

/-! ## Values -/

theorem value_cases {D : Dialect} {text rest : List UInt8} {raw : Raw} (h : Reads D .value text raw rest) :
    (∃ lexeme, text = lexeme ++ rest ∧ raw = .scalar lexeme ∧ D.scalar lexeme rest) ∨
      (∃ tail cs, text = 0x22 :: tail ∧ raw = .string cs ∧ Chars D tail cs rest) ∨
      (∃ tail, text = 0x5B :: tail ∧ ((raw = .array [] ∧ Ws tail (0x5D :: rest)) ∨ Reads D .elements tail raw rest)) ∨
      ∃ tail, text = 0x7B :: tail ∧ ((raw = .object [] ∧ Ws tail (0x7D :: rest)) ∨ Reads D .members tail raw rest) := by
  cases h with
  | scalar h => exact .inl ⟨_, rfl, rfl, h⟩
  | string h => exact .inr (.inl ⟨_, _, rfl, rfl, h⟩)
  | emptyArray h => exact .inr (.inr (.inl ⟨_, rfl, .inl ⟨rfl, h⟩⟩))
  | array h => exact .inr (.inr (.inl ⟨_, rfl, .inr h⟩))
  | emptyObject h => exact .inr (.inr (.inr ⟨_, rfl, .inl ⟨rfl, h⟩⟩))
  | object h => exact .inr (.inr (.inr ⟨_, rfl, .inr h⟩))

/-- A value starts with a byte that ends none. -/
theorem value_head {text rest : List UInt8} {raw : Raw} (h : Reads standard .value text raw rest) :
    ∃ byte tail, text = byte :: tail ∧ isEnd byte = false := by
  rcases value_cases h with ⟨lexeme, rfl, -, hscalar⟩ | ⟨tail, cs, rfl, -⟩ | ⟨tail, rfl, -⟩ | ⟨tail, rfl, -⟩
  · obtain ⟨hne, hbytes⟩ := scalar_bytes hscalar
    cases lexeme with
    | nil => exact absurd rfl hne
    | cons byte lexeme => exact ⟨byte, lexeme ++ rest, rfl, (hbytes byte List.mem_cons_self).1⟩
  · exact ⟨_, _, rfl, rfl⟩
  · exact ⟨_, _, rfl, rfl⟩
  · exact ⟨_, _, rfl, rfl⟩

theorem isWs_of_isEnd {byte : UInt8} (h : isEnd byte = false) : isWs byte = false := by
  simp only [isEnd, Bool.or_eq_false_iff] at h
  exact h.2

/-- Whitespace in front of a value ends where the value starts. -/
theorem ws_value {text text₁ rest : List UInt8} {raw : Raw} (hw : Ws text text₁)
    (h : Reads standard .value text₁ raw rest) : skipWs text = text₁ := by
  obtain ⟨byte, tail, rfl, hend⟩ := value_head h
  exact skipWs_cons_eq hw (isWs_of_isEnd hend)

theorem ws_unique {text rest rest' : List UInt8} {byte byte' : UInt8} (h : Ws text (byte :: rest))
    (h' : Ws text (byte' :: rest')) (hbyte : isWs byte = false) (hbyte' : isWs byte' = false) :
    byte = byte' ∧ rest = rest' := by
  have heq := (skipWs_cons_eq h hbyte).symm.trans (skipWs_cons_eq h' hbyte')
  exact List.cons.inj heq

theorem elements_cases {D : Dialect} {text rest : List UInt8} {raw : Raw} (h : Reads D .elements text raw rest) :
    ∃ text₁ first text₂, Ws text text₁ ∧ Reads D .value text₁ first text₂ ∧
      ((Ws text₂ (0x5D :: rest) ∧ raw = .array [first]) ∨
        ∃ text₃ raws, Ws text₂ (0x2C :: text₃) ∧ Reads D .elements text₃ (.array raws) rest ∧
          raw = .array (first :: raws)) := by
  cases h with
  | lastElement hw hv he => exact ⟨_, _, _, hw, hv, .inl ⟨he, rfl⟩⟩
  | element hw hv he hr => exact ⟨_, _, _, hw, hv, .inr ⟨_, _, he, hr, rfl⟩⟩

theorem members_cases {D : Dialect} {text rest : List UInt8} {raw : Raw} (h : Reads D .members text raw rest) :
    ∃ text₁ key text₂ text₃ text₄ first text₅, Ws text (0x22 :: text₁) ∧ Chars D text₁ key text₂ ∧
      Ws text₂ (0x3A :: text₃) ∧ Ws text₃ text₄ ∧ Reads D .value text₄ first text₅ ∧
      ((Ws text₅ (0x7D :: rest) ∧ raw = .object [(key, first)]) ∨
        ∃ text₆ items, Ws text₅ (0x2C :: text₆) ∧ Reads D .members text₆ (.object items) rest ∧
          raw = .object ((key, first) :: items)) := by
  cases h with
  | lastMember hw hk hc hw' hv he => exact ⟨_, _, _, _, _, _, _, hw, hk, hc, hw', hv, .inl ⟨he, rfl⟩⟩
  | member hw hk hc hw' hv he hr => exact ⟨_, _, _, _, _, _, _, hw, hk, hc, hw', hv, .inr ⟨_, _, he, hr, rfl⟩⟩

/-- An array that closes at once has no elements. -/
theorem elements_open {text rest rest' : List UInt8} {raw : Raw} (h : Reads standard .elements text raw rest) :
    ¬ Ws text (0x5D :: rest') := by
  intro hclose
  obtain ⟨text₁, first, text₂, hw, hv, -⟩ := elements_cases h
  obtain ⟨byte, tail, rfl, hend⟩ := value_head hv
  obtain ⟨rfl, -⟩ := ws_unique hw hclose (isWs_of_isEnd hend) rfl
  cases hend

theorem members_open {D : Dialect} {text rest rest' : List UInt8} {raw : Raw} (h : Reads D .members text raw rest) :
    ¬ Ws text (0x7D :: rest') := by
  intro hclose
  obtain ⟨text₁, key, text₂, text₃, text₄, first, text₅, hw, -⟩ := members_cases h
  cases (ws_unique hw hclose rfl rfl).1

/-- A scalar starts like no string and no container. -/
theorem scalar_apart {lexeme rest tail : List UInt8} {byte : UInt8} (h : standard.scalar lexeme rest)
    (hbyte : byte ∈ [0x22, 0x5B, 0x7B]) : lexeme ++ rest ≠ byte :: tail := by
  intro heq
  obtain ⟨hne, hbytes⟩ := scalar_bytes h
  cases lexeme with
  | nil => exact hne rfl
  | cons first lexeme =>
    obtain rfl := (List.cons.inj heq).1
    exact (hbytes first List.mem_cons_self).2 hbyte

/-- The same text is the same tree, and ends at the same place. -/
theorem reads_unique {part : Part} {text rest rest' : List UInt8} {raw raw' : Raw}
    (h : Reads standard part text raw rest) (h' : Reads standard part text raw' rest')
    (hends : part = .value → Ended rest ∧ Ended rest') : raw = raw' ∧ rest = rest' := by
  induction h generalizing raw' rest' with
  | scalar h =>
    obtain ⟨hrest, hrest'⟩ := hends rfl
    rcases value_cases h' with ⟨lexeme, heq, rfl, hscalar⟩ | ⟨tail, cs, heq, -⟩ | ⟨tail, heq, -⟩ | ⟨tail, heq, -⟩
    · obtain ⟨rfl, rfl⟩ := scalar_unique h hscalar hrest hrest' heq
      exact ⟨rfl, rfl⟩
    · exact absurd heq (scalar_apart h (by decide))
    · exact absurd heq (scalar_apart h (by decide))
    · exact absurd heq (scalar_apart h (by decide))
  | string h =>
    rcases value_cases h' with ⟨lexeme, heq, -, hscalar⟩ | ⟨tail, cs, heq, rfl, hs⟩ | ⟨tail, heq, -⟩ | ⟨tail, heq, -⟩
    · exact absurd heq.symm (scalar_apart hscalar (by decide))
    · cases heq
      obtain ⟨rfl, rfl⟩ := chars_unique h hs
      exact ⟨rfl, rfl⟩
    · cases heq
    · cases heq
  | emptyArray h =>
    rcases value_cases h' with ⟨lexeme, heq, -, hscalar⟩ | ⟨tail, cs, heq, -⟩ | ⟨tail, heq, hr⟩ | ⟨tail, heq, -⟩
    · exact absurd heq.symm (scalar_apart hscalar (by decide))
    · cases heq
    · cases heq
      rcases hr with ⟨rfl, hclose⟩ | hr
      · exact ⟨rfl, (ws_unique h hclose rfl rfl).2⟩
      · exact absurd h (elements_open hr)
    · cases heq
  | array h ih =>
    rcases value_cases h' with ⟨lexeme, heq, -, hscalar⟩ | ⟨tail, cs, heq, -⟩ | ⟨tail, heq, hr⟩ | ⟨tail, heq, -⟩
    · exact absurd heq.symm (scalar_apart hscalar (by decide))
    · cases heq
    · cases heq
      rcases hr with ⟨rfl, hclose⟩ | hr
      · exact absurd hclose (elements_open h)
      · exact ih hr nofun
    · cases heq
  | emptyObject h =>
    rcases value_cases h' with ⟨lexeme, heq, -, hscalar⟩ | ⟨tail, cs, heq, -⟩ | ⟨tail, heq, -⟩ | ⟨tail, heq, hr⟩
    · exact absurd heq.symm (scalar_apart hscalar (by decide))
    · cases heq
    · cases heq
    · cases heq
      rcases hr with ⟨rfl, hclose⟩ | hr
      · exact ⟨rfl, (ws_unique h hclose rfl rfl).2⟩
      · exact absurd h (members_open hr)
  | object h ih =>
    rcases value_cases h' with ⟨lexeme, heq, -, hscalar⟩ | ⟨tail, cs, heq, -⟩ | ⟨tail, heq, -⟩ | ⟨tail, heq, hr⟩
    · exact absurd heq.symm (scalar_apart hscalar (by decide))
    · cases heq
    · cases heq
    · cases heq
      rcases hr with ⟨rfl, hclose⟩ | hr
      · exact absurd hclose (members_open h)
      · exact ih hr nofun
  | lastElement hw hv he ih =>
    obtain ⟨text₁', first, text₂', hw', hv', hmore⟩ := elements_cases h'
    obtain rfl := (ws_value hw hv).symm.trans (ws_value hw' hv')
    rcases hmore with ⟨he', rfl⟩ | ⟨text₃, raws, he', -, -⟩
    · obtain ⟨rfl, rfl⟩ := ih hv' fun _ =>
        ⟨ended_of_ws he (ended_cons rfl _), ended_of_ws he' (ended_cons rfl _)⟩
      exact ⟨rfl, (ws_unique he he' rfl rfl).2⟩
    · obtain ⟨-, rfl⟩ := ih hv' fun _ =>
        ⟨ended_of_ws he (ended_cons rfl _), ended_of_ws he' (ended_cons rfl _)⟩
      cases (ws_unique he he' rfl rfl).1
  | element hw hv he _ ih ih' =>
    obtain ⟨text₁', first, text₂', hw', hv', hmore⟩ := elements_cases h'
    obtain rfl := (ws_value hw hv).symm.trans (ws_value hw' hv')
    rcases hmore with ⟨he', rfl⟩ | ⟨text₃, raws, he', hr', rfl⟩
    · obtain ⟨-, rfl⟩ := ih hv' fun _ =>
        ⟨ended_of_ws he (ended_cons rfl _), ended_of_ws he' (ended_cons rfl _)⟩
      cases (ws_unique he he' rfl rfl).1
    · obtain ⟨rfl, rfl⟩ := ih hv' fun _ =>
        ⟨ended_of_ws he (ended_cons rfl _), ended_of_ws he' (ended_cons rfl _)⟩
      obtain rfl := (ws_unique he he' rfl rfl).2
      obtain ⟨hraws, rfl⟩ := ih' hr' nofun
      cases hraws
      exact ⟨rfl, rfl⟩
  | lastMember hw hk hc hw₂ hv he ih =>
    obtain ⟨text₁', key', text₂', text₃', text₄', first, text₅', hw', hk', hc', hw₂', hv', hmore⟩ := members_cases h'
    obtain rfl := (ws_unique hw hw' rfl rfl).2
    obtain ⟨rfl, rfl⟩ := chars_unique hk hk'
    obtain rfl := (ws_unique hc hc' rfl rfl).2
    obtain rfl := (ws_value hw₂ hv).symm.trans (ws_value hw₂' hv')
    rcases hmore with ⟨he', rfl⟩ | ⟨text₆, items, he', -, -⟩
    · obtain ⟨rfl, rfl⟩ := ih hv' fun _ =>
        ⟨ended_of_ws he (ended_cons rfl _), ended_of_ws he' (ended_cons rfl _)⟩
      exact ⟨rfl, (ws_unique he he' rfl rfl).2⟩
    · obtain ⟨-, rfl⟩ := ih hv' fun _ =>
        ⟨ended_of_ws he (ended_cons rfl _), ended_of_ws he' (ended_cons rfl _)⟩
      cases (ws_unique he he' rfl rfl).1
  | member hw hk hc hw₂ hv he _ ih ih' =>
    obtain ⟨text₁', key', text₂', text₃', text₄', first, text₅', hw', hk', hc', hw₂', hv', hmore⟩ := members_cases h'
    obtain rfl := (ws_unique hw hw' rfl rfl).2
    obtain ⟨rfl, rfl⟩ := chars_unique hk hk'
    obtain rfl := (ws_unique hc hc' rfl rfl).2
    obtain rfl := (ws_value hw₂ hv).symm.trans (ws_value hw₂' hv')
    rcases hmore with ⟨he', rfl⟩ | ⟨text₆, items, he', hr', rfl⟩
    · obtain ⟨-, rfl⟩ := ih hv' fun _ =>
        ⟨ended_of_ws he (ended_cons rfl _), ended_of_ws he' (ended_cons rfl _)⟩
      cases (ws_unique he he' rfl rfl).1
    · obtain ⟨rfl, rfl⟩ := ih hv' fun _ =>
        ⟨ended_of_ws he (ended_cons rfl _), ended_of_ws he' (ended_cons rfl _)⟩
      obtain rfl := (ws_unique he he' rfl rfl).2
      obtain ⟨hitems, rfl⟩ := ih' hr' nofun
      cases hitems
      exact ⟨rfl, rfl⟩

/-- A text is at most one tree. -/
theorem text_unique {text : List UInt8} {raw raw' : Raw} (h : Text standard text raw)
    (h' : Text standard text raw') : raw = raw' := by
  obtain ⟨text₁, rest, hw, hr, he⟩ := h
  obtain ⟨text₁', rest', hw', hr', he'⟩ := h'
  obtain rfl := (ws_value hw hr).symm.trans (ws_value hw' hr')
  exact (reads_unique hr hr' fun _ => ⟨ended_of_ws he nofun, ended_of_ws he' nofun⟩).1

end SupraHarness.Json
