import Mathlib.Algebra.GroupWithZero.Nat
import SupraHarness.Ansi.Bytewise

/-!
# The parameters of a sequence

A parameter as it is written is a numeral and its sub-parameters, each a numeral that may be
empty. The scanner keeps what it reads of them in four arrays; `Carries` says that a list of
readings is what these hold. Parameters are collected one at a time, and the ones beyond the
capacity leave the arrays as they are.
-/
namespace SupraHarness.Ansi

structure Numeral where
  bytes : List UInt8
  digits : ∀ byte ∈ bytes, isDigit byte = true

/-- What the scanner makes of a numeral: it saturates, and an empty one is omitted. -/
def Numeral.value (n : Numeral) : Int :=
  if n.bytes = [] then kParamOmitted else n.bytes.foldl pushDigit 0

structure Param where
  number : Numeral
  subs : List Numeral

/-- A value and its sub-parameters. -/
abbrev Reading := Int × List Int

namespace Param

def bytes (p : Param) : List UInt8 := p.number.bytes ++ p.subs.flatMap fun s => 0x3A :: s.bytes

def reading (p : Param) : Reading := (p.number.value, p.subs.map Numeral.value)

/-- A parameter without sub-parameters. -/
def plain (n : Numeral) : Param := ⟨n, []⟩

end Param

/-- Parameters separated by `;`. -/
def body : List Param → List UInt8
  | [] => []
  | p :: ps => p.bytes ++ ps.flatMap fun q => 0x3B :: q.bytes

/-- `ESC [ p1 ; ... ; pn m`. -/
def sgr (ps : List Param) : List UInt8 := [0x1B, 0x5B] ++ body ps ++ [0x6D]

/-! ## What the arrays hold -/

namespace Sequence

variable (seq : Sequence)

def param (i : Nat) : Int := (seq.params[i]?).getD 0
def start (i : Nat) : Nat := (seq.subparamIndex[i]?).getD 0
def count (i : Nat) : Nat := (seq.subparamCount[i]?).getD 0
def sub (k : Nat) : Int := (seq.subparams[k]?).getD 0

/-- Parameter `i` is this reading, with its sub-parameters in front of slot `used`. -/
structure At (used i : Nat) (r : Reading) : Prop where
  param : seq.param i = r.1
  count : seq.count i = r.2.length
  within : seq.start i + r.2.length ≤ used
  sub : ∀ k v, r.2[k]? = some v → seq.sub (seq.start i + k) = v

/-- Every parameter that was opened has been closed. -/
structure Collected (rs : List Reading) : Prop where
  readings : ∀ i r, rs[i]? = some r → seq.At seq.subparamTotal i r
  capacity : rs.length ≤ maxParams
  total_le : seq.subparamTotal ≤ maxSubparams
  paramCount : seq.paramCount = rs.length

/-- One parameter is open, and the sub-parameter slots of the others are in front of its own. -/
structure Opened (rs : List Reading) (r : Reading) : Prop where
  closed : ∀ i r, rs[i]? = some r → seq.At (seq.start rs.length) i r
  opened : seq.At seq.subparamTotal rs.length r
  ends : seq.start rs.length + r.2.length = seq.subparamTotal
  capacity : rs.length < maxParams
  total_le : seq.subparamTotal ≤ maxSubparams
  paramCount : seq.paramCount = rs.length

end Sequence

variable {seq seq' : Sequence} {rs : List Reading} {r : Reading} {used used' i : Nat}

/-- A parameter whose slots were not written is as it was. -/
theorem Sequence.At.frame (h : seq.At used i r) (hparam : seq'.param i = seq.param i)
    (hstart : seq'.start i = seq.start i) (hcount : seq'.count i = seq.count i)
    (hsub : ∀ k < used, seq'.sub k = seq.sub k) (hle : used ≤ used') : seq'.At used' i r := by
  have hw := h.within
  constructor
  · rw [hparam, h.param]
  · rw [hcount, h.count]
  · omega
  · intro k v hk
    have hlt := (List.getElem?_eq_some_iff.1 hk).1
    rw [hstart, hsub _ (by omega)]
    exact h.sub k v hk

theorem collected_clear (seq : Sequence) : (clearSequence seq).Collected [] := by
  constructor <;> simp [clearSequence]

theorem opened_beginParam (h : seq.Collected rs) (hlt : rs.length < maxParams) :
    (beginParam seq).Opened rs (kParamOmitted, []) := by
  have hc := h.paramCount
  have hstart : (beginParam seq).start rs.length = seq.subparamTotal := by
    grind [Sequence.start, beginParam]
  constructor
  · intro i r hi
    have hlt := (List.getElem?_eq_some_iff.1 hi).1
    apply (h.readings i r hi).frame
    · grind [Sequence.param, beginParam]
    · grind [Sequence.start, beginParam]
    · grind [Sequence.count, beginParam]
    · grind [Sequence.sub, beginParam]
    · omega
  · constructor
    · grind [Sequence.param, beginParam]
    · grind [Sequence.count, beginParam]
    · grind [beginParam]
    · simp
  · grind [beginParam]
  · exact hlt
  · have := h.total_le
    grind [beginParam]
  · grind [beginParam]

theorem collected_endParam (h : seq.Opened rs r) : (endParam seq).Collected (rs ++ [r]) := by
  have hc := h.paramCount
  have hlt := h.capacity
  have hends := h.ends
  have hend : endParam seq =
      { seq with paramCount := rs.length + 1, paramHasDigits := false, inSubparam := false } := by
    simp [endParam, hc, hlt]
  rw [hend]
  constructor
  · intro i r' hi
    rcases Nat.lt_trichotomy i rs.length with hl | rfl | hl
    · rw [List.getElem?_append_left hl] at hi
      exact (h.closed i r' hi).frame rfl rfl rfl (fun _ _ => rfl) (by simp only; omega)
    · obtain rfl : r = r' := by simpa using hi
      exact h.opened.frame rfl rfl rfl (fun _ _ => rfl) (Nat.le_refl _)
    · rw [List.getElem?_eq_none (by simp; omega)] at hi
      cases hi
  · simp
    omega
  · exact h.total_le
  · simp

/-! ## Reading a parameter -/

/-- A byte of the body of a sequence. -/
def pushByte (seq : Sequence) (byte : UInt8) : Sequence :=
  if isDigit byte then
    if seq.inSubparam then accumulateSubparamDigit seq byte else accumulateDigit seq byte
  else if byte = 0x3B then beginParam (endParam seq)
  else beginSubparam seq

theorem opened_digit {v : Int} (h : seq.Opened rs (v, [])) (digit : UInt8) :
    (accumulateDigit seq digit).Opened rs
      (pushDigit (if seq.paramHasDigits then v else 0) digit, []) := by
  have hc := h.paramCount
  have hlt := h.capacity
  have hv : seq.param rs.length = v := h.opened.param
  have hacc : accumulateDigit seq digit =
      { seq with
        params := seq.params.setIfInBounds rs.length
          (pushDigit (if seq.paramHasDigits then v else 0) digit)
        paramHasDigits := true } := by
    simp [accumulateDigit, hc, ← hv, Sequence.param, Nat.not_le.2 hlt]
  rw [hacc]
  constructor
  · intro i r hi
    have hl := (List.getElem?_eq_some_iff.1 hi).1
    apply (h.closed i r hi).frame
    · grind [Sequence.param]
    · rfl
    · rfl
    · exact fun _ _ => rfl
    · exact Nat.le_refl _
  · exact ⟨by grind [Sequence.param], h.opened.count, h.opened.within, h.opened.sub⟩
  · exact h.ends
  · exact hlt
  · exact h.total_le
  · exact hc

theorem opened_beginSubparam (h : seq.Opened rs r) (hlt : seq.subparamTotal < maxSubparams) :
    (beginSubparam seq).Opened rs (r.1, r.2 ++ [kParamOmitted]) := by
  have hc := h.paramCount
  have hcap := h.capacity
  have hends := h.ends
  have hcount : seq.count rs.length = r.2.length := h.opened.count
  have hbegin : beginSubparam seq =
      { seq with
        subparams := seq.subparams.setIfInBounds seq.subparamTotal kParamOmitted
        subparamTotal := seq.subparamTotal + 1
        subparamCount := seq.subparamCount.setIfInBounds rs.length (r.2.length + 1)
        paramHasDigits := false
        inSubparam := true } := by
    simp [beginSubparam, hc, hcap, hlt, ← hcount, Sequence.count]
  rw [hbegin]
  constructor
  · intro i r' hi
    have hl := (List.getElem?_eq_some_iff.1 hi).1
    apply (h.closed i r' hi).frame
    · rfl
    · rfl
    · grind [Sequence.count]
    · grind [Sequence.sub]
    · exact Nat.le_refl _
  · constructor
    · exact h.opened.param
    · grind [Sequence.count]
    · simp only [List.length_append, List.length_singleton]
      exact Nat.succ_le_succ h.opened.within
    · intro k v hk
      change (seq.subparams.setIfInBounds _ _)[seq.start rs.length + k]?.getD 0 = v
      have hs := h.opened.sub k
      simp only [Sequence.sub] at hs
      grind
  · simp only [List.length_append, List.length_singleton]
    exact congrArg Nat.succ hends
  · exact hcap
  · exact hlt
  · exact hc

theorem opened_subDigit {v w : Int} {subs : List Int} (h : seq.Opened rs (v, subs ++ [w]))
    (digit : UInt8) :
    (accumulateSubparamDigit seq digit).Opened rs
      (v, subs ++ [pushDigit (if seq.paramHasDigits then w else 0) digit]) := by
  have hends : seq.start rs.length + (subs.length + 1) = seq.subparamTotal := by
    simpa using h.ends
  have hslot : seq.subparamTotal - 1 = seq.start rs.length + subs.length := by omega
  have htotal : ¬ seq.subparamTotal = 0 := by omega
  have hle := h.total_le
  have hw : seq.sub (seq.start rs.length + subs.length) = w :=
    h.opened.sub subs.length w (by simp)
  have hacc : accumulateSubparamDigit seq digit =
      { seq with
        subparams := seq.subparams.setIfInBounds (seq.start rs.length + subs.length)
          (pushDigit (if seq.paramHasDigits then w else 0) digit)
        paramHasDigits := true } := by
    simp [accumulateSubparamDigit, htotal, hslot, ← hw, Sequence.sub]
  rw [hacc]
  constructor
  · intro i r' hi
    apply (h.closed i r' hi).frame
    · rfl
    · rfl
    · rfl
    · grind [Sequence.sub]
    · exact Nat.le_refl _
  · constructor
    · exact h.opened.param
    · exact h.opened.count.trans (by simp)
    · exact Nat.le_trans (by simp [Sequence.start]) h.opened.within
    · intro k v hk
      change (seq.subparams.setIfInBounds _ _)[seq.start rs.length + k]?.getD 0 = v
      have hs := h.opened.sub k
      simp only [Sequence.sub] at hs
      grind
  · exact Eq.trans (by simp [Sequence.start]) hends
  · exact h.capacity
  · exact hle
  · exact h.paramCount

/-! ## Collecting -/

/-- What the digits of a numeral make of a slot that holds `v`. -/
theorem opened_digits (digits : List UInt8) (hd : ∀ byte ∈ digits, isDigit byte = true) {v : Int}
    (h : seq.Opened rs (v, [])) (hsub : seq.inSubparam = false) :
    (digits.foldl pushByte seq).Opened rs
        (if digits = [] then v
          else digits.foldl pushDigit (if seq.paramHasDigits then v else 0), []) ∧
      (digits.foldl pushByte seq).subparamTotal = seq.subparamTotal := by
  induction digits generalizing seq v with
  | nil => simpa using h
  | cons digit digits ih =>
    rw [List.forall_mem_cons] at hd
    have hpush : pushByte seq digit = accumulateDigit seq digit := by
      simp [pushByte, hd.1, hsub]
    have hacc : (accumulateDigit seq digit).inSubparam = false ∧
        (accumulateDigit seq digit).paramHasDigits = true ∧
        (accumulateDigit seq digit).subparamTotal = seq.subparamTotal := by
      simp [accumulateDigit, h.paramCount, Nat.not_le.2 h.capacity, hsub]
    have hrest := ih hd.2 (opened_digit h digit) hacc.1
    rw [List.foldl_cons, hpush]
    rw [hacc.2.1, if_pos rfl, hacc.2.2] at hrest
    cases digits with
    | nil => simpa using hrest
    | cons next digits => simpa using hrest

theorem opened_subDigits (digits : List UInt8) (hd : ∀ byte ∈ digits, isDigit byte = true)
    {v w : Int} {subs : List Int} (h : seq.Opened rs (v, subs ++ [w]))
    (hsub : seq.inSubparam = true) :
    (digits.foldl pushByte seq).Opened rs
        (v, subs ++ [if digits = [] then w
          else digits.foldl pushDigit (if seq.paramHasDigits then w else 0)]) ∧
      (digits.foldl pushByte seq).subparamTotal = seq.subparamTotal := by
  induction digits generalizing seq w with
  | nil => simpa using h
  | cons digit digits ih =>
    rw [List.forall_mem_cons] at hd
    have hends := h.ends
    simp only [List.length_append, List.length_singleton] at hends
    have htotal : ¬ seq.subparamTotal = 0 := by omega
    have hpush : pushByte seq digit = accumulateSubparamDigit seq digit := by
      simp [pushByte, hd.1, hsub]
    have hacc : (accumulateSubparamDigit seq digit).inSubparam = true ∧
        (accumulateSubparamDigit seq digit).paramHasDigits = true ∧
        (accumulateSubparamDigit seq digit).subparamTotal = seq.subparamTotal := by
      simp [accumulateSubparamDigit, htotal, hsub]
    have hrest := ih hd.2 (opened_subDigit h digit) hacc.1
    rw [List.foldl_cons, hpush]
    rw [hacc.2.1, if_pos rfl, hacc.2.2] at hrest
    cases digits with
    | nil => simpa using hrest
    | cons next digits => simpa using hrest

/-- A sub-parameter, its colon included. -/
theorem opened_sub (s : Numeral) (h : seq.Opened rs r) (hlt : seq.subparamTotal < maxSubparams) :
    ((0x3A :: s.bytes).foldl pushByte seq).Opened rs (r.1, r.2 ++ [s.value]) ∧
      ((0x3A :: s.bytes).foldl pushByte seq).subparamTotal = seq.subparamTotal + 1 := by
  have hpush : pushByte seq 0x3A = beginSubparam seq := by simp [pushByte, isDigit]
  have hbegin : (beginSubparam seq).inSubparam = true ∧
      (beginSubparam seq).paramHasDigits = false ∧
      (beginSubparam seq).subparamTotal = seq.subparamTotal + 1 := by
    simp [beginSubparam, h.paramCount, h.capacity, hlt]
  have hd := opened_subDigits s.bytes s.digits (opened_beginSubparam h hlt) hbegin.1
  rw [hbegin.2.1, hbegin.2.2] at hd
  rw [List.foldl_cons, hpush]
  exact hd

theorem opened_subs (subs : List Numeral) (h : seq.Opened rs r)
    (hle : seq.subparamTotal + subs.length ≤ maxSubparams) :
    ((subs.flatMap fun s => 0x3A :: s.bytes).foldl pushByte seq).Opened rs
        (r.1, r.2 ++ subs.map Numeral.value) ∧
      ((subs.flatMap fun s => 0x3A :: s.bytes).foldl pushByte seq).subparamTotal =
        seq.subparamTotal + subs.length := by
  induction subs generalizing seq r with
  | nil => simpa using h
  | cons s subs ih =>
    rw [List.length_cons] at hle
    have hs := opened_sub s h (by omega)
    have hrest := ih hs.1 (by omega)
    rw [List.flatMap_cons, List.foldl_append]
    constructor
    · simpa [List.append_assoc] using hrest.1
    · rw [hrest.2, hs.2, List.length_cons]
      omega

/-- A parameter from its opening to its closing. -/
def collect (seq : Sequence) (p : Param) : Sequence :=
  endParam (p.bytes.foldl pushByte (beginParam seq))

@[simp] theorem beginParam_subparamTotal (seq : Sequence) :
    (beginParam seq).subparamTotal = seq.subparamTotal := by
  simp only [beginParam]
  split_ifs <;> rfl

@[simp] theorem endParam_subparamTotal (seq : Sequence) :
    (endParam seq).subparamTotal = seq.subparamTotal := by
  simp only [endParam]
  split_ifs <;> rfl

theorem collect_spec (p : Param) (h : seq.Collected rs) (hlt : rs.length < maxParams)
    (hle : seq.subparamTotal + p.subs.length ≤ maxSubparams) :
    (collect seq p).Collected (rs ++ [p.reading]) ∧
      (collect seq p).subparamTotal = seq.subparamTotal + p.subs.length := by
  have hd := opened_digits p.number.bytes p.number.digits (opened_beginParam h hlt) rfl
  have hhas : (beginParam seq).paramHasDigits = false := rfl
  rw [hhas, beginParam_subparamTotal] at hd
  have hsubs := opened_subs p.subs hd.1 (by rw [hd.2]; exact hle)
  rw [collect, Param.bytes, List.foldl_append]
  constructor
  · exact collected_endParam hsubs.1
  · rw [endParam_subparamTotal, hsubs.2, hd.2]

/-- What a parameter beyond the capacity leaves alone. -/
structure SameArrays (seq seq' : Sequence) : Prop where
  params : seq'.params = seq.params
  paramCount : seq'.paramCount = seq.paramCount
  subparams : seq'.subparams = seq.subparams
  subparamTotal : seq'.subparamTotal = seq.subparamTotal
  subparamIndex : seq'.subparamIndex = seq.subparamIndex
  subparamCount : seq'.subparamCount = seq.subparamCount

theorem SameArrays.collected (h : SameArrays seq seq') (hc : seq.Collected rs) :
    seq'.Collected rs := by
  constructor
  · intro i r hi
    apply (hc.readings i r hi).frame
    · rw [Sequence.param, h.params, Sequence.param]
    · rw [Sequence.start, h.subparamIndex, Sequence.start]
    · rw [Sequence.count, h.subparamCount, Sequence.count]
    · intro k _
      rw [Sequence.sub, h.subparams, Sequence.sub]
    · exact Nat.le_of_eq h.subparamTotal.symm
  · exact hc.capacity
  · exact h.subparamTotal ▸ hc.total_le
  · exact h.paramCount.trans hc.paramCount

theorem SameArrays.trans {seq'' : Sequence} (h : SameArrays seq seq') (h' : SameArrays seq' seq'') :
    SameArrays seq seq'' :=
  ⟨h'.1.trans h.1, h'.2.trans h.2, h'.3.trans h.3, h'.4.trans h.4, h'.5.trans h.5, h'.6.trans h.6⟩

theorem sameArrays_beginParam (hfull : seq.paramCount = maxParams) :
    SameArrays seq (beginParam seq) := by
  constructor <;> simp [beginParam, hfull]

theorem sameArrays_endParam (hfull : seq.paramCount = maxParams) :
    SameArrays seq (endParam seq) := by
  constructor <;> simp [endParam, hfull]

theorem sameArrays_digits (digits : List UInt8) (hd : ∀ byte ∈ digits, isDigit byte = true)
    (hfull : seq.paramCount = maxParams) (hsub : seq.inSubparam = false) :
    SameArrays seq (digits.foldl pushByte seq) := by
  induction digits generalizing seq with
  | nil => exact ⟨rfl, rfl, rfl, rfl, rfl, rfl⟩
  | cons digit digits ih =>
    rw [List.forall_mem_cons] at hd
    have hpush : pushByte seq digit = { seq with paramsDropped := true } := by
      simp [pushByte, hd.1, hsub, accumulateDigit, hfull]
    have hdrop : SameArrays seq { seq with paramsDropped := true } :=
      ⟨rfl, rfl, rfl, rfl, rfl, rfl⟩
    rw [List.foldl_cons, hpush]
    exact hdrop.trans (ih hd.2 hfull hsub)

/-- A plain parameter beyond the capacity is consumed and dropped. -/
theorem collect_full {p : Param} (hp : p.subs = []) (h : seq.Collected rs)
    (hfull : rs.length = maxParams) :
    (collect seq p).Collected rs ∧ (collect seq p).subparamTotal = seq.subparamTotal := by
  have hcount : seq.paramCount = maxParams := h.paramCount.trans hfull
  have hbegin := sameArrays_beginParam hcount
  have hdigits := hbegin.trans (sameArrays_digits p.number.bytes p.number.digits
    (hbegin.paramCount.trans hcount) rfl)
  have hend := hdigits.trans (sameArrays_endParam (hdigits.paramCount.trans hcount))
  rw [collect, Param.bytes, hp, List.flatMap_nil, List.append_nil]
  exact ⟨hend.collected h, hend.subparamTotal⟩

/-- How many sub-parameters some parameters have in all. -/
def subTotal (ps : List Param) : Nat := (ps.map fun p => p.subs.length).sum

@[simp] theorem subTotal_nil : subTotal [] = 0 := rfl

@[simp] theorem subTotal_cons (p : Param) (ps : List Param) :
    subTotal (p :: ps) = p.subs.length + subTotal ps := by
  simp [subTotal]

@[simp] theorem subTotal_append (ps qs : List Param) :
    subTotal (ps ++ qs) = subTotal ps + subTotal qs := by
  simp [subTotal]

/-- The readings of as many parameters as there is room for. -/
theorem collect_all (ps : List Param) (h : seq.Collected rs)
    (hle : seq.subparamTotal + subTotal ps ≤ maxSubparams)
    (hplain : ∀ p ∈ ps.drop (maxParams - rs.length), p.subs = []) :
    (ps.foldl collect seq).Collected
      (rs ++ (ps.take (maxParams - rs.length)).map Param.reading) := by
  induction ps generalizing seq rs with
  | nil => simpa using h
  | cons p ps ih =>
    rw [subTotal_cons] at hle
    have hcap := h.capacity
    by_cases hlt : rs.length < maxParams
    · obtain ⟨n, hn⟩ : ∃ n, maxParams - rs.length = n + 1 := ⟨maxParams - rs.length - 1, by omega⟩
      have hn' : maxParams - (rs ++ [p.reading]).length = n := by
        simp
        omega
      obtain ⟨hp, htotal⟩ := collect_spec p h hlt (by omega)
      have hrest := ih hp (by omega) (by rw [hn']; rw [hn] at hplain; exact hplain)
      rw [hn'] at hrest
      rw [hn, List.take_succ_cons, List.map_cons, List.foldl_cons]
      simpa using hrest
    · have hfull : rs.length = maxParams := by omega
      have hzero : maxParams - rs.length = 0 := by omega
      rw [hzero, List.drop_zero, List.forall_mem_cons] at hplain
      obtain ⟨hp, htotal⟩ := collect_full hplain.1 h hfull
      have hrest := ih hp (by omega) (by rw [hzero]; exact hplain.2)
      rw [hzero] at hrest ⊢
      simpa using hrest

/-! ## The sequence as a whole -/

/-- A separator closes a parameter and opens the next. -/
theorem foldl_pushByte_body (seq : Sequence) (p : Param) (ps : List Param) :
    endParam ((body (p :: ps)).foldl pushByte (beginParam seq)) = (p :: ps).foldl collect seq := by
  induction ps generalizing seq p with
  | nil => simp [body, collect]
  | cons q ps ih =>
    have hsep : ∀ seq, pushByte seq 0x3B = beginParam (endParam seq) := by
      intro seq
      simp [pushByte, isDigit]
    have hrest := ih (collect seq p) q
    rw [List.foldl_cons, ← hrest]
    simp only [body, collect, List.flatMap_cons, List.foldl_append, List.foldl_cons, hsep]

theorem foldl_pushByte_intermediateCount (bytes : List UInt8) (seq : Sequence) :
    (bytes.foldl pushByte seq).intermediateCount = seq.intermediateCount := by
  induction bytes generalizing seq with
  | nil => rfl
  | cons byte bytes ih =>
    rw [List.foldl_cons, ih]
    simp only [pushByte, accumulateSubparamDigit, accumulateDigit, beginParam, endParam,
      beginSubparam]
    split_ifs <;> rfl

/-- What the body of a sequence is written with. -/
def isBodyByte (byte : UInt8) : Bool := isDigit byte || byte == 0x3B || byte == 0x3A

theorem Param.body_bytes (p : Param) : ∀ byte ∈ p.bytes, isBodyByte byte = true := by
  intro byte hb
  simp only [Param.bytes, List.mem_append, List.mem_flatMap, List.mem_cons] at hb
  rcases hb with hb | ⟨s, -, rfl | hb⟩
  · simp [isBodyByte, p.number.digits byte hb]
  · rfl
  · simp [isBodyByte, s.digits byte hb]

theorem body_bytes (ps : List Param) : ∀ byte ∈ body ps, isBodyByte byte = true := by
  intro byte hb
  cases ps with
  | nil => simp [body] at hb
  | cons p ps =>
    simp only [body, List.mem_append, List.mem_flatMap, List.mem_cons] at hb
    rcases hb with hb | ⟨q, -, rfl | hb⟩
    · exact p.body_bytes byte hb
    · rfl
    · exact q.body_bytes byte hb

/-- The two states in which the scanner reads parameters. -/
def State.inParams (state : State) : Prop := state = .csiEntry ∨ state = .csiParam

theorem dispatch_params {state : State} (h : state.inParams) (seq : Sequence) {byte : UInt8}
    (hc : isCancel byte = false) : dispatch state seq byte = onCsiParam seq byte := by
  rcases h with rfl | rfl <;> simp [dispatch, hc]

theorem onCsiParam_body (seq : Sequence) {byte : UInt8} (h : isBodyByte byte = true) :
    onCsiParam seq byte = .advance .csiParam (pushByte seq byte) := by
  simp only [onCsiParam, pushByte]
  split_ifs with h1 h2 h3 <;> simp_all [isBodyByte]

theorem not_cancel_of_body {byte : UInt8} (h : isBodyByte byte = true) : isCancel byte = false := by
  have hall : ∀ n : Fin 256, isBodyByte (UInt8.ofNat n) = true →
      isCancel (UInt8.ofNat n) = false := by decide +kernel
  simpa using hall ⟨byte.toNat, byte.toNat_lt⟩ (by simpa using h)

/-- The body is read into the accumulators, and nothing is reported. -/
theorem run_body (c : Core) (hs : c.state.inParams) (bytes : List UInt8)
    (hb : ∀ byte ∈ bytes, isBodyByte byte = true) :
    ∃ state, state.inParams ∧
      Transducer.run Core.step c bytes =
        ({ c with state := state, seq := bytes.foldl pushByte c.seq }, []) := by
  induction bytes generalizing c with
  | nil => exact ⟨c.state, hs, rfl⟩
  | cons byte bytes ih =>
    rw [List.forall_mem_cons] at hb
    have hstep : c.step byte = ({ c with state := .csiParam, seq := pushByte c.seq byte }, []) := by
      rw [step_sequence (by rcases hs with h | h <;> rw [h] <;> decide),
        dispatch_params hs _ (not_cancel_of_body hb.1), onCsiParam_body _ hb.1]
      rfl
    obtain ⟨state, hstate, hrun⟩ :=
      ih { c with state := .csiParam, seq := pushByte c.seq byte } (.inr rfl) hb.2
    refine ⟨state, hstate, ?_⟩
    rw [Transducer.run_cons, hstep, hrun]
    rfl

/-- What the scanner has read at the end of the sequence `sgr ps`. -/
def collected (seq : Sequence) (ps : List Param) : Sequence := ps.foldl collect (clearSequence seq)

/-- From Ground, one sequence is one token, and the scanner is back in Ground. -/
theorem run_sgr (c : Core) (hg : c.state = .ground) {ps : List Param} (hne : ps ≠ []) :
    ∃ c', c'.state = .ground ∧
      Transducer.run Core.step c (sgr ps) =
        (c', [.token (emit (collected c.seq ps) .csi 0 0 0x6D)]) := by
  obtain ⟨p, ps, rfl⟩ := List.exists_cons_of_ne_nil hne
  have hesc : c.step 0x1B = _ := step_stop c hg (Bool.and_false _) rfl
  have hground : dispatch .ground c.seq 0x1B = .advance .escape (clearSequence c.seq) := rfl
  have hescape : ∀ seq, dispatch .escape seq 0x5B = .advance .csiEntry (beginParam seq) :=
    fun _ => rfl
  rw [hground] at hesc
  simp only [Core.after] at hesc
  generalize he : (if c.inRun then 0 else c.utf8Expect) = e at hesc
  have hbracket := step_sequence
    (c := { c with state := .escape, utf8Expect := e, inRun := false, seq := clearSequence c.seq })
    (by simp) 0x5B
  rw [hescape] at hbracket
  simp only [Core.after] at hbracket
  obtain ⟨state, hstate, hrun⟩ := run_body ⟨.csiEntry, e, false, beginParam (clearSequence c.seq)⟩
    (.inl rfl) (body (p :: ps)) (body_bytes _)
  have hfinal : ∀ seq, dispatch state seq 0x6D = .report (endParam seq) .csi 0x6D := by
    intro seq
    rw [dispatch_params hstate _ rfl]
    rfl
  have hlast := step_sequence
    (c := ⟨state, e, false, (body (p :: ps)).foldl pushByte (beginParam (clearSequence c.seq))⟩)
    (by rcases hstate with h | h <;> simp [h]) 0x6D
  rw [hfinal, foldl_pushByte_body] at hlast
  refine ⟨⟨.ground, e, false, clearSequence (collected c.seq (p :: ps))⟩, rfl, ?_⟩
  rw [sgr, List.append_assoc, List.cons_append, List.cons_append, List.nil_append,
    Transducer.run_cons, hesc, Transducer.run_cons, hbracket, Transducer.run_append, hrun,
    Transducer.run_cons, hlast, Transducer.run_nil]
  rfl

end SupraHarness.Ansi
