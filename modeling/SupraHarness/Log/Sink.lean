import Mathlib.Algebra.BigOperators.Group.List.Basic
import Mathlib.Algebra.GroupWithZero.Nat
import SupraHarness.Lib.Generations
import SupraHarness.Lib.Run

/-!
# Log sinks

Sinks on one path append whole payloads under an inter-process lock and rotate the file when it would
grow beyond the limit. A line that cannot be written is counted, and the next payload of that sink
starts with a notice of the count. What the files say, from the oldest generation to the current one,
is a suffix of what was written, and no lost line goes unaccounted for.
-/
namespace SupraHarness.Log

open Generations Run

abbrev Bytes := List UInt8

structure SinkConfig where
  maxBytes : Nat
  keep : Nat
  deriving DecidableEq, Repr

/-- What goes wrong in a call before it writes: the lock, the size, the rotation after so many
operations, the opening of the file before or after it was created. -/
structure Faults where
  lock : Bool
  size : Bool
  rotation : Option Nat
  opening : Option Bool
  deriving DecidableEq, Repr

def ascii (text : String) : Bytes := text.toList.map fun c => UInt8.ofNat c.toNat

/-- The line that announces a gap. -/
def notice (lost : Nat) : Bytes :=
  ascii (s!"\x7b\"level\":\"WARN\",\"target\":\"supra_log\",\"message\":\"{lost} log line(s) could not be written\"\x7d\n")

/-- `trim_end_matches` of line feeds and carriage returns. -/
def trimEnd (line : Bytes) : Bytes := (line.reverse.dropWhile fun b => b = 10 ∨ b = 13).reverse

structure State where
  files : Files Bytes
  /-- The drop counters of the sinks. -/
  sinks : List Nat

inductive Action where
  | openSink
  | writeLine (sink : Nat) (line : Bytes) (faults : Faults)

section Sink

variable (config : SinkConfig) (redact : Bytes → Bytes)

def payloadOf (lost : Nat) (line : Bytes) : Bytes :=
  (if lost > 0 then notice lost else []) ++ redact (trimEnd line) ++ [10]

/-- The file is created if it is missing. -/
def touch {γ : Type} (blank : γ) (files : Files γ) : Files γ :=
  Function.update files 0 (some ((files 0).getD blank))

def append {β : Type} (files : Files (List β)) (chunk : List β) : Files (List β) :=
  Function.update files 0 (some ((files 0).getD [] ++ chunk))

/-- The files, rotated if the payload does not fit; a failed rotation is tolerated. -/
def makeRoom (files : Files Bytes) (payload : Bytes) (faults : Faults) : Files Bytes :=
  let length := if faults.size then 0 else ((files 0).map List.length).getD 0
  if length + payload.length > config.maxBytes then rotate [] config.keep faults.rotation files else files

def writeToFile (files : Files Bytes) (payload : Bytes) (faults : Faults) : Files Bytes × Bool :=
  if faults.lock then (files, false)
  else
    let files := makeRoom config files payload faults
    match faults.opening with
    | some created => (if created then touch [] files else files, false)
    | none => (append files payload, true)

def step (s : State) : Action → Option State
  | .openSink => some ⟨touch [] s.files, s.sinks ++ [0]⟩
  | .writeLine sink line faults =>
    match s.sinks[sink]? with
    | none => none
    | some lost =>
      let result := writeToFile config s.files (payloadOf redact lost line) faults
      some ⟨result.1, s.sinks.set sink (if result.2 then 0 else lost + 1)⟩

/-- The count and the payload of a line that was written. -/
def wrote (s : State) : Action → Option (Nat × Bytes)
  | .openSink => none
  | .writeLine sink line faults =>
    match s.sinks[sink]? with
    | none => none
    | some lost =>
      if (writeToFile config s.files (payloadOf redact lost line) faults).2 then
        some (lost, payloadOf redact lost line)
      else none

/-- The line of a call that failed. -/
def failed (s : State) : Action → Option Bytes
  | .openSink => none
  | .writeLine sink line faults =>
    match s.sinks[sink]? with
    | none => none
    | some lost =>
      if (writeToFile config s.files (payloadOf redact lost line) faults).2 then none else some line

/-- The payloads written in a history, in order. -/
def written (taken : List (State × Action × State)) : List Bytes :=
  taken.filterMap fun t => (wrote config redact t.1 t.2.1).map Prod.snd

/-- The loss counts that the written notices announce. -/
def announced (taken : List (State × Action × State)) : Nat :=
  (taken.filterMap fun t => (wrote config redact t.1 t.2.1).map Prod.fst).sum

def failures (taken : List (State × Action × State)) : Nat :=
  (taken.filterMap fun t => failed config redact t.1 t.2.1).length

end Sink

/-- What goes wrong on the way makes the call fail: no failed rotation was tolerated and no size was
taken for zero. -/
def Whole : Action → Prop
  | .openSink => True
  | .writeLine _ _ faults => faults.size = true ∨ faults.rotation.isSome = true →
      faults.lock = true ∨ faults.opening.isSome = true

/-- The chunks of a file are within the limit, or there is one of them. -/
def Fits (config : SinkConfig) (chunks : List Bytes) : Prop :=
  chunks.flatten.length ≤ config.maxBytes ∨ chunks.length ≤ 1

/-! ## One call -/

theorem view_touch {γ δ : Type} (g : γ → δ) (blank : γ) (files : Files γ) :
    view g (touch blank files) = touch (g blank) (view g files) := by
  rw [touch, touch, view_update, view]
  cases files 0 <;> rfl

theorem view_append (files : Files (List Bytes)) (payload : Bytes) :
    view List.flatten (append files [payload]) = append (view List.flatten files) payload := by
  rw [append, append, view_update, view]
  cases files 0 <;> simp

theorem contents_touch {β : Type} (files : Files (List β)) (keep : Nat) :
    contents (touch [] files) keep = contents files keep := by
  have h := contents_append files keep []
  rwa [List.append_nil, List.append_nil] at h

theorem Slots.touch {γ : Type} {keep : Nat} {p : γ → Prop} {files : Files γ} (h : Slots keep p files) {blank : γ}
    (hblank : p blank) : Slots keep p (Log.touch blank files) := by
  refine h.update ?_
  intro c hc
  cases hfile : files 0 with
  | none =>
    rw [hfile] at hc
    cases hc
    exact ⟨Nat.zero_le keep, hblank⟩
  | some c' =>
    rw [hfile] at hc
    cases hc
    exact h 0 _ hfile

section Call

variable {config : SinkConfig}

/-- The size of the current file, in chunks. -/
theorem length_view (g : Files (List Bytes)) :
    ((view List.flatten g 0).map List.length).getD 0 = ((g 0).getD []).flatten.length := by
  rw [view]
  cases g 0 <;> rfl

/-- Making room, chunk by chunk: a suffix stays, and if nothing goes wrong the payload has room. -/
theorem makeRoom_chunks (g : Files (List Bytes)) (payload : Bytes) (faults : Faults) :
    ∃ g', makeRoom config (view List.flatten g) payload faults = view List.flatten g' ∧
      contents g' config.keep <:+ contents g config.keep ∧
      (∀ p : List Bytes → Prop, p [] → Slots config.keep p g → Slots config.keep p g') ∧
      (faults.size = false → faults.rotation = none →
        (g' 0).getD [] = [] ∨ ((g' 0).getD []).flatten.length + payload.length ≤ config.maxBytes) := by
  rw [makeRoom, length_view]
  by_cases h : (if faults.size then 0 else ((g 0).getD []).flatten.length) + payload.length > config.maxBytes
  · refine ⟨rotate [] config.keep faults.rotation g, ?_, contents_rotate _ _ g, ?_, ?_⟩
    · rw [if_pos h, view_rotate]
      rfl
    · intro p hblank hslots
      exact hslots.rotate hblank faults.rotation
    · intro _ hrotation
      rw [hrotation]
      exact .inl (rotate_current config.keep g)
  · refine ⟨g, if_neg h, List.suffix_rfl, fun _ _ hslots => hslots, ?_⟩
    intro hsize _
    rw [hsize, if_neg Bool.false_ne_true] at h
    exact .inr (Nat.le_of_not_lt h)

theorem fits_append {chunks : List Bytes} {payload : Bytes}
    (h : chunks = [] ∨ chunks.flatten.length + payload.length ≤ config.maxBytes) :
    Fits config (chunks ++ [payload]) := by
  rcases h with rfl | h
  · exact .inr (Nat.le_refl 1)
  · refine .inl ?_
    rw [List.flatten_append, List.length_append]
    simpa using h

theorem Slots.append {g : Files (List Bytes)} {p : List Bytes → Prop} (h : Slots config.keep p g) {payload : Bytes}
    (hp : p ((g 0).getD [] ++ [payload])) : Slots config.keep p (Log.append g [payload]) := by
  refine h.update ?_
  intro c hc
  cases hc
  exact ⟨Nat.zero_le _, hp⟩

/-- What a call does to the files, chunk by chunk. -/
theorem writeToFile_chunks (g : Files (List Bytes)) (payload : Bytes) (faults : Faults) (clean : Prop)
    (hslots : Slots config.keep (fun chunks => clean → Fits config chunks) g)
    (hwhole : clean → faults.size = true ∨ faults.rotation.isSome = true →
      faults.lock = true ∨ faults.opening.isSome = true) :
    ∃ g', (writeToFile config (view List.flatten g) payload faults).1 = view List.flatten g' ∧
      contents g' config.keep <:+ contents g config.keep ++
        (if (writeToFile config (view List.flatten g) payload faults).2 then [payload] else []) ∧
      Slots config.keep (fun chunks => clean → Fits config chunks) g' := by
  have hblank : clean → Fits config [] := fun _ => .inr (Nat.zero_le 1)
  cases hlock : faults.lock with
  | true =>
    rw [writeToFile, hlock, if_pos rfl, if_neg Bool.false_ne_true, List.append_nil]
    exact ⟨g, rfl, List.suffix_rfl, hslots⟩
  | false =>
    obtain ⟨g', hroom, hsuffix, hkeeps, hfits⟩ := makeRoom_chunks g payload faults
    have hslots' := hkeeps _ hblank hslots
    cases hopening : faults.opening with
    | some created =>
      rw [writeToFile, hlock, if_neg Bool.false_ne_true]
      simp only [hroom, hopening, Bool.false_eq_true, if_false, List.append_nil]
      cases created with
      | true =>
        refine ⟨touch [] g', (view_touch List.flatten [] g').symm, ?_, Slots.touch hslots' hblank⟩
        rw [contents_touch]
        exact hsuffix
      | false => exact ⟨g', rfl, hsuffix, hslots'⟩
    | none =>
      rw [writeToFile, hlock, if_neg Bool.false_ne_true]
      simp only [hroom, hopening, if_true]
      refine ⟨append g' [payload], (view_append g' payload).symm, ?_, Slots.append hslots' ?_⟩
      · rw [append, contents_append]
        obtain ⟨gone, hgone⟩ := hsuffix
        exact ⟨gone, by rw [← hgone, List.append_assoc]⟩
      · intro hclean
        apply fits_append
        have hnone := mt (hwhole hclean) (by rw [hlock, hopening]; decide)
        obtain ⟨hsize, hrotation⟩ := not_or.mp hnone
        exact hfits (Bool.eq_false_iff.mpr hsize) (Option.not_isSome_iff_eq_none.mp hrotation)

end Call

/-! ## Runs -/

/-- The files are made of chunks that are a suffix of what was written, every file fits if nothing went
wrong on the way, and the counts add up. -/
structure Inv (config : SinkConfig) (redact : Bytes → Bytes) (s : State) (taken : List (State × Action × State)) :
    Prop where
  files : ∃ g, s.files = view List.flatten g ∧
    contents g config.keep <:+ written config redact taken ∧
    Slots config.keep (fun chunks => (∀ t ∈ taken, Whole t.2.1) → Fits config chunks) g
  counts : announced config redact taken + s.sinks.sum = failures config redact taken

theorem suffix_append_right {β : Type} {l l' : List β} (h : l <:+ l') (r : List β) : l ++ r <:+ l' ++ r := by
  obtain ⟨gone, rfl⟩ := h
  exact ⟨gone, (List.append_assoc _ _ _).symm⟩

theorem sum_set {counts : List Nat} {i x : Nat} (h : counts[i]? = some x) (value : Nat) :
    (counts.set i value).sum + x = counts.sum + value := by
  induction counts generalizing i with
  | nil => contradiction
  | cons count counts ih =>
    cases i with
    | zero =>
      obtain rfl := Option.some.inj h
      rw [List.set_cons_zero, List.sum_cons, List.sum_cons]
      omega
    | succ i =>
      have := ih (i := i) h
      rw [List.set_cons_succ, List.sum_cons, List.sum_cons]
      omega

section History

variable {config : SinkConfig} {redact : Bytes → Bytes} {s s' : State} {taken : List (State × Action × State)}

theorem written_append (t : State × Action × State) :
    written config redact (taken ++ [t]) =
      written config redact taken ++ ((wrote config redact t.1 t.2.1).map Prod.snd).toList := by
  rw [written, List.filterMap_append, written]
  cases h : wrote config redact t.1 t.2.1 <;> simp [h]

theorem announced_append (t : State × Action × State) :
    announced config redact (taken ++ [t]) =
      announced config redact taken + ((wrote config redact t.1 t.2.1).map Prod.fst).getD 0 := by
  rw [announced, List.filterMap_append, List.sum_append, announced]
  cases h : wrote config redact t.1 t.2.1 <;> simp [h]

theorem failures_append (t : State × Action × State) :
    failures config redact (taken ++ [t]) =
      failures config redact taken + (failed config redact t.1 t.2.1).toList.length := by
  rw [failures, List.filterMap_append, List.length_append, failures]
  cases h : failed config redact t.1 t.2.1 <;> simp [h]

theorem clean_append {t : State × Action × State} (h : ∀ u ∈ taken ++ [t], Whole u.2.1) :
    (∀ u ∈ taken, Whole u.2.1) ∧ Whole t.2.1 := by
  obtain ⟨htaken, hlast⟩ := List.forall_mem_append.mp h
  exact ⟨htaken, hlast t (List.mem_singleton.mpr rfl)⟩

theorem Inv.openSink (inv : Inv config redact s taken) :
    Inv config redact ⟨touch [] s.files, s.sinks ++ [0]⟩
      (taken ++ [(s, .openSink, ⟨touch [] s.files, s.sinks ++ [0]⟩)]) where
  files := by
    obtain ⟨g, hfiles, hsuffix, hslots⟩ := inv.files
    refine ⟨touch [] g, ?_, ?_, ?_⟩
    · rw [hfiles]
      exact (view_touch List.flatten [] g).symm
    · rw [contents_touch, written_append]
      exact (List.append_nil (written config redact taken)).symm ▸ hsuffix
    · refine Slots.touch ?_ fun _ => .inr (Nat.zero_le 1)
      intro index chunks hchunks
      exact ⟨(hslots index chunks hchunks).1, fun hclean => (hslots index chunks hchunks).2 (clean_append hclean).1⟩
  counts := by
    rw [announced_append, failures_append, List.sum_append]
    exact inv.counts

theorem Inv.writeLine (inv : Inv config redact s taken) {sink : Nat} {line : Bytes} {faults : Faults}
    (h : Log.step config redact s (.writeLine sink line faults) = some s') :
    Inv config redact s' (taken ++ [(s, .writeLine sink line faults, s')]) := by
  simp only [Log.step] at h
  cases hlost : s.sinks[sink]? with
  | none =>
    rw [hlost] at h
    contradiction
  | some lost =>
    simp only [hlost, Option.some.injEq] at h
    obtain ⟨g, hfiles, hsuffix, hslots⟩ := inv.files
    generalize hclean : (∀ t ∈ taken ++ [(s, Action.writeLine sink line faults, s')], Whole t.2.1) = clean
    have hslots' : Slots config.keep (fun chunks => clean → Fits config chunks) g := by
      intro index chunks hchunks
      refine ⟨(hslots index chunks hchunks).1, fun hc => (hslots index chunks hchunks).2 ?_⟩
      rw [← hclean] at hc
      exact (clean_append hc).1
    obtain ⟨g', hfiles', hsuffix', hslots''⟩ := writeToFile_chunks g (payloadOf redact lost line) faults clean hslots'
      (by
        intro hc
        rw [← hclean] at hc
        exact (clean_append hc).2)
    rw [← hfiles] at hfiles' hsuffix'
    have hcounts := sum_set hlost
    cases hok : (writeToFile config s.files (payloadOf redact lost line) faults).2 with
    | true =>
      have hwrote : wrote config redact s (.writeLine sink line faults) = some (lost, payloadOf redact lost line) := by
        simp only [wrote, hlost, hok, if_true]
      have hfailed : failed config redact s (.writeLine sink line faults) = none := by
        simp only [failed, hlost, hok, if_true]
      rw [hok, if_pos rfl] at h hsuffix'
      subst h
      constructor
      · rw [hclean, written_append, hwrote]
        exact ⟨g', hfiles', hsuffix'.trans (suffix_append_right hsuffix _), hslots''⟩
      · rw [announced_append, failures_append, hwrote, hfailed]
        have hset := hcounts 0
        have hbefore := inv.counts
        simp only [Option.map_some, Option.getD_some, Option.toList_none, List.length_nil]
        omega
    | false =>
      have hwrote : wrote config redact s (.writeLine sink line faults) = none := by
        simp only [wrote, hlost, hok, Bool.false_eq_true, if_false]
      have hfailed : failed config redact s (.writeLine sink line faults) = some line := by
        simp only [failed, hlost, hok, Bool.false_eq_true, if_false]
      rw [hok, if_neg Bool.false_ne_true] at h hsuffix'
      subst h
      constructor
      · rw [hclean, written_append, hwrote]
        exact ⟨g', hfiles', hsuffix'.trans (suffix_append_right hsuffix _), hslots''⟩
      · rw [announced_append, failures_append, hwrote, hfailed]
        have hset := hcounts (lost + 1)
        have hbefore := inv.counts
        simp only [Option.map_none, Option.getD_none, Option.toList_some, List.length_singleton]
        omega

theorem Inv.step (inv : Inv config redact s taken) {action : Action} (h : Log.step config redact s action = some s') :
    Inv config redact s' (taken ++ [(s, action, s')]) := by
  cases action with
  | openSink =>
    obtain rfl := Option.some.inj h
    exact inv.openSink
  | writeLine sink line faults => exact inv.writeLine h

/-- Every payload is a whole line or a notice and a line. -/
theorem written_lines (taken : List (State × Action × State)) :
    ∀ payload ∈ written config redact taken, ∃ text, payload = text ++ [10] := by
  intro payload hpayload
  obtain ⟨t, _, ht⟩ := List.mem_filterMap.mp hpayload
  obtain ⟨⟨lost, payload'⟩, hwrote, rfl⟩ := Option.map_eq_some_iff.mp ht
  obtain ⟨s, action, s'⟩ := t
  cases action with
  | openSink => contradiction
  | writeLine sink line faults =>
    simp only [wrote] at hwrote
    split at hwrote
    · contradiction
    · split at hwrote
      · cases hwrote
        exact ⟨_, rfl⟩
      · contradiction

end History

/-- No file and no sink yet. -/
def start : State := ⟨fun _ => none, []⟩

/-- What the files and the counters say after a history. -/
structure Accounts (config : SinkConfig) (redact : Bytes → Bytes) (s : State)
    (taken : List (State × Action × State)) : Prop where
  /-- From the oldest generation to the current file stands a suffix of the payloads written. -/
  suffix : ∃ kept, kept <:+ written config redact taken ∧ contents s.files config.keep = kept.flatten
  /-- Every payload ends its line. -/
  lines : ∀ payload ∈ written config redact taken, ∃ text, payload = text ++ [10]
  /-- There are the current file and `keep` more. -/
  bounded : ∀ index, config.keep < index → s.files index = none
  /-- Every file is within the limit or holds one payload, as long as what goes wrong before a write
  makes the call fail. -/
  fits : (∀ t ∈ taken, Whole t.2.1) → ∀ index bytes, s.files index = some bytes →
    bytes.length ≤ config.maxBytes ∨ bytes ∈ written config redact taken
  /-- The announced losses and the pending ones are the failed lines. -/
  counts : announced config redact taken + s.sinks.sum = failures config redact taken

theorem mem_contents {β : Type} {files : Files (List β)} {keep index : Nat} (hle : index ≤ keep) {c : List β}
    (hc : files index = some c) {x : β} (hx : x ∈ c) : x ∈ contents files keep := by
  induction keep with
  | zero =>
    obtain rfl := Nat.le_zero.mp hle
    rw [contents, hc]
    exact hx
  | succ keep ih =>
    rw [contents]
    rcases Nat.lt_or_ge keep index with hlt | hge
    · obtain rfl : index = keep + 1 := by omega
      rw [hc]
      exact List.mem_append_left _ hx
    · exact List.mem_append_right _ (ih hge)

theorem Inv.accounts {config : SinkConfig} {redact : Bytes → Bytes} {s : State}
    {taken : List (State × Action × State)} (inv : Inv config redact s taken) : Accounts config redact s taken := by
  obtain ⟨⟨g, hfiles, hsuffix, hslots⟩, hcounts⟩ := inv
  refine ⟨⟨contents g config.keep, hsuffix, ?_⟩, written_lines taken, ?_, ?_, hcounts⟩
  · rw [hfiles, contents_view_flatten]
  · intro index hlt
    rw [hfiles, view]
    cases hg : g index with
    | none => rfl
    | some chunks => exact absurd (hslots index chunks hg).1 (Nat.not_le_of_lt hlt)
  · intro hclean index bytes hbytes
    rw [hfiles, view] at hbytes
    obtain ⟨chunks, hg, rfl⟩ := Option.map_eq_some_iff.mp hbytes
    obtain ⟨hle, hfit⟩ := hslots index chunks hg
    rcases hfit hclean with hfit | hone
    · exact .inl hfit
    · cases chunks with
      | nil => exact .inl (Nat.zero_le _)
      | cons chunk rest =>
        obtain rfl : rest = [] := List.length_eq_zero_iff.mp (by simpa using hone)
        refine .inr (hsuffix.subset ?_)
        rw [List.flatten_cons, List.flatten_nil, List.append_nil]
        exact mem_contents hle hg List.mem_cons_self

end SupraHarness.Log
