import SupraHarness.Config.Layer
import SupraHarness.Lib.Precedence

/-!
# Resolving the layers

Layers are walked in ascending precedence and the last one that states a field wins it. The mode has
a second pass of its own: the project layer takes no part in the walk and may afterwards only make
the mode stricter. The result meets a specification that mentions neither pass.
-/
namespace SupraHarness.Configuration

def defaultThinkingBudget : UInt32 := 0

def defaultPeerLimit : Nat := 16

def defaultCompactionThresholdPercent : UInt8 := 93

def Mode.default : Mode := .auto

inductive Setting where
  | thinkingBudget
  | cohortLimit
  | permissionMode
  | compactionThresholdPercent
  deriving DecidableEq, Repr

structure Provider where
  endpoint : Option String
  model : Option String
  apiKeyEnv : Option String
  apiKeyKeyring : Option String

structure Config where
  thinkingBudget : UInt32
  cohortLimit : Nat
  permissionMode : Mode
  compactionThresholdPercent : UInt8
  providers : OrdMap String Provider
  scalarSources : List (Setting × ConfigSource)
  providerSources : OrdMap String ConfigSource

/-- Which layer supplied a scalar setting. -/
def Config.sourceOf (config : Config) (setting : Setting) : ConfigSource :=
  (config.scalarSources.findSome? fun entry => if entry.1 = setting then some entry.2 else none).getD
    .builtin

/-- Which layer introduced a provider, if it is configured at all. -/
def Config.providerSource (config : Config) (name : String) : Option ConfigSource :=
  config.providerSources.get name

/-- How restrictive a mode is; higher is stricter. -/
def strictness (mode : Mode) : Nat :=
  match Mode.all.findIdx? (· = mode) with
  | some index => Mode.all.length - 1 - index
  | none => 0

abbrev Entry := ConfigSource × ConfigLayer

/-- What the two passes of `resolve` carry along. -/
structure Resolution where
  thinkingBudget : UInt32 × ConfigSource
  cohortLimit : Nat × ConfigSource
  permissionMode : Mode × ConfigSource
  threshold : UInt8 × ConfigSource
  providers : OrdMap String Provider
  providerSources : OrdMap String ConfigSource

def Resolution.builtin : Resolution where
  thinkingBudget := (defaultThinkingBudget, .builtin)
  cohortLimit := (defaultPeerLimit, .builtin)
  permissionMode := (Mode.default, .builtin)
  threshold := (defaultCompactionThresholdPercent, .builtin)
  providers := .empty
  providerSources := .empty

/-- What a layer states for a field, with the source of the layer. -/
def stated {α : Type} (field : ConfigLayer → Option α) (entry : Entry) : Option (α × ConfigSource) :=
  (field entry.2).map fun value => (value, entry.1)

/-- The mode a layer states, for the layers that take part in ordinary precedence. -/
def statedMode (entry : Entry) : Option (Mode × ConfigSource) :=
  if entry.1.isOperatorControlled then stated ConfigLayer.mode entry else none

def Provider.ofLayer (layer : ProviderLayer) : Provider :=
  ⟨layer.endpoint, layer.model, layer.apiKeyEnv, layer.apiKeyKeyring⟩

/-- A later layer replaces a provider wholesale. -/
def insertProviders (providers : OrdMap String Provider) (entries : List (String × ProviderLayer)) :
    OrdMap String Provider :=
  entries.foldl (fun providers entry => providers.insert entry.1 (.ofLayer entry.2)) providers

def insertSources (source : ConfigSource) (sources : OrdMap String ConfigSource)
    (entries : List (String × ProviderLayer)) : OrdMap String ConfigSource :=
  entries.foldl (fun sources entry => sources.insert entry.1 source) sources

/-- One layer of the walk. -/
def Resolution.apply (r : Resolution) (entry : Entry) : Resolution where
  thinkingBudget := supply (stated ConfigLayer.budget) r.thinkingBudget entry
  cohortLimit := supply (stated ConfigLayer.limit) r.cohortLimit entry
  permissionMode := supply statedMode r.permissionMode entry
  threshold := supply (stated ConfigLayer.percent) r.threshold entry
  providers := insertProviders r.providers entry.2.entries
  providerSources := insertSources entry.1 r.providerSources entry.2.entries

/-- One layer of the tightening pass. -/
def tighten (mode : Mode × ConfigSource) (entry : Entry) : Mode × ConfigSource :=
  if entry.1.isOperatorControlled then mode
  else
    match entry.2.mode with
    | none => mode
    | some requested => if strictness requested > strictness mode.1 then (requested, entry.1) else mode

def resolve (layers : List Entry) : Config :=
  let ordered := ascending Prod.fst layers
  let r := ordered.foldl Resolution.apply .builtin
  let mode := ordered.foldl tighten r.permissionMode
  { thinkingBudget := r.thinkingBudget.1
    cohortLimit := r.cohortLimit.1
    permissionMode := mode.1
    compactionThresholdPercent := r.threshold.1
    providers := r.providers
    scalarSources := [(.thinkingBudget, r.thinkingBudget.2), (.cohortLimit, r.cohortLimit.2),
      (.permissionMode, mode.2), (.compactionThresholdPercent, r.threshold.2)]
    providerSources := r.providerSources }

/-- The layers a loader found, each read from one place. -/
structure Loader where
  user : Option ConfigLayer
  project : Option ConfigLayer
  environment : Option ConfigLayer
  cli : Option ConfigLayer
  session : Option ConfigLayer

def Loader.layers (loader : Loader) : List Entry :=
  (loader.user.map (ConfigSource.user, ·)).toList ++ (loader.project.map (ConfigSource.project, ·)).toList ++
    (loader.environment.map (ConfigSource.env, ·)).toList ++ (loader.cli.map (ConfigSource.cli, ·)).toList ++
    (loader.session.map (ConfigSource.session, ·)).toList

def Loader.load (loader : Loader) : Config := resolve loader.layers

/-! ## The walk, field by field -/

section Walk

variable (layers : List Entry) (r : Resolution)

theorem foldl_thinkingBudget : (layers.foldl Resolution.apply r).thinkingBudget =
    layers.foldl (supply (stated ConfigLayer.budget)) r.thinkingBudget :=
  (List.foldl_hom Resolution.thinkingBudget (fun _ _ => rfl)).symm

theorem foldl_cohortLimit : (layers.foldl Resolution.apply r).cohortLimit =
    layers.foldl (supply (stated ConfigLayer.limit)) r.cohortLimit :=
  (List.foldl_hom Resolution.cohortLimit (fun _ _ => rfl)).symm

theorem foldl_permissionMode : (layers.foldl Resolution.apply r).permissionMode =
    layers.foldl (supply statedMode) r.permissionMode :=
  (List.foldl_hom Resolution.permissionMode (fun _ _ => rfl)).symm

theorem foldl_threshold : (layers.foldl Resolution.apply r).threshold =
    layers.foldl (supply (stated ConfigLayer.percent)) r.threshold :=
  (List.foldl_hom Resolution.threshold (fun _ _ => rfl)).symm

end Walk

/-- What a layer says about one provider. -/
def statedProvider (name : String) (entry : Entry) : Option (Option Provider × Option ConfigSource) :=
  (entry.2.provider name).map fun provider => (some (.ofLayer provider), some entry.1)

/-- Inserting a list of entries with distinct names. -/
theorem get_foldl_insert {α β : Type} (value : α → β) {entries : List (String × α)}
    (h : entries.Pairwise fun a b => a.1 < b.1) (m : OrdMap String β) (name : String) :
    (entries.foldl (fun m entry => m.insert entry.1 (value entry.2)) m).get name =
      ((OrdMap.getIn name entries).map value).or (m.get name) := by
  induction entries generalizing m with
  | nil => rfl
  | cons entry entries ih =>
    obtain ⟨hhead, htail⟩ := List.pairwise_cons.mp h
    rw [List.foldl_cons, ih htail, OrdMap.get_insert, OrdMap.getIn]
    by_cases heq : name = entry.1
    · have hnone : OrdMap.getIn name entries = none :=
        OrdMap.getIn_eq_none fun e he => heq ▸ ne_of_lt (hhead e he)
      rw [if_pos heq, if_pos heq, hnone]
      rfl
    · rw [if_neg heq, if_neg heq]

/-- What the resolution answers about one provider. -/
def Resolution.providerOf (r : Resolution) (name : String) : Option Provider × Option ConfigSource :=
  (r.providers.get name, r.providerSources.get name)

theorem providerOf_apply (r : Resolution) (entry : Entry) (name : String) :
    (r.apply entry).providerOf name = supply (statedProvider name) (r.providerOf name) entry := by
  have hproviders := get_foldl_insert Provider.ofLayer entry.2.entries_sorted r.providers name
  have hsources := get_foldl_insert (fun _ => entry.1) entry.2.entries_sorted r.providerSources name
  rw [← ConfigLayer.provider_eq] at hproviders hsources
  rw [Resolution.providerOf, Resolution.apply, insertProviders, insertSources, hproviders, hsources, supply,
    statedProvider]
  cases entry.2.provider name <;> rfl

theorem foldl_providerOf (layers : List Entry) (r : Resolution) (name : String) :
    (layers.foldl Resolution.apply r).providerOf name =
      layers.foldl (supply (statedProvider name)) (r.providerOf name) := by
  induction layers generalizing r with
  | nil => rfl
  | cons entry layers ih => rw [List.foldl_cons, List.foldl_cons, ih, providerOf_apply]

/-! ## The tightening pass -/

/-- The stricter of the operator's mode and what the project asks for. -/
def Tightened (layers : List Entry) (operator mode : Mode × ConfigSource) : Prop :=
  (∃ entry ∈ layers, entry.1 = .project ∧ entry.2.mode = some mode.1 ∧ mode.2 = .project ∧
    strictness operator.1 < strictness mode.1 ∧
      ∀ other ∈ layers, other.1 = .project → ∀ requested, other.2.mode = some requested →
        strictness requested ≤ strictness mode.1) ∨
  mode = operator ∧ ∀ other ∈ layers, other.1 = .project → ∀ requested, other.2.mode = some requested →
    strictness requested ≤ strictness operator.1

theorem operator_controlled_iff (source : ConfigSource) :
    source.isOperatorControlled = false ↔ source = .project := by
  cases source <;> decide

theorem tighten_operator {entry : Entry} (h : entry.1.isOperatorControlled = true) (mode : Mode × ConfigSource) :
    tighten mode entry = mode := by
  rw [tighten, if_pos h]

theorem tighten_project {entry : Entry} (h : entry.1 = .project) (mode : Mode × ConfigSource) :
    (∃ requested, entry.2.mode = some requested ∧ strictness mode.1 < strictness requested ∧
      tighten mode entry = (requested, .project)) ∨
    tighten mode entry = mode ∧
      ∀ requested, entry.2.mode = some requested → strictness requested ≤ strictness mode.1 := by
  rw [tighten, if_neg (by rw [(operator_controlled_iff _).mpr h]; exact Bool.false_ne_true)]
  cases hmode : entry.2.mode with
  | none => exact .inr ⟨rfl, nofun⟩
  | some requested =>
    by_cases hlt : strictness requested > strictness mode.1
    · refine .inl ⟨requested, rfl, hlt, ?_⟩
      rw [← h]
      exact if_pos hlt
    · refine .inr ⟨if_neg hlt, ?_⟩
      intro other hother
      cases hother
      exact Nat.le_of_not_lt hlt

theorem strictness_tighten (mode : Mode × ConfigSource) (entry : Entry) :
    strictness mode.1 ≤ strictness (tighten mode entry).1 := by
  cases hcontrolled : entry.1.isOperatorControlled with
  | true => rw [tighten_operator hcontrolled]
  | false =>
    rcases tighten_project ((operator_controlled_iff _).mp hcontrolled) mode with ⟨requested, _, hlt, heq⟩ | ⟨heq, _⟩
    · rw [heq]
      exact Nat.le_of_lt hlt
    · rw [heq]

theorem strictness_foldl_tighten (layers : List Entry) (mode : Mode × ConfigSource) :
    strictness mode.1 ≤ strictness (layers.foldl tighten mode).1 := by
  induction layers generalizing mode with
  | nil => exact Nat.le_refl _
  | cons entry layers ih => exact Nat.le_trans (strictness_tighten mode entry) (ih _)

/-- The pass over all layers ends at the strictest request, if that is stricter than the start. -/
theorem foldl_tighten (layers : List Entry) (operator : Mode × ConfigSource) :
    Tightened layers operator (layers.foldl tighten operator) := by
  induction layers generalizing operator with
  | nil => exact .inr ⟨rfl, fun other mem => absurd mem List.not_mem_nil⟩
  | cons entry layers ih =>
    rw [List.foldl_cons]
    cases hcontrolled : entry.1.isOperatorControlled with
    | true =>
      have hsource : entry.1 ≠ .project := by
        intro h
        rw [(operator_controlled_iff _).mpr h] at hcontrolled
        contradiction
      rw [tighten_operator hcontrolled]
      rcases ih operator with ⟨winner, hwinner, hproject, hmode, hsource', hlt, hmax⟩ | ⟨heq, hmax⟩
      · refine .inl ⟨winner, List.mem_cons_of_mem _ hwinner, hproject, hmode, hsource', hlt, ?_⟩
        exact List.forall_mem_cons.mpr ⟨fun h => absurd h hsource, hmax⟩
      · exact .inr ⟨heq, List.forall_mem_cons.mpr ⟨fun h => absurd h hsource, hmax⟩⟩
    | false =>
      have hsource := (operator_controlled_iff _).mp hcontrolled
      rcases tighten_project hsource operator with ⟨requested, hrequested, hlt, heq⟩ | ⟨heq, hle⟩
      · rw [heq]
        refine .inl ?_
        rcases ih (requested, .project) with ⟨winner, hwinner, hproject, hmode, hsource', hlt', hmax⟩ | ⟨heq', hmax⟩
        · refine ⟨winner, List.mem_cons_of_mem _ hwinner, hproject, hmode, hsource', Nat.lt_trans hlt hlt',
            List.forall_mem_cons.mpr ⟨?_, hmax⟩⟩
          intro _ other hother
          rw [hrequested] at hother
          cases hother
          exact Nat.le_of_lt hlt'
        · rw [heq']
          refine ⟨entry, List.mem_cons_self, hsource, hrequested, rfl, hlt, List.forall_mem_cons.mpr ⟨?_, hmax⟩⟩
          intro _ other hother
          rw [hrequested] at hother
          cases hother
          exact Nat.le_refl _
      · rw [heq]
        rcases ih operator with ⟨winner, hwinner, hproject, hmode, hsource', hlt, hmax⟩ | ⟨heq', hmax⟩
        · refine .inl ⟨winner, List.mem_cons_of_mem _ hwinner, hproject, hmode, hsource', hlt,
            List.forall_mem_cons.mpr ⟨?_, hmax⟩⟩
          intro _ requested hrequested
          exact Nat.le_trans (hle requested hrequested) (Nat.le_of_lt hlt)
        · exact .inr ⟨heq', List.forall_mem_cons.mpr ⟨fun _ => hle, hmax⟩⟩

/-! ## The specification -/

/-- What a configuration must be, given the layers in any order. -/
structure Resolves (layers : List Entry) (config : Config) : Prop where
  thinkingBudget : Highest Prod.fst (stated ConfigLayer.budget) layers (defaultThinkingBudget, .builtin)
    (config.thinkingBudget, config.sourceOf .thinkingBudget)
  cohortLimit : Highest Prod.fst (stated ConfigLayer.limit) layers (defaultPeerLimit, .builtin)
    (config.cohortLimit, config.sourceOf .cohortLimit)
  threshold : Highest Prod.fst (stated ConfigLayer.percent) layers (defaultCompactionThresholdPercent, .builtin)
    (config.compactionThresholdPercent, config.sourceOf .compactionThresholdPercent)
  permissionMode : ∃ operator, Highest Prod.fst statedMode layers (Mode.default, .builtin) operator ∧
    Tightened layers operator (config.permissionMode, config.sourceOf .permissionMode)
  providers : ∀ name, Highest Prod.fst (statedProvider name) layers (none, none)
    (config.providers.get name, config.providerSource name)

theorem Tightened.perm {layers layers' : List Entry} (h : layers.Perm layers') {operator mode : Mode × ConfigSource}
    (ht : Tightened layers operator mode) : Tightened layers' operator mode := by
  rcases ht with ⟨winner, hwinner, hproject, hmode, hsource, hlt, hmax⟩ | ⟨heq, hmax⟩
  · exact .inl ⟨winner, h.mem_iff.mp hwinner, hproject, hmode, hsource, hlt,
      fun other hother => hmax other (h.mem_iff.mpr hother)⟩
  · exact .inr ⟨heq, fun other hother => hmax other (h.mem_iff.mpr hother)⟩

theorem highest_walk {α : Type} (states : Entry → Option α) (layers : List Entry) (default : α) :
    Highest Prod.fst states layers default ((ascending Prod.fst layers).foldl (supply states) default) :=
  (foldl_supply_highest (ascending_sorted Prod.fst layers) default).perm (ascending_perm Prod.fst layers)

theorem resolve_resolves (layers : List Entry) : Resolves layers (resolve layers) where
  thinkingBudget := by
    have h := highest_walk (stated ConfigLayer.budget) layers Resolution.builtin.thinkingBudget
    rwa [← foldl_thinkingBudget] at h
  cohortLimit := by
    have h := highest_walk (stated ConfigLayer.limit) layers Resolution.builtin.cohortLimit
    rwa [← foldl_cohortLimit] at h
  threshold := by
    have h := highest_walk (stated ConfigLayer.percent) layers Resolution.builtin.threshold
    rwa [← foldl_threshold] at h
  permissionMode := by
    refine ⟨_, highest_walk statedMode layers (Mode.default, .builtin), ?_⟩
    have h := foldl_tighten (ascending Prod.fst layers)
      ((ascending Prod.fst layers).foldl Resolution.apply .builtin).permissionMode
    rw [foldl_permissionMode] at h
    have hmode : ((resolve layers).permissionMode, (resolve layers).sourceOf .permissionMode) =
        (ascending Prod.fst layers).foldl tighten
          ((ascending Prod.fst layers).foldl Resolution.apply .builtin).permissionMode := rfl
    rw [hmode, foldl_permissionMode]
    exact h.perm (ascending_perm Prod.fst layers)
  providers := by
    intro name
    have h := highest_walk (statedProvider name) layers (none, none)
    rwa [show ((none : Option Provider), (none : Option ConfigSource)) =
      Resolution.builtin.providerOf name from rfl, ← foldl_providerOf _ Resolution.builtin] at h

theorem resolve_congr {layers layers' : List Entry}
    (h : ascending Prod.fst layers = ascending Prod.fst layers') : resolve layers = resolve layers' := by
  rw [resolve, resolve, h]

/-- A silent layer changes nothing, whatever it is added to. -/
theorem apply_silent {entry : Entry} (h : entry.2.Silent) (r : Resolution) : r.apply entry = r := by
  obtain ⟨hbudget, hlimit, hmode, hpercent, hentries⟩ := h
  rw [Resolution.apply, hentries, supply_silent, supply_silent, supply_silent, supply_silent]
  · rfl
  · rw [stated, hpercent]
    rfl
  · rw [statedMode, stated, hmode]
    exact ite_self none
  · rw [stated, hlimit]
    rfl
  · rw [stated, hbudget]
    rfl

theorem tighten_silent {entry : Entry} (h : entry.2.Silent) (mode : Mode × ConfigSource) :
    tighten mode entry = mode := by
  rw [tighten, h.2.2.1]
  exact ite_self mode

/-- Layers that are silent may be left out. -/
theorem resolve_filter {layers : List Entry} (hnodup : (layers.map Prod.fst).Nodup) (keep : Entry → Bool)
    (h : ∀ entry ∈ layers, keep entry = false → entry.2.Silent) :
    resolve (layers.filter keep) = resolve layers := by
  have hordered := ascending_filter hnodup keep
  have hsilent : ∀ entry ∈ ascending Prod.fst layers, keep entry = false → entry.2.Silent :=
    fun entry hentry => h entry ((ascending_perm Prod.fst layers).mem_iff.mp hentry)
  have hwalk := foldl_filter_silent Resolution.apply keep
    (fun entry hentry hkeep => apply_silent (hsilent entry hentry hkeep)) Resolution.builtin
  have hpass := foldl_filter_silent tighten keep
    (fun entry hentry hkeep => tighten_silent (hsilent entry hentry hkeep))
    ((ascending Prod.fst layers).foldl Resolution.apply .builtin).permissionMode
  rw [resolve, resolve, ← hordered, hwalk, hpass]

/-- Without its project layers the same walk over the modes takes place. -/
theorem strictness_operator {layers : List Entry} (hnodup : (layers.map Prod.fst).Nodup) :
    strictness (resolve (layers.filter fun entry => entry.1.isOperatorControlled)).permissionMode ≤
      strictness (resolve layers).permissionMode := by
  have hmode : ∀ layers, (resolve layers).permissionMode = ((ascending Prod.fst layers).foldl tighten
      ((ascending Prod.fst layers).foldl (supply statedMode) (Mode.default, .builtin))).1 := by
    intro layers
    exact congrArg (fun mode => ((ascending Prod.fst layers).foldl tighten mode).1)
      (foldl_permissionMode (ascending Prod.fst layers) .builtin)
  have hproject : ∀ entry ∈ ascending Prod.fst layers, entry.1.isOperatorControlled = false →
      ∀ mode, supply statedMode mode entry = mode := by
    intro entry _ hproject
    apply supply_silent
    rw [statedMode, hproject]
    rfl
  have hstart := foldl_filter_silent (supply statedMode) (fun entry => entry.1.isOperatorControlled) hproject
    (Mode.default, .builtin)
  have hnone : ∀ (entries : List Entry) (mode : Mode × ConfigSource),
      (entries.filter fun entry => entry.1.isOperatorControlled).foldl tighten mode = mode := by
    intro entries mode
    induction entries with
    | nil => rfl
    | cons entry entries ih =>
      cases h : entry.1.isOperatorControlled with
      | true => rw [List.filter_cons, if_pos h, List.foldl_cons, tighten_operator h, ih]
      | false => rw [List.filter_cons, if_neg (by rw [h]; exact Bool.false_ne_true), ih]
  rw [hmode, hmode, ← ascending_filter hnodup, hnone, hstart]
  exact strictness_foldl_tighten _ _

/-- Layers with pairwise distinct sources resolve to the configuration their precedence describes,
in whatever order they come. The project layers never make the mode more permissive, and adding a
silent layer changes nothing. -/
theorem resolve_precedence {layers : List Entry} (hnodup : (layers.map Prod.fst).Nodup) :
    Resolves layers (resolve layers) ∧
      (∀ layers' : List Entry, layers'.Perm layers → resolve layers' = resolve layers) ∧
      strictness (resolve (layers.filter fun entry => entry.1.isOperatorControlled)).permissionMode ≤
        strictness (resolve layers).permissionMode ∧
      ∀ entry : Entry, entry.2.Silent → entry.1 ∉ layers.map Prod.fst →
        ∀ layers' : List Entry, layers'.Perm (entry :: layers) → resolve layers' = resolve layers := by
  refine ⟨resolve_resolves layers, ?_, strictness_operator hnodup, ?_⟩
  · intro layers' hperm
    exact resolve_congr (ascending_of_perm hnodup hperm)
  · intro entry hsilent hfresh layers' hperm
    have hnodup' : ((entry :: layers).map Prod.fst).Nodup := List.nodup_cons.mpr ⟨hfresh, hnodup⟩
    have hkeep := resolve_filter hnodup' (fun other => decide (other.1 ≠ entry.1)) (by
      intro other hother hkeep
      have heq : other.1 = entry.1 := by simpa using hkeep
      rwa [List.inj_on_of_nodup_map hnodup' hother List.mem_cons_self heq])
    have hfilter : (entry :: layers).filter (fun other => decide (other.1 ≠ entry.1)) = layers := by
      rw [List.filter_cons_of_neg (by simp)]
      refine List.filter_eq_self.mpr ?_
      intro other hother
      have hmem := List.mem_map_of_mem (f := Prod.fst) hother
      exact decide_eq_true fun heq => hfresh (heq ▸ hmem)
    rw [resolve_congr (ascending_of_perm hnodup' hperm), ← hkeep, hfilter]

def askLayer : ConfigLayer := ⟨none, none, some ⟨some .ask⟩, none, none⟩

def yoloLayer : ConfigLayer := ⟨some ⟨some 1024⟩, none, some ⟨some .yolo⟩, none, none⟩

/-- A project pinning `ask` against a command line asking for `yolo`. -/
theorem resolve_precedence_project :
    Resolves [(.cli, yoloLayer), (.project, askLayer)] (resolve [(.cli, yoloLayer), (.project, askLayer)]) :=
  (@resolve_precedence [(.cli, yoloLayer), (.project, askLayer)] (by decide)).1

end SupraHarness.Configuration
