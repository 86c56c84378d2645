import Mathlib.Data.List.Dedup
import Mathlib.Data.List.Perm.Lattice
import SupraHarness.Lib.Run
import SupraHarness.Mcp.Gateway

/-!
# The manifest over a history of probes

What the cache is for: every tool of every accepted probe has a row of its own, under a name that no
other tool has, rows stay, and no server has more rows than its budget. The names of two servers can
clash, an insert with a long text is ignored, and each probe counts its own list only, so a history
keeps this exactly when no probe comes to one of the three.
-/
namespace SupraHarness.Mcp

open SupraHarness.Store Run

variable {ι : Type}

/-- The rows, and the tools of the accepted probes with their servers. -/
structure History where
  rows : List CachedTool
  accepted : List (String × String)

def History.empty : History := ⟨[], []⟩

/-- One probe, with the faults of its transaction. -/
structure Probe (ι : Type) where
  config : ServerConfig ι
  faults : Faults

def step (schemaText : ι → Except String String) (s : History) (a : Probe ι) : Option History :=
  match probeOne schemaText a.faults s.rows a.config with
  | (rows, .error _) => some ⟨rows, s.accepted⟩
  | (rows, .ok tools) => some ⟨rows, s.accepted ++ tools.map fun tool => (a.config.name, tool.name)⟩

/-- What the cache is for, in one state. -/
structure Keeps (s : History) : Prop where
  /-- No two rows have one name. -/
  named : (s.rows.map (·.tool)).Nodup
  /-- Every accepted tool has a row of its own. -/
  own : ∀ pair ∈ s.accepted, ∃ row ∈ s.rows,
    row.tool = joined pair.1 pair.2 ∧ row.server = pair.1 ∧ row.localName = pair.2
  /-- The names tell the accepted tools apart. -/
  injective : ∀ pair ∈ s.accepted, ∀ pair' ∈ s.accepted,
    joined pair.1 pair.2 = joined pair'.1 pair'.2 → pair = pair'
  /-- No server has more rows than the budget. -/
  budget : ∀ server, Cache.countForServer s.rows server ≤ toolsPerServer

/-- What the cache is for, from one state to the next. -/
structure Stays (schemaText : ι → Except String String) (s : History) (a : Probe ι) (s' : History) : Prop where
  rows : s.rows <+: s'.rows
  refused : ∀ rows error, probeOne schemaText a.faults s.rows a.config = (rows, .error error) →
    s'.rows = s.rows

/-- A tool whose texts pass the checks of the table. -/
def fits (schemaText : ι → Except String String) (tool : RemoteTool ι) : Bool :=
  Cache.sqlLength tool.description ≤ 4096 &&
    match schemaText tool.inputSchema with
    | .ok text => Cache.sqlLength text ≤ 65536
    | .error _ => false

/-- The names of a list that have no row yet and get one. -/
def newNames (schemaText : ι → Except String String) (rows : List CachedTool) (server : String)
    (tools : List (RemoteTool ι)) : List String :=
  (((tools.filter (fits schemaText)).map (·.name)).filter fun name =>
    joined server name ∉ rows.map (·.tool)).dedup

/-- An accepted probe that keeps what the cache is for: no row of another tool has the name of one of
its tools, every tool without a row fits in one, and the new rows are within the budget. -/
structure Sound (schemaText : ι → Except String String) (rows : List CachedTool) (server : String)
    (tools : List (RemoteTool ι)) : Prop where
  clear : ∀ tool ∈ tools, ∀ row ∈ rows, row.tool = joined server tool.name →
    row.server = server ∧ row.localName = tool.name
  room : ∀ tool ∈ tools, joined server tool.name ∉ rows.map (·.tool) →
    ∃ tool' ∈ tools, tool'.name = tool.name ∧ fits schemaText tool' = true
  budget : Cache.countForServer rows server +
    (newNames schemaText rows server tools).length ≤ toolsPerServer

/-- The condition on a probe, in the state before it. -/
def Meets (schemaText : ι → Except String String) (s : History) (a : Probe ι) : Prop :=
  ∀ rows tools, probeOne schemaText a.faults s.rows a.config = (rows, .ok tools) →
    Sound schemaText s.rows a.config.name tools

/-! ## One probe -/

variable {schemaText : ι → Except String String}

/-- The row of one tool. -/
structure RowOf (schemaText : ι → Except String String) (server : String) (tool : RemoteTool ι)
    (row : CachedTool) : Prop where
  called : row.tool = joined server tool.name
  served : row.server = server
  known : row.localName = tool.name
  checks : Cache.checks row = true ↔ fits schemaText tool = true

theorem buildRows_spec {server : String} {tools : List (RemoteTool ι)} {rows : List CachedTool}
    (h : buildRows schemaText server tools = .ok rows) :
    List.Forall₂ (RowOf schemaText server) tools rows := by
  induction tools generalizing rows with
  | nil =>
    cases h
    exact .nil
  | cons remote tools ih =>
    obtain ⟨name, hname, h⟩ := bind_eq_ok.mp h
    obtain ⟨⟨hserver, htool, hlen⟩, rfl⟩ := namespaced_eq_ok.mp hname
    cases htext : schemaText remote.inputSchema with
    | error error =>
      simp only [htext] at h
      cases h
    | ok text =>
      simp only [htext] at h
      obtain ⟨rest, hrest, h⟩ := bind_eq_ok.mp h
      cases h
      refine .cons ⟨rfl, rfl, rfl, ?_⟩ (ih hrest)
      rw [checks_row hserver htool hlen]
      simp [fits, htext]

theorem probeOne_error {faults : Faults} {cached rows : List CachedTool} {config : ServerConfig ι}
    {error : McpError} (h : probeOne schemaText faults cached config = (rows, .error error)) :
    rows = cached := by
  rw [probeOne] at h
  split at h
  · exact (Prod.mk.inj h).1.symm
  · split at h
    · exact (Prod.mk.inj h).1.symm
    · split at h
      · next hwork =>
        rw [← (Prod.mk.inj h).1]
        exact withTransaction_error hwork
      · cases h

/-- What an accepted probe does to the rows. -/
theorem probeOne_ok {faults : Faults} {cached rows : List CachedTool} {config : ServerConfig ι}
    {tools : List (RemoteTool ι)} (h : probeOne schemaText faults cached config = (rows, .ok tools)) :
    ∃ built, List.Forall₂ (RowOf schemaText config.name) tools built ∧
      rows = Cache.inserted cached built := by
  rw [probeOne] at h
  split at h
  · cases h
  · split at h
    · cases h
    · next built hbuilt =>
      split at h
      · cases h
      · next hwork =>
        cases h
        refine ⟨built, buildRows_spec hbuilt, ?_⟩
        have hdone := withTransaction_ok hwork
        cases happend : Cache.appendAll faults 0 cached built with
        | error error =>
          rw [happend] at hdone
          cases hdone
        | ok after =>
          rw [happend] at hdone
          cases hdone
          exact Cache.appendAll_eq_ok happend

theorem row_of_tool {server : String} {tools : List (RemoteTool ι)} {built : List CachedTool}
    (h : List.Forall₂ (RowOf schemaText server) tools built) {tool : RemoteTool ι} (ht : tool ∈ tools) :
    ∃ row ∈ built, RowOf schemaText server tool row := by
  induction h with
  | nil => cases ht
  | cons hrow _ ih =>
    rcases List.mem_cons.mp ht with rfl | ht
    · exact ⟨_, List.mem_cons_self, hrow⟩
    · obtain ⟨row, hmem, hrow⟩ := ih ht
      exact ⟨row, List.mem_cons_of_mem _ hmem, hrow⟩

theorem tool_of_row {server : String} {tools : List (RemoteTool ι)} {built : List CachedTool}
    (h : List.Forall₂ (RowOf schemaText server) tools built) {row : CachedTool} (hr : row ∈ built) :
    ∃ tool ∈ tools, RowOf schemaText server tool row := by
  induction h with
  | nil => cases hr
  | cons hrow _ ih =>
    rcases List.mem_cons.mp hr with rfl | hr
    · exact ⟨_, List.mem_cons_self, hrow⟩
    · obtain ⟨tool, hmem, hrow⟩ := ih hr
      exact ⟨tool, List.mem_cons_of_mem _ hmem, hrow⟩

/-- The rows that an accepted probe of a server adds. -/
structure Adds (schemaText : ι → Except String String) (rows : List CachedTool) (server : String)
    (tools : List (RemoteTool ι)) (added : List CachedTool) : Prop where
  nodup : (added.map (·.tool)).Nodup
  fresh : ∀ row ∈ added, row.tool ∉ rows.map (·.tool)
  row : ∀ row ∈ added, ∃ tool ∈ tools, RowOf schemaText server tool row ∧ fits schemaText tool = true
  all : ∀ tool ∈ tools, fits schemaText tool = true → joined server tool.name ∉ rows.map (·.tool) →
    ∃ row ∈ added, row.tool = joined server tool.name

theorem probeOne_adds {faults : Faults} {cached rows : List CachedTool} {config : ServerConfig ι}
    {tools : List (RemoteTool ι)} (h : probeOne schemaText faults cached config = (rows, .ok tools)) :
    ∃ added, rows = cached ++ added ∧ Adds schemaText cached config.name tools added := by
  obtain ⟨built, hbuilt, rfl⟩ := probeOne_ok h
  obtain ⟨added, heq, hadded, hnodup, hall⟩ := Cache.inserted_spec cached built
  refine ⟨added, heq, hnodup, fun row hrow => (hadded row hrow).2.2, ?_, ?_⟩
  · intro row hrow
    obtain ⟨hmem, hchecks, -⟩ := hadded row hrow
    obtain ⟨tool, htool, hof⟩ := tool_of_row hbuilt hmem
    exact ⟨tool, htool, hof, hof.checks.mp hchecks⟩
  · intro tool htool hfits hfresh
    obtain ⟨row, hrow, hof⟩ := row_of_tool hbuilt htool
    have hname := hall row hrow (hof.checks.mpr hfits)
    rw [hof.called, List.map_append, List.mem_append] at hname
    exact List.mem_map.mp (hname.resolve_left hfresh)

theorem Adds.count {rows added : List CachedTool} {server : String} {tools : List (RemoteTool ι)}
    (h : Adds schemaText rows server tools added) (other : String) :
    Cache.countForServer (rows ++ added) other =
      Cache.countForServer rows other +
        if other = server then (newNames schemaText rows server tools).length else 0 := by
  have hserver : ∀ row ∈ added, row.server = server := by
    intro row hrow
    obtain ⟨tool, -, hof, -⟩ := h.row row hrow
    exact hof.served
  rw [Cache.countForServer, List.countP_append, ← Cache.countForServer]
  congr 1
  by_cases ho : other = server
  · subst ho
    rw [if_pos rfl, List.countP_eq_length.mpr fun row hrow => by simpa using hserver row hrow]
    have hnodup : (added.map (·.localName)).Nodup := by
      rw [List.nodup_map_iff_inj_on h.nodup.of_map]
      intro row hrow row' hrow' hname
      obtain ⟨tool, -, hof, -⟩ := h.row row hrow
      obtain ⟨tool', -, hof', -⟩ := h.row row' hrow'
      refine List.inj_on_of_nodup_map h.nodup hrow hrow' ?_
      rw [hof.called, hof'.called, ← hof.known, ← hof'.known, hname]
    rw [← List.length_map (f := (·.localName))]
    refine List.Perm.length_eq ((List.perm_ext_iff_of_nodup hnodup (List.nodup_dedup _)).mpr ?_)
    intro name
    rw [List.mem_dedup, List.mem_filter, List.mem_map, List.mem_map]
    constructor
    · rintro ⟨row, hrow, rfl⟩
      obtain ⟨tool, htool, hof, hfits⟩ := h.row row hrow
      refine ⟨⟨tool, List.mem_filter.mpr ⟨htool, hfits⟩, hof.known.symm⟩, ?_⟩
      have := h.fresh row hrow
      rw [hof.called, ← hof.known] at this
      simpa using this
    · rintro ⟨⟨tool, htool, rfl⟩, hfresh⟩
      obtain ⟨htool, hfits⟩ := List.mem_filter.mp htool
      obtain ⟨row, hrow, hname⟩ := h.all tool htool hfits (by simpa using hfresh)
      obtain ⟨tool', -, hof, -⟩ := h.row row hrow
      refine ⟨row, hrow, ?_⟩
      rw [hof.known]
      exact joined_right_inj (hof.called.symm.trans hname)
  · rw [if_neg ho, List.countP_eq_zero]
    intro row hrow hsame
    rw [decide_eq_true_iff, hserver row hrow] at hsame
    exact ho hsame.symm

/-- Rows of their own under distinct names keep the names apart. -/
theorem injective_of_own {rows : List CachedTool} {accepted : List (String × String)}
    (hnamed : (rows.map (·.tool)).Nodup)
    (hown : ∀ pair ∈ accepted, ∃ row ∈ rows,
      row.tool = joined pair.1 pair.2 ∧ row.server = pair.1 ∧ row.localName = pair.2) :
    ∀ pair ∈ accepted, ∀ pair' ∈ accepted,
      joined pair.1 pair.2 = joined pair'.1 pair'.2 → pair = pair' := by
  intro pair hpair pair' hpair' hname
  obtain ⟨row, hrow, htool, hserver, hlocal⟩ := hown pair hpair
  obtain ⟨row', hrow', htool', hserver', hlocal'⟩ := hown pair' hpair'
  obtain rfl := List.inj_on_of_nodup_map hnamed hrow hrow' (by rw [htool, htool', hname])
  exact Prod.ext (hserver.symm.trans hserver') (hlocal.symm.trans hlocal')

/-- An accepted probe keeps what the cache is for exactly when it is sound. -/
theorem keeps_adds_iff {s : History} (hs : Keeps s) {server : String} {tools : List (RemoteTool ι)}
    {added : List CachedTool} (h : Adds schemaText s.rows server tools added) :
    Keeps ⟨s.rows ++ added, s.accepted ++ tools.map fun tool => (server, tool.name)⟩ ↔
      Sound schemaText s.rows server tools := by
  have hnamed : ((s.rows ++ added).map (·.tool)).Nodup := by
    rw [List.map_append]
    refine List.Nodup.append hs.named h.nodup ?_
    intro name hold hnew
    obtain ⟨row, hrow, rfl⟩ := List.mem_map.mp hnew
    exact h.fresh row hrow hold
  constructor
  · intro hk
    have hown : ∀ tool ∈ tools, ∃ row ∈ s.rows ++ added, row.tool = joined server tool.name ∧
        row.server = server ∧ row.localName = tool.name := fun tool htool =>
      hk.own (server, tool.name)
        (List.mem_append_right _ (List.mem_map_of_mem htool))
    refine ⟨?_, ?_, ?_⟩
    · intro tool htool row hrow hname
      obtain ⟨row', hrow', htool', hserver, hlocal⟩ := hown tool htool
      obtain rfl := List.inj_on_of_nodup_map hnamed (List.mem_append_left _ hrow) hrow'
        (hname.trans htool'.symm)
      exact ⟨hserver, hlocal⟩
    · intro tool htool hfresh
      obtain ⟨row, hrow, hname, -, hlocal⟩ := hown tool htool
      rcases List.mem_append.mp hrow with hrow | hrow
      · exact absurd (List.mem_map.mpr ⟨row, hrow, hname⟩) hfresh
      · obtain ⟨tool', htool', hof, hfits⟩ := h.row row hrow
        exact ⟨tool', htool', hof.known.symm.trans hlocal, hfits⟩
    · have := hk.budget server
      rwa [h.count, if_pos rfl] at this
  · intro hsound
    have hown : ∀ pair ∈ s.accepted ++ tools.map fun tool => (server, tool.name),
        ∃ row ∈ s.rows ++ added, row.tool = joined pair.1 pair.2 ∧ row.server = pair.1 ∧
          row.localName = pair.2 := by
      intro pair hpair
      rcases List.mem_append.mp hpair with hpair | hpair
      · obtain ⟨row, hrow, hown⟩ := hs.own pair hpair
        exact ⟨row, List.mem_append_left _ hrow, hown⟩
      · obtain ⟨tool, htool, rfl⟩ := List.mem_map.mp hpair
        by_cases hold : joined server tool.name ∈ s.rows.map (·.tool)
        · obtain ⟨row, hrow, hname⟩ := List.mem_map.mp hold
          exact ⟨row, List.mem_append_left _ hrow, hname, hsound.clear tool htool row hrow hname⟩
        · obtain ⟨tool', htool', hsame, hfits⟩ := hsound.room tool htool hold
          rw [← hsame] at hold ⊢
          obtain ⟨row, hrow, hname⟩ := h.all tool' htool' hfits hold
          obtain ⟨tool'', -, hof, -⟩ := h.row row hrow
          refine ⟨row, List.mem_append_right _ hrow, hname, hof.served, ?_⟩
          rw [hof.known]
          exact joined_right_inj (hof.called.symm.trans hname)
    refine ⟨hnamed, hown, injective_of_own hnamed hown, ?_⟩
    intro other
    rw [h.count]
    by_cases ho : other = server
    · rw [if_pos ho, ho]
      exact hsound.budget
    · rw [if_neg ho]
      exact hs.budget other

theorem step_stays {s s' : History} {a : Probe ι} (h : step schemaText s a = some s') :
    Stays schemaText s a s' := by
  rw [step] at h
  split at h
  · next rows error hprobe =>
    cases h
    have hrows := probeOne_error hprobe
    exact ⟨by rw [hrows], fun _ _ _ => hrows⟩
  · next rows tools hprobe =>
    cases h
    obtain ⟨added, rfl, -⟩ := probeOne_adds hprobe
    refine ⟨List.prefix_append _ _, ?_⟩
    intro rows error hrefused
    rw [hprobe] at hrefused
    cases hrefused

theorem step_keeps_iff {s s' : History} {a : Probe ι} (hs : Keeps s)
    (h : step schemaText s a = some s') : Keeps s' ↔ Meets schemaText s a := by
  rw [step] at h
  split at h
  · next rows error hprobe =>
    cases h
    rw [probeOne_error hprobe]
    refine iff_of_true hs ?_
    intro rows tools hok
    rw [hprobe] at hok
    cases hok
  · next rows tools hprobe =>
    cases h
    obtain ⟨added, rfl, hadds⟩ := probeOne_adds hprobe
    rw [keeps_adds_iff hs hadds]
    constructor
    · intro hsound rows' tools' hprobe'
      rw [hprobe] at hprobe'
      cases hprobe'
      exact hsound
    · intro hmeets
      exact hmeets _ _ hprobe

theorem keeps_empty : Keeps .empty := by
  refine ⟨List.nodup_nil, nofun, nofun, ?_⟩
  intro server
  exact Nat.zero_le _

/-! ## Histories -/

theorem step_isSome (schemaText : ι → Except String String) (s : History) (a : Probe ι) :
    ∃ s', step schemaText s a = some s' := by
  rw [step]
  split <;> exact ⟨_, rfl⟩

theorem trace_keeps_iff (as : List (Probe ι)) {s : History} (hs : Keeps s) :
    (∀ t ∈ trace (step schemaText) s as, Keeps t.2.2) ↔
      ∀ t ∈ trace (step schemaText) s as, Meets schemaText t.1 t.2.1 := by
  induction as generalizing s with
  | nil => simp [trace]
  | cons a as ih =>
    obtain ⟨s', hstep⟩ := step_isSome schemaText s a
    rw [trace_cons hstep, List.forall_mem_cons, List.forall_mem_cons]
    have hone := step_keeps_iff hs hstep
    by_cases hkeeps : Keeps s'
    · have hmeets := hone.mp hkeeps
      have hlater := ih hkeeps
      exact ⟨fun h => ⟨hmeets, hlater.mp h.2⟩, fun h => ⟨hkeeps, hlater.mpr h.2⟩⟩
    · exact iff_of_false (fun h => hkeeps h.1) fun h => hkeeps (hone.mpr h.1)

/-- Over any history of probes the rows stay and a refused probe adds none; and every accepted tool
has a row of its own, within the budget, exactly when no probe comes to a clash of names, to a text
that the table refuses or to more rows than the budget. -/
theorem manifest_keeps_iff (schemaText : ι → Except String String) (as : List (Probe ι)) :
    (∀ t ∈ trace (step schemaText) .empty as, Stays schemaText t.1 t.2.1 t.2.2) ∧
      ((∀ t ∈ trace (step schemaText) .empty as, Keeps t.2.2) ↔
        ∀ t ∈ trace (step schemaText) .empty as, Meets schemaText t.1 t.2.1) := by
  refine ⟨?_, trace_keeps_iff as keeps_empty⟩
  intro t ht
  have htrue : ∀ (s : History) (a : Probe ι) (s' : History), True → step schemaText s a = some s' →
      True := fun _ _ _ _ _ => trivial
  exact step_stays (trace_invariant htrue as trivial ht).2

/-- A server that offers some tools without descriptions, on one page. -/
def offers (name : String) (tools : List String) : Probe Unit where
  config := ⟨name, ⟨.ok (), .ok protocolVersion, .ok (),
    fun _ _ => .ok ⟨tools.map fun tool => ⟨tool, "", ()⟩, none⟩⟩⟩
  faults := .none

def emptySchema (_ : Unit) : Except String String := .ok "\x7b\x7d"

/-- A server and a tool whose name holds the separator, beside another server and another tool. -/
theorem manifest_clash :
    ¬ ∀ t ∈ trace (step emptySchema) .empty [offers "a" ["b__c"], offers "a__b" ["c"]], Keeps t.2.2 := by
  have hfirst : step emptySchema .empty (offers "a" ["b__c"]) =
      some ⟨[⟨"a__b__c", "a", "b__c", "", "\x7b\x7d", true⟩], [("a", "b__c")]⟩ := rfl
  have hsecond : step emptySchema ⟨[⟨"a__b__c", "a", "b__c", "", "\x7b\x7d", true⟩], [("a", "b__c")]⟩
      (offers "a__b" ["c"]) = some ⟨[⟨"a__b__c", "a", "b__c", "", "\x7b\x7d", true⟩],
        [("a", "b__c"), ("a__b", "c")]⟩ := rfl
  rw [trace_cons hfirst, trace_cons hsecond]
  intro h
  have hkeeps := h _ (List.mem_cons_of_mem _ List.mem_cons_self)
  have hpair := hkeeps.injective ("a", "b__c") List.mem_cons_self ("a__b", "c")
    (List.mem_cons_of_mem _ List.mem_cons_self) rfl
  exact absurd hpair (by decide)

end SupraHarness.Mcp
