import MinimumRelease.Config.Format
import MinimumRelease.Proofs.Toml.Tables

/-! # Configurations read back

A configuration is written as two tables with a line for each setting that has a value.
Both tables are seen here as lists of settings (`AnalysisSettings.table`,
`BatchSettings.table`): their lines read as their entries, and looked up by name the
entries give the settings again. Main statement: what can be written reads back, and only
numbers of more than 63 bits cannot be written (`Config.toToml_roundTrip`). -/

namespace MinimumRelease

open Toml

/-! ## Settings by name -/

/-- The settings of a table by name, each with its value if it has one. -/
abbrev SettingsTable := List (String × Option Value)

def AnalysisSettings.table (s : AnalysisSettings) : SettingsTable :=
  [("min_release_floor", s.minReleaseFloor.map .integer),
   ("parser_release", s.parserRelease.map .integer),
   ("max_tree_depth", s.maxTreeDepth.map fun n : Nat => .integer n),
   ("keyword_substitution", s.keywordSubstitution.map .boolean),
   ("relocation", s.relocation.map .boolean)]

def BatchSettings.table (s : BatchSettings) : SettingsTable :=
  [("threads", s.threads.map fun n : Nat => .integer n),
   ("max_file_size", s.maxFileSize.map fun n : Nat => .integer n)]

/-- The text of a value. Settings have integers and truth values. -/
def Toml.Value.literal : Value → String
  | .integer n => toString n
  | .boolean b => flagText b
  | _ => ""

namespace SettingsTable

/-- The entries of the settings that have a value. -/
def entries (settings : SettingsTable) : Entries :=
  settings.filterMap fun s => s.2.map (s.1, ·)

/-- The lines of the settings that have a value. -/
def text (settings : SettingsTable) : List Char :=
  settings.flatMap fun s => (settingLine s.1 (s.2.map Value.literal)).toList

theorem entries_cons (s : String × Option Value) (settings : SettingsTable) :
    entries (s :: settings) = (s.2.map (s.1, ·)).toList ++ entries settings := by
  obtain ⟨name, v⟩ := s
  cases v <;> rfl

theorem readAs_text {settings : SettingsTable} (hkeys : ∀ k ∈ settings.map Prod.fst, BareKey k)
    (hvalues : ∀ s ∈ settings, ∀ v, s.2 = some v → Written v.literal.toList v) :
    ReadAs settings.text settings.entries.lines := by
  induction settings with
  | nil => exact readAs_nil
  | cons s settings ih =>
    obtain ⟨name, v⟩ := s
    rw [List.map_cons, List.forall_mem_cons] at hkeys
    rw [List.forall_mem_cons] at hvalues
    have hline : ReadAs (settingLine name (v.map Value.literal)).toList
        (Entries.lines (v.map (name, ·)).toList) := by
      cases v with
      | none => exact readAs_nil
      | some v =>
        have hentry := readAs_entry hkeys.1 (hvalues.1 v rfl)
        simpa [settingLine, Entries.lines] using hentry
    have hrest := hline.append (ih hkeys.2 hvalues.2)
    rw [Entries.lines, Entries.lines, ← List.map_append, ← entries_cons (name, v)] at hrest
    exact hrest

/-- A table with its header reads as its entries. -/
theorem readAs_table {name : String} {settings : SettingsTable}
    (hkeys : ∀ k ∈ name :: settings.map Prod.fst, BareKey k)
    (hvalues : ∀ s ∈ settings, ∀ v, s.2 = some v → Written v.literal.toList v) :
    ReadAs ('[' :: name.toList ++ ']' :: ['\n'] ++ settings.text)
      (.header [] name :: settings.entries.lines) := by
  rw [List.forall_mem_cons] at hkeys
  exact (readAs_header hkeys.1).append (readAs_text hkeys.2 hvalues)

theorem distinct_entries {settings : SettingsTable} (h : (settings.map Prod.fst).Nodup) :
    (settings.entries.map Prod.fst).Nodup := by
  have hsub : (settings.entries.map Prod.fst).Sublist (settings.map Prod.fst) := by
    clear h
    induction settings with
    | nil => exact .slnil
    | cons s settings ih =>
      rw [entries_cons, List.map_append]
      obtain ⟨name, v⟩ := s
      cases v with
      | none => exact ih.cons name
      | some v => exact ih.cons_cons name
  exact h.sublist hsub

theorem get?_entries {settings : SettingsTable} (h : (settings.map Prod.fst).Nodup)
    (name : String) : settings.entries.get? name = (settings.lookup name).join := by
  induction settings with
  | nil => rfl
  | cons s settings ih =>
    obtain ⟨k, v⟩ := s
    have hdistinct := List.nodup_cons.1 h
    rw [entries_cons, Entries.get?, List.lookup_append, ← Entries.get?, ← Entries.get?,
      ih hdistinct.2, List.lookup_cons]
    by_cases hname : name = k
    · have hnone : settings.lookup k = none := by
        rw [List.lookup_eq_none_iff]
        intro e he
        have hne : k ≠ e.1 := by
          intro hk
          have hmem : e.1 ∈ settings.map Prod.fst := List.mem_map_of_mem he
          rw [← hk] at hmem
          exact hdistinct.1 hmem
        simpa using hne
      subst hname
      cases v <;> simp [Entries.get?, hnone]
    · cases v <;> simp [Entries.get?, List.lookup_cons, beq_false_of_ne hname]

/-- A setting reads back if its value does. -/
theorem setting?_entries {α : Type} {settings : SettingsTable}
    (h : (settings.map Prod.fst).Nodup) {name : String} {f : α → Value} {o : Option α}
    (hname : settings.lookup name = some (o.map f)) {read : Value → Option α}
    (hread : ∀ a, o = some a → read (f a) = some a) :
    settings.entries.setting? read name = some o := by
  rw [Entries.setting?, get?_entries h, hname, Option.join_some]
  cases o with
  | none => rfl
  | some a =>
    simp only [Option.map_some, hread a rfl]

end SettingsTable

/-! ## Two tables -/

theorem AnalysisSettings.toToml_eq (s : AnalysisSettings) :
    s.toToml.toList = '[' :: "analysis".toList ++ ']' :: ['\n'] ++ SettingsTable.text s.table := by
  have hheader : "[analysis]\n".toList = '[' :: "analysis".toList ++ ']' :: ['\n'] := rfl
  delta toToml
  simp only [table, SettingsTable.text, List.flatMap_cons, List.flatMap_nil, List.append_nil,
    Option.map_map, String.toList_append, List.append_assoc, hheader]
  rfl

theorem BatchSettings.toToml_eq (s : BatchSettings) :
    s.toToml.toList = '[' :: "batch".toList ++ ']' :: ['\n'] ++ SettingsTable.text s.table := by
  simp only [toToml, table, SettingsTable.text, List.flatMap_cons, List.flatMap_nil,
    List.append_nil, Option.map_map, String.toList_append, List.append_assoc]
  rfl

/-- A release has 32 bits. -/
def IsRelease (n : Int) : Prop := -0x80000000 ≤ n ∧ n < 0x80000000

/-- A number that is not negative can be written if it has at most 63 bits. -/
def IsCount (n : Nat) : Prop := n ≤ 0x7fffffffffffffff

theorem release?_integer {n : Int} (h : IsRelease n) : (Value.integer n).release? = some n := by
  have hbits : (-0x80000000 ≤ n && n < 0x80000000) = true := by
    rw [Bool.and_eq_true, decide_eq_true_eq, decide_eq_true_eq]
    exact h
  rw [Value.release?, if_pos hbits]

theorem count?_natCast (n : Nat) : (Value.integer n).count? = some n := by
  simp [Value.count?]

theorem written_release {n : Int} (h : IsRelease n) :
    Written (Value.integer n).literal.toList (.integer n) := by
  refine written_integer ?_
  simp only [inRange, Bool.and_eq_true, decide_eq_true_eq]
  obtain ⟨hlo, hhi⟩ := h
  omega

theorem written_count {n : Nat} (h : IsCount n) :
    Written (Value.integer n).literal.toList (.integer n) := by
  refine written_integer ?_
  simp only [inRange, Bool.and_eq_true, decide_eq_true_eq]
  rw [IsCount] at h
  omega

theorem written_flag (b : Bool) : Written (Value.boolean b).literal.toList (.boolean b) := by
  cases b with
  | true => exact written_true
  | false => exact written_false

theorem AnalysisSettings.distinct_table (s : AnalysisSettings) :
    (s.table.map Prod.fst).Nodup := by
  have hnames : names.Nodup := by decide
  exact hnames

theorem BatchSettings.distinct_table (s : BatchSettings) : (s.table.map Prod.fst).Nodup := by
  have hnames : names.Nodup := by decide
  exact hnames

theorem AnalysisSettings.ofValue?_table {s : AnalysisSettings}
    (hfloor : ∀ r, s.minReleaseFloor = some r → IsRelease r)
    (hparser : ∀ r, s.parserRelease = some r → IsRelease r) :
    ofValue? (.table .header (SettingsTable.entries s.table)) = some s := by
  have h1 : (SettingsTable.entries s.table).setting? (·.release?) "min_release_floor" =
      some s.minReleaseFloor :=
    SettingsTable.setting?_entries s.distinct_table rfl fun r hr => release?_integer (hfloor r hr)
  have h2 : (SettingsTable.entries s.table).setting? (·.release?) "parser_release" =
      some s.parserRelease :=
    SettingsTable.setting?_entries s.distinct_table rfl fun r hr => release?_integer (hparser r hr)
  have h3 : (SettingsTable.entries s.table).setting? (·.count?) "max_tree_depth" =
      some s.maxTreeDepth :=
    SettingsTable.setting?_entries s.distinct_table rfl fun n _ => count?_natCast n
  have h4 : (SettingsTable.entries s.table).setting? (·.flag?) "keyword_substitution" =
      some s.keywordSubstitution :=
    SettingsTable.setting?_entries s.distinct_table rfl fun _ _ => rfl
  have h5 : (SettingsTable.entries s.table).setting? (·.flag?) "relocation" = some s.relocation :=
    SettingsTable.setting?_entries s.distinct_table rfl fun _ _ => rfl
  simp only [ofValue?, Value.settings?, Option.bind_eq_bind, Option.bind_some, h1, h2, h3, h4, h5]
  rfl

theorem BatchSettings.ofValue?_table (s : BatchSettings) :
    ofValue? (.table .header (SettingsTable.entries s.table)) = some s := by
  have h1 : (SettingsTable.entries s.table).setting? (·.count?) "threads" = some s.threads :=
    SettingsTable.setting?_entries s.distinct_table rfl fun n _ => count?_natCast n
  have h2 : (SettingsTable.entries s.table).setting? (·.count?) "max_file_size" =
      some s.maxFileSize :=
    SettingsTable.setting?_entries s.distinct_table rfl fun n _ => count?_natCast n
  simp only [ofValue?, Value.settings?, Option.bind_eq_bind, Option.bind_some, h1, h2]
  rfl

namespace Config

/-- The settings that are releases. -/
def releases (c : Config) : List Int :=
  [c.analysis.minReleaseFloor, c.analysis.parserRelease].filterMap id

/-- The settings that are numbers and not negative. -/
def counts (c : Config) : List Nat :=
  [c.analysis.maxTreeDepth, c.batch.threads, c.batch.maxFileSize].filterMap id

theorem readAs_analysis {c : Config} (hreleases : ∀ r ∈ c.releases, IsRelease r)
    (hcounts : ∀ n ∈ c.counts, IsCount n) : ReadAs c.analysis.toToml.toList
      (.header [] "analysis" :: (SettingsTable.entries c.analysis.table).lines) := by
  have hkeys : ∀ k ∈ "analysis" :: AnalysisSettings.names, BareKey k := by decide
  have hvalues : ∀ s ∈ c.analysis.table, ∀ v, s.2 = some v → Written v.literal.toList v := by
    intro s hs v hv
    simp only [AnalysisSettings.table, List.mem_cons, List.not_mem_nil, or_false] at hs
    rcases hs with rfl | rfl | rfl | rfl | rfl
    · obtain ⟨r, hr, rfl⟩ := Option.map_eq_some_iff.1 hv
      exact written_release (hreleases r (by simp [releases, hr]))
    · obtain ⟨r, hr, rfl⟩ := Option.map_eq_some_iff.1 hv
      exact written_release (hreleases r (by simp [releases, hr]))
    · obtain ⟨n, hn, rfl⟩ := Option.map_eq_some_iff.1 hv
      exact written_count (hcounts n (by simp [counts, hn]))
    · obtain ⟨b, -, rfl⟩ := Option.map_eq_some_iff.1 hv
      exact written_flag b
    · obtain ⟨b, -, rfl⟩ := Option.map_eq_some_iff.1 hv
      exact written_flag b
  rw [AnalysisSettings.toToml_eq]
  exact SettingsTable.readAs_table hkeys hvalues

theorem readAs_batch {c : Config} (hcounts : ∀ n ∈ c.counts, IsCount n) :
    ReadAs c.batch.toToml.toList
      (.header [] "batch" :: (SettingsTable.entries c.batch.table).lines) := by
  have hkeys : ∀ k ∈ "batch" :: BatchSettings.names, BareKey k := by decide
  have hvalues : ∀ s ∈ c.batch.table, ∀ v, s.2 = some v → Written v.literal.toList v := by
    intro s hs v hv
    simp only [BatchSettings.table, List.mem_cons, List.not_mem_nil, or_false] at hs
    rcases hs with rfl | rfl
    · obtain ⟨n, hn, rfl⟩ := Option.map_eq_some_iff.1 hv
      exact written_count (hcounts n (by simp [counts, hn]))
    · obtain ⟨n, hn, rfl⟩ := Option.map_eq_some_iff.1 hv
      exact written_count (hcounts n (by simp [counts, hn]))
  rw [BatchSettings.toToml_eq]
  exact SettingsTable.readAs_table hkeys hvalues

theorem ofToml_text {c : Config} (hreleases : ∀ r ∈ c.releases, IsRelease r)
    (hcounts : ∀ n ∈ c.counts, IsCount n) :
    ofToml (c.analysis.toToml ++ "\n" ++ c.batch.toToml) = .ok c := by
  have hread : ReadAs (c.analysis.toToml ++ "\n" ++ c.batch.toToml).toList
      (.header [] "analysis" :: (SettingsTable.entries c.analysis.table).lines ++
        .header [] "batch" :: (SettingsTable.entries c.batch.table).lines) := by
    have hfirst := (readAs_analysis hreleases hcounts).append readAs_blank
    have h := hfirst.append (readAs_batch hcounts)
    rw [List.append_nil] at h
    rwa [String.toList_append, String.toList_append]
  have hmark : ∀ cs, (c.analysis.toToml ++ "\n" ++ c.batch.toToml).toList ≠ '\ufeff' :: cs := by
    intro cs he
    rw [String.toList_append, String.toList_append, AnalysisSettings.toToml_eq] at he
    exact absurd (List.cons.inj he).1 (by decide)
  have hparse := parse_of_readAs hread hmark (Entries.ofStatements_tables (by decide)
    (SettingsTable.distinct_entries c.analysis.distinct_table)
    (SettingsTable.distinct_entries c.batch.distinct_table))
  have hanalysis : AnalysisSettings.ofValue?
      (.table .header (SettingsTable.entries c.analysis.table)) = some c.analysis := by
    refine AnalysisSettings.ofValue?_table (fun r hr => hreleases r ?_) fun r hr => hreleases r ?_
    · simp [releases, hr]
    · simp [releases, hr]
  have hentries : ofEntries?
      [("analysis", .table .header (SettingsTable.entries c.analysis.table)),
       ("batch", .table .header (SettingsTable.entries c.batch.table))] = some c := by
    simp [ofEntries?, Entries.setting?, Entries.get?, List.lookup_cons, hanalysis,
      BatchSettings.ofValue?_table]
  rw [ofToml, hparse]
  simp only [hentries]

theorem isWritable_iff (o : Option Nat) : isWritable o = true ↔ ∀ n, o = some n → IsCount n := by
  have hbound : ∀ n : Nat, n < 0x8000000000000000 ↔ IsCount n := by
    intro n
    rw [IsCount]
    omega
  cases o <;> simp [isWritable, hbound]

theorem isWritable_all_iff (c : Config) : (isWritable c.analysis.maxTreeDepth &&
    isWritable c.batch.threads && isWritable c.batch.maxFileSize) = true ↔
      ∀ n ∈ c.counts, IsCount n := by
  simp only [Bool.and_eq_true, isWritable_iff, counts, List.mem_filterMap, id]
  constructor
  · intro ⟨⟨hdepth, hthreads⟩, hsize⟩ n ⟨o, ho, hn⟩
    simp only [List.mem_cons, List.not_mem_nil, or_false] at ho
    rcases ho with rfl | rfl | rfl
    · exact hdepth n hn
    · exact hthreads n hn
    · exact hsize n hn
  · intro h
    exact ⟨⟨fun n hn => h n ⟨_, by simp, hn⟩, fun n hn => h n ⟨_, by simp, hn⟩⟩,
      fun n hn => h n ⟨_, by simp, hn⟩⟩

/-- **Configurations read back**, whichever of their settings have a value, as long as no number
has more than 63 bits. A configuration with such a number is not written. -/
theorem toToml_roundTrip (c : Config) (hreleases : ∀ r ∈ c.releases, IsRelease r) :
    ((∀ n ∈ c.counts, n ≤ 0x7fffffffffffffff) → ∃ text, c.toToml = .ok text ∧ ofToml text = .ok c) ∧
      ((∃ n ∈ c.counts, 0x7fffffffffffffff < n) → ∃ e, c.toToml = .error e) := by
  constructor
  · intro hcounts
    refine ⟨c.analysis.toToml ++ "\n" ++ c.batch.toToml, ?_, ofToml_text hreleases hcounts⟩
    rw [toToml, if_pos (c.isWritable_all_iff.2 hcounts)]
  · intro ⟨n, hn, hlarge⟩
    refine ⟨.malformed "<serialization>" "a number has more than 63 bits", ?_⟩
    rw [toToml, if_neg]
    intro hwritable
    exact absurd (c.isWritable_all_iff.1 hwritable n hn) (Nat.not_le_of_lt hlarge)

end Config

/-! ## The smallest release and the largest number -/

namespace Extremes

def config : Config where
  analysis := { minReleaseFloor := some (-0x80000000), keywordSubstitution := some false }
  batch := { maxFileSize := some 0x7fffffffffffffff }

theorem config_roundTrip : (∀ r ∈ config.releases, IsRelease r) ∧
    ∃ text, config.toToml = .ok text ∧ Config.ofToml text = .ok config := by
  have hreleases : ∀ r ∈ config.releases, IsRelease r := by
    intro r hr
    rw [List.mem_singleton.1 hr, IsRelease]
    omega
  have hcounts : ∀ n ∈ config.counts, n ≤ 0x7fffffffffffffff := by
    intro n hn
    exact Nat.le_of_eq (List.mem_singleton.1 hn)
  exact ⟨hreleases, (Config.toToml_roundTrip config hreleases).1 hcounts⟩

end Extremes

end MinimumRelease
