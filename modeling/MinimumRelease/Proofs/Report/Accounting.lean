import Mathlib.Data.List.Nodup
import Mathlib.Data.List.Perm.Basic
import MinimumRelease.Proofs.Grammar.Agreement
import MinimumRelease.Proofs.Report.Tally

/-! # Nothing is lost in a batch

A parser that is set up leaves two ways for the analysis of a file to fail: the
file cannot be read, or its text cannot be parsed. So each path adds one entry
to one of three lists of the report. `BatchReport.Tracks` holds of the report at
every point of a batch, for the paths that were added so far; the totals, the
maxima and the order of the lists follow from it. -/

namespace MinimumRelease

open Recovery

/-! ## How the analysis of a file ends -/

/-- The parser never fails for lack of a set-up. -/
def Parser.IsSetUp (parser : Parser) : Prop :=
  ∀ text message, parser text ≠ .error (.setup message)

namespace Parser

variable {parser : Parser}

theorem isUnparseable_of_parseTree (hsetup : parser.IsSetUp) {depth source e}
    (h : parser.parseTree depth source = .error e) : e.isUnparseable = true := by
  unfold parseTree at h
  split at h
  · next fault hfault =>
    cases h
    cases fault with
    | setup message => exact absurd hfault (hsetup source message)
    | noTree => rfl
  · dsimp only at h
    split at h
    · cases h; rfl
    · split at h
      · cases h; rfl
      · cases h

theorem isUnparseable_of_parse (hsetup : parser.IsSetUp) {depth profile source e}
    (h : parser.parse depth profile source = .error e) : e.isUnparseable = true := by
  unfold parse at h
  split at h
  · next e' htree =>
    cases h
    exact isUnparseable_of_parseTree hsetup htree
  · split at h
    · cases h; rfl
    · cases h

theorem isUnparseable_of_parseWithRecovery (hsetup : parser.IsSetUp) {s source e}
    (h : parser.parseWithRecovery s source = .error e) : e.isUnparseable = true := by
  unfold parseWithRecovery at h
  dsimp only at h
  split at h
  · cases h
  · next first hfirst =>
    rw [if_pos (isUnparseable_of_parse hsetup hfirst)] at h
    split at h
    · cases h
      exact isUnparseable_of_parse hsetup hfirst
    · split at h
      · cases h
      · next second hsecond =>
        cases h
        exact isUnparseable_of_parse hsetup hsecond

/-- A file that is not analysed cannot be read, or its text cannot be parsed. -/
theorem cases_of_analyzeFile_error (hsetup : parser.IsSetUp) {config store path e}
    (h : parser.analyzeFile config store path = .error e) :
    (∃ cause, e = .source cause) ∨ ∃ cause, e = .parse cause ∧ cause.isUnparseable = true := by
  unfold analyzeFile at h
  split at h
  · next cause hread =>
    cases h
    exact .inl ⟨cause, rfl⟩
  · next source hread =>
    rw [analyze_eq] at h
    split at h
    · next cause hparse =>
      cases h
      exact .inr ⟨cause, rfl, isUnparseable_of_parseWithRecovery hsetup hparse⟩
    · cases h

theorem detection_of_analyzeFile {config store path report}
    (h : parser.analyzeFile config store path = .ok report) :
    ∃ features, report.detection = .ofFeatures path config.analysis.floor features := by
  unfold analyzeFile at h
  split at h
  · cases h
  · rw [analyze_eq] at h
    split at h
    · cases h
    · cases h
      exact ⟨_, rfl⟩

end Parser

theorem Feature.nodup_canonical (fs : List Feature) : (canonical fs).Nodup := by
  have hidx : all.map Feature.ctorIdx = List.range all.length := by decide +kernel
  have hall : all.Nodup := List.Nodup.of_map Feature.ctorIdx (hidx ▸ List.nodup_range)
  exact hall.filter _

/-! ## The outcomes, in the order of the paths -/

/-- The entry for a path that could not be analysed. -/
def Failure.ofError (p : String × AnalysisError) : Failure := ⟨p.1, p.2.code, p.2.text⟩

namespace BatchReport

variable (outcome : String → Except AnalysisError FileReport)

/-- The reports on the paths that could be analysed. -/
def reportsOf (paths : List String) : List FileReport :=
  paths.filterMap fun path => (outcome path).toOption

/-- The paths that could not be analysed, with their errors. -/
def failuresOf (paths : List String) : List (String × AnalysisError) :=
  paths.filterMap fun path =>
    match outcome path with
    | .ok _ => none
    | .error e => some (path, e)

variable {outcome}

theorem reportsOf_concat_ok {path : String} {r : FileReport} (h : outcome path = .ok r)
    (done : List String) : reportsOf outcome (done ++ [path]) = reportsOf outcome done ++ [r] := by
  simp [reportsOf, h, Except.toOption]

theorem reportsOf_concat_error {path : String} {e : AnalysisError} (h : outcome path = .error e)
    (done : List String) : reportsOf outcome (done ++ [path]) = reportsOf outcome done := by
  simp [reportsOf, h, Except.toOption]

theorem failuresOf_concat_ok {path : String} {r : FileReport} (h : outcome path = .ok r)
    (done : List String) : failuresOf outcome (done ++ [path]) = failuresOf outcome done := by
  simp [failuresOf, h]

theorem failuresOf_concat_error {path : String} {e : AnalysisError} (h : outcome path = .error e)
    (done : List String) :
    failuresOf outcome (done ++ [path]) = failuresOf outcome done ++ [(path, e)] := by
  simp [failuresOf, h]

theorem mem_reportsOf {paths : List String} {r : FileReport} (h : r ∈ reportsOf outcome paths) :
    ∃ path, outcome path = .ok r := by
  obtain ⟨path, -, hr⟩ := List.mem_filterMap.1 h
  cases ho : outcome path with
  | error e => rw [ho] at hr; cases hr
  | ok r' => rw [ho] at hr; cases hr; exact ⟨path, ho⟩

/-! ## One path more -/

/-- The report is on the paths in `done`. -/
structure Tracks (outcome : String → Except AnalysisError FileReport) (done : List String)
    (b : BatchReport) : Prop where
  files : b.files = reportsOf outcome done
  unparseable : b.unparseable =
    ((failuresOf outcome done).filter (·.2.isUnparseable)).map Failure.ofError
  unreadable : b.unreadable =
    ((failuresOf outcome done).filter (·.2.isUnreadable)).map Failure.ofError
  errors : b.errors = (failuresOf outcome done).map (·.2)
  releases : b.releases.Counts (· < ·) ((reportsOf outcome done).map (·.detection.required))
  features : b.features.Counts Feature.catalogBefore
    ((reportsOf outcome done).flatMap (·.detection.features))

namespace Tracks

variable {done : List String} {b : BatchReport}

theorem start : Tracks outcome [] {} := ⟨rfl, rfl, rfl, rfl, .nil, .nil⟩

theorem addFile (h : Tracks outcome done b) {path : String} {r : FileReport}
    (hr : outcome path = .ok r) : Tracks outcome (done ++ [path]) (b.addFile r) := by
  have hreports := reportsOf_concat_ok hr done
  constructor
  · rw [hreports, ← h.files]
    rfl
  · rw [failuresOf_concat_ok hr]
    exact h.unparseable
  · rw [failuresOf_concat_ok hr]
    exact h.unreadable
  · rw [failuresOf_concat_ok hr]
    exact h.errors
  · rw [hreports, List.map_append]
    exact h.releases.add Tally.orders_lt r.detection.required
  · rw [hreports, List.flatMap_append, List.flatMap_singleton]
    exact h.features.addAll Tally.orders_catalogBefore r.detection.features

theorem addFailure (h : Tracks outcome done b) {path : String} {e : AnalysisError}
    (he : outcome path = .error e) : Tracks outcome (done ++ [path]) (b.addFailure path e) := by
  have hreports := reportsOf_concat_error he done
  have hlist (list : List Failure) (p : AnalysisError → Bool)
      (hl : list = ((failuresOf outcome done).filter (p ·.2)).map Failure.ofError) :
      (if p e then list ++ [Failure.ofError (path, e)] else list) =
        ((failuresOf outcome (done ++ [path])).filter (p ·.2)).map Failure.ofError := by
    rw [failuresOf_concat_error he, List.filter_append, List.map_append, hl]
    cases hp : p e <;> simp [hp]
  constructor
  · rw [hreports, ← h.files]
    rfl
  · exact hlist _ _ h.unparseable
  · exact hlist _ _ h.unreadable
  · rw [failuresOf_concat_error he, List.map_append, ← h.errors]
    rfl
  · rw [hreports]
    exact h.releases
  · rw [hreports]
    exact h.features

theorem add (h : Tracks outcome done b) (path : String) :
    Tracks outcome (done ++ [path]) (b.add path (outcome path)) := by
  cases ho : outcome path with
  | ok r => exact h.addFile ho
  | error e => exact h.addFailure ho

theorem addAll (h : Tracks outcome done b) (paths : List String) :
    Tracks outcome (done ++ paths) (paths.foldl (fun b path => b.add path (outcome path)) b) := by
  induction paths generalizing done b with
  | nil => simpa using h
  | cons path paths ih => simpa using ih (h.add path)

end Tracks

end BatchReport

theorem Parser.tracks_analyzeBatch (parser : Parser) (config : Config) (store : FileStore)
    (paths : List String) :
    (parser.analyzeBatch config store paths).Tracks (parser.analyzeFile config store) paths :=
  BatchReport.Tracks.start.addAll paths

/-! ## Workers

Workers finish in any order. Each outcome carries the position of its path. -/

section

variable {α : Type}

/-- What was finished, by position. -/
def byPosition (finished : List (α × Nat)) : List α :=
  (finished.mergeSort fun x y => x.2 ≤ y.2).map (·.1)

theorem byPosition_of_perm {finished : List (α × Nat)} {xs : List α}
    (h : finished.Perm xs.zipIdx) : byPosition finished = xs := by
  have hsorted : (finished.mergeSort fun x y => x.2 ≤ y.2).Pairwise fun x y => x.2 ≤ y.2 :=
    (List.pairwise_mergeSort (by simp; omega) (by simp; omega) finished).imp of_decide_eq_true
  have hzip : xs.zipIdx.Pairwise fun x y => x.2 ≤ y.2 := by
    rw [← List.pairwise_map (f := Prod.snd) (R := (· ≤ ·)), List.zipIdx_map_snd]
    exact List.pairwise_le_range'
  have hperm := (List.mergeSort_perm finished fun x y => decide (x.2 ≤ y.2)).trans h
  have heq : (finished.mergeSort fun x y => x.2 ≤ y.2) = xs.zipIdx := by
    refine hperm.eq_of_pairwise (fun x y hx hy hxy hyx => ?_) hsorted hzip
    -- one position has one element
    have hpos : x.2 = y.2 := Nat.le_antisymm hxy hyx
    have hx' := List.mem_zipIdx_iff_getElem?.1 (hperm.mem_iff.1 hx)
    have hy' := List.mem_zipIdx_iff_getElem?.1 hy
    rw [hpos, hy'] at hx'
    exact Prod.ext (Option.some.inj hx').symm hpos
  rw [byPosition, heq, List.zipIdx_map_fst]

end

/-! ## What the report adds up to -/

namespace BatchReport

/-- What a report on many files says, in terms of the outcome for each path. -/
structure Accounts (outcome : String → Except AnalysisError FileReport) (paths : List String)
    (b : BatchReport) : Prop where
  /-- Each path has one entry in one of the three lists. -/
  entries : (b.files.map (·.detection.path) ++
    (b.unparseable.map (·.path) ++ b.unreadable.map (·.path))).Perm paths
  length_eq : b.files.length + b.unparseable.length + b.unreadable.length = paths.length
  files_eq : b.files = reportsOf outcome paths
  unparseable_eq : b.unparseable =
    ((failuresOf outcome paths).filter (·.2.isUnparseable)).map Failure.ofError
  unreadable_eq : b.unreadable =
    ((failuresOf outcome paths).filter (·.2.isUnreadable)).map Failure.ofError
  /-- The failures of both lists, in the order of the paths. -/
  errors_eq : b.errors = (failuresOf outcome paths).map (·.2)
  error_kind : ∀ e ∈ b.errors, e.isUnparseable = !e.isUnreadable
  releases_ascending : b.releases.Pairwise (·.1 < ·.1)
  releases_total : b.releases.total = b.files.length
  mem_releases : ∀ r n, (r, n) ∈ b.releases ↔
    0 < n ∧ b.files.countP (·.detection.required = r) = n
  features_ascending : b.features.Pairwise fun p q => Feature.catalogBefore p.1 q.1 = true
  mem_features : ∀ f n, (f, n) ∈ b.features ↔
    0 < n ∧ b.files.countP (·.detection.contains f) = n
  maxRequired_iff : ∀ m, b.maxRequired? = some m ↔
    (∃ r ∈ b.files, r.detection.required = m) ∧ ∀ r ∈ b.files, r.detection.required ≤ m
  maxRequiredLanguage_iff : ∀ m, b.maxRequiredLanguage? = some m ↔
    (∃ r ∈ b.files, r.detection.requiredLanguageRelease? = some m) ∧
      ∀ r ∈ b.files, ∀ n, r.detection.requiredLanguageRelease? = some n → n ≤ m

variable {outcome : String → Except AnalysisError FileReport} {paths : List String}

theorem perm_reports_failures (hpath : ∀ path r, outcome path = .ok r → r.detection.path = path) :
    ((reportsOf outcome paths).map (·.detection.path) ++
      (failuresOf outcome paths).map (·.1)).Perm paths := by
  induction paths using List.reverseRecOn with
  | nil => exact .nil
  | append_singleton done path ih =>
    refine List.Perm.trans ?_ (ih.append_right [path])
    rw [List.append_assoc]
    cases ho : outcome path with
    | ok r =>
      rw [reportsOf_concat_ok ho, failuresOf_concat_ok ho, List.map_append, List.append_assoc,
        List.map_singleton, hpath path r ho]
      exact List.perm_append_comm.append_left _
    | error e =>
      rw [reportsOf_concat_error ho, failuresOf_concat_error ho, List.map_append]
      rfl

theorem mem_failuresOf {x : String × AnalysisError} (h : x ∈ failuresOf outcome paths) :
    outcome x.1 = .error x.2 := by
  obtain ⟨path, -, hx⟩ := List.mem_filterMap.1 h
  split at hx
  · cases hx
  · cases hx
    assumption

/-- Errors that are of one of two kinds stand in one of two lists. -/
theorem perm_unparseable_unreadable {es : List (String × AnalysisError)}
    (h : ∀ x ∈ es, x.2.isUnparseable = !x.2.isUnreadable) :
    (es.filter (·.2.isUnparseable) ++ es.filter (·.2.isUnreadable)).Perm es := by
  have hrest : es.filter (·.2.isUnreadable) = es.filter (!·.2.isUnparseable) :=
    List.filter_congr fun x hx => by rw [h x hx, Bool.not_not]
  rw [hrest]
  exact List.filter_append_perm _ es

theorem count_features {rs : List FileReport} (h : ∀ r ∈ rs, r.detection.features.Nodup)
    (f : Feature) : (rs.flatMap (·.detection.features)).count f =
      rs.countP (·.detection.contains f) := by
  induction rs with
  | nil => rfl
  | cons r rs ih =>
    obtain ⟨hr, hrs⟩ := List.forall_mem_cons.1 h
    rw [List.flatMap_cons, List.count_append, List.countP_cons, ih hrs, hr.count, Nat.add_comm]
    simp [Detection.contains]

namespace Tracks

variable {b : BatchReport} (h : Tracks outcome paths b)
include h

theorem perm_entries (hpath : ∀ path r, outcome path = .ok r → r.detection.path = path)
    (hkind : ∀ x ∈ failuresOf outcome paths, x.2.isUnparseable = !x.2.isUnreadable) :
    (b.files.map (·.detection.path) ++
      (b.unparseable.map (·.path) ++ b.unreadable.map (·.path))).Perm paths := by
  have hsplit := (perm_unparseable_unreadable hkind).map (·.1)
  rw [List.map_append] at hsplit
  rw [h.files, h.unparseable, h.unreadable, List.map_map, List.map_map]
  exact (hsplit.append_left _).trans (perm_reports_failures hpath)

theorem mem_releases (r : Int) (n : Nat) :
    (r, n) ∈ b.releases ↔ 0 < n ∧ b.files.countP (·.detection.required = r) = n := by
  rw [h.releases.mem_iff Tally.orders_lt, h.files, List.count_eq_countP, List.countP_map]
  rfl

theorem mem_features (hnodup : ∀ path r, outcome path = .ok r → r.detection.features.Nodup)
    (f : Feature) (n : Nat) :
    (f, n) ∈ b.features ↔ 0 < n ∧ b.files.countP (·.detection.contains f) = n := by
  have hfiles : ∀ r ∈ reportsOf outcome paths, r.detection.features.Nodup := fun r hr =>
    (mem_reportsOf hr).elim fun path ho => hnodup path r ho
  rw [h.features.mem_iff Tally.orders_catalogBefore, h.files, count_features hfiles]

theorem maxRequired_iff (m : Int) : b.maxRequired? = some m ↔
    (∃ r ∈ b.files, r.detection.required = m) ∧ ∀ r ∈ b.files, r.detection.required ≤ m := by
  rw [maxRequired?, h.releases.last_iff Tally.orders_lt, h.files, List.mem_map, List.forall_mem_map]
  simp only [decide_eq_true_eq, ← Int.le_iff_eq_or_lt]

theorem accounts (hpath : ∀ path r, outcome path = .ok r → r.detection.path = path)
    (hnodup : ∀ path r, outcome path = .ok r → r.detection.features.Nodup)
    (hkind : ∀ path e, outcome path = .error e → e.isUnparseable = !e.isUnreadable) :
    Accounts outcome paths b := by
  have hkinds : ∀ x ∈ failuresOf outcome paths, x.2.isUnparseable = !x.2.isUnreadable :=
    fun x hx => hkind _ _ (mem_failuresOf hx)
  have hentries := h.perm_entries hpath hkinds
  exact {
    entries := hentries
    length_eq := by simpa [Nat.add_assoc] using hentries.length_eq
    files_eq := h.files
    unparseable_eq := h.unparseable
    unreadable_eq := h.unreadable
    errors_eq := h.errors
    error_kind := by
      rw [h.errors]
      exact List.forall_mem_map.2 hkinds
    releases_ascending := h.releases.ascending.imp of_decide_eq_true
    releases_total := by rw [h.releases.total_eq, h.files, List.length_map]
    mem_releases := h.mem_releases
    features_ascending := h.features.ascending
    mem_features := h.mem_features hnodup
    maxRequired_iff := h.maxRequired_iff
    maxRequiredLanguage_iff := fun m => by
      simp only [maxRequiredLanguage?, List.max?_eq_some_iff, List.mem_filterMap]
      grind }

end Tracks

end BatchReport

/-- **The books of a batch balance.** With a parser that is set up, the report accounts for every
path. It is the same for every number of workers, and in whatever order they finish. A file fails
because it cannot be read or because its text cannot be parsed, and for no other reason: the
detection of its features always passes the check that the release is the one they require. -/
theorem Parser.analyzeBatch_accounts {parser : Parser} (hsetup : parser.IsSetUp) (config : Config)
    (store : FileStore) (paths : List String) :
    let outcome := parser.analyzeFile config store
    let b := parser.analyzeBatch config store paths
    b.Accounts outcome paths ∧
    (∀ threads, parser.analyzeBatch { config with batch := { config.batch with threads := threads } }
      store paths = b) ∧
    (∀ finished, finished.Perm (paths.map fun path => (path, outcome path)).zipIdx →
      (byPosition finished).foldl (fun b x => b.add x.1 x.2) {} = b) ∧
    (∀ path e, outcome path = .error e → (∃ cause, e = .source cause) ∨
      ∃ cause, e = .parse cause ∧ cause.isUnparseable = true) ∧
    ∀ path r, outcome path = .ok r → ∃ features, Detection.check path config.analysis.floor features
      (Feature.requiredRelease config.analysis.floor features) = .ok r.detection := by
  intro outcome b
  refine ⟨?_, fun threads => rfl, fun finished hperm => ?_,
    fun path e he => cases_of_analyzeFile_error hsetup he, fun path r hr => ?_⟩
  · refine (parser.tracks_analyzeBatch config store paths).accounts (fun path r hr => ?_)
      (fun path r hr => ?_) fun path e he => ?_
    · obtain ⟨features, hd⟩ := detection_of_analyzeFile hr
      rw [hd]
      rfl
    · obtain ⟨features, hd⟩ := detection_of_analyzeFile hr
      rw [hd]
      exact Feature.nodup_canonical features
    · obtain ⟨cause, rfl⟩ | ⟨cause, rfl, hcause⟩ := cases_of_analyzeFile_error hsetup he
      · rfl
      · exact hcause
  · rw [byPosition_of_perm hperm, List.foldl_map]
    rfl
  · obtain ⟨features, hd⟩ := detection_of_analyzeFile hr
    exact ⟨features, by rw [Detection.check_requiredRelease, hd]⟩

/-! ## A batch with both kinds of failure -/

namespace ModuleFile

/-- A file that parses, one that does not, and nothing else. -/
def store : FileStore := fun path =>
  if path = "module-info.java" then some (.file tree.source.toUTF8)
  else if path = "A.java" then some (.file "class".toUTF8)
  else none

def paths : List String := ["B.java", "module-info.java", "A.java", "module-info.java"]

theorem accounts_twice : parser.IsSetUp ∧
    (parser.analyzeBatch {} store paths).releases = [(9, 2)] ∧
    (parser.analyzeBatch {} store paths).files.countP (·.detection.required = 9) = 2 ∧
    (parser.analyzeBatch {} store paths).unparseable.map (·.path) = ["A.java"] ∧
    (parser.analyzeBatch {} store paths).unreadable.map (·.path) = ["B.java"] ∧
    (parser.analyzeBatch {} store paths).maxRequired? = some 9 ∧
    (parser.analyzeBatch {} store paths).Accounts (parser.analyzeFile {} store) paths := by
  have hsetup : parser.IsSetUp := by
    intro text message h
    unfold parser at h
    split at h <;> cases h
  obtain ⟨haccounts, -⟩ := Parser.analyzeBatch_accounts hsetup {} store paths
  have hreleases : (parser.analyzeBatch {} store paths).releases = [(9, 2)] := by decide +kernel
  have hcount := (haccounts.mem_releases 9 2).1 (hreleases ▸ List.mem_singleton_self _)
  refine ⟨hsetup, hreleases, hcount.2, by decide +kernel, by decide +kernel, ?_, haccounts⟩
  rw [BatchReport.maxRequired?, hreleases]
  rfl

end ModuleFile

end MinimumRelease
