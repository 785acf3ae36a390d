import Mathlib.Data.Int.Order.Basic
import Mathlib.Data.List.Nodup
import Mathlib.Data.List.Perm.Basic
import MinimumRelease.Proofs.Report.Accounting
import MinimumRelease.Proofs.Rule.Scan

/-! # The views of a detection

A detection holds a set of features. Its views are all read off the sorted list:
no two features have the same release and name, so the order is strict and the
sorted list is the same in whatever order the set is gone through
(`Detection.sorted_eq_of_perm`). Releases ascend along it, so the newest is the
last, those from the floor on are a suffix, and the groups of one release stand
one behind the other. -/

namespace MinimumRelease

/-! ## Report order -/

namespace Feature

/-- Strict report order: by release, and by name within a release. -/
def Precedes (f g : Feature) : Prop :=
  f.release < g.release ∨ (f.release = g.release ∧ f.name < g.name)

/-- A feature is known by its name. -/
theorem name_injective : Function.Injective name := by
  have hnames : (all.map name).Nodup := by decide +kernel
  intro f g h
  exact List.inj_on_of_nodup_map hnames (mem_all f) (mem_all g) h

theorem reportedBefore_iff {f g : Feature} : reportedBefore f g = true ↔
    f.release < g.release ∨ (f.release = g.release ∧ f.name ≤ g.name) := by
  simp [reportedBefore]

theorem reportedBefore_trans (f g h : Feature) (hfg : reportedBefore f g = true)
    (hgh : reportedBefore g h = true) : reportedBefore f h = true := by
  rw [reportedBefore_iff] at *
  rcases hfg with hfg | ⟨hfg, hnames⟩
  · rcases hgh with hgh | ⟨hgh, -⟩
    · exact .inl (Int.lt_trans hfg hgh)
    · exact .inl (hgh ▸ hfg)
  · rcases hgh with hgh | ⟨hgh, hnames'⟩
    · exact .inl (hfg ▸ hgh)
    · exact .inr ⟨hfg.trans hgh, String.le_trans hnames hnames'⟩

theorem reportedBefore_total (f g : Feature) :
    (reportedBefore f g || reportedBefore g f) = true := by
  rw [Bool.or_eq_true, reportedBefore_iff, reportedBefore_iff]
  rcases Int.lt_trichotomy f.release g.release with hlt | heq | hgt
  · exact .inl (.inl hlt)
  · rcases String.le_total f.name g.name with hle | hle
    · exact .inl (.inr ⟨heq, hle⟩)
    · exact .inr (.inr ⟨heq.symm, hle⟩)
  · exact .inr (.inl hgt)

theorem reportedBefore_antisymm {f g : Feature} (hfg : reportedBefore f g = true)
    (hgf : reportedBefore g f = true) : f = g := by
  rw [reportedBefore_iff] at hfg hgf
  rcases hfg with hfg | ⟨hfg, hnames⟩
  · rcases hgf with hgf | ⟨hgf, -⟩ <;> omega
  · rcases hgf with hgf | ⟨-, hnames'⟩
    · omega
    · exact name_injective (String.le_antisymm hnames hnames')

theorem precedes_of_reportedBefore {f g : Feature} (h : reportedBefore f g = true)
    (hne : f ≠ g) : f.Precedes g := by
  rcases reportedBefore_iff.1 h with hlt | ⟨heq, hle⟩
  · exact .inl hlt
  · refine .inr ⟨heq, String.not_le.1 fun hge => hne ?_⟩
    exact name_injective (String.le_antisymm hle hge)

theorem release_le_of_reportedBefore {f g : Feature} (h : reportedBefore f g = true) :
    f.release ≤ g.release := by
  rcases reportedBefore_iff.1 h with hlt | ⟨heq, -⟩ <;> omega

theorem pairwise_mergeSort (fs : List Feature) :
    (fs.mergeSort reportedBefore).Pairwise (reportedBefore · · = true) :=
  List.pairwise_mergeSort reportedBefore_trans reportedBefore_total fs

end Feature

/-! ## Lists in ascending order -/

/-- What stands in one piece at the front of a list is left out by dropping it. -/
theorem filter_eq_dropWhile {α : Type} {p : α → Bool} {xs : List α}
    (h : xs.Pairwise fun x y => p y = true → p x = true) :
    xs.filter (!p ·) = xs.dropWhile p := by
  induction xs with
  | nil => rfl
  | cons x xs ih =>
    obtain ⟨hx, hxs⟩ := List.pairwise_cons.1 h
    cases hp : p x with
    | true =>
      rw [List.filter_cons_of_neg (by simp [hp]), List.dropWhile_cons_of_pos hp]
      exact ih hxs
    | false =>
      have hrest : ∀ y ∈ xs, p y = false := fun y hy =>
        Bool.eq_false_iff.2 fun hy' => by simp [hx y hy hy'] at hp
      rw [List.dropWhile_cons_of_neg (by simp [hp]), List.filter_eq_self]
      exact List.forall_mem_cons.2 ⟨by simp [hp], fun y hy => by simp [hrest y hy]⟩

/-- The newest release of an ascending list is the one of its last member. -/
theorem Feature.max?_release_eq_getLast? {fs : List Feature}
    (h : fs.Pairwise (·.release ≤ ·.release)) :
    (fs.map release).max? = fs.getLast?.map release := by
  rcases List.eq_nil_or_concat fs with rfl | ⟨front, last, rfl⟩
  · rfl
  · rw [List.concat_eq_append] at h ⊢
    rw [List.getLast?_concat, Option.map_some, List.max?_eq_some_iff]
    have hlast := (List.pairwise_append.1 h).2.2
    refine ⟨by simp, ?_⟩
    intro r hr
    obtain ⟨f, hf, rfl⟩ := List.mem_map.1 hr
    rcases List.mem_append.1 hf with hf | hf
    · exact hlast f hf last List.mem_cons_self
    · exact Int.le_of_eq (congrArg release (List.mem_singleton.1 hf))

theorem Feature.eq_requiredRelease_iff {floor required : Int} {fs : List Feature} :
    required = requiredRelease floor fs ↔ (fs = [] ∧ required = floor) ∨
      (∃ f ∈ fs, f.release = required) ∧ ∀ f ∈ fs, f.release ≤ required := by
  have hmax : (fs.map release).max? = some required ↔
      (∃ f ∈ fs, f.release = required) ∧ ∀ f ∈ fs, f.release ≤ required := by
    rw [List.max?_eq_some_iff, List.mem_map, List.forall_mem_map]
  rw [← hmax, requiredRelease]
  cases hm : (fs.map release).max? with
  | none =>
    rw [List.max?_eq_none_iff, List.map_eq_nil_iff] at hm
    simp [hm]
  | some m =>
    have hne : fs ≠ [] := fun hnil => by simp [hnil] at hm
    simp [hne, eq_comm]

/-- Values that ascend, each taken once, ascend strictly. -/
theorem ascending_eraseDups {rs : List Int} (h : rs.Pairwise (· ≤ ·)) :
    rs.eraseDups.Pairwise (· < ·) := by
  refine (pairwise_eraseDups rs).imp_of_mem fun {r s} hr hs hlt => ?_
  have hr := List.idxOf_lt_length_of_mem (List.mem_eraseDups.1 hr)
  have hs := List.idxOf_lt_length_of_mem (List.mem_eraseDups.1 hs)
  have hle := List.pairwise_iff_getElem.1 h _ _ hr hs hlt
  rw [List.getElem_idxOf, List.getElem_idxOf] at hle
  refine lt_of_le_of_ne hle fun heq => ?_
  rw [heq] at hlt
  exact Nat.lt_irrefl _ hlt

/-! ## The sorted list and what is read off it -/

namespace Detection

variable (d : Detection)

theorem perm_sorted : d.sorted.Perm d.features := List.mergeSort_perm _ _

variable {d}

/-- It makes no difference in which order the features are taken before they are sorted. -/
theorem sorted_eq_of_perm {order : List Feature} (h : order.Perm d.features) :
    order.mergeSort Feature.reportedBefore = d.sorted := by
  refine List.Perm.eq_of_pairwise (fun f g _ _ => Feature.reportedBefore_antisymm)
    (Feature.pairwise_mergeSort order) (Feature.pairwise_mergeSort d.features) ?_
  exact (List.mergeSort_perm order _).trans (h.trans d.perm_sorted.symm)

theorem requiredRelease_of_perm {order : List Feature} (h : order.Perm d.features) :
    Feature.requiredRelease d.floor order = d.required := by
  rw [d.required_eq, Feature.requiredRelease, Feature.requiredRelease,
    Feature.max?_release_congr fun f => h.mem_iff]

theorem requiredLanguageRelease?_of_perm {order : List Feature} (h : order.Perm d.features) :
    Feature.requiredLanguageRelease? order = d.requiredLanguageRelease? :=
  Feature.max?_release_congr fun _ => (h.filter _).mem_iff

theorem ascending_sorted (h : d.features.Nodup) : d.sorted.Pairwise Feature.Precedes :=
  (Feature.pairwise_mergeSort d.features).imp₂ (fun _ _ => Feature.precedes_of_reportedBefore)
    (d.perm_sorted.nodup_iff.2 h)

variable (d)

theorem releases_sorted : d.sorted.Pairwise (·.release ≤ ·.release) :=
  (Feature.pairwise_mergeSort d.features).imp Feature.release_le_of_reportedBefore

theorem releases_ascending : (d.sorted.map (·.release)).eraseDups.Pairwise (· < ·) :=
  ascending_eraseDups (List.pairwise_map.2 d.releases_sorted)

/-- The groups of one release, one behind the other, are the sorted list. -/
theorem flatMap_byRelease : d.byRelease.flatMap (·.2) = d.sorted := by
  have hkeys : ∀ f ∈ d.sorted, f.release ∈ (d.sorted.map (·.release)).eraseDups := fun f hf =>
    List.mem_eraseDups.2 (List.mem_map_of_mem hf)
  have hsort := groups_eq_mergeSort id d.releases_ascending hkeys
  rw [List.mergeSort_of_pairwise (d.releases_sorted.imp (by simp))] at hsort
  rw [byRelease, List.flatMap_map]
  exact hsort

theorem reported_eq_dropWhile : d.reported = d.sorted.dropWhile (·.release < d.floor) := by
  have hold : d.sorted.Pairwise fun f g =>
      decide (g.release < d.floor) = true → decide (f.release < d.floor) = true := by
    refine d.releases_sorted.imp fun hle => ?_
    simp only [decide_eq_true_eq]
    omega
  rw [← filter_eq_dropWhile hold]
  refine List.filter_congr fun f _ => ?_
  rw [← decide_not, decide_eq_decide, Int.not_lt]

theorem required_eq_getLast? :
    d.required = (d.sorted.getLast?.map (·.release)).getD d.floor := by
  rw [← requiredRelease_of_perm d.perm_sorted, Feature.requiredRelease,
    Feature.max?_release_eq_getLast? d.releases_sorted]

theorem requiredLanguageRelease?_eq_getLast? :
    d.requiredLanguageRelease? = d.languageFeatures.getLast?.map (·.release) := by
  rw [← requiredLanguageRelease?_of_perm d.perm_sorted, Feature.requiredLanguageRelease?]
  exact Feature.max?_release_eq_getLast? (d.releases_sorted.filter _)

theorem byRelease_group {group : Int × List Feature} (h : group ∈ d.byRelease) :
    group.2 ≠ [] ∧ ∀ f ∈ group.2, f.release = group.1 := by
  obtain ⟨r, hr, rfl⟩ := List.mem_map.1 h
  obtain ⟨f, hf, hfr⟩ := List.mem_map.1 (List.mem_eraseDups.1 hr)
  constructor
  · exact List.ne_nil_of_mem (List.mem_filter.2 ⟨hf, decide_eq_true hfr⟩)
  · intro g hg
    exact of_decide_eq_true (List.mem_filter.1 hg).2

/-! ## The views together -/

/-- What the views of a detection show of a list of features. -/
structure Views (d : Detection) (fs : List Feature) : Prop where
  mem_sorted : ∀ f, f ∈ d.sorted ↔ f ∈ fs
  ascending : d.sorted.Pairwise Feature.Precedes
  /-- The set of features can be gone through in any order. -/
  any_order : ∀ order, order.Perm d.features →
    order.mergeSort Feature.reportedBefore = d.sorted ∧
    Feature.requiredRelease d.floor order = d.required ∧
    Feature.requiredLanguageRelease? order = d.requiredLanguageRelease?
  byRelease_ascending : d.byRelease.Pairwise (·.1 < ·.1)
  byRelease_group : ∀ group ∈ d.byRelease, group.2 ≠ [] ∧ ∀ f ∈ group.2, f.release = group.1
  byRelease_eq : d.byRelease.flatMap (·.2) = d.sorted
  language_sublist : d.languageFeatures.Sublist d.sorted
  library_sublist : d.libraryFeatures.Sublist d.sorted
  isLibrary : (∀ f ∈ d.languageFeatures, f.isLibrary = false) ∧
    ∀ f ∈ d.libraryFeatures, f.isLibrary = true
  /-- Each feature is of one of the two kinds. -/
  kinds : (d.libraryFeatures ++ d.languageFeatures).Perm d.sorted
  reported_eq : d.reported = d.sorted.dropWhile (·.release < d.floor)
  required_eq : d.required = (d.sorted.getLast?.map (·.release)).getD d.floor
  requiredLanguage_eq :
    d.requiredLanguageRelease? = d.languageFeatures.getLast?.map (·.release)

variable {d}

theorem views (h : d.features.Nodup) {fs : List Feature} (hfs : ∀ f, f ∈ d.features ↔ f ∈ fs) :
    d.Views fs where
  mem_sorted f := d.perm_sorted.mem_iff.trans (hfs f)
  ascending := ascending_sorted h
  any_order order horder :=
    ⟨sorted_eq_of_perm horder, requiredRelease_of_perm horder,
      requiredLanguageRelease?_of_perm horder⟩
  byRelease_ascending := List.pairwise_map.2 d.releases_ascending
  byRelease_group _ := d.byRelease_group
  byRelease_eq := d.flatMap_byRelease
  language_sublist := List.filter_sublist
  library_sublist := List.filter_sublist
  isLibrary := by
    constructor
    · intro f hf
      simpa using (List.mem_filter.1 hf).2
    · intro f hf
      exact (List.mem_filter.1 hf).2
  kinds := List.filter_append_perm _ _
  reported_eq := d.reported_eq_dropWhile
  required_eq := d.required_eq_getLast?
  requiredLanguage_eq := d.requiredLanguageRelease?_eq_getLast?

theorem check_eq_ok_iff {path : String} {floor required : Int} {fs : List Feature} :
    check path floor fs required = .ok d ↔
      required = Feature.requiredRelease floor fs ∧ ofFeatures path floor fs = d := by
  rw [← Feature.requiredRelease_canonical]
  unfold check
  dsimp only
  split
  · next hrequired =>
    rw [Except.ok.injEq]
    exact (and_iff_right hrequired).symm
  · next hrequired =>
    exact iff_of_false nofun fun h => hrequired h.1

theorem check_congr {fs gs : List Feature} (h : ∀ f, f ∈ gs ↔ f ∈ fs) (path : String)
    (floor required : Int) : check path floor gs required = check path floor fs required := by
  rw [check, ofFeatures_congr (Feature.canonical_congr h)]
  rfl

/-- **The views of a detection agree.** A list of features makes a detection exactly if the release
is that of its newest feature, or the floor for no features; the order of the list and repetitions
play no part. The sorted list ascends and has each feature once. The groups by release make it up in
order, the language and the library features share it out, the reported features are what is left of
it from the first that is no older than the floor, and its last feature is the newest, as is the last
of the language features among these. -/
theorem check_views (path : String) (floor required : Int) (fs : List Feature) :
    ((∃ d, check path floor fs required = .ok d) ↔ (fs = [] ∧ required = floor) ∨
      (∃ f ∈ fs, f.release = required) ∧ ∀ f ∈ fs, f.release ≤ required) ∧
    (∀ d, check path floor fs required = .ok d → d.path = path ∧ d.floor = floor ∧
      d.required = required ∧ d.Views fs) ∧
    ∀ gs, (∀ f, f ∈ gs ↔ f ∈ fs) → check path floor gs required = check path floor fs required := by
  refine ⟨?_, ?_, fun gs h => check_congr h path floor required⟩
  · simp only [check_eq_ok_iff, exists_and_left, exists_eq', and_true]
    exact Feature.eq_requiredRelease_iff
  · intro d hd
    obtain ⟨hrequired, rfl⟩ := check_eq_ok_iff.1 hd
    refine ⟨rfl, rfl, ?_, views (Feature.nodup_canonical fs) fun f => Feature.mem_canonical⟩
    rw [hrequired]
    exact Feature.requiredRelease_canonical floor fs

/-- Features on both sides of release 8 and of both kinds, with a repetition. -/
def mixed : List Feature := [.httpClient, .lambdas, .varargs, .streamApi, .lambdas]

theorem check_views_mixed : ∃ d, check "A.java" 8 mixed 11 = .ok d ∧ d.Views mixed ∧
    d.sorted = [.varargs, .lambdas, .streamApi, .httpClient] ∧
    d.reported = [.lambdas, .streamApi, .httpClient] ∧
    d.languageFeatures = [.varargs, .lambdas] ∧ d.requiredLanguageRelease? = some 8 ∧
    check "A.java" 8 mixed.reverse 11 = .ok d := by
  obtain ⟨hok, hviews, hcongr⟩ := check_views "A.java" 8 11 mixed
  obtain ⟨d, hd⟩ := hok.2 (.inr (by decide))
  obtain ⟨-, hfloor, -, hd'⟩ := hviews d hd
  have hfeatures : d.features = Feature.canonical mixed := by
    rw [← (check_eq_ok_iff.1 hd).2]
    rfl
  have hsorted : d.sorted = [.varargs, .lambdas, .streamApi, .httpClient] := by
    obtain ⟨hsort, -⟩ := hd'.any_order [.varargs, .lambdas, .streamApi, .httpClient]
      (by rw [hfeatures]; decide +kernel)
    rw [← hsort, List.mergeSort_of_pairwise (by decide +kernel)]
  have hlanguage : d.languageFeatures = [.varargs, .lambdas] := by
    rw [languageFeatures, hsorted]
    rfl
  refine ⟨d, hd, hd', hsorted, ?_, hlanguage, ?_, ?_⟩
  · rw [hd'.reported_eq, hsorted, hfloor]
    rfl
  · rw [hd'.requiredLanguage_eq, hlanguage]
    rfl
  · rw [hcongr mixed.reverse fun f => List.mem_reverse, hd]

end Detection

end MinimumRelease
