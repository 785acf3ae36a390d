import MinimumRelease.Error
import MinimumRelease.Feature

/-!
# Detections

A detection is the inventory of one file: the features it shows and the release they require. The
required release is always that of the newest feature, or the floor if there is none; the type
holds the proof. The floor hides older features from the report and changes nothing else.
-/

namespace MinimumRelease

/-- The features of a file and the release they require. -/
structure Detection where
  path : String
  /-- The features, in catalog order. -/
  features : List Feature
  required : Int
  floor : Int
  required_eq : required = Feature.requiredRelease floor features

namespace Detection

/-- The detection of the given features. -/
def ofFeatures (path : String) (floor : Int) (features : List Feature) : Detection :=
  ⟨path, Feature.canonical features, _, floor, rfl⟩

theorem ofFeatures_congr {fs gs : List Feature} (h : Feature.canonical fs = Feature.canonical gs)
    (path : String) (floor : Int) : ofFeatures path floor fs = ofFeatures path floor gs := by
  unfold ofFeatures
  congr 1
  rw [h]

/-- The detection of the given features, if they require exactly the release `required`. -/
def check (path : String) (floor : Int) (features : List Feature) (required : Int) :
    Except DetectionError Detection :=
  let d := ofFeatures path floor features
  if required = d.required then .ok d else .error (.releaseMismatch required d.required)

/-- The release that features require is the one that their detection is checked for. -/
theorem check_requiredRelease (path : String) (floor : Int) (fs : List Feature) :
    check path floor fs (Feature.requiredRelease floor fs) = .ok (ofFeatures path floor fs) :=
  if_pos (Feature.requiredRelease_canonical floor fs).symm

/-- Whether the file shows a feature. -/
def contains (d : Detection) (f : Feature) : Bool := d.features.contains f

/-- The features by release, and by name within a release. -/
def sorted (d : Detection) : List Feature := d.features.mergeSort Feature.reportedBefore

/-- The sorted features under the release that introduced them, in ascending order. -/
def byRelease (d : Detection) : List (Int × List Feature) :=
  (d.sorted.map (·.release)).eraseDups.map fun r => (r, d.sorted.filter (·.release = r))

/-- The language features, sorted. -/
def languageFeatures (d : Detection) : List Feature := d.sorted.filter (!·.isLibrary)

/-- The library features, sorted. -/
def libraryFeatures (d : Detection) : List Feature := d.sorted.filter (·.isLibrary)

/-- The features that are no older than the floor, sorted. -/
def reported (d : Detection) : List Feature := d.sorted.filter (d.floor ≤ ·.release)

/-- The release that the language features require, if there is any. -/
def requiredLanguageRelease? (d : Detection) : Option Int :=
  Feature.requiredLanguageRelease? d.features

end Detection

end MinimumRelease
