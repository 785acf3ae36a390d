import MinimumRelease.Error
import MinimumRelease.Feature
import MinimumRelease.Tree.Walk

/-!
# Grammar profiles

A profile says what the grammar of one release refuses. A list of profiles is sound if releases
ascend and each profile accepts all that its predecessor accepts; only adjacent pairs have to be
looked at. The oldest profile that accepts a tree then tells the smallest release for the tree, and
every later profile accepts it as well.
-/

namespace MinimumRelease

/-- The constructs that the grammar of a release refuses. -/
structure Profile where
  release : Int
  rejections : List Construct
deriving DecidableEq

namespace Profile

/-- The profile that refuses the given constructs. They are kept once each, in declaration
order. -/
def ofList (release : Int) (rejections : List Construct) : Profile :=
  ⟨release, Construct.all.filter (· ∈ rejections)⟩

/-- Whether the profile refuses a construct. -/
def rejects (p : Profile) (c : Construct) : Bool := p.rejections.contains c

/-- The profile of another release that refuses the same, less what `allow` accepts. -/
def relaxed (p : Profile) (release : Int) (allow : Construct → Bool) : Profile :=
  ⟨release, p.rejections.filter (!allow ·)⟩

/-- The first construct in document order that the profile refuses. Of several at one node it is
the first in declaration order. -/
def firstRejection? (p : Profile) (t : SyntaxTree) : Option Construct :=
  let visit (_ : Option Construct) (s : Site) : ForInStep (Option Construct) :=
    match p.rejections.find? (·.occursAt t.source s) with
    | some c => .done (some c)
    | none => .yield none
  (t.root.walk none visit none).1

/-- Whether the profile refuses nothing in the tree. -/
def accepts (p : Profile) (t : SyntaxTree) : Bool := (p.firstRejection? t).isNone

end Profile

/-- Profiles from the oldest release to the newest. There is at least one. -/
structure Profiles where
  oldest : Profile
  newer : List Profile

namespace Profiles

/-- All profiles, oldest first. -/
def toList (ps : Profiles) : List Profile := ps.oldest :: ps.newer

/-- What is wrong with a profile that follows another one. The order of releases is looked at
first. -/
def stepFault? (previous next : Profile) : Option ProfileError :=
  if next.release ≤ previous.release then
    some (.notAscending previous.release next.release)
  else
    (next.rejections.find? (!previous.rejects ·)).map
      (.notMonotonic previous.release next.release ·)

/-- The fault of the first adjacent pair that has one. -/
def firstFault? : List Profile → Option ProfileError
  | previous :: next :: rest =>
    match stepFault? previous next with
    | some fault => some fault
    | none => firstFault? (next :: rest)
  | _ => none

/-- Accepts a list of profiles whose releases ascend and whose rejections only shrink. -/
def ofList (ps : List Profile) : Except ProfileError Profiles :=
  match ps with
  | [] => .error .empty
  | oldest :: newer =>
    match firstFault? (oldest :: newer) with
    | some fault => .error fault
    | none => .ok ⟨oldest, newer⟩

/-- The releases of the profiles, ascending. -/
def releases (ps : Profiles) : List Int := ps.toList.map (·.release)

/-- The newest profile. -/
def mostPermissive (ps : Profiles) : Profile := ps.newer.getLastD ps.oldest

/-- The profile for a parser of the given release: the newest that is no newer than the release,
or the oldest one. -/
def upperBound (ps : Profiles) (release : Int) : Profile :=
  (ps.toList.reverse.find? (·.release ≤ release)).getD ps.oldest

/-- One profile for each of the releases, each relaxed from the one before it. -/
def relaxations (p : Profile) : List Int → List Profile
  | [] => []
  | release :: later =>
    let q := p.relaxed release (·.allowedSince ≤ release)
    q :: relaxations q later

/-- The releases that introduce constructs, ascending and each once. -/
def constructReleases : List Int :=
  (Construct.all.map (·.allowedSince)).toArray.insertionSort.toList.eraseReps

/-- The profiles of the Java language as a list. The baseline refuses every construct; each release
that introduces constructs gets a profile that accepts them too. -/
def builtinList : List Profile :=
  let oldest := Profile.ofList baselineRelease
    (Construct.all.filter (baselineRelease < ·.allowedSince))
  oldest :: relaxations oldest (constructReleases.filter (baselineRelease < ·))

theorem isSome_ofList_builtinList : (ofList builtinList).toOption.isSome = true := by decide

/-- The profiles of the Java language. Their list passes the check. -/
def builtin : Profiles := (ofList builtinList).toOption.get isSome_ofList_builtinList

theorem ofList_builtinList : ofList builtinList = .ok builtin := rfl

end Profiles

/-- The outcome of the search for the smallest release. A tree that no profile accepts gets no
guessed release. -/
inductive Verdict where
  | release (n : Int)
  | unparseable
deriving DecidableEq

namespace Verdict

/-- The release, if there is one. -/
def release? : Verdict → Option Int
  | .release n => some n
  | .unparseable => none

/-- The verdict in words. -/
def text : Verdict → String
  | .release n => toString n
  | .unparseable => "unparseable"

end Verdict

/-- The release of the oldest profile that accepts the tree. -/
def Profiles.minimumRelease (ps : Profiles) (t : SyntaxTree) : Verdict :=
  match ps.toList.find? (·.accepts t) with
  | some p => .release p.release
  | none => .unparseable

end MinimumRelease
