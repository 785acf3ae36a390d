import MinimumRelease.Parse
import MinimumRelease.Proofs.Grammar.SelfCheck

/-! # How a parse ends

The tree that the parser made of a text is judged by three passes over its
sites: one counts the faults, one looks at the depth, one looks for what the
profile refuses. Each looks only at a tree that the ones before it have passed,
so of several reasons the first is given (`SyntaxTree.Judged`). -/

namespace MinimumRelease

namespace SyntaxTree

/-- The places where the parser could not read the text or put a node in, in document order. -/
def faultSites (t : SyntaxTree) : List Site := t.sites.filter (·.node.isFault)

/-- Some node has more than `limit` ancestors. -/
def DeeperThan (t : SyntaxTree) (limit : Nat) : Prop := ∃ s ∈ t.sites, limit < s.depth

instance (t : SyntaxTree) (limit : Nat) : Decidable (t.DeeperThan limit) :=
  inferInstanceAs (Decidable (∃ s ∈ t.sites, limit < s.depth))

theorem faults_eq (t : SyntaxTree) : t.faults =
    ⟨t.faultSites.length, t.faultSites.head?.map (t.lineOf ·.node)⟩ := by
  have hfold : ∀ (ss : List Site) (f : Faults), ss.foldl
      (fun f s =>
        if s.node.isFault then ⟨f.count + 1, f.firstLine?.or (some (t.lineOf s.node))⟩ else f) f =
      ⟨f.count + (ss.filter (·.node.isFault)).length,
        f.firstLine?.or ((ss.filter (·.node.isFault)).head?.map (t.lineOf ·.node))⟩ := by
    intro ss
    induction ss with
    | nil => simp
    | cons s ss ih =>
      intro f
      rw [List.foldl_cons, ih]
      cases hs : s.node.isFault with
      | false => rw [List.filter_cons_of_neg (by simp [hs])]; simp
      | true =>
        rw [List.filter_cons_of_pos (by exact hs), if_pos rfl, Option.or_assoc, Option.some_or]
        simp only [List.length_cons, List.head?_cons, Option.map_some, Faults.mk.injEq, and_true]
        omega
  rw [faults, Node.foldSites_eq, hfold, Nat.zero_add, Option.none_or]
  rfl

theorem faults_count (t : SyntaxTree) : t.faults.count = t.sites.countP (·.node.isFault) := by
  rw [faults_eq, faultSites, List.countP_eq_length_filter]

end SyntaxTree

/-- A pass that only looks at the depth ends at the first site that is too deep. -/
theorem Walk.visitAll_depth (limit : Nat) (ss : List Site) :
    (visitAll (some limit) (fun _ _ => .yield ()) () ss).2 =
      if ∃ s ∈ ss, limit < s.depth then .tooDeep limit else .finished := by
  induction ss with
  | nil => rfl
  | cons s ss ih =>
    rw [visitAll]
    by_cases hs : limit < s.depth
    · have hexceeded : exceeded? (some limit) s.depth = some limit := by simp [exceeded?, hs]
      rw [hexceeded, if_pos ⟨s, List.mem_cons_self, hs⟩]
    · have hwithin : exceeded? (some limit) s.depth = none := by simpa [exceeded?] using hs
      have hrest : (∃ r ∈ s :: ss, limit < r.depth) ↔ ∃ r ∈ ss, limit < r.depth := by
        simp [hs]
      simp only [hwithin, ih, hrest]

theorem SyntaxTree.walk_depth (t : SyntaxTree) (limit : Nat) :
    (t.root.walk (some limit) (fun _ _ => .yield ()) ()).2 =
      if t.DeeperThan limit then .tooDeep limit else .finished := by
  rw [Node.walk_eq]
  exact Walk.visitAll_depth limit t.sites

/-! ## What a profile refuses first -/

/-- Of the constructs at a site that the profile refuses the first in declaration order. -/
structure Profile.FirstAt (p : Profile) (source : String) (s : Site) (c : Construct) : Prop where
  mem : c ∈ p.rejections
  occurs : c.occursAt source s = true
  least : ∀ d ∈ p.rejections, d.occursAt source s = true → c.index ≤ d.index

/-- The construct that the profile refuses at the first site in document order where it refuses
any. -/
def SyntaxTree.FirstRefused (t : SyntaxTree) (p : Profile) (c : Construct) : Prop :=
  ∃ front s back, t.sites = front ++ s :: back ∧
    (∀ r ∈ front, ∀ d ∈ p.rejections, d.occursAt t.source r = false) ∧ p.FirstAt t.source s c

namespace Profile

variable {p : Profile} {t : SyntaxTree}

theorem find?_eq_some_iff_firstAt (hp : p.Built) {source : String} {s : Site} {c : Construct} :
    p.rejections.find? (·.occursAt source s) = some c ↔ p.FirstAt source s c := by
  rw [Construct.find?_eq_some_iff_least hp.ascending]
  constructor
  · intro h
    exact ⟨h.1, h.2.1, h.2.2⟩
  · intro h
    exact ⟨h.mem, h.occurs, h.least⟩

theorem firstRejection?_eq_some_iff (hp : p.Built) {c : Construct} :
    p.firstRejection? t = some c ↔ t.FirstRefused p c := by
  rw [firstRejection?_eq, List.findSome?_eq_some_iff]
  simp only [find?_eq_some_iff_firstAt hp, List.find?_eq_none, Bool.not_eq_true]
  constructor
  · intro h
    obtain ⟨front, s, back, hsplit, hfirst, hfront⟩ := h
    exact ⟨front, s, back, hsplit, hfront, hfirst⟩
  · intro h
    obtain ⟨front, s, back, hsplit, hfront, hfirst⟩ := h
    exact ⟨front, s, back, hsplit, hfirst, hfront⟩

theorem firstRejection?_eq_none_iff :
    p.firstRejection? t = none ↔ ∀ c ∈ p.rejections, ¬ t.Holds c := by
  rw [← accepts_iff, accepts, Option.isNone_iff_eq_none]

end Profile

/-! ## The judgement -/

/-- What is said of a tree: the first of three reasons to refuse it, or the tree. -/
inductive SyntaxTree.Judged (t : SyntaxTree) (maxDepth : Nat) (profile : Profile) :
    Except ParseError SyntaxTree → Prop
  | malformed {s : Site} {ss : List Site} (faults : t.faultSites = s :: ss) :
      Judged t maxDepth profile (.error (.malformed t.faultSites.length (t.lineOf s.node)))
  | tooDeep (sound : t.faultSites = []) (deep : t.DeeperThan maxDepth) :
      Judged t maxDepth profile (.error (.tooDeep maxDepth))
  | refused {c : Construct} (sound : t.faultSites = []) (shallow : ¬ t.DeeperThan maxDepth)
      (first : t.FirstRefused profile c) :
      Judged t maxDepth profile (.error (.refused c profile.release))
  | accepted (sound : t.faultSites = []) (shallow : ¬ t.DeeperThan maxDepth)
      (allowed : ∀ c ∈ profile.rejections, ¬ t.Holds c) : Judged t maxDepth profile (.ok t)

theorem SyntaxTree.exists_judged (t : SyntaxTree) (maxDepth : Nat) {profile : Profile}
    (hprofile : profile.Built) : ∃ outcome, t.Judged maxDepth profile outcome := by
  cases hfaults : t.faultSites with
  | cons s ss => exact ⟨_, .malformed hfaults⟩
  | nil =>
    by_cases hdeep : t.DeeperThan maxDepth
    · exact ⟨_, .tooDeep hfaults hdeep⟩
    · cases hfirst : profile.firstRejection? t with
      | some c =>
        exact ⟨_, .refused hfaults hdeep ((Profile.firstRejection?_eq_some_iff hprofile).1 hfirst)⟩
      | none => exact ⟨_, .accepted hfaults hdeep (Profile.firstRejection?_eq_none_iff.1 hfirst)⟩

namespace Parser

variable {parser : Parser} {t : SyntaxTree} {maxDepth : Nat}

theorem parseTree_of_faults (ht : parser t.source = .ok t.root) {s : Site} {ss : List Site}
    (hfaults : t.faultSites = s :: ss) : parser.parseTree maxDepth t.source =
      .error (.malformed t.faultSites.length (t.lineOf s.node)) := by
  have hcount : 0 < t.faults.count := by
    rw [SyntaxTree.faults_eq, hfaults]
    exact Nat.succ_pos _
  rw [parseTree, ht]
  dsimp only
  rw [if_pos hcount, SyntaxTree.faults_eq, hfaults]
  rfl

/-- A tree without faults is refused only for its depth. -/
theorem parseTree_of_sound (ht : parser t.source = .ok t.root) (hsound : t.faultSites = []) :
    parser.parseTree maxDepth t.source =
      if t.DeeperThan maxDepth then .error (.tooDeep maxDepth) else .ok t := by
  have hcount : ¬ 0 < t.faults.count := by
    rw [SyntaxTree.faults_eq, hsound]
    exact Nat.lt_irrefl 0
  rw [parseTree, ht]
  dsimp only
  rw [if_neg hcount, t.walk_depth]
  by_cases hdeep : t.DeeperThan maxDepth
  · rw [if_pos hdeep, if_pos hdeep]
  · rw [if_neg hdeep, if_neg hdeep]

theorem parse_of_judged {profile : Profile} {outcome : Except ParseError SyntaxTree}
    (ht : parser t.source = .ok t.root) (hprofile : profile.Built)
    (h : t.Judged maxDepth profile outcome) :
    parser.parse maxDepth profile t.source = outcome := by
  unfold parse
  cases h with
  | malformed hfaults => rw [parseTree_of_faults ht hfaults]
  | tooDeep hsound hdeep => rw [parseTree_of_sound ht hsound, if_pos hdeep]
  | refused hsound hshallow hfirst =>
    rw [parseTree_of_sound ht hsound, if_neg hshallow]
    dsimp only
    rw [(Profile.firstRejection?_eq_some_iff hprofile).2 hfirst]
  | accepted hsound hshallow hallowed =>
    rw [parseTree_of_sound ht hsound, if_neg hshallow]
    dsimp only
    rw [Profile.firstRejection?_eq_none_iff.2 hallowed]

/-- **A parse ends as the tree is judged.** If the tree has faults, the error gives their number and
the line of the first; if not, but a node is too deep, the limit; if neither, but the profile refuses
some construct in it, the first of these at the first site that has one. Otherwise the tree is
returned. -/
theorem parse_outcome {profile : Profile} (maxDepth : Nat) (ht : parser t.source = .ok t.root)
    (hprofile : profile.Built) :
    (∀ outcome, parser.parse maxDepth profile t.source = outcome ↔
      t.Judged maxDepth profile outcome) ∧
    ((∃ c, t.FirstRefused profile c) ↔ ∃ c ∈ profile.rejections, t.Holds c) := by
  refine ⟨?_, ?_⟩
  · intro outcome
    constructor
    · intro h
      obtain ⟨outcome', hjudged⟩ := t.exists_judged maxDepth hprofile
      rw [parse_of_judged ht hprofile hjudged] at h
      exact h ▸ hjudged
    · exact parse_of_judged ht hprofile
  · simp only [← Profile.firstRejection?_eq_some_iff hprofile]
    rw [← Option.isSome_iff_exists, ← Option.ne_none_iff_isSome, ne_eq,
      Profile.firstRejection?_eq_none_iff]
    simp

end Parser

/-! ## A text that is broken and too deep

There is an error in the second line, and something is missing behind it. -/

namespace BrokenFile

def tree : SyntaxTree where
  source := "a;\n)"
  root := ⟨"program", true, false, 0, 4, [],
    [⟨"expression_statement", true, false, 0, 2, [], [⟨"identifier", true, false, 0, 1, [], []⟩]⟩,
     ⟨"ERROR", true, false, 3, 4, [], []⟩, ⟨";", false, true, 4, 4, [], []⟩]⟩

def parser : Parser := fun text => if text = tree.source then .ok tree.root else .error .noTree

theorem malformed_not_tooDeep : tree.DeeperThan 1 ∧
    parser.parse 1 (.ofList 8 Construct.all) tree.source = .error (.malformed 2 2) := by
  have hroot : parser tree.source = .ok tree.root := rfl
  obtain ⟨houtcome, -⟩ := Parser.parse_outcome 1 hroot (.ofList 8 Construct.all)
  obtain ⟨s, ss, hfaults, hline⟩ :
      ∃ s ss, tree.faultSites = s :: ss ∧ tree.lineOf s.node = 2 := ⟨_, _, rfl, rfl⟩
  have hlength : tree.faultSites.length = 2 := rfl
  have hparse := (houtcome _).2 (.malformed hfaults)
  rw [hline, hlength] at hparse
  exact ⟨⟨_, List.mem_of_getElem? (i := 2) rfl, Nat.lt_succ_self 1⟩, hparse⟩

end BrokenFile

end MinimumRelease
